import StackVm.Proofs.Lowering.Fragment
import StackVm.Proofs.Lowering.Whole
import StackVm.Proofs.Vm

/-! # What the code of functions, calls and returns does

A function pushes its locals, a call pushes the frame of its caller, and a
return puts that frame back.  Each agrees with the reference machine's rule for
memory, as long as the stack cells it uses lie above the registers.
-/

namespace StackVm

open Asm

namespace Code

open View

variable {program : Program} {pc : Nat} {a d : UInt16} {ram : Ram}

/-! ## Locals -/

theorem crosses_zeros {count : Nat} (hcode : Placed program pc (zeros count))
    (hcells : ∀ i < count, Ram.IsStackCell (ram 0 + UInt16.ofNat i)) :
    Crosses program pc (Code.size (zeros count)) ram (pc + Code.size (zeros count))
      (ram.pushZeros count) := by
  induction count generalizing pc ram with
  | zero => exact Crosses.refl program pc ram
  | succ count ih =>
      obtain ⟨hsp, hrest⟩ := Ram.IsStackCell.of_pushes 0 hcells
      have hvalid : (Place.immediate 0).Valid program ram :=
        ⟨show (0 : UInt16) < 0x8000 by decide, by simp⟩
      rw [zeros_succ] at hcode ⊢
      rw [size_append, ← Nat.add_assoc]
      exact (crosses_push hcode.left hvalid hsp).trans (ih hcode.right hrest)

theorem crosses_function {name : String} {locals : Nat}
    (hcode : Placed program pc (function name locals))
    (hcells : ∀ i < locals, Ram.IsStackCell (ram 0 + UInt16.ofNat i)) :
    Crosses program pc (Code.size (function name locals)) ram
      (pc + Code.size (function name locals)) (ram.pushZeros locals) :=
  crosses_zeros hcode.2 hcells

/-! ## Calls -/

theorem crosses_savePointer {pointer : Pointer} {value : UInt16}
    (hcode : Placed program pc (savePointer pointer)) (hsp : Ram.IsStackCell (ram 0))
    (hvalue : ram pointer.register = value) :
    Crosses program pc 6 ram (pc + 6) (ram.push value) := by
  refine Crosses.of_passes fun a d => ?_
  have hload : Passes program ⟨pc, a, d, ram⟩ (List.range' pc 2)
      ⟨pc + 2, pointer.register, value, ram⟩ := by
    apply Follows.passes hcode.left
    · simp [toD, pointer.register_lt]
    · simp [toD, output, Comp.operand?, Comp.value, hvalue]
  exact ⟨_, _, hload.extend (passes_pushD hcode.right hsp)⟩

theorem crosses_pushLabel {name : String}
    (hcode : Placed program pc ([load name, assign toD (.it .a)] ++ pushD))
    (hname : program.resolve name < 0x8000) (hsp : Ram.IsStackCell (ram 0)) :
    Crosses program pc 6 ram (pc + 6) (ram.push (program.resolve name)) := by
  refine Crosses.of_passes fun a d => ?_
  have hload : Passes program ⟨pc, a, d, ram⟩ (List.range' pc 2)
      ⟨pc + 2, program.resolve name, program.resolve name, ram⟩ := by
    apply Follows.passes hcode.left
    · simp [toD, Comp.operand?, hname]
    · simp [toD, output, Comp.operand?, Comp.value]
  exact ⟨_, _, hload.extend (passes_pushD hcode.right hsp)⟩

/-- Memory after pushing some cells of the stack: the pointers have not changed. -/
structure Pushed (before after : Ram) (count : Nat) : Prop where
  sp : after 0 = before 0 + UInt16.ofNat count
  register : ∀ pointer : Pointer, after pointer.register = before pointer.register

theorem Pushed.push {before after : Ram} {count : Nat} (h : Pushed before after count)
    (value : UInt16) (hcell : Ram.IsStackCell (after 0)) :
    Pushed before (after.push value) (count + 1) := by
  constructor
  · rw [Ram.push_sp value (hcell.ne (by decide)), h.sp, UInt16.add_assoc, UInt16.ofNat_add,
      UInt16.ofNat_one]
  · intro pointer
    rw [Ram.push_register value hcell pointer.register_ne_zero pointer.toNat_register_lt,
      h.register]

theorem crosses_pushFrame {returnLabel : String}
    (hcode : Placed program pc ([load returnLabel, assign toD (.it .a)] ++ pushD ++
      Pointer.saved.flatMap savePointer))
    (hlabel : program.resolve returnLabel < 0x8000)
    (hcells : ∀ i < 5, Ram.IsStackCell (ram 0 + UInt16.ofNat i)) :
    Crosses program pc 30 ram (pc + 30) (ram.pushFrame (program.resolve returnLabel)) := by
  have hcell : ∀ {after : Ram} {i : Nat}, Pushed ram after i → i < 5 →
      Ram.IsStackCell (after 0) := by
    intro after i h hi
    rw [h.sp]
    exact hcells i hi
  have h0 : Pushed ram ram 0 := ⟨by simp, fun _ => rfl⟩
  have h1 := h0.push (program.resolve returnLabel) (hcell h0 (by decide))
  have h2 := h1.push (ram 1) (hcell h1 (by decide))
  have h3 := h2.push (ram 2) (hcell h2 (by decide))
  have h4 := h3.push (ram 3) (hcell h3 (by decide))
  have hsaved : Placed program (pc + 6) (savePointer .lcl ++ (savePointer .arg ++
      (savePointer .this ++ (savePointer .that ++ [])))) := hcode.right
  have label := crosses_pushLabel hcode.left hlabel (hcell h0 (by decide))
  have lcl := crosses_savePointer hsaved.left (hcell h1 (by decide)) (h1.register .lcl)
  have arg := crosses_savePointer hsaved.right.left (hcell h2 (by decide)) (h2.register .arg)
  have this := crosses_savePointer hsaved.right.right.left (hcell h3 (by decide))
    (h3.register .this)
  have that := crosses_savePointer hsaved.right.right.right.left (hcell h4 (by decide))
    (h4.register .that)
  exact label.trans (lcl.trans (arg.trans (this.trans that)))

theorem crosses_setPointers {args : UInt16}
    (hcode : Placed program pc ([load "SP", assign toD (.it .m), loadConstant (args + frameSize),
      assign toD (.sub .a), load "ARG", assign toM .d] ++
      [load "SP", assign toD (.it .m), load "LCL", assign toM .d]))
    (hargs : args + frameSize < 0x8000) :
    Crosses program pc 10 ram (pc + 10) ((ram.set 2 (ram 0 - args - 5)).set 1 (ram 0)) := by
  have hoffset : ram 0 - (args + frameSize) = ram 0 - args - 5 := by
    rw [frameSize]
    grind
  have hsp : ram.set 2 (ram 0 - args - 5) 0 = ram 0 := Ram.set_other _ _ (by decide)
  refine Crosses.of_passes fun a d => ⟨1, ram 0, Follows.passes hcode ?_ ?_⟩
  · simp [toD, toM, hargs]
  · simp [toD, toM, output, Comp.operand?, Comp.value, hoffset, hsp]

/-- A call pushes the frame, sets the callee's pointers and jumps to it. -/
theorem crosses_call {returnLabel name : String} {args : UInt16}
    (hcode : Placed program pc (call returnLabel name args)) (hend : pc + 42 ≤ 32767)
    (hargs : args + frameSize < 0x8000) (hname : program.resolve name < 0x8000)
    (hcells : ∀ i < 5, Ram.IsStackCell (ram 0 + UInt16.ofNat i)) :
    Crosses program pc 42 ram (program.resolve name).toNat
      (ram.enter (UInt16.ofNat (pc + 42)) args) := by
  have hlabel : Placed program (pc + 42) [.label returnLabel] := hcode.right
  have hjump : Placed program (pc + 40) (jumpTo name) := hcode.left.right
  have hpointers : Placed program pc (([load returnLabel, assign toD (.it .a)] ++ pushD ++
      Pointer.saved.flatMap savePointer) ++ ([load "SP", assign toD (.it .m),
      loadConstant (args + frameSize), assign toD (.sub .a), load "ARG", assign toM .d] ++
      [load "SP", assign toD (.it .m), load "LCL", assign toM .d])) := hcode.left.left
  have haddress : program.resolve returnLabel = UInt16.ofNat (pc + 42) := by
    rw [Program.resolve, hlabel.1, Option.getD_some]
  have frame := crosses_pushFrame hpointers.left (program.resolve_lt hlabel.1 hend) hcells
  have hentered := frame.trans (crosses_setPointers hpointers.right hargs)
  rw [haddress] at hentered
  exact hentered.trans (crosses_jumpTo hjump hname)

/-! ## Returns -/

theorem crosses_restorePointer {pointer : Pointer} {depth frame value : UInt16}
    (hcode : Placed program pc (restorePointer "R14" pointer depth)) (hdepth : depth < 0x8000)
    (hcell : Ram.IsStackCell (frame - depth)) (hframe : ram 14 = frame)
    (hvalue : ram (frame - depth) = value) :
    Crosses program pc 7 ram (pc + 7) (ram.set pointer.register value) := by
  refine Crosses.of_passes fun a d => ⟨pointer.register, value, Follows.passes hcode ?_ ?_⟩
  · simp [restorePointer, toD, toA, toM, output, Comp.operand?, Comp.value, hframe, hdepth,
      hcell.lt, pointer.register_lt]
  · simp [restorePointer, toD, toA, toM, output, Comp.operand?, Comp.value, hframe, hvalue]

/-- Memory after restoring some pointers: the frame and its address have not changed. -/
structure Framed (frame : UInt16) (before after : Ram) : Prop where
  scratch : after 14 = frame
  cell : ∀ i ∈ [1, 2, 3, 4, 5], after (frame - i) = before (frame - i)

theorem Framed.set {frame : UInt16} {before after : Ram} (h : Framed frame before after)
    (hcells : ∀ i ∈ [1, 2, 3, 4, 5], Ram.IsStackCell (frame - i)) (pointer : Pointer)
    (value : UInt16) : Framed frame before (after.set pointer.register value) := by
  constructor
  · rw [Ram.set_other _ _ (by cases pointer <;> decide), h.scratch]
  · intro i hi
    rw [Ram.set_other _ _ ((hcells i hi).ne pointer.toNat_register_lt), h.cell i hi]

theorem crosses_restorePointers {frame : UInt16}
    (hcode : Placed program pc (restorePointer "R14" .that 1 ++ (restorePointer "R14" .this 2 ++
      (restorePointer "R14" .arg 3 ++ restorePointer "R14" .lcl 4))))
    (hcells : ∀ i ∈ [1, 2, 3, 4, 5], Ram.IsStackCell (frame - i)) (hframe : ram 14 = frame) :
    Crosses program pc 28 ram (pc + 28) (ram.restore frame) := by
  have h0 : Framed frame ram ram := ⟨hframe, fun _ _ => rfl⟩
  have h1 := h0.set hcells .that (ram (frame - 1))
  have h2 := h1.set hcells .this (ram (frame - 2))
  have h3 := h2.set hcells .arg (ram (frame - 3))
  have that := crosses_restorePointer hcode.left (by decide) (hcells 1 (by decide)) h0.scratch
    (h0.cell 1 (by decide))
  have this := crosses_restorePointer hcode.right.left (by decide) (hcells 2 (by decide))
    h1.scratch (h1.cell 2 (by decide))
  have arg := crosses_restorePointer hcode.right.right.left (by decide) (hcells 3 (by decide))
    h2.scratch (h2.cell 3 (by decide))
  have lcl := crosses_restorePointer hcode.right.right.right (by decide) (hcells 4 (by decide))
    h3.scratch (h3.cell 4 (by decide))
  exact that.trans (this.trans (arg.trans lcl))

/-- The first part of a return keeps the frame's end and the return address in registers. -/
theorem crosses_parkFrame
    (hcode : Placed program pc ([load "LCL", assign toD (.it .m), load "R14", assign toM .d] ++
      [loadConstant frameSize, assign toA (.sub .a), assign toD (.it .m), load "R15",
        assign toM .d]))
    (hcell : Ram.IsStackCell (ram 1 - 5)) :
    Crosses program pc 9 ram (pc + 9) ((ram.set 14 (ram 1)).set 15 (ram (ram 1 - 5))) := by
  have hlt := hcell.lt
  have hread : ram.set 14 (ram 1) (ram 1 - 5) = ram (ram 1 - 5) :=
    Ram.set_other _ _ (hcell.ne (by decide))
  refine Crosses.of_passes fun a d => ⟨15, ram (ram 1 - 5), Follows.passes hcode ?_ ?_⟩
  · simp [toD, toA, toM, output, Comp.operand?, Comp.value, frameSize, hlt]
  · simp [toD, toA, toM, output, Comp.operand?, Comp.value, frameSize, hread]

theorem crosses_jumpBack {target : UInt16}
    (hcode : Placed program pc [load "R15", assign toA (.it .m), jumpIf .zero .always])
    (htarget : ram 15 = target) : Crosses program pc 3 ram target.toNat ram := by
  have hsplit : Placed program pc ([load "R15", assign toA (.it .m)] ++
      [jumpIf .zero .always]) := hcode
  refine Crosses.of_passes fun a d => ?_
  have hload : Passes program ⟨pc, a, d, ram⟩ (List.range' pc 2) ⟨pc + 2, target, d, ram⟩ := by
    apply Follows.passes hsplit.left
    · simp [toA]
    · simp [toA, output, Comp.operand?, Comp.value, htarget]
  exact ⟨_, _, hload.extend (passes_jumpIf target d ram hsplit.right rfl)⟩

/-- The second part of a return stores the result and cuts the stack above it. -/
theorem crosses_giveResult
    (hcode : Placed program pc (pop "R13" (.offset .arg 0) ++
      [load "ARG", assign toD (.succ .m), load "SP", assign toM .d]))
    (htop : Ram.IsStackCell (ram 0 - 1)) (harg : ram 2 < 0x8000) :
    Crosses program pc 16 ram (pc + 16) (ram.set 13 (ram 2)).giveResult := by
  have haddress : (Place.offset .arg 0).address program ram = ram 2 := by
    simp [Place.address, Pointer.register]
  have hvalid : (Place.offset .arg 0).Valid program ram := by
    refine ⟨by rwa [haddress], ?_⟩
    rintro base index ⟨⟩
    decide
  have hpop : Crosses program pc 12 ram (pc + 12)
      ((ram.set 13 (ram 2)).drop.set (ram 2) ram.top) := by
    have := crosses_pop hcode.left hvalid htop
    rwa [haddress] at this
  have hvalue : (ram.set 13 (ram 2)).top = ram.top :=
    Ram.top_set (ram 2) htop (by decide) (by decide)
  have hcut : Placed program (pc + 12)
      [load "ARG", assign toD (.succ .m), load "SP", assign toM .d] := hcode.right
  rw [Ram.giveResult, hvalue, Ram.set_other _ _ (show (2 : UInt16) ≠ 13 by decide)]
  refine hpop.trans (Crosses.of_passes fun a d => ⟨_, _, Follows.passes hcut ?_ rfl⟩)
  simp [toD]

/--
A return.  The result may not overwrite the registers that hold the frame's end
and the return address.
-/
theorem crosses_ret (hcode : Placed program pc (ret "R13" "R14" "R15"))
    (htop : Ram.IsStackCell (ram 0 - 1))
    (hcells : ∀ i ∈ [1, 2, 3, 4, 5], Ram.IsStackCell (ram 1 - i))
    (harg : ram 2 < 0x8000) (hframe : ram 2 ≠ 14) (hreturn : ram 2 ≠ 15) :
    Crosses program pc 56 ram (ram (ram 1 - 5)).toNat ram.parkReturn.leave := by
  have hsplit : Placed program pc (([load "LCL", assign toD (.it .m), load "R14", assign toM .d] ++
      [loadConstant frameSize, assign toA (.sub .a), assign toD (.it .m), load "R15",
        assign toM .d]) ++ ((pop "R13" (.offset .arg 0) ++
      [load "ARG", assign toD (.succ .m), load "SP", assign toM .d]) ++
      ((restorePointer "R14" .that 1 ++ (restorePointer "R14" .this 2 ++
        (restorePointer "R14" .arg 3 ++ restorePointer "R14" .lcl 4))) ++
      [load "R15", assign toA (.it .m), jumpIf .zero .always]))) := by
    simpa [ret] using hcode
  have hpark := crosses_parkFrame hsplit.left (hcells 5 (by decide))
  generalize hparked : (ram.set 14 (ram 1)).set 15 (ram (ram 1 - 5)) = parked at hpark
  have hsame : ∀ cell, cell ≠ 14 → cell ≠ 15 → parked cell = ram cell := by
    intro cell h14 h15
    rw [← hparked, Ram.set_other _ _ h15, Ram.set_other _ _ h14]
  have hsp := hsame 0 (by decide) (by decide)
  have harg' := hsame 2 (by decide) (by decide)
  have hreturned : parked.set 13 (parked 2) = ram.parkReturn := by
    rw [harg', ← hparked]
    rfl
  have hgive : Crosses program (pc + 9) 16 parked (pc + 25) ram.parkReturn.giveResult := by
    rw [← hreturned]
    exact crosses_giveResult hsplit.right.left (by rwa [hsp]) (by rwa [harg'])
  have hscratch : ∀ cell, cell ≠ 0 → cell ≠ ram 2 →
      ram.parkReturn.giveResult cell = ram.parkReturn cell := by
    intro cell hzero hcell
    have hbase : ram.parkReturn 2 = ram 2 := rfl
    rw [Ram.giveResult, Ram.set_other _ _ hzero, hbase, Ram.set_other _ _ hcell,
      Ram.drop_other _ hzero]
  have hrestore : Crosses program (pc + 25) 28 ram.parkReturn.giveResult (pc + 53)
      ram.parkReturn.leave :=
    crosses_restorePointers hsplit.right.right.left hcells
      (hscratch 14 (by decide) (Ne.symm hframe))
  have hjump : Crosses program (pc + 53) 3 ram.parkReturn.leave (ram (ram 1 - 5)).toNat
      ram.parkReturn.leave :=
    crosses_jumpBack hsplit.right.right.right (hscratch 15 (by decide) (Ne.symm hreturn))
  exact hpark.trans (hgive.trans (hrestore.trans hjump))

theorem executes_ret (hcode : Placed program pc (ret "R13" "R14" "R15"))
    (htop : Ram.IsStackCell (ram 0 - 1))
    (hcells : ∀ i ∈ [1, 2, 3, 4, 5], Ram.IsStackCell (ram 1 - i))
    (harg : ram 2 < 0x8000) (hframe : ram 2 ≠ 14) (hreturn : ram 2 ≠ 15) :
    Executes program pc ram (ram (ram 1 - 5)).toNat ram.parkReturn.leave :=
  (crosses_ret hcode htop hcells harg hframe hreturn).executes

end Code

end StackVm
