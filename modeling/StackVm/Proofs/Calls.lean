import StackVm.Proofs.Simulation

/-! # The calling convention

A run through a callee and everything that it calls, up to the matching return.
Each active call has a frame on the stack: the return address and the pointers
of the caller.  Commands that keep to their own part of the stack leave the
frames alone, so every return finds what its call has saved.
-/

namespace StackVm

open Asm

/-! ## Runs -/

/-- The number of values that a command takes from the stack. -/
def Command.consumed : Command → UInt16
  | .arith op => if op.arity = 1 then 1 else 2
  | .pop _ _ => 1
  | .ifGoto _ => 1
  | .call _ args => args
  | .ret => 1
  | _ => 0

namespace Vm

/--
A point of a run: the command to execute next, data memory, and for each active
call, from the innermost one, where its frame ends.
-/
structure Point where
  position : Nat
  ram : Ram
  frames : List UInt16

def framesAfter (command : Command) (point : Point) : List UInt16 :=
  match command with
  | .call _ _ => (point.ram 0 + 5) :: point.frames
  | .ret => point.frames.tail
  | _ => point.frames

def pushCell? (vm : Vm) (site : Site) (ram : Ram) : Option UInt16 :=
  match site.command with
  | .push segment index =>
      if segment = .constants then none else some (vm.cell site.unit ram segment index)
  | _ => none

def popCell? (vm : Vm) (site : Site) (ram : Ram) : Option UInt16 :=
  match site.command with
  | .pop segment index => some (vm.cell site.unit ram segment index)
  | _ => none

/-- Where a pop may store: a pointer or a `temp` cell, or above the registers but in no frame. -/
structure IsDestination (frames : List UInt16) (cell : UInt16) : Prop where
  range : (3 ≤ cell ∧ cell ≤ 12) ∨ Ram.IsStackCell cell
  outside : ∀ frame ∈ frames, ∀ i ∈ [1, 2, 3, 4, 5], cell ≠ frame - i

/--
A command keeps to the stack and to its own part of it: in a callee it takes no
value from below the callee's locals.
-/
structure Orderly (vm : Vm) (site : Site) (point : Point) : Prop where
  stack : ∀ cell ∈ stackCells site.command point.ram, Ram.IsStackCell cell
  push : ∀ cell, vm.pushCell? site point.ram = some cell → cell < 0x8000
  pop : ∀ cell, vm.popCell? site point.ram = some cell → IsDestination point.frames cell
  operands : point.frames ≠ [] →
    ∀ i < site.command.consumed, point.ram 1 ≤ point.ram 0 - 1 - i

/-- One orderly command of a run, which leaves its scratch registers behind. -/
def Step (vm : Vm) (x y : Point) : Prop :=
  ∃ site, vm.sites[x.position]? = some site ∧ vm.Orderly site x ∧
    vm.next? x.position (vm.parked site x.ram) = some (vm.start y.position, y.ram) ∧
    y.frames = framesAfter site.command x

/-- A first command, and then commands inside of active calls. -/
inductive Run (vm : Vm) (x : Point) : Point → Prop where
  | enter {y : Point} (h : vm.Step x y) : Run vm x y
  | step {y z : Point} (h : Run vm x y) (hactive : y.frames ≠ []) (hstep : vm.Step y z) :
      Run vm x z

end Vm

/-- The frame of an orderly call lies on the stack. -/
theorem Vm.Orderly.frame_le {vm : Vm} {site : Site} {x : Vm.Point} {name : String} {args : UInt16}
    (h : vm.Orderly site x) (hcommand : site.command = .call name args) :
    16 ≤ x.ram 0 ∧ x.ram 0 ≤ 32763 := by
  have hstack := h.stack
  rw [hcommand] at hstack
  have hfirst := Ram.isStackCell_iff.1 (hstack (x.ram 0 + UInt16.ofNat 0)
    (List.mem_map.2 ⟨0, List.mem_range.2 (by decide), rfl⟩))
  have hlast := Ram.isStackCell_iff.1 (hstack (x.ram 0 + UInt16.ofNat 4)
    (List.mem_map.2 ⟨4, List.mem_range.2 (by decide), rfl⟩))
  simp only [UInt16.reduceOfNat, UInt16.add_zero] at hfirst hlast
  grind

/-! ## Active calls -/

/-- A call that has not returned: memory before it, its argument count, and where to go on. -/
structure Activation where
  caller : Ram
  args : UInt16
  resume : Nat

namespace Activation

/-- Where the frame ends and the locals of the callee begin. -/
def base (call : Activation) : UInt16 :=
  call.caller 0 + 5

/-- Where the arguments begin, and the result goes. -/
def result (call : Activation) : UInt16 :=
  call.caller 0 - call.args

/-- The arguments and the frame lie on the stack. -/
structure Valid (call : Activation) : Prop where
  args_le : call.args ≤ call.caller 0
  le_result : 16 ≤ call.result
  sp_le : call.caller 0 ≤ 32763

/-- The frame holds the return address and the pointers of the caller. -/
structure Saved (call : Activation) (ram : Ram) : Prop where
  address : ram (call.caller 0) = UInt16.ofNat call.resume
  pointers : ∀ i ∈ [1, 2, 3, 4], ram (call.caller 0 + i) = call.caller i

/-- A call was made by the callee of an outer one, and has its arguments from there. -/
structure Within (call outer : Activation) : Prop where
  locals : call.caller 1 = outer.base
  arguments : call.caller 2 = outer.result
  above : outer.base ≤ call.result

/-- Active calls, each made by the callee of the next one. -/
def Nested : List Activation → Prop
  | call :: outer :: rest => call.Within outer ∧ Nested (outer :: rest)
  | _ => True

end Activation

/-! ## Commands inside of a callee -/

/-- Memory changes only on the stack from an address on, and the stack does not end below it. -/
structure Ram.ChangesAbove (base : UInt16) (ram after : Ram) : Prop where
  kept : ∀ cell, cell ≠ 0 → cell < base → after cell = ram cell
  base_le : base ≤ after 0

namespace Ram.ChangesAbove

variable {base : UInt16} {ram : Ram}

theorem refl (hbase : base ≤ ram 0) : ChangesAbove base ram ram :=
  ⟨fun _ _ _ => rfl, hbase⟩

theorem push (value : UInt16) (hbase : base ≤ ram 0) (hsp : IsStackCell (ram 0)) :
    ChangesAbove base ram (ram.push value) := by
  have hrange := isStackCell_iff.1 hsp
  refine ⟨fun cell hzero hcell => ?_, ?_⟩
  · exact push_other _ _ hzero (by grind)
  · rw [push_sp _ (by grind)]
    grind

theorem drop (hbase : base ≤ ram 0 - 1) : ChangesAbove base ram ram.drop := by
  refine ⟨fun cell hzero _ => drop_other _ hzero, ?_⟩
  rwa [drop_sp]

theorem arith {op : ArithOp} (hcells : ∀ cell ∈ Vm.stackCells (.arith op) ram, IsStackCell cell)
    (hoperands : ∀ i < (Command.arith op).consumed, base ≤ ram 0 - 1 - i) :
    ChangesAbove base ram (ram.arith op) := by
  have htop := isStackCell_iff.1 (hcells (ram 0 - 1) (by simp only [Vm.stackCells]; split <;> simp))
  have hlow := hoperands 0 (by simp only [Command.consumed]; split <;> decide)
  by_cases harity : op.arity = 1
  · refine ⟨fun cell _ hcell => ?_, ?_⟩
    · rw [Ram.arith, if_pos harity, set_other _ _ (by grind)]
    · rw [arith_sp hcells, if_pos harity]
      grind
  · have hlower := hoperands 1 (by simp [Command.consumed, harity])
    refine ⟨fun cell hzero hcell => ?_, ?_⟩
    · rw [Ram.arith, if_neg harity, set_other _ _ (by grind), drop_other _ hzero]
    · rw [arith_sp hcells, if_neg harity]
      grind

theorem pushZeros (count : Nat) (hbase : base ≤ ram 0)
    (hcells : ∀ i < count, IsStackCell (ram 0 + UInt16.ofNat i)) :
    ChangesAbove base ram (ram.pushZeros count) := by
  induction count generalizing ram with
  | zero => exact refl hbase
  | succ count ih =>
      obtain ⟨hsp, hrest⟩ := IsStackCell.of_pushes 0 hcells
      have hpush := push 0 hbase hsp
      have hzeros := ih hpush.base_le hrest
      refine ⟨fun cell hzero hcell => ?_, hzeros.base_le⟩
      rw [Ram.pushZeros, hzeros.kept cell hzero hcell, hpush.kept cell hzero hcell]

end Ram.ChangesAbove

namespace Vm

variable {vm : Vm} {site : Site} {x : Point}

/-- A cell that a command inside of a callee leaves as it is. -/
structure Kept (vm : Vm) (site : Site) (ram : Ram) (cell : UInt16) : Prop where
  ne_sp : cell ≠ 0
  ne_scratch : cell ≠ 13
  below : cell < ram 1
  ne_pop : vm.popCell? site ram ≠ some cell

/-- What a command other than a call or a return leaves alone inside of a callee. -/
theorem Orderly.agree_of_effect {next address : Nat} {after : Ram} (horderly : vm.Orderly site x)
    (hactive : x.frames ≠ []) (hbase : x.ram 1 ≤ x.ram 0)
    (hcall : ∀ name args, site.command ≠ .call name args) (hret : site.command ≠ .ret)
    (h : vm.effect? site next (vm.parked site x.ram) = some (address, after)) :
    Ram.Agree (vm.Kept site x.ram) after x.ram ∧ x.ram 1 ≤ after 0 := by
  have habove : ∀ {other : Ram}, Ram.ChangesAbove (x.ram 1) x.ram other →
      Ram.Agree (vm.Kept site x.ram) other x.ram ∧ x.ram 1 ≤ other 0 :=
    fun hchange => ⟨fun cell hcell => hchange.kept cell hcell.ne_sp hcell.below, hchange.base_le⟩
  obtain ⟨hstack, -, hpop, hoperands⟩ := horderly
  have hoperands := hoperands hactive
  obtain ⟨unit, function, command⟩ := site
  cases command with
  | arith op =>
      cases h
      exact habove (.arith hstack hoperands)
  | push segment index =>
      cases h
      exact habove (.push _ hbase (hstack _ (by simp [stackCells])))
  | pop segment index =>
      have htop : Ram.IsStackCell (x.ram 0 - 1) := hstack _ (by simp [stackCells])
      have hrange := Ram.isStackCell_iff.1 htop
      have hlow : x.ram 1 ≤ x.ram 0 - 1 - 0 := hoperands 0 (show (0 : UInt16) < 1 by decide)
      have hdestination := (hpop _ rfl).range
      simp only [effect?, parked, cell_set _ _ _ _ _ _ (show 5 ≤ (13 : UInt16).toNat by decide),
        Ram.top_set _ htop (show (13 : UInt16) ≠ 0 by decide) (by decide)] at h
      cases h
      refine ⟨fun cell hcell => ?_, ?_⟩
      · have hne : cell ≠ vm.cell unit x.ram segment index := fun heq =>
          hcell.ne_pop (congrArg some heq.symm)
        rw [Ram.set_other _ _ hne, Ram.drop_other _ hcell.ne_sp, Ram.set_other _ _ hcell.ne_scratch]
      · have hne : (0 : UInt16) ≠ vm.cell unit x.ram segment index := by
          rcases hdestination with hlow | hcell
          · grind
          · exact Ne.symm (hcell.ne (by decide))
        rw [Ram.set_other _ _ hne, Ram.drop_sp, Ram.set_other _ _ (by decide)]
        grind
  | label name =>
      cases h
      exact habove (.refl hbase)
  | goto name =>
      obtain ⟨target, -, hresult⟩ := Option.map_eq_some_iff.1 h
      cases hresult
      exact habove (.refl hbase)
  | ifGoto name =>
      obtain ⟨target, -, hresult⟩ := Option.map_eq_some_iff.1 h
      cases hresult
      have hlow : x.ram 1 ≤ x.ram 0 - 1 - 0 := hoperands 0 (show (0 : UInt16) < 1 by decide)
      exact habove (.drop (by simpa using hlow))
  | function name locals =>
      cases h
      exact habove (.pushZeros _ hbase fun i hi =>
        hstack _ (List.mem_map.2 ⟨i, List.mem_range.2 hi, rfl⟩))
  | call name args => exact absurd rfl (hcall name args)
  | ret => exact absurd rfl hret

end Vm

/-! ## Calls and returns -/

namespace Ram

/-- The frame takes five cells: the return address, and then pointer `i` in cell `i`. -/
theorem pushFrame_spec {ram : Ram} (address : UInt16) (hlow : 16 ≤ ram 0)
    (hhigh : ram 0 ≤ 32763) :
    ram.pushFrame address 0 = ram 0 + 5 ∧ ram.pushFrame address (ram 0) = address ∧
      (∀ i ∈ [1, 2, 3, 4], ram.pushFrame address (ram 0 + i) = ram i) ∧
      ∀ cell, cell ≠ 0 → cell < ram 0 → ram.pushFrame address cell = ram cell := by
  have h1 : ram.push address 0 = ram 0 + 1 := by grind [push_apply]
  have h2 : (ram.push address).push (ram 1) 0 = ram 0 + 2 := by grind [push_apply]
  have h3 : ((ram.push address).push (ram 1)).push (ram 2) 0 = ram 0 + 3 := by grind [push_apply]
  have h4 : (((ram.push address).push (ram 1)).push (ram 2)).push (ram 3) 0 = ram 0 + 4 := by
    grind [push_apply]
  rw [pushFrame]
  refine ⟨?_, ?_, ?_, ?_⟩
  · grind [push_apply]
  · grind [push_apply]
  · simp only [List.forall_mem_cons, List.not_mem_nil, false_imp_iff, implies_true, and_true]
    refine ⟨?_, ?_, ?_, ?_⟩
    all_goals grind [push_apply]
  · intro cell hzero hcell
    grind [push_apply]

theorem pointer_bounds {i : UInt16} (hi : i ∈ [1, 2, 3, 4]) : 1 ≤ i ∧ i ≤ 4 := by
  simp only [List.mem_cons, List.not_mem_nil, or_false] at hi
  rcases hi with rfl | rfl | rfl | rfl <;> decide

/-- A call saves its frame, and the callee's part of the stack starts after it. -/
theorem enter_spec {ram : Ram} (address args : UInt16) (hlow : 16 ≤ ram 0)
    (hhigh : ram 0 ≤ 32763) :
    ram.enter address args 0 = ram 0 + 5 ∧ ram.enter address args 1 = ram 0 + 5 ∧
      ram.enter address args 2 = ram 0 - args ∧ ram.enter address args (ram 0) = address ∧
      (∀ i ∈ [1, 2, 3, 4], ram.enter address args (ram 0 + i) = ram i) ∧
      ∀ cell, 16 ≤ cell → cell < ram 0 → ram.enter address args cell = ram cell := by
  obtain ⟨hsp, haddress, hpointers, hbelow⟩ := pushFrame_spec address hlow hhigh
  have hother : ∀ cell : UInt16, cell ≠ 1 → cell ≠ 2 →
      ram.enter address args cell = ram.pushFrame address cell := by
    intro cell hone htwo
    rw [enter, set_other _ _ hone, set_other _ _ htwo]
  refine ⟨?_, ?_, ?_, ?_, fun i hi => ?_, fun cell hcell hlt => ?_⟩
  · rw [hother 0 (by decide) (by decide), hsp]
  · rw [enter, set_same, hsp]
  · rw [enter, set_other _ _ (by decide), set_same, hsp]
    grind
  · rw [hother _ (by grind) (by grind), haddress]
  · have hsmall := pointer_bounds hi
    rw [hother _ (by grind) (by grind), hpointers i hi]
  · rw [hother _ (by grind) (by grind), hbelow _ (by grind) hlt]

theorem restore_other (ram : Ram) (frame : UInt16) {cell : UInt16} (h : cell ∉ [1, 2, 3, 4]) :
    ram.restore frame cell = ram cell := by
  simp only [List.mem_cons, List.not_mem_nil, or_false, not_or] at h
  rw [restore, set_other _ _ h.1, set_other _ _ h.2.1, set_other _ _ h.2.2.1,
    set_other _ _ h.2.2.2]

theorem restore_pointer (ram : Ram) (frame : UInt16) :
    ∀ i ∈ [1, 2, 3, 4], ram.restore frame i = ram (frame - 5 + i) := by
  have h : ∀ i : UInt16, frame - 5 + i = frame - (5 - i) := by grind
  simp only [List.forall_mem_cons, List.not_mem_nil, false_imp_iff, implies_true, and_true, h]
  exact ⟨rfl, rfl, rfl, rfl⟩

theorem giveResult_apply {ram : Ram} (hresult : IsStackCell (ram 2)) (cell : UInt16) :
    ram.giveResult cell =
      if cell = 0 then ram 2 + 1 else if cell = ram 2 then ram.top else ram cell := by
  have hrange := isStackCell_iff.1 hresult
  have hkept : ram.drop.set (ram 2) ram.top 2 = ram 2 := by
    rw [set_other _ _ (by grind), drop_other _ (by decide)]
  rw [giveResult, hkept]
  by_cases hzero : cell = 0
  · simp [hzero]
  · rw [set_other _ _ hzero, if_neg hzero]
    by_cases hcell : cell = ram 2
    · simp [hcell]
    · rw [set_other _ _ hcell, if_neg hcell, drop_other _ hzero]

theorem leave_spec {ram : Ram} (hresult : IsStackCell (ram 2)) (hframe : ram 2 ≤ ram 1 - 5)
    (hlow : 21 ≤ ram 1) (hhigh : ram 1 ≤ 32768) :
    ram.leave 0 = ram 2 + 1 ∧ ram.leave (ram 2) = ram.top ∧
      (∀ i ∈ [1, 2, 3, 4], ram.leave i = ram (ram 1 - 5 + i)) ∧
      ∀ cell, 16 ≤ cell → cell ≠ ram 2 → ram.leave cell = ram cell := by
  have hrange := isStackCell_iff.1 hresult
  have hregister : ∀ cell : UInt16, 16 ≤ cell → cell ∉ [1, 2, 3, 4] := by
    intro cell hcell
    simp only [List.mem_cons, List.not_mem_nil, or_false]
    grind
  refine ⟨?_, ?_, ?_, ?_⟩
  · rw [leave, restore_other _ _ (by decide), giveResult_apply hresult, if_pos rfl]
  · rw [leave, restore_other _ _ (hregister _ hrange.1), giveResult_apply hresult,
      if_neg (by grind), if_pos rfl]
  · intro i hi
    have hsmall := pointer_bounds hi
    rw [leave, restore_pointer _ _ i hi, giveResult_apply hresult, if_neg (by grind),
      if_neg (by grind)]
  · intro cell hcell hne
    rw [leave, restore_other _ _ (hregister _ hcell), giveResult_apply hresult,
      if_neg (by grind), if_neg hne]

end Ram

/-! ## The invariant -/

namespace Activation

variable {call : Activation}

/-- The result, the frame and the locals follow each other. -/
theorem Valid.result_le (h : call.Valid) : call.result ≤ call.caller 0 ∧
    call.caller 0 + 5 = call.base ∧ call.caller 0 ≤ 32763 := by
  have hargs := h.args_le
  refine ⟨?_, rfl, h.sp_le⟩
  rw [result]
  grind

/-- The cells of a frame lie from the stack pointer of the caller on, below the locals. -/
theorem Valid.frame_le (h : call.Valid) {i : UInt16} (hi : i ≤ 4) :
    call.caller 0 ≤ call.caller 0 + i ∧ call.caller 0 + i < call.base := by
  have hsp := h.sp_le
  rw [base]
  simp only [UInt16.le_iff_toNat_le, UInt16.lt_iff_toNat_lt, UInt16.toNat_add,
    UInt16.reduceToNat] at *
  omega

/-- All outer frames end below the arguments of a call. -/
theorem Nested.base_le_result {outer : List Activation} (h : Nested (call :: outer))
    (hvalid : ∀ other ∈ outer, other.Valid) : ∀ other ∈ outer, other.base ≤ call.result := by
  induction outer generalizing call with
  | nil => simp
  | cons next rest ih =>
      obtain ⟨hwithin, hnested⟩ := h
      have hnext := (hvalid next List.mem_cons_self).result_le
      have habove := hwithin.above
      intro other hother
      rcases List.mem_cons.1 hother with rfl | hother
      · exact habove
      · have hle := ih hnested (fun a ha => hvalid a (List.mem_cons_of_mem _ ha)) other hother
        have hother := (hvalid other (List.mem_cons_of_mem _ hother)).result_le
        grind

end Activation

namespace Vm

/-- A point inside of nested calls, the innermost first: the frames are intact. -/
structure Inside (x : Point) (call : Activation) (outer : List Activation) : Prop where
  frames : x.frames = (call :: outer).map Activation.base
  valid : ∀ other ∈ call :: outer, other.Valid
  saved : ∀ other ∈ call :: outer, other.Saved x.ram
  nested : Activation.Nested (call :: outer)
  locals : x.ram 1 = call.base
  arguments : x.ram 2 = call.result
  base_le : call.base ≤ x.ram 0

namespace Inside

variable {vm : Vm} {site : Site} {x y : Point} {call : Activation} {outer : List Activation}

theorem frames_ne_nil (h : Inside x call outer) : x.frames ≠ [] := by
  rw [h.frames]
  exact List.cons_ne_nil _ _

/-- All frames lie on the stack, below the locals of the callee. -/
theorem frame_below (h : Inside x call outer) {other : Activation} (hother : other ∈ call :: outer)
    {i : UInt16} (hi : i ≤ 4) : 16 ≤ other.caller 0 + i ∧ other.caller 0 + i < x.ram 1 := by
  have hvalid := h.valid other hother
  have hlow := hvalid.le_result
  have horder := hvalid.result_le
  have hcall := (h.valid call List.mem_cons_self).result_le
  have hcell := hvalid.frame_le hi
  rw [h.locals]
  refine ⟨by grind, ?_⟩
  rcases List.mem_cons.1 hother with rfl | houter
  · exact hcell.2
  · have hle := h.nested.base_le_result
      (fun a ha => h.valid a (List.mem_cons_of_mem _ ha)) other houter
    grind

/-- No command of a callee changes a frame. -/
theorem kept_frame (h : Inside x call outer) (horderly : vm.Orderly site x) {other : Activation}
    (hother : other ∈ call :: outer) {i : UInt16} (hi : i ≤ 4) :
    vm.Kept site x.ram (other.caller 0 + i) := by
  have hcell := h.frame_below hother hi
  refine ⟨by grind, by grind, hcell.2, fun hpop => ?_⟩
  have hmem : other.base ∈ x.frames := by
    rw [h.frames]
    exact List.mem_map_of_mem hother
  have hindex : 5 - i ∈ [(1 : UInt16), 2, 3, 4, 5] := by
    simp only [List.mem_cons, List.not_mem_nil, or_false]
    grind
  apply (horderly.pop _ hpop).outside _ hmem _ hindex
  rw [Activation.base]
  grind

theorem kept_pointer (h : Inside x call outer) (horderly : vm.Orderly site x) {register : UInt16}
    (hregister : register = 1 ∨ register = 2) : vm.Kept site x.ram register := by
  have hbelow := h.frame_below List.mem_cons_self (show (0 : UInt16) ≤ 4 by decide)
  refine ⟨by grind, by grind, by grind, fun hpop => ?_⟩
  rcases (horderly.pop _ hpop).range with hrange | hcell
  · grind
  · exact hcell.ne (by rcases hregister with rfl | rfl <;> decide) rfl

theorem of_other (h : Inside x call outer) {next address : Nat} (horderly : vm.Orderly site x)
    (hcall : ∀ name args, site.command ≠ .call name args) (hret : site.command ≠ .ret)
    (heffect : vm.effect? site next (vm.parked site x.ram) = some (address, y.ram))
    (hframes : y.frames = x.frames) : Inside y call outer := by
  have hbase : x.ram 1 ≤ x.ram 0 := by
    rw [h.locals]
    exact h.base_le
  obtain ⟨hagree, hle⟩ :=
    horderly.agree_of_effect h.frames_ne_nil hbase hcall hret heffect
  refine ⟨hframes.trans h.frames, h.valid, fun other hother => ⟨?_, fun i hi => ?_⟩, h.nested,
    ?_, ?_, ?_⟩
  · have hkept := h.kept_frame horderly hother (show (0 : UInt16) ≤ 4 by decide)
    rw [UInt16.add_zero] at hkept
    rw [hagree _ hkept]
    exact (h.saved other hother).address
  · rw [hagree _ (h.kept_frame horderly hother (Ram.pointer_bounds hi).2)]
    exact (h.saved other hother).pointers i hi
  · rw [hagree _ (h.kept_pointer horderly (.inl rfl)), h.locals]
  · rw [hagree _ (h.kept_pointer horderly (.inr rfl)), h.arguments]
  · rwa [← h.locals]

/-- A call adds its frame to those that are there. -/
theorem enter {args : UInt16} {resume : Nat} (hlow : 16 ≤ x.ram 0)
    (hvalid : ∀ other ∈ ⟨x.ram, args, resume⟩ :: outer, other.Valid)
    (hsaved : ∀ other ∈ outer, other.Saved x.ram)
    (hnested : Activation.Nested (⟨x.ram, args, resume⟩ :: outer))
    (hram : y.ram = x.ram.enter (UInt16.ofNat resume) args)
    (hframes : y.frames = (x.ram 0 + 5) :: outer.map Activation.base) :
    Inside y ⟨x.ram, args, resume⟩ outer := by
  have hnew := hvalid _ List.mem_cons_self
  have horder := hnew.result_le
  obtain ⟨hsp, hlocals, hargs, haddress, hpointers, hbelow⟩ :=
    Ram.enter_spec (UInt16.ofNat resume) args hlow hnew.sp_le
  have hkept : ∀ other ∈ outer, ∀ i : UInt16, i ≤ 4 →
      y.ram (other.caller 0 + i) = x.ram (other.caller 0 + i) := by
    intro other hother i hi
    have hother' := hvalid other (List.mem_cons_of_mem _ hother)
    have hframe := hother'.frame_le hi
    have hresult := hother'.le_result
    have hle := hother'.result_le
    have houter := hnested.base_le_result
      (fun a ha => hvalid a (List.mem_cons_of_mem _ ha)) other hother
    have hnewLe : (Activation.mk x.ram args resume).result ≤ x.ram 0 := horder.1
    rw [hram, hbelow _ (by grind) (by grind)]
  refine ⟨hframes, hvalid, fun other hother => ?_, hnested, ?_, ?_, ?_⟩
  · rcases List.mem_cons.1 hother with rfl | hother
    · exact ⟨by rw [hram, haddress], fun i hi => by rw [hram, hpointers i hi]⟩
    · refine ⟨?_, fun i hi => ?_⟩
      · have hcell := hkept other hother 0 (by decide)
        rw [UInt16.add_zero] at hcell
        rw [hcell]
        exact (hsaved other hother).address
      · rw [hkept other hother i (Ram.pointer_bounds hi).2]
        exact (hsaved other hother).pointers i hi
  · rw [hram, hlocals]
    rfl
  · rw [hram, hargs]
    rfl
  · rw [hram, hsp]
    exact UInt16.le_refl _

/-- A call of a callee takes its arguments from the callee's own part of the stack. -/
theorem of_call (h : Inside x call outer) {name : String} {args : UInt16} {resume : Nat}
    (horderly : vm.Orderly site x) (hcommand : site.command = .call name args)
    (hram : y.ram = x.ram.enter (UInt16.ofNat resume) args)
    (hframes : y.frames = (x.ram 0 + 5) :: x.frames) :
    Inside y ⟨x.ram, args, resume⟩ (call :: outer) := by
  have hspace := horderly.frame_le hcommand
  have hvalid := h.valid call List.mem_cons_self
  have hlow := hvalid.le_result
  have horder := hvalid.result_le
  have hlocals := h.locals
  have hbase := h.base_le
  have hargs : args ≤ x.ram 0 - x.ram 1 := by
    rw [← UInt16.not_lt]
    intro hlt
    have hoperand : x.ram 1 ≤ x.ram 0 - 1 - (x.ram 0 - x.ram 1) := by
      apply horderly.operands h.frames_ne_nil
      rwa [hcommand]
    grind
  have hnew : (Activation.mk x.ram args resume).Valid := by
    refine ⟨?_, ?_, hspace.2⟩
    · change args ≤ x.ram 0
      grind
    · change 16 ≤ x.ram 0 - args
      grind
  have hwithin : (Activation.mk x.ram args resume).Within call := by
    refine ⟨h.locals, h.arguments, ?_⟩
    change call.base ≤ x.ram 0 - args
    grind
  refine enter hspace.1 ?_ h.saved ⟨hwithin, h.nested⟩ hram (by rw [hframes, h.frames])
  intro other hother
  rcases List.mem_cons.1 hother with rfl | hother
  · exact hnew
  · exact h.valid other hother

theorem isStackCell_arguments (h : Inside x call outer) : Ram.IsStackCell (x.ram 2) := by
  have hvalid := h.valid call List.mem_cons_self
  have hlow := hvalid.le_result
  have horder := hvalid.result_le
  rw [Ram.isStackCell_iff, h.arguments]
  grind

/-- What a return from the innermost call does to memory. -/
theorem leave_spec (h : Inside x call outer) :
    x.ram.leave 0 = call.result + 1 ∧ x.ram.leave call.result = x.ram.top ∧
      (∀ i ∈ [1, 2, 3, 4], x.ram.leave i = call.caller i) ∧
      ∀ cell, 16 ≤ cell → cell ≠ call.result → x.ram.leave cell = x.ram cell := by
  have hvalid := h.valid call List.mem_cons_self
  have hlow := hvalid.le_result
  have horder := hvalid.result_le
  have hframe : call.base - 5 = call.caller 0 := by
    rw [Activation.base]
    grind
  have hspec := Ram.leave_spec h.isStackCell_arguments
    (by rw [h.arguments, h.locals, hframe]; exact horder.1) (by rw [h.locals]; grind)
    (by rw [h.locals]; grind)
  rw [h.arguments, h.locals, hframe] at hspec
  obtain ⟨hsp, htop, hpointers, hother⟩ := hspec
  refine ⟨hsp, htop, fun i hi => ?_, hother⟩
  rw [hpointers i hi]
  exact (h.saved call List.mem_cons_self).pointers i hi

/-- A return from an inner call restores the part of the stack of the outer one. -/
theorem of_ret {next : Activation} (h : Inside x call (next :: outer))
    (hram : Ram.Agree (fun cell => cell ∉ [13, 14, 15]) y.ram x.ram.leave)
    (hframes : y.frames = x.frames.tail) : Inside y next outer := by
  obtain ⟨hsp, -, hpointers, hother⟩ := h.leave_spec
  obtain ⟨hwithin, hnested⟩ := h.nested
  have hvalid : ∀ other ∈ next :: outer, other.Valid :=
    fun other hmem => h.valid other (List.mem_cons_of_mem _ hmem)
  have hbelow := h.nested.base_le_result hvalid
  have hcall := (h.valid call List.mem_cons_self).result_le
  have hkept : ∀ other ∈ next :: outer, ∀ i : UInt16, i ≤ 4 →
      y.ram (other.caller 0 + i) = x.ram (other.caller 0 + i) := by
    intro other hmem i hi
    have hcell := (hvalid other hmem).frame_le hi
    have hlow := h.frame_below (List.mem_cons_of_mem _ hmem) hi
    have hle := hbelow other hmem
    have hregister : other.caller 0 + i ∉ [13, 14, 15] := by
      simp only [List.mem_cons, List.not_mem_nil, or_false]
      grind
    rw [hram _ hregister, hother _ hlow.1 (by grind)]
  refine ⟨by rw [hframes, h.frames]; rfl, hvalid, fun other hmem => ⟨?_, fun i hi => ?_⟩, hnested,
    ?_, ?_, ?_⟩
  · have hcell := hkept other hmem 0 (by decide)
    rw [UInt16.add_zero] at hcell
    rw [hcell]
    exact (h.saved other (List.mem_cons_of_mem _ hmem)).address
  · rw [hkept other hmem i (Ram.pointer_bounds hi).2]
    exact (h.saved other (List.mem_cons_of_mem _ hmem)).pointers i hi
  · rw [hram 1 (by decide), hpointers 1 (by decide), hwithin.locals]
  · rw [hram 2 (by decide), hpointers 2 (by decide), hwithin.arguments]
  · rw [hram 0 (by decide), hsp]
    have hle := hwithin.above
    grind

end Inside

/-! ## Steps -/

section

variable {vm : Vm} {site : Site} {x y : Point} {call : Activation} {outer : List Activation}

/-- The memory admits an orderly command; a return needs to know where the arguments are. -/
theorem Orderly.admits (h : vm.Orderly site x)
    (hret : site.command = .ret → Ram.IsStackCell (x.ram 2)) : vm.Admits site x.ram := by
  obtain ⟨hstack, hpush, hpop, -⟩ := h
  obtain ⟨unit, function, command⟩ := site
  refine ⟨hstack, fun cell hcell => ?_, fun hcommand => ?_⟩
  · cases command with
    | push segment index => exact hpush cell hcell
    | pop segment index =>
        rcases (hpop cell hcell).range with hrange | hstackCell
        · grind
        · exact hstackCell.lt
    | ret =>
        cases hcell
        exact (hret rfl).lt
    | _ => cases hcell
  · exact ⟨(hret hcommand).ne (by decide), (hret hcommand).ne (by decide)⟩

/-- What a return inside of a call does: it goes on after the call, and it leaves the callee. -/
theorem Inside.ret_spec (h : Inside x call outer) {next address : Nat}
    (horderly : vm.Orderly site x) (hcommand : site.command = .ret)
    (heffect : vm.effect? site next (vm.parked site x.ram) = some (address, y.ram)) :
    address = (UInt16.ofNat call.resume).toNat ∧
      Ram.Agree (fun cell => cell ∉ [13, 14, 15]) y.ram x.ram.leave := by
  obtain ⟨plain, hplain, hagree⟩ :=
    effect?_parked (horderly.admits fun _ => h.isStackCell_arguments) heffect
  obtain ⟨unit, function, command⟩ := site
  obtain rfl : command = .ret := hcommand
  cases hplain
  have hframe : x.ram 1 - 5 = call.caller 0 := by
    rw [h.locals, Activation.base]
    grind
  refine ⟨?_, fun cell hcell => hagree cell (.inl hcell)⟩
  rw [hframe, (h.saved call List.mem_cons_self).address]

/-- A step inside of a call that does not end it stays inside of it. -/
theorem Inside.step (h : Inside x call outer) (hstep : vm.Step x y) (hactive : y.frames ≠ []) :
    ∃ call' outer', Inside y call' outer' ∧
      (call' :: outer').getLast? = (call :: outer).getLast? := by
  obtain ⟨site, hsite, horderly, hnext, hframes⟩ := hstep
  rw [next?_of_site hsite] at hnext
  by_cases hret : site.command = .ret
  · obtain ⟨-, hram⟩ := h.ret_spec horderly hret hnext
    rw [hret] at hframes
    cases outer with
    | nil =>
        rw [hframes, framesAfter, h.frames] at hactive
        exact absurd rfl hactive
    | cons next rest => exact ⟨next, rest, h.of_ret hram hframes, rfl⟩
  · by_cases hcall : ∃ name args, site.command = .call name args
    · obtain ⟨name, args, hcall⟩ := hcall
      obtain ⟨unit, function, command⟩ := site
      obtain rfl : command = .call name args := hcall
      obtain ⟨target, -, hresult⟩ := Option.map_eq_some_iff.1 hnext
      have hram : y.ram = x.ram.enter (UInt16.ofNat (vm.start (x.position + 1))) args :=
        (congrArg Prod.snd hresult).symm
      exact ⟨_, call :: outer, h.of_call horderly rfl hram hframes, rfl⟩
    · have hother : framesAfter site.command x = x.frames := by
        obtain ⟨unit, function, command⟩ := site
        cases command with
        | call name args => exact absurd ⟨name, args, rfl⟩ hcall
        | ret => exact absurd rfl hret
        | _ => rfl
      rw [hother] at hframes
      exact ⟨call, outer, h.of_other horderly (fun name args heq => hcall ⟨name, args, heq⟩) hret
        hnext hframes, rfl⟩

/-- The step that ends all calls is the return from the outermost one. -/
theorem Inside.last_step (h : Inside x call outer) (hstep : vm.Step x y) (hdone : y.frames = []) :
    outer = [] ∧ vm.start y.position = (UInt16.ofNat call.resume).toNat ∧
      y.ram 0 = call.result + 1 ∧ y.ram call.result = x.ram.top ∧
      ∀ i ∈ [1, 2, 3, 4], y.ram i = call.caller i := by
  obtain ⟨site, hsite, horderly, hnext, hframes⟩ := hstep
  rw [next?_of_site hsite] at hnext
  have hret : site.command = .ret := by
    rw [hdone] at hframes
    obtain ⟨unit, function, command⟩ := site
    cases command with
    | ret => rfl
    | call name args => cases hframes
    | _ => exact absurd hframes.symm h.frames_ne_nil
  obtain ⟨haddress, hram⟩ := h.ret_spec horderly hret hnext
  obtain ⟨hsp, htop, hpointers, -⟩ := h.leave_spec
  have houter : outer = [] := by
    rw [hdone, hret, framesAfter, h.frames] at hframes
    simpa using hframes.symm
  have hresult : call.result ∉ [13, 14, 15] := by
    have hlow := (h.valid call List.mem_cons_self).le_result
    simp only [List.mem_cons, List.not_mem_nil, or_false]
    grind
  refine ⟨houter, haddress, ?_, ?_, fun i hi => ?_⟩
  · rw [hram 0 (by decide), hsp]
  · rw [hram _ hresult, htop]
  · have hregister : i ∉ [(13 : UInt16), 14, 15] := by
      have hsmall := Ram.pointer_bounds hi
      simp only [List.mem_cons, List.not_mem_nil, or_false]
      grind
    rw [hram i hregister, hpointers i hi]

end

end Vm

/-! ## Runs -/

/-- A call from outside of all active calls enters the first one. -/
theorem Vm.Step.inside {vm : Vm} {x y : Vm.Point} {site : Site} {name : String} {args : UInt16}
    (hstep : vm.Step x y) (houtside : x.frames = []) (hsite : vm.sites[x.position]? = some site)
    (hcall : site.command = .call name args) (hroom : args.toNat + 16 ≤ (x.ram 0).toNat) :
    Vm.Inside y ⟨x.ram, args, vm.start (x.position + 1)⟩ [] := by
  obtain ⟨other, hother, horderly, hnext, hframes⟩ := hstep
  obtain rfl : site = other := Option.some.inj (hsite.symm.trans hother)
  have hspace := horderly.frame_le hcall
  rw [Vm.next?_of_site hsite] at hnext
  obtain ⟨unit, function, command⟩ := site
  obtain rfl : command = .call name args := hcall
  obtain ⟨target, -, hresult⟩ := Option.map_eq_some_iff.1 hnext
  have hvalid : (Activation.mk x.ram args (vm.start (x.position + 1))).Valid := by
    have hle : args ≤ x.ram 0 := by
      rw [UInt16.le_iff_toNat_le]
      omega
    refine ⟨hle, ?_, hspace.2⟩
    change 16 ≤ x.ram 0 - args
    rw [UInt16.le_iff_toNat_le, UInt16.toNat_sub_of_le _ _ hle]
    change 16 ≤ _
    omega
  refine Vm.Inside.enter hspace.1 (List.forall_mem_singleton.2 hvalid) (by simp) trivial
    (congrArg Prod.snd hresult).symm ?_
  rw [hframes, Vm.framesAfter, houtside]
  rfl

namespace Linked

variable {options : Options} {units : List SourceUnit} {program : Program} {x y : Vm.Point}

/-- The processor executes a step. -/
theorem executes_step (h : Linked options units program)
    (hstep : (Vm.ofProgram options units program).Step x y)
    (hret : ∀ site, (Site.ofUnits units)[x.position]? = some site → site.command = .ret →
      Ram.IsStackCell (x.ram 2)) :
    Executes program ((Vm.ofProgram options units program).start x.position) x.ram
      ((Vm.ofProgram options units program).start y.position) y.ram := by
  obtain ⟨site, hsite, horderly, hnext, -⟩ := hstep
  obtain ⟨address, after, hcommand, hexecutes⟩ :=
    h.executes_command hsite (horderly.admits (hret site hsite))
  rw [hnext] at hcommand
  cases hcommand
  exact hexecutes

/-- The processor executes a run from a call, which stays inside of the call. -/
theorem executes_run (h : Linked options units program) {site : Site} {name : String}
    {args : UInt16} (hrun : (Vm.ofProgram options units program).Run x y)
    (houtside : x.frames = []) (hsite : (Site.ofUnits units)[x.position]? = some site)
    (hcall : site.command = .call name args) (hroom : args.toNat + 16 ≤ (x.ram 0).toNat) :
    Executes program ((Vm.ofProgram options units program).start x.position) x.ram
        ((Vm.ofProgram options units program).start y.position) y.ram ∧
      (y.frames ≠ [] → ∃ call outer, Vm.Inside y call outer ∧
        (call :: outer).getLast? = some
          ⟨x.ram, args, (Vm.ofProgram options units program).start (x.position + 1)⟩) := by
  induction hrun with
  | enter hstep =>
      have hinside := hstep.inside houtside hsite hcall hroom
      refine ⟨h.executes_step hstep ?_, fun _ => ⟨_, [], hinside, rfl⟩⟩
      intro other hother hret
      obtain rfl : site = other := Option.some.inj (hsite.symm.trans hother)
      rw [hcall] at hret
      cases hret
  | step hrun hactive hstep ih =>
      obtain ⟨hexecutes, hinside⟩ := ih
      obtain ⟨call, outer, hinside, hlast⟩ := hinside hactive
      refine ⟨hexecutes.trans (h.executes_step hstep fun _ _ _ => hinside.isStackCell_arguments),
        fun hfinal => ?_⟩
      obtain ⟨call', outer', hinside', hlast'⟩ := hinside.step hstep hfinal
      exact ⟨call', outer', hinside', hlast'.trans hlast⟩

/--
A call returns to its caller: when a run from a call comes to the matching
return, the processor goes on after the call, with the result in place of the
arguments and the pointers of the caller restored.
-/
theorem returns_to_caller (h : Linked options units program) {position : Nat} {site : Site}
    {name : String} {args : UInt16} {cpu : Cpu} {last final : Vm.Point}
    (hsite : (Site.ofUnits units)[position]? = some site)
    (hcall : site.command = .call name args)
    (hrom : cpu.rom = program.words.toArray) (hsize : cpu.ram.size = 32768)
    (hpc : cpu.pc.toNat = (Vm.ofProgram options units program).start position)
    (hroom : args.toNat + 16 ≤ (cpu.peek 0).toNat)
    (hrun : (Vm.ofProgram options units program).Run ⟨position, cpu.peek, []⟩ last)
    (hactive : last.frames ≠ [])
    (hreturn : (Vm.ofProgram options units program).Step last final)
    (hdone : final.frames = []) :
    ∃ count next,
      Cpu.steps count cpu = (next, none) ∧ next.rom = cpu.rom ∧ next.ram.size = 32768 ∧
        next.pc.toNat = (Vm.ofProgram options units program).start (position + 1) ∧
        next.peek 0 = cpu.peek 0 - args + 1 ∧
        next.peek (cpu.peek 0 - args) = last.ram.top ∧
        ∀ pointer ∈ [1, 2, 3, 4], next.peek pointer = cpu.peek pointer := by
  obtain ⟨hexecutes, hinside⟩ := h.executes_run hrun rfl hsite hcall hroom
  obtain ⟨call, outer, hinside, hlast⟩ := hinside hactive
  obtain ⟨rfl, haddress, hsp, htop, hpointers⟩ := hinside.last_step hreturn hdone
  obtain rfl : call = ⟨cpu.peek, args, (Vm.ofProgram options units program).start (position + 1)⟩ :=
    Option.some.inj hlast
  obtain ⟨a, d, hreaches⟩ := (hexecutes.trans (h.executes_step hreturn
    fun _ _ _ => hinside.isStackCell_arguments)) cpu.a cpu.d
  obtain ⟨count, next, hsteps, hshows⟩ :=
    hreaches cpu ⟨hrom, h.length_le, hsize, hpc, rfl, rfl, rfl⟩
  refine ⟨count, next, hsteps, hshows.rom.trans hrom.symm, hshows.ramSize, ?_, ?_, ?_, ?_⟩
  · have hle := h.start_le (position + 1)
    rw [hshows.pc]
    simp only [haddress, UInt16.toNat_ofNat']
    exact Nat.mod_eq_of_lt (by omega)
  · rw [hshows.ram]
    exact hsp
  · rw [hshows.ram]
    exact htop
  · rw [hshows.ram]
    exact hpointers

end Linked

namespace Sample

def vm : Vm :=
  .ofProgram options [unit] program

/-- Memory before the call, with the argument on the stack and pointers to be restored. -/
def caller : Ram := fun cell =>
  if cell < 0x8000 then
    (((((Ram.set (fun _ => 0) 0 257).set 1 300).set 2 400).set 3 3000).set 4 4000).set 256 21 cell
  else 0

/-- Memory with an argument on top of the stack once more. -/
def pushArgument (ram : Ram) (index : UInt16) : Ram :=
  ram.push (ram (ram 2 + index))

/-- Memory before the inner call. -/
def pushed : Ram :=
  pushArgument (pushArgument (caller.enter 42 1) 0) 0

/-- Memory before the inner return. -/
def summed : Ram :=
  (pushArgument (pushArgument (pushed.enter 104 2) 0) 1).arith .add

/-- Memory before the outer return. -/
def resumed : Ram :=
  summed.parkReturn.leave

/-- The addresses to which the calls return. -/
theorem start_vm : vm.start 1 = 42 ∧ vm.start 7 = 104 := by
  have hunits : parts.units = [unit] := rfl
  have hblocks : options.commandBlocks [unit] =
      (parts.blocks options).filter (·.site?.isSome) := by
    rw [← hunits, Options.commandBlocks, Parts.unitBlocks_units reads]
  have hwords : program.words.length = 239 := by
    decide +kernel
  constructor
  · refine Options.commandAddress_eq hwords (?_ : _ = 197)
    rw [hblocks]
    decide +kernel
  · refine Options.commandAddress_eq hwords (?_ : _ = 135)
    rw [hblocks]
    decide +kernel

/-- Operands lie above the locals if there are enough values above them. -/
theorem operands_of_le {ram : Ram} {count : UInt16} (hle : ram 1 ≤ ram 0)
    (hcount : count ≤ ram 0 - ram 1) : ∀ i < count, ram 1 ≤ ram 0 - 1 - i := by
  intro i hi
  grind

section

variable {position : Nat} {ram : Ram} {frames : List UInt16} {function : Option String}

theorem step_of_site {command : Command} {y : Vm.Point}
    (hsite : (Site.ofCommands unit.name none (commands.map (·.value)))[position]? =
      some ⟨"Main", function, command⟩)
    (horderly : vm.Orderly ⟨"Main", function, command⟩ ⟨position, ram, frames⟩)
    (heffect : vm.effect? ⟨"Main", function, command⟩ (vm.start (position + 1))
      (vm.parked ⟨"Main", function, command⟩ ram) = some (vm.start y.position, y.ram))
    (hframes : y.frames = Vm.framesAfter command ⟨position, ram, frames⟩) :
    vm.Step ⟨position, ram, frames⟩ y := by
  have hget : vm.sites[position]? = some ⟨"Main", function, command⟩ := by
    rw [vm, Vm.ofProgram, sites_eq, hsite]
  refine ⟨_, hget, horderly, ?_, hframes⟩
  rw [Vm.next?_of_site hget]
  exact heffect

theorem step_call {name : String} {args address : UInt16} {target : Nat}
    (hsite : (Site.ofCommands unit.name none (commands.map (·.value)))[position]? =
      some ⟨"Main", function, .call name args⟩)
    (htarget : vm.functionAt? name = some target)
    (haddress : vm.start (position + 1) = address.toNat)
    (hstack : ∀ cell ∈ Vm.stackCells (.call name args) ram, Ram.IsStackCell cell)
    (hoperands : frames ≠ [] → ram 1 ≤ ram 0 ∧ args ≤ ram 0 - ram 1) :
    vm.Step ⟨position, ram, frames⟩
      ⟨target, ram.enter address args, (ram 0 + 5) :: frames⟩ := by
  refine step_of_site hsite ⟨hstack, ?_, ?_, ?_⟩ ?_ rfl
  · rintro cell ⟨⟩
  · rintro cell ⟨⟩
  · intro hactive
    exact operands_of_le (hoperands hactive).1 (hoperands hactive).2
  · simp only [Vm.effect?, htarget, haddress, UInt16.ofNat_toNat]
    rfl

theorem step_function {name : String}
    (hsite : (Site.ofCommands unit.name none (commands.map (·.value)))[position]? =
      some ⟨"Main", function, .function name 0⟩) (hle : ram 1 ≤ ram 0) :
    vm.Step ⟨position, ram, frames⟩ ⟨position + 1, ram, frames⟩ := by
  refine step_of_site hsite ⟨?_, ?_, ?_, ?_⟩ rfl rfl
  · simp [Vm.stackCells]
  · rintro cell ⟨⟩
  · rintro cell ⟨⟩
  · exact fun _ => operands_of_le hle UInt16.zero_le

theorem step_push {index : UInt16}
    (hsite : (Site.ofCommands unit.name none (commands.map (·.value)))[position]? =
      some ⟨"Main", function, .push .arguments index⟩)
    (hsp : Ram.IsStackCell (ram 0)) (harguments : ram 2 + index < 0x8000) (hle : ram 1 ≤ ram 0) :
    vm.Step ⟨position, ram, frames⟩ ⟨position + 1, pushArgument ram index, frames⟩ := by
  refine step_of_site hsite ⟨?_, ?_, ?_, ?_⟩ rfl rfl
  · simpa [Vm.stackCells] using hsp
  · rintro cell ⟨⟩
    simpa [Vm.cell] using harguments
  · rintro cell ⟨⟩
  · exact fun _ => operands_of_le hle UInt16.zero_le

theorem step_return {resume : Nat} {frame : UInt16}
    (hsite : (Site.ofCommands unit.name none (commands.map (·.value)))[position]? =
      some ⟨"Main", function, .ret⟩)
    (hstack : ∀ cell ∈ Vm.stackCells .ret ram, Ram.IsStackCell cell)
    (hle : ram 1 ≤ ram 0) (hone : 1 ≤ ram 0 - ram 1)
    (haddress : vm.start resume = (ram.parkReturn (ram.parkReturn 1 - 5)).toNat) :
    vm.Step ⟨position, ram, frame :: frames⟩ ⟨resume, ram.parkReturn.leave, frames⟩ := by
  refine step_of_site hsite ⟨hstack, ?_, ?_, ?_⟩ ?_ rfl
  · rintro cell ⟨⟩
  · rintro cell ⟨⟩
  · exact fun _ => operands_of_le hle hone
  · change some ((ram.parkReturn (ram.parkReturn 1 - 5)).toNat, ram.parkReturn.leave) = _
    rw [haddress]

end

theorem functionAt_vm : vm.functionAt? "two" = some 3 ∧
    vm.functionAt? "sum" = some 8 := by
  rw [Vm.functionAt?, Vm.functionAt?, vm, Vm.ofProgram, sites_eq]
  decide

theorem step_add : vm.Step
    ⟨11, pushArgument (pushArgument (pushed.enter 104 2) 0) 1, [pushed 0 + 5, caller 0 + 5]⟩
    ⟨12, summed, [pushed 0 + 5, caller 0 + 5]⟩ := by
  have hsite : (Site.ofCommands unit.name none (commands.map (·.value)))[11]? =
      some ⟨"Main", some "sum", .arith .add⟩ := rfl
  refine step_of_site hsite ⟨?_, ?_, ?_, ?_⟩ rfl rfl
  · exact Ram.forall_isStackCell (by decide)
  · rintro cell ⟨⟩
  · rintro cell ⟨⟩
  · exact fun _ => operands_of_le (by decide) (by decide)

/-- The outer call, up to the inner one. -/
theorem run_pushed : vm.Run ⟨0, caller, []⟩ ⟨6, pushed, [caller 0 + 5]⟩ := by
  have hcall : vm.Step ⟨0, caller, []⟩ ⟨3, caller.enter 42 1, [caller 0 + 5]⟩ :=
    step_call rfl functionAt_vm.1 start_vm.1 (Ram.forall_isStackCell (by decide))
      fun hactive => absurd rfl hactive
  have hactive : [caller 0 + 5] ≠ [] := List.cons_ne_nil _ _
  refine .step (.step (.step (.enter hcall) hactive (step_function rfl ?_)) hactive
    (step_push rfl ⟨?_, ?_⟩ ?_ ?_)) hactive (step_push rfl ⟨?_, ?_⟩ ?_ ?_) <;> decide

/-- The inner call, up to its return. -/
theorem run_summed :
    vm.Run ⟨0, caller, []⟩ ⟨12, summed, [pushed 0 + 5, caller 0 + 5]⟩ := by
  have hcall : vm.Step ⟨6, pushed, [caller 0 + 5]⟩
      ⟨8, pushed.enter 104 2, [pushed 0 + 5, caller 0 + 5]⟩ :=
    step_call rfl functionAt_vm.2 start_vm.2 (Ram.forall_isStackCell (by decide))
      fun _ => by decide
  have hactive : [pushed 0 + 5, caller 0 + 5] ≠ [] := List.cons_ne_nil _ _
  refine .step (.step (.step (.step (.step run_pushed (List.cons_ne_nil _ _) hcall) hactive
    (step_function rfl ?_)) hactive (step_push rfl ⟨?_, ?_⟩ ?_ ?_)) hactive
    (step_push rfl ⟨?_, ?_⟩ ?_ ?_)) hactive step_add <;> decide

theorem run_resumed : vm.Run ⟨0, caller, []⟩ ⟨7, resumed, [caller 0 + 5]⟩ := by
  have hreturn : vm.Step ⟨12, summed, [pushed 0 + 5, caller 0 + 5]⟩
      ⟨7, resumed, [caller 0 + 5]⟩ :=
    step_return rfl (Ram.forall_isStackCell (by decide)) (by decide)
      (by decide) (start_vm.2.trans (by decide))
  exact .step run_summed (List.cons_ne_nil _ _) hreturn

/-- A processor at the first instruction of the outer call. -/
def calling : Cpu :=
  .holding program.words (UInt16.ofNat (vm.start 0)) caller

theorem peek_holding_caller (words : List UInt16) (pc : UInt16) :
    (Cpu.holding words pc caller).peek = caller := by
  rw [Cpu.peek_holding]
  funext cell
  by_cases h : cell < 0x8000 <;> simp [caller, h]

theorem peek_calling : calling.peek = caller :=
  peek_holding_caller _ _

/-- The outer call leaves twice its argument, which the inner call has added up. -/
theorem returns_double :
    Linked options [unit] program ∧
      vm.Run ⟨0, calling.peek, []⟩ ⟨12, summed, [pushed 0 + 5, caller 0 + 5]⟩ ∧
      vm.Run ⟨0, calling.peek, []⟩ ⟨7, resumed, [caller 0 + 5]⟩ ∧
      ∃ count next, Cpu.steps count calling = (next, none) ∧
        next.pc.toNat = vm.start 1 ∧
        next.peek 0 = 257 ∧ next.peek 256 = 42 ∧ next.peek 1 = 300 ∧ next.peek 4 = 4000 := by
  have hsite : (Site.ofUnits [unit])[0]? = some ⟨"Main", none, .call "two" 1⟩ := by
    rw [sites_eq]
    rfl
  have hreturn : vm.Step ⟨7, resumed, [caller 0 + 5]⟩ ⟨1, resumed.parkReturn.leave, []⟩ :=
    step_return rfl (Ram.forall_isStackCell (by decide)) (by decide)
      (by decide) (start_vm.1.trans (by decide))
  have hrom : calling.rom = program.words.toArray := Cpu.rom_holding _ _ _
  have hsize : calling.ram.size = 32768 := Cpu.size_holding _ _ _
  have hpc : calling.pc.toNat = vm.start 0 := linked.toNat_pc_holding 0 _
  have hroom : (1 : UInt16).toNat + 16 ≤ (calling.peek 0).toNat := by
    rw [peek_calling]
    decide
  have hrun : vm.Run ⟨0, calling.peek, []⟩ ⟨7, resumed, [caller 0 + 5]⟩ := by
    rw [peek_calling]
    exact run_resumed
  obtain ⟨count, next, hsteps, -, -, hnext, hsp, htop, hpointers⟩ :=
    linked.returns_to_caller hsite rfl hrom hsize hpc hroom hrun (List.cons_ne_nil _ _)
      hreturn rfl
  rw [peek_calling] at hrun hsp htop hpointers ⊢
  refine ⟨linked, run_summed, hrun, count, next, hsteps, hnext, hsp.trans ?_, htop.trans ?_,
    (hpointers 1 (by decide)).trans ?_, (hpointers 4 (by decide)).trans ?_⟩ <;> decide

/-! ## Names that do not stay on their line -/

open Code View

/-- A unit that calls a function of the next unit. -/
def callingUnit : SourceUnit where
  name := "Main"
  source := Text.render ["call f 0", "label end", "goto end"]

/-- A unit whose name goes on for three lines, the second of which clears a cell. -/
def splitUnit : SourceUnit where
  name := "258\nM=0\n@y"
  source := Text.render ["function f 0", "push static 0", "return"]

def splitParts : Parts :=
  [(callingUnit, [⟨.call "f" 0, ⟨1, 0, 8⟩⟩, ⟨.label "end", ⟨2, 9, 18⟩⟩,
      ⟨.goto "end", ⟨3, 19, 27⟩⟩]),
    (splitUnit, [⟨.function "f" 0, ⟨1, 0, 12⟩⟩, ⟨.push .statics 0, ⟨2, 13, 26⟩⟩,
      ⟨.ret, ⟨3, 27, 33⟩⟩])]

def splitBefore : Code :=
  call "$ret.1" "f" 0 ++ label "Main$$end" ++ jumpTo "Main$$end" ++ label "f"

def splitAfter : Code :=
  [assign toD (.it .m)] ++ pushD ++ ret "R13" "R14" "R15"

/-- The lines as the assembler finds them. -/
def splitLines : Code :=
  splitBefore ++ ([loadConstant 258, assign toM .zero, load "y.0"] ++ splitAfter)

def splitProgram : Program :=
  programOf .hack splitLines

theorem built_split : Built options [callingUnit, splitUnit] splitProgram ∧
    Placed splitProgram 0 splitLines := by
  have hlines : (splitParts.blocks options).flatMap (Block.lines false) =
      splitBefore ++ ([load "258\nM=0\n@y.0"] ++ splitAfter) := by
    decide +kernel
  have hname : Text.render ([load "258\nM=0\n@y.0"].map Line.text) =
      Text.render ([loadConstant 258, assign toM .zero, load "y.0"].map Line.text) := by
    decide +kernel
  have htext : Block.render false (splitParts.blocks options) =
      Text.render (splitLines.map Line.text) := by
    rw [Block.render, hlines, splitLines]
    simp only [List.map_append, Text.render_append, hname]
  have hreads : ∀ part ∈ splitParts, part.1.Reads part.2 := by
    decide +kernel
  exact Parts.built hreads rfl rfl rfl (by decide +kernel) (congrArg codeLines htext)
    (by decide +kernel) (by decide +kernel) (by decide +kernel) (by decide +kernel) (by decide)

/-- Memory when the function returns: the name has cleared the cell of the saved `LCL`. -/
def cleared : Ram :=
  let ram := (caller.enter 42 0).set 258 0
  ram.push (ram (splitProgram.resolve "y.0"))

theorem shows_caller {program : Program} (hlength : program.words.length ≤ 32767) :
    Shows program (.holding program.words 0 caller)
      ⟨0, (Cpu.holding program.words 0 caller).a, (Cpu.holding program.words 0 caller).d,
        caller⟩ := by
  refine ⟨Cpu.rom_holding _ _ _, hlength, Cpu.size_holding _ _ _, ?_, rfl, rfl,
    peek_holding_caller _ _⟩
  rw [Cpu.pc_holding]
  rfl

/-- A call of `f` at the start of a program enters it, wherever it stands. -/
theorem executes_callSample {program : Program} {address : UInt16}
    (hcall : Placed program 0 (call "$ret.1" "f" 0)) (htarget : program.resolve "f" = address)
    (haddress : address < 0x8000) :
    Executes program 0 caller address.toNat (caller.enter 42 0) := by
  subst htarget
  exact (crosses_call hcall (by decide) (by decide) haddress (by decide)).executes

/-- The function clears a cell of its frame before it pushes. -/
theorem executes_split : Executes splitProgram 0 caller 52 cleared := by
  have hplaced := built_split.2
  have hlabel : Placed splitProgram 44 (label "f") := hplaced.left.right
  have hbody : Placed splitProgram 44 ([loadConstant 258, assign toM .zero, load "y.0",
      assign toD (.it .m)] ++ (pushD ++ ret "R13" "R14" "R15")) := hplaced.right
  have htarget : splitProgram.resolve "f" = 44 := by
    rw [Program.resolve, hlabel.1]
    rfl
  have hstatic : splitProgram.resolve "y.0" < 0x8000 := by
    decide +kernel
  apply (executes_callSample hplaced.left.left.left.left htarget (by decide)).trans
  intro a d
  have hloaded : Reaches splitProgram ⟨44, a, d, caller.enter 42 0⟩
      ⟨48, splitProgram.resolve "y.0", (caller.enter 42 0).set 258 0 (splitProgram.resolve "y.0"),
        (caller.enter 42 0).set 258 0⟩ := by
    apply Follows.reaches hbody.left
    · simp [toM, toD, output, Comp.operand?, Comp.value, hstatic]
    · simp [toM, toD, output, Comp.operand?, Comp.value]
  exact ⟨_, _, hloaded.trans (passes_pushD hbody.right.left (by decide)).reaches⟩

/-- A unit that calls a function, the rest of which stands in the next unit. -/
def openUnit : SourceUnit where
  name := "Main"
  source := Text.render ["call f 0", "function f 0"]

/-- A unit whose name hides what comes after it in a comment. -/
def commentUnit : SourceUnit where
  name := "x)//"
  source := Text.render ["goto b", "label b", "push constant 1", "return"]

def commentParts : Parts :=
  [(openUnit, [⟨.call "f" 0, ⟨1, 0, 8⟩⟩, ⟨.function "f" 0, ⟨2, 9, 21⟩⟩]),
    (commentUnit, [⟨.goto "b", ⟨1, 0, 6⟩⟩, ⟨.label "b", ⟨2, 7, 14⟩⟩,
      ⟨.push .constants 1, ⟨3, 15, 30⟩⟩, ⟨.ret, ⟨4, 31, 37⟩⟩])]

/-- The lines as the assembler finds them. -/
def commentLines : Code :=
  call "$ret.1" "f" 0 ++ label "f" ++ (jumpTo "x)" ++
    (label "x" ++ push (.immediate 1) ++ ret "R13" "R14" "R15"))

def commentProgram : Program :=
  programOf .hack commentLines

theorem built_comment : Built options [openUnit, commentUnit] commentProgram ∧
    Placed commentProgram 0 commentLines := by
  have hreads : ∀ part ∈ commentParts, part.1.Reads part.2 := by
    decide +kernel
  have hcode : codeLines (Block.render false (commentParts.blocks options)) =
      codeLines (Text.render (commentLines.map Line.text)) :=
    codeLines_render_congr (by decide +kernel) (by decide +kernel) (by decide +kernel)
  exact Parts.built hreads rfl rfl rfl (by decide +kernel) hcode (by decide +kernel)
    (by decide +kernel) (by decide +kernel) (by decide +kernel) (by decide)

/-- The jump lands in the code of the call, at an instruction that stores outside of memory. -/
theorem faults_comment : ∃ count next fault,
    Cpu.steps count (.holding commentProgram.words 0 caller) = (next, some fault) := by
  have hplaced := built_comment.2
  have hlabel : Placed commentProgram 42 (label "f") := hplaced.left.right
  have hjump : Placed commentProgram 42 (jumpTo "x)") := hplaced.right.left
  have hpointer : Placed commentProgram 12 (savePointer .arg) :=
    hplaced.left.left.left.left.left.left.right.right.left
  have hpush : Placed commentProgram 14 ([load "SP", assign toM (.succ .m)] ++
      ([assign toA (.pred .m)] ++ [assign toM .d])) := hpointer.right
  have htarget : commentProgram.resolve "f" = 42 := by
    rw [Program.resolve, hlabel.1]
    rfl
  have hvariable : commentProgram.resolve "x)" = 16 := by
    decide +kernel
  obtain ⟨a, d, hentered⟩ := executes_callSample hplaced.left.left htarget (by decide)
    (Cpu.holding commentProgram.words 0 caller).a (Cpu.holding commentProgram.words 0 caller).d
  have hjumped : Reaches commentProgram ⟨42, a, d, caller.enter 42 0⟩
      ⟨16, 16, d, caller.enter 42 0⟩ := by
    have hreaches := (passes_jumpTo a d (caller.enter 42 0) hjump (by rw [hvariable]; decide)).reaches
    rwa [hvariable] at hreaches
  have hloaded : Reaches commentProgram ⟨16, 16, d, caller.enter 42 0⟩
      ⟨17, 0xffff, d, caller.enter 42 0⟩ := by
    apply Follows.reaches hpush.right.left
    · simp [toA, output, Comp.operand?, Comp.value]
    · simp [toA, output, Comp.operand?, Comp.value]
      decide
  obtain ⟨count, next, hsteps, hshows⟩ := (hentered.trans (hjumped.trans hloaded)) _
    (shows_caller built_comment.1.length_le)
  obtain ⟨fault, hfault⟩ := hshows.exists_fault hpush.right.right rfl
    (show (0x8000 : UInt16) ≤ 0xffff by decide)
  refine ⟨count + 1, next, fault, ?_⟩
  rw [Cpu.steps_add hsteps, Cpu.steps_succ_of_fault hfault]

/--
Names that go on for several lines, or that hide the rest of their line in a
comment, can break the calling convention.  Here a function pushes a static
variable and returns, and the caller's `LCL` is lost; and a function jumps to a
label before it returns, and the processor faults.
-/
theorem names_break_calls :
    (Built options [callingUnit, splitUnit] splitProgram ∧
      Placed splitProgram 0 (call "$ret.1" "f" 0) ∧
      Placed splitProgram 52 (ret "R13" "R14" "R15") ∧
      caller 0 = 257 ∧ caller 1 = 300 ∧
      ∃ m returning n next,
        Cpu.steps m (.holding splitProgram.words 0 caller) = (returning, none) ∧
        returning.pc.toNat = 52 ∧ returning.peek 0 = 263 ∧ returning.peek 1 = 262 ∧
        Cpu.steps n returning = (next, none) ∧
        next.pc.toNat = 42 ∧ next.peek 0 = 258 ∧ next.peek 1 = 0) ∧
    Built options [openUnit, commentUnit] commentProgram ∧
      Placed commentProgram 0 (call "$ret.1" "f" 0) ∧
      ∃ m next fault,
        Cpu.steps m (.holding commentProgram.words 0 caller) = (next, some fault) := by
  have hreturn : Placed splitProgram 52 (ret "R13" "R14" "R15") := built_split.2.right.right.right
  have hcells : ∀ i ∈ [1, 2, 3, 4, 5], Ram.IsStackCell (cleared 1 - i) :=
    List.forall_mem_map.1 (Ram.forall_isStackCell (by decide))
  have hleaves : Executes splitProgram 52 cleared 42 cleared.parkReturn.leave :=
    executes_ret hreturn (by decide) hcells (by decide) (by decide) (by decide)
  obtain ⟨a, d, hreturning⟩ := executes_split
    (Cpu.holding splitProgram.words 0 caller).a (Cpu.holding splitProgram.words 0 caller).d
  obtain ⟨m, returning, hm, hbefore⟩ := hreturning _ (shows_caller built_split.1.length_le)
  obtain ⟨_, _, hnext⟩ := hleaves a d
  obtain ⟨n, next, hn, hafter⟩ := hnext returning hbefore
  have hcleared : returning.peek = cleared := hbefore.ram
  have hleft : next.peek = cleared.parkReturn.leave := hafter.ram
  refine ⟨⟨built_split.1, built_split.2.left.left.left.left, hreturn, by decide, by decide, m,
    returning, n, next, hm, hbefore.pc, ?_, ?_, hn, hafter.pc, ?_, ?_⟩, built_comment.1,
    built_comment.2.left.left, faults_comment⟩
  · rw [hcleared]
    decide
  · rw [hcleared]
    decide
  · rw [hleft]
    decide
  · rw [hleft]
    decide

end Sample

end StackVm
