import StackVm.Proofs.Asm.Placed
import StackVm.Proofs.Cpu.Instruction
import StackVm.Proofs.Memory

/-! # Running placed code

A view is what a run depends on: the program counter, the two registers and the
contents of data memory.  `View.follow` computes the view after straight-line
code.  `Passes` says that every processor in one view comes to another by steps
without a fault, and which instructions it executes on the way; `Reaches` leaves
that open.
-/

namespace StackVm

open Asm

/-- The state of a processor, with its data memory as a function. -/
structure View where
  pc : Nat
  a : UInt16
  d : UInt16
  ram : Ram

namespace View

/-- The value that a load puts into the address register. -/
def loaded (program : Program) : Address → UInt16
  | .constant value => value
  | .symbol name => program.resolve name

/-- The value that a computation gives. -/
def output (view : View) (comp : Comp) : UInt16 :=
  comp.value view.d (if comp.operand? == some .m then view.ram view.a else view.a)

def exec (program : Program) (view : View) : Instruction → View
  | .load address => { view with pc := view.pc + 1, a := loaded program address }
  | .compute dest comp jump =>
      { pc := if jump.holds (view.output comp) then view.a.toNat else view.pc + 1
        a := if dest.a then view.output comp else view.a
        d := if dest.d then view.output comp else view.d
        ram := if dest.m then view.ram.set view.a (view.output comp) else view.ram }

/-- An instruction can be executed: what it loads is an address, what it uses is in memory. -/
def Permits (program : Program) (view : View) : Instruction → Prop
  | .load address => loaded program address < 0x8000
  | .compute dest comp jump =>
      (Instruction.compute dest comp jump).usesMemory = true → view.a < 0x8000

end View

/-- A processor with the program in instruction memory is in the state that a view describes. -/
structure Shows (program : Program) (cpu : Cpu) (view : View) : Prop where
  rom : cpu.rom = program.words.toArray
  length_le : program.words.length ≤ 32767
  ramSize : cpu.ram.size = 32768
  pc : cpu.pc.toNat = view.pc
  a : cpu.a = view.a
  d : cpu.d = view.d
  ram : cpu.peek = view.ram

/-- The states of a processor before each of its next instructions. -/
def Cpu.trail : Nat → Cpu → List Cpu
  | 0, _ => []
  | count + 1, cpu => cpu :: trail count cpu.advance

/-- The addresses of the next instructions that a processor executes. -/
def Cpu.addresses (count : Nat) (cpu : Cpu) : List Nat :=
  (Cpu.trail count cpu).map fun state => state.pc.toNat

/--
Every processor in the first view comes to the second one without a fault, and executes the
instructions at the given addresses.
-/
def Passes (program : Program) (before : View) (visited : List Nat) (after : View) : Prop :=
  ∀ cpu, Shows program cpu before →
    ∃ next, Cpu.steps visited.length cpu = (next, none) ∧
      Cpu.addresses visited.length cpu = visited ∧ Shows program next after

/-- Every processor in the first view comes to the second one without a fault. -/
def Reaches (program : Program) (before after : View) : Prop :=
  ∀ cpu, Shows program cpu before →
    ∃ count next, Cpu.steps count cpu = (next, none) ∧ Shows program next after

theorem Cpu.steps_add {cpu next : Cpu} {m : Nat} (h : Cpu.steps m cpu = (next, none)) (n : Nat) :
    Cpu.steps (m + n) cpu = Cpu.steps n next := by
  induction m generalizing cpu with
  | zero =>
      obtain rfl : cpu = next := by simpa [Cpu.steps] using h
      rw [Nat.zero_add]
  | succ m ih =>
      rw [Nat.succ_add]
      cases hfault : cpu.fault? with
      | some fault => simp [steps_succ_of_fault hfault] at h
      | none =>
          rw [steps_succ_of_none hfault] at h ⊢
          exact ih h

theorem Cpu.trail_add {cpu next : Cpu} {m : Nat} (h : Cpu.steps m cpu = (next, none)) (n : Nat) :
    Cpu.trail (m + n) cpu = Cpu.trail m cpu ++ Cpu.trail n next := by
  induction m generalizing cpu with
  | zero =>
      obtain rfl : cpu = next := by simpa [Cpu.steps] using h
      rw [Nat.zero_add, Cpu.trail, List.nil_append]
  | succ m ih =>
      rw [Nat.succ_add]
      cases hfault : cpu.fault? with
      | some fault => simp [steps_succ_of_fault hfault] at h
      | none =>
          rw [steps_succ_of_none hfault] at h
          rw [Cpu.trail, Cpu.trail, List.cons_append, ih h]

theorem Cpu.addresses_add {cpu next : Cpu} {m : Nat} (h : Cpu.steps m cpu = (next, none))
    (n : Nat) : Cpu.addresses (m + n) cpu = Cpu.addresses m cpu ++ Cpu.addresses n next := by
  rw [addresses, trail_add h, List.map_append]
  rfl

theorem Cpu.steps_one {cpu next : Cpu} (h : cpu.step = .ok next) :
    Cpu.steps 1 cpu = (next, none) := by
  obtain ⟨hfault, rfl⟩ := step_eq_ok_iff.1 h
  exact steps_succ_of_none hfault 0

namespace Passes

variable {program : Program} {before middle after : View} {xs ys : List Nat}

theorem reaches (h : Passes program before xs after) : Reaches program before after := by
  intro cpu hcpu
  obtain ⟨next, hsteps, -, hnext⟩ := h cpu hcpu
  exact ⟨_, next, hsteps, hnext⟩

theorem refl (program : Program) (view : View) : Passes program view [] view :=
  fun cpu h => ⟨cpu, rfl, rfl, h⟩

theorem trans (first : Passes program before xs middle) (second : Passes program middle ys after) :
    Passes program before (xs ++ ys) after := by
  intro cpu h
  obtain ⟨next, hsteps, hvisited, hnext⟩ := first cpu h
  obtain ⟨last, hrest, hothers, hlast⟩ := second next hnext
  refine ⟨last, ?_, ?_, hlast⟩
  · rw [List.length_append, Cpu.steps_add hsteps, hrest]
  · rw [List.length_append, Cpu.addresses_add hsteps, hvisited, hothers]

/-- Two runs through neighbouring pieces of code. -/
theorem extend {pc m n : Nat} (first : Passes program before (List.range' pc m) middle)
    (second : Passes program middle (List.range' (pc + m) n) after) :
    Passes program before (List.range' pc (m + n)) after := by
  rw [← List.range'_append_1]
  exact first.trans second

theorem of_step
    (h : ∀ cpu, Shows program cpu before →
      ∃ next, cpu.step = .ok next ∧ Shows program next after) :
    Passes program before [before.pc] after := by
  intro cpu hcpu
  obtain ⟨next, hstep, hnext⟩ := h cpu hcpu
  exact ⟨next, Cpu.steps_one hstep, congrArg (fun pc => [pc]) hcpu.pc, hnext⟩

end Passes

namespace Reaches

variable {program : Program} {before middle after : View}

theorem trans (first : Reaches program before middle) (second : Reaches program middle after) :
    Reaches program before after := by
  intro cpu h
  obtain ⟨m, next, hm, hnext⟩ := first cpu h
  obtain ⟨n, last, hn, hlast⟩ := second next hnext
  refine ⟨m + n, last, ?_, hlast⟩
  rw [Cpu.steps_add hm, hn]

end Reaches

namespace Shows

variable {program : Program} {cpu : Cpu} {view : View}

theorem fetch? (h : Shows program cpu view) : cpu.fetch? = program.words[view.pc]? := by
  rw [Cpu.fetch?, h.rom, h.pc, List.getElem?_toArray]

/-- The next address does not wrap around, since the program is short. -/
theorem toNat_pc_succ (h : Shows program cpu view) (hlt : view.pc < program.words.length) :
    (cpu.pc + 1).toNat = view.pc + 1 := by
  have hlength := h.length_le
  rw [UInt16.toNat_add, h.pc]
  exact Nat.mod_eq_of_lt (by simp; omega)

/-- A computing instruction faults if it needs a cell outside of memory. -/
theorem exists_fault {dest : Dest} {comp : Comp} {jump : Jump} (h : Shows program cpu view)
    (hcode : Placed program view.pc [.code (.compute dest comp jump)])
    (huse : (Instruction.compute dest comp jump).usesMemory = true) (ha : 0x8000 ≤ view.a) :
    ∃ fault, cpu.fault? = some fault := by
  have hsize : cpu.ram.size ≤ cpu.a.toNat := by
    rw [h.ramSize, h.a]
    exact ha
  rw [Cpu.fault?_compute program.resolve dest comp jump (h.fetch?.trans hcode.1),
    if_pos ⟨huse, hsize⟩]
  exact ⟨_, rfl⟩

end Shows

/-- One instruction takes every processor in a view to the view after it. -/
theorem passes_exec {program : Program} {view : View} {instruction : Instruction}
    (hword : program.words[view.pc]? = some (instruction.word program.resolve))
    (hpermits : view.Permits program instruction) :
    Passes program view [view.pc] (view.exec program instruction) := by
  have hlt : view.pc < program.words.length := (List.getElem?_eq_some_iff.1 hword).1
  apply Passes.of_step
  intro cpu h
  have hfetch := h.fetch?.trans hword
  cases instruction with
  | load address =>
      have hvalue : (Instruction.load address).word program.resolve =
          View.loaded program address := by
        cases address <;> rfl
      rw [hvalue] at hfetch
      refine ⟨_, Cpu.step_load hfetch hpermits, h.rom, h.length_le, h.ramSize, ?_, rfl, h.d, h.ram⟩
      exact h.toNat_pc_succ hlt
  | compute dest comp jump =>
      have hmemory : (Instruction.compute dest comp jump).usesMemory = true →
          cpu.a.toNat < cpu.ram.size := by
        intro huse
        rw [h.a, h.ramSize]
        exact hpermits huse
      have hout : comp.value cpu.d (cpu.operand comp) = view.output comp := by
        rw [Cpu.operand, View.output, h.a, h.d, h.ram]
      refine ⟨_, Cpu.step_compute _ _ _ _ hfetch hmemory, h.rom, h.length_le, ?_, ?_, ?_, ?_, ?_⟩
      · simp only [Cpu.computed]
        split <;> simp [h.ramSize]
      · simp only [Cpu.computed, View.exec, hout]
        split
        · rw [h.a]
        · exact h.toNat_pc_succ hlt
      · simp only [Cpu.computed, View.exec, hout, h.a]
      · simp only [Cpu.computed, View.exec, hout]
        rw [h.d]
      · simp only [Cpu.computed, View.exec, hout]
        cases hm : dest.m with
        | false => exact h.ram
        | true =>
            rw [← h.a, ← h.ram]
            exact Cpu.peek_poke (hmemory (by simp [Instruction.usesMemory, hm]))

/-! ## Straight-line code -/

namespace View

/-- The view after all instructions of some code, none of which jumps. -/
def follow (program : Program) (view : View) : Code → View
  | [] => view
  | .code instruction :: rest => follow program (view.exec program instruction) rest
  | _ :: rest => follow program view rest

/-- Every instruction of some code can be executed in its turn, and none jumps. -/
def Follows (program : Program) (view : View) : Code → Prop
  | [] => True
  | .code instruction :: rest =>
      view.Permits program instruction ∧ (view.exec program instruction).pc = view.pc + 1 ∧
        Follows program (view.exec program instruction) rest
  | _ :: rest => Follows program view rest

variable {program : Program} {view : View}

/-- Straight-line code that is placed at the program counter runs to its end. -/
theorem passes_follow {code : Code} (hplaced : Placed program view.pc code)
    (h : view.Follows program code) :
    Passes program view (List.range' view.pc (Code.size code)) (view.follow program code) := by
  induction code generalizing view with
  | nil => exact Passes.refl program view
  | cons line rest ih =>
      cases line with
      | comment text => exact ih hplaced h
      | label name => exact ih hplaced.2 h
      | code instruction =>
          obtain ⟨hpermits, hpc, hrest⟩ := h
          have hplaced' : Placed program (view.exec program instruction).pc rest := by
            rw [hpc]
            exact hplaced.2
          have hpasses := (passes_exec hplaced.1 hpermits).trans (ih hplaced' hrest)
          rwa [hpc] at hpasses

theorem Follows.passes {pc : Nat} {a d : UInt16} {ram : Ram} {code : Code} {after : View}
    (hplaced : Placed program pc code) (h : (View.mk pc a d ram).Follows program code)
    (hfollow : (View.mk pc a d ram).follow program code = after) :
    Passes program ⟨pc, a, d, ram⟩ (List.range' pc (Code.size code)) after :=
  hfollow ▸ passes_follow hplaced h

theorem Follows.reaches {code : Code} {after : View} (hplaced : Placed program view.pc code)
    (h : view.Follows program code) (hfollow : view.follow program code = after) :
    Reaches program view after :=
  (Follows.passes hplaced h hfollow).reaches

/-! Equations for the lines that code is written with. -/

@[simp] theorem follow_nil : view.follow program [] = view := rfl

@[simp] theorem follow_load (name : String) (rest : Code) :
    view.follow program (Code.load name :: rest) =
      { view with pc := view.pc + 1, a := program.resolve name }.follow program rest := rfl

@[simp] theorem follow_loadConstant (value : UInt16) (rest : Code) :
    view.follow program (Code.loadConstant value :: rest) =
      { view with pc := view.pc + 1, a := value }.follow program rest := rfl

@[simp] theorem follow_assign (dest : Dest) (comp : Comp) (rest : Code) :
    view.follow program (Code.assign dest comp :: rest) =
      View.follow program
        { pc := view.pc + 1
          a := if dest.a then view.output comp else view.a
          d := if dest.d then view.output comp else view.d
          ram := if dest.m then view.ram.set view.a (view.output comp) else view.ram } rest := rfl

@[simp] theorem follows_nil : view.Follows program [] := trivial

@[simp] theorem follows_load {name : String} {rest : Code} :
    view.Follows program (Code.load name :: rest) ↔
      program.resolve name < 0x8000 ∧
        { view with pc := view.pc + 1, a := program.resolve name }.Follows program rest := by
  simp [Code.load, Follows, Permits, loaded, exec]

@[simp] theorem follows_loadConstant {value : UInt16} {rest : Code} :
    view.Follows program (Code.loadConstant value :: rest) ↔
      value < 0x8000 ∧ { view with pc := view.pc + 1, a := value }.Follows program rest := by
  simp [Code.loadConstant, Follows, Permits, loaded, exec]

@[simp] theorem follows_assign {dest : Dest} {comp : Comp} {rest : Code} :
    view.Follows program (Code.assign dest comp :: rest) ↔
      ((comp.operand? = some .m ∨ dest.m = true) → view.a < 0x8000) ∧
        View.Follows program
          { pc := view.pc + 1
            a := if dest.a then view.output comp else view.a
            d := if dest.d then view.output comp else view.d
            ram := if dest.m then view.ram.set view.a (view.output comp) else view.ram }
          rest := by
  simp [Code.assign, Follows, Permits, exec, Instruction.usesMemory, Jump.holds]

end View

/-- Whatever the registers hold, a run from one address comes to another one. -/
def Executes (program : Program) (pc : Nat) (ram : Ram) (pc' : Nat) (ram' : Ram) : Prop :=
  ∀ a d, ∃ a' d', Reaches program ⟨pc, a, d, ram⟩ ⟨pc', a', d', ram'⟩

namespace Executes

variable {program : Program} {pc pc' pc'' : Nat} {ram ram' ram'' : Ram}

theorem trans (first : Executes program pc ram pc' ram')
    (second : Executes program pc' ram' pc'' ram'') : Executes program pc ram pc'' ram'' := by
  intro a d
  obtain ⟨a', d', hfirst⟩ := first a d
  obtain ⟨a'', d'', hsecond⟩ := second a' d'
  exact ⟨a'', d'', hfirst.trans hsecond⟩

end Executes

/--
Whatever the registers hold, a run from one address comes to another one.  It executes some of the
instructions of a code that stands at the first address, in their order and from the first one on.
-/
def Crosses (program : Program) (pc size : Nat) (ram : Ram) (pc' : Nat) (ram' : Ram) : Prop :=
  ∀ a d, ∃ a' d' visited, Passes program ⟨pc, a, d, ram⟩ visited ⟨pc', a', d', ram'⟩ ∧
    visited.Sublist (List.range' pc size) ∧ (0 < size → pc ∈ visited)

namespace Crosses

variable {program : Program} {pc pc' pc'' size rest : Nat} {ram ram' ram'' : Ram}

theorem executes (h : Crosses program pc size ram pc' ram') : Executes program pc ram pc' ram' := by
  intro a d
  obtain ⟨a', d', visited, hpasses, -⟩ := h a d
  exact ⟨a', d', hpasses.reaches⟩

theorem refl (program : Program) (pc : Nat) (ram : Ram) : Crosses program pc 0 ram pc ram :=
  fun a d => ⟨a, d, [], Passes.refl program _, List.nil_sublist _,
    fun hsize => absurd hsize (Nat.lt_irrefl 0)⟩

/-- All instructions of a code are executed. -/
theorem of_passes
    (h : ∀ a d, ∃ a' d',
      Passes program ⟨pc, a, d, ram⟩ (List.range' pc size) ⟨pc', a', d', ram'⟩) :
    Crosses program pc size ram pc' ram' := by
  intro a d
  obtain ⟨a', d', hpasses⟩ := h a d
  refine ⟨a', d', _, hpasses, List.Sublist.refl _, fun hsize => ?_⟩
  rw [List.mem_range'_1]
  omega

theorem trans (first : Crosses program pc size ram (pc + size) ram')
    (second : Crosses program (pc + size) rest ram' pc'' ram'') :
    Crosses program pc (size + rest) ram pc'' ram'' := by
  intro a d
  obtain ⟨a', d', xs, hfirst, hxs, hpc⟩ := first a d
  obtain ⟨a'', d'', ys, hsecond, hys, hpc'⟩ := second a' d'
  refine ⟨a'', d'', xs ++ ys, hfirst.trans hsecond, ?_, fun hsize => ?_⟩
  · rw [← List.range'_append_1]
    exact hxs.append hys
  · rw [List.mem_append]
    by_cases hempty : 0 < size
    · exact .inl (hpc hempty)
    · obtain rfl : size = 0 := by omega
      exact .inr (hpc' (by omega))

end Crosses

end StackVm
