import StackVm.Cpu

/-! # Data memory as a function

Reasoning about a run needs the contents of memory only, so memory is a
function of the address here.  The stack operations are those of the command
language: cell 0 holds the address one past the top.
-/

namespace StackVm

abbrev Ram := UInt16 → UInt16

namespace Ram

/-- Memory with one cell changed. -/
def set (ram : Ram) (address value : UInt16) : Ram :=
  fun cell => if cell = address then value else ram cell

@[simp] theorem set_same (ram : Ram) (address value : UInt16) :
    ram.set address value address = value := by
  simp [set]

theorem set_other (ram : Ram) (value : UInt16) {address cell : UInt16} (h : cell ≠ address) :
    ram.set address value cell = ram cell := by
  simp [set, h]

/-- Two memories hold the same in the cells of a set. -/
def Agree (cells : UInt16 → Prop) (x y : Ram) : Prop :=
  ∀ cell, cells cell → x cell = y cell

/-- Storing the same value adds a cell to those in which two memories agree. -/
theorem Agree.store {cells : UInt16 → Prop} {x y : Ram} (h : Agree cells x y)
    (address value : UInt16) :
    Agree (fun cell => cells cell ∨ address = cell) (x.set address value)
      (y.set address value) := by
  intro cell hcell
  by_cases heq : cell = address
  · simp [heq]
  · rw [set_other _ _ heq, set_other _ _ heq, h cell (hcell.resolve_right (Ne.symm heq))]

theorem Agree.set {cells : UInt16 → Prop} {x y : Ram} (h : Agree cells x y)
    (address value : UInt16) : Agree cells (x.set address value) (y.set address value) :=
  fun cell hcell => h.store address value cell (.inl hcell)

/-- A cell of the stack: above the registers and inside of memory. -/
def IsStackCell (address : UInt16) : Prop :=
  16 ≤ address.toNat ∧ address.toNat ≤ 32767

instance (cell : UInt16) : Decidable (IsStackCell cell) :=
  inferInstanceAs (Decidable (_ ∧ _))

theorem forall_isStackCell {cells : List UInt16} (h : cells.all (IsStackCell ·) = true) :
    ∀ cell ∈ cells, IsStackCell cell :=
  fun cell hcell => of_decide_eq_true (List.all_eq_true.1 h cell hcell)

theorem isStackCell_iff {address : UInt16} :
    IsStackCell address ↔ 16 ≤ address ∧ address ≤ 32767 := by
  rw [IsStackCell, UInt16.le_iff_toNat_le, UInt16.le_iff_toNat_le]
  rfl

theorem IsStackCell.ne {address : UInt16} (h : IsStackCell address) {register : UInt16}
    (hregister : register.toNat < 16) : address ≠ register := by
  rintro rfl
  have := h.1
  omega

/-- Put a value on top of the stack. -/
def push (ram : Ram) (value : UInt16) : Ram :=
  (ram.set 0 (ram 0 + 1)).set (ram 0) value

theorem push_apply (ram : Ram) (value cell : UInt16) :
    ram.push value cell =
      if cell = ram 0 then value else if cell = 0 then ram 0 + 1 else ram cell := rfl

def top (ram : Ram) : UInt16 :=
  ram (ram 0 - 1)

/-- Take the value on top off the stack. -/
def drop (ram : Ram) : Ram :=
  ram.set 0 (ram 0 - 1)

/-- A push changes the stack pointer and the cell that it pointed to. -/
theorem push_other (ram : Ram) (value : UInt16) {cell : UInt16} (hzero : cell ≠ 0)
    (hcell : cell ≠ ram 0) : ram.push value cell = ram cell := by
  rw [push, set_other _ _ hcell, set_other _ _ hzero]

theorem push_sp {ram : Ram} (value : UInt16) (h : ram 0 ≠ 0) :
    ram.push value 0 = ram 0 + 1 := by
  rw [push, set_other _ _ (Ne.symm h), set_same]

/-- The cells that several pushes fill are those of the first push and of the others. -/
theorem IsStackCell.of_pushes {ram : Ram} {count : Nat} (value : UInt16)
    (h : ∀ i < count + 1, IsStackCell (ram 0 + UInt16.ofNat i)) :
    IsStackCell (ram 0) ∧ ∀ i < count, IsStackCell (ram.push value 0 + UInt16.ofNat i) := by
  have hsp : IsStackCell (ram 0) := by simpa using h 0 (Nat.succ_pos count)
  refine ⟨hsp, fun i hi => ?_⟩
  have hcell := h (i + 1) (Nat.succ_lt_succ hi)
  rwa [UInt16.ofNat_add, UInt16.ofNat_one, UInt16.add_comm _ 1, ← UInt16.add_assoc,
    ← push_sp value (hsp.ne (by decide))] at hcell

/-- A register other than the stack pointer keeps its value when a stack cell is pushed. -/
theorem push_register {ram : Ram} (value : UInt16) (h : IsStackCell (ram 0)) {register : UInt16}
    (hzero : register ≠ 0) (hregister : register.toNat < 16) :
    ram.push value register = ram register :=
  push_other ram value hzero (Ne.symm (h.ne hregister))

@[simp] theorem drop_sp (ram : Ram) : ram.drop 0 = ram 0 - 1 := by
  simp [drop]

theorem drop_other (ram : Ram) {cell : UInt16} (h : cell ≠ 0) : ram.drop cell = ram cell :=
  set_other ram _ h

theorem Agree.drop {cells : UInt16 → Prop} {x y : Ram} (h : Agree cells x y) (hsp : cells 0) :
    Agree cells x.drop y.drop := by
  rw [Ram.drop, Ram.drop, h 0 hsp]
  exact h.set _ _

theorem top_set {ram : Ram} {register : UInt16} (value : UInt16) (h : IsStackCell (ram 0 - 1))
    (hzero : register ≠ 0) (hregister : register.toNat < 16) :
    (ram.set register value).top = ram.top := by
  have hsp : ram.set register value 0 = ram 0 := set_other _ _ (Ne.symm hzero)
  rw [top, hsp, set_other _ _ (h.ne hregister), top]

end Ram

namespace Cpu

theorem peek_poke {cpu : Cpu} {address : UInt16} {value : UInt16}
    (h : address.toNat < cpu.ram.size) :
    (cpu.poke address value).peek = Ram.set cpu.peek address value := by
  funext cell
  simp only [peek, poke, Ram.set, Array.getD_eq_getD_getElem?, Array.getElem?_setIfInBounds]
  by_cases hcell : cell = address
  · simp [hcell, h]
  · have hne : ¬ address.toNat = cell.toNat := fun heq => hcell (UInt16.toNat_inj.1 heq.symm)
    simp [hcell, hne]

/-- A processor with given contents of data memory. -/
def holding (words : List UInt16) (pc : UInt16) (ram : Ram) : Cpu where
  rom := words.toArray
  ram := Array.ofFn fun cell : Fin 32768 => ram (UInt16.ofNat cell)
  pc := pc

theorem rom_holding (words : List UInt16) (pc : UInt16) (ram : Ram) :
    (holding words pc ram).rom = words.toArray := by
  rw [holding]

theorem pc_holding (words : List UInt16) (pc : UInt16) (ram : Ram) :
    (holding words pc ram).pc = pc := by
  rw [holding]

theorem size_holding (words : List UInt16) (pc : UInt16) (ram : Ram) :
    (holding words pc ram).ram.size = 32768 := by
  rw [holding, Array.size_ofFn]

theorem peek_holding (words : List UInt16) (pc : UInt16) (ram : Ram) :
    (holding words pc ram).peek = fun cell => if cell < 0x8000 then ram cell else 0 := by
  funext cell
  simp only [peek, holding, Array.getD_eq_getD_getElem?, Array.getElem?_ofFn]
  by_cases h : cell < 0x8000
  · have hlt : cell.toNat < 32768 := h
    simp [h, hlt]
  · have hle : ¬ cell.toNat < 32768 := h
    simp [h, hle]

end Cpu

end StackVm
