import StackVm.Asm.Program
import StackVm.Lowering.Code
import StackVm.Proofs.Text

/-! # Code at an address

`Placed program address code` says that the instructions of `code` stand in
instruction memory from `address` on, and that each label among them has the
address where it stands.  Code that is placed can be cut anywhere.  Symbol
tables know names without their blanks.
-/

namespace StackVm

/-- Number of instructions among lines of assembly. -/
def Code.size : Code → Nat
  | [] => 0
  | .code _ :: rest => Code.size rest + 1
  | _ :: rest => Code.size rest

namespace Code

@[simp] theorem size_nil : Code.size [] = 0 := rfl

@[simp] theorem size_code (instruction : Asm.Instruction) (rest : Code) :
    Code.size (.code instruction :: rest) = Code.size rest + 1 := rfl

@[simp] theorem size_label (name : String) (rest : Code) :
    Code.size (.label name :: rest) = Code.size rest := rfl

@[simp] theorem size_comment (text : String) (rest : Code) :
    Code.size (.comment text :: rest) = Code.size rest := rfl

@[simp] theorem size_load (name : String) (rest : Code) :
    Code.size (load name :: rest) = Code.size rest + 1 := rfl

@[simp] theorem size_loadConstant (value : UInt16) (rest : Code) :
    Code.size (loadConstant value :: rest) = Code.size rest + 1 := rfl

@[simp] theorem size_assign (dest : Asm.Dest) (comp : Asm.Comp) (rest : Code) :
    Code.size (assign dest comp :: rest) = Code.size rest + 1 := rfl

@[simp] theorem size_jumpIf (comp : Asm.Comp) (jump : Asm.Jump) (rest : Code) :
    Code.size (jumpIf comp jump :: rest) = Code.size rest + 1 := rfl

@[simp] theorem size_append (xs ys : Code) :
    Code.size (xs ++ ys) = Code.size xs + Code.size ys := by
  induction xs with
  | nil => simp
  | cons line xs ih =>
      cases line <;> simp [ih, Nat.add_right_comm]

end Code

namespace Asm

def squeezed (name : String) : String :=
  String.ofList (Text.squeeze name.toList)

def Program.address? (program : Program) (name : String) : Option UInt16 :=
  program.symbols.address? (squeezed name)

/-- The value that a load of a name carries. -/
def Program.resolve (program : Program) (name : String) : UInt16 :=
  (program.address? name).getD 0

/-- The instructions of `code` stand at `address`, and its labels name their places. -/
def Placed (program : Program) (address : Nat) : Code → Prop
  | [] => True
  | .comment _ :: rest => Placed program address rest
  | .label name :: rest =>
      program.address? name = some (UInt16.ofNat address) ∧ Placed program address rest
  | .code instruction :: rest =>
      program.words[address]? = some (instruction.word program.resolve) ∧
        Placed program (address + 1) rest

namespace Placed

variable {program : Program} {address : Nat}

theorem append_iff {xs ys : Code} :
    Placed program address (xs ++ ys) ↔
      Placed program address xs ∧ Placed program (address + Code.size xs) ys := by
  induction xs generalizing address with
  | nil => simp [Placed]
  | cons line xs ih =>
      cases line <;> simp [Placed, ih, and_assoc, Nat.add_assoc, Nat.add_comm 1]

theorem left {xs ys : Code} (h : Placed program address (xs ++ ys)) :
    Placed program address xs :=
  (append_iff.1 h).1

theorem right {xs ys : Code} (h : Placed program address (xs ++ ys)) :
    Placed program (address + Code.size xs) ys :=
  (append_iff.1 h).2

theorem size_le {code : Code} (h : Placed program address code) (hsize : 0 < Code.size code) :
    address + Code.size code ≤ program.words.length := by
  induction code generalizing address with
  | nil => cases hsize
  | cons line rest ih =>
      cases line with
      | comment text => exact ih h hsize
      | label name => exact ih h.2 hsize
      | code instruction =>
          have hlt := (List.getElem?_eq_some_iff.1 h.1).1
          rw [Code.size_code]
          by_cases hrest : 0 < Code.size rest
          · have hle := ih h.2 hrest
            omega
          · omega

end Placed

/-- A label of a short program resolves to its address. -/
theorem Program.toNat_resolve {program : Program} {name : String} {address : Nat}
    (h : program.address? name = some (UInt16.ofNat address))
    (haddress : address ≤ 32767) : (program.resolve name).toNat = address := by
  rw [resolve, h, Option.getD_some, UInt16.toNat_ofNat']
  exact Nat.mod_eq_of_lt (by simp; omega)

theorem Program.resolve_lt {program : Program} {name : String} {address : Nat}
    (h : program.address? name = some (UInt16.ofNat address))
    (haddress : address ≤ 32767) : program.resolve name < 0x8000 := by
  have hnat := toNat_resolve h haddress
  rw [UInt16.lt_iff_toNat_lt, hnat]
  change address < 32768
  omega

end Asm

end StackVm
