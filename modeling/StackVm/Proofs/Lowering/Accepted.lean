import StackVm.Proofs.Lowering.Whole
import StackVm.Proofs.Vm

/-! # Accepted commands

All that a lowering can do with a command that it accepts: the place of a
segment's cell, the code of each kind of command, and the lowering after it.
-/

namespace StackVm

/-- Number of labels that the code of a command takes. -/
def Command.labelsTaken : Command → Nat
  | .arith .eq => 2
  | .arith .gt => 2
  | .arith .lt => 2
  | .call _ _ => 1
  | _ => 0

/-- The register that holds the base of a segment. -/
def Segment.base? : Segment → Option Pointer
  | .locals => some .lcl
  | .arguments => some .arg
  | .this => some .this
  | .that => some .that
  | _ => none

namespace Lowering

/-- The place of a segment's cell. -/
inductive HasPlace (lowering : Lowering) (index : UInt16) : Segment → Place → Prop where
  | immediate : lowering.HasPlace index .constants (.immediate index)
  | symbol : lowering.HasPlace index .statics (.symbol (lowering.staticSymbol index))
  | temp (h : index < 8) :
      lowering.HasPlace index .temps (.fixed (lowering.machine.tempBase + index))
  | pointer (h : index < 2) :
      lowering.HasPlace index .pointers (.fixed (lowering.machine.pointerBase + index))
  | offset {segment : Segment} {base : Pointer} (hbase : segment.base? = some base)
      (h : index ≤ lowering.machine.maxConstant) :
      lowering.HasPlace index segment (.offset base index)

theorem hasPlace_of_place {lowering : Lowering} {segment : Segment} {index : UInt16}
    {place : Place} (h : lowering.place segment index = .ok place) :
    lowering.HasPlace index segment place := by
  have hcell : ∀ size base, Lowering.place.cell index size base = .ok place →
      index < size ∧ Place.fixed (base + index) = place := by
    intro size base h
    simp only [Lowering.place.cell] at h
    split at h
    · next hlt =>
        cases h
        exact ⟨hlt, rfl⟩
    · cases h
  have hoffset : ∀ base, Lowering.place.offset lowering index base = .ok place →
      index ≤ lowering.machine.maxConstant ∧ Place.offset base index = place := by
    intro base h
    simp only [Lowering.place.offset] at h
    split at h
    · next hle =>
        cases h
        exact ⟨hle, rfl⟩
    · cases h
  cases segment with
  | constants =>
      cases h
      exact .immediate
  | statics =>
      cases h
      exact .symbol
  | temps =>
      obtain ⟨hlt, rfl⟩ := hcell _ _ h
      exact .temp hlt
  | pointers =>
      obtain ⟨hlt, rfl⟩ := hcell _ _ h
      exact .pointer hlt
  | locals | arguments | this | that =>
      obtain ⟨hle, rfl⟩ := hoffset _ h
      exact .offset rfl hle

theorem hasPlace_of_pushPlace {lowering : Lowering} {segment : Segment} {index : UInt16}
    {place : Place} (h : lowering.pushPlace segment index = .ok place) :
    lowering.HasPlace index segment place ∧
      (segment = .constants → index ≤ lowering.machine.maxConstant) := by
  simp only [pushPlace] at h
  split at h
  · cases h
  · next hle =>
      refine ⟨hasPlace_of_place h, fun hconstant => ?_⟩
      simpa [hconstant] using hle

theorem hasPlace_of_popPlace {lowering : Lowering} {segment : Segment} {index : UInt16}
    {place : Place} (h : lowering.popPlace segment index = .ok place) :
    lowering.HasPlace index segment place ∧ segment ≠ .constants := by
  simp only [popPlace] at h
  split at h
  · cases h
  · next hne => exact ⟨hasPlace_of_place h, hne⟩

/-- The lowering after an accepted command. -/
def passed (lowering : Lowering) (command : Command) : Lowering :=
  { lowering with
    function := Site.functionAfter lowering.function command
    labels := lowering.labels + UInt32.ofNat command.labelsTaken }

/-- The code that each kind of command has. -/
inductive Lowers (lowering : Lowering) : Command → Code → Prop where
  | arith (op : ArithOp) : lowering.Lowers (.arith op) (lowering.arith op).1
  | push {segment : Segment} {index : UInt16} {place : Place}
      (h : lowering.pushPlace segment index = .ok place) :
      lowering.Lowers (.push segment index) (Code.push place)
  | pop {segment : Segment} {index : UInt16} {place : Place}
      (h : lowering.popPlace segment index = .ok place) :
      lowering.Lowers (.pop segment index) (Code.pop lowering.machine.popScratch place)
  | label (name : String) :
      lowering.Lowers (.label name) (Code.label (lowering.scopedLabel name))
  | goto (name : String) :
      lowering.Lowers (.goto name) (Code.jumpTo (lowering.scopedLabel name))
  | ifGoto (name : String) :
      lowering.Lowers (.ifGoto name) (Code.jumpUnlessZero (lowering.scopedLabel name))
  | function (name : String) (locals : UInt16) :
      lowering.Lowers (.function name locals) (Code.function name locals.toNat)
  | call (name : String) {args : UInt16} (h : lowering.acceptsCall args = true) :
      lowering.Lowers (.call name args) (Code.call (lowering.freshLabel .ret 1) name args)
  | ret :
      lowering.Lowers .ret (Code.ret lowering.machine.popScratch lowering.machine.frameScratch
        lowering.machine.returnScratch)

theorem passed_of_labelsTaken (lowering : Lowering) (command : Command)
    (h : command.labelsTaken = 0) :
    lowering.passed command =
      { lowering with function := Site.functionAfter lowering.function command } := by
  have hlabels : lowering.labels + UInt32.ofNat 0 = lowering.labels := UInt32.add_zero _
  rw [passed, h, hlabels]

variable {lowering next : Lowering} {command : Located Command} {code : Code}

/-- All that an accepted command does. -/
theorem command_eq_ok_iff :
    lowering.command command = .ok (code, next) ↔
      lowering.Lowers command.value code ∧ next = lowering.passed command.value := by
  obtain ⟨value, span⟩ := command
  rw [command_eq_answer]
  constructor
  · intro h
    cases value with
    | arith op =>
        cases h
        exact ⟨.arith op, by cases op <;> rfl⟩
    | push segment index =>
        cases hplace : lowering.pushPlace segment index with
        | error fault => simp [answer, hplace] at h
        | ok place =>
            obtain ⟨rfl, rfl⟩ : Code.push place = code ∧ lowering = next := by
              simpa [answer, hplace] using h
            refine ⟨.push hplace, ?_⟩
            rw [lowering.passed_of_labelsTaken _ rfl]
            rfl
    | pop segment index =>
        cases hplace : lowering.popPlace segment index with
        | error fault => simp [answer, hplace] at h
        | ok place =>
            obtain ⟨rfl, rfl⟩ : Code.pop lowering.machine.popScratch place = code ∧
                lowering = next := by
              simpa [answer, hplace] using h
            refine ⟨.pop hplace, ?_⟩
            rw [lowering.passed_of_labelsTaken _ rfl]
            rfl
    | call name args =>
        by_cases haccepts : lowering.acceptsCall args = true
        · obtain ⟨rfl, rfl⟩ : Code.call (lowering.freshLabel .ret 1) name args = code ∧
              { lowering with labels := lowering.labels + 1 } = next := by
            simpa [answer, haccepts] using h
          exact ⟨.call name haccepts, rfl⟩
        · simp [answer, haccepts] at h
    | label name | goto name | ifGoto name | function name locals | ret =>
        cases h
        refine ⟨by constructor, ?_⟩
        rw [lowering.passed_of_labelsTaken _ rfl]
        rfl
  · rintro ⟨h, rfl⟩
    cases h with
    | arith op => cases op <;> rfl
    | push hplace | pop hplace =>
        rw [lowering.passed_of_labelsTaken _ rfl]
        simp only [answer, hplace]
        rfl
    | call name haccepts =>
        simp only [answer, haccepts, if_true]
        rfl
    | label _ | goto _ | ifGoto _ | function _ _ | ret =>
        rw [lowering.passed_of_labelsTaken _ rfl]
        rfl

end Lowering

end StackVm
