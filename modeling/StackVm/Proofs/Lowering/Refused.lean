import StackVm.Proofs.Lowering.Accepted

/-! # Refused commands

A lowering refuses a command that asks for a cell that its segment does not have,
for a value or an offset that no address load carries, or for a constant to store
to.  The error names the segment of a `push` or `pop`, or the arguments of a call.
-/

namespace StackVm

/-- Whether a segment has no cell of an index, or none that an offset can reach. -/
def Segment.lacks (machine : Machine) (index : UInt16) : Segment → Bool
  | .temps => 8 ≤ index
  | .pointers => 2 ≤ index
  | .locals => machine.maxConstant < index
  | .arguments => machine.maxConstant < index
  | .this => machine.maxConstant < index
  | .that => machine.maxConstant < index
  | .statics => false
  | .constants => false

/-- Whether a command asks for more than a machine has. -/
def Command.isRefused (machine : Machine) : Command → Bool
  | .push segment index =>
      segment.lacks machine index || (segment = .constants && machine.maxConstant < index)
  | .pop segment index => segment.lacks machine index || segment = .constants
  | .call _ args => machine.maxConstant.toNat < args.toNat + 5
  | _ => false

namespace Lowering

/-- The error with which each kind of command is refused. -/
inductive Refuses (lowering : Lowering) (span : Span) : Command → Error → Prop where
  | push {segment : Segment} {index : UInt16} {fault : SegmentFault}
      (h : lowering.pushPlace segment index = .error fault) :
      lowering.Refuses span (.push segment index)
        (.invalidSegment lowering.unit span segment.word fault)
  | pop {segment : Segment} {index : UInt16} {fault : SegmentFault}
      (h : lowering.popPlace segment index = .error fault) :
      lowering.Refuses span (.pop segment index)
        (.invalidSegment lowering.unit span segment.word fault)
  | call (name : String) {args : UInt16} (h : lowering.acceptsCall args = false) :
      lowering.Refuses span (.call name args)
        (.malformedCommand lowering.unit span
          (.tooManyArguments name args lowering.maxArguments))

/-- An error about a segment is that of a `push` or `pop`, and one about a command that of a call. -/
theorem Refuses.error_cases {lowering : Lowering} {span : Span} {command : Command} {error : Error}
    (h : lowering.Refuses span command error) :
    (∃ segment index reason, (command = .push segment index ∨ command = .pop segment index) ∧
        error = .invalidSegment lowering.unit span segment.word reason) ∨
      ∃ name args reason, command = .call name args ∧
        error = .malformedCommand lowering.unit span reason := by
  cases h with
  | push _ => exact .inl ⟨_, _, _, .inl rfl, rfl⟩
  | pop _ => exact .inl ⟨_, _, _, .inr rfl, rfl⟩
  | call name _ => exact .inr ⟨name, _, _, rfl, rfl⟩

/-- All that a refused command does. -/
theorem command_eq_error_iff {lowering : Lowering} {command : Located Command} {error : Error} :
    lowering.command command = .error error ↔
      lowering.Refuses command.span command.value error := by
  obtain ⟨value, span⟩ := command
  rw [command_eq_answer]
  constructor
  · intro h
    cases value with
    | push segment index =>
        cases hplace : lowering.pushPlace segment index with
        | ok place => simp [answer, hplace] at h
        | error fault =>
            obtain rfl : _ = error := by simpa [answer, hplace] using h
            exact .push hplace
    | pop segment index =>
        cases hplace : lowering.popPlace segment index with
        | ok place => simp [answer, hplace] at h
        | error fault =>
            obtain rfl : _ = error := by simpa [answer, hplace] using h
            exact .pop hplace
    | call name args =>
        cases haccepts : lowering.acceptsCall args with
        | true => simp [answer, haccepts] at h
        | false =>
            obtain rfl : _ = error := by simpa [answer, haccepts] using h
            exact .call name haccepts
    | arith op => simp [answer] at h
    | label name | goto name | ifGoto name | function name locals | ret => cases h
  · intro h
    cases h with
    | push hplace | pop hplace => simp [answer, answer.refused, hplace]
    | call name haccepts => simp [answer, haccepts]

section

variable {lowering : Lowering} {segment : Segment} {index : UInt16}

theorem cell_eq_error_iff {size base : UInt16} {fault : SegmentFault} :
    Lowering.place.cell index size base = .error fault ↔
      size ≤ index ∧ fault = .outOfRange index size := by
  unfold place.cell
  by_cases hlt : index < size
  · rw [if_pos hlt]
    exact ⟨nofun, fun hge => absurd hlt (UInt16.not_lt.2 hge.1)⟩
  · rw [if_neg hlt, Except.error.injEq, eq_comm]
    exact (and_iff_right (UInt16.not_lt.1 hlt)).symm

theorem offset_eq_error_iff {base : Pointer} {fault : SegmentFault} :
    Lowering.place.offset lowering index base = .error fault ↔
      lowering.machine.maxConstant < index ∧
        fault = .offsetTooLarge index lowering.machine.maxConstant := by
  unfold place.offset
  by_cases hle : index ≤ lowering.machine.maxConstant
  · rw [if_pos hle]
    exact ⟨nofun, fun hgt => absurd hle (UInt16.not_le.2 hgt.1)⟩
  · rw [if_neg hle, Except.error.injEq, eq_comm]
    exact (and_iff_right (UInt16.not_le.1 hle)).symm

theorem place_eq_error_iff :
    (∃ fault, lowering.place segment index = .error fault) ↔
      segment.lacks lowering.machine index = true := by
  cases segment with
  | constants | statics => exact ⟨nofun, nofun⟩
  | temps | pointers =>
      refine Iff.trans ⟨?_, ?_⟩ decide_eq_true_iff.symm
      · rintro ⟨fault, hcell⟩
        exact (cell_eq_error_iff.1 hcell).1
      · exact fun hge => ⟨_, cell_eq_error_iff.2 ⟨hge, rfl⟩⟩
  | locals | arguments | this | that =>
      refine Iff.trans ⟨?_, ?_⟩ decide_eq_true_iff.symm
      · rintro ⟨fault, hoffset⟩
        exact (offset_eq_error_iff.1 hoffset).1
      · exact fun hgt => ⟨_, offset_eq_error_iff.2 ⟨hgt, rfl⟩⟩

theorem pushPlace_eq_error_iff :
    (∃ fault, lowering.pushPlace segment index = .error fault) ↔
      (Command.push segment index).isRefused lowering.machine = true := by
  rw [Command.isRefused, Bool.or_eq_true, Bool.and_eq_true, decide_eq_true_iff,
    decide_eq_true_iff, ← place_eq_error_iff, pushPlace]
  by_cases hlarge : segment = .constants ∧ lowering.machine.maxConstant < index
  · rw [if_pos hlarge]
    exact ⟨fun _ => .inr hlarge, fun _ => ⟨_, rfl⟩⟩
  · rw [if_neg hlarge]
    exact (or_iff_left hlarge).symm

theorem popPlace_eq_error_iff :
    (∃ fault, lowering.popPlace segment index = .error fault) ↔
      (Command.pop segment index).isRefused lowering.machine = true := by
  rw [Command.isRefused, Bool.or_eq_true, decide_eq_true_iff, ← place_eq_error_iff, popPlace]
  by_cases hconstant : segment = .constants
  · rw [if_pos hconstant]
    exact ⟨fun _ => .inr hconstant, fun _ => ⟨_, rfl⟩⟩
  · rw [if_neg hconstant]
    exact (or_iff_left hconstant).symm

theorem acceptsCall_eq_false_iff {name : String} {args : UInt16} :
    lowering.acceptsCall args = false ↔
      (Command.call name args).isRefused lowering.machine = true := by
  rw [Command.isRefused, acceptsCall, decide_eq_false_iff_not, decide_eq_true_iff, Nat.not_le]
  rfl

/-- A command is refused if and only if it asks for more than the machine has. -/
theorem exists_refuses_iff (span : Span) {command : Command} :
    (∃ error, lowering.Refuses span command error) ↔
      command.isRefused lowering.machine = true := by
  constructor
  · rintro ⟨error, hrefuses⟩
    cases hrefuses with
    | push hplace => exact pushPlace_eq_error_iff.1 ⟨_, hplace⟩
    | pop hplace => exact popPlace_eq_error_iff.1 ⟨_, hplace⟩
    | call name haccepts => exact acceptsCall_eq_false_iff.1 haccepts
  · intro hrefused
    cases command with
    | push segment index =>
        obtain ⟨fault, hplace⟩ := pushPlace_eq_error_iff.2 hrefused
        exact ⟨_, .push hplace⟩
    | pop segment index =>
        obtain ⟨fault, hplace⟩ := popPlace_eq_error_iff.2 hrefused
        exact ⟨_, .pop hplace⟩
    | call name args => exact ⟨_, .call name (acceptsCall_eq_false_iff.2 hrefused)⟩
    | _ => cases hrefused

end

end Lowering

end StackVm
