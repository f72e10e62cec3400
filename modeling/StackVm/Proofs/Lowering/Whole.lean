import StackVm.Lowering
import StackVm.Proofs.Staged

/-! # Commands are put out whole

`function` and `return` enter the checks of `push` and `pop` after their first lines are out.  Still
a command is put out whole or not at all, because these checks pass on every machine, and all other
checks come first.  So what becomes of a command can be said at once: its code and the lowering
after it, or an error.
-/

namespace StackVm

open Asm Staged

/-! ## Answers at once -/

namespace Code

/-- The code that pushes a number of zeros. -/
def zeros (count : Nat) : Code :=
  (List.replicate count (push (.immediate 0))).flatten

theorem zeros_succ (count : Nat) : zeros (count + 1) = push (.immediate 0) ++ zeros count := by
  simp [zeros, List.replicate_succ]

/-- Start a function: its label, then a zero for each local. -/
def function (name : String) (locals : Nat) : Code :=
  label name ++ zeros locals

def ret (popScratch frame returnAddress : String) : Code :=
  [load "LCL", assign toD (.it .m), load frame, assign toM .d] ++
    [loadConstant frameSize, assign toA (.sub .a), assign toD (.it .m), load returnAddress,
      assign toM .d] ++
    pop popScratch (.offset .arg 0) ++
    [load "ARG", assign toD (.succ .m), load "SP", assign toM .d] ++
    restorePointer frame .that 1 ++ restorePointer frame .this 2 ++
    restorePointer frame .arg 3 ++ restorePointer frame .lcl 4 ++
    [load returnAddress, assign toA (.it .m), jumpIf .zero .always]

end Code

namespace Lowering

/-- The label that is generated `ahead` labels from now. -/
def freshLabel (lowering : Lowering) (purpose : LabelPurpose) (ahead : UInt32) : String :=
  generatedLabel purpose (lowering.labels + ahead).toNat

/-- The place that a value is pushed from. -/
def pushPlace (lowering : Lowering) (segment : Segment) (index : UInt16) :
    Except SegmentFault Place :=
  if segment = .constants ∧ lowering.machine.maxConstant < index then
    .error (.constantTooLarge index lowering.machine.maxConstant)
  else
    lowering.place segment index

/-- The place that a value is popped into. -/
def popPlace (lowering : Lowering) (segment : Segment) (index : UInt16) :
    Except SegmentFault Place :=
  if segment = .constants then .error .constantTarget
  else lowering.place segment index

/-- The code of an operation and the number of labels that it takes. -/
def arith (lowering : Lowering) : ArithOp → Code × UInt32
  | .add => (Code.binary (.add .m), 0)
  | .sub => (Code.binary (.subD .m), 0)
  | .and => (Code.binary (.and .m), 0)
  | .or => (Code.binary (.or .m), 0)
  | .neg => (Code.unary (.neg .m), 0)
  | .not => (Code.unary (.not .m), 0)
  | .eq => (comparison .eq, 2)
  | .gt => (comparison .gt, 2)
  | .lt => (comparison .lt, 2)
where
  comparison (condition : Jump) : Code :=
    Code.comparison condition (lowering.freshLabel .isTrue 1) (lowering.freshLabel .isEnd 2)

/-- The code of a command and the lowering after it, or the error with which it is refused. -/
def answer (lowering : Lowering) (command : Located Command) : Except Error (Code × Lowering) :=
  match command.value with
  | .arith op =>
      .ok ((lowering.arith op).1,
        { lowering with labels := lowering.labels + (lowering.arith op).2 })
  | .push segment index =>
      match lowering.pushPlace segment index with
      | .ok place => .ok (Code.push place, lowering)
      | .error fault => .error (refused segment fault)
  | .pop segment index =>
      match lowering.popPlace segment index with
      | .ok place => .ok (Code.pop lowering.machine.popScratch place, lowering)
      | .error fault => .error (refused segment fault)
  | .label name => .ok (Code.label (lowering.scopedLabel name), lowering)
  | .goto name => .ok (Code.jumpTo (lowering.scopedLabel name), lowering)
  | .ifGoto name => .ok (Code.jumpUnlessZero (lowering.scopedLabel name), lowering)
  | .function name locals =>
      .ok (Code.function name locals.toNat, { lowering with function := some name })
  | .call name args =>
      if lowering.acceptsCall args then
        .ok (Code.call (lowering.freshLabel .ret 1) name args,
          { lowering with labels := lowering.labels + 1 })
      else
        .error (.malformedCommand lowering.unit command.span
          (.tooManyArguments name args lowering.maxArguments))
  | .ret =>
      .ok (Code.ret lowering.machine.popScratch lowering.machine.frameScratch
        lowering.machine.returnScratch, lowering)
where
  refused (segment : Segment) (fault : SegmentFault) : Error :=
    .invalidSegment lowering.unit command.span segment.word fault

/-- A zero can be pushed on every machine. -/
theorem pushPlace_zero (lowering : Lowering) :
    lowering.pushPlace .constants 0 = .ok (.immediate 0) := by
  have hsmall : ¬ (Segment.constants = .constants ∧ lowering.machine.maxConstant < 0) :=
    fun hlarge => UInt16.not_lt_zero hlarge.2
  rw [pushPlace, if_neg hsmall]
  rfl

/-- The first argument can be popped into on every machine. -/
theorem popPlace_argument (lowering : Lowering) :
    lowering.popPlace .arguments 0 = .ok (.offset .arg 0) := by
  have hcell : Segment.arguments ≠ .constants := by decide
  have hle : (0 : UInt16) ≤ lowering.machine.maxConstant := UInt16.zero_le
  rw [popPlace, if_neg hcell, place, place.offset, if_pos hle]

end Lowering

/-! ## Emitters -/

namespace Emitter

theorem append_append (out : Array Line) (xs ys : Code) : out ++ xs ++ ys = out ++ (xs ++ ys) :=
  Array.ext' (by simp only [Array.toList_appendList, List.append_assoc])

def extend (emitter : Emitter) (code : Code) : Emitter :=
  { emitter with out := emitter.out ++ code }

@[simp] theorem lowering_extend (emitter : Emitter) (code : Code) :
    (emitter.extend code).lowering = emitter.lowering := rfl

@[simp] theorem extend_extend (emitter : Emitter) (xs ys : Code) :
    (emitter.extend xs).extend ys = emitter.extend (xs ++ ys) := by
  rw [extend, extend, extend, append_append]

/-- What an answer that is given at once makes of an emitter. -/
def whole (emitter : Emitter) : Except Error (Code × Lowering) → EStateM.Result Error Emitter Unit
  | .ok (code, next) => .ok () ⟨next, emitter.out ++ code⟩
  | .error error => .error error emitter

theorem emit_bind {β : Type} (code : Code) (rest : Unit → Work β) (emitter : Emitter) :
    (emit code >>= rest) emitter = rest () (emitter.extend code) := rfl

theorem emit_apply (code : Code) (emitter : Emitter) :
    emit code emitter = .ok () (emitter.extend code) := rfl

variable (emitter : Emitter) (span : Span)

theorem locate_of_ok {segment : Segment} {index : UInt16} {place : Place}
    (h : emitter.lowering.place segment index = .ok place) :
    locate segment index span emitter = .ok place emitter := by
  unfold locate
  rw [get_bind, h]
  rfl

theorem locate_of_error {segment : Segment} {index : UInt16} {fault : SegmentFault}
    (h : emitter.lowering.place segment index = .error fault) :
    locate segment index span emitter =
      .error (.invalidSegment emitter.lowering.unit span segment.word fault) emitter := by
  unfold locate
  rw [get_bind, h]
  rfl

theorem push_of_ok {segment : Segment} {index : UInt16} {place : Place}
    (h : emitter.lowering.pushPlace segment index = .ok place) :
    push segment index span emitter = .ok () (emitter.extend (Code.push place)) := by
  unfold Lowering.pushPlace at h
  split at h
  · cases h
  · next hsmall =>
      unfold push
      rw [bind_of_ok (locate_of_ok emitter span h), get_bind, if_neg hsmall, emit_apply]

theorem push_of_error {segment : Segment} {index : UInt16} {fault : SegmentFault}
    (h : emitter.lowering.pushPlace segment index = .error fault) :
    push segment index span emitter =
      .error (.invalidSegment emitter.lowering.unit span segment.word fault) emitter := by
  unfold Lowering.pushPlace at h
  unfold push
  split at h
  · next hlarge =>
      obtain ⟨rfl, hlimit⟩ := hlarge
      cases h
      rw [bind_of_ok (locate_of_ok emitter span rfl), get_bind, if_pos ⟨rfl, hlimit⟩]
      rfl
  · rw [bind_of_error (locate_of_error emitter span h)]

theorem pop_of_ok {segment : Segment} {index : UInt16} {place : Place}
    (h : emitter.lowering.popPlace segment index = .ok place) :
    pop segment index span emitter =
      .ok () (emitter.extend (Code.pop emitter.lowering.machine.popScratch place)) := by
  unfold Lowering.popPlace at h
  split at h
  · cases h
  · next hcell =>
      unfold pop
      rw [bind_of_ok (locate_of_ok emitter span h), if_neg hcell, get_bind, emit_apply]

theorem pop_of_error {segment : Segment} {index : UInt16} {fault : SegmentFault}
    (h : emitter.lowering.popPlace segment index = .error fault) :
    pop segment index span emitter =
      .error (.invalidSegment emitter.lowering.unit span segment.word fault) emitter := by
  unfold Lowering.popPlace at h
  unfold pop
  split at h
  · next hconstant =>
      subst hconstant
      cases h
      rw [bind_of_ok (locate_of_ok emitter span rfl), if_pos rfl]
      rfl
  · rw [bind_of_error (locate_of_error emitter span h)]

theorem comparison_eq (condition : Jump) :
    comparison condition emitter =
      emitter.whole (.ok (Lowering.arith.comparison emitter.lowering condition,
        { emitter.lowering with labels := emitter.lowering.labels + 2 })) := by
  have hsecond : emitter.lowering.labels + 2 = emitter.lowering.labels + 1 + 1 :=
    (UInt32.add_assoc _ 1 1).symm
  rw [Lowering.arith.comparison, Lowering.freshLabel, Lowering.freshLabel, hsecond]
  rfl

theorem pushZeros_eq (count : Nat) :
    pushZeros span count emitter = .ok () (emitter.extend (Code.zeros count)) := by
  induction count generalizing emitter with
  | zero =>
      rw [extend, show Code.zeros 0 = [] from rfl, Array.appendList_nil]
      rfl
  | succ count ih =>
      unfold pushZeros
      rw [bind_of_ok (push_of_ok emitter span (Lowering.pushPlace_zero _)), ih, extend_extend,
        Code.zeros_succ]

theorem function_eq (name : String) (locals : UInt16) :
    function name locals span emitter =
      emitter.whole (.ok (Code.function name locals.toNat,
        { emitter.lowering with function := some name })) := by
  change pushZeros span locals.toNat _ = _
  rw [pushZeros_eq, extend, append_append]
  rfl

theorem call_of_accepts (name : String) {args : UInt16}
    (h : emitter.lowering.acceptsCall args = true) :
    call name args span emitter =
      emitter.whole (.ok (Code.call (emitter.lowering.freshLabel .ret 1) name args,
        { emitter.lowering with labels := emitter.lowering.labels + 1 })) := by
  unfold call
  rw [get_bind, if_pos h]
  rfl

theorem call_of_refuses (name : String) {args : UInt16}
    (h : emitter.lowering.acceptsCall args = false) :
    call name args span emitter =
      .error (.malformedCommand emitter.lowering.unit span
        (.tooManyArguments name args emitter.lowering.maxArguments)) emitter := by
  unfold call
  rw [get_bind, if_neg (Bool.eq_false_iff.1 h)]
  rfl

theorem ret_eq :
    ret span emitter =
      emitter.whole (.ok (Code.ret emitter.lowering.machine.popScratch
        emitter.lowering.machine.frameScratch emitter.lowering.machine.returnScratch,
        emitter.lowering)) := by
  unfold ret
  rw [get_bind, emit_bind, bind_of_ok (pop_of_ok _ span (Lowering.popPlace_argument _)), emit_apply]
  simp only [extend, whole, append_append, Code.ret, Code.readFrame, Code.leaveFrame,
    List.append_assoc, List.cons_append, List.nil_append]

theorem bootstrap_of_ok {entry : String} {code : Code}
    (h : emitter.lowering.bootstrap entry = .ok code) :
    bootstrap entry emitter = .ok () (emitter.extend code) := by
  unfold bootstrap
  rw [get_bind, h]
  rfl

theorem bootstrap_of_error {entry : String} {error : Error}
    (h : emitter.lowering.bootstrap entry = .error error) :
    bootstrap entry emitter = .error error emitter := by
  unfold bootstrap
  rw [get_bind, h]
  rfl

/-- A command is put out whole, or it is refused and leaves the emitter as it was. -/
theorem command_eq_whole (located : Located Command) :
    command located emitter = emitter.whole (emitter.lowering.answer located) := by
  obtain ⟨value, span⟩ := located
  cases value with
  | arith op =>
      cases op with
      | eq | gt | lt => exact comparison_eq emitter _
      | _ =>
          simp only [Lowering.answer, Lowering.arith, UInt32.add_zero]
          rfl
  | push segment index =>
      simp only [Lowering.answer]
      cases hplace : emitter.lowering.pushPlace segment index with
      | ok place => exact push_of_ok emitter span hplace
      | error fault => exact push_of_error emitter span hplace
  | pop segment index =>
      simp only [Lowering.answer]
      cases hplace : emitter.lowering.popPlace segment index with
      | ok place => exact pop_of_ok emitter span hplace
      | error fault => exact pop_of_error emitter span hplace
  | label name | goto name | ifGoto name => rfl
  | function name locals => exact function_eq emitter span name locals
  | call name args =>
      simp only [Lowering.answer]
      cases haccepts : emitter.lowering.acceptsCall args with
      | true => exact call_of_accepts emitter span name haccepts
      | false => exact call_of_refuses emitter span name haccepts
  | ret => exact ret_eq emitter span

end Emitter

theorem Lowering.command_eq_answer (lowering : Lowering) (located : Located Command) :
    lowering.command located = lowering.answer located := by
  rw [command, Emitter.command_eq_whole]
  cases lowering.answer located with
  | ok answer => simp only [Emitter.whole, Array.toList_appendList, List.nil_append]
  | error error => rfl

theorem Emitter.command_eq (emitter : Emitter) (located : Located Command) :
    Emitter.command located emitter = emitter.whole (emitter.lowering.command located) := by
  rw [Lowering.command_eq_answer, command_eq_whole]

theorem Emitter.command_of_ok (emitter : Emitter) {located : Located Command} {code : Code}
    {next : Lowering} (h : emitter.lowering.command located = .ok (code, next)) :
    Emitter.command located emitter = .ok () ⟨next, emitter.out ++ code⟩ := by
  rw [command_eq, h, whole]

theorem Emitter.command_of_error (emitter : Emitter) {located : Located Command} {error : Error}
    (h : emitter.lowering.command located = .error error) :
    Emitter.command located emitter = .error error emitter := by
  rw [command_eq, h, whole]

end StackVm
