import StackVm.Proofs.Diagnosis

/-! # The grammar of commands

A line is read as a command if and only if its words spell that command: a verb and
as many operands as it takes, each of its kind.  Any other line has the error of the
first check that fails: verb, number of operands, operands from left to right.
-/

namespace StackVm

/-! ## Tables of words -/

theorem Segment.ofWord?_eq_some_iff {text : String} {segment : Segment} :
    ofWord? text = some segment ↔ text = segment.word := by
  constructor
  · intro h
    unfold ofWord? at h
    split at h
    all_goals
      cases h
      try rfl
  · rintro rfl
    exact ofWord?_word segment

theorem ArithOp.ofWord?_eq_some_iff {text : String} {op : ArithOp} :
    ofWord? text = some op ↔ text = op.word := by
  constructor
  · intro h
    unfold ofWord? at h
    split at h
    all_goals
      cases h
      try rfl
  · rintro rfl
    exact ofWord?_word op

theorem Verb.ofWord?_eq_some_iff {text : String} {verb : Verb} :
    ofWord? text = some verb ↔ text = verb.word := by
  constructor
  · intro h
    unfold ofWord? at h
    split at h
    case h_9 =>
      obtain ⟨op, hop, rfl⟩ := Option.map_eq_some_iff.1 h
      exact ArithOp.ofWord?_eq_some_iff.1 hop
    all_goals
      cases h
      rfl
  · rintro rfl
    exact ofWord?_word verb

namespace Text

/-! ## Numerals -/

/-- The decimal digits of a number, with any number of zeros before them. -/
def IsNumeral (text : String) (value : Nat) : Prop :=
  ∃ zeros, text.toList = List.replicate zeros '0' ++ value.repr.toList

theorem digitChar_of_isDigit {c : Char} (h : c.isDigit = true) :
    c = Nat.digitChar (c.toNat - '0'.toNat) ∧ c.toNat - '0'.toNat < 10 := by
  have hrange : 48 ≤ c.toNat ∧ c.toNat ≤ 57 := by
    simpa [Char.isDigit, UInt32.le_iff_toNat_le] using h
  have hzero : '0'.toNat = 48 := rfl
  have hchar : c = Char.ofNat c.toNat := (Char.ofNat_toNat c).symm
  refine ⟨?_, by omega⟩
  generalize c.toNat = n at hrange hchar
  subst hchar
  rcases (show n = 48 ∨ n = 49 ∨ n = 50 ∨ n = 51 ∨ n = 52 ∨ n = 53 ∨ n = 54 ∨ n = 55 ∨ n = 56 ∨
    n = 57 by omega) with rfl | rfl | rfl | rfl | rfl | rfl | rfl | rfl | rfl | rfl <;> rfl

/-- More digits behind those of a positive number make up a larger number. -/
theorem toDigits_append_of_isDigit {cs : List Char} (hcs : ∀ c ∈ cs, c.isDigit = true) {n : Nat}
    (hn : 0 < n) : Nat.toDigits 10 n ++ cs = Nat.toDigits 10 (Nat.ofDigitChars 10 cs n) := by
  induction cs generalizing n with
  | nil => rw [List.append_nil, Nat.ofDigitChars_nil]
  | cons c cs ih =>
      rw [List.forall_mem_cons] at hcs
      obtain ⟨hdigit, hlt⟩ := digitChar_of_isDigit hcs.1
      calc
        Nat.toDigits 10 n ++ c :: cs = (Nat.toDigits 10 n ++ [c]) ++ cs := by simp
        _ = (Nat.toDigits 10 n ++ Nat.toDigits 10 (c.toNat - '0'.toNat)) ++ cs := by
          rw [Nat.toDigits_of_lt_base hlt, ← hdigit]
        _ = Nat.toDigits 10 (10 * n + (c.toNat - '0'.toNat)) ++ cs := by
          rw [Nat.toDigits_append_toDigits (by decide) hn hlt]
        _ = Nat.toDigits 10 (Nat.ofDigitChars 10 (c :: cs) n) := by
          rw [ih hcs.2 (by omega), Nat.ofDigitChars_cons]

theorem exists_zeros {cs : List Char} (hne : cs ≠ []) (hcs : ∀ c ∈ cs, c.isDigit = true) :
    ∃ zeros, cs = List.replicate zeros '0' ++ (decimalValue cs).repr.toList := by
  induction cs with
  | nil => exact absurd rfl hne
  | cons c cs ih =>
      rw [List.forall_mem_cons] at hcs
      obtain ⟨hdigit, hlt⟩ := digitChar_of_isDigit hcs.1
      have hvalue : decimalValue (c :: cs) = Nat.ofDigitChars 10 cs (c.toNat - '0'.toNat) := by
        have hcons := @Nat.ofDigitChars_cons 10 c cs 0
        rw [Nat.mul_zero, Nat.zero_add] at hcons
        exact hcons
      rw [hvalue, Nat.toList_repr]
      by_cases hzero : c.toNat - '0'.toNat = 0
      · rw [hzero] at hdigit ⊢
        by_cases hnone : cs = []
        · refine ⟨0, ?_⟩
          rw [hnone, hdigit]
          rfl
        · obtain ⟨zeros, hzeros⟩ := ih hnone hcs.2
          refine ⟨zeros + 1, ?_⟩
          rw [List.replicate_succ, List.cons_append, ← Nat.toList_repr]
          exact congr (congrArg List.cons hdigit) hzeros
      · refine ⟨0, ?_⟩
        rw [← toDigits_append_of_isDigit hcs.2 (Nat.pos_of_ne_zero hzero),
          Nat.toDigits_of_lt_base hlt, ← hdigit]
        rfl

/-- Numerals are the digits that have their value. -/
theorem isNumeral_iff {text : String} {value : Nat} :
    IsNumeral text value ↔
      (text.toList ≠ [] ∧ text.toList.all Char.isDigit = true) ∧ value = decimalValue text.toList := by
  constructor
  · rintro ⟨zeros, htext⟩
    rw [htext]
    refine ⟨⟨?_, ?_⟩, ?_⟩
    · rw [Nat.toList_repr]
      exact List.append_ne_nil_of_right_ne_nil _ Nat.toDigits_ne_nil
    · rw [List.all_append, all_isDigit_repr, Bool.and_true, List.all_eq_true]
      intro c hc
      rw [List.eq_of_mem_replicate hc]
      rfl
    · have hzeros : decimalValue (List.replicate zeros '0') = 0 := by
        have hpower := @Nat.ofDigitChars_replicate_zero 10 0 zeros
        rwa [Nat.mul_zero] at hpower
      have happend : decimalValue (List.replicate zeros '0' ++ value.repr.toList) =
          Nat.ofDigitChars 10 value.repr.toList (decimalValue (List.replicate zeros '0')) :=
        Nat.ofDigitChars_append 0
      rw [happend, hzeros]
      exact (decimalValue_repr value).symm
  · rintro ⟨⟨hne, hdigits⟩, rfl⟩
    exact exists_zeros hne (List.all_eq_true.1 hdigits)

end Text

namespace Source

open Text

/-! ## Symbols -/

/-- The characters of symbols: ASCII letters, digits, and three marks. -/
def IsSymbolChar (c : Char) : Prop :=
  'a' ≤ c ∧ c ≤ 'z' ∨ 'A' ≤ c ∧ c ≤ 'Z' ∨ '0' ≤ c ∧ c ≤ '9' ∨ c ∈ ['_', '.', ':']

/-- A symbol is not empty, has only symbol characters, and does not start with a digit. -/
structure IsSymbolText (text : String) : Prop where
  ne_nil : text.toList ≠ []
  chars : ∀ c ∈ text.toList, IsSymbolChar c
  first : ∀ c ∈ text.toList.head?, ¬ ('0' ≤ c ∧ c ≤ '9')

theorem isDigit_iff {c : Char} : c.isDigit = true ↔ '0' ≤ c ∧ c ≤ '9' := by
  have hdigit : c.isDigit = (decide (c.val ≥ '0'.val) && decide (c.val ≤ '9'.val)) := rfl
  rw [hdigit, Bool.and_eq_true, decide_eq_true_eq, decide_eq_true_eq]
  exact Iff.rfl

theorem isSymbolStart_iff {c : Char} :
    isSymbolStart c = true ↔ IsSymbolChar c ∧ ¬ ('0' ≤ c ∧ c ≤ '9') := by
  have halpha : c.isAlpha = (decide (c.val ≥ 'A'.val ∧ c.val ≤ 'Z'.val) ||
      (decide (c.val ≥ 'a'.val) && decide (c.val ≤ 'z'.val))) := rfl
  have hstart : isSymbolStart c = true ↔
      ('A' ≤ c ∧ c ≤ 'Z' ∨ 'a' ≤ c ∧ c ≤ 'z') ∨ c ∈ ['_', '.', ':'] := by
    simp only [isSymbolStart, halpha, Bool.or_eq_true, Bool.and_eq_true, decide_eq_true_eq,
      beq_iff_eq, List.mem_cons, List.not_mem_nil, or_false, or_assoc]
    exact Iff.rfl
  rw [hstart, IsSymbolChar]
  constructor
  · intro h
    have hdigit : isSymbolStart c = true := hstart.2 h
    refine ⟨?_, fun hrange => ?_⟩
    · rcases h with (h | h) | h
      · exact .inr (.inl h)
      · exact .inl h
      · exact .inr (.inr (.inr h))
    · rw [← isDigit_iff, (isPlain_of_isSymbolStart hdigit).2.1] at hrange
      cases hrange
  · rintro ⟨h | h | h | h, hdigit⟩
    · exact .inl (.inr h)
    · exact .inl (.inl h)
    · exact absurd h hdigit
    · exact .inr h

theorem isSymbolRest_iff {c : Char} : isSymbolRest c = true ↔ IsSymbolChar c := by
  rw [isSymbolRest, Bool.or_eq_true, isSymbolStart_iff, isDigit_iff]
  constructor
  · rintro (h | h)
    · exact h.1
    · exact .inr (.inr (.inl h))
  · intro h
    by_cases hdigit : '0' ≤ c ∧ c ≤ '9'
    · exact .inr hdigit
    · exact .inl ⟨h, hdigit⟩

theorem isSymbol_iff {text : String} : isSymbol text = true ↔ IsSymbolText text := by
  cases htext : text.toList with
  | nil =>
      have hnone : isSymbol text = false := by simp [isSymbol, htext]
      rw [hnone]
      exact ⟨fun h => absurd h Bool.false_ne_true, fun h => absurd htext h.ne_nil⟩
  | cons c cs =>
      have hsome : isSymbol text = (isSymbolStart c && cs.all isSymbolRest) := by
        simp [isSymbol, htext]
      rw [hsome, Bool.and_eq_true, isSymbolStart_iff, List.all_eq_true]
      simp only [isSymbolRest_iff]
      constructor
      · rintro ⟨⟨hchar, hdigit⟩, hrest⟩
        refine ⟨by simp [htext], ?_, ?_⟩
        · rw [htext]
          exact List.forall_mem_cons.2 ⟨hchar, hrest⟩
        · rw [htext]
          rintro d ⟨⟩
          exact hdigit
      · intro h
        have hchars := h.chars
        rw [htext, List.forall_mem_cons] at hchars
        exact ⟨⟨hchars.1, h.first c (by rw [htext]; rfl)⟩, hchars.2⟩

/-! ## Operands -/

/-- What an operand has to be. -/
inductive Operand where
  | segment
  | number
  | symbol
  deriving DecidableEq, Repr

def operandsOf : Verb → List Operand
  | .arith _ => []
  | .ret => []
  | .label => [.symbol]
  | .goto => [.symbol]
  | .ifGoto => [.symbol]
  | .push => [.segment, .number]
  | .pop => [.segment, .number]
  | .function => [.symbol, .number]
  | .call => [.symbol, .number]

theorem length_operandsOf (verb : Verb) : (operandsOf verb).length = verb.operandCount := by
  cases verb <;> rfl

namespace Operand

/-- Whether a word is an operand of a kind. -/
def Admits (text : String) : Operand → Prop
  | .segment => ∃ segment : Segment, text = segment.word
  | .number => ∃ value : UInt16, IsNumeral text value.toNat
  | .symbol => IsSymbolText text

/-- The error about a word that is not an operand of a kind. -/
def fault (unit : String) (word : Word) : Operand → Error
  | .segment => .invalidSegment unit word.span word.text .unknownName
  | .number =>
      .malformedCommand unit word.span
        (if word.text.toList.all Char.isDigit then .numberTooLarge word.text
        else .notANumber word.text)
  | .symbol => .malformedCommand unit word.span (.invalidSymbol word.text)

/-- The error about the first word that is not an operand of its kind. -/
inductive Fails (unit : String) : List Operand → List Word → Error → Prop where
  | here {operand : Operand} {operands : List Operand} {word : Word} {words : List Word}
      (h : ¬ operand.Admits word.text) :
      Fails unit (operand :: operands) (word :: words) (operand.fault unit word)
  | later {operand : Operand} {operands : List Operand} {word : Word} {words : List Word}
      {error : Error} (h : operand.Admits word.text) (hrest : Fails unit operands words error) :
      Fails unit (operand :: operands) (word :: words) error

end Operand

/-! ## Commands -/

/-- The commands that words spell. -/
inductive Spells : List String → Command → Prop where
  | arith (op : ArithOp) : Spells [op.word] (.arith op)
  | ret : Spells ["return"] .ret
  | push {digits : String} (segment : Segment) {index : UInt16}
      (hindex : IsNumeral digits index.toNat) :
      Spells ["push", segment.word, digits] (.push segment index)
  | pop {digits : String} (segment : Segment) {index : UInt16}
      (hindex : IsNumeral digits index.toNat) :
      Spells ["pop", segment.word, digits] (.pop segment index)
  | label {name : String} (hname : IsSymbolText name) : Spells ["label", name] (.label name)
  | goto {name : String} (hname : IsSymbolText name) : Spells ["goto", name] (.goto name)
  | ifGoto {name : String} (hname : IsSymbolText name) : Spells ["if-goto", name] (.ifGoto name)
  | function {name digits : String} {locals : UInt16} (hname : IsSymbolText name)
      (hlocals : IsNumeral digits locals.toNat) :
      Spells ["function", name, digits] (.function name locals)
  | call {name digits : String} {args : UInt16} (hname : IsSymbolText name)
      (hargs : IsNumeral digits args.toNat) : Spells ["call", name, digits] (.call name args)

/-- The error of the first check that a line fails. -/
inductive Rejects (unit : String) (line : Line) : Error → Prop where
  | verb (h : ∀ verb : Verb, line.first.text ≠ verb.word) :
      Rejects unit line
        (.malformedCommand unit line.first.span (.unknownVerb line.first.text))
  | count {verb : Verb} (hverb : line.first.text = verb.word)
      (hcount : line.rest.length ≠ (operandsOf verb).length) :
      Rejects unit line (.malformedCommand unit line.span
        (.operandCount line.first.text (operandsOf verb).length line.rest.length))
  | operand {verb : Verb} {error : Error} (hverb : line.first.text = verb.word)
      (hcount : line.rest.length = (operandsOf verb).length)
      (hfails : Operand.Fails unit (operandsOf verb) line.rest error) :
      Rejects unit line error

/-! ## Reading operands -/

variable {unit : String} {word : Word} {error : Error}

theorem readSegment_eq_ok_iff {segment : Segment} :
    readSegment unit word = .ok segment ↔ word.text = segment.word := by
  rw [← Segment.ofWord?_eq_some_iff, readSegment]
  cases Segment.ofWord? word.text <;> simp

theorem readNumber_eq_ok_iff {value : UInt16} :
    readNumber unit word = .ok value ↔ IsNumeral word.text value.toNat := by
  have hread : readNumber unit word = .ok value ↔ readWord? word.text.toList = some value := by
    unfold readNumber
    constructor
    · intro h
      split at h
      · split at h
        · next hsome =>
            cases h
            exact hsome
        · cases h
      · cases h
    · intro h
      rw [if_pos (readWord?_eq_some_iff.1 h).1.2, h]
  rw [hread, readWord?_eq_some_iff, isNumeral_iff]

theorem readSymbol_eq_ok_iff {name : String} :
    readSymbol unit word = .ok name ↔ IsSymbolText word.text ∧ name = word.text := by
  rw [← isSymbol_iff, readSymbol]
  by_cases h : isSymbol word.text = true <;> simp [h, eq_comm]

/-- A reader fails on the words that are not operands of its kind, with the error of that kind. -/
structure ReadsAs {α : Type} (operand : Operand) (unit : String) (word : Word)
    (result : Except Error α) : Prop where
  ok : operand.Admits word.text → ∃ value, result = .ok value
  error : ¬ operand.Admits word.text → result = .error (operand.fault unit word)

theorem readsAs_segment : ReadsAs .segment unit word (readSegment unit word) where
  ok := by
    rintro ⟨segment, h⟩
    exact ⟨segment, readSegment_eq_ok_iff.2 h⟩
  error := by
    intro h
    cases hread : readSegment unit word with
    | ok segment => exact absurd ⟨segment, readSegment_eq_ok_iff.1 hread⟩ h
    | error other =>
        unfold readSegment at hread
        split at hread
        · cases hread
        · cases hread
          rfl

theorem readsAs_number : ReadsAs .number unit word (readNumber unit word) where
  ok := by
    rintro ⟨value, h⟩
    exact ⟨value, readNumber_eq_ok_iff.2 h⟩
  error := by
    intro h
    cases hread : readNumber unit word with
    | ok value => exact absurd ⟨value, readNumber_eq_ok_iff.1 hread⟩ h
    | error other =>
        unfold readNumber at hread
        unfold Operand.fault
        split at hread
        · next hdigits =>
            rw [if_pos hdigits]
            split at hread
            · cases hread
            · cases hread
              rfl
        · next hdigits =>
            rw [if_neg hdigits]
            cases hread
            rfl

theorem readsAs_symbol : ReadsAs .symbol unit word (readSymbol unit word) where
  ok := by
    intro h
    exact ⟨word.text, readSymbol_eq_ok_iff.2 ⟨h, rfl⟩⟩
  error := by
    intro h
    rw [readSymbol, if_neg fun hsymbol => h (isSymbol_iff.1 hsymbol)]
    rfl

/-! ## Reading commands -/

namespace Operand

theorem not_fails_nil {words : List Word} : ¬ Fails unit [] words error := by
  intro h
  cases h

/-- Words as many as the operands are all operands of their kinds, unless one is the first not to be. -/
theorem admits_or_fails {operands : List Operand} {words : List Word}
    (hlength : words.length = operands.length) :
    (∀ pair ∈ operands.zip words, pair.1.Admits pair.2.text) ∨
      ∃ error, Fails unit operands words error := by
  induction operands generalizing words with
  | nil => exact .inl (by simp)
  | cons operand operands ih =>
      cases words with
      | nil => cases hlength
      | cons word words =>
          by_cases hadmits : operand.Admits word.text
          · rcases ih (Nat.succ.inj hlength) with hall | ⟨error, hfails⟩
            · exact .inl (List.forall_mem_cons.2 ⟨hadmits, hall⟩)
            · exact .inr ⟨error, .later hadmits hfails⟩
          · exact .inr ⟨_, .here hadmits⟩

theorem Fails.read_one {α β : Type} {operand : Operand} {result : Except Error α} {make : α → β}
    (hresult : ReadsAs operand unit word result) (h : Fails unit [operand] [word] error) :
    (do return make (← result)) = .error error := by
  cases h with
  | here hadmits =>
      rw [hresult.error hadmits]
      rfl
  | later _ hrest => exact absurd hrest not_fails_nil

theorem Fails.read_two {α β γ : Type} {first second : Operand} {other : Word}
    {x : Except Error α} {y : Except Error β} {make : α → β → γ}
    (hx : ReadsAs first unit word x) (hy : ReadsAs second unit other y)
    (h : Fails unit [first, second] [word, other] error) :
    (do return make (← x) (← y)) = .error error := by
  cases h with
  | here hadmits =>
      rw [hx.error hadmits]
      rfl
  | later hadmits hrest =>
      obtain ⟨value, hvalue⟩ := hx.ok hadmits
      rw [hvalue]
      exact hrest.read_one hy

end Operand

variable {line : Line} {verb : Verb} {command : Command}

theorem readOperands_of_count (h : line.rest.length ≠ (operandsOf verb).length) :
    readOperands unit line verb = .error (operandCountError unit line verb) := by
  unfold readOperands
  split
  case h_10 => rfl
  all_goals
    next hrest =>
      rw [hrest] at h
      exact absurd rfl h

theorem exists_two_words {words : List Word} (h : words.length = 2) :
    ∃ word other, words = [word, other] := by
  cases words with
  | nil => cases h
  | cons word others =>
      obtain ⟨other, rfl⟩ := List.length_eq_one_iff.1 (Nat.succ.inj h)
      exact ⟨word, other, rfl⟩

theorem exists_words_of_map_eq {words : List Word} {first second : String}
    (h : words.map Word.text = [first, second]) :
    ∃ word other, words = [word, other] ∧ word.text = first ∧ other.text = second := by
  have hlength := congrArg List.length h
  rw [List.length_map] at hlength
  obtain ⟨word, other, rfl⟩ := exists_two_words hlength
  cases h
  exact ⟨word, other, rfl, rfl, rfl⟩

theorem readOperands_of_fails (hcount : line.rest.length = (operandsOf verb).length)
    (h : Operand.Fails unit (operandsOf verb) line.rest error) :
    readOperands unit line verb = .error error := by
  cases verb with
  | arith | ret => exact absurd h Operand.not_fails_nil
  | label | goto | ifGoto =>
      obtain ⟨name, hrest⟩ := List.length_eq_one_iff.1 hcount
      rw [hrest] at h
      simp only [readOperands, hrest]
      exact h.read_one readsAs_symbol
  | push | pop =>
      obtain ⟨segment, index, hrest⟩ := exists_two_words hcount
      rw [hrest] at h
      simp only [readOperands, hrest]
      exact h.read_two readsAs_segment readsAs_number
  | function | call =>
      obtain ⟨name, number, hrest⟩ := exists_two_words hcount
      rw [hrest] at h
      simp only [readOperands, hrest]
      exact h.read_two readsAs_symbol readsAs_number

theorem exists_spells_of_admits {words : List Word} (hcount : words.length = (operandsOf verb).length)
    (h : ∀ pair ∈ (operandsOf verb).zip words, pair.1.Admits pair.2.text) :
    ∃ command, Spells (verb.word :: words.map Word.text) command := by
  cases verb with
  | arith op =>
      cases List.length_eq_zero_iff.1 hcount
      exact ⟨_, .arith op⟩
  | ret =>
      cases List.length_eq_zero_iff.1 hcount
      exact ⟨_, .ret⟩
  | label =>
      obtain ⟨name, rfl⟩ := List.length_eq_one_iff.1 hcount
      exact ⟨_, .label (h _ (.head _))⟩
  | goto =>
      obtain ⟨name, rfl⟩ := List.length_eq_one_iff.1 hcount
      exact ⟨_, .goto (h _ (.head _))⟩
  | ifGoto =>
      obtain ⟨name, rfl⟩ := List.length_eq_one_iff.1 hcount
      exact ⟨_, .ifGoto (h _ (.head _))⟩
  | push =>
      obtain ⟨name, digits, rfl⟩ := exists_two_words hcount
      obtain ⟨segment, hsegment⟩ := h _ (.head _)
      obtain ⟨index, hindex⟩ := h _ (.tail _ (.head _))
      refine ⟨.push segment index, ?_⟩
      rw [List.map_cons, hsegment]
      exact .push segment hindex
  | pop =>
      obtain ⟨name, digits, rfl⟩ := exists_two_words hcount
      obtain ⟨segment, hsegment⟩ := h _ (.head _)
      obtain ⟨index, hindex⟩ := h _ (.tail _ (.head _))
      refine ⟨.pop segment index, ?_⟩
      rw [List.map_cons, hsegment]
      exact .pop segment hindex
  | function =>
      obtain ⟨name, digits, rfl⟩ := exists_two_words hcount
      obtain ⟨locals, hlocals⟩ := h _ (.tail _ (.head _))
      exact ⟨_, .function (h _ (.head _)) hlocals⟩
  | call =>
      obtain ⟨name, digits, rfl⟩ := exists_two_words hcount
      obtain ⟨args, hargs⟩ := h _ (.tail _ (.head _))
      exact ⟨_, .call (h _ (.head _)) hargs⟩

theorem readCommand_of_verb (verb : Verb) (h : line.first.text = verb.word) :
    readCommand unit line = readOperands unit line verb := by
  rw [readCommand, Verb.ofWord?_eq_some_iff.2 h]

theorem spells_or_rejects (unit : String) (line : Line) :
    (∃ command, Spells (line.words.map Word.text) command) ∨ ∃ error, Rejects unit line error := by
  by_cases hverb : ∃ verb : Verb, line.first.text = verb.word
  · obtain ⟨verb, hverb⟩ := hverb
    by_cases hcount : line.rest.length = (operandsOf verb).length
    · rcases Operand.admits_or_fails hcount with hadmits | ⟨error, hfails⟩
      · left
        rw [Line.words, List.map_cons, hverb]
        exact exists_spells_of_admits hcount hadmits
      · exact .inr ⟨error, .operand hverb hcount hfails⟩
    · exact .inr ⟨_, .count hverb hcount⟩
  · exact .inr ⟨_, .verb fun verb h => hverb ⟨verb, h⟩⟩

theorem readCommand_of_rejects (h : Rejects unit line error) :
    readCommand unit line = .error error := by
  cases h with
  | verb hverb =>
      have hnone : Verb.ofWord? line.first.text = none := by
        rw [Option.eq_none_iff_forall_ne_some]
        exact fun verb h => hverb verb (Verb.ofWord?_eq_some_iff.1 h)
      rw [readCommand, hnone]
  | count hverb hcount =>
      rw [readCommand_of_verb _ hverb, readOperands_of_count hcount, operandCountError,
        length_operandsOf]
  | operand hverb hcount hfails =>
      rw [readCommand_of_verb _ hverb, readOperands_of_fails hcount hfails]

theorem readCommand_of_spells (h : Spells (line.words.map Word.text) command) :
    readCommand unit line = .ok command := by
  rw [Line.words, List.map_cons] at h
  generalize hfirst : line.first.text = first at h
  generalize hrest : line.rest.map Word.text = rest at h
  cases h with
  | arith op =>
      rw [readCommand_of_verb (.arith op) hfirst]
      simp only [readOperands, List.map_eq_nil_iff.1 hrest]
  | ret =>
      rw [readCommand_of_verb .ret hfirst]
      simp only [readOperands, List.map_eq_nil_iff.1 hrest]
  | push segment hindex | pop segment hindex =>
      obtain ⟨name, digits, hwords, hname, rfl⟩ := exists_words_of_map_eq hrest
      simp only [readCommand, hfirst, Verb.ofWord?, readOperands, hwords]
      rw [readSegment_eq_ok_iff.2 hname, readNumber_eq_ok_iff.2 hindex]
      rfl
  | label hname | goto hname | ifGoto hname =>
      obtain ⟨word, hwords, rfl⟩ := List.map_eq_singleton_iff.1 hrest
      simp only [readCommand, hfirst, Verb.ofWord?, readOperands, hwords]
      rw [readSymbol_eq_ok_iff.2 ⟨hname, rfl⟩]
      rfl
  | function hname hnumber | call hname hnumber =>
      obtain ⟨word, digits, hwords, rfl, rfl⟩ := exists_words_of_map_eq hrest
      simp only [readCommand, hfirst, Verb.ofWord?, readOperands, hwords]
      rw [readSymbol_eq_ok_iff.2 ⟨hname, rfl⟩, readNumber_eq_ok_iff.2 hnumber]
      rfl

theorem readCommand_eq_ok_iff :
    readCommand unit line = .ok command ↔ Spells (line.words.map Word.text) command := by
  refine ⟨fun h => ?_, readCommand_of_spells⟩
  rcases spells_or_rejects unit line with ⟨other, hspells⟩ | ⟨error, hrejects⟩
  · cases h.symm.trans (readCommand_of_spells hspells)
    exact hspells
  · cases h.symm.trans (readCommand_of_rejects hrejects)

theorem readCommand_eq_error_iff :
    readCommand unit line = .error error ↔ Rejects unit line error := by
  refine ⟨fun h => ?_, readCommand_of_rejects⟩
  rcases spells_or_rejects unit line with ⟨command, hspells⟩ | ⟨other, hrejects⟩
  · cases h.symm.trans (readCommand_of_spells hspells)
  · cases h.symm.trans (readCommand_of_rejects hrejects)
    exact hrejects

/-! ## Reading a source text -/

theorem item_eq_ok_iff {located : Located Command} :
    item unit line = .ok located ↔
      Spells (line.words.map Word.text) located.value ∧ located.span = line.span := by
  rw [← readCommand_eq_ok_iff, item]
  cases readCommand unit line with
  | error error =>
      constructor
      · intro h
        cases h
      · intro h
        cases h.1
  | ok command =>
      constructor
      · intro h
        cases h
        exact ⟨rfl, rfl⟩
      · rintro ⟨hvalue, hspan⟩
        cases hvalue
        exact congrArg Except.ok (by rw [← hspan])

theorem item_eq_error_iff : item unit line = .error error ↔ Rejects unit line error := by
  rw [← readCommand_eq_error_iff, item]
  cases readCommand unit line with
  | error other =>
      constructor <;>
        · intro h
          cases h
          rfl
  | ok command =>
      constructor <;>
        · intro h
          cases h

theorem collect_eq_ok_iff {α : Type} {results : List (Except Error α)} {values : List α} :
    collect results = .ok values ↔ results = values.map .ok := by
  rw [collect, Asm.mapM_eq_ok_iff, List.map_id]

theorem collect_eq_error_iff {α : Type} {results : List (Except Error α)} :
    collect results = .error error ↔
      ∃ (before : List α) (after : List (Except Error α)),
        results = before.map .ok ++ .error error :: after := by
  induction results with
  | nil =>
      constructor
      · intro h
        cases h
      · rintro ⟨before, after, h⟩
        exact absurd h.symm (List.append_ne_nil_of_right_ne_nil _ (List.cons_ne_nil _ _))
  | cons result results ih =>
      rw [collect, List.mapM_cons, bind_eq_error_iff]
      constructor
      · rintro (hresult | ⟨value, hvalue, hrest⟩)
        · exact ⟨[], results, congrArg (· :: results) hresult⟩
        · rcases bind_eq_error_iff.1 hrest with hrest | ⟨_, _, hmade⟩
          · obtain ⟨before, after, rfl⟩ := ih.1 hrest
            exact ⟨value :: before, after, congrArg (· :: _) hvalue⟩
          · cases hmade
      · rintro ⟨before, after, h⟩
        cases before with
        | nil =>
            cases h
            exact .inl rfl
        | cons value before =>
            cases h
            exact .inr ⟨value, rfl, bind_eq_error_iff.2 (.inl (ih.2 ⟨before, after, rfl⟩))⟩

/--
Every line with words gives one item in its place: the command that its words spell,
or else the error of the first check that it fails.  All commands are given if there
is no error among the items, and the first error otherwise.
-/
theorem items_exact (unit source : String) :
    (items unit source).length = (lines source).length ∧
    (∀ {index : Nat} {line : Line}, (lines source)[index]? = some line →
      ∃ entry, (items unit source)[index]? = some entry ∧
        (∀ located, entry = .ok located ↔
          Spells (line.words.map Word.text) located.value ∧ located.span = line.span) ∧
        ∀ error, entry = .error error ↔ Rejects unit line error) ∧
    (∀ located, commands unit source = .ok located ↔ items unit source = located.map .ok) ∧
    ∀ error, commands unit source = .error error ↔
      ∃ (before : List (Located Command)) (after : List Item),
        items unit source = before.map .ok ++ .error error :: after := by
  refine ⟨List.length_map _, ?_, fun _ => collect_eq_ok_iff, fun _ => collect_eq_error_iff⟩
  intro index line hline
  refine ⟨item unit line, ?_, fun _ => item_eq_ok_iff, fun _ => item_eq_error_iff⟩
  rw [items, List.getElem?_map, hline, Option.map_some]

namespace Sample

/-- A number behind zeros, and a line whose operands are both wrong. -/
def faulty : String := "push constant 007\npush heap 1e3\n"

/-- The words of the second line. -/
def faultyLine : Line :=
  ⟨⟨"push", 2, 18, 22⟩, [⟨"heap", 2, 23, 27⟩, ⟨"1e3", 2, 28, 31⟩]⟩

theorem items_faulty :
    (lines faulty)[1]? = some faultyLine ∧
      (items "Main" faulty)[1]? =
        some (.error (.invalidSegment "Main" ⟨2, 23, 27⟩ "heap" .unknownName)) := by
  have hline : (lines faulty)[1]? = some faultyLine := rfl
  have hsegment : ¬ Operand.segment.Admits "heap" := by
    rintro ⟨segment, hword⟩
    revert hword
    cases segment <;> decide
  have hrejects : Rejects "Main" faultyLine
      (.invalidSegment "Main" ⟨2, 23, 27⟩ "heap" .unknownName) :=
    @Rejects.operand _ _ .push _ rfl rfl (.here hsegment)
  obtain ⟨entry, hentry, -, herror⟩ := (items_exact "Main" faulty).2.1 hline
  rw [hentry, (herror _).2 hrejects]
  exact ⟨hline, rfl⟩

end Sample

end Source

end StackVm
