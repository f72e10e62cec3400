import StackVm.Lowering
import StackVm.Proofs.Asm.Reading
import StackVm.Source.Parse

/-! # Names and words

Symbols of the source language, and the names that a lowering makes from them,
are names that the assembler reads back as they are.  The words of a command have
no blank and no mark of a comment in them.
-/

namespace StackVm

open Text

/-! ## Symbols -/

namespace Source

theorem isPlain_of_isSymbolStart {c : Char} (h : isSymbolStart c = true) :
    isPlain c = true ∧ c.isDigit = false ∧ c ≠ '$' := by
  have halpha : c.isAlpha = (decide (c.val ≥ 'A'.val ∧ c.val ≤ 'Z'.val) ||
      (c.val ≥ 'a'.val && c.val ≤ 'z'.val)) := rfl
  simp only [isSymbolStart, halpha, Bool.or_eq_true, beq_iff_eq, Bool.and_eq_true,
    decide_eq_true_eq, UInt32.le_iff_toNat_le, ge_iff_le] at h
  change ((((65 ≤ c.toNat ∧ c.toNat ≤ 90) ∨ (97 ≤ c.toNat ∧ c.toNat ≤ 122)) ∨ c = '_') ∨
    c = '.') ∨ c = ':' at h
  rcases h with ((h | rfl) | rfl) | rfl
  · have hslash : c ≠ '/' := by
      rintro rfl
      revert h
      decide
    have hdollar : c ≠ '$' := by
      rintro rfl
      revert h
      decide
    have hblank : isBlank c = false := by
      simp [isBlank, whiteSpaceRanges]
      omega
    have hdigit : c.isDigit = false := by
      rw [Bool.eq_false_iff]
      intro hdigit
      simp only [Char.isDigit, Bool.and_eq_true, decide_eq_true_eq, UInt32.le_iff_toNat_le,
        ge_iff_le] at hdigit
      change 48 ≤ c.toNat ∧ c.toNat ≤ 57 at hdigit
      omega
    exact ⟨by simp [isPlain, hblank, hslash], hdigit, hdollar⟩
  all_goals decide

theorem isPlain_of_isSymbolRest {c : Char} (h : isSymbolRest c = true) :
    isPlain c = true ∧ c ≠ '$' := by
  rw [isSymbolRest, Bool.or_eq_true] at h
  rcases h with h | h
  · exact ⟨(isPlain_of_isSymbolStart h).1, (isPlain_of_isSymbolStart h).2.2⟩
  · refine ⟨isPlain_of_isDigit h, ?_⟩
    rintro rfl
    cases h

end Source

def Command.names : Command → List String
  | .label name => [name]
  | .goto name => [name]
  | .ifGoto name => [name]
  | .function name _ => [name]
  | .call name _ => [name]
  | _ => []

namespace Source

theorem isSymbol_of_readSymbol {unit name : String} {word : Word}
    (h : readSymbol unit word = .ok name) : isSymbol name = true := by
  unfold readSymbol at h
  split at h
  · next hsymbol =>
      cases h
      exact hsymbol
  · cases h

theorem isSymbol_of_readOperands {unit : String} {line : Line} {verb : Verb} {command : Command}
    (h : readOperands unit line verb = .ok command) :
    ∀ name ∈ command.names, isSymbol name = true := by
  unfold readOperands at h
  split at h
  case h_1 | h_2 =>
    cases h
    simp [Command.names]
  case h_3 | h_4 | h_5 =>
    obtain ⟨name, hname, hcommand⟩ := bind_eq_ok_iff.1 h
    cases hcommand
    simpa [Command.names] using isSymbol_of_readSymbol hname
  case h_6 | h_7 =>
    obtain ⟨segment, -, h⟩ := bind_eq_ok_iff.1 h
    obtain ⟨index, -, hcommand⟩ := bind_eq_ok_iff.1 h
    cases hcommand
    simp [Command.names]
  case h_8 | h_9 =>
    obtain ⟨name, hname, h⟩ := bind_eq_ok_iff.1 h
    obtain ⟨number, -, hcommand⟩ := bind_eq_ok_iff.1 h
    cases hcommand
    simpa [Command.names] using isSymbol_of_readSymbol hname
  case h_10 => cases h

/-- The commands of a source text carry symbols only. -/
theorem isSymbol_of_item {unit : String} {line : Line} {command : Located Command}
    (h : item unit line = .ok command) :
    ∀ name ∈ command.value.names, isSymbol name = true := by
  unfold item readCommand at h
  split at h
  · next verb hverb =>
      cases hread : readOperands unit line verb with
      | error error => simp [hread, Except.map] at h
      | ok value =>
          simp only [hread, Except.map, Except.ok.injEq] at h
          rw [← h]
          exact isSymbol_of_readOperands hread
  · cases h

theorem all_isPlain_of_isSymbol {name : String} (h : isSymbol name = true) :
    name.toList.all isPlain = true := by
  unfold isSymbol at h
  cases hname : name.toList with
  | nil => rfl
  | cons c rest =>
      simp only [hname, Bool.and_eq_true, List.all_eq_true] at h
      rw [List.all_cons, Bool.and_eq_true, List.all_eq_true]
      exact ⟨(isPlain_of_isSymbolStart h.1).1, fun d hd => (isPlain_of_isSymbolRest (h.2 d hd)).1⟩

theorem ne_nil_of_isSymbol {name : String} (h : isSymbol name = true) : name.toList ≠ [] := by
  intro hname
  simp [isSymbol, hname] at h

/-- A text that is read as one word. -/
structure IsWord (text : String) : Prop where
  ne_nil : text.toList ≠ []
  plain : text.toList.all isPlain = true

theorem IsWord.of_isSymbol {name : String} (h : isSymbol name = true) : IsWord name :=
  ⟨ne_nil_of_isSymbol h, all_isPlain_of_isSymbol h⟩

theorem IsWord.repr (n : Nat) : IsWord n.repr := by
  refine ⟨?_, Asm.all_isPlain_repr n⟩
  rw [Nat.toList_repr]
  exact Nat.toDigits_ne_nil

instance (text : String) : Decidable (IsWord text) :=
  decidable_of_iff (text.toList ≠ [] ∧ text.toList.all isPlain = true)
    ⟨fun h => ⟨h.1, h.2⟩, fun h => ⟨h.ne_nil, h.plain⟩⟩

theorem isWord_of_mem_words {command : Command}
    (h : ∀ name ∈ command.names, isSymbol name = true) {text : String}
    (htext : text ∈ command.verb.word :: command.operands) : IsWord text := by
  have hverb : ∀ verb : Verb, IsWord verb.word := by
    intro verb
    cases verb with
    | arith op => cases op <;> decide
    | _ => decide
  have hsegment : ∀ segment : Segment, IsWord segment.word := by
    intro segment
    cases segment <;> decide
  rcases List.mem_cons.1 htext with rfl | htext
  · exact hverb command.verb
  · cases command with
    | arith op => cases htext
    | ret => cases htext
    | push segment index | pop segment index =>
        simp only [Command.operands, List.mem_cons, List.not_mem_nil, or_false] at htext
        rcases htext with rfl | rfl
        · exact hsegment segment
        · exact .repr _
    | label name | goto name | ifGoto name =>
        simp only [Command.operands, List.mem_cons, List.not_mem_nil, or_false] at htext
        subst htext
        exact .of_isSymbol (h _ (by simp [Command.names]))
    | function name number | call name number =>
        simp only [Command.operands, List.mem_cons, List.not_mem_nil, or_false] at htext
        rcases htext with rfl | rfl
        · exact .of_isSymbol (h _ (by simp [Command.names]))
        · exact .repr _

end Source

theorem Text.not_mem_intercalate {c : Char} {sep : String} {texts : List String}
    (hsep : c ∉ sep.toList) (h : ∀ text ∈ texts, c ∉ text.toList) :
    c ∉ (sep.intercalate texts).toList := by
  induction texts with
  | nil => simp
  | cons text rest ih =>
      have hrest := ih fun other hother => h other (List.mem_cons_of_mem _ hother)
      cases rest with
      | nil => simpa using h text List.mem_cons_self
      | cons next others =>
          rw [String.intercalate_cons_cons, String.toList_append, String.toList_append,
            List.mem_append, List.mem_append]
          simp only [not_or]
          exact ⟨⟨h text List.mem_cons_self, hsep⟩, hrest⟩

theorem Command.not_mem_text {command : Command} {c : Char}
    (h : ∀ name ∈ command.names, Source.isSymbol name = true) (hc : isPlain c = false)
    (hspace : c ≠ ' ') : c ∉ command.text.toList := by
  refine not_mem_intercalate (by simpa using hspace) fun text htext hmem => ?_
  have hplain := List.all_eq_true.1 (Source.isWord_of_mem_words h htext).plain c hmem
  rw [hc] at hplain
  cases hplain

theorem Command.newline_not_mem_text {command : Command}
    (h : ∀ name ∈ command.names, Source.isSymbol name = true) : '\n' ∉ command.text.toList :=
  not_mem_text h (by decide) (by decide)

/-- A name that stays on its line and is no number. -/
structure IsName (name : String) : Prop where
  isOneLine : IsOneLine name.toList
  notNumber : (squeeze name.toList).all Char.isDigit = false

namespace IsName

variable {name : String}

theorem of_plain {c : Char} (hplain : name.toList.all isPlain = true) (hmem : c ∈ name.toList)
    (hdigit : c.isDigit = false) : IsName name := by
  refine ⟨isOneLine_of_plain hplain, ?_⟩
  rw [squeeze_of_plain hplain, List.all_eq_false]
  exact ⟨c, hmem, by simp [hdigit]⟩

theorem of_isSymbol (h : Source.isSymbol name = true) : IsName name := by
  have hplain := Source.all_isPlain_of_isSymbol h
  unfold Source.isSymbol at h
  cases hname : name.toList with
  | nil => simp [hname] at h
  | cons c rest =>
      simp only [hname, Bool.and_eq_true] at h
      exact of_plain hplain (by simp [hname]) (Source.isPlain_of_isSymbolStart h.1).2.1

/-- Whatever stands on one line before a name makes another name. -/
theorem prepend {first : String} (h : IsName name) (hfirst : IsOneLine first.toList)
    (hslash : name.toList.head? ≠ some '/') : IsName (first ++ name) := by
  refine ⟨?_, ?_⟩
  · rw [String.toList_append]
    exact hfirst.append h.isOneLine hslash
  · rw [String.toList_append, squeeze_append, List.all_append, h.notNumber, Bool.and_false]

/-- A mark that is no number, and plain characters after it. -/
theorem of_mark {mark rest : String}
    (hmark : mark.toList.all isPlain = true ∧ mark.toList.all Char.isDigit = false)
    (hrest : rest.toList.all isPlain = true) : IsName (mark ++ rest) := by
  obtain ⟨c, hc, hdigit⟩ := List.all_eq_false.1 hmark.2
  apply of_plain (c := c)
  · rw [String.toList_append, List.all_append, hmark.1, hrest, Bool.and_self]
  · rw [String.toList_append]
    exact List.mem_append_left _ hc
  · simpa using hdigit

theorem staticSymbol {lowering : Lowering} (h : IsOneLine lowering.unit.toList) (index : UInt16) :
    IsName (lowering.staticSymbol index) := by
  have hindex : IsName ("." ++ index.toNat.repr) :=
    of_mark (by decide) (Asm.all_isPlain_repr index.toNat)
  rw [Lowering.staticSymbol, String.append_assoc]
  exact hindex.prepend h (by simp)

theorem generatedLabel (purpose : LabelPurpose) (number : Nat) :
    IsName (StackVm.generatedLabel purpose number) :=
  of_mark (by cases purpose <;> decide) (Asm.all_isPlain_repr number)

theorem scopedLabel {lowering : Lowering} {label : String}
    (hunit : IsOneLine lowering.unit.toList)
    (hfunction : ∀ function, lowering.function = some function →
      Source.isSymbol function = true)
    (hlabel : Source.isSymbol label = true) : IsName (lowering.scopedLabel label) := by
  have hplain := Source.all_isPlain_of_isSymbol hlabel
  rw [Lowering.scopedLabel]
  split
  · next function h =>
      have hdollar : IsName ("$" ++ label) := of_mark (by decide) hplain
      rw [functionLabel, String.append_assoc]
      exact hdollar.prepend (of_isSymbol (hfunction function h)).isOneLine (by simp)
  · have hdollars : IsName ("$$" ++ label) := of_mark (by decide) hplain
    rw [unitLabel, String.append_assoc]
    exact hdollars.prepend hunit (by simp)

end IsName

end StackVm
