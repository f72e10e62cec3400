import StackVm.Asm.Program
import StackVm.Proofs.Asm.Placed
import StackVm.Proofs.Text

/-! # Reading assembly back

The assembler reads from the text of a line what the line says, except that
names lose their blanks.
-/

namespace StackVm

theorem bind_eq_ok_iff {ε α β : Type} {x : Except ε α} {f : α → Except ε β} {b : β} :
    (x >>= f) = .ok b ↔ ∃ a, x = .ok a ∧ f a = .ok b := by
  cases x with
  | error e =>
      constructor
      · intro h
        cases h
      · rintro ⟨a, h, -⟩
        cases h
  | ok a =>
      constructor
      · exact fun h => ⟨a, rfl, h⟩
      · rintro ⟨a, ⟨⟩, h⟩
        exact h

theorem toOption_eq_some_iff {ε α : Type} {x : Except ε α} {a : α} :
    x.toOption = some a ↔ x = .ok a := by
  cases x <;> simp [Except.toOption]

namespace Asm

open Text

/-! ## Instructions -/

theorem Dest.ofText?_text (dest : Dest) : Dest.ofText? dest.text = some dest := by
  obtain ⟨a, d, m⟩ := dest
  cases a <;> cases d <;> cases m <;> decide

/-- The characters that the parts of a computation are spelled with. -/
def isPart (c : Char) : Bool :=
  isPlain c && c != '=' && c != ';' && c != '@' && c != '('

theorem Dest.all_isPart_text (dest : Dest) : dest.text.toList.all isPart = true := by
  obtain ⟨a, d, m⟩ := dest
  cases a <;> cases d <;> cases m <;> decide

theorem Jump.all_isPart_text (jump : Jump) : jump.text.toList.all isPart = true := by
  cases jump <;> decide

theorem Comp.all_isPart_text (comp : Comp) : comp.text.toList.all isPart = true := by
  cases comp with
  | it y | not y | neg y | succ y | pred y | add y | sub y | subD y | and y | or y =>
      cases y <;> decide
  | _ => decide

theorem Comp.text_ne_empty (comp : Comp) : comp.text.toList ≠ [] := by
  cases comp with
  | it y | not y | neg y | succ y | pred y | add y | sub y | subD y | and y | or y =>
      cases y <;> decide
  | _ => decide

section

variable {mark : Char} {xs : List Char}

theorem ne_mark_of_mem (h : mark ∉ xs) : ∀ c ∈ xs, (c != mark) = true := by
  intro c hc
  rw [bne_iff_ne]
  rintro rfl
  exact h hc

theorem splitFirst?_append (h : mark ∉ xs) (ys : List Char) :
    splitFirst? mark (xs ++ mark :: ys) = some (xs, ys) := by
  simp [splitFirst?, List.dropWhile_append_of_pos (ne_mark_of_mem h),
    List.takeWhile_append_of_pos (ne_mark_of_mem h)]

theorem splitFirst?_eq_none (h : mark ∉ xs) : splitFirst? mark xs = none := by
  have hdrop : (xs ++ []).dropWhile (· != mark) = [] :=
    List.dropWhile_append_of_pos (ne_mark_of_mem h)
  rw [List.append_nil] at hdrop
  simp [splitFirst?, hdrop]

end

/-- The marks between the parts of a computation stand in none of them. -/
theorem not_mem_of_isPart {cs : List Char} (h : cs.all isPart = true) (mark : Char)
    (hmark : isPart mark = false) : mark ∉ cs := by
  intro hmem
  rw [List.all_eq_true.1 h mark hmem] at hmark
  cases hmark

theorem Instruction.toList_text_compute (dest : Dest) (comp : Comp) (jump : Jump) :
    (Instruction.compute dest comp jump).text.toList =
      (if dest = {} then [] else dest.text.toList ++ ['=']) ++ comp.text.toList ++
        (if jump = .never then [] else ';' :: jump.text.toList) := by
  by_cases hdest : dest = {} <;> by_cases hjump : jump = .never <;>
    simp [Instruction.text, hdest, hjump]

/-- The text of a computation has no marks but those between its parts. -/
theorem Instruction.not_mem_text_compute {mark : Char} (hpart : isPart mark = false)
    (hequals : mark ≠ '=') (hsemicolon : mark ≠ ';') (dest : Dest) (comp : Comp) (jump : Jump) :
    mark ∉ (Instruction.compute dest comp jump).text.toList := by
  have hdest := not_mem_of_isPart dest.all_isPart_text mark hpart
  have hcomp := not_mem_of_isPart comp.all_isPart_text mark hpart
  have hjump := not_mem_of_isPart jump.all_isPart_text mark hpart
  rw [Instruction.toList_text_compute]
  by_cases hempty : dest = {} <;> by_cases hnever : jump = .never <;>
    simp [hempty, hnever, hdest, hcomp, hjump, hequals, hsemicolon]

theorem computeParts_text (dest : Dest) (comp : Comp) (jump : Jump) :
    computeParts (Instruction.compute dest comp jump).text.toList =
      (dest.text, comp.text, jump.text) := by
  have hdest := not_mem_of_isPart dest.all_isPart_text '=' (by decide)
  have hcomp := not_mem_of_isPart comp.all_isPart_text '=' (by decide)
  have hjump := not_mem_of_isPart jump.all_isPart_text '=' (by decide)
  have hsemicolon := not_mem_of_isPart comp.all_isPart_text ';' (by decide)
  have hrest : (splitFirst? ';' (comp.text.toList ++
      (if jump = .never then [] else ';' :: jump.text.toList))).getD
        (comp.text.toList ++ (if jump = .never then [] else ';' :: jump.text.toList), []) =
      (comp.text.toList, jump.text.toList) := by
    by_cases hnever : jump = .never
    · simp [hnever, splitFirst?_eq_none hsemicolon, Jump.text]
    · simp [hnever, splitFirst?_append hsemicolon]
  rw [Instruction.toList_text_compute]
  by_cases hempty : dest = {}
  · have hnone : '=' ∉ comp.text.toList ++
        (if jump = .never then [] else ';' :: jump.text.toList) := by
      by_cases hnever : jump = .never <;> simp [hnever, hcomp, hjump]
    simp [computeParts, hempty, splitFirst?_eq_none hnone, hrest, Dest.text]
  · rw [if_neg hempty, List.append_assoc, List.append_assoc, List.singleton_append]
    simp [computeParts, splitFirst?_append hdest, hrest]

theorem readInstruction_text_compute (limit : UInt16) (dest : Dest) (comp : Comp) (jump : Jump) :
    readInstruction limit (Instruction.compute dest comp jump).text.toList =
      .ok (.compute dest comp jump) := by
  have hat : '@' ∉ (Instruction.compute dest comp jump).text.toList :=
    Instruction.not_mem_text_compute (by decide) (by decide) (by decide) dest comp jump
  have hparts := computeParts_text dest comp jump
  generalize (Instruction.compute dest comp jump).text.toList = code at hat hparts ⊢
  have hread : ∀ operand, code ≠ '@' :: operand := by
    rintro operand rfl
    exact hat List.mem_cons_self
  rw [readInstruction]
  · simp [hparts, Dest.ofText?_text]
  · exact hread

theorem readAddress_repr {limit value : UInt16} (h : value ≤ limit) :
    readAddress limit value.toNat.repr.toList = .ok (.constant value) := by
  rw [readAddress, if_pos (head_repr_isDigit _), readDigits?_repr (UInt16.le_iff_toNat_le.1 h)]
  simp

theorem readAddress_symbol {limit : UInt16} {operand : List Char}
    (h : operand.head?.any Char.isDigit = false) :
    readAddress limit operand = .ok (.symbol (String.ofList operand)) := by
  rw [readAddress, if_neg (by simp [h])]

/-! ## Lines -/

/-- An instruction whose name, if it has one, has lost its blanks. -/
def Instruction.squeezed : Instruction → Instruction
  | .load (.symbol name) => .load (.symbol (Asm.squeezed name))
  | instruction => instruction

/-- A line whose name, if it has one, has lost its blanks. -/
def Line.squeezed : Line → Line
  | .comment text => .comment text
  | .label name => .label (Asm.squeezed name)
  | .code instruction => .code instruction.squeezed

/--
Instructions that are read as what they say, if at all: a constant is within the
limit, and a name stays on its line and is no number.
-/
def Instruction.Legible (limit : UInt16) : Instruction → Prop
  | .load (.constant value) => value ≤ limit
  | .load (.symbol name) =>
      IsOneLine name.toList ∧ (squeeze name.toList).all Char.isDigit = false
  | .compute _ _ _ => True

/-- Lines that are read as what they say, if at all. -/
def Line.Legible (limit : UInt16) : Line → Prop
  | .comment text => '\n' ∉ text.toList
  | .label name => IsOneLine name.toList
  | .code instruction => instruction.Legible limit

instance (limit : UInt16) : DecidablePred (Instruction.Legible limit)
  | .load (.constant value) => inferInstanceAs (Decidable (value ≤ limit))
  | .load (.symbol name) => inferInstanceAs (Decidable (IsOneLine name.toList ∧ _))
  | .compute _ _ _ => inferInstanceAs (Decidable True)

instance (limit : UInt16) : DecidablePred (Line.Legible limit)
  | .comment text => inferInstanceAs (Decidable ('\n' ∉ text.toList))
  | .label name => inferInstanceAs (Decidable (IsOneLine name.toList))
  | .code instruction => inferInstanceAs (Decidable (instruction.Legible limit))

/-- Whether the name in an instruction, if it has one, is not taken for a number. -/
def Instruction.isRead : Instruction → Bool
  | .load (.symbol name) => !(squeeze name.toList).head?.any Char.isDigit
  | _ => true

theorem readInstruction_squeezed_eq_ok_iff {limit : UInt16} {instruction result : Instruction}
    (h : instruction.Legible limit) :
    readInstruction limit instruction.squeezed.text.toList = .ok result ↔
      instruction.isRead = true ∧ result = instruction.squeezed := by
  cases instruction with
  | compute dest comp jump =>
      have hread : readInstruction limit (Instruction.compute dest comp jump).squeezed.text.toList =
          .ok (.compute dest comp jump) := readInstruction_text_compute limit dest comp jump
      rw [hread, Except.ok.injEq, eq_comm]
      simp [Instruction.isRead, Instruction.squeezed]
  | load address =>
      have hload : ∀ other : Address, readInstruction limit (Instruction.load other).text.toList =
          (readAddress limit other.text.toList).map .load := by
        intro other
        have htext : (Instruction.load other).text.toList = '@' :: other.text.toList := by
          simp [Instruction.text]
        rw [htext, readInstruction]
      cases address with
      | constant value =>
          have hsqueezed : (Instruction.load (.constant value)).squeezed = .load (.constant value) :=
            rfl
          rw [hsqueezed, hload, Address.text, readAddress_repr h]
          simp [Instruction.isRead, Except.map, eq_comm]
      | symbol name =>
          rw [Instruction.squeezed, hload, Address.text, squeezed, String.toList_ofList]
          by_cases hdigit : (squeeze name.toList).head?.any Char.isDigit = true
          · have hnone : readDigits? limit.toNat (squeeze name.toList) = none := by
              simp [readDigits?, h.2]
            simp [readAddress, Instruction.isRead, hdigit, hnone, Except.map]
          · rw [Bool.not_eq_true] at hdigit
            rw [readAddress_symbol hdigit]
            simp [Instruction.isRead, hdigit, Except.map, eq_comm]

theorem all_isPlain_of_isPart {cs : List Char} (h : cs.all isPart = true) :
    cs.all isPlain = true := by
  rw [List.all_eq_true] at h ⊢
  intro c hc
  have hpart := h c hc
  simp only [isPart, Bool.and_eq_true] at hpart
  exact hpart.1.1.1.1

theorem Instruction.all_isPlain_text_compute (dest : Dest) (comp : Comp) (jump : Jump) :
    (Instruction.compute dest comp jump).text.toList.all isPlain = true := by
  have hdest := all_isPlain_of_isPart dest.all_isPart_text
  have hcomp := all_isPlain_of_isPart comp.all_isPart_text
  have hjump := all_isPlain_of_isPart jump.all_isPart_text
  have hequals : isPlain '=' = true := by decide
  have hsemicolon : isPlain ';' = true := by decide
  rw [Instruction.toList_text_compute]
  by_cases hempty : dest = {} <;> by_cases hnever : jump = .never <;>
    simp only [hempty, hnever, if_true, if_false, List.all_append, List.all_cons, List.all_nil,
      hdest, hcomp, hjump, hequals, hsemicolon, Bool.and_self]

theorem all_isPlain_repr (n : Nat) : n.repr.toList.all isPlain = true := by
  have hdigits := all_isDigit_repr n
  rw [List.all_eq_true] at hdigits ⊢
  exact fun c hc => isPlain_of_isDigit (hdigits c hc)

theorem Instruction.isOneLine_text {limit : UInt16} {instruction : Instruction}
    (h : instruction.Legible limit) : IsOneLine instruction.text.toList := by
  cases instruction with
  | compute dest comp jump =>
      exact isOneLine_of_plain (Instruction.all_isPlain_text_compute dest comp jump)
  | load address =>
      rw [Instruction.text, String.toList_append]
      refine IsOneLine.cons (by decide) ?_
      cases address with
      | constant value => exact isOneLine_of_plain (all_isPlain_repr value.toNat)
      | symbol name => exact h.1

theorem Instruction.squeeze_text (instruction : Instruction) :
    squeeze instruction.text.toList = instruction.squeezed.text.toList := by
  cases instruction with
  | compute dest comp jump =>
      exact squeeze_of_plain (Instruction.all_isPlain_text_compute dest comp jump)
  | load address =>
      have hat : squeeze "@".toList = "@".toList := by decide
      cases address with
      | constant value =>
          simp only [Instruction.text, Instruction.squeezed, Address.text, String.toList_append,
            squeeze_append, hat, squeeze_of_plain (all_isPlain_repr value.toNat)]
      | symbol name =>
          simp only [Instruction.text, Instruction.squeezed, Address.text, String.toList_append,
            squeeze_append, hat, Asm.squeezed, String.toList_ofList]

/-- The code that the assembler reads from a line. -/
def Line.codeText : Line → List Char
  | .comment _ => []
  | line => line.squeezed.text.toList

theorem Line.codeOf_text {limit : UInt16} {line : Line} (h : line.Legible limit) :
    codeOf line.text.toList = line.codeText := by
  cases line with
  | comment text => simp [codeOf, Line.text, beforeComment, codeText]
  | label name =>
      have hname : IsOneLine (Line.label name).text.toList := by
        rw [Line.text, String.toList_append, String.toList_append]
        exact IsOneLine.cons (by decide)
          (h.append (isOneLine_of_plain (by decide)) (by decide))
      have hopen : squeeze "(".toList = "(".toList := by decide
      have hclose : squeeze ")".toList = ")".toList := by decide
      rw [codeOf, hname.2]
      change squeeze _ = _
      simp only [Line.text, String.toList_append, squeeze_append, hopen, hclose, codeText,
        Line.squeezed, Asm.squeezed, String.toList_ofList]
  | code instruction =>
      rw [codeOf, Line.text, (Instruction.isOneLine_text h).2]
      exact instruction.squeeze_text

theorem Line.newline_not_mem_text {limit : UInt16} {line : Line} (h : line.Legible limit) :
    '\n' ∉ line.text.toList := by
  cases line with
  | comment text =>
      have htext : '\n' ∉ text.toList := h
      simpa [Line.text] using htext
  | label name =>
      have hname := h.1
      simpa [Line.text] using hname
  | code instruction => exact (Instruction.isOneLine_text h).1

theorem Instruction.text_ne_nil (instruction : Instruction) : instruction.text.toList ≠ [] := by
  cases instruction with
  | load address => simp [Instruction.text]
  | compute dest comp jump =>
      rw [Instruction.toList_text_compute]
      simp only [ne_eq, List.append_eq_nil_iff, comp.text_ne_empty, and_false, false_and,
        not_false_iff]

/-- Code lines that are numbered from a given number on. -/
def codeLinesFrom (number : Nat) : List Line → List CodeLine
  | [] => []
  | .comment _ :: rest => codeLinesFrom (number + 1) rest
  | .label name :: rest => ⟨number, (Line.label name).codeText⟩ :: codeLinesFrom (number + 1) rest
  | .code instruction :: rest =>
      ⟨number, (Line.code instruction).codeText⟩ :: codeLinesFrom (number + 1) rest

theorem filterMap_zipIdx_text {limit : UInt16} {lines : List Line} (number : Nat)
    (h : ∀ line ∈ lines, line.Legible limit) :
    ((((lines.map Line.text).map String.toList).zipIdx number).filterMap fun line =>
      match codeOf line.1 with
      | [] => none
      | code => some ⟨line.2, code⟩) = codeLinesFrom number lines := by
  induction lines generalizing number with
  | nil => rfl
  | cons line rest ih =>
      have hrest := ih (number + 1) fun other hother => h other (List.mem_cons_of_mem _ hother)
      have hcode := Line.codeOf_text (h line List.mem_cons_self)
      cases line with
      | comment text =>
          simp only [List.map_cons, List.zipIdx_cons, List.filterMap_cons, hcode, hrest]
          rfl
      | label name =>
          have hne : (Line.label name).codeText ≠ [] := by
            simp [Line.codeText, Line.squeezed, Line.text]
          cases htext : (Line.label name).codeText with
          | nil => exact absurd htext hne
          | cons c cs =>
              simp only [List.map_cons, List.zipIdx_cons, List.filterMap_cons, hcode, hrest,
                htext, codeLinesFrom]
      | code instruction =>
          have hne : (Line.code instruction).codeText ≠ [] :=
            instruction.squeezed.text_ne_nil
          cases htext : (Line.code instruction).codeText with
          | nil => exact absurd htext hne
          | cons c cs =>
              simp only [List.map_cons, List.zipIdx_cons, List.filterMap_cons, hcode, hrest,
                htext, codeLinesFrom]

/-- The code of texts depends on the code of each alone. -/
theorem codeLines_render_congr {xs ys : List String} (hxs : ∀ text ∈ xs, '\n' ∉ text.toList)
    (hys : ∀ text ∈ ys, '\n' ∉ text.toList)
    (h : (xs.map String.toList).map codeOf = (ys.map String.toList).map codeOf) :
    codeLines (render xs) = codeLines (render ys) := by
  let numbered (line : List Char × Nat) : Option CodeLine :=
    match line.1 with
    | [] => none
    | code => some ⟨line.2, code⟩
  have hcodes : ∀ lines : List (List Char),
      ((lines.zipIdx 1).filterMap fun line => numbered (codeOf line.1, line.2)) =
        ((lines.map codeOf).zipIdx 1).filterMap numbered := by
    intro lines
    rw [List.zipIdx_map, List.filterMap_map]
    rfl
  rw [codeLines, codeLines, lines_render hxs, lines_render hys]
  exact (hcodes _).trans ((congrArg (fun codes => (codes.zipIdx 1).filterMap numbered) h).trans
    (hcodes _).symm)

/-- The code of some lines that follow other texts. -/
theorem codeLines_render_append {limit : UInt16} (texts : List String) {lines : List Line}
    (h : ∀ line ∈ lines, line.Legible limit) :
    codeLines (render (texts ++ lines.map Line.text)) =
      codeLines (render texts) ++
        codeLinesFrom (1 + (Text.lines (render texts).toList).length) lines := by
  have hlines : Text.lines (render (lines.map Line.text)).toList =
      (lines.map Line.text).map String.toList := by
    apply lines_render
    intro text htext
    obtain ⟨line, hline, rfl⟩ := List.mem_map.1 htext
    exact Line.newline_not_mem_text (h line hline)
  rw [codeLines, render_append, lines_render_append, List.zipIdx_append, List.filterMap_append,
    hlines]
  congr 1
  exact filterMap_zipIdx_text _ h

end Asm

end StackVm
