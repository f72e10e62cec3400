import StackVm.Text.Blank
import StackVm.Text.Decimal
import StackVm.Text.Line

/-! # Texts that are read back

Lines that are written with their newlines are the lines that are read, and a
number that is written is the number that is read.  Blanks vanish from code; a
line break or a comment mark inside of a name tears it apart.
-/

namespace StackVm

namespace Text

/-! ## Lines -/

/-- The text of lines, each with its newline. -/
def render (lines : List String) : String :=
  String.join (lines.flatMap fun line => [line, "\n"])

@[simp] theorem render_nil : render [] = "" := rfl

@[simp] theorem render_append (xs ys : List String) :
    render (xs ++ ys) = render xs ++ render ys := by
  simp [render]

theorem lines_append_newline {cs : List Char} (h : '\n' ∉ cs) (rest : List Char) :
    lines (cs ++ '\n' :: rest) = cs :: lines rest := by
  induction cs with
  | nil => simp
  | cons c cs ih =>
      obtain ⟨hc, hcs⟩ : '\n' ≠ c ∧ '\n' ∉ cs := by simpa using h
      rw [List.cons_append, lines_cons _ (Ne.symm hc), ih hcs]

theorem lines_render {texts : List String} (h : ∀ text ∈ texts, '\n' ∉ text.toList) :
    lines (render texts).toList = texts.map String.toList := by
  induction texts with
  | nil => rfl
  | cons text rest ih =>
      have hrender : (render (text :: rest)).toList =
          text.toList ++ '\n' :: (render rest).toList := by
        simp [render]
      rw [hrender, lines_append_newline (h text List.mem_cons_self),
        ih fun other hother => h other (List.mem_cons_of_mem _ hother), List.map_cons]

theorem lines_append_newline_ne_nil (cs : List Char) : lines (cs ++ ['\n']) ≠ [] := by
  cases cs with
  | nil => simp
  | cons c cs =>
      by_cases hc : c = '\n'
      · simp [hc]
      · rw [List.cons_append, lines_cons _ hc]
        split <;> simp

/-- The lines after a newline do not depend on those before it. -/
theorem lines_append_newline_cons (cs rest : List Char) :
    lines (cs ++ '\n' :: rest) = lines (cs ++ ['\n']) ++ lines rest := by
  induction cs with
  | nil => simp
  | cons c cs ih =>
      rw [List.cons_append, List.cons_append]
      by_cases hc : c = '\n'
      · rw [hc, lines_newline, lines_newline, ih, List.cons_append]
      · rw [lines_cons _ hc, lines_cons _ hc, ih]
        cases hlines : lines (cs ++ ['\n']) with
        | nil => exact absurd hlines (lines_append_newline_ne_nil cs)
        | cons line others => rfl

theorem lines_render_append (texts : List String) (rest : String) :
    lines (render texts ++ rest).toList =
      lines (render texts).toList ++ lines rest.toList := by
  induction texts with
  | nil => simp
  | cons text texts ih =>
      have hrender : ∀ others : String, (render (text :: texts) ++ others).toList =
          text.toList ++ '\n' :: (render texts ++ others).toList := by
        simp [render]
      have hself := hrender ""
      rw [String.append_empty, String.append_empty] at hself
      rw [hrender, hself, lines_append_newline_cons, ih, ← List.append_assoc,
        ← lines_append_newline_cons]

/-! ## Characters -/

/-- A text without a line break and without the mark of a comment. -/
def IsOneLine (cs : List Char) : Prop :=
  '\n' ∉ cs ∧ beforeComment cs = cs

instance (cs : List Char) : Decidable (IsOneLine cs) :=
  inferInstanceAs (Decidable (_ ∧ _))

/-- The comment mark cannot straddle two texts unless the second starts with a slash. -/
theorem beforeComment_append {xs ys : List Char} (hxs : beforeComment xs = xs)
    (hys : ys.head? ≠ some '/') : beforeComment (xs ++ ys) = xs ++ beforeComment ys := by
  induction xs with
  | nil => rfl
  | cons c xs ih =>
      by_cases hslash : c = '/'
      · subst hslash
        cases xs with
        | nil =>
            cases ys with
            | nil => rfl
            | cons d ys =>
                have hd : d ≠ '/' := by simpa using hys
                simp [beforeComment, hd]
        | cons d xs =>
            by_cases hd : d = '/'
            · subst hd
              simp [beforeComment] at hxs
            · have hrest : beforeComment (d :: xs) = d :: xs := by
                simpa [beforeComment, hd] using hxs
              have htail := ih hrest
              simp only [List.cons_append] at htail ⊢
              rw [beforeComment, htail]
              simp [hd]
      · have hrest : beforeComment xs = xs := by
          simpa [beforeComment, hslash] using hxs
        simp [beforeComment, hslash, ih hrest]

/-- A character that means nothing to the reading of lines. -/
def isPlain (c : Char) : Bool :=
  !isBlank c && c != '/'

theorem IsOneLine.cons {c : Char} {cs : List Char} (hc : isPlain c = true) (h : IsOneLine cs) :
    IsOneLine (c :: cs) := by
  have hslash : c ≠ '/' := by
    rintro rfl
    cases hc
  have hnewline : '\n' ≠ c := by
    rintro rfl
    revert hc
    decide
  refine ⟨?_, by simp [beforeComment, hslash, h.2]⟩
  rw [List.mem_cons, not_or]
  exact ⟨hnewline, h.1⟩

theorem isOneLine_of_plain {cs : List Char} (h : cs.all isPlain = true) : IsOneLine cs := by
  induction cs with
  | nil => exact ⟨by simp, rfl⟩
  | cons c cs ih =>
      rw [List.all_cons, Bool.and_eq_true] at h
      exact (ih h.2).cons h.1

theorem IsOneLine.append {xs ys : List Char} (hxs : IsOneLine xs) (hys : IsOneLine ys)
    (hslash : ys.head? ≠ some '/') : IsOneLine (xs ++ ys) := by
  refine ⟨?_, by rw [beforeComment_append hxs.2 hslash, hys.2]⟩
  rw [List.mem_append, not_or]
  exact ⟨hxs.1, hys.1⟩

def squeeze (cs : List Char) : List Char :=
  cs.filter fun c => !isBlank c

@[simp] theorem squeeze_append (xs ys : List Char) :
    squeeze (xs ++ ys) = squeeze xs ++ squeeze ys :=
  List.filter_append xs ys

theorem squeeze_of_plain {cs : List Char} (h : cs.all isPlain = true) : squeeze cs = cs := by
  rw [squeeze, List.filter_eq_self]
  intro c hc
  have hplain := List.all_eq_true.1 h c hc
  rw [isPlain, Bool.and_eq_true] at hplain
  exact hplain.1

theorem isPlain_of_isDigit {c : Char} (h : c.isDigit = true) : isPlain c = true := by
  have hrange : 48 ≤ c.toNat ∧ c.toNat ≤ 57 := by
    simpa [Char.isDigit, UInt32.le_iff_toNat_le] using h
  have hslash : c ≠ '/' := by
    rintro rfl
    cases h
  have hblank : isBlank c = false := by
    simp [isBlank, whiteSpaceRanges]
    omega
  simp [isPlain, hblank, hslash]

/-- A text is cut in one way only at a mark that does not come again. -/
theorem append_cons_inj {mark : Char} {xs xs' ys ys' : List Char}
    (hys : mark ∉ ys) (hys' : mark ∉ ys') (h : xs ++ mark :: ys = xs' ++ mark :: ys') :
    xs = xs' ∧ ys = ys' := by
  rcases List.append_eq_append_iff.1 h with ⟨between, rfl, hrest⟩ | ⟨between, rfl, hrest⟩
  · cases between with
    | nil => simpa using hrest
    | cons c between =>
        rw [List.cons_append, List.cons.injEq] at hrest
        exact absurd (hrest.2 ▸ List.mem_append_right between List.mem_cons_self) hys
  · cases between with
    | nil => simpa [eq_comm] using hrest
    | cons c between =>
        rw [List.cons_append, List.cons.injEq] at hrest
        exact absurd (hrest.2 ▸ List.mem_append_right between List.mem_cons_self) hys'

/-! ## Numbers -/

theorem all_isDigit_repr (n : Nat) : n.repr.toList.all Char.isDigit = true := by
  rw [Nat.toList_repr, List.all_eq_true]
  intro c hc
  exact Nat.isDigit_of_mem_toDigits (by decide) (by decide) hc

theorem not_mem_repr {c : Char} (hc : c.isDigit = false) (n : Nat) : c ∉ n.repr.toList := by
  intro hmem
  have hdigit := List.all_eq_true.1 (all_isDigit_repr n) c hmem
  rw [hc] at hdigit
  cases hdigit

theorem head_repr_isDigit (n : Nat) : n.repr.toList.head?.any Char.isDigit = true := by
  have hall := all_isDigit_repr n
  have hne : n.repr.toList ≠ [] := by
    rw [Nat.toList_repr]
    exact Nat.toDigits_ne_nil
  cases hdigits : n.repr.toList with
  | nil => exact absurd hdigits hne
  | cons c rest =>
      rw [hdigits, List.all_cons, Bool.and_eq_true] at hall
      exact hall.1

theorem decimalValue_repr (n : Nat) : decimalValue n.repr.toList = n := by
  rw [Nat.toList_repr]
  exact Nat.ofDigitChars_toDigits (by decide) (by decide)

theorem eq_of_toList_repr_eq {m n : Nat} (h : m.repr.toList = n.repr.toList) : m = n := by
  rw [← decimalValue_repr m, h, decimalValue_repr]

theorem readDigits?_repr {bound n : Nat} (h : n ≤ bound) :
    readDigits? bound n.repr.toList = some n := by
  simp only [readDigits?, decimalValue_repr, all_isDigit_repr]
  simp [h]

theorem readDigits?_eq_some_iff {bound n : Nat} {cs : List Char} :
    readDigits? bound cs = some n ↔
      (cs ≠ [] ∧ cs.all Char.isDigit = true) ∧ n = decimalValue cs ∧ n ≤ bound := by
  unfold readDigits?
  constructor
  · intro h
    split at h
    · next hcs =>
        cases h
        exact ⟨⟨hcs.1, hcs.2.1⟩, rfl, hcs.2.2⟩
    · cases h
  · rintro ⟨⟨hne, hdigits⟩, rfl, hle⟩
    rw [if_pos ⟨hne, hdigits, hle⟩]

theorem readWord?_eq_some_iff {value : UInt16} {cs : List Char} :
    readWord? cs = some value ↔
      (cs ≠ [] ∧ cs.all Char.isDigit = true) ∧ value.toNat = decimalValue cs := by
  simp only [readWord?, Option.map_eq_some_iff, readDigits?_eq_some_iff]
  constructor
  · rintro ⟨n, ⟨hcs, hn, hle⟩, rfl⟩
    rw [UInt16.toNat_ofNat_of_lt' (Nat.lt_succ_of_le hle)]
    exact ⟨hcs, hn⟩
  · rintro ⟨hcs, hn⟩
    exact ⟨value.toNat, ⟨hcs, hn, Nat.le_of_lt_succ value.toNat_lt⟩, UInt16.ofNat_toNat⟩

end Text

end StackVm
