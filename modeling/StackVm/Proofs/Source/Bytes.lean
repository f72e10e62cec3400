import StackVm.Proofs.Source.Places

/-! # Bytes of a source text

Blanks, newlines and slashes take one byte in UTF-8, and no byte of another character
is one of them.  So a text may be cut beside such a byte, and every piece is again the
bytes of characters.
-/

namespace StackVm

namespace Text

open String (utf8EncodeChar)

/-- The bytes of characters in UTF-8. -/
def bytes (cs : List Char) : List UInt8 :=
  cs.flatMap utf8EncodeChar

@[simp] theorem bytes_nil : bytes [] = [] := rfl

theorem bytes_cons (c : Char) (cs : List Char) :
    bytes (c :: cs) = utf8EncodeChar c ++ bytes cs := rfl

@[simp] theorem bytes_append (xs ys : List Char) : bytes (xs ++ ys) = bytes xs ++ bytes ys :=
  List.flatMap_append

@[simp] theorem length_bytes (cs : List Char) : (bytes cs).length = byteLength cs := by
  induction cs with
  | nil => rfl
  | cons c cs ih => rw [bytes_cons, List.length_append, String.length_utf8EncodeChar, ih,
      byteLength_cons]

theorem bytes_eq_nil_iff {cs : List Char} : bytes cs = [] ↔ cs = [] := by
  cases cs with
  | nil => simp
  | cons c cs =>
      have hc := String.length_utf8EncodeChar c
      have hpos := c.utf8Size_pos
      rw [bytes_cons, List.append_eq_nil_iff, ← List.length_eq_zero_iff]
      simp only [reduceCtorEq, iff_false]
      omega

/-! ## Single bytes -/

/-- A byte below 128 is a character of its own. -/
def isAsciiByte (b : UInt8) : Bool :=
  b < 128

/-- The blank bytes: space, tab, line feed, form feed and carriage return. -/
def isBlankByte (b : UInt8) : Bool :=
  b == 0x20 || b == 0x09 || b == 0x0a || b == 0x0c || b == 0x0d

def newlineByte : UInt8 := 0x0a

def slashByte : UInt8 := 0x2f

variable {b : UInt8} {c d : Char}

theorem utf8EncodeChar_cases (c : Char) :
    c.val ≤ 127 ∧ utf8EncodeChar c = [c.toUInt8] ∨
      127 < c.val ∧ ∀ b ∈ utf8EncodeChar c, isAsciiByte b = false := by
  by_cases hc : c.val ≤ 127
  · exact .inl ⟨hc, String.utf8EncodeChar_eq_singleton (Char.utf8Size_eq_one_iff.2 hc)⟩
  · rw [UInt32.not_le] at hc
    refine .inr ⟨hc, ?_⟩
    have hval : ¬ c.val.toNat ≤ 127 := by
      have := UInt32.lt_iff_toNat_lt.1 hc
      simpa using this
    have hhigh : ∀ n, 128 ≤ n → n < 256 → isAsciiByte (UInt8.ofNat n) = false := by
      intro n hlow hupp
      simp only [isAsciiByte, decide_eq_false_iff_not, UInt8.lt_iff_toNat_lt, UInt8.toNat_ofNat']
      rw [Nat.mod_eq_of_lt hupp]
      simpa using hlow
    intro b hb
    simp only [utf8EncodeChar, hval, if_false] at hb
    split at hb
    · simp only [List.mem_cons, List.not_mem_nil, or_false] at hb
      rcases hb with rfl | rfl <;> exact hhigh _ (by omega) (by omega)
    · split at hb
      · simp only [List.mem_cons, List.not_mem_nil, or_false] at hb
        rcases hb with rfl | rfl | rfl <;> exact hhigh _ (by omega) (by omega)
      · simp only [List.mem_cons, List.not_mem_nil, or_false] at hb
        rcases hb with rfl | rfl | rfl | rfl <;> exact hhigh _ (by omega) (by omega)

/-- An ASCII character is told by any byte of its encoding. -/
theorem beq_byte (hd : d.val ≤ 127) (h : b ∈ utf8EncodeChar c) : (b == d.toUInt8) = (c == d) := by
  have hascii : isAsciiByte d.toUInt8 = true := by
    have hle := UInt32.le_iff_toNat_le.1 hd
    have hbyte : d.toUInt8.toNat = d.val.toNat % 256 := rfl
    simp only [isAsciiByte, decide_eq_true_eq, UInt8.lt_iff_toNat_lt, hbyte]
    have : (127 : UInt32).toNat = 127 := rfl
    have : (128 : UInt8).toNat = 128 := rfl
    omega
  rw [Bool.eq_iff_iff, beq_iff_eq, beq_iff_eq]
  rcases utf8EncodeChar_cases c with ⟨hc, hone⟩ | ⟨hc, hnone⟩
  · rw [hone, List.mem_singleton] at h
    constructor
    · intro heq
      have hbytes : c.val.toNat % 256 = d.val.toNat % 256 := congrArg UInt8.toNat (h.symm.trans heq)
      have hcle := UInt32.le_iff_toNat_le.1 hc
      have hdle := UInt32.le_iff_toNat_le.1 hd
      have h127 : (127 : UInt32).toNat = 127 := rfl
      apply Char.ext
      apply UInt32.toNat_inj.1
      omega
    · intro heq
      rw [h, heq]
  · constructor
    · intro heq
      have hb := hnone b h
      rw [heq, hascii] at hb
      cases hb
    · intro heq
      rw [heq] at hc
      exact absurd hc (UInt32.not_lt.2 hd)

theorem isBlankByte_of_mem (h : b ∈ utf8EncodeChar c) : isBlankByte b = isAsciiBlank c := by
  change (b == ' '.toUInt8 || b == '\t'.toUInt8 || b == '\n'.toUInt8 || b == '\x0c'.toUInt8 ||
    b == '\r'.toUInt8) = isAsciiBlank c
  rw [beq_byte (by decide) h, beq_byte (by decide) h, beq_byte (by decide) h,
    beq_byte (by decide) h, beq_byte (by decide) h]
  rfl

theorem eq_newlineByte_iff (h : b ∈ utf8EncodeChar c) : b = newlineByte ↔ c = '\n' := by
  have hbyte := beq_byte (d := '\n') (by decide) h
  rw [Bool.eq_iff_iff, beq_iff_eq, beq_iff_eq] at hbyte
  exact hbyte

theorem eq_slashByte_iff (h : b ∈ utf8EncodeChar c) : b = slashByte ↔ c = '/' := by
  have hbyte := beq_byte (d := '/') (by decide) h
  rw [Bool.eq_iff_iff, beq_iff_eq, beq_iff_eq] at hbyte
  exact hbyte

/-! ## Bytes of texts -/

/-- A property of bytes that each byte of a character has if the character has another property. -/
def Tells (P : UInt8 → Prop) (Q : Char → Prop) : Prop :=
  ∀ (c : Char), ∀ b ∈ utf8EncodeChar c, P b ↔ Q c

theorem tells_blank (blank : Bool) :
    Tells (fun b => isBlankByte b = blank) (fun c => isAsciiBlank c = blank) := by
  intro c b hb
  simp only [isBlankByte_of_mem hb]

theorem tells_newline : Tells (fun b => b = newlineByte) (fun c => c = '\n') :=
  fun _ _ hb => eq_newlineByte_iff hb

namespace Tells

variable {P : UInt8 → Prop} {Q : Char → Prop} {cs : List Char}

theorem forall_mem_iff (h : Tells P Q) : (∀ b ∈ bytes cs, P b) ↔ ∀ c ∈ cs, Q c := by
  constructor
  · intro hall c hc
    obtain ⟨b, hb⟩ := List.exists_mem_of_length_pos
      (Nat.lt_of_lt_of_eq c.utf8Size_pos (String.length_utf8EncodeChar c).symm)
    exact (h c b hb).1 (hall b (List.mem_flatMap.2 ⟨c, hc, hb⟩))
  · intro hall b hb
    obtain ⟨c, hc, hmem⟩ := List.mem_flatMap.1 hb
    exact (h c b hmem).2 (hall c hc)

theorem forall_head?_iff (h : Tells P Q) :
    (∀ b ∈ (bytes cs).head?, P b) ↔ ∀ c ∈ cs.head?, Q c := by
  cases cs with
  | nil => simp
  | cons c cs =>
      cases hchar : utf8EncodeChar c with
      | nil => exact absurd hchar String.utf8EncodeChar_ne_nil
      | cons b more =>
          have hb := h c b (by simp [hchar])
          simp [bytes_cons, hchar, hb]

theorem forall_getLast?_iff (h : Tells P Q) :
    (∀ b ∈ (bytes cs).getLast?, P b) ↔ ∀ c ∈ cs.getLast?, Q c := by
  rcases List.eq_nil_or_concat cs with rfl | ⟨before, c, rfl⟩
  · simp
  · have hne : utf8EncodeChar c ≠ [] := String.utf8EncodeChar_ne_nil
    have hb := h c ((utf8EncodeChar c).getLast hne) (List.getLast_mem hne)
    simp [bytes_cons, List.getLast?_append, List.getLast?_eq_some_getLast hne, hb]

end Tells

theorem count_newlineByte (cs : List Char) : (bytes cs).count newlineByte = cs.count '\n' := by
  induction cs with
  | nil => rfl
  | cons c cs ih =>
      rw [bytes_cons, List.count_append, ih]
      by_cases hc : c = '\n'
      · subst hc
        rw [List.count_cons_self, Nat.add_comm]
        rfl
      · rw [List.count_cons_of_ne hc, List.count_eq_zero.2, Nat.zero_add]
        exact fun hmem => hc ((eq_newlineByte_iff hmem).1 rfl)

theorem newlineByte_mem_iff {cs : List Char} : newlineByte ∈ bytes cs ↔ '\n' ∈ cs := by
  rw [← List.count_pos_iff, count_newlineByte, List.count_pos_iff]

/-! ## Cuts -/

/-- Beside an ASCII byte no character is torn apart. -/
theorem exists_append_of_bytes {cs : List Char} {xs ys : List UInt8} (h : bytes cs = xs ++ ys)
    (hmark : (∀ b ∈ xs.getLast?, isAsciiByte b = true) ∨ ∀ b ∈ ys.head?, isAsciiByte b = true) :
    ∃ before after, cs = before ++ after ∧ bytes before = xs ∧ bytes after = ys := by
  induction cs generalizing xs with
  | nil =>
      obtain ⟨rfl, rfl⟩ := List.append_eq_nil_iff.1 h.symm
      exact ⟨[], [], rfl, rfl, rfl⟩
  | cons c cs ih =>
      rw [bytes_cons] at h
      rcases List.append_eq_append_iff.1 h with ⟨more, rfl, hrest⟩ | ⟨more, hchar, rfl⟩
      · have hmore : (∀ b ∈ more.getLast?, isAsciiByte b = true) ∨
            ∀ b ∈ ys.head?, isAsciiByte b = true := by
          refine hmark.imp_left fun hlast b hb => hlast b ?_
          rw [List.getLast?_append, Option.mem_def.1 hb]
          rfl
        obtain ⟨before, after, rfl, rfl, rfl⟩ := ih hrest hmore
        exact ⟨c :: before, after, rfl, rfl, rfl⟩
      · by_cases hxs : xs = []
        · subst hxs
          exact ⟨[], c :: cs, rfl, rfl, by rw [bytes_cons, hchar]; rfl⟩
        · by_cases hnone : more = []
          · subst hnone
            exact ⟨[c], cs, rfl, by simpa [bytes_cons] using hchar, rfl⟩
          · exfalso
            have hxslen := List.length_pos_iff.2 hxs
            have hmorelen := List.length_pos_iff.2 hnone
            have hlength := congrArg List.length hchar
            rw [List.length_append] at hlength
            rcases utf8EncodeChar_cases c with ⟨-, hone⟩ | ⟨-, hlong⟩
            · rw [hone, List.length_singleton] at hlength
              omega
            · rw [hchar] at hlong
              rcases hmark with hlast | hhead
              · have hmem := List.getLast_mem hxs
                have hascii := hlast _ (List.getLast?_eq_some_getLast hxs)
                rw [hlong _ (List.mem_append_left _ hmem)] at hascii
                cases hascii
              · have hmem := List.head_mem hnone
                have hascii := hhead (more.head hnone) (by
                  rw [List.head?_append, List.head?_eq_some_head hnone]
                  rfl)
                rw [hlong _ (List.mem_append_right _ hmem)] at hascii
                cases hascii

theorem exists_cons_of_bytes_slash {cs : List Char} {ys : List UInt8}
    (h : bytes cs = slashByte :: ys) : ∃ after, cs = '/' :: after ∧ bytes after = ys := by
  have hcut : bytes cs = [slashByte] ++ ys := h
  have hascii : ∀ b ∈ [slashByte].getLast?, isAsciiByte b = true := by
    rintro b ⟨⟩
    rfl
  obtain ⟨before, after, rfl, hbefore, hafter⟩ := exists_append_of_bytes hcut (.inl hascii)
  cases before with
  | nil => cases hbefore
  | cons c before =>
      have hmem : slashByte ∈ utf8EncodeChar c := by
        cases hchar : utf8EncodeChar c with
        | nil => exact absurd hchar String.utf8EncodeChar_ne_nil
        | cons b more =>
            rw [bytes_cons, hchar] at hbefore
            rw [(List.cons.inj hbefore).1]
            exact List.mem_cons_self
      obtain rfl : c = '/' := (eq_slashByte_iff hmem).1 rfl
      have hnone : bytes before = [] := (List.cons.inj hbefore).2
      rw [bytes_eq_nil_iff] at hnone
      subst hnone
      exact ⟨after, rfl, hafter⟩

/-- The mark of a comment is the same in characters and in bytes. -/
theorem slashes_infix_bytes_iff {cs : List Char} :
    [slashByte, slashByte] <:+: bytes cs ↔ ['/', '/'] <:+: cs := by
  constructor
  · rintro ⟨xs, ys, hsplit⟩
    obtain ⟨before, after, rfl, -, hafter⟩ :=
      exists_append_of_bytes (hsplit.symm.trans (List.append_assoc xs _ ys)) (.inr (by
        intro b hb
        cases hb
        decide))
    obtain ⟨rest, rfl, hrest⟩ := exists_cons_of_bytes_slash hafter
    obtain ⟨last, rfl, -⟩ := exists_cons_of_bytes_slash hrest
    exact ⟨before, last, by simp⟩
  · rintro ⟨before, after, rfl⟩
    refine ⟨bytes before, bytes after, ?_⟩
    rw [bytes_append, bytes_append]
    rfl

end Text

end StackVm
