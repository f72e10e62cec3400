import StackVm.Input
import StackVm.Proofs.Source.Bytes

/-! # Names in order

Characters are ordered as their bytes in UTF-8 are, and so are texts.  Names are sorted by
their characters, so they are sorted by their bytes, and the result does not depend on the order
in which they come.
-/

namespace StackVm

namespace Text

open String (utf8EncodeChar)

/-! ## Order of bytes -/

theorem cons_lt_cons_of_lt {m n : Nat} (hlt : m < n) (hn : n < 256) (xs ys : List UInt8) :
    UInt8.ofNat m :: xs < UInt8.ofNat n :: ys := by
  refine List.cons_lt_cons_iff.2 (.inl ?_)
  rw [UInt8.lt_iff_toNat_lt, UInt8.toNat_ofNat_of_lt' (Nat.lt_trans hlt hn),
    UInt8.toNat_ofNat_of_lt' hn]
  exact hlt

theorem cons_lt_cons_of_eq {m n : Nat} {xs ys : List UInt8} (heq : m = n) (hlt : xs < ys) :
    UInt8.ofNat m :: xs < UInt8.ofNat n :: ys := by
  subst heq
  exact List.cons_lt_cons_iff.2 (.inr ⟨rfl, hlt⟩)

/-- The bytes of the smaller of two characters come first, whatever comes after them. -/
theorem utf8EncodeChar_append_lt {c d : Char} (h : c < d) (xs ys : List UInt8) :
    utf8EncodeChar c ++ xs < utf8EncodeChar d ++ ys := by
  have hlt : c.val.toNat < d.val.toNat := UInt32.lt_iff_toNat_lt.1 h
  have hbound : d.val.toNat < 1114112 := by
    rcases d.valid with hd | hd
    · omega
    · exact hd.2
  generalize hm : c.val.toNat = m at hlt
  generalize hn : d.val.toNat = n at hlt hbound
  simp only [utf8EncodeChar, hm, hn]
  -- Encodings of different lengths differ in their first byte; else the first of the groups of
  -- six bits in which the numbers differ decides.
  split
  · split
    · exact cons_lt_cons_of_lt hlt (by omega) _ _
    · split
      · exact cons_lt_cons_of_lt (by omega) (by omega) _ _
      · split <;> exact cons_lt_cons_of_lt (by omega) (by omega) _ _
  · split
    · rw [if_neg (by omega)]
      split
      · by_cases hhigh : m / 64 % 32 + 192 = n / 64 % 32 + 192
        · exact cons_lt_cons_of_eq hhigh (cons_lt_cons_of_lt (by omega) (by omega) _ _)
        · exact cons_lt_cons_of_lt (by omega) (by omega) _ _
      · split <;> exact cons_lt_cons_of_lt (by omega) (by omega) _ _
    · split
      · rw [if_neg (by omega), if_neg (by omega)]
        split
        · by_cases hhigh : m / 4096 % 16 + 224 = n / 4096 % 16 + 224
          · refine cons_lt_cons_of_eq hhigh ?_
            by_cases hmiddle : m / 64 % 64 + 128 = n / 64 % 64 + 128
            · exact cons_lt_cons_of_eq hmiddle (cons_lt_cons_of_lt (by omega) (by omega) _ _)
            · exact cons_lt_cons_of_lt (by omega) (by omega) _ _
          · exact cons_lt_cons_of_lt (by omega) (by omega) _ _
        · exact cons_lt_cons_of_lt (by omega) (by omega) _ _
      · rw [if_neg (by omega), if_neg (by omega), if_neg (by omega)]
        by_cases hhigh : m / 262144 % 8 + 240 = n / 262144 % 8 + 240
        · refine cons_lt_cons_of_eq hhigh ?_
          by_cases hnext : m / 4096 % 64 + 128 = n / 4096 % 64 + 128
          · refine cons_lt_cons_of_eq hnext ?_
            by_cases hmiddle : m / 64 % 64 + 128 = n / 64 % 64 + 128
            · exact cons_lt_cons_of_eq hmiddle (cons_lt_cons_of_lt (by omega) (by omega) _ _)
            · exact cons_lt_cons_of_lt (by omega) (by omega) _ _
          · exact cons_lt_cons_of_lt (by omega) (by omega) _ _
        · exact cons_lt_cons_of_lt (by omega) (by omega) _ _

theorem bytes_lt_bytes {xs ys : List Char} (h : xs < ys) : bytes xs < bytes ys := by
  induction h with
  | @nil c ys =>
      cases hbytes : bytes (c :: ys) with
      | nil => exact absurd (bytes_eq_nil_iff.1 hbytes) (by simp)
      | cons b rest => exact .nil
  | cons _ ih =>
      rw [bytes_cons, bytes_cons]
      exact List.append_left_lt ih
  | rel hlt =>
      rw [bytes_cons, bytes_cons]
      exact utf8EncodeChar_append_lt hlt _ _

end Text

namespace Input

/-! ## Sorting -/

variable {names others : List String}

theorem perm_insertName (name : String) (names : List String) :
    (insertName name names).Perm (name :: names) := by
  induction names with
  | nil => exact .refl _
  | cons other rest ih =>
      rw [insertName]
      split
      · exact .refl _
      · exact (ih.cons other).trans (.swap name other rest)

theorem perm_sortNames (names : List String) : (sortNames names).Perm names := by
  induction names with
  | nil => exact .refl _
  | cons name rest ih => exact (perm_insertName name (sortNames rest)).trans (ih.cons name)

theorem pairwise_insertName {name : String} (h : names.Pairwise (· ≤ ·)) :
    (insertName name names).Pairwise (· ≤ ·) := by
  induction names with
  | nil => exact List.pairwise_singleton _ _
  | cons other rest ih =>
      rw [List.pairwise_cons] at h
      rw [insertName]
      split
      · next hle =>
          refine List.pairwise_cons.2 ⟨?_, List.pairwise_cons.2 h⟩
          intro later hlater
          cases hlater with
          | head => exact hle
          | tail _ hlater => exact String.le_trans hle (h.1 later hlater)
      · next hle =>
          refine List.pairwise_cons.2 ⟨?_, ih h.2⟩
          intro later hlater
          cases (perm_insertName name rest).mem_iff.1 hlater with
          | head => exact (String.le_total name other).resolve_left hle
          | tail _ hlater => exact h.1 later hlater

theorem pairwise_sortNames (names : List String) : (sortNames names).Pairwise (· ≤ ·) := by
  induction names with
  | nil => exact .nil
  | cons name rest ih => exact pairwise_insertName ih

theorem sortNames_eq_of_perm (h : names.Perm others) : sortNames names = sortNames others := by
  refine List.Perm.eq_of_pairwise ?_ (pairwise_sortNames names) (pairwise_sortNames others)
    (((perm_sortNames names).trans h).trans (perm_sortNames others).symm)
  intro x y _ _ hxy hyx
  exact String.le_antisymm hxy hyx

/-- Names that are all different come out in strictly increasing order of their bytes. -/
theorem pairwise_bytes_sortNames (h : names.Nodup) :
    (sortNames names).Pairwise fun x y => Text.bytes x.toList < Text.bytes y.toList := by
  have hnodup : (sortNames names).Nodup := (perm_sortNames names).nodup_iff.2 h
  refine ((pairwise_sortNames names).and hnodup).imp ?_
  rintro x y ⟨hle, hne⟩
  have hlt : x < y := String.not_le.1 fun hback => hne (String.le_antisymm hle hback)
  exact Text.bytes_lt_bytes (String.lt_iff.1 hlt)

end Input

end StackVm
