import StackVm.Execution

/-! # The top of the stack

A finished run is shown from the top of its stack down, as far as the request goes
and the stack reaches.  Values are counted in a word: a request for 65536 of them or
more is answered with too few as soon as the stack has more than the remainder.
-/

namespace StackVm

namespace Execution

/-- What a request for a number of values asks for: those below the stack pointer, the top first. -/
structure ShowsTop (execution : Execution) (count : Nat) (values : List UInt16) : Prop where
  length : values.length = min count execution.sp.toNat
  cells : ∀ depth < values.length,
    values[depth]? = some (execution.peek (UInt16.ofNat (execution.sp.toNat - 1 - depth)))

/-- Down to address zero the address of a value does not wrap. -/
theorem sub_ofNat_eq {sp : UInt16} {depth : Nat} (h : depth < sp.toNat) :
    sp - 1 - UInt16.ofNat depth = UInt16.ofNat (sp.toNat - 1 - depth) := by
  have hword : ∀ n ≤ sp.toNat, (UInt16.ofNat n).toNat = n :=
    fun n hn => UInt16.toNat_ofNat_of_lt' (Nat.lt_of_le_of_lt hn sp.toNat_lt)
  have hdepth := hword depth (Nat.le_of_lt h)
  have hone : (1 : UInt16) ≤ sp := UInt16.le_iff_toNat_le.2 (by simp; omega)
  have hbelow : (sp - 1).toNat = sp.toNat - 1 := UInt16.toNat_sub_of_le _ _ hone
  have hle : UInt16.ofNat depth ≤ sp - 1 := by
    rw [UInt16.le_iff_toNat_le, hdepth, hbelow]
    omega
  apply UInt16.toNat_inj.1
  rw [UInt16.toNat_sub_of_le _ _ hle, hdepth, hbelow, hword _ (by omega)]

variable (execution : Execution) (count : Nat)

@[simp] theorem length_stackTop :
    (execution.stackTop count).length = min (count % 65536) execution.sp.toNat := by
  simp [stackTop]

theorem getElem?_stackTop {depth : Nat} (h : depth < (execution.stackTop count).length) :
    (execution.stackTop count)[depth]? =
      some (execution.peek (UInt16.ofNat (execution.sp.toNat - 1 - depth))) := by
  rw [length_stackTop, Nat.lt_min] at h
  have hcell := sub_ofNat_eq h.2
  simp [stackTop, Nat.lt_min.2 h, hcell]

theorem showsTop_iff_length {other : Nat} :
    execution.ShowsTop other (execution.stackTop count) ↔
      min (count % 65536) execution.sp.toNat = min other execution.sp.toNat := by
  constructor
  · intro h
    rw [← h.length, length_stackTop]
  · intro h
    exact ⟨by rw [length_stackTop, h], fun depth hdepth => execution.getElem?_stackTop count hdepth⟩

/--
A request for `count` values is answered with the topmost `count % 65536` of them.  These are all
that it asks for if and only if `count` is a word or the stack has no more of them.
-/
theorem stackTop_shows_iff :
    execution.ShowsTop (count % 65536) (execution.stackTop count) ∧
      (execution.ShowsTop count (execution.stackTop count) ↔
        count < 65536 ∨ execution.sp.toNat ≤ count % 65536) := by
  refine ⟨(execution.showsTop_iff_length count).2 rfl, ?_⟩
  rw [showsTop_iff_length]
  have hle := Nat.mod_le count 65536
  constructor
  · intro h
    omega
  · rintro (hword | hsp)
    · rw [Nat.mod_eq_of_lt hword]
    · rw [Nat.min_eq_right hsp, Nat.min_eq_right (Nat.le_trans hsp hle)]

-- A stack of three cells that starts at address zero, and holds the stack pointer itself.
example :
    let execution : Execution := ⟨{ rom := #[], ram := #[3, 10, 20] }, 0, true⟩
    execution.stackTop 65535 = [20, 10, 3] ∧ execution.stackTop 65536 = [] := by
  decide

end Execution

end StackVm
