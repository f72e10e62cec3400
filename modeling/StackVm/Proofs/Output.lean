import StackVm.Output.Writer
import StackVm.Proofs.Text

/-! # What a sink receives

Buffering moves the moments at which text reaches a sink, never the text: as long
as no write is refused, the sink and the buffer together hold everything that was
written, in order.  A sink that refuses nothing makes no write fail.
-/

namespace StackVm

/-! ## Sinks -/

namespace Sink

variable {σ : Type} [Sink σ]

/-- A reading of sinks in which a text that is taken stands after all that was taken before. -/
def Keeps (contents : σ → String) : Prop :=
  ∀ (sink : σ) (text : String) (next : σ), Sink.write sink text = (next, none) →
    contents next = contents sink ++ text

/-- The sink after some texts were offered to it. -/
def after (sink : σ) (texts : List String) : σ :=
  texts.foldl (fun sink text => (Sink.write sink text).1) sink

/-- A sink that refuses no text, whatever was offered to it before. -/
def Tireless (sink : σ) : Prop :=
  ∀ (texts : List String) (text : String), (Sink.write (after sink texts) text).2 = none

theorem Tireless.write {sink : σ} (h : Tireless sink) (text : String) :
    ∃ next, Sink.write sink text = (next, none) ∧ Tireless next :=
  ⟨(Sink.write sink text).1, Prod.ext rfl (h [] text), fun texts => h (text :: texts)⟩

end Sink

namespace Store

theorem keeps_text : Sink.Keeps Store.text := by
  intro store text next hwrite
  simp only [Sink.write, Store.write] at hwrite
  split at hwrite
  · cases hwrite
    rfl
  · cases hwrite

theorem tireless {store : Store} (h : store.limit = none) : Sink.Tireless store := by
  intro texts
  have hafter : (Sink.after store texts).limit = none := by
    induction texts generalizing store with
    | nil => exact h
    | cons text rest ih => exact ih (by simp [Sink.write, Store.write, Store.admits, h])
  intro text
  simp [Sink.write, Store.write, Store.admits, hafter]

end Store

theorem Discard.tireless (sink : Discard) : Sink.Tireless sink :=
  fun _ _ => rfl

/-! ## Writers -/

namespace Writer

variable {σ : Type} [Sink σ] {writer next : Writer σ} {contents : σ → String}

/-- Everything that was written: what the sink has, and then what the buffer has. -/
def written (contents : σ → String) (writer : Writer σ) : String :=
  contents writer.sink ++ writer.buffer

section

variable (hkeeps : Sink.Keeps contents)
include hkeeps

theorem written_flush (h : writer.flush = (next, none)) :
    next.written contents = writer.written contents ∧ next.buffer = "" := by
  unfold flush at h
  split at h
  · next hempty =>
      cases h
      exact ⟨rfl, String.isEmpty_iff.1 hempty⟩
  · split at h
    · next sink hwrite =>
        cases h
        refine ⟨?_, rfl⟩
        rw [written, written, String.append_empty]
        exact hkeeps _ _ _ hwrite
    · cases h

/-- A text as long as the buffer is only taken once the buffer is empty. -/
theorem written_reserve {size : Nat} (h : writer.reserve size = (next, none)) :
    next.written contents = writer.written contents ∧ (capacity ≤ size → next.buffer = "") := by
  unfold reserve at h
  split at h
  · next hsize =>
      cases h
      refine ⟨rfl, fun hcapacity => ?_⟩
      rw [← String.utf8ByteSize_eq_zero_iff]
      unfold spare at hsize
      unfold capacity at hsize hcapacity
      omega
  · have hflush := written_flush hkeeps h
    exact ⟨hflush.1, fun _ => hflush.2⟩

theorem written_accept {text : String} (hbuffer : capacity ≤ text.utf8ByteSize → writer.buffer = "")
    (h : writer.accept text = (next, none)) :
    next.written contents = writer.written contents ++ text := by
  obtain ⟨sink, buffer⟩ := writer
  by_cases hsize : text.utf8ByteSize < capacity
  · simp only [accept, hsize, if_true] at h
    cases h
    rw [written, written, String.append_assoc]
  · have hempty : buffer = "" := hbuffer (Nat.le_of_not_lt hsize)
    simp only [accept, hsize, if_false] at h
    cases hwrite : Sink.write sink text with
    | mk taken fault =>
        rw [hwrite] at h
        cases h
        rw [written, written, hempty, String.append_empty, String.append_empty]
        exact hkeeps _ _ _ hwrite

theorem written_write {text : String} (h : writer.write text = (next, none)) :
    next.written contents = writer.written contents ++ text := by
  unfold write at h
  split at h
  · cases h
  · next reserved hreserve =>
      obtain ⟨hreserved, hbuffer⟩ := written_reserve hkeeps hreserve
      rw [written_accept hkeeps hbuffer h, hreserved]

theorem written_writeAll {texts : List String} (h : writer.writeAll texts = (next, none)) :
    next.written contents = writer.written contents ++ String.join texts := by
  induction texts generalizing writer with
  | nil =>
      cases h
      simp
  | cons text rest ih =>
      unfold writeAll at h
      split at h
      · cases h
      · next middle hwrite =>
          rw [ih h, written_write hkeeps hwrite, String.append_assoc, String.join_cons]

theorem written_writeLines {lines : List String} (h : writer.writeLines lines = (next, none)) :
    next.written contents = writer.written contents ++ Text.render lines :=
  written_writeAll hkeeps h

end

theorem flush_of_tireless (h : Sink.Tireless writer.sink) :
    ∃ next, writer.flush = (next, none) ∧ Sink.Tireless next.sink := by
  unfold flush
  split
  · exact ⟨writer, rfl, h⟩
  · obtain ⟨sink, hwrite, hsink⟩ := h.write writer.buffer
    exact ⟨⟨sink, ""⟩, by simp [hwrite], hsink⟩

theorem write_of_tireless (h : Sink.Tireless writer.sink) (text : String) :
    ∃ next, writer.write text = (next, none) ∧ Sink.Tireless next.sink := by
  have hreserve : ∃ next, writer.reserve text.utf8ByteSize = (next, none) ∧
      Sink.Tireless next.sink := by
    unfold reserve
    split
    · exact ⟨writer, rfl, h⟩
    · exact flush_of_tireless h
  obtain ⟨⟨sink, buffer⟩, hreserve, hsink⟩ := hreserve
  by_cases hsize : text.utf8ByteSize < capacity
  · exact ⟨⟨sink, buffer ++ text⟩, by simp [write, hreserve, accept, hsize], hsink⟩
  · obtain ⟨taken, hwrite, htaken⟩ := hsink.write text
    exact ⟨⟨taken, buffer⟩, by simp [write, hreserve, accept, hsize, hwrite], htaken⟩

theorem writeAll_of_tireless (h : Sink.Tireless writer.sink) (texts : List String) :
    ∃ next, writer.writeAll texts = (next, none) ∧ Sink.Tireless next.sink := by
  induction texts generalizing writer with
  | nil => exact ⟨writer, rfl, h⟩
  | cons text rest ih =>
      obtain ⟨middle, hwrite, hmiddle⟩ := write_of_tireless h text
      obtain ⟨next, hrest, hnext⟩ := ih hmiddle
      exact ⟨next, by simp [writeAll, hwrite, hrest], hnext⟩

theorem writeLines_of_tireless (h : Sink.Tireless writer.sink) (lines : List String) :
    ∃ next, writer.writeLines lines = (next, none) ∧ Sink.Tireless next.sink :=
  writeAll_of_tireless h _

end Writer

end StackVm
