import Mathlib.Data.List.DropRight
import Mathlib.Data.List.ReduceOption

/-! # A reader behind a queue

The owner of a value announces what changes, each new value in its turn, and
answers when it is asked. An answer overtakes the queue, and older values still
arrive after it: the reader can step back, but not behind the value that was
current before everything queued.
-/

namespace Trail

variable {α : Type*}

/-- The values there were, the announcements on their way, and the value read last. -/
structure World (α : Type*) where
  past : List α
  queue : List (Option α)
  last : Option α

inductive Step : World α → World α → Prop
  /-- The value changes, or something else that is announced. -/
  | announce {past : List α} {queue : List (Option α)} {last : Option α} (value : Option α) :
      Step ⟨past, queue, last⟩ ⟨past ++ value.toList, queue ++ [value], last⟩
  | answer {past : List α} {queue : List (Option α)} {last : Option α} {value : α} :
      past.getLast? = some value → Step ⟨past, queue, last⟩ ⟨past, queue, some value⟩
  | receive {past : List α} {queue : List (Option α)} {last value : Option α} :
      Step ⟨past, value :: queue, last⟩ ⟨past, queue, value.or last⟩

def World.pending (w : World α) : List α := w.queue.reduceOption

/-- What is read is one of the values that became current since the queue's first. -/
structure World.Close (w : World α) : Prop where
  pending : w.pending <:+ w.past
  recent : ∀ value ∈ w.last, value ∈ w.past.rtake (w.pending.length + 1)

theorem mem_rtake_concat {past : List α} {value : α} {n : Nat} (h : value ∈ past.rtake n) (new : α) :
    value ∈ (past ++ [new]).rtake (n + 1) := by
  rw [List.rtake_concat_succ]
  exact List.mem_append_left _ h

theorem getLast_mem_rtake {past : List α} {value : α} (h : past.getLast? = some value) (n : Nat) :
    value ∈ past.rtake (n + 1) := by
  obtain ⟨before, rfl⟩ := List.getLast?_eq_some_iff.mp h
  rw [List.rtake_concat_succ]
  exact List.mem_append_right _ (List.mem_singleton_self value)

theorem Step.close {w w' : World α} (h : w.Close) (hStep : Step w w') : w'.Close := by
  cases hStep with
  | @announce past queue last value =>
    have hPending : (queue ++ [value]).reduceOption = queue.reduceOption ++ value.toList := by
      cases value with
      | none => simp [List.reduceOption_append]
      | some new => simp [List.reduceOption_append]
    cases value with
    | none =>
      rw [Option.toList_none, List.append_nil] at hPending ⊢
      have hSame : (World.mk past (queue ++ [none]) last).pending = (World.mk past queue last).pending := hPending
      exact ⟨hSame ▸ h.pending, hSame ▸ h.recent⟩
    | some new =>
      refine ⟨?_, fun value hValue => ?_⟩
      · rw [World.pending, hPending]
        exact List.suffix_append_self_iff.mpr h.pending
      · rw [World.pending, hPending, List.length_append, Option.toList_some, List.length_singleton]
        exact mem_rtake_concat (h.recent value hValue) new
  | answer hLast =>
    refine ⟨h.pending, ?_⟩
    rintro value ⟨⟩
    exact getLast_mem_rtake hLast _
  | @receive past queue last value =>
    cases value with
    | none =>
      rw [Option.none_or]
      exact ⟨h.pending, h.recent⟩
    | some new =>
      have hPending : new :: queue.reduceOption <:+ past := h.pending
      rw [Option.some_or]
      refine ⟨(List.suffix_cons _ _).trans hPending, ?_⟩
      rintro value ⟨⟩
      have hRecent := List.suffix_iff_eq_drop.mp hPending
      rw [List.rtake]
      change new ∈ past.drop (past.length - (new :: queue.reduceOption).length)
      rw [← hRecent]
      exact List.mem_cons_self

end Trail
