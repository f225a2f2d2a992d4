import Mathlib.Data.List.Chain
import YadroSnmp.Lib.Run

/-! # Logs that record every change of a value once

A log tracks a value when replaying it from the initial value gives the value
and every entry differs from the one before it. A system that appends its
value exactly at the steps that change it keeps such a log.
-/

namespace ChangeLog

open Labelled

variable {V : Type*} {initial current next : V} {log : List V}

structure Tracks (initial : V) (log : List V) (current : V) : Prop where
  last : log.getLastD initial = current
  chain : (initial :: log).IsChain (· ≠ ·)

/-- What is appended when the value goes from `before` to `after`. -/
def entry [DecidableEq V] (before after : V) : List V := if before = after then [] else [after]

/-- A log kept by comparing values finer than those it carries. -/
theorem projected_eq_entry_iff {R : Type*} [DecidableEq R] [DecidableEq V] (project : R → V)
    {before after : R} :
    (if before = after then [] else [project after]) = entry (project before) (project after) ↔
      (before ≠ after → project before ≠ project after) := by
  unfold entry
  split
  · rename_i hSame
    simp [hSame]
  · rename_i hne
    simp [hne]

namespace Tracks

theorem nil (initial : V) : Tracks initial [] initial := ⟨rfl, .singleton initial⟩

theorem push (h : Tracks initial log current) (hne : current ≠ next) :
    Tracks initial (log ++ [next]) next where
  last := List.getLastD_concat
  chain := by
    rw [← List.cons_append]
    refine List.isChain_append.mpr ⟨h.chain, .singleton next, ?_⟩
    rintro last hLast _ ⟨⟩
    rw [List.getLast?_cons, ← List.getLastD_eq_getLast?, h.last] at hLast
    cases hLast
    exact hne

theorem append_entry [DecidableEq V] (h : Tracks initial log current) (next : V) :
    Tracks initial (log ++ entry current next) next := by
  unfold entry
  split
  · rename_i hSame
    subst hSame
    rwa [List.append_nil]
  · rename_i hne
    exact h.push hne

theorem eq_nil_or_getLast? (h : Tracks initial log current) :
    log = [] ∨ log.getLast? = some current := by
  cases hLog : log.getLast? with
  | none => exact .inl (List.getLast?_eq_none_iff.mp hLog)
  | some last =>
    have hLast := h.last
    rw [List.getLastD_eq_getLast?, hLog] at hLast
    exact .inr (congrArg some hLast)

theorem getLast?_eq (h : Tracks initial log current) (hne : current ≠ initial) :
    log.getLast? = some current := by
  refine h.eq_nil_or_getLast?.resolve_left fun hNil => hne ?_
  subst hNil
  exact h.last.symm

end Tracks

variable {σ α : Type*} {step : σ → α → σ → Prop} [DecidableEq V]

/-- Along a run whose steps send the changes of `view`, what was sent tracks `view`. -/
theorem tracks_of_run (view : σ → V) (sent : α → List V) {P : σ → Prop}
    (hKeep : ∀ s a t, P s → step s a t → P t)
    (hSent : ∀ s a t, P s → step s a t → sent a = entry (view s) (view t))
    {s t : σ} {as : List α} (hs : P s) (h : Run step s as t) :
    Tracks (view s) (as.flatMap sent) (view t) := by
  refine h.induction_right (P := fun as t => Tracks (view s) (as.flatMap sent) (view t)) (.nil _) ?_
  intro as t a u hRun hTracks hStep
  rw [List.flatMap_append, List.flatMap_singleton, hSent t a u (hRun.preserves hKeep hs) hStep]
  exact hTracks.append_entry (view u)

end ChangeLog
