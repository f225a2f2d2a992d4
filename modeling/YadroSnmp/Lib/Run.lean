import Mathlib.Data.List.Induction

/-! # Finite runs of a labelled transition relation

A run records the labels of its steps in order. Invariants are carried along
a run from the left; facts about the labels seen so far grow at the right end,
so both inductions are supplied.
-/

namespace Labelled

variable {σ α : Type*} {step : σ → α → σ → Prop}

inductive Run (step : σ → α → σ → Prop) : σ → List α → σ → Prop
  | nil (s : σ) : Run step s [] s
  | cons {s t u : σ} {a : α} {as : List α} : step s a t → Run step t as u → Run step s (a :: as) u

namespace Run

theorem single {s t : σ} {a : α} (h : step s a t) : Run step s [a] t :=
  .cons h (.nil t)

theorem append {s t u : σ} {as bs : List α} (h : Run step s as t) (h' : Run step t bs u) :
    Run step s (as ++ bs) u := by
  induction h with
  | nil => exact h'
  | cons hStep _ ih => exact .cons hStep (ih h')

@[simp] theorem nil_iff {s t : σ} : Run step s [] t ↔ t = s := by
  constructor
  · rintro ⟨⟩
    rfl
  · rintro rfl
    exact .nil t

theorem cons_iff {s u : σ} {a : α} {as : List α} :
    Run step s (a :: as) u ↔ ∃ t, step s a t ∧ Run step t as u := by
  constructor
  · rintro ⟨⟩
    exact ⟨_, ‹_›, ‹_›⟩
  · rintro ⟨t, hStep, hRun⟩
    exact .cons hStep hRun

theorem append_iff {s u : σ} {as bs : List α} :
    Run step s (as ++ bs) u ↔ ∃ t, Run step s as t ∧ Run step t bs u := by
  constructor
  · intro h
    induction as generalizing s with
    | nil => exact ⟨s, .nil s, h⟩
    | cons a as ih =>
      obtain ⟨t, hStep, hRest⟩ := cons_iff.mp h
      obtain ⟨v, hLeft, hRight⟩ := ih hRest
      exact ⟨v, .cons hStep hLeft, hRight⟩
  · rintro ⟨t, hLeft, hRight⟩
    exact hLeft.append hRight

/-- An invariant kept by every step holds at the end of every run. -/
theorem preserves {P : σ → Prop} (hStep : ∀ s a t, P s → step s a t → P t) {s t : σ}
    {as : List α} (h : Run step s as t) (hs : P s) : P t := by
  induction h with
  | nil => exact hs
  | cons hFirst _ ih => exact ih (hStep _ _ _ hs hFirst)

/-- What an invariant says of the label of one step holds of all labels of a run. -/
theorem forall_labels {P : σ → Prop} {Q : α → Prop} {s t : σ} {as : List α} (h : Run step s as t)
    (hs : P s) (hKeep : ∀ s a t, P s → step s a t → P t) (hLabel : ∀ s a t, P s → step s a t → Q a) :
    ∀ a ∈ as, Q a := by
  induction h with
  | nil =>
    rintro a ⟨⟩
  | cons hFirst _ ih =>
    exact List.forall_mem_cons.mpr ⟨hLabel _ _ _ hs hFirst, ih (hKeep _ _ _ hs hFirst)⟩

/-- Induction at the right end: a fact about the labels seen so far and the
state reached is extended by one step at a time. -/
theorem induction_right {s : σ} {P : List α → σ → Prop} (hNil : P [] s)
    (hSnoc : ∀ as t a u, Run step s as t → P as t → step t a u → P (as ++ [a]) u)
    {as : List α} {t : σ} (h : Run step s as t) : P as t := by
  induction as using List.reverseRecOn generalizing t with
  | nil =>
    obtain rfl := nil_iff.mp h
    exact hNil
  | append_singleton as a ih =>
    obtain ⟨u, hLeft, hLast⟩ := append_iff.mp h
    obtain ⟨v, hStep, hEnd⟩ := cons_iff.mp hLast
    obtain rfl := nil_iff.mp hEnd
    exact hSnoc as u a t hLeft (ih hLeft) hStep

end Run

end Labelled
