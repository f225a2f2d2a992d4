import Mathlib.Data.List.Basic
import Mathlib.Data.List.Forall2

/-! # Machines that answer each request

A step takes a request to a new state and an answer. When an abstraction of the
state answers every admissible request in the same way and stays an abstraction,
it gives the same answers to whole sequences. A machine may also be compared
with one that serves other requests, chosen to explain those of the first.
-/

namespace Responder

variable {σ τ α β : Type*} {step : σ → α → σ × β} {spec : τ → α → τ × β} {abs : σ → τ} {Valid : α → Prop}

def run (step : σ → α → σ × β) : σ → List α → σ × List β
  | s, [] => (s, [])
  | s, a :: as => ((run step (step s a).1 as).1, (step s a).2 :: (run step (step s a).1 as).2)

/-- The state after the step is seen as what the specification makes of the state before. -/
def Refines (step : σ → α → σ × β) (spec : τ → α → τ × β) (abs : σ → τ) (Valid : α → Prop) : Prop :=
  ∀ s a, Valid a → spec (abs s) a = (abs (step s a).1, (step s a).2)

theorem Refines.run (h : Refines step spec abs Valid) {as : List α} (hValid : ∀ a ∈ as, Valid a) (s : σ) :
    run spec (abs s) as = (abs (run step s as).1, (run step s as).2) := by
  induction as generalizing s with
  | nil => rfl
  | cons a as ih =>
    obtain ⟨hFirst, hRest⟩ := List.forall_mem_cons.mp hValid
    rw [Responder.run, h s a hFirst, ih hRest]
    rfl

section Simulation

variable {γ : Type*} {other : τ → γ → τ × β} {Rel : σ → τ → Prop} {Explains : α → γ → Prop}

/-- Each request is explained by one of the other machine, with the same answer. -/
def Simulates (step : σ → α → σ × β) (other : τ → γ → τ × β) (Rel : σ → τ → Prop)
    (Explains : α → γ → Prop) : Prop :=
  ∀ s t a, Rel s t → ∃ c, Explains a c ∧ Rel (step s a).1 (other t c).1 ∧ (step s a).2 = (other t c).2

theorem Simulates.run (h : Simulates step other Rel Explains) {s : σ} {t : τ} (hRel : Rel s t) (as : List α) :
    ∃ cs, List.Forall₂ Explains as cs ∧ Rel (run step s as).1 (run other t cs).1 ∧
      (run step s as).2 = (run other t cs).2 := by
  induction as generalizing s t with
  | nil => exact ⟨[], .nil, hRel, rfl⟩
  | cons a as ih =>
    obtain ⟨c, hFirst, hNext, hAnswer⟩ := h s t a hRel
    obtain ⟨cs, hRest, hEnd, hAnswers⟩ := ih hNext
    exact ⟨c :: cs, .cons hFirst hRest, hEnd, congrArg₂ _ hAnswer hAnswers⟩

theorem run_append (s : σ) (as as' : List α) :
    (Responder.run step s (as ++ as')).1 = (Responder.run step (Responder.run step s as).1 as').1 := by
  induction as generalizing s with
  | nil => rfl
  | cons a as ih => exact ih (step s a).1

end Simulation

end Responder
