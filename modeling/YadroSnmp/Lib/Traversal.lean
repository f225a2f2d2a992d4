import Mathlib.Data.List.Basic

/-! # Iteration until there is no next

The values an iterator visits from a start on. A visit of all values is finite
by construction, and there is at most one.
-/

namespace Traversal

variable {α : Type*} {next : α → Option α} {start : Option α} {as bs : List α}

inductive Visits (next : α → Option α) : Option α → List α → Prop
  | done : Visits next none []
  | visit {a : α} {as : List α} : Visits next (next a) as → Visits next (some a) (a :: as)

theorem Visits.unique (h : Visits next start as) (h' : Visits next start bs) : as = bs := by
  induction h generalizing bs with
  | done =>
    cases h'
    rfl
  | visit _ ih =>
    cases h' with
    | visit hRest => rw [ih hRest]

/-- An iterator whose values lead to the next position of a list visits the rest of the list. -/
theorem visits_drop {l : List α} (hNext : ∀ i a, l[i]? = some a → next a = l[i + 1]?) (i : Nat) :
    Visits next l[i]? (l.drop i) := by
  generalize hRest : l.drop i = rest
  induction rest generalizing i with
  | nil =>
    rw [List.getElem?_eq_none (List.drop_eq_nil_iff.mp hRest)]
    exact .done
  | cons a rest ih =>
    have hHead : l[i]? = some a := by
      rw [← List.head?_drop, hRest, List.head?_cons]
    have hTail : l.drop (i + 1) = rest := by
      rw [← List.tail_drop, hRest, List.tail_cons]
    rw [hHead]
    refine .visit ?_
    rw [hNext i a hHead]
    exact ih (i + 1) hTail

end Traversal
