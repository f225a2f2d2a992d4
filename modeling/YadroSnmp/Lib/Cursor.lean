import Mathlib.Data.Set.Card
import Mathlib.Order.Bounds.Basic

/-! # Scanning a set that changes meanwhile

A scan keeps nothing but the last element it was given and asks for the next
one in the order, each time of the set there is at that moment. It ends when
there is none. The elements it saw increase, and it missed none that was there
all the time.
-/

namespace Cursor

variable {α : Type*} [LinearOrder α] {c x y : α} {S T : Set α} {rounds : List (Set α × α)}

/-- The next element of a set after the cursor. -/
def Next (S : Set α) (c x : α) : Prop := IsLeast { y | y ∈ S ∧ c < y } x

/-- The answers of a scan from `c` on, each with the set it was taken from; the
set in which there was no next element stands apart. -/
inductive Scan : α → List (Set α × α) → Set α → Prop
  | done {c : α} {S : Set α} : (∀ x ∈ S, ¬ c < x) → Scan c [] S
  | next {c x : α} {S T : Set α} {rounds : List (Set α × α)} : Next S c x → Scan x rounds T →
      Scan c ((S, x) :: rounds) T

def ahead (S : Set α) (c : α) : Set α := { y | y ∈ S ∧ c < y }

/-- Each round has less ahead of it, so a scan of a finite set that stays as it is ends. -/
theorem Next.ncard_ahead_lt (h : Next S c x) (hFinite : S.Finite) :
    (ahead S x).ncard < (ahead S c).ncard := by
  have hSubset : ahead S x ⊆ ahead S c := fun y hy => ⟨hy.1, h.1.2.trans hy.2⟩
  have hStrict : ahead S x ⊂ ahead S c :=
    hSubset.ssubset_of_mem_notMem h.1 fun hx => lt_irrefl x hx.2
  exact Set.ncard_lt_ncard hStrict (hFinite.subset fun y hy => hy.1)

namespace Scan

theorem increasing (h : Scan c rounds T) : (c :: rounds.map Prod.snd).Pairwise (· < ·) := by
  induction h with
  | done => exact List.pairwise_singleton _ _
  | @next c x S T rounds hNext _ ih =>
    rw [List.map_cons]
    refine List.pairwise_cons.mpr ⟨?_, ih⟩
    intro y hy
    rcases List.mem_cons.mp hy with rfl | hy
    · exact hNext.1.2
    · exact hNext.1.2.trans ((List.pairwise_cons.mp ih).1 y hy)

theorem complete (h : Scan c rounds T) (hAhead : c < y) (hStays : ∀ round ∈ rounds, y ∈ round.1)
    (hLast : y ∈ T) : y ∈ rounds.map Prod.snd := by
  induction h with
  | done hNone => exact absurd hAhead (hNone y hLast)
  | @next c x S T rounds hNext _ ih =>
    obtain ⟨hHere, hLater⟩ := List.forall_mem_cons.mp hStays
    rw [List.map_cons]
    rcases (hNext.2 ⟨hHere, hAhead⟩).eq_or_lt with rfl | hBefore
    · exact List.mem_cons_self
    · exact List.mem_cons_of_mem _ (ih hBefore hLater hLast)

end Scan

end Cursor
