import Mathlib.Data.List.TakeWhile
import Mathlib.Tactic.Common

/-! # Binary search for the end of an initial segment

`partitionPoint p l` halves an interval until it is empty. On a list that
consists of elements satisfying `p` followed by elements that do not, it is
the length of the first part; on any list it stays within the bounds.
-/

namespace PartitionPoint

variable {α : Type*} {p : α → Bool} {l : List α}

/-- The halving loop over `[first, first + len)`; `fuel` bounds its rounds. -/
def search (p : α → Bool) (l : List α) : (fuel first len : Nat) → Nat
  | 0, first, _ => first
  | fuel + 1, first, len =>
    if len = 0 then first
    else if (l[first + len / 2]?).any p then
      search p l fuel (first + len / 2 + 1) (len - len / 2 - 1)
    else search p l fuel first (len / 2)

def partitionPoint (p : α → Bool) (l : List α) : Nat := search p l l.length 0 l.length

def Partitioned (p : α → Bool) (l : List α) : Prop :=
  l.Pairwise fun a b => p b = true → p a = true

theorem search_le (fuel first len : Nat) : search p l fuel first len ≤ first + len := by
  induction fuel generalizing first len with
  | zero => exact Nat.le_add_right first len
  | succ fuel ih =>
    rw [search]
    split
    · exact Nat.le_add_right first len
    · split
      · exact (ih _ _).trans (by omega)
      · exact (ih _ _).trans (by omega)

theorem partitionPoint_le : partitionPoint p l ≤ l.length :=
  (search_le l.length 0 l.length).trans (by omega)

theorem getElem_of_lt_takeWhile {i : Nat} (h : i < (l.takeWhile p).length) :
    ∃ x, l[i]? = some x ∧ p x = true := by
  have hPrefix := List.takeWhile_prefix p (l := l)
  have hLength : i < l.length := h.trans_le hPrefix.length_le
  refine ⟨l[i], List.getElem?_eq_getElem hLength, ?_⟩
  rw [← hPrefix.getElem h]
  exact List.mem_takeWhile_imp (List.getElem_mem h)

theorem Partitioned.not_of_takeWhile_le (hl : Partitioned p l) {i : Nat}
    (h : (l.takeWhile p).length ≤ i) : (l[i]?).any p = false := by
  induction l generalizing i with
  | nil => rfl
  | cons a l ih =>
    obtain ⟨hHead, hTail⟩ := List.pairwise_cons.mp hl
    by_cases ha : p a = true
    · rw [List.takeWhile_cons_of_pos ha, List.length_cons] at h
      cases i with
      | zero => omega
      | succ i => exact ih hTail (by omega)
    · cases i with
      | zero => simpa using ha
      | succ i =>
        cases hi : l[i]? with
        | none => simp [hi]
        | some b =>
          have hb : b ∈ l := List.mem_of_getElem? hi
          simpa [hi] using fun h => ha (hHead b hb h)

/-- The loop keeps the boundary inside the interval and ends on it. -/
theorem Partitioned.search_eq (hl : Partitioned p l) (fuel first len : Nat)
    (hFuel : len ≤ fuel) (hFirst : first ≤ (l.takeWhile p).length)
    (hLast : (l.takeWhile p).length ≤ first + len) :
    search p l fuel first len = (l.takeWhile p).length := by
  induction fuel generalizing first len with
  | zero =>
    rw [search]
    omega
  | succ fuel ih =>
    rw [search]
    split
    · omega
    · rename_i hLen
      by_cases hMid : first + len / 2 < (l.takeWhile p).length
      · obtain ⟨x, hx, hpx⟩ := getElem_of_lt_takeWhile hMid
        rw [if_pos (by simp [hx, hpx])]
        exact ih _ _ (by omega) (by omega) (by omega)
      · rw [if_neg (by simp [hl.not_of_takeWhile_le (Nat.le_of_not_lt hMid)])]
        exact ih _ _ (by omega) hFirst (by omega)

theorem Partitioned.partitionPoint_eq (hl : Partitioned p l) :
    partitionPoint p l = (l.takeWhile p).length :=
  hl.search_eq l.length 0 l.length le_rfl (Nat.zero_le _)
    ((List.takeWhile_prefix p).length_le.trans (by omega))

end PartitionPoint
