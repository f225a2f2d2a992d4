import Mathlib.Order.Lattice
import Mathlib.Data.List.Nodup
import YadroSnmp.Lib.PartitionPoint

/-! # Lists kept strictly sorted by a key

Lookup by key, the binary-search position of a key, and the three edits made
at that position: insertion, erasure and replacement. Each edit keeps strict
order and acts on the lookups exactly as the same edit on a partial function.
-/

namespace KeyedList

open PartitionPoint

variable {ρ κ : Type*} {key : ρ → κ} {l : List ρ} {k : κ} {r : ρ}

def Sorted {κ : Type*} [LinearOrder κ] (key : ρ → κ) (l : List ρ) : Prop :=
  l.Pairwise fun a b => key a < key b

def find {κ : Type*} [DecidableEq κ] (key : ρ → κ) (l : List ρ) (k : κ) : Option ρ :=
  l.find? fun r => decide (key r = k)

def position {κ : Type*} [LinearOrder κ] (key : ρ → κ) (l : List ρ) (k : κ) : Nat :=
  partitionPoint (fun r => decide (key r < k)) l

instance {κ : Type*} [LinearOrder κ] (key : ρ → κ) (l : List ρ) : Decidable (Sorted key l) :=
  inferInstanceAs (Decidable (l.Pairwise fun a b => key a < key b))

theorem insertIdx_append (lo hi : List ρ) (r : ρ) :
    (lo ++ hi).insertIdx lo.length r = lo ++ r :: hi := by
  induction lo with
  | nil => rfl
  | cons a lo ih => simp [ih]

section Find

variable [DecidableEq κ]

/-- A cursor on an element: the list from it on, and what erasing it leaves before and after. -/
theorem drop_of_getElem? {i : Nat} (hi : l[i]? = some r) : l.drop i = r :: l.drop (i + 1) := by
  obtain ⟨hLength, hGet⟩ := List.getElem?_eq_some_iff.mp hi
  rw [← hGet]
  exact List.drop_eq_getElem_cons hLength

theorem take_drop_eraseIdx {i : Nat} (hi : l[i]? = some r) :
    (l.eraseIdx i).take i = l.take i ∧ (l.eraseIdx i).drop i = l.drop (i + 1) := by
  obtain ⟨hLength, -⟩ := List.getElem?_eq_some_iff.mp hi
  have hTake : (l.take i).length = i := List.length_take_of_le (Nat.le_of_lt hLength)
  rw [List.eraseIdx_eq_take_drop_succ]
  exact ⟨List.take_left' hTake, List.drop_left' hTake⟩

theorem mem_of_find (h : find key l k = some r) : r ∈ l := List.mem_of_find?_eq_some h

theorem key_of_find (h : find key l k = some r) : key r = k := by
  simpa using List.find?_some h

theorem find_eq_none_iff : find key l k = none ↔ ∀ r ∈ l, key r ≠ k := by
  simp [find]

theorem find_isSome_iff : (find key l k).isSome ↔ ∃ r ∈ l, key r = k := by
  simp [find]

theorem find_append_ne {lo hi : List ρ} (hk : k ≠ key r) :
    find key (lo ++ r :: hi) k = find key (lo ++ hi) k := by
  simp [find, List.find?_append, hk.symm]

theorem find_map {f : ρ → ρ} (hf : ∀ r, key (f r) = key r) (k : κ) :
    find key (l.map f) k = (find key l k).map f := by
  rw [find, List.find?_map, find]
  have hComp : ((fun r => decide (key r = k)) ∘ f) = fun r => decide (key r = k) := by
    funext r
    simp [hf]
  rw [hComp]

end Find

section Order

variable [LinearOrder κ]

theorem Sorted.keys_nodup (hl : Sorted key l) : (l.map key).Nodup :=
  (List.pairwise_map.mpr hl).imp fun hlt => hlt.ne

theorem Sorted.eq_of_key_eq (hl : Sorted key l) {r' : ρ} (hr : r ∈ l) (hr' : r' ∈ l)
    (h : key r = key r') : r = r' :=
  List.inj_on_of_nodup_map hl.keys_nodup hr hr' h

theorem Sorted.partitioned (hl : Sorted key l) (k : κ) :
    Partitioned (fun r => decide (key r < k)) l :=
  hl.imp fun hab hb => decide_eq_true (hab.trans (of_decide_eq_true hb))

/-- The position splits a sorted list into the keys below and the keys not below. -/
theorem Sorted.split (hl : Sorted key l) (k : κ) :
    ∃ lo hi, l = lo ++ hi ∧ position key l k = lo.length ∧
      (∀ a ∈ lo, key a < k) ∧ ∀ b ∈ hi, k ≤ key b := by
  refine ⟨l.takeWhile fun r => decide (key r < k), l.dropWhile fun r => decide (key r < k),
    (List.takeWhile_append_dropWhile).symm, (hl.partitioned k).partitionPoint_eq, ?_, ?_⟩
  · intro a ha
    simpa using List.mem_takeWhile_imp ha
  · intro b hb
    obtain ⟨i, hi, rfl⟩ := List.mem_iff_getElem.mp hb
    have hNot := (hl.partitioned k).not_of_takeWhile_le
      (Nat.le_add_right (l.takeWhile fun r => decide (key r < k)).length i)
    have hGet : l[(l.takeWhile fun r => decide (key r < k)).length + i]? =
        some (l.dropWhile fun r => decide (key r < k))[i] := by
      conv_lhs => rw [← List.takeWhile_append_dropWhile (p := fun r => decide (key r < k)) (l := l)]
      rw [List.getElem?_append_right (by simp)]
      simp
    rw [hGet] at hNot
    simpa using hNot

theorem position_le : position key l k ≤ l.length := partitionPoint_le

/-- No element after the cursor has its key. -/
theorem Sorted.key_ne_of_mem_drop (hl : Sorted key l) {i : Nat} (hi : l[i]? = some r) :
    ∀ r' ∈ l.drop (i + 1), key r' ≠ key r := by
  have hRest : Sorted key (r :: l.drop (i + 1)) := drop_of_getElem? hi ▸ hl.sublist (List.drop_sublist i l)
  intro r' hr'
  exact (List.rel_of_pairwise_cons hRest hr').ne'

theorem Sorted.erase (hl : Sorted key l) (i : Nat) : Sorted key (l.eraseIdx i) :=
  hl.sublist (List.eraseIdx_sublist l i)

theorem Sorted.set (hl : Sorted key l) {i : Nat} {r' : ρ} (hi : l[i]? = some r)
    (hKey : key r' = key r) : Sorted key (l.set i r') := by
  have hKeys : (l.set i r').map key = l.map key := by
    rw [List.map_set, hKey]
    apply List.ext_getElem?
    intro j
    by_cases hij : i = j
    · obtain ⟨hLength, hGet⟩ := List.getElem?_eq_some_iff.mp hi
      subst hij
      simp [hLength, hGet]
    · simp [hij]
  have hMap : (l.map key).Pairwise (· < ·) := List.pairwise_map.mpr hl
  exact List.pairwise_map.mp (hKeys ▸ hMap)

theorem Sorted.map (hl : Sorted key l) {f : ρ → ρ} (hf : ∀ r, key (f r) = key r) :
    Sorted key (l.map f) :=
  List.pairwise_map.mpr (hl.imp fun hab => by rwa [hf, hf])

end Order

section Lookup

variable [LinearOrder κ] [DecidableEq κ]

theorem Sorted.find_eq_some_iff (hl : Sorted key l) :
    find key l k = some r ↔ r ∈ l ∧ key r = k := by
  constructor
  · intro h
    exact ⟨mem_of_find h, key_of_find h⟩
  · rintro ⟨hr, hk⟩
    cases hFind : find key l k with
    | none => exact absurd hk (find_eq_none_iff.mp hFind r hr)
    | some r' =>
      rw [hl.eq_of_key_eq hr (mem_of_find hFind) (hk.trans (key_of_find hFind).symm)]

theorem Sorted.find_key (hl : Sorted key l) (hr : r ∈ l) : find key l (key r) = some r :=
  hl.find_eq_some_iff.mpr ⟨hr, rfl⟩

theorem Sorted.ext {l' : List ρ} (hl : Sorted key l) (hl' : Sorted key l')
    (h : ∀ k, find key l k = find key l' k) : l = l' := by
  have hMem : ∀ r, r ∈ l ↔ r ∈ l' := by
    intro r
    have hr := h (key r)
    constructor
    · intro hr'
      rw [hl.find_key hr'] at hr
      exact mem_of_find hr.symm
    · intro hr'
      rw [hl'.find_key hr'] at hr
      exact mem_of_find hr
  have hPerm : l.Perm l' :=
    (List.perm_ext_iff_of_nodup (List.Nodup.of_map key hl.keys_nodup)
      (List.Nodup.of_map key hl'.keys_nodup)).mpr hMem
  exact hPerm.eq_of_pairwise (fun a b _ _ hab hba => absurd hab hba.asymm) hl hl'

theorem Sorted.getElem_position (hl : Sorted key l) (hr : l[position key l k]? = some r)
    (hk : key r = k) : find key l k = some r :=
  hl.find_eq_some_iff.mpr ⟨List.mem_of_getElem? hr, hk⟩

theorem Sorted.position_of_find (hl : Sorted key l) (h : find key l k = some r) :
    l[position key l k]? = some r := by
  obtain ⟨lo, hi, rfl, hPos, hLo, hHi⟩ := hl.split k
  have hKey := key_of_find h
  rw [hPos, List.getElem?_append_right le_rfl, Nat.sub_self]
  rcases List.mem_append.mp (mem_of_find h) with hMem | hMem
  · exact absurd hKey (hLo r hMem).ne
  · cases hi with
    | nil => cases hMem
    | cons b hi =>
      rcases List.mem_cons.mp hMem with rfl | hMem
      · rfl
      · have hlt : key b < key r :=
          List.rel_of_pairwise_cons (List.pairwise_append.mp hl).2.1 hMem
        exact absurd (hHi b List.mem_cons_self) (not_le.mpr (hKey ▸ hlt))

theorem Sorted.insert (hl : Sorted key l) (hNew : find key l (key r) = none) :
    Sorted key (l.insertIdx (position key l (key r)) r) := by
  obtain ⟨lo, hi, rfl, hPos, hLo, hHi⟩ := hl.split (key r)
  obtain ⟨hlLo, hlHi, hCross⟩ := List.pairwise_append.mp hl
  have hGt : ∀ b ∈ hi, key r < key b := fun b hb =>
    lt_of_le_of_ne (hHi b hb) fun heq =>
      find_eq_none_iff.mp hNew b (List.mem_append_right lo hb) heq.symm
  rw [hPos, insertIdx_append]
  refine List.pairwise_append.mpr ⟨hlLo, List.pairwise_cons.mpr ⟨hGt, hlHi⟩, ?_⟩
  intro a ha b hb
  rcases List.mem_cons.mp hb with rfl | hb
  · exact hLo a ha
  · exact hCross a ha b hb

theorem Sorted.find_insert (hl : Sorted key l) (hNew : find key l (key r) = none) (k : κ) :
    find key (l.insertIdx (position key l (key r)) r) k =
      if k = key r then some r else find key l k := by
  have hSorted := hl.insert hNew
  split
  · rename_i hk
    rw [hk]
    exact hSorted.find_key ((List.mem_insertIdx position_le).mpr (.inl rfl))
  · rename_i hk
    obtain ⟨lo, hi, rfl, hPos, -, -⟩ := hl.split (key r)
    rw [hPos, insertIdx_append]
    exact find_append_ne hk

theorem Sorted.find_erase (hl : Sorted key l) {i : Nat} (hi : l[i]? = some r) (k : κ) :
    find key (l.eraseIdx i) k = if k = key r then none else find key l k := by
  obtain ⟨hLength, rfl⟩ := List.getElem?_eq_some_iff.mp hi
  have hSplit : l = l.take i ++ l[i] :: l.drop (i + 1) := by
    rw [List.getElem_cons_drop, List.take_append_drop]
  rw [List.eraseIdx_eq_take_drop_succ]
  split
  · rename_i hk
    refine find_eq_none_iff.mpr fun r' hr' hKey => ?_
    have hl' := hl
    rw [hSplit] at hl'
    obtain ⟨-, hRight, hCross⟩ := List.pairwise_append.mp hl'
    rcases List.mem_append.mp hr' with hr' | hr'
    · exact (hCross r' hr' l[i] List.mem_cons_self).ne (hKey.trans hk)
    · exact (List.rel_of_pairwise_cons hRight hr').ne' (hKey.trans hk)
  · rename_i hk
    conv_rhs => rw [hSplit]
    exact (find_append_ne hk).symm

theorem Sorted.find_set (hl : Sorted key l) {i : Nat} {r' : ρ} (hi : l[i]? = some r)
    (hKey : key r' = key r) (k : κ) :
    find key (l.set i r') k = if k = key r then some r' else find key l k := by
  have hSorted := hl.set hi hKey
  obtain ⟨hLength, rfl⟩ := List.getElem?_eq_some_iff.mp hi
  split
  · rename_i hk
    rw [hk, ← hKey]
    exact hSorted.find_key (List.mem_set hLength r')
  · rename_i hk
    have hSplit : l = l.take i ++ l[i] :: l.drop (i + 1) := by
      rw [List.getElem_cons_drop, List.take_append_drop]
    have hSplit' : l.set i r' = l.take i ++ r' :: l.drop (i + 1) :=
      List.set_eq_take_append_cons_drop.trans (if_pos hLength)
    rw [hSplit', find_append_ne (hKey ▸ hk)]
    conv_rhs => rw [hSplit]
    exact (find_append_ne hk).symm

theorem Sorted.filter_key (hl : Sorted key l) (k : κ) :
    l.filter (fun r => decide (key r = k)) = (find key l k).toList := by
  induction l with
  | nil => rfl
  | cons a l ih =>
    obtain ⟨hHead, hTail⟩ := List.pairwise_cons.mp hl
    by_cases ha : key a = k
    · have hNone : l.filter (fun r => decide (key r = k)) = [] :=
        List.filter_eq_nil_iff.mpr fun b hb hk => (hHead b hb).ne (ha.trans (of_decide_eq_true hk).symm)
      simp [find, ha, hNone]
    · simpa [find, ha] using ih hTail

end Lookup

end KeyedList
