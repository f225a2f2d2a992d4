import Mathlib.Order.BooleanAlgebra.Set
import YadroSnmp.Data.Handlers

/-! # Which rows a handler leaves

The exact effect of each function on the set of row names, exceptions
included: a row that was created stays when a later call on it raises.
-/

namespace YadroSnmp.Table

open KeyedList

variable {Row : Type} {I : ItemClass Row} {T : Config} {s t : State Row}

def State.names (I : ItemClass Row) (s : State Row) : Set Str := { n | (s.row I n).isSome }

theorem State.mem_names {n : Str} : n ∈ s.names I ↔ ∃ item ∈ s.items, I.name item = n := by
  rw [State.names, Set.mem_ofPred_eq, State.row, find_isSome_iff]

section Primitive

variable {it : Nat}

theorem emplaceAt_names {n : Str} (hs : Sorted I.name s.items) (hNew : s.row I n = none) :
    (emplaceAt I T s (position I.name s.items n) n).names I = insert n (s.names I) := by
  have hName : I.name (I.make T.path n) = n := I.name_make T.path n
  have hFind : find I.name s.items (I.name (I.make T.path n)) = none := by rwa [hName]
  have hRow := hs.find_insert hFind
  simp only [hName] at hRow
  ext m
  have hAfter : (emplaceAt I T s (position I.name s.items n) n).row I m =
      if m = n then some (I.make T.path n) else s.row I m := hRow m
  rw [State.names, Set.mem_ofPred_eq, hAfter, Set.mem_insert_iff]
  split
  · simp_all
  · simp_all [State.names]

theorem setFieldsAt_names (hs : Sorted I.name s.items) (fields : FieldsMap) :
    (setFieldsAt I s it fields).state.names I = s.names I := by
  cases hi : s.items[it]? with
  | none => rw [setFieldsAt, hi]
  | some item =>
    rw [setFieldsAt_eq hi]
    have hRow := hs.find_set hi (I.name_setFields item fields)
    ext m
    simp only [State.names, State.row, Set.mem_ofPred_eq, hRow]
    split
    · rename_i hm
      rw [hm, hs.find_key (List.mem_of_getElem? hi)]
      rfl
    · rfl

theorem dropAt_names {item : Row} (hs : Sorted I.name s.items) (hi : s.items[it]? = some item) :
    (dropAt I s it).names I = s.names I \ {I.name item} := by
  rw [dropAt_eq hi]
  have hRow := hs.find_erase hi
  ext m
  simp only [State.names, State.row, Set.mem_ofPred_eq, hRow, Set.mem_sdiff, Set.mem_singleton_iff]
  split
  · simp_all
  · simp_all

end Primitive

section Lookup

theorem getItem_names (hs : Sorted I.name s.items) {path : Str} (h : T.path.length < path.length)
    {it : Nat} (hGet : getItem I T s path = .ok (t, it)) :
    t.names I = insert (rowName T path) (s.names I) := by
  cases hRow : s.row I (rowName T path) with
  | some row =>
    rw [getItem_of_row hs h hRow] at hGet
    cases hGet
    have hMem : rowName T path ∈ s.names I := by simp [State.names, hRow]
    rw [Set.insert_eq_of_mem hMem]
  | none =>
    rw [getItem_of_none hs h hRow] at hGet
    cases hGet
    exact emplaceAt_names hs hRow

theorem dropItem_names (hs : Sorted I.name s.items) {path : Str} (h : T.path.length < path.length) :
    (dropItem I T s path).state.names I = s.names I \ {rowName T path} := by
  cases hRow : s.row I (rowName T path) with
  | some row =>
    rw [dropItem_of_row hs h hRow, dropAt_names hs (hs.position_of_find hRow), row_name hRow]
  | none =>
    rw [dropItem_of_none hs h hRow]
    have hMem : rowName T path ∉ s.names I := by simp [State.names, hRow]
    rw [Set.sdiff_singleton_eq_self hMem]

end Lookup

section Loops

theorem setFieldsLoop_names (hs : Sorted I.name s.items) {it : Nat} {item : Row}
    (hi : s.items[it]? = some item) (entries : List (Str × FieldsMap)) :
    (forEach (fun s e => setFieldsAt I s it e.2) entries s).state.names I = s.names I := by
  let Kept := fun t : State Row =>
    Sorted I.name t.items ∧ (∃ row, t.items[it]? = some row) ∧ t.names I = s.names I
  suffices hLoop : Kept (forEach (fun s e => setFieldsAt I s it e.2) entries s).state from hLoop.2.2
  apply forEach_preserves
  · rintro t e - ⟨hSorted, ⟨row, hRow⟩, hNames⟩
    refine ⟨(setFieldsAt_advance (T := ⟨[], []⟩) hSorted hRow e.2).sorted,
      ⟨(I.setFields row e.2).row, ?_⟩, (setFieldsAt_names hSorted e.2).trans hNames⟩
    rw [setFieldsAt_eq hRow]
    exact List.getElem?_set_self (List.getElem?_eq_some_iff.mp hRow).1
  · exact ⟨hs, ⟨item, hi⟩, rfl⟩

/-- The rounds left reach the end of the vector, so the rows from `it` on are filtered. -/
theorem pruneLoop_items (data : Objects) (rounds it : Nat) (hRounds : s.items.length ≤ it + rounds) :
    (pruneLoop I T data rounds it s).items =
      s.items.take it ++
        (s.items.drop it).filter fun item => data.contains (objectPath T (I.name item)) := by
  induction rounds generalizing it s with
  | zero =>
    have hEnd : s.items.length ≤ it := hRounds
    simp [pruneLoop, List.take_of_length_le hEnd, List.drop_of_length_le hEnd]
  | succ rounds ih =>
    rw [pruneLoop]
    cases hi : s.items[it]? with
    | none =>
      have hEnd : s.items.length ≤ it := List.getElem?_eq_none_iff.mp hi
      simp [List.take_of_length_le hEnd, List.drop_of_length_le hEnd]
    | some item =>
      obtain ⟨hLength, -⟩ := List.getElem?_eq_some_iff.mp hi
      have hDrop := drop_of_getElem? hi
      simp only
      split
      · rename_i hKeep
        rw [ih (it + 1) (by omega), hDrop, List.take_add_one, hi]
        simp [hKeep]
      · rename_i hGone
        have hErase : (dropAt I s it).items = s.items.eraseIdx it := by rw [dropAt_eq hi]
        obtain ⟨hTake, hRest⟩ := take_drop_eraseIdx hi
        have hShorter : (dropAt I s it).items.length ≤ it + rounds := by
          rw [dropAt_eq hi, List.length_eraseIdx_of_lt hLength]
          omega
        rw [ih it hShorter, hErase, hTake, hRest, hDrop]
        simp [hGone]

theorem pruneLoop_names (data : Objects) :
    (pruneLoop I T data s.items.length 0 s).names I =
      { n | n ∈ s.names I ∧ data.contains (objectPath T n) = true } := by
  have hItems := pruneLoop_items (I := I) (T := T) data s.items.length 0 (s := s) (by omega)
  ext n
  rw [Set.mem_ofPred_eq, State.mem_names, State.mem_names, hItems]
  constructor
  · rintro ⟨item, hMem, rfl⟩
    simp only [List.take_zero, List.nil_append, List.drop_zero, List.mem_filter] at hMem
    exact ⟨⟨item, hMem.1, rfl⟩, hMem.2⟩
  · rintro ⟨⟨item, hMem, rfl⟩, hKeep⟩
    exact ⟨item, by simp [hMem, hKeep], rfl⟩

end Loops

section Handlers

theorem update_names_subset (hs : Sorted I.name s.items) (subtree : Read Objects)
    (getAll : (service path : Str) → Read FieldsMap) :
    (update I T s subtree getAll).state.names I ⊆ s.names I ∪
      { n | ∃ path ∈ (callMethodAndRead subtree).keys, T.path.length < path.length ∧
        n = rowName T path } := by
  let Kept := fun t : State Row => Sorted I.name t.items ∧ t.names I ⊆ s.names I ∪
    { n | ∃ path ∈ (callMethodAndRead subtree).keys, T.path.length < path.length ∧
      n = rowName T path }
  have hPrune : Kept (pruneLoop I T (callMethodAndRead subtree) s.items.length 0 s) := by
    refine ⟨(pruneLoop_advance (T := T) hs _ _ 0).sorted, ?_⟩
    rw [pruneLoop_names]
    exact fun n hn => .inl hn.1
  suffices h : Kept (update I T s subtree getAll).state from h.2
  refine forEach_preserves (fun t e he ht => ?_) hPrune
  refine forEach_preserves (fun t b _ ht => ?_) ht
  rcases Nat.lt_or_ge T.path.length e.1.length with hLength | hShort
  · obtain ⟨u, it, hGet, hFound⟩ := getItem_found ht.1 hLength
    simp only [hGet]
    refine ⟨(setFieldsAt_advance (T := T) hFound.advance.sorted hFound.item _).sorted, ?_⟩
    rw [setFieldsAt_names hFound.advance.sorted, getItem_names ht.1 hLength hGet]
    exact Set.insert_subset (.inr ⟨e.1, List.mem_map_of_mem he, hLength, rfl⟩) ht.2
  · simp only [getItem_short (I := I) (s := t) hShort]
    exact ht

theorem onInterfacesAdded_names (hs : Sorted I.name s.items) {path : Str} (hPrefix : T.path <+: path)
    (hLength : T.path.length < path.length) (data : AddedData) :
    (onInterfacesAdded I T s (.ok (path, data))).state.names I =
      if isOwned T data.keys then insert (rowName T path) (s.names I) else s.names I := by
  rw [← Str.startsWith_iff] at hPrefix
  simp only [onInterfacesAdded, hPrefix, Bool.true_and]
  split
  · obtain ⟨t, it, hGet, hFound⟩ := getItem_found hs hLength
    simp only [hGet]
    rw [setFieldsLoop_names hFound.advance.sorted hFound.item, getItem_names hs hLength hGet]
  · rfl

theorem onInterfacesRemoved_names (hs : Sorted I.name s.items) {m : Read (Str × List Str)}
    (hPrefix : T.path <+: (callMethodAndRead m).1)
    (hLength : T.path.length < (callMethodAndRead m).1.length) :
    (onInterfacesRemoved I T s m).state.names I =
      if isOwned T (callMethodAndRead m).2 then s.names I \ {rowName T (callMethodAndRead m).1}
      else s.names I := by
  rw [← Str.startsWith_iff] at hPrefix
  simp only [onInterfacesRemoved, hPrefix, Bool.true_and]
  split
  · exact dropItem_names hs hLength
  · rfl

theorem onPropertiesChanged_names (path : Str) (m : Read FieldsMap) :
    (onPropertiesChanged I T s path m).state.names I = s.names I := by
  cases m with
  | error => rfl
  | ok fields =>
    ext n
    rw [State.mem_names, State.mem_names]
    simp only [onPropertiesChanged, List.mem_map, exists_exists_and_eq_and]
    refine exists_congr fun item => and_congr_right fun _ => ?_
    split
    · rw [I.name_setFields]
    · rfl

end Handlers

section Rows

theorem row_pruneLoop (hs : Sorted I.name s.items) (data : Objects) (n : Str) :
    (pruneLoop I T data s.items.length 0 s).row I n =
      if data.contains (objectPath T n) then s.row I n else none := by
  split
  · rename_i hKept
    refine ((pruneLoop_advance (T := T) hs data s.items.length 0).frame fun hGone => ?_).1
    exact Bool.eq_false_iff.mp hGone hKept
  · rename_i hGone
    refine Option.not_isSome_iff_eq_none.mp fun hSome => hGone ?_
    have hMem : n ∈ (pruneLoop I T data s.items.length 0 s).names I := hSome
    rw [pruneLoop_names] at hMem
    exact hMem.2

theorem row_getItem (hs : Sorted I.name s.items) {n : Str} {it : Nat}
    (hGet : getItem I T s (objectPath T n) = .ok (t, it)) (m : Str) :
    t.row I m = if m = n then some ((s.row I n).getD (I.make T.path n)) else s.row I m := by
  obtain ⟨t', it', hGet', hFound⟩ := getItem_found hs (path_length_lt_objectPath n)
  rw [rowName_objectPath] at hFound
  obtain ⟨rfl, rfl⟩ := Prod.mk.inj (Except.ok.inj (hGet'.symm.trans hGet))
  split
  · rename_i hm
    have hRow := row_of_getElem hFound.advance.sorted hFound.item
    rw [getD_name] at hRow
    rw [hm]
    exact hRow
  · rename_i hm
    exact (hFound.advance.frame hm).1

theorem row_setFieldsAt {it : Nat} {item : Row} (hs : Sorted I.name s.items)
    (hi : s.items[it]? = some item) (fields : FieldsMap) (m : Str) :
    (setFieldsAt I s it fields).state.row I m =
      if m = I.name item then some (I.setFields item fields).row else s.row I m := by
  rw [setFieldsAt_eq hi]
  exact hs.find_set hi (I.name_setFields item fields) m

theorem row_onPropertiesChanged (hs : Sorted I.name s.items) (n : Str) (fields : FieldsMap) (m : Str) :
    (onPropertiesChanged I T s (objectPath T n) (.ok fields)).state.row I m =
      if m = n then (s.row I n).map fun row => (I.setFields row fields).row else s.row I m := by
  cases hRow : s.row I n with
  | none =>
    rw [onPropertiesChanged_of_none fun n' hn' => by rw [objectPath_injective hn', hRow]]
    split
    · rename_i hm
      rw [hm, hRow]
      rfl
    · rfl
  | some row =>
    obtain ⟨t, hEq, -, -, hAfter, hFrame⟩ := onPropertiesChanged_of_row (T := T) hs hRow fields
    rw [hEq]
    split
    · rename_i hm
      rw [hm]
      exact hAfter
    · rename_i hm
      exact hFrame m hm

end Rows

end YadroSnmp.Table
