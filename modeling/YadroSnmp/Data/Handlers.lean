import Mathlib.Data.Set.Insert
import YadroSnmp.Data.Refinement

/-! # What the handlers do to the slots

Each function of the table is shown to advance the slots of the names it may
touch, and no others. Runs of messages then refine runs of the slots.
-/

namespace YadroSnmp.Table

open Snmp KeyedList Labelled

variable {Row : Type} (I : ItemClass Row) (T : Config)

/-- The row name the handlers cut out of an object path. -/
def rowName (path : Str) : Str := path.drop (T.path.length + 1)

/-- The outcome of a successful `getItem`: a reference to the row of `n`, which
is the old one or a new one. -/
structure Found (n : Str) (s t : State Row) (it : Nat) : Prop where
  advance : Advance I T {n} s t
  item : t.items[it]? = some ((s.row I n).getD (I.make T.path n))
  same : (s.row I n).isSome → t = s

def touched : Message → Set Str
  | .update subtree _ =>
    { n | (callMethodAndRead subtree).contains (objectPath T n) = false } ∪
      { n | ∃ path ∈ (callMethodAndRead subtree).keys, n = rowName T path }
  | .interfacesAdded (.error _) => ∅
  | .interfacesAdded (.ok (path, data)) =>
    { n | T.path <+: path ∧ isOwned T data.keys = true ∧ T.path.length < path.length ∧ n = rowName T path }
  | .interfacesRemoved m =>
    { n | T.path <+: (callMethodAndRead m).1 ∧ isOwned T (callMethodAndRead m).2 = true ∧
      T.path.length < (callMethodAndRead m).1.length ∧ n = rowName T (callMethodAndRead m).1 }
  | .propertiesChanged path _ => { n | objectPath T n = path }

variable {I T} {names : Set Str} {s t : State Row}

theorem row_name {n : Str} {row : Row} (h : s.row I n = some row) : I.name row = n := key_of_find h

theorem getD_name (s : State Row) (n : Str) : I.name ((s.row I n).getD (I.make T.path n)) = n := by
  cases h : s.row I n with
  | none => exact I.name_make T.path n
  | some row => exact row_name h

theorem objectPath_injective : Function.Injective (objectPath T) := fun _ _ h =>
  List.append_cancel_left h

theorem length_path_slash : (T.path ++ slash).length = T.path.length + 1 := List.length_append

@[simp] theorem rowName_objectPath (n : Str) : rowName T (objectPath T n) = n := by
  rw [rowName, objectPath, ← length_path_slash, List.drop_left]

theorem objectPath_length (n : Str) : (objectPath T n).length = T.path.length + 1 + n.length := by
  rw [objectPath, List.length_append, length_path_slash]

theorem path_length_lt_objectPath (n : Str) : T.path.length < (objectPath T n).length := by
  rw [objectPath_length]
  omega

theorem path_prefix_objectPath (n : Str) : T.path <+: objectPath T n := by
  rw [objectPath, List.append_assoc]
  exact List.prefix_append _ _

section Lookup

theorem getItem_short {path : Str} (h : path.length ≤ T.path.length) :
    getItem I T s path = .error .outOfRange := by
  rw [getItem, Str.substr, if_neg (by omega)]

theorem any_position (hs : Sorted I.name s.items) (n : Str) :
    ((s.items[position I.name s.items n]?).any fun item => I.name item = n) = (s.row I n).isSome := by
  cases hRow : s.row I n with
  | none =>
    refine Bool.eq_false_iff.mpr fun hAny => ?_
    obtain ⟨item, hItem, hName⟩ := Option.any_eq_true _ _ |>.mp hAny
    have hFind : s.row I n = some item := hs.getElem_position hItem (of_decide_eq_true hName)
    rw [hRow] at hFind
    cases hFind
  | some row => simp [hs.position_of_find hRow, row_name hRow]

theorem getItem_of_row (hs : Sorted I.name s.items) {path : Str} (h : T.path.length < path.length)
    {row : Row} (hRow : s.row I (rowName T path) = some row) :
    getItem I T s path = .ok (s, position I.name s.items (rowName T path)) := by
  have hSubstr : Str.substr path (T.path.length + 1) = some (rowName T path) := if_pos h
  simp only [getItem, hSubstr, any_position hs, hRow, Option.isSome_some, if_true]

theorem getItem_of_none (hs : Sorted I.name s.items) {path : Str} (h : T.path.length < path.length)
    (hRow : s.row I (rowName T path) = none) :
    getItem I T s path =
      .ok (emplaceAt I T s (position I.name s.items (rowName T path)) (rowName T path),
        position I.name s.items (rowName T path)) := by
  have hSubstr : Str.substr path (T.path.length + 1) = some (rowName T path) := if_pos h
  simp [getItem, hSubstr, any_position hs, hRow]

theorem getItem_found (hs : Sorted I.name s.items) {path : Str} (h : T.path.length < path.length) :
    ∃ t it, getItem I T s path = .ok (t, it) ∧ Found I T (rowName T path) s t it := by
  cases hRow : s.row I (rowName T path) with
  | some row =>
    exact ⟨s, _, getItem_of_row hs h hRow, .refl hs, by rw [hRow]; exact hs.position_of_find hRow,
      fun _ => rfl⟩
  | none =>
    refine ⟨_, _, getItem_of_none hs h hRow, emplaceAt_advance hs hRow, ?_, by simp [hRow]⟩
    simp [emplaceAt, hRow, List.getElem?_insertIdx_self, position_le]

theorem dropItem_of_row (hs : Sorted I.name s.items) {path : Str} (h : T.path.length < path.length)
    {row : Row} (hRow : s.row I (rowName T path) = some row) :
    dropItem I T s path = ⟨dropAt I s (position I.name s.items (rowName T path)), none⟩ := by
  have hSubstr : Str.substr path (T.path.length + 1) = some (rowName T path) := if_pos h
  simp only [dropItem, hSubstr, any_position hs, hRow, Option.isSome_some, if_true]

theorem dropItem_of_none (hs : Sorted I.name s.items) {path : Str} (h : T.path.length < path.length)
    (hRow : s.row I (rowName T path) = none) : dropItem I T s path = ⟨s, none⟩ := by
  have hSubstr : Str.substr path (T.path.length + 1) = some (rowName T path) := if_pos h
  simp [dropItem, hSubstr, any_position hs, hRow]

theorem dropItem_short {path : Str} (h : path.length ≤ T.path.length) :
    dropItem I T s path = ⟨s, some .outOfRange⟩ := by
  rw [dropItem, Str.substr, if_neg (by omega)]

theorem dropItem_cases (hs : Sorted I.name s.items) (path : Str) :
    (T.path.length < path.length ∧ ∃ row, s.row I (rowName T path) = some row ∧
        dropItem I T s path = ⟨dropAt I s (position I.name s.items (rowName T path)), none⟩) ∨
      (T.path.length < path.length ∧ s.row I (rowName T path) = none ∧ dropItem I T s path = ⟨s, none⟩) ∨
      (path.length ≤ T.path.length ∧ dropItem I T s path = ⟨s, some .outOfRange⟩) := by
  rcases Nat.lt_or_ge T.path.length path.length with hLength | hShort
  · cases hRow : s.row I (rowName T path) with
    | some row => exact .inl ⟨hLength, row, rfl, dropItem_of_row hs hLength hRow⟩
    | none => exact .inr (.inl ⟨hLength, rfl, dropItem_of_none hs hLength hRow⟩)
  · exact .inr (.inr ⟨hShort, dropItem_short hShort⟩)

end Lookup

section Guards

variable {path : Str}

theorem guard_iff {interfaces : List Str} :
    (Str.startsWith path T.path && isOwned T interfaces) = true ↔
      T.path <+: path ∧ isOwned T interfaces = true := by
  rw [Bool.and_eq_true_iff, Str.startsWith_iff]

theorem path_eq_of_short (hPrefix : T.path <+: path) (h : path.length ≤ T.path.length) : path = T.path :=
  (hPrefix.eq_of_length_le h).symm

theorem ne_path_of_length_lt (h : T.path.length < path.length) : path ≠ T.path := by
  rintro rfl
  exact absurd h (Nat.lt_irrefl _)

theorem onInterfacesAdded_cases (hs : Sorted I.name s.items) (path : Str) (data : AddedData) :
    (T.path <+: path ∧ isOwned T data.keys = true ∧ T.path.length < path.length ∧
        ∃ t it, Found I T (rowName T path) s t it ∧ onInterfacesAdded I T s (.ok (path, data)) =
          forEach (fun s item => setFieldsAt I s it item.2) data.entries t) ∨
      (path = T.path ∧ isOwned T data.keys = true ∧
        onInterfacesAdded I T s (.ok (path, data)) = ⟨s, some .outOfRange⟩) ∨
      (¬ (T.path <+: path ∧ isOwned T data.keys = true) ∧
        onInterfacesAdded I T s (.ok (path, data)) = ⟨s, none⟩) := by
  unfold onInterfacesAdded
  simp only
  split
  · rename_i hGuard
    obtain ⟨hPrefix, hOwned⟩ := guard_iff.mp hGuard
    rcases Nat.lt_or_ge T.path.length path.length with hLength | hShort
    · obtain ⟨t, it, hGet, hFound⟩ := getItem_found hs hLength
      exact .inl ⟨hPrefix, hOwned, hLength, t, it, hFound, by rw [hGet]⟩
    · exact .inr (.inl ⟨path_eq_of_short hPrefix hShort, hOwned, by rw [getItem_short hShort]⟩)
  · rename_i hGuard
    exact .inr (.inr ⟨fun h => hGuard (guard_iff.mpr h), rfl⟩)

theorem onInterfacesRemoved_cases {m : Read (Str × List Str)} {interfaces : List Str}
    (hRead : callMethodAndRead m = (path, interfaces)) (s : State Row) :
    (T.path <+: path ∧ isOwned T interfaces = true ∧ onInterfacesRemoved I T s m = dropItem I T s path) ∨
      (¬ (T.path <+: path ∧ isOwned T interfaces = true) ∧ onInterfacesRemoved I T s m = ⟨s, none⟩) := by
  simp only [onInterfacesRemoved, hRead]
  split
  · rename_i hGuard
    obtain ⟨hPrefix, hOwned⟩ := guard_iff.mp hGuard
    exact .inl ⟨hPrefix, hOwned, rfl⟩
  · rename_i hGuard
    exact .inr ⟨fun h => hGuard (guard_iff.mpr h), rfl⟩

end Guards

section Loops

theorem forEach_preserves {β : Type} {body : State Row → β → Outcome Row} {P : State Row → Prop}
    {bs : List β} (hBody : ∀ s, ∀ b ∈ bs, P s → P (body s b).state) (hs : P s) :
    P (forEach body bs s).state := by
  induction bs generalizing s with
  | nil => exact hs
  | cons b bs ih =>
    have hFirst := hBody s b List.mem_cons_self hs
    rw [forEach, Outcome.andThen]
    split
    · exact hFirst
    · exact ih (fun s b hb => hBody s b (List.mem_cons_of_mem _ hb)) hFirst

theorem setFieldsLoop_advance (hs : Sorted I.name s.items) {it : Nat} {item : Row}
    (hi : s.items[it]? = some item) (entries : List (Str × FieldsMap)) :
    Advance I T {I.name item} s (forEach (fun s e => setFieldsAt I s it e.2) entries s).state := by
  -- the reference keeps pointing at a row of the same name
  let Kept := fun t : State Row =>
    Advance I T {I.name item} s t ∧ ∃ row, t.items[it]? = some row ∧ I.name row = I.name item
  suffices hLoop : Kept (forEach (fun s e => setFieldsAt I s it e.2) entries s).state from hLoop.1
  apply forEach_preserves
  · rintro t e - ⟨hAdvance, row, hRow, hName⟩
    have hStep := setFieldsAt_advance (T := T) hAdvance.sorted hRow e.2
    refine ⟨hAdvance.trans (hName ▸ hStep), (I.setFields row e.2).row, ?_, ?_⟩
    · rw [setFieldsAt_eq hRow]
      exact List.getElem?_set_self (List.getElem?_eq_some_iff.mp hRow).1
    · exact (I.name_setFields row e.2).trans hName
  · exact ⟨.refl hs, item, hi, rfl⟩

theorem pruneLoop_advance (hs : Sorted I.name s.items) (data : Objects) (rounds it : Nat) :
    Advance I T { n | data.contains (objectPath T n) = false } s (pruneLoop I T data rounds it s) := by
  induction rounds generalizing it s with
  | zero => exact .refl hs
  | succ rounds ih =>
    rw [pruneLoop]
    split
    · exact .refl hs
    · rename_i item hi
      split
      · exact ih hs _
      · rename_i hGone
        have hMem : I.name item ∈ { n | data.contains (objectPath T n) = false } :=
          Bool.eq_false_iff.mpr hGone
        have hDrop := (dropAt_advance (T := T) hs hi).mono (Set.singleton_subset_iff.mpr hMem)
        exact hDrop.trans (ih hDrop.sorted _)

end Loops

section Handlers

theorem update_advance (hs : Sorted I.name s.items) (subtree : Read Objects)
    (getAll : (service path : Str) → Read FieldsMap) :
    Advance I T (touched T (.update subtree getAll)) s (update I T s subtree getAll).state := by
  have hPrune : Advance I T (touched T (.update subtree getAll)) s
      (pruneLoop I T (callMethodAndRead subtree) s.items.length 0 s) :=
    (pruneLoop_advance hs _ _ 0).mono Set.subset_union_left
  refine forEach_preserves (P := Advance I T (touched T (.update subtree getAll)) s) ?_ hPrune
  intro t pi hpi ht
  refine forEach_preserves (P := Advance I T (touched T (.update subtree getAll)) s) ?_ ht
  intro t bi _ ht
  have hTouched : ({rowName T pi.1} : Set Str) ⊆ touched T (.update subtree getAll) := by
    rintro _ rfl
    exact .inr ⟨pi.1, List.mem_map_of_mem hpi, rfl⟩
  rcases Nat.lt_or_ge T.path.length pi.1.length with hLength | hShort
  · obtain ⟨u, it, hGet, hFound⟩ := getItem_found ht.sorted hLength
    simp only [hGet]
    have hSet := setFieldsAt_advance (T := T) hFound.advance.sorted hFound.item
      (callMethodAndRead (getAll bi.1 pi.1))
    rw [getD_name] at hSet
    exact ht.trans ((hFound.advance.trans hSet).mono hTouched)
  · simp only [getItem_short (I := I) (s := t) hShort]
    exact ht

theorem onInterfacesAdded_advance (hs : Sorted I.name s.items) (m : Read (Str × AddedData)) :
    Advance I T (touched T (.interfacesAdded m)) s (onInterfacesAdded I T s m).state := by
  cases m with
  | error => exact .refl hs
  | ok body =>
    obtain ⟨path, data⟩ := body
    rcases onInterfacesAdded_cases (T := T) hs path data with
      ⟨hPrefix, hOwned, hLength, t, it, hFound, hEq⟩ | ⟨-, -, hEq⟩ | ⟨-, hEq⟩
    · have hLoop := setFieldsLoop_advance (T := T) hFound.advance.sorted hFound.item data.entries
      rw [getD_name] at hLoop
      rw [hEq]
      refine (hFound.advance.trans hLoop).mono ?_
      rintro _ rfl
      exact ⟨hPrefix, hOwned, hLength, rfl⟩
    · rw [hEq]
      exact .refl hs
    · rw [hEq]
      exact .refl hs

theorem dropItem_advance (hs : Sorted I.name s.items) (path : Str) :
    Advance I T { n | T.path.length < path.length ∧ n = rowName T path } s (dropItem I T s path).state := by
  rcases dropItem_cases (T := T) hs path with ⟨hLength, row, hRow, hEq⟩ | ⟨-, -, hEq⟩ | ⟨-, hEq⟩
  · rw [hEq]
    refine (dropAt_advance hs (hs.position_of_find hRow)).mono ?_
    rintro _ rfl
    exact ⟨hLength, row_name hRow⟩
  · rw [hEq]
    exact .refl hs
  · rw [hEq]
    exact .refl hs

theorem onInterfacesRemoved_advance (hs : Sorted I.name s.items) (m : Read (Str × List Str)) :
    Advance I T (touched T (.interfacesRemoved m)) s (onInterfacesRemoved I T s m).state := by
  rcases onInterfacesRemoved_cases (I := I) (T := T) (m := m) rfl s with
    ⟨hPrefix, hOwned, hEq⟩ | ⟨-, hEq⟩
  · rw [hEq]
    refine (dropItem_advance hs _).mono ?_
    rintro n ⟨hLength, hName⟩
    exact ⟨hPrefix, hOwned, hLength, hName⟩
  · rw [hEq]
    exact .refl hs

theorem onPropertiesChanged_of_none {path : Str} (h : ∀ n, objectPath T n = path → s.row I n = none)
    (m : Read FieldsMap) : onPropertiesChanged I T s path m = ⟨s, none⟩ := by
  have hNone : ∀ item ∈ s.items, ¬ objectPath T (I.name item) = path := fun item hItem hPath =>
    find_eq_none_iff.mp (h _ hPath) item hItem rfl
  cases m with
  | error =>
    have hAny : (s.items.any fun item => decide (objectPath T (I.name item) = path)) = false := by
      simpa using hNone
    simp [onPropertiesChanged, hAny]
  | ok fields =>
    have hFilter : (s.items.filter fun item => decide (objectPath T (I.name item) = path)) = [] := by
      simpa using hNone
    have hMap : (s.items.map fun item =>
        if objectPath T (I.name item) = path then (I.setFields item fields).row else item) = s.items := by
      conv_rhs => rw [← List.map_id s.items]
      exact List.map_congr_left fun item hItem => if_neg (hNone item hItem)
    simp [onPropertiesChanged, hFilter, hMap]

theorem onPropertiesChanged_of_row (hs : Sorted I.name s.items) {n : Str} {row : Row}
    (hRow : s.row I n = some row) (fields : FieldsMap) :
    ∃ t, onPropertiesChanged I T s (objectPath T n) (.ok fields) = ⟨t, (I.setFields row fields).raised⟩ ∧
      t.log = s.log ++ [⟨n, .setFields fields, (I.setFields row fields).traps⟩] ∧
      Sorted I.name t.items ∧ t.row I n = some (I.setFields row fields).row ∧
      ∀ m, m ≠ n → t.row I m = s.row I m := by
  have hKeep : ∀ item, I.name (if I.name item = n then (I.setFields item fields).row else item) =
      I.name item := by
    intro item
    split
    · exact I.name_setFields item fields
    · rfl
  have hFilter : s.items.filter (fun item => decide (I.name item = n)) = [row] := by
    rw [hs.filter_key, ← State.row, hRow, Option.toList_some]
  have hFind := fun m => find_map (l := s.items) hKeep m
  refine ⟨⟨_, _⟩, ?_, rfl, hs.map hKeep, ?_, ?_⟩
  · simp [onPropertiesChanged, objectPath_injective.eq_iff, hFilter, row_name hRow]
  · rw [State.row, hFind, ← State.row, hRow]
    simp [row_name hRow]
  · intro m hm
    rw [State.row, hFind, ← State.row]
    cases hOther : s.row I m with
    | none => rfl
    | some other => simp [row_name hOther, hm]

theorem row_of_path_or_none (path : Str) :
    (∃ n row, path = objectPath T n ∧ s.row I n = some row) ∨
      ∀ n, objectPath T n = path → s.row I n = none := by
  refine or_iff_not_imp_left.mpr fun hNot n hPath => ?_
  exact Option.eq_none_iff_forall_ne_some.mpr fun row hRow => hNot ⟨n, row, hPath.symm, hRow⟩

theorem onPropertiesChanged_advance (hs : Sorted I.name s.items) (path : Str) (m : Read FieldsMap) :
    Advance I T (touched T (.propertiesChanged path m)) s (onPropertiesChanged I T s path m).state := by
  cases m with
  | error => exact .refl hs
  | ok fields =>
    rcases row_of_path_or_none (I := I) (T := T) (s := s) path with ⟨n, row, rfl, hRow⟩ | hNone
    · obtain ⟨t, hEq, hLog, hSorted, hAfter, hFrame⟩ := onPropertiesChanged_of_row (T := T) hs hRow fields
      rw [hEq]
      refine (Advance.of_event (T := T) hSorted hLog ?_ hFrame).mono ?_
      · rw [hRow, hAfter]
        exact .setFields row fields
      · rintro _ rfl
        rfl
    · rw [onPropertiesChanged_of_none hNone]
      exact .refl hs

end Handlers

section Runs

/-- Every handler refines steps of the slots it may touch, also when it raises. -/
theorem handle_advance (hs : Sorted I.name s.items) (m : Message) :
    Advance I T (touched T m) s (handle I T s m).state := by
  cases m with
  | update subtree getAll => exact update_advance hs subtree getAll
  | interfacesAdded m => exact onInterfacesAdded_advance hs m
  | interfacesRemoved m => exact onInterfacesRemoved_advance hs m
  | propertiesChanged path m => exact onPropertiesChanged_advance hs path m

theorem run_advance (hs : Sorted I.name s.items) (ms : List Message) :
    Advance I T Set.univ s (run I T s ms) := by
  induction ms generalizing s with
  | nil => exact .refl hs
  | cons m ms ih =>
    have hFirst := (handle_advance (T := T) hs m).mono (Set.subset_univ _)
    exact hFirst.trans (ih hFirst.sorted)

theorem initial_sorted : Sorted I.name (initial : State Row).items := .nil

/-- Every reachable table is sorted, so lookups by binary search are exact. -/
theorem reachable_sorted (ms : List Message) : Sorted I.name (run I T initial ms).items :=
  (run_advance initial_sorted ms).sorted

/-- From the empty table on, the history of a name is a run of its slot that ends in its row. -/
theorem reachable_slot (ms : List Message) (n : Str) :
    Run (Slot.Step I T.path n) none ((run I T initial ms).history n) ((run I T initial ms).row I n) := by
  obtain ⟨events, hHistory, hRun⟩ := (run_advance (I := I) (T := T) initial_sorted ms).slot_run n
  rw [hHistory]
  exact hRun

/-- An invariant of the slot that governs what one step sends governs every trap of the name. -/
theorem traps_of_run {n : Str} {P : Option Row → Prop} {Q : Trap → Prop} (hNone : P none)
    (hKeep : ∀ s e t, P s → Slot.Step I T.path n s e t → P t)
    (hSent : ∀ s e t, P s → Slot.Step I T.path n s e t → ∀ trap ∈ e.traps, Q trap) (ms : List Message) :
    ∀ trap ∈ (run I T initial ms).traps n, Q trap := by
  intro trap hTrap
  obtain ⟨e, he, hTrap⟩ := List.mem_flatMap.mp hTrap
  exact (reachable_slot ms n).forall_labels hNone hKeep hSent e he trap hTrap

end Runs

end YadroSnmp.Table
