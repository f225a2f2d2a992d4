import Mathlib.Algebra.GroupWithZero.Nat
import YadroSnmp.Data.RowNames

/-! # The calls a message can cause

A row is created by one call and destroyed by one, and every map delivered to
it is one call. The calls made so far together with the rows, each of which has
its destruction ahead, grow with the maps in the messages and no faster:
dropping rows, one by one or by a refresh, is paid for by their creation.
-/

namespace YadroSnmp.Table

open KeyedList

variable {Row : Type} {I : ItemClass Row} {T : Config} {s t : State Row}

/-- The calls so far, and one for each row that is still to be destroyed. -/
def State.load (s : State Row) : Nat := s.log.length + s.items.length

/-- Two calls for the life of a row and one for each map. -/
def Message.load : Message → Nat
  | update subtree _ => ((callMethodAndRead subtree).entries.map fun pi => 2 + pi.2.entries.length).sum
  | interfacesAdded (.ok (_, data)) => 2 + data.entries.length
  | interfacesAdded (.error _) => 0
  | interfacesRemoved _ => 0
  | propertiesChanged _ (.ok _) => 1
  | propertiesChanged _ (.error _) => 0

section Primitive

theorem emplaceAt_load (s : State Row) (it : Nat) (name : Str) (hIt : it ≤ s.items.length) :
    (emplaceAt I T s it name).load = s.load + 2 := by
  simp only [State.load, emplaceAt, List.length_append, List.length_singleton,
    List.length_insertIdx_of_le_length hIt]
  omega

theorem setFieldsAt_load (s : State Row) (it : Nat) (fields : FieldsMap) :
    (setFieldsAt I s it fields).state.load ≤ s.load + 1 := by
  unfold setFieldsAt
  split
  · exact Nat.le_succ _
  · simp only [State.load, List.length_append, List.length_singleton, List.length_set]
    omega

theorem dropAt_load (s : State Row) (it : Nat) : (dropAt I s it).load = s.load := by
  unfold dropAt
  split
  · rfl
  · rename_i hItem
    obtain ⟨hLength, -⟩ := List.getElem?_eq_some_iff.mp hItem
    simp only [State.load, List.length_append, List.length_singleton,
      List.length_eraseIdx_of_lt hLength]
    omega

theorem getItem_load (hs : Sorted I.name s.items) {path : Str} {it : Nat} (hGet : getItem I T s path = .ok (t, it)) :
    rowName T path ∈ t.names I ∧ Sorted I.name t.items ∧
      t.load = s.load + if (s.row I (rowName T path)).isSome then 0 else 2 := by
  rcases Nat.lt_or_ge T.path.length path.length with hLength | hShort
  · refine ⟨by simp [getItem_names hs hLength hGet], ?_⟩
    cases hRow : s.row I (rowName T path) with
    | some row =>
      rw [getItem_of_row hs hLength hRow] at hGet
      cases hGet
      exact ⟨hs, rfl⟩
    | none =>
      rw [getItem_of_none hs hLength hRow] at hGet
      cases hGet
      exact ⟨(emplaceAt_advance hs hRow).sorted, emplaceAt_load s _ _ position_le⟩
  · rw [getItem_short hShort] at hGet
    cases hGet

end Primitive

section Loops

theorem pruneLoop_load (data : Objects) (rounds it : Nat) (s : State Row) :
    (pruneLoop I T data rounds it s).load = s.load := by
  induction rounds generalizing it s with
  | zero => rfl
  | succ rounds ih =>
    rw [pruneLoop]
    split
    · rfl
    · split
      · exact ih (it + 1) s
      · rw [ih it, dropAt_load]

theorem forEach_load {β : Type} {body : State Row → β → Outcome Row} {P : State Row → Prop} {cost : β → Nat}
    {l : List β} (hBody : ∀ s, ∀ b ∈ l, P s → P (body s b).state ∧ (body s b).state.load ≤ s.load + cost b)
    (hs : P s) : (forEach body l s).state.load ≤ s.load + (l.map cost).sum := by
  induction l generalizing s with
  | nil => exact le_rfl
  | cons b l ih =>
    obtain ⟨hNext, hFirst⟩ := hBody s b List.mem_cons_self hs
    rw [forEach, Outcome.andThen, List.map_cons, List.sum_cons]
    split
    · omega
    · have hRest := ih (fun s b hb => hBody s b (List.mem_cons_of_mem _ hb)) hNext
      omega

theorem setFieldsLoop_load (it : Nat) (entries : List (Str × FieldsMap)) (s : State Row) :
    (forEach (fun s item => setFieldsAt I s it item.2) entries s).state.load ≤ s.load + entries.length := by
  have hLoop := forEach_load (P := fun _ => True) (l := entries)
    (fun s item _ _ => ⟨trivial, setFieldsAt_load (I := I) s it item.2⟩) (s := s) trivial
  simpa using hLoop

/-- The services of one object: the row is created for the first of them at most. -/
theorem servicesLoop_load (hs : Sorted I.name s.items) (path : Str) (f : Str × List Str → FieldsMap)
    (l : List (Str × List Str)) :
    let body := fun (s : State Row) bi =>
      match getItem I T s path with
      | .error e => ⟨s, some e⟩
      | .ok (s, it) => setFieldsAt I s it (f bi)
    Sorted I.name (forEach body l s).state.items ∧ (forEach body l s).state.load ≤
      s.load + (if (s.row I (rowName T path)).isSome then 0 else 2) + l.length := by
  intro body
  induction l generalizing s with
  | nil =>
    refine ⟨hs, ?_⟩
    change s.load ≤ _
    omega
  | cons bi l ih =>
    rcases Nat.lt_or_ge T.path.length path.length with hLength | hShort
    · obtain ⟨t, it, hGet, hFound⟩ := getItem_found hs hLength
      obtain ⟨hName, hSorted, hLoad⟩ := getItem_load hs hGet
      have hBody : body s bi = setFieldsAt I t it (f bi) := by simp only [body, hGet]
      have hSet := setFieldsAt_load (I := I) t it (f bi)
      have hNext := (setFieldsAt_advance (T := T) hSorted hFound.item (f bi)).sorted
      have hThere : ((setFieldsAt I t it (f bi)).state.row I (rowName T path)).isSome := by
        change rowName T path ∈ (setFieldsAt I t it (f bi)).state.names I
        rwa [setFieldsAt_names hSorted]
      obtain ⟨hLast, hRest⟩ := ih hNext
      rw [if_pos hThere] at hRest
      rw [forEach, Outcome.andThen, hBody, List.length_cons]
      split
      · exact ⟨hNext, by omega⟩
      · exact ⟨hLast, by omega⟩
    · have hBody : body s bi = ⟨s, some .outOfRange⟩ := by simp only [body, getItem_short hShort]
      rw [forEach, Outcome.andThen, hBody]
      refine ⟨hs, ?_⟩
      change s.load ≤ _
      omega

end Loops

section Handlers

theorem dropItem_load (s : State Row) (path : Str) : (dropItem I T s path).state.load ≤ s.load := by
  unfold dropItem
  split
  · exact le_rfl
  · dsimp only
    split
    · exact (dropAt_load s _).le
    · exact le_rfl

theorem update_load (hs : Sorted I.name s.items) (subtree : Read Objects)
    (getAll : (service path : Str) → Read FieldsMap) :
    (update I T s subtree getAll).state.load ≤ s.load + (Message.update subtree getAll).load := by
  have hPruned : Sorted I.name (pruneLoop I T (callMethodAndRead subtree) s.items.length 0 s).items :=
    (pruneLoop_advance (T := T) hs _ _ 0).sorted
  rw [← pruneLoop_load (I := I) (T := T) (callMethodAndRead subtree) s.items.length 0 s]
  refine forEach_load (P := fun s => Sorted I.name s.items) (fun s pi _ hs => ?_) hPruned
  obtain ⟨hSorted, hServices⟩ :=
    servicesLoop_load (T := T) hs pi.1 (fun bi => callMethodAndRead (getAll bi.1 pi.1)) pi.2.entries
  refine ⟨hSorted, hServices.trans ?_⟩
  split
  · omega
  · omega

theorem onPropertiesChanged_load (hs : Sorted I.name s.items) (path : Str) (m : Read FieldsMap) :
    (onPropertiesChanged I T s path m).state.load ≤ s.load + (Message.propertiesChanged path m).load := by
  cases m with
  | error => exact le_rfl
  | ok fields =>
    have hOne : (s.items.filter fun item => decide (objectPath T (I.name item) = path)).length ≤ 1 := by
      by_cases hPath : ∃ n, objectPath T n = path
      · obtain ⟨n, rfl⟩ := hPath
        simp only [objectPath_injective.eq_iff, hs.filter_key]
        exact Option.length_toList_le
      · rw [List.filter_eq_nil_iff.mpr fun item _ => by simpa using fun h => hPath ⟨_, h⟩]
        exact Nat.zero_le 1
    simp only [onPropertiesChanged, State.load, List.length_append, List.length_map, Message.load]
    omega

/-- A message adds to the load no more than it brings. -/
theorem handle_load (hs : Sorted I.name s.items) (m : Message) :
    (handle I T s m).state.load ≤ s.load + m.load := by
  cases m with
  | update subtree getAll => exact update_load hs subtree getAll
  | interfacesAdded r =>
    cases r with
    | error => exact le_rfl
    | ok body =>
      obtain ⟨path, data⟩ := body
      rw [handle, onInterfacesAdded]
      split
      · cases hGet : getItem I T s path with
        | error => exact Nat.le_add_right _ _
        | ok found =>
          obtain ⟨t, it⟩ := found
          obtain ⟨-, -, hLoad⟩ := getItem_load hs hGet
          have hLoop := setFieldsLoop_load (I := I) it data.entries t
          simp only [Message.load]
          split at hLoad
          · omega
          · omega
      · exact Nat.le_add_right _ _
  | interfacesRemoved r =>
    rw [handle, onInterfacesRemoved]
    dsimp only
    split
    · exact dropItem_load s _
    · exact le_rfl
  | propertiesChanged path r => exact onPropertiesChanged_load hs path r

end Handlers

end YadroSnmp.Table
