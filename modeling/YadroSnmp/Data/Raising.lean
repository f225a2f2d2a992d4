import YadroSnmp.Data.Field
import YadroSnmp.Data.View

/-! # Exceptions that end a handler

The accesses a field makes to a map are guarded. What is left is the cut of the
row name out of a path, which fails on the folder itself, and the maps that the
row class refuses.
-/

namespace YadroSnmp.Table

open Snmp KeyedList

variable {Row : Type} {R : RowClass Row} {T : Config} {s : State Row}

theorem fill_normal_iff {n : Str} {v : View Row} {maps : List FieldsMap} (hRow : v.row.isSome) :
    (v.fill R.toItemClass n maps).2 = none ↔ ∀ map ∈ maps, ¬ R.refused map := by
  induction maps generalizing v with
  | nil => simp [View.fill]
  | cons map maps ih =>
    obtain ⟨row, hSome⟩ := Option.isSome_iff_exists.mp hRow
    have hRaises : v.raises R.toItemClass map = (R.setFields row map).raised := by
      rw [View.raises, hSome, Option.bind_some]
    rw [View.fill, hRaises, List.forall_mem_cons, ← R.raised_iff row map]
    cases (R.setFields row map).raised with
    | some e => simp
    | none =>
      rw [and_iff_right rfl]
      exact ih (by rwa [View.isSome_setFields])

theorem onInterfacesAdded_normal_iff (hs : Sorted R.name s.items) (path : Str) (data : AddedData) :
    (onInterfacesAdded R.toItemClass T s (.ok (path, data))).raised = none ↔
      (T.path <+: path → isOwned T data.keys = true →
        path ≠ T.path ∧ ∀ map ∈ data.maps, ¬ R.refused map) := by
  rcases onInterfacesAdded_cases (T := T) hs path data with
    ⟨hPrefix, hOwned, hLength, t, it, hFound, hEq⟩ | ⟨rfl, hOwned, hEq⟩ | ⟨hNot, hEq⟩
  · obtain ⟨-, hRaised⟩ := setFieldsLoop_view (n := rowName T path) Prod.snd data.entries
      hFound.advance.sorted ⟨_, hFound.item, getD_name s _⟩
    have hRow := row_of_getElem hFound.advance.sorted hFound.item
    rw [getD_name] at hRow
    have hSome : (t.view R.toItemClass (rowName T path)).row.isSome := by simp [State.view, hRow]
    rw [hEq, hRaised, fill_normal_iff hSome, forall_prop_of_true hPrefix, forall_prop_of_true hOwned,
      and_iff_right (ne_path_of_length_lt hLength)]
    rfl
  · rw [hEq, forall_prop_of_true List.prefix_rfl, forall_prop_of_true hOwned]
    simp
  · rw [hEq]
    exact iff_of_true rfl fun hPrefix hOwned => absurd ⟨hPrefix, hOwned⟩ hNot

theorem onInterfacesRemoved_normal_iff (hs : Sorted R.name s.items) (path : Str) (interfaces : List Str) :
    (onInterfacesRemoved R.toItemClass T s (.ok (path, interfaces))).raised = none ↔
      (isOwned T interfaces = true → path ≠ T.path) := by
  have hRead : callMethodAndRead (.ok (path, interfaces)) = (path, interfaces) := rfl
  rcases onInterfacesRemoved_cases (I := R.toItemClass) (T := T) hRead s with
    ⟨hPrefix, hOwned, hEq⟩ | ⟨hNot, hEq⟩
  · rw [hEq, forall_prop_of_true hOwned]
    rcases dropItem_cases (T := T) hs path with
      ⟨hLength, row, -, hDrop⟩ | ⟨hLength, -, hDrop⟩ | ⟨hShort, hDrop⟩
    · rw [hDrop]
      exact iff_of_true rfl (ne_path_of_length_lt hLength)
    · rw [hDrop]
      exact iff_of_true rfl (ne_path_of_length_lt hLength)
    · rw [hDrop]
      simp [path_eq_of_short hPrefix hShort]
  · rw [hEq]
    exact iff_of_true rfl fun hOwned hPath => hNot ⟨hPath ▸ List.prefix_rfl, hOwned⟩

theorem onPropertiesChanged_normal_iff (hs : Sorted R.name s.items) (path : Str) (fields : FieldsMap) :
    (onPropertiesChanged R.toItemClass T s path (.ok fields)).raised = none ↔
      ∀ n ∈ s.names R.toItemClass, path = objectPath T n → ¬ R.refused fields := by
  rcases row_of_path_or_none (I := R.toItemClass) (T := T) (s := s) path with ⟨n, row, rfl, hRow⟩ | hNone
  · obtain ⟨t, hEq, -⟩ := onPropertiesChanged_of_row (T := T) hs hRow fields
    have hMem : n ∈ s.names R.toItemClass := Option.isSome_of_mem hRow
    rw [hEq, R.raised_iff]
    exact ⟨fun h _ _ _ => h, fun h => h n hMem rfl⟩
  · rw [onPropertiesChanged_of_none hNone]
    refine iff_of_true rfl fun n hMem hPath => ?_
    exact absurd (hNone n hPath.symm) (Option.isSome_iff_ne_none.mp hMem)

end YadroSnmp.Table
