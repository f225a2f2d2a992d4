import YadroSnmp.Data.Reconcile

/-! # Two ways to build a row

An announcement delivers one map for each interface of an object, a refresh one
map for each service that hosts some of them. When no property is in two
interfaces, every field finds the same value in both, so the rows are equal.
-/

namespace YadroSnmp.Table

open Snmp KeyedList

/-- No property name is in the maps of two interfaces. -/
def DisjointProperties (data : AddedData) : Prop :=
  ∀ e ∈ data.entries, ∀ e' ∈ data.entries, e.1 ≠ e'.1 → ∀ property ∈ e.2.keys, property ∉ e'.2.keys

/-- The interfaces of an object are hosted by its services, in any distribution,
and a service replies with the union of the maps of the interfaces it hosts. -/
structure Splits (data : AddedData) (services : List Str) (hosts : Str → Set Str)
    (reply : Str → FieldsMap) : Prop where
  hosted : ∀ iface ∈ data.keys, ∃ service ∈ services, iface ∈ hosts service
  union : ∀ service ∈ services, ∀ property value, (reply service).find? property = some value ↔
    ∃ e ∈ data.entries, e.1 ∈ hosts service ∧ e.2.find? property = some value

variable {Row : Type} {data : AddedData} {services : List Str} {hosts : Str → Set Str}
  {reply : Str → FieldsMap}

theorem DisjointProperties.value_eq (h : DisjointProperties data) {e e' : Str × FieldsMap}
    (he : e ∈ data.entries) (he' : e' ∈ data.entries) {property : Str} {value value' : Variant}
    (hValue : e.2.find? property = some value) (hValue' : e'.2.find? property = some value') :
    value' = value := by
  have hKeys : property ∈ e.2.keys := by
    rw [← OrdMap.contains_iff, OrdMap.contains, hValue, Option.isSome_some]
  have hKeys' : property ∈ e'.2.keys := by
    rw [← OrdMap.contains_iff, OrdMap.contains, hValue', Option.isSome_some]
  have hIface : e.1 = e'.1 := by
    by_contra hNe
    exact h e he e' he' hNe property hKeys hKeys'
  obtain rfl := data.sorted.eq_of_key_eq he he' hIface
  exact Option.some.inj (hValue'.symm.trans hValue)

theorem last_replies (f : Field Row) (hDisjoint : DisjointProperties data)
    (hSplits : Splits data services hosts reply) : f.last (services.map reply) = f.last data.maps := by
  by_cases hSome : ∃ e ∈ data.entries, ∃ value, e.2.find? f.property = some value
  · obtain ⟨e, he, value, hValue⟩ := hSome
    obtain ⟨service, hService, hHosts⟩ := hSplits.hosted e.1 (List.mem_map_of_mem he)
    have hMaps : f.last data.maps = f.decode value := by
      refine Field.last_eq_decode ?_ ⟨e.2, List.mem_map_of_mem he, hValue⟩
      rintro _ hMap value' hValue'
      obtain ⟨e', he', rfl⟩ := List.mem_map.mp hMap
      exact hDisjoint.value_eq he he' hValue hValue'
    rw [hMaps]
    refine Field.last_eq_decode ?_ ⟨reply service, List.mem_map_of_mem hService, ?_⟩
    · rintro _ hMap value' hValue'
      obtain ⟨service', hService', rfl⟩ := List.mem_map.mp hMap
      obtain ⟨e', he', -, hFound⟩ := (hSplits.union service' hService' _ _).mp hValue'
      exact hDisjoint.value_eq he he' hValue hFound
    · exact (hSplits.union service hService _ _).mpr ⟨e, he, hHosts, hValue⟩
  · have hNone : ∀ e ∈ data.entries, e.2.find? f.property = none := by
      intro e he
      by_contra hFound
      exact hSome ⟨e, he, Option.ne_none_iff_exists'.mp hFound⟩
    rw [Field.last_eq_none, Field.last_eq_none]
    · rintro _ hMap
      obtain ⟨e, he, rfl⟩ := List.mem_map.mp hMap
      exact hNone e he
    · rintro _ hMap
      obtain ⟨service, hService, rfl⟩ := List.mem_map.mp hMap
      by_contra hFound
      obtain ⟨value, hValue⟩ := Option.ne_none_iff_exists'.mp hFound
      obtain ⟨e, he, -, hValue⟩ := (hSplits.union service hService _ _).mp hValue
      rw [hNone e he] at hValue
      cases hValue

variable {R : RowClass Row} {T : Config} {s : State Row} {n : Str}

theorem core_delivered {maps : List FieldsMap} {row row' : Row} {calls : List Event}
    (h : Delivered R.toFieldClass maps row row' calls) : R.core row' = R.core row := by
  rw [h.folded]
  clear h
  induction maps generalizing row with
  | nil => rfl
  | cons map maps ih => exact ih.trans (R.core_setFields row map)

/-- Rows built from the same start by maps in which every field finds the same are equal. -/
theorem row_eq_of_last_eq {maps maps' : List FieldsMap} {row row₁ row₂ : Row} {calls calls' : List Event}
    (h : Delivered R.toFieldClass maps row row₁ calls)
    (h' : Delivered R.toFieldClass maps' row row₂ calls')
    (hLast : ∀ f ∈ R.fields, f.last maps' = f.last maps) : row₂ = row₁ := by
  refine R.ext row₂ row₁ ?_ fun f hf => ?_
  · rw [core_delivered h, core_delivered h']
  · rw [h.fields f hf, h'.fields f hf, hLast f hf]

theorem added_delivers {F : FieldClass Row} (hs : Sorted F.name s.items)
    (hNew : s.row F.toItemClass n = none) (hOwned : isOwned T data.keys = true)
    (hNormal : (onInterfacesAdded F.toItemClass T s (.ok (objectPath T n, data))).raised = none) :
    ∃ row calls,
      (onInterfacesAdded F.toItemClass T s (.ok (objectPath T n, data))).state.row F.toItemClass n =
        some row ∧ Delivered F data.maps (F.make T.path n) row calls := by
  obtain ⟨hOnly, hRaised⟩ := handle_view (T := T) (n := n) hs
    (m := .interfacesAdded (.ok (objectPath T n, data))) rfl
  rw [handle, hNormal] at hRaised
  have hView := hOnly.self
  simp only [View.receive, hOwned, if_true, View.getItem, State.view, hNew] at hView hRaised
  obtain ⟨row, calls, hFill, hDelivered⟩ := fill_delivers hRaised.symm
  rw [hFill] at hView
  exact ⟨row, calls, congrArg View.row hView, hDelivered⟩

theorem added_row_eq_updated_row (hs : Sorted R.name s.items) (hNew : s.row R.toItemClass n = none)
    (hOwned : isOwned T data.keys = true) (hSome : data.keys ≠ []) (hDisjoint : DisjointProperties data)
    {answer : Objects} {getAll : (service path : Str) → Read FieldsMap} {services : OrdMap Str (List Str)}
    (hPaths : ∀ path ∈ answer.keys, ∃ n, path = objectPath T n)
    (hAnswer : answer.find? (objectPath T n) = some services)
    (hSplits : Splits data services.keys hosts fun service =>
      callMethodAndRead (getAll service (objectPath T n)))
    (hAdded : (onInterfacesAdded R.toItemClass T s (.ok (objectPath T n, data))).raised = none)
    (hUpdated : (update R.toItemClass T s (.ok answer) getAll).raised = none) :
    ∃ row,
      (onInterfacesAdded R.toItemClass T s (.ok (objectPath T n, data))).state.row R.toItemClass n =
        some row ∧
      (update R.toItemClass T s (.ok answer) getAll).state.row R.toItemClass n = some row := by
  obtain ⟨row, calls, hRow, hDelivered⟩ := added_delivers hs hNew hOwned hAdded
  have hReplies : replies answer getAll (objectPath T n) =
      services.keys.map fun service => callMethodAndRead (getAll service (objectPath T n)) := by
    rw [replies, hAnswer, OrdMap.keys, List.map_map]
    rfl
  have hHosted : replies answer getAll (objectPath T n) ≠ [] := by
    obtain ⟨iface, hIface⟩ := List.exists_mem_of_ne_nil _ hSome
    obtain ⟨service, hService, -⟩ := hSplits.hosted iface hIface
    rw [hReplies]
    exact List.ne_nil_of_mem (List.mem_map_of_mem hService)
  have hKey : objectPath T n ∈ answer.keys := by
    rw [← OrdMap.contains_iff, OrdMap.contains, hAnswer, Option.isSome_some]
  obtain ⟨row', calls', hView, hDelivered'⟩ := update_delivers hs hPaths hUpdated hKey hHosted
  rw [hNew, Option.getD_none, hReplies] at hDelivered'
  obtain rfl := row_eq_of_last_eq hDelivered hDelivered' fun f _ => last_replies f hDisjoint hSplits
  exact ⟨row', hRow, congrArg View.row hView⟩

end YadroSnmp.Table
