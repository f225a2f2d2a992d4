import YadroSnmp.Data.Confinement
import YadroSnmp.Data.Field
import YadroSnmp.Data.Presence
import YadroSnmp.Data.View

/-! # The table after a refresh

A refresh that ends normally leaves one row for each object of the answer: the
rows of other objects are destroyed, the rows there were stay and the others are
created, and both are brought up to date by the replies for their object.
-/

namespace YadroSnmp.Table

open Snmp KeyedList

variable {Row : Type} (F : FieldClass Row) (T : Config)

/-- The calls that took `row` to `row'` delivered the maps one after another,
and each field has the last value of its type among them, if there is one. -/
structure Delivered (maps : List FieldsMap) (row row' : Row) (calls : List Event) : Prop where
  calls : calls.map Event.call = maps.map Call.setFields
  folded : row' = maps.foldl (fun row map => (F.setFields row map).row) row
  fields : ∀ f ∈ F.fields, f.get row' = (f.last maps).getD (f.get row)

structure Reconciled (data : Objects) (getAll : (service path : Str) → Read FieldsMap) (s t : State Row) :
    Prop where
  names : t.names F.toItemClass = { n | ∃ path ∈ data.keys, n = rowName T path }
  dropped : ∀ n row, s.row F.toItemClass n = some row → objectPath T n ∉ data.keys →
    t.row F.toItemClass n = none ∧ t.history n = s.history n ++ [⟨n, .onDestroy, F.onDestroy row⟩]
  kept : ∀ n row, s.row F.toItemClass n = some row → objectPath T n ∈ data.keys →
    ∃ row' calls, t.row F.toItemClass n = some row' ∧ t.history n = s.history n ++ calls ∧
      Delivered F (replies data getAll (objectPath T n)) row row' calls
  created : ∀ n, s.row F.toItemClass n = none → objectPath T n ∈ data.keys →
    ∃ row' calls, t.row F.toItemClass n = some row' ∧
      t.history n = s.history n ++ ⟨n, .onCreate, F.onCreate (F.make T.path n)⟩ :: calls ∧
      Delivered F (replies data getAll (objectPath T n)) (F.make T.path n) row' calls
  untouched : ∀ n, s.row F.toItemClass n = none → objectPath T n ∉ data.keys →
    t.row F.toItemClass n = none ∧ t.history n = s.history n

variable {F T} {s : State Row} {n : Str}

theorem Delivered.nil (row : Row) : Delivered F [] row row [] := ⟨rfl, rfl, fun _ _ => rfl⟩

theorem Delivered.cons {map : FieldsMap} {maps : List FieldsMap} {row row' : Row} {calls : List Event}
    (hNormal : (F.setFields row map).raised = none)
    (h : Delivered F maps (F.setFields row map).row row' calls) (traps : List Trap) :
    Delivered F (map :: maps) row row' (⟨n, .setFields map, traps⟩ :: calls) := by
  refine ⟨by rw [List.map_cons, h.calls, List.map_cons], h.folded, fun f hf => ?_⟩
  rw [h.fields f hf, F.assigned f hf row map hNormal, Field.last]
  cases f.last maps with
  | none => rw [Option.none_or, Option.getD_none]
  | some value => rw [Option.some_or, Option.getD_some, Option.getD_some]

theorem fill_delivers {maps : List FieldsMap} {row : Row} {history : List Event}
    (hNormal : ((View.mk (some row) history).fill F.toItemClass n maps).2 = none) :
    ∃ row' calls, ((View.mk (some row) history).fill F.toItemClass n maps).1 =
        ⟨some row', history ++ calls⟩ ∧ Delivered F maps row row' calls := by
  induction maps generalizing row history with
  | nil => exact ⟨row, [], by rw [View.fill, List.append_nil], .nil row⟩
  | cons map maps ih =>
    cases hRaised : (F.setFields row map).raised with
    | some e => simp [View.fill, View.raises, hRaised] at hNormal
    | none =>
      simp only [View.fill, View.raises, Option.bind_some, hRaised, View.setFields] at hNormal ⊢
      obtain ⟨row', calls, hView, hDelivered⟩ := ih hNormal
      exact ⟨row', _, by rw [hView, List.append_assoc]; rfl, hDelivered.cons hRaised _⟩

theorem update_delivers (hs : Sorted F.name s.items) {data : Objects}
    {getAll : (service path : Str) → Read FieldsMap}
    (hPaths : ∀ path ∈ data.keys, ∃ n, path = objectPath T n)
    (hNormal : (update F.toItemClass T s (.ok data) getAll).raised = none)
    (hKey : objectPath T n ∈ data.keys) (hHosted : replies data getAll (objectPath T n) ≠ []) :
    ∃ row calls, (update F.toItemClass T s (.ok data) getAll).state.view F.toItemClass n =
        ⟨some row, ((s.view F.toItemClass n).getItem F.toItemClass T n).history ++ calls⟩ ∧
      Delivered F (replies data getAll (objectPath T n))
        ((s.row F.toItemClass n).getD (F.make T.path n)) row calls := by
  have hView := update_view hs hPaths hNormal n
  rw [if_pos (OrdMap.contains_iff.mpr hKey), View.refresh, if_neg hHosted] at hView
  have hOpened : (s.view F.toItemClass n).getItem F.toItemClass T n =
      ⟨some ((s.row F.toItemClass n).getD (F.make T.path n)),
        ((s.view F.toItemClass n).getItem F.toItemClass T n).history⟩ :=
    congrArg (View.mk · _) View.row_getItem
  rw [hOpened] at hView ⊢
  obtain ⟨row, calls, hFill, hDelivered⟩ := fill_delivers hView.2
  exact ⟨row, calls, hView.1.trans hFill, hDelivered⟩

/-- A refresh of a reachable table that ends normally reconciles it with the
answer, for any replies, the empty ones of failed calls included. -/
theorem update_reconciles (F : FieldClass Row) (T : Config) (ms : List Message) (data : Objects)
    (getAll : (service path : Str) → Read FieldsMap) (hBelow : ∀ path ∈ data.keys, Below T path)
    (hHosted : ∀ e ∈ data.entries, e.2.entries ≠ [])
    (hNormal : (update F.toItemClass T (run F.toItemClass T initial ms) (.ok data) getAll).raised = none) :
    Reconciled F T data getAll (run F.toItemClass T initial ms)
      (update F.toItemClass T (run F.toItemClass T initial ms) (.ok data) getAll).state := by
  have hs : Sorted F.name (run F.toItemClass T initial ms).items := reachable_sorted ms
  generalize run F.toItemClass T initial ms = s at hs hNormal ⊢
  have hPaths : ∀ path ∈ data.keys, ∃ n, path = objectPath T n := fun path hPath =>
    ⟨_, below_rowName (hBelow path hPath)⟩
  have hDropped : ∀ n, objectPath T n ∉ data.keys →
      (update F.toItemClass T s (.ok data) getAll).state.view F.toItemClass n =
        (s.view F.toItemClass n).dropItem F.toItemClass n := by
    intro n hKey
    have hView := update_view hs hPaths hNormal n
    rwa [if_neg fun hFound => hKey (OrdMap.contains_iff.mp hFound)] at hView
  constructor
  · rw [update_names hs hPaths hHosted hNormal]
    ext n
    constructor
    · exact fun hKey => ⟨_, hKey, (rowName_objectPath n).symm⟩
    · rintro ⟨path, hPath, rfl⟩
      rw [Set.mem_ofPred_eq, ← below_rowName (hBelow path hPath)]
      exact hPath
  · intro n row hRow hKey
    have hView := hDropped n hKey
    simp only [View.dropItem, State.view, hRow, View.mk.injEq] at hView
    exact hView
  · intro n row hRow hKey
    obtain ⟨row', calls, hView, hDelivered⟩ := update_delivers hs hPaths hNormal hKey
      (replies_ne_nil hHosted hKey)
    simp only [View.getItem, State.view, hRow, View.mk.injEq] at hView
    rw [hRow, Option.getD_some] at hDelivered
    exact ⟨row', calls, hView.1, hView.2, hDelivered⟩
  · intro n hRow hKey
    obtain ⟨row', calls, hView, hDelivered⟩ := update_delivers hs hPaths hNormal hKey
      (replies_ne_nil hHosted hKey)
    simp only [View.getItem, State.view, hRow, View.mk.injEq, List.append_assoc] at hView
    rw [hRow, Option.getD_none] at hDelivered
    exact ⟨row', calls, hView.1, hView.2, hDelivered⟩
  · intro n hRow hKey
    have hView := hDropped n hKey
    simp only [View.dropItem, State.view, hRow, View.mk.injEq] at hView
    exact hView

section Ambient

open Sensors

theorem ambient_reconciled :
    Reconciled (fieldClass ambientObjid) (sensorsTable "temperature") ambientAnswer ambientGetAll
      (run (itemClass ambientObjid) (sensorsTable "temperature") initial
        [announced ambientPath 20, announced inletPath 20])
      (update (itemClass ambientObjid) (sensorsTable "temperature")
        (run (itemClass ambientObjid) (sensorsTable "temperature") initial
          [announced ambientPath 20, announced inletPath 20]) (.ok ambientAnswer) ambientGetAll).state := by
  refine update_reconciles (fieldClass ambientObjid) (sensorsTable "temperature") _ ambientAnswer
    ambientGetAll ?_ (by decide) (by decide +kernel)
  intro path hPath
  obtain rfl : path = ambientPath := by
    have hKeys : ambientAnswer.keys = [ambientPath] := by decide
    simpa [hKeys] using hPath
  exact ⟨Str.lit "ambient", by decide, rfl⟩

end Ambient

end YadroSnmp.Table
