import YadroSnmp.Data.RowNames
import YadroSnmp.Yadro.SensorAlarms

/-! # Which objects reach which rows

The handlers accept a path by a prefix test and cut a fixed number of bytes off
it. Both fit together on paths `folder/name`; a sibling of the folder that
continues its last component passes the test as well and is cut in the middle.
-/

namespace YadroSnmp.Table

open Snmp KeyedList Labelled

variable {Row : Type} (I : ItemClass Row) (T : Config)

def Below (path : Str) : Prop := ∃ n, n ≠ [] ∧ path = objectPath T n

/-- The object paths from which a message makes the table compute a row name. -/
def lookups : Message → Set Str
  | .update subtree _ => { p | p ∈ (callMethodAndRead subtree).keys ∧ T.path.length < p.length }
  | .interfacesAdded (.error _) => ∅
  | .interfacesAdded (.ok (path, data)) =>
    { p | p = path ∧ T.path <+: p ∧ isOwned T data.keys = true ∧ T.path.length < p.length }
  | .interfacesRemoved m =>
    { p | p = (callMethodAndRead m).1 ∧ T.path <+: p ∧ isOwned T (callMethodAndRead m).2 = true ∧
      T.path.length < p.length }
  | .propertiesChanged path _ => { p | p = path ∧ Below T p }

/-- A message that makes the table look up objects of the folder only. -/
def Tidy (m : Message) : Prop := ∀ p ∈ lookups T m, Below T p

def managerPath : Message → Option Str
  | .interfacesAdded (.ok (path, _)) => some path
  | .interfacesRemoved m => some (callMethodAndRead m).1
  | _ => none

def Unchanged (s t : State Row) : Prop :=
  t.items = s.items ∧ t.log.flatMap Event.traps = s.log.flatMap Event.traps

/-- A message that may change or drop the row `n`; signals only when they are about `folder/n`. -/
def MayTouch (n : Str) : Message → Prop
  | .update _ _ => True
  | .interfacesAdded (.error _) => False
  | .interfacesAdded (.ok (path, _)) => path = objectPath T n
  | .interfacesRemoved m => (callMethodAndRead m).1 = objectPath T n
  | .propertiesChanged path _ => path = objectPath T n

def Announces (n : Str) : Message → Prop
  | .update subtree _ => objectPath T n ∈ (callMethodAndRead subtree).keys
  | .interfacesAdded (.ok (path, _)) => path = objectPath T n
  | _ => False

/-- In this step rows are touched and created for their own objects only. -/
structure Confined (s : State Row) (m : Message) : Prop where
  only : ∀ n, (handle I T s m).state.row I n ≠ s.row I n ∨
    (handle I T s m).state.history n ≠ s.history n → MayTouch T n m
  created : ∀ n, s.row I n = none → (handle I T s m).state.row I n ≠ none → Announces T n m

variable {I T} {s : State Row} {m : Message}

theorem below_rowName {path : Str} (h : Below T path) : path = objectPath T (rowName T path) := by
  obtain ⟨n, -, rfl⟩ := h
  rw [rowName_objectPath]

theorem below_injective {p p' : Str} (h : Below T p) (h' : Below T p')
    (hName : rowName T p = rowName T p') : p = p' :=
  calc p = objectPath T (rowName T p) := below_rowName h
    _ = objectPath T (rowName T p') := by rw [hName]
    _ = p' := (below_rowName h').symm

theorem managerPath_of_mem_lookups {p path : Str} (hPath : managerPath m = some path)
    (hp : p ∈ lookups T m) : p = path := by
  cases m with
  | update => cases hPath
  | propertiesChanged => cases hPath
  | interfacesRemoved m =>
    cases hPath
    exact hp.1
  | interfacesAdded m =>
    cases m with
    | error => cases hPath
    | ok body =>
      cases hPath
      exact hp.1

theorem exists_lookup_of_touched {path n : Str} (hPath : managerPath m = some path)
    (hn : n ∈ touched T m) : ∃ p ∈ lookups T m, n = rowName T p := by
  cases m with
  | update => cases hPath
  | propertiesChanged => cases hPath
  | interfacesRemoved m => exact ⟨_, ⟨rfl, hn.1, hn.2.1, hn.2.2.1⟩, hn.2.2.2⟩
  | interfacesAdded m =>
    cases m with
    | error => cases hPath
    | ok body => exact ⟨_, ⟨rfl, hn.1, hn.2.1, hn.2.2.1⟩, hn.2.2.2⟩

theorem mem_names_iff {n : Str} : n ∈ s.names I ↔ s.row I n ≠ none := by
  rw [State.names, Set.mem_ofPred_eq, ← Option.isSome_iff_ne_none]

theorem Unchanged.names {t : State Row} (h : Unchanged s t) : t.names I = s.names I := by
  ext n
  rw [State.mem_names, State.mem_names, h.1]

section Signals

theorem unchanged_of_tidy (hs : Sorted I.name s.items) {path : Str} (hPath : managerPath m = some path)
    (hOutside : ¬ Below T path) (hTidy : Tidy T m) : (handle I T s m).state = s := by
  have hTouched : touched T m ⊆ ∅ := by
    intro n hn
    obtain ⟨p, hp, -⟩ := exists_lookup_of_touched hPath hn
    have hBelow := hTidy p hp
    rw [managerPath_of_mem_lookups hPath hp] at hBelow
    exact hOutside hBelow
  exact ((handle_advance hs m).mono hTouched).eq_of_empty hs

theorem added_not_unchanged {path : Str} {data : AddedData}
    (h : path ∈ lookups T (.interfacesAdded (.ok (path, data)))) :
    ¬ Unchanged initial (handle I T initial (.interfacesAdded (.ok (path, data)))).state := by
  intro hSame
  obtain ⟨-, hPrefix, hOwned, hLength⟩ := h
  have hNames := onInterfacesAdded_names (I := I) (T := T) initial_sorted hPrefix hLength data
  rw [if_pos hOwned] at hNames
  have hMem : rowName T path ∈ (initial : State Row).names I := by
    rw [← hSame.names (I := I)]
    exact hNames ▸ Set.mem_insert _ _
  cases hMem

theorem removed_not_unchanged {r : Read (Str × List Str)} {s : State Row} (hs : Sorted I.name s.items)
    (h : (callMethodAndRead r).1 ∈ lookups T (.interfacesRemoved r))
    (hRow : rowName T (callMethodAndRead r).1 ∈ s.names I) :
    ¬ Unchanged s (handle I T s (.interfacesRemoved r)).state := by
  intro hSame
  obtain ⟨-, hPrefix, hOwned, hLength⟩ := h
  have hNames := onInterfacesRemoved_names (I := I) (T := T) hs hPrefix hLength
  rw [if_pos hOwned] at hNames
  rw [← hSame.names (I := I)] at hRow
  exact (hNames ▸ hRow : _ ∈ s.names I \ {rowName T (callMethodAndRead r).1}).2 rfl

theorem exists_owned (T : Config) : ∃ data : AddedData, isOwned T data.keys = true := by
  cases hList : T.interfaces with
  | nil => exact ⟨∅, by simp [isOwned, hList]⟩
  | cons iface rest =>
    refine ⟨⟨[(iface, ∅)], List.pairwise_singleton _ _⟩, ?_⟩
    simp [isOwned, hList, OrdMap.keys]

theorem exists_row (n : Str) : ∃ m, n ∈ (run I T initial [m]).names I := by
  obtain ⟨data, hOwned⟩ := exists_owned T
  refine ⟨.interfacesAdded (.ok (objectPath T n, data)), ?_⟩
  have hNames := onInterfacesAdded_names (I := I) (T := T) initial_sorted (path_prefix_objectPath n)
    (path_length_lt_objectPath n) data
  rw [if_pos hOwned, rowName_objectPath] at hNames
  exact hNames ▸ Set.mem_insert n _

/-- A signal about an object outside the folder leaves every reachable table as
it was exactly when the handler takes no row name from its path. -/
theorem unchanged_iff_tidy {path : Str} (hPath : managerPath m = some path)
    (hOutside : ¬ Below T path) :
    (∀ ms, Unchanged (run I T initial ms) (handle I T (run I T initial ms) m).state) ↔ Tidy T m := by
  constructor
  · intro h p hp
    exfalso
    cases m with
    | update => cases hPath
    | propertiesChanged => cases hPath
    | interfacesAdded r =>
      cases r with
      | error => cases hPath
      | ok body =>
        obtain rfl := managerPath_of_mem_lookups rfl hp
        exact added_not_unchanged hp (h [])
    | interfacesRemoved r =>
      obtain rfl := managerPath_of_mem_lookups rfl hp
      obtain ⟨m, hm⟩ := exists_row (I := I) (T := T) (rowName T (callMethodAndRead r).1)
      exact removed_not_unchanged (reachable_sorted [m]) hp hm (h [m])
  · intro hTidy ms
    rw [unchanged_of_tidy (reachable_sorted ms) hPath hOutside hTidy]
    exact ⟨rfl, rfl⟩

end Signals

section Steps

theorem confined_of_tidy (hs : Sorted I.name s.items) (hTidy : Tidy T m) : Confined I T s m := by
  have hFrame := fun n (hn : n ∉ touched T m) => (handle_advance (T := T) hs m).frame hn
  have hSignal : ∀ {path n : Str}, managerPath m = some path → n ∈ touched T m →
      path = objectPath T n := by
    intro path n hPath hn
    obtain ⟨p, hp, rfl⟩ := exists_lookup_of_touched hPath hn
    rw [← managerPath_of_mem_lookups hPath hp]
    exact below_rowName (hTidy p hp)
  constructor
  · intro n hChanged
    have hn : n ∈ touched T m := by
      by_contra hn
      rcases hChanged with hRow | hHistory
      · exact hRow (hFrame n hn).1
      · exact hHistory (hFrame n hn).2
    cases m with
    | update => exact trivial
    | propertiesChanged path => exact hn.symm
    | interfacesRemoved r => exact hSignal rfl hn
    | interfacesAdded r =>
      cases r with
      | error => exact hn
      | ok body => exact hSignal rfl hn
  · intro n hNone hSome
    have hn : n ∈ touched T m := by
      by_contra hn
      exact hSome ((hFrame n hn).1.trans hNone)
    have hNot : n ∉ s.names I := fun hMem => mem_names_iff.mp hMem hNone
    have hMem : n ∈ (handle I T s m).state.names I := mem_names_iff.mpr hSome
    cases m with
    | update subtree getAll =>
      rcases update_names_subset hs subtree getAll hMem with hOld | ⟨path, hKey, hLength, rfl⟩
      · exact absurd hOld hNot
      · rw [Announces, ← below_rowName (hTidy path ⟨hKey, hLength⟩)]
        exact hKey
    | propertiesChanged path r =>
      rw [handle, onPropertiesChanged_names] at hMem
      exact absurd hMem hNot
    | interfacesRemoved r =>
      rw [handle, onInterfacesRemoved_names hs hn.1 hn.2.2.1, if_pos hn.2.1] at hMem
      exact absurd hMem.1 hNot
    | interfacesAdded r =>
      cases r with
      | error => exact hn
      | ok body => exact hSignal rfl hn

end Steps

/-- Signals off the folder are harmless exactly when no row name is taken from
their path, and in a run of such messages every row belongs to its own object. -/
theorem rows_confined (I : ItemClass Row) (T : Config) :
    (∀ m path, managerPath m = some path → ¬ Below T path →
      ((∀ ms, Unchanged (run I T initial ms) (handle I T (run I T initial ms) m).state) ↔ Tidy T m)) ∧
    ∀ ms, (∀ m ∈ ms, Tidy T m) →
      (∀ before m, before ++ [m] <+: ms → Confined I T (run I T initial before) m) ∧
      ∀ m ∈ ms, ∀ m' ∈ ms, ∀ p ∈ lookups T m, ∀ p' ∈ lookups T m',
        rowName T p = rowName T p' → p = p' := by
  refine ⟨fun m path => unchanged_iff_tidy, fun ms hTidy => ⟨?_, ?_⟩⟩
  · intro before m hSeen
    have hMem : m ∈ ms := hSeen.subset (List.mem_append_right before List.mem_cons_self)
    exact confined_of_tidy (reachable_sorted before) (hTidy m hMem)
  · intro m hm m' hm' p hp p' hp' hName
    exact below_injective (hTidy m hm p hp) (hTidy m' hm' p' hp') hName

section Ambient

open Sensors

def announced (path : Str) (value : ℚ) : Message :=
  .interfacesAdded (.ok (path, OrdMap.ofList
    [(Str.lit "xyz.openbmc_project.Sensor.Value", OrdMap.ofList [(Str.lit "Value", .double value)])]))

def ambientPath : Str := objectPath (sensorsTable "temperature") (Str.lit "ambient")
def inletPath : Str := objectPath (sensorsTable "temperature") (Str.lit "inlet")

/-- A path that continues the folder's last component. -/
def siblingPath : Str := (sensorsTable "temperature").path ++ Str.lit "2ambient"

theorem rows_confined_at_ambient :
    (∀ before m, before ++ [m] <+: [announced (objectPath (sensorsTable "temperature")
        (Str.lit "ambient")) 27, announced (Str.lit "/xyz/openbmc_project/inventory") 0] →
      Confined (itemClass ambientObjid) (sensorsTable "temperature")
        (run (itemClass ambientObjid) (sensorsTable "temperature") initial before) m) ∧
    ∀ ms, Unchanged (run (itemClass ambientObjid) (sensorsTable "temperature") initial ms)
      (handle (itemClass ambientObjid) (sensorsTable "temperature")
        (run (itemClass ambientObjid) (sensorsTable "temperature") initial ms)
        (announced (Str.lit "/xyz/openbmc_project/inventory") 0)).state := by
  have hAmbient : Tidy (sensorsTable "temperature")
      (announced (objectPath (sensorsTable "temperature") (Str.lit "ambient")) 27) := by
    rintro p ⟨rfl, -⟩
    exact ⟨Str.lit "ambient", by decide, rfl⟩
  have hOff : Tidy (sensorsTable "temperature")
      (announced (Str.lit "/xyz/openbmc_project/inventory") 0) := by
    rintro p ⟨rfl, hPrefix, -⟩
    exact absurd hPrefix (by decide)
  have hOutside : ¬ Below (sensorsTable "temperature") (Str.lit "/xyz/openbmc_project/inventory") := by
    intro hBelow
    have hEq := below_rowName hBelow
    revert hEq
    decide
  obtain ⟨hSignals, hRuns⟩ := rows_confined (itemClass ambientObjid) (sensorsTable "temperature")
  refine ⟨(hRuns _ ?_).1, (hSignals _ _ rfl hOutside).mpr hOff⟩
  intro m hm
  rcases List.mem_cons.mp hm with rfl | hm
  · exact hAmbient
  · rw [List.mem_singleton.mp hm]
    exact hOff

theorem sibling_overwrites_ambient :
    managerPath (announced siblingPath 99) = some siblingPath ∧
      ¬ Below (sensorsTable "temperature") siblingPath ∧
      ¬ Unchanged
        (run (itemClass ambientObjid) (sensorsTable "temperature") initial
          [announced (objectPath (sensorsTable "temperature") (Str.lit "ambient")) 27])
        (handle (itemClass ambientObjid) (sensorsTable "temperature")
          (run (itemClass ambientObjid) (sensorsTable "temperature") initial
            [announced (objectPath (sensorsTable "temperature") (Str.lit "ambient")) 27])
          (announced siblingPath 99)).state := by
  refine ⟨rfl, fun hBelow => ?_, ?_⟩
  · have hEq := below_rowName hBelow
    revert hEq
    decide
  · unfold Unchanged
    decide

end Ambient

end YadroSnmp.Table
