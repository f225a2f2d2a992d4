import YadroSnmp.Data.Freshness
import YadroSnmp.Data.Raising
import YadroSnmp.Data.SameRow
import YadroSnmp.Yadro.Inventory
import YadroSnmp.Yadro.Software

/-! # The row types of the agent

Sensors, software and inventory items, and what holds of a table of any of them:
which messages make its handlers raise, and that a row does not depend on the
way it was built.
-/

namespace YadroSnmp

open Snmp Table

inductive RowType where
  | sensor
  | software
  | inventoryItem

namespace RowType

def Row : RowType → Type
  | .sensor => Sensors.Sensor
  | .software => SoftwareVersions.Software
  | .inventoryItem => Inventory.InventoryItem

def rowClass (readObjid : ReadObjid) : (t : RowType) → RowClass t.Row
  | .sensor => Sensors.rowClass readObjid
  | .software => SoftwareVersions.rowClass
  | .inventoryItem => Inventory.rowClass readObjid

def itemClass (readObjid : ReadObjid) (t : RowType) : ItemClass t.Row :=
  (t.rowClass readObjid).toItemClass

end RowType

/-- In every reachable table a signal is handled to the end unless it is taken
for one of the table's and comes from the folder itself, or makes a row take a
map it refuses; no access to a map or a variant throws. -/
theorem handlers_normal_iff (readObjid : ReadObjid) (t : RowType) (T : Config) (ms : List Message) :
    let R := t.rowClass readObjid
    let s := run R.toItemClass T initial ms
    (∀ path data, (handle R.toItemClass T s (.interfacesAdded (.ok (path, data)))).raised = none ↔
      (T.path <+: path → isOwned T data.keys = true →
        path ≠ T.path ∧ ∀ map ∈ data.maps, ¬ R.refused map)) ∧
    (∀ path interfaces,
      (handle R.toItemClass T s (.interfacesRemoved (.ok (path, interfaces)))).raised = none ↔
        (isOwned T interfaces = true → path ≠ T.path)) ∧
    (∀ path fields, (handle R.toItemClass T s (.propertiesChanged path (.ok fields))).raised = none ↔
      ∀ n ∈ s.names R.toItemClass, path = objectPath T n → ¬ R.refused fields) ∧
    ∀ (α : Type) [HoldsAlternative α] (fields : FieldsMap) (propertyName : Str),
      guardedAccess α fields propertyName = some (fields.typed α propertyName) := by
  intro R s
  have hs : KeyedList.Sorted R.name s.items := reachable_sorted ms
  exact ⟨onInterfacesAdded_normal_iff hs, onInterfacesRemoved_normal_iff hs,
    onPropertiesChanged_normal_iff hs, fun _ _ => guardedAccess_eq⟩

def barePurpose : AddedData :=
  OrdMap.ofList [(Str.lit "xyz.openbmc_project.Software.Version",
    OrdMap.ofList [(Str.lit "Purpose", .string SoftwareVersions.purpose.base)])]

/-- The folder announced as a sensor, and a version whose purpose is the bare name of its type. -/
theorem announcements_raise :
    (handle (Sensors.itemClass Sensors.ambientObjid) (Sensors.sensorsTable "temperature") initial
        (announced (Sensors.sensorsTable "temperature").path 27)).raised = some .outOfRange ∧
      (handle SoftwareVersions.itemClass SoftwareVersions.softwareTable initial
        (.interfacesAdded (.ok (objectPath SoftwareVersions.softwareTable (Str.lit "1a2b"),
          barePurpose)))).raised = some .outOfRange := by
  decide

/-- A row has the same fields, and with them the same columns, whether an
announcement or a refresh built it from the properties of its object. -/
theorem built_rows_equal (readObjid : ReadObjid) (t : RowType) (T : Config) (s : State t.Row) (n : Str)
    (data : AddedData) (answer : Objects) (services : OrdMap Str (List Str))
    (getAll : (service path : Str) → Read FieldsMap) (hosts : Str → Set Str)
    (hReachable : ∃ ms, s = run (t.itemClass readObjid) T initial ms)
    (hNew : s.row (t.itemClass readObjid) n = none) (hOwned : isOwned T data.keys = true)
    (hSome : data.keys ≠ []) (hDisjoint : DisjointProperties data)
    (hBelow : ∀ path ∈ answer.keys, Below T path)
    (hAnswer : answer.find? (objectPath T n) = some services)
    (hSplits : Splits data services.keys hosts fun service =>
      callMethodAndRead (getAll service (objectPath T n)))
    (hAdded : (onInterfacesAdded (t.itemClass readObjid) T s (.ok (objectPath T n, data))).raised = none)
    (hUpdated : (update (t.itemClass readObjid) T s (.ok answer) getAll).raised = none) :
    ∃ row,
      (onInterfacesAdded (t.itemClass readObjid) T s (.ok (objectPath T n, data))).state.row
        (t.itemClass readObjid) n = some row ∧
      (update (t.itemClass readObjid) T s (.ok answer) getAll).state.row (t.itemClass readObjid) n =
        some row := by
  obtain ⟨ms, rfl⟩ := hReachable
  exact added_row_eq_updated_row (reachable_sorted ms) hNew hOwned hSome hDisjoint
    (fun path hPath => ⟨_, below_rowName (hBelow path hPath)⟩) hAnswer hSplits hAdded hUpdated

section Ambient

open Sensors

def warningLimit : FieldsMap := OrdMap.ofList [(Str.lit "WarningHigh", .double 40)]

def ambientData : AddedData :=
  OrdMap.ofList [(Str.lit "xyz.openbmc_project.Sensor.Value", reading 27),
    (Str.lit "xyz.openbmc_project.Sensor.Threshold.Warning", warningLimit)]

def ambientServices : OrdMap Str (List Str) :=
  OrdMap.ofList [(Str.lit "hwmon", [Str.lit "xyz.openbmc_project.Sensor.Value"]),
    (Str.lit "limits", [Str.lit "xyz.openbmc_project.Sensor.Threshold.Warning"])]

def splitAnswer : Objects := OrdMap.ofList [(ambientPath, ambientServices)]

def splitGetAll : (service path : Str) → Read FieldsMap := fun service _ =>
  .ok (if service = Str.lit "hwmon" then reading 27 else warningLimit)

def splitHosts : Str → Set Str := fun service =>
  { iface | iface ∈ (ambientServices.find? service).getD [] }

theorem splitHosts_eq {service iface : Str} (h : (ambientServices.find? service).getD [] = [iface]) :
    splitHosts service = {iface} := by
  ext i
  rw [splitHosts, Set.mem_ofPred_eq, h, List.mem_singleton, Set.mem_singleton_iff]

theorem ambient_splits :
    Splits ambientData ambientServices.keys splitHosts fun service =>
      callMethodAndRead (splitGetAll service ambientPath) := by
  have hEntries : ambientData.entries =
      [(Str.lit "xyz.openbmc_project.Sensor.Threshold.Warning", warningLimit),
        (Str.lit "xyz.openbmc_project.Sensor.Value", reading 27)] := by decide
  have hServices : ambientServices.keys = [Str.lit "hwmon", Str.lit "limits"] := by decide
  have hHwmon : splitHosts (Str.lit "hwmon") = {Str.lit "xyz.openbmc_project.Sensor.Value"} :=
    splitHosts_eq (by decide)
  have hLimits : splitHosts (Str.lit "limits") =
      {Str.lit "xyz.openbmc_project.Sensor.Threshold.Warning"} :=
    splitHosts_eq (by decide)
  have hNe : Str.lit "xyz.openbmc_project.Sensor.Threshold.Warning" ≠
      Str.lit "xyz.openbmc_project.Sensor.Value" := by decide
  constructor
  · rw [OrdMap.keys, hEntries, hServices]
    simp [hHwmon, hLimits]
  · rw [hServices, hEntries]
    have hOther : Str.lit "limits" ≠ Str.lit "hwmon" := by decide
    simp [hHwmon, hLimits, splitGetAll, callMethodAndRead, hNe, hNe.symm, hOther]

theorem ambient_built_equal :
    ∃ row,
      (onInterfacesAdded (RowType.itemClass ambientObjid .sensor) (sensorsTable "temperature") initial
        (.ok (ambientPath, ambientData))).state.row (RowType.itemClass ambientObjid .sensor)
          (Str.lit "ambient") = some row ∧
      (update (RowType.itemClass ambientObjid .sensor) (sensorsTable "temperature") initial
        (.ok splitAnswer) splitGetAll).state.row (RowType.itemClass ambientObjid .sensor)
          (Str.lit "ambient") = some row := by
  have hDisjoint : DisjointProperties ambientData := by
    unfold DisjointProperties
    decide
  have hAnswer : splitAnswer.find? ambientPath = some ambientServices := by
    change (OrdMap.emplace ∅ ambientPath ambientServices).find? ambientPath = some ambientServices
    rw [OrdMap.find?_emplace, if_pos rfl]
    rfl
  refine built_rows_equal ambientObjid .sensor (sensorsTable "temperature") initial (Str.lit "ambient")
    ambientData splitAnswer ambientServices splitGetAll splitHosts ⟨[], rfl⟩ rfl (by decide) (by decide)
    hDisjoint ?_ hAnswer ambient_splits (by decide) (by decide)
  intro path hPath
  have hKeys : splitAnswer.keys = [ambientPath] := by decide
  rw [hKeys, List.mem_singleton] at hPath
  exact ⟨Str.lit "ambient", by decide, hPath⟩

end Ambient

end YadroSnmp
