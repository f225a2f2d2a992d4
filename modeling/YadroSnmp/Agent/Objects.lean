import YadroSnmp.Data.Confinement
import YadroSnmp.Data.Freshness
import YadroSnmp.Lib.Bank
import YadroSnmp.Yadro.PowerState
import YadroSnmp.Yadro.Software
import YadroSnmp.Yadro.TrapOids

/-! # The MIB objects of the agent

The power state, five sensor tables, the software and the inventory. The
folders of the tables are unrelated as paths, so a signal that passes the
test of one table fails the tests of the others.
-/

namespace YadroSnmp.Agent

open Snmp Table

/-- The tables; a sensor table by its place in the array `sensors`. -/
inductive TableId where
  | sensors (i : Fin Sensors.sensorsTables.length)
  | software
  | inventory
deriving DecidableEq

namespace TableId

def all : List TableId := List.ofFn sensors ++ [software, inventory]

def Row : TableId → Type
  | sensors _ => Sensors.Sensor
  | software => SoftwareVersions.Software
  | inventory => Inventory.InventoryItem

def config : TableId → Config
  | sensors i => Sensors.sensorsTable (Sensors.sensorsTables.get i).folder
  | software => SoftwareVersions.softwareTable
  | inventory => Inventory.inventoryTable

def itemClass (readObjid : ReadObjid) : (c : TableId) → ItemClass c.Row
  | sensors _ => Sensors.itemClass readObjid
  | software => SoftwareVersions.itemClass
  | inventory => Inventory.itemClass readObjid

def tableOid : TableId → OID
  | sensors i => (Sensors.sensorsTables.get i).tableOid
  | software => yadroOid [5]
  | inventory => Inventory.inventoryTableOid

def minColumn : TableId → Nat := fun _ => 1

def maxColumn : TableId → Nat
  | sensors _ => 7
  | software => 5
  | inventory => 10

def getSnmpReply : (c : TableId) → c.Row → Nat → Answer
  | sensors _ => Sensors.getSnmpReply
  | software => SoftwareVersions.getSnmpReply
  | inventory => Inventory.getSnmpReply

end TableId

inductive ObjectId where
  | powerState
  | table (c : TableId)
deriving DecidableEq

namespace ObjectId

def all : List ObjectId := powerState :: TableId.all.map table

abbrev State : ObjectId → Type
  | powerState => PowerState.State
  | table c => Table.State c.Row

def initial : (o : ObjectId) → o.State
  | powerState => PowerState.State.make
  | table _ => Table.initial

/-- The notification an object sends; the software table sends none. -/
def notifyOid : ObjectId → Option OID
  | powerState => some PowerState.notifyOid
  | table (.sensors i) => some (Sensors.notifyOid (TableId.sensors i).config.path)
  | table .software => none
  | table .inventory => some Inventory.notifyOid

end ObjectId

/-- What makes the agent act: a query of one of its objects, or a signal. The
match of the power state is for its own path and interface. -/
inductive Input where
  | power (input : Scalar.Input Str)
  | update (c : TableId) (subtree : Read Objects) (getAll : (service path : Str) → Read FieldsMap)
  | interfacesAdded (m : Read (Str × AddedData))
  | interfacesRemoved (m : Read (Str × List Str))
  | propertiesChanged (path : Str) (m : Read FieldsMap)

namespace Input

/-- What a table gets of an input: signals go to every table. -/
def message (c : TableId) : Input → Option Message
  | power _ => none
  | update c' subtree getAll => if c' = c then some (.update subtree getAll) else none
  | interfacesAdded m => some (.interfacesAdded m)
  | interfacesRemoved m => some (.interfacesRemoved m)
  | propertiesChanged path m => some (.propertiesChanged path m)

def toScalar : Input → Option (Scalar.Input Str)
  | power input => some input
  | _ => none

end Input

/-- The objects as machines that emit traps; an exception ends its handler only. -/
def objects (readObjid : ReadObjid) : Bank ObjectId.State Input Trap where
  step
    | .powerState, s, input => input.toScalar.elim s (PowerState.State.scalarClass.step s)
    | .table c, s, input =>
      (input.message c).elim s fun m => (handle (c.itemClass readObjid) c.config s m).state
  emit
    | .powerState, s, input =>
      input.toScalar.elim [] fun i =>
        (PowerState.State.scalarClass.step s i).traps.drop s.traps.length
    | .table c, s, input =>
      (input.message c).elim [] fun m =>
        ((handle (c.itemClass readObjid) c.config s m).state.log.drop s.log.length).flatMap Event.traps

def initial : Bank.Shared ObjectId.State Trap := ⟨ObjectId.initial, []⟩

/-- The agent after a sequence of inputs, its objects serving a signal in the given order. -/
def run (readObjid : ReadObjid) (order : List ObjectId) (inputs : List Input) :
    Bank.Shared ObjectId.State Trap :=
  (objects readObjid).run order initial inputs

def tableOf (path : Str) : Option TableId :=
  TableId.all.find? fun c => Str.startsWith path c.config.path

/-- The only object an input can change. -/
def Input.owner : Input → Option ObjectId
  | .power _ => some .powerState
  | .update c _ _ => some (.table c)
  | .interfacesAdded (.ok (path, _)) => (tableOf path).map .table
  | .interfacesAdded (.error _) => none
  | .interfacesRemoved m => (tableOf (callMethodAndRead m).1).map .table
  | .propertiesChanged path _ => (tableOf path).map .table

section All

theorem TableId.mem_all (c : TableId) : c ∈ TableId.all := by
  cases c with
  | sensors i => exact List.mem_append_left _ (List.mem_ofFn.mpr ⟨i, rfl⟩)
  | software => decide
  | inventory => decide

theorem ObjectId.mem_all (o : ObjectId) : o ∈ ObjectId.all := by
  cases o with
  | powerState => exact List.mem_cons_self
  | table c => exact List.mem_cons_of_mem _ (List.mem_map_of_mem c.mem_all)

theorem turns_all : Bank.Turns ObjectId.all := ⟨by decide, ObjectId.mem_all⟩

end All

section Folders

theorem folders_unrelated {c c' : TableId} (hNe : c ≠ c') : ¬ c.config.path <+: c'.config.path := by
  have hAll : ∀ c ∈ TableId.all, ∀ c' ∈ TableId.all, c ≠ c' → ¬ c.config.path <+: c'.config.path := by
    decide
  exact hAll c c.mem_all c' c'.mem_all hNe

theorem folder_unique {c c' : TableId} {path : Str} (h : c.config.path <+: path)
    (h' : c'.config.path <+: path) : c = c' := by
  by_contra hNe
  rcases List.prefix_or_prefix_of_prefix h h' with hLe | hLe
  · exact folders_unrelated hNe hLe
  · exact folders_unrelated (Ne.symm hNe) hLe

theorem folder_of_tableOf {c : TableId} {path : Str} (h : tableOf path = some c) :
    c.config.path <+: path := by
  unfold tableOf at h
  have hStarts := List.find?_some h
  exact Str.startsWith_iff.mp hStarts

theorem tableOf_eq_some_iff {c : TableId} {path : Str} :
    tableOf path = some c ↔ c.config.path <+: path := by
  constructor
  · exact folder_of_tableOf
  · intro h
    obtain ⟨c', hFind⟩ : ∃ c', tableOf path = some c' := by
      rw [← Option.isSome_iff_exists, tableOf, List.find?_isSome]
      exact ⟨c, c.mem_all, Str.startsWith_iff.mpr h⟩
    rw [hFind, folder_unique h (folder_of_tableOf hFind)]

end Folders

section Ambient

def temperature : TableId := .sensors ⟨0, by decide⟩

def ambientAdded : Input := .interfacesAdded (.ok (ambientPath, readingData 27))

def ambientRemoved : Input :=
  .interfacesRemoved (.ok (ambientPath, [Str.lit "xyz.openbmc_project.Sensor.Value"]))

def inletAdded : Input := .interfacesAdded (.ok (inletPath, readingData 20))

def powerChanged : Input :=
  .power (.propertyChanged (.ok (OrdMap.ofList [(Str.lit "CurrentHostState", Str.lit "On")])))

end Ambient

end YadroSnmp.Agent
