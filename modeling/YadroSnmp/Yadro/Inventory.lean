import YadroSnmp.Lib.ChangeLog
import YadroSnmp.Data.Field
import YadroSnmp.Data.Handlers

/-! # Inventory rows

The row class of the inventory table, and what a receiver of its traps knows.
Creation is silent, removal reports only an item that was present or
functional, and yet the last trap of a name always tells the current pair.
-/

namespace YadroSnmp.Inventory

open Snmp Table Labelled ChangeLog

structure InventoryItem where
  name : Str
  prettyName : Str
  manufacturer : Str
  buildDate : Str
  model : Str
  partNumber : Str
  serialNumber : Str
  version : Str
  present : Bool
  functional : Bool
  presentOid : OID
  functionalOid : OID
deriving DecidableEq

def notifyOid : OID := yadroOid [0, 7]

def columnPresent : Nat := 9
def columnFunctional : Nat := 10

def columnOid (readObjid : ReadObjid) (column : Nat) (name : Str) : OID :=
  makeOid readObjid (Str.lit ".1.3.6.1.4.1.49769.4.1." ++ formatUlong column ++ Str.lit ".\"" ++
    formatCStr name ++ Str.lit "\"")

def make (readObjid : ReadObjid) (_folder name : Str) : InventoryItem where
  name := name
  prettyName := []
  manufacturer := []
  buildDate := []
  model := []
  partNumber := []
  serialNumber := []
  version := []
  present := false
  functional := false
  presentOid := columnOid readObjid columnPresent name
  functionalOid := columnOid readObjid columnFunctional name

def assignFields (item : InventoryItem) (fields : FieldsMap) : InventoryItem :=
  { item with
    prettyName := setField fields (Str.lit "PrettyName") item.prettyName
    manufacturer := setField fields (Str.lit "Manufacturer") item.manufacturer
    buildDate := setField fields (Str.lit "BuildDate") item.buildDate
    model := setField fields (Str.lit "Model") item.model
    partNumber := setField fields (Str.lit "PartNumber") item.partNumber
    serialNumber := setField fields (Str.lit "SerialNumber") item.serialNumber
    version := setField fields (Str.lit "Version") item.version
    present := setField fields (Str.lit "Present") item.present
    functional := setField fields (Str.lit "Functional") item.functional }

def trapOf (item : InventoryItem) (present functional : Bool) : Trap :=
  ⟨notifyOid, [(item.presentOid, snmpBool present), (item.functionalOid, snmpBool functional)]⟩

def setFields (item : InventoryItem) (fields : FieldsMap) : Reaction InventoryItem :=
  let isPresent := item.present
  let isFunctional := item.functional
  let item := assignFields item fields
  { row := item
    traps :=
      if isPresent ≠ item.present ∨ isFunctional ≠ item.functional then
        [trapOf item item.present item.functional]
      else []
    raised := none }

def onCreate (_item : InventoryItem) : List Trap := []

def onDestroy (item : InventoryItem) : List Trap :=
  if item.present || item.functional then [trapOf item false false] else []

/-- `get_snmp_reply`, by column number. -/
def getSnmpReply (item : InventoryItem) (colnum : Nat) : Answer :=
  match colnum with
  | 1 => .value (.octetStr item.name)
  | 2 => .value (.octetStr item.prettyName)
  | 3 => .value (.octetStr item.manufacturer)
  | 4 => .value (.octetStr item.buildDate)
  | 5 => .value (.octetStr item.model)
  | 6 => .value (.octetStr item.partNumber)
  | 7 => .value (.octetStr item.serialNumber)
  | 8 => .value (.octetStr item.version)
  | 9 => .value (snmpBool item.present)
  | 10 => .value (snmpBool item.functional)
  | _ => .noSuchObject

def itemClass (readObjid : ReadObjid) : ItemClass InventoryItem where
  name := InventoryItem.name
  make := make readObjid
  setFields := setFields
  onCreate := onCreate
  onDestroy := onDestroy
  name_make _ _ := rfl
  name_setFields _ _ := rfl

def fields : List (Field InventoryItem) :=
  [.typed "PrettyName" InventoryItem.prettyName, .typed "Manufacturer" InventoryItem.manufacturer,
    .typed "BuildDate" InventoryItem.buildDate, .typed "Model" InventoryItem.model,
    .typed "PartNumber" InventoryItem.partNumber, .typed "SerialNumber" InventoryItem.serialNumber,
    .typed "Version" InventoryItem.version, .typed "Present" InventoryItem.present,
    .typed "Functional" InventoryItem.functional]

def fieldClass (readObjid : ReadObjid) : FieldClass InventoryItem where
  toItemClass := itemClass readObjid
  fields := fields
  assigned := by
    intro f hf row map _
    simp only [fields, List.mem_cons, List.not_mem_nil, or_false] at hf
    obtain rfl | rfl | rfl | rfl | rfl | rfl | rfl | rfl | rfl := hf
    all_goals exact Field.typed_assigned rfl

def rowClass (readObjid : ReadObjid) : RowClass InventoryItem where
  toFieldClass := fieldClass readObjid
  core item := (item.name, item.presentOid, item.functionalOid)
  core_setFields _ _ := rfl
  ext := by
    intro item item' hCore hFields
    have hFields' : ∀ f ∈ fields, f.get item = f.get item' := hFields
    simp only [fields, List.forall_mem_cons, Field.typed] at hFields'
    cases item
    cases item'
    simp_all
  refused _ := False
  raised_iff _ _ := by simp [fieldClass, itemClass, setFields]

def inventoryTable : Config where
  path := Str.lit "/xyz/openbmc_project/inventory"
  interfaces :=
    [Str.lit "xyz.openbmc_project.Inventory.Item",
      Str.lit "xyz.openbmc_project.Inventory.Decorator.Asset",
      Str.lit "xyz.openbmc_project.Inventory.Decorator.Revision",
      Str.lit "xyz.openbmc_project.State.Decorator.OperationalStatus"]

/-- The pair (present, functional) read from the two varbinds of a trap. -/
def receivedPair (trap : Trap) : Bool × Bool :=
  (trap.carried[0]? = some (snmpBool true), trap.carried[1]? = some (snmpBool true))

def sentPairs (e : Event) : List (Bool × Bool) := e.traps.map receivedPair

/-- What a receiver should believe of a name: nothing is present without a row. -/
def believedPair : Option InventoryItem → Bool × Bool
  | none => (false, false)
  | some item => (item.present, item.functional)

@[simp] theorem receivedPair_trapOf (item : InventoryItem) (present functional : Bool) :
    receivedPair (trapOf item present functional) = (present, functional) := by
  cases present <;> cases functional <;> rfl

section Slot

variable {readObjid : ReadObjid} {folder name : Str}

/-- Each call sends the change it makes to the believed pair. -/
theorem pairs_of_step {s t : Option InventoryItem} {e : Event}
    (h : Slot.Step (itemClass readObjid) folder name s e t) :
    sentPairs e = entry (believedPair s) (believedPair t) := by
  cases h with
  | create => rfl
  | setFields item fields =>
    change (setFields item fields).traps.map receivedPair = entry (item.present, item.functional)
      ((assignFields item fields).present, (assignFields item fields).functional)
    by_cases hSame : item.present = (assignFields item fields).present ∧
        item.functional = (assignFields item fields).functional
    · simp [setFields, entry, ← hSame.1, ← hSame.2]
    · have hne : (item.present, item.functional) ≠
          ((assignFields item fields).present, (assignFields item fields).functional) :=
        fun h => hSame (Prod.mk.inj h)
      have hOr := not_and_or.mp hSame
      simp [setFields, entry, hne, hOr]
  | destroy item =>
    change (onDestroy item).map receivedPair = entry (item.present, item.functional) (false, false)
    cases hPresent : item.present <;> cases hFunctional : item.functional <;>
      simp [onDestroy, entry, hPresent, hFunctional]

theorem slot_tracks {calls : List Event} {s : Option InventoryItem}
    (h : Run (Slot.Step (itemClass readObjid) folder name) none calls s) :
    Tracks (false, false) (calls.flatMap sentPairs) (believedPair s) :=
  tracks_of_run believedPair sentPairs (P := fun _ => True)
    (fun _ _ _ _ _ => trivial) (fun _ _ _ _ => pairs_of_step) trivial h

end Slot

/-- In every run of the inventory table, replaying the traps of a name gives
the pair stored in its row, or nothing present without a row, and every trap is news. -/
theorem replayed_pair (readObjid : ReadObjid) (ms : List Message) (name : Str) :
    let s := run (itemClass readObjid) inventoryTable initial ms
    let pairs := (s.traps name).map receivedPair
    (∀ item, s.row (itemClass readObjid) name = some item →
      pairs.getLastD (false, false) = (item.present, item.functional)) ∧
    (s.row (itemClass readObjid) name = none → pairs.getLastD (false, false) = (false, false)) ∧
    ((false, false) :: pairs).IsChain (· ≠ ·) := by
  intro s pairs
  have hTracks := slot_tracks (reachable_slot (I := itemClass readObjid) (T := inventoryTable) ms name)
  have hPairs : pairs = (s.history name).flatMap sentPairs :=
    List.map_flatMap
  rw [hPairs]
  refine ⟨?_, ?_, hTracks.chain⟩
  · intro item hRow
    rw [hRow] at hTracks
    exact hTracks.last
  · intro hRow
    rw [hRow] at hTracks
    exact hTracks.last

end YadroSnmp.Inventory
