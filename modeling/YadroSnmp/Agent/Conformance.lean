import Mathlib.Tactic.IntervalCases
import YadroSnmp.Agent.Manager
import YadroSnmp.Agent.Walks

/-! # The types of the values

A cell holds a string, an integer of 32 bits, or a code of an enumeration, by
its column. Whatever the bus delivers, the agent answers and sends values of
these types.
-/

namespace YadroSnmp

open Snmp Table Labelled

def DBusEnum.codes {α : Type} (e : DBusEnum α) : List α := e.wrongValue :: e.values.entries.map Prod.snd

theorem DBusEnum.get_mem_codes {α : Type} {e : DBusEnum α} {str : Str} {value : α} (h : e.get str = .ok value) :
    value ∈ e.codes := by
  by_cases hPrefix : e.base <+: str
  · obtain ⟨rest, rfl⟩ := hPrefix
    cases rest with
    | nil =>
      rw [List.append_nil, get_base] at h
      cases h
    | cons c name =>
      rw [get_append] at h
      cases h
      cases hFind : e.values.find? name with
      | none => exact List.mem_cons_self
      | some value =>
        exact List.mem_cons_of_mem _ (List.mem_map_of_mem (OrdMap.find?_eq_some_iff.mp hFind))
  · rw [ get_of_not_prefix hPrefix] at h
    cases h
    exact List.mem_cons_self

namespace SoftwareVersions

structure Known (s : Software) : Prop where
  purpose : s.purpose ∈ purpose.codes
  activation : s.activation ∈ activation.codes

theorem setFieldEnum_mem {map : FieldsMap} {field : Str} {e : DBusEnum UInt8} {old value : UInt8}
    (hOld : old ∈ e.codes) (h : setFieldEnum map field e old = .ok value) : value ∈ e.codes := by
  unfold setFieldEnum at h
  split at h
  · exact DBusEnum.get_mem_codes h
  · cases h
    exact hOld

theorem known_make (folder name : Str) : Known (make folder name) :=
  ⟨List.mem_cons_self, List.mem_cons_self⟩

theorem Known.setFields {s : Software} (h : Known s) (map : FieldsMap) : Known (setFields s map).row := by
  unfold SoftwareVersions.setFields
  dsimp only
  split
  · exact ⟨h.purpose, h.activation⟩
  · rename_i p hPurpose
    have hp := setFieldEnum_mem h.purpose hPurpose
    split
    · exact ⟨hp, h.activation⟩
    · rename_i a hActivation
      exact ⟨hp, setFieldEnum_mem h.activation hActivation⟩

theorem known_of_run {ms : List Message} {name : Str} :
    ∀ s ∈ (Table.run itemClass softwareTable Table.initial ms).row itemClass name, Known s := by
  refine (reachable_slot ms name).preserves (P := fun row => ∀ s ∈ row, Known s) ?_ (by simp)
  intro row e row' h hStep s hs
  cases hStep with
  | create =>
    cases hs
    exact known_make softwareTable.path name
  | setFields row fields =>
    cases hs
    exact (h row rfl).setFields fields
  | destroy => cases hs

end SoftwareVersions

namespace Agent

inductive MibType where
  | displayString
  | integer32
  | enumerated (codes : List Int)

def MibType.Admits : MibType → Value → Prop
  | displayString, .octetStr _ => True
  | integer32, .integer k => -2 ^ 31 ≤ k ∧ k < 2 ^ 31
  | enumerated codes, .integer k => k ∈ codes
  | _, _ => False

instance (type : MibType) (value : Value) : Decidable (type.Admits value) :=
  match type, value with
  | .displayString, .octetStr _ => inferInstanceAs (Decidable True)
  | .displayString, .integer _ => inferInstanceAs (Decidable False)
  | .integer32, .octetStr _ => inferInstanceAs (Decidable False)
  | .integer32, .integer _ => inferInstanceAs (Decidable (_ ∧ _))
  | .enumerated _, .octetStr _ => inferInstanceAs (Decidable False)
  | .enumerated _, .integer _ => inferInstanceAs (Decidable (_ ∈ _))

/-- A value of the type, or the result of a conversion that has none. -/
inductive Served : MibType → Answer → Prop
  | value {type : MibType} {value : Value} : type.Admits value → Served type (.value value)
  | undefined : Served .integer32 .undefined

/-- unknown, off and on -/
def powerType : MibType := .enumerated [-1, 0, 1]

/-- disabled, normal, warningLow, warningHigh, criticalLow and criticalHigh -/
def stateType : MibType := .enumerated [0, 1, 2, 3, 4, 5]

def truthValue : MibType := .enumerated [1, 2]

/-- The types of the columns; the enumerations of versions have a code for what is not known. -/
def TableId.columnType : TableId → Nat → MibType
  | sensors _, 1 => .displayString
  | sensors _, 7 => stateType
  | sensors _, _ => .integer32
  | software, 3 => .enumerated [0, 1, 2, 3, 4, 255]
  | software, 4 => .enumerated [0, 1, 2, 3, 4, 5, 255]
  | software, 5 => .integer32
  | software, _ => .displayString
  | inventory, 9 => truthValue
  | inventory, 10 => truthValue
  | inventory, _ => .displayString

/-- The varbinds of a notification: which it is, and cells with values of their
types. An instance that has no OID is sent without one. -/
inductive WellTyped : Varbind → Prop
  | notification (o : ObjectId) {oid : OID} : o.notifyOid = some oid → WellTyped ⟨snmptrapOid, .objectId oid⟩
  | power {value : Value} : powerType.Admits value → WellTyped ⟨PowerState.stateOid, .value value⟩
  | cell (c : TableId) (column : Nat) (name : Str) {value : Value} : c.info.HasColumn column →
      (c.columnType column).Admits value → WellTyped ⟨instanceOid c.tableOid column name, .value value⟩
  | nameless {value : Value} : truthValue.Admits value → WellTyped ⟨[], .value value⟩

section Rows

theorem served_value (row : Sensors.Sensor) (field : ℚ) : Served .integer32 (Sensors.getValue row field) := by
  unfold Sensors.getValue
  split
  · rename_i hRange
    exact .value hRange
  · exact .undefined

theorem admits_state (state : Sensors.SensorState) : stateType.Admits state.value := by
  cases state <;> decide

theorem admits_bool (value : Bool) : truthValue.Admits (snmpBool value) := by
  cases value <;> decide

theorem served_code {e : DBusEnum UInt8} {value : UInt8} {codes : List Int} (h : value ∈ e.codes)
    (hCodes : (e.codes.all fun value => (value.toNat : Int) ∈ codes) = true) :
    Served (.enumerated codes) (.value (.integer value.toNat)) :=
  .value (of_decide_eq_true (List.all_eq_true.mp hCodes value h))

def TableId.Known : (c : TableId) → c.Row → Prop
  | sensors _, _ => True
  | software, s => SoftwareVersions.Known s
  | inventory, _ => True

theorem served_row (c : TableId) (row : c.Row) {column : Nat} (hColumn : c.info.HasColumn column)
    (hKnown : c.Known row) : Served (c.columnType column) (c.getSnmpReply row column) := by
  obtain ⟨hMin, hMax⟩ := hColumn
  cases c with
  | sensors i =>
    change 1 ≤ column at hMin
    change column ≤ 7 at hMax
    interval_cases column
    · exact .value trivial
    · exact served_value _ _
    · exact served_value _ _
    · exact served_value _ _
    · exact served_value _ _
    · exact served_value _ _
    · exact .value (admits_state _)
  | software =>
    change 1 ≤ column at hMin
    change column ≤ 5 at hMax
    interval_cases column
    · exact .value trivial
    · exact .value trivial
    · exact served_code hKnown.purpose (by decide)
    · exact served_code hKnown.activation (by decide)
    · have hByte := row.priority.toNat_lt
      exact .value ⟨by omega, by omega⟩
  | inventory =>
    change 1 ≤ column at hMin
    change column ≤ 10 at hMax
    interval_cases column
    · exact .value trivial
    · exact .value trivial
    · exact .value trivial
    · exact .value trivial
    · exact .value trivial
    · exact .value trivial
    · exact .value trivial
    · exact .value trivial
    · exact .value (admits_bool _)
    · exact .value (admits_bool _)

theorem known_row (readObjid : ReadObjid) (c : TableId) (inputs : List Input) (name : Str) :
    ∀ row ∈ (tableRun readObjid c inputs).row (c.itemClass readObjid) name, c.Known row := by
  cases c with
  | sensors i => exact fun _ _ => trivial
  | software => exact SoftwareVersions.known_of_run
  | inventory => exact fun _ _ => trivial

end Rows

section Traps

variable {readObjid : ReadObjid} {order : List ObjectId} {inputs : List Input} {name : Str}

def Trap.Typed (trap : Trap) : Prop := ∀ field ∈ trap.fields, WellTyped ⟨field.1, .value field.2⟩

theorem admits_number (value : Str) : powerType.Admits (.integer (PowerState.number value)) := by
  unfold PowerState.number
  split_ifs
  all_goals decide

theorem typed_power (inputs : List (Scalar.Input Str)) :
    ∀ trap ∈ (PowerState.run inputs).traps, Trap.Typed trap := by
  induction inputs using List.reverseRecOn with
  | nil =>
    rintro trap ⟨⟩
  | append_singleton inputs input ih =>
    rw [PowerState.run_snoc]
    cases PowerState.State.make.arrival input with
    | none => exact ih
    | some var =>
      rw [Option.elim_some, PowerState.State.setValue]
      dsimp only
      split
      · intro trap hTrap
        rcases List.mem_append.mp hTrap with hOld | hNew
        · exact ih trap hOld
        · rw [List.mem_singleton.mp hNew]
          exact List.forall_mem_singleton.mpr (.power (admits_number _))
      · exact ih

theorem fields_of_sendNotify {s : Sensors.Sensor} {state : Sensors.SensorState} {trap : Trap}
    (h : trap ∈ Sensors.sendNotify s state) : trap.fields = [(s.stateOid, state.value)] ∧ s.stateOid ≠ [] := by
  unfold Sensors.sendNotify at h
  split at h
  · rename_i hOids
    rw [List.mem_singleton.mp h]
    exact ⟨rfl, hOids.2⟩
  · cases h

variable (hRead : ∀ oid ∈ columnOids, ∀ name, IsPath name → ReadsQuoted readObjid oid name)
include hRead

theorem typed_sensors (i : Fin Sensors.sensorsTables.length) (hName : IsPath name) :
    ∀ trap ∈ (tableRun readObjid (.sensors i) inputs).traps name, Trap.Typed trap := by
  refine traps_of_run
    (P := fun s => ∀ row ∈ s, Sensors.RowOids readObjid (TableId.sensors i).config.path name row) (by simp)
    (fun _ _ _ => Sensors.rowOids_of_step) (fun s e t hs hStep trap hTrap => ?_) _
  obtain ⟨row, state, hRow, hSent⟩ := Sensors.sent_of_step hs hStep trap hTrap
  obtain ⟨hFields, hNe⟩ := fields_of_sendNotify hSent
  rw [hRow.state] at hFields hNe
  have hOid := stateOid_served (hName.notMem (by decide)) (fun oid hOid => hRead oid hOid name hName)
    (List.get_mem Sensors.sensorsTables i) hNe
  rw [Trap.Typed, hFields, List.forall_mem_singleton]
  change WellTyped ⟨Sensors.stateOid readObjid (Sensors.sensorsTable (Sensors.sensorsTables.get i).folder).path
    name, .value state.value⟩
  rw [hOid]
  have hColumn : (TableId.sensors i).info.HasColumn Sensors.columnState :=
    ⟨show 1 ≤ Sensors.columnState by decide, show Sensors.columnState ≤ 7 by decide⟩
  exact .cell (.sensors i) Sensors.columnState name hColumn (admits_state state)

theorem typed_column {column : Nat} (value : Bool) (hName : IsPath name)
    (hColumn : column = Inventory.columnPresent ∨ column = Inventory.columnFunctional) :
    WellTyped ⟨Inventory.columnOid readObjid column name, .value (snmpBool value)⟩ := by
  rw [columnOid_served (hName.notMem (by decide)) (fun oid hOid => hRead oid hOid name hName) hColumn]
  split
  · obtain rfl | rfl := hColumn
    · exact .cell .inventory Inventory.columnPresent name (by decide) (admits_bool value)
    · exact .cell .inventory Inventory.columnFunctional name (by decide) (admits_bool value)
  · exact .nameless (admits_bool value)

theorem typed_inventory (hName : IsPath name) :
    ∀ trap ∈ (tableRun readObjid .inventory inputs).traps name, Trap.Typed trap := by
  intro trap hTrap
  obtain ⟨item, present, functional, hRow, rfl⟩ := Inventory.sent_of_run _ trap hTrap
  rw [Trap.Typed, Inventory.trapOf, List.forall_mem_cons, List.forall_mem_singleton, hRow.present, hRow.functional]
  exact ⟨typed_column hRead present hName (.inl rfl), typed_column hRead functional hName (.inr rfl)⟩

theorem typed_sentBy (hPaths : ∀ input ∈ inputs, input.HasPaths) (o : ObjectId) :
    ∀ trap ∈ sentBy readObjid o inputs, Trap.Typed trap := by
  cases o with
  | powerState => exact typed_power _
  | table c =>
    intro trap hTrap
    obtain ⟨e, he, hSent⟩ := List.mem_flatMap.mp hTrap
    have hName := isPath_of_mem_log hPaths he
    have hMem : trap ∈ (tableRun readObjid c inputs).traps e.name :=
      List.mem_flatMap.mpr ⟨e, List.mem_filter.mpr ⟨he, by simp⟩, hSent⟩
    cases c with
    | sensors i => exact typed_sensors hRead i hName trap hMem
    | software =>
      change trap ∈ (Table.run SoftwareVersions.itemClass SoftwareVersions.softwareTable Table.initial
        (inputs.filterMap (Input.message .software))).traps e.name at hMem
      rw [SoftwareVersions.traps_of_run_eq_nil] at hMem
      cases hMem
    | inventory => exact typed_inventory hRead hName trap hMem

theorem typed_pdus (hOrder : Bank.Turns order) (hPaths : ∀ input ∈ inputs, input.HasPaths) :
    ∀ pdu ∈ pdus (run readObjid order inputs), ∀ v ∈ pdu, WellTyped v := by
  intro pdu hPdu
  obtain ⟨trap, hTrap, rfl⟩ := List.mem_map.mp hPdu
  obtain hNone | ⟨o, hSent⟩ := (Bank.mem_log hOrder).mp hTrap
  · cases hNone
  · have hSent : trap ∈ sentBy readObjid o inputs := emitted_eq readObjid o inputs ▸ hSent
    rw [Trap.vars_eq, List.forall_mem_cons, List.forall_mem_map]
    exact ⟨.notification o (notifyOid_of_sentBy readObjid o inputs trap hSent),
      typed_sentBy hRead hPaths o trap hSent⟩

end Traps

structure Conforms (net : NetSnmp) (order : List ObjectId) (inputs : List Input) : Prop where
  power : ∃ value, get net (run net.readObjid order inputs) PowerState.stateOid = .answer (.value value) ∧
    powerType.Admits value
  cells : ∀ (c : TableId) (name : Str) (column : Nat), c.info.HasColumn column → FitsOid c.info name →
    get net (run net.readObjid order inputs) (instanceOid c.tableOid column name) = .noSuchInstance ∨
      ∃ answer, get net (run net.readObjid order inputs) (instanceOid c.tableOid column name) =
        .answer answer ∧ Served (c.columnType column) answer
  walks : ∀ (c : TableId) (oid next : OID) (reply : Reply), NamesFit net order c inputs →
    getNext net c (run net.readObjid order inputs) oid = some (next, reply) →
    ∃ name column answer, next = instanceOid c.tableOid column name ∧ reply = .answer answer ∧
      Served (c.columnType column) answer
  traps : ∀ pdu ∈ pdus (run net.readObjid order inputs), ∀ v ∈ pdu, WellTyped v

/-- Whatever the bus has delivered, all answers and traps conform. -/
theorem values_conform (net : NetSnmp) (hNet : net.Documented) {order : List ObjectId} (hOrder : Bank.Turns order)
    (inputs : List Input) (hPaths : ∀ input ∈ inputs, input.HasPaths) : Conforms net order inputs where
  power := ⟨_, get_power hNet _, admits_number _⟩
  cells c name column hColumn hFits := by
    rw [get_run hNet hOrder hColumn hFits]
    have hKnown := known_row net.readObjid c inputs name
    cases hRow : (tableRun net.readObjid c inputs).row (c.itemClass net.readObjid) name with
    | none => exact .inl rfl
    | some row => exact .inr ⟨_, rfl, served_row c row hColumn (hKnown row hRow)⟩
  walks c oid next reply hFit hNext := by
    obtain ⟨-, name, column, row, hColumn, hRow, hOid, hReply⟩ := getNext_some hNet hOrder hFit hNext
    rw [rowAfter, rowOf_run hOrder] at hRow
    have hKnown := known_row net.readObjid c inputs name row hRow
    exact ⟨name, column, _, hOid, hReply, served_row c row hColumn hKnown⟩
  traps := typed_pdus hNet.readObjid hOrder hPaths

theorem ambient_conforms : Conforms referenceNetSnmp ObjectId.all [ambientAdded] :=
  values_conform referenceNetSnmp referenceNetSnmp_documented turns_all [ambientAdded]
    (List.forall_mem_singleton.mpr ambientAdded_hasPaths)

end Agent

end YadroSnmp
