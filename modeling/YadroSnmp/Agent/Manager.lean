import YadroSnmp.Agent.Notifications
import YadroSnmp.Data.Provenance

/-! # What a manager learns from the traps

A manager that only listens keeps the last value sent under each OID. For every
cell that the agent announces this is what a GET of the cell would answer, and
for a cell without a row it is the value that stands for absence.
-/

namespace YadroSnmp

open Snmp Table ChangeLog

theorem Table.flatMap_traps {Row β : Type} {s : Table.State Row} {n : Str} {select : Trap → List β}
    (hOther : ∀ e ∈ s.log, e.name ≠ n → ∀ trap ∈ e.traps, select trap = []) :
    (s.log.flatMap Event.traps).flatMap select = (s.traps n).flatMap select := by
  rw [List.flatMap_assoc, State.traps, List.flatMap_assoc, State.history, Bank.flatMap_filter_of_nil]
  intro e he hName
  exact List.flatMap_eq_nil_iff.mpr (hOther e he (of_decide_eq_false hName))

namespace PowerState

/-- The last trap tells the number served, also when the strings behind it changed unnoticed. -/
theorem last_sent (inputs : List (Scalar.Input Str)) :
    (run inputs).sent.getLastD (.integer unknown) = (run inputs).exported := by
  induction inputs using List.reverseRecOn with
  | nil => rfl
  | append_singleton inputs input ih =>
    rw [run_snoc]
    cases State.make.arrival input with
    | none => exact ih
    | some var =>
      rw [Option.elim_some, sent_setValue, State.exported, State.toSNMPValue, value_setValue]
      split
      · rename_i hSame
        rw [List.append_nil, ih, State.exported, State.toSNMPValue, hSame]
      · exact List.getLastD_concat

end PowerState

namespace Agent

variable {net : NetSnmp} {readObjid : ReadObjid} {order : List ObjectId} {inputs : List Input} {c : TableId}
  {name : Str} {oid : OID}

def Input.HasPaths (input : Input) : Prop :=
  ∀ c m, input.message c = some m → ∀ path ∈ m.paths, IsPath path

/-- What the manager holds for an OID, from `absent` on. -/
def believed (s : Bank.Shared ObjectId.State Trap) (oid : OID) (absent : Value) : Value :=
  (known (pdus s) oid).getD absent

/-- The OIDs the agent sends notifications about, with the value of nothing there. -/
inductive Notified : OID → Value → Prop
  | power : Notified PowerState.stateOid (.integer PowerState.unknown)
  | state (i : Fin Sensors.sensorsTables.length) {name : Str} : IsPath name →
      FitsOid (TableId.sensors i).info name →
      Notified (instanceOid (TableId.sensors i).tableOid Sensors.columnState name) Sensors.SensorState.disabled.value
  | present {name : Str} : IsPath name → FitsOid TableId.inventory.info name →
      Notified (instanceOid TableId.inventory.tableOid Inventory.columnPresent name) (snmpBool false)
  | functional {name : Str} : IsPath name → FitsOid TableId.inventory.info name →
      Notified (instanceOid TableId.inventory.tableOid Inventory.columnFunctional name) (snmpBool false)

/-- A GET answers what the manager holds, or there is no such cell and the manager holds that. -/
def Mirrors (net : NetSnmp) (s : Bank.Shared ObjectId.State Trap) (oid : OID) (absent : Value) : Prop :=
  get net s oid = .answer (.value (believed s oid absent)) ∨
    get net s oid = .noSuchInstance ∧ believed s oid absent = absent

def tableRun (readObjid : ReadObjid) (c : TableId) (inputs : List Input) : Table.State c.Row :=
  Table.run (c.itemClass readObjid) c.config Table.initial (inputs.filterMap (Input.message c))

section Varbinds

variable (hRead : ∀ oid ∈ columnOids, ∀ name, IsPath name → ReadsQuoted readObjid oid name)
include hRead

theorem stateOid_of_fits (i : Fin Sensors.sensorsTables.length) (hName : IsPath name)
    (hFits : FitsOid (TableId.sensors i).info name) :
    Sensors.stateOid readObjid (TableId.sensors i).config.path name =
      instanceOid (TableId.sensors i).tableOid Sensors.columnState name := by
  have hT : Sensors.sensorsTables.get i ∈ Sensors.sensorsTables := List.get_mem _ i
  have hMem : (Sensors.sensorsTables.get i).tableOid ++ [1, Sensors.columnState] ∈ columnOids :=
    List.mem_append_left _ (List.mem_map_of_mem hT)
  have hLength := hFits Sensors.columnState
  rw [length_instanceOid] at hLength
  change Sensors.stateOid readObjid (Sensors.sensorsTable (Sensors.sensorsTables.get i).folder).path name = _
  rw [Sensors.stateOid_eq hT (hName.notMem (by decide)), makeOid_quotedText (hRead _ hMem name hName), if_pos]
  · rfl
  · rw [List.length_append]
    exact hLength

/-- A trap of a row names cells of that row, or no cell at all. -/
theorem varbinds_of_row (hName : IsPath name) :
    ∀ trap ∈ (tableRun readObjid c inputs).traps name, ∀ k ∈ trap.fields.map Prod.fst,
      k = [] ∨ ∃ column, k = instanceOid c.tableOid column name := by
  have hNul : 0 ∉ name := hName.notMem (by decide)
  have hReadName : ∀ oid ∈ columnOids, ReadsQuoted readObjid oid name := fun oid hOid =>
    hRead oid hOid name hName
  intro trap hTrap k hk
  cases c with
  | sensors i =>
    obtain ⟨hFields, hNe⟩ := Sensors.varbinds_of_run _ _ trap hTrap
    rw [hFields, List.mem_singleton] at hk
    rw [hk]
    exact .inr ⟨_, stateOid_served hNul hReadName (List.get_mem Sensors.sensorsTables i) hNe⟩
  | software =>
    change trap ∈ (Table.run SoftwareVersions.itemClass SoftwareVersions.softwareTable Table.initial
      (inputs.filterMap (Input.message .software))).traps name at hTrap
    rw [SoftwareVersions.traps_of_run_eq_nil] at hTrap
    cases hTrap
  | inventory =>
    rw [Inventory.varbinds_of_run _ trap hTrap] at hk
    have hColumn : ∀ column, column = Inventory.columnPresent ∨ column = Inventory.columnFunctional →
        Inventory.columnOid readObjid column name = [] ∨
          ∃ k, Inventory.columnOid readObjid column name = instanceOid TableId.inventory.tableOid k name := by
      intro column hColumn
      rw [columnOid_served hNul hReadName hColumn]
      split
      · exact .inr ⟨column, rfl⟩
      · exact .inl rfl
    rcases List.mem_pair.mp hk with rfl | rfl
    · exact hColumn _ (.inl rfl)
    · exact hColumn _ (.inr rfl)

variable (hPaths : ∀ input ∈ inputs, input.HasPaths)
include hPaths

omit hRead in
theorem isPath_of_mem_log {e : Event} (he : e ∈ (tableRun readObjid c inputs).log) : IsPath e.name := by
  obtain ⟨m, hm, path, hPath, hName⟩ := exists_path_of_mem_log he
  obtain ⟨input, hInput, hMessage⟩ := List.mem_filterMap.mp hm
  rw [hName]
  exact (hPaths input hInput c m hMessage path hPath).drop _

theorem varbinds_of_sentBy (o : ObjectId) : ∀ trap ∈ sentBy readObjid o inputs,
    ∀ k ∈ trap.fields.map Prod.fst, k = [] ∨ o.root <+: k := by
  intro trap hTrap k hk
  cases o with
  | powerState =>
    rw [(PowerState.trap_of_run _ trap hTrap).2, List.mem_singleton] at hk
    rw [hk]
    exact .inr List.prefix_rfl
  | table c =>
    obtain ⟨e, he, hSent⟩ := List.mem_flatMap.mp hTrap
    have hMem : trap ∈ (tableRun readObjid c inputs).traps e.name :=
      List.mem_flatMap.mpr ⟨e, List.mem_filter.mpr ⟨he, by simp⟩, hSent⟩
    rcases varbinds_of_row hRead (isPath_of_mem_log hPaths he) trap hMem k hk with hNil | ⟨column, rfl⟩
    · exact .inl hNil
    · exact .inr (tableOid_below c column e.name)

/-- Under an OID below its root only the object itself sends values. -/
theorem valuesAt_object (hOrder : Bank.Turns order) {o : ObjectId} (hRoot : o.root <+: oid) (hNe : oid ≠ []) :
    valuesAt (pdus (run readObjid order inputs)) oid =
      (sentBy readObjid o inputs).flatMap fun trap => trap.valuesAt oid := by
  rw [pdus, valuesAt_vars, ← emitted_eq]
  apply Bank.flatMap_log hOrder
  intro o' hOther trap hTrap
  rw [show (objects readObjid).emitted o' (initial.states o') inputs = _ from emitted_eq readObjid o' inputs] at hTrap
  refine Trap.valuesAt_of_ne fun hMem => ?_
  rcases varbinds_of_sentBy hRead hPaths o' trap hTrap oid hMem with hNil | hRoot'
  · exact hNe hNil
  · exact hOther (root_unique hRoot' hRoot)

theorem valuesAt_cell (hOrder : Bank.Turns order) (column : Nat) :
    valuesAt (pdus (run readObjid order inputs)) (instanceOid c.tableOid column name) =
      ((tableRun readObjid c inputs).traps name).flatMap
        fun trap => trap.valuesAt (instanceOid c.tableOid column name) := by
  have hNe : instanceOid c.tableOid column name ≠ [] := by simp [instanceOid]
  rw [valuesAt_object hRead hPaths hOrder (tableOid_below c column name) hNe]
  apply Table.flatMap_traps
  intro e he hOther trap hTrap
  refine Trap.valuesAt_of_ne fun hMem => ?_
  have hSent : trap ∈ (tableRun readObjid c inputs).traps e.name :=
    List.mem_flatMap.mpr ⟨e, List.mem_filter.mpr ⟨he, by simp⟩, hTrap⟩
  rcases varbinds_of_row hRead (isPath_of_mem_log hPaths he) trap hSent _ hMem with hNil | ⟨column', hSame⟩
  · exact hNe hNil
  · exact hOther (cell_inj hSame).2.2.symm

end Varbinds

section Knowledge

variable (hNet : net.Documented) (hOrder : Bank.Turns order) (hPaths : ∀ input ∈ inputs, input.HasPaths)
include hOrder

theorem rowOf_run (name : Str) :
    rowOf net.readObjid (run net.readObjid order inputs) c name =
      (tableRun net.readObjid c inputs).row (c.itemClass net.readObjid) name := by
  rw [rowOf, state_table hOrder]
  rfl

include hNet

theorem get_run {column : Nat} (hColumn : c.info.HasColumn column) (hFits : FitsOid c.info name) :
    get net (run net.readObjid order inputs) (instanceOid c.tableOid column name) =
      cellReply c column ((tableRun net.readObjid c inputs).row (c.itemClass net.readObjid) name) := by
  rw [get_cell hNet (sorted_rows hOrder net.readObjid inputs c) hColumn hFits, rowOf_run hOrder]

include hPaths

theorem believed_state (i : Fin Sensors.sensorsTables.length) (hName : IsPath name)
    (hFits : FitsOid (TableId.sensors i).info name) :
    believed (run net.readObjid order inputs)
        (instanceOid (TableId.sensors i).tableOid Sensors.columnState name) Sensors.SensorState.disabled.value =
      Sensors.exportedState ((tableRun net.readObjid (.sensors i) inputs).row
        (Sensors.itemClass net.readObjid) name) := by
  have hOid := stateOid_of_fits hNet.readObjid i hName hFits
  have hNe : instanceOid (TableId.sensors i).tableOid Sensors.columnState name ≠ [] := by simp [instanceOid]
  have hNotify : Sensors.notifyOid (TableId.sensors i).config.path ≠ [] :=
    Sensors.notifyOid_ne_nil (List.mem_map_of_mem (List.mem_map_of_mem
      (f := Sensors.SensorsTable.folder) (List.get_mem Sensors.sensorsTables i)))
  have hTracks := Sensors.slot_tracks hNotify (hOid ▸ hNe)
    (reachable_slot (I := Sensors.itemClass net.readObjid) (T := (TableId.sensors i).config)
      (inputs.filterMap (Input.message (.sensors i))) name)
  -- every varbind of the row carries the OID of its state
  have hCarried : ((tableRun net.readObjid (.sensors i) inputs).traps name).flatMap
      (fun trap => trap.valuesAt (instanceOid (TableId.sensors i).tableOid Sensors.columnState name)) =
      Sensors.sentStates ((tableRun net.readObjid (.sensors i) inputs).history name) := by
    rw [Sensors.sentStates, State.traps, List.flatMap_assoc]
    refine List.flatMap_congr fun e he => List.flatMap_congr fun trap hTrap => ?_
    apply Trap.valuesAt_of_forall
    intro k hk
    rw [(Sensors.varbinds_of_run _ _ trap (List.mem_flatMap.mpr ⟨e, he, hTrap⟩)).1, List.mem_singleton] at hk
    rw [hk, hOid]
  rw [believed, known, valuesAt_cell hNet.readObjid hPaths hOrder, hCarried, ← List.getLastD_eq_getLast?]
  exact hTracks.last

/-- A column whose varbind carries one part of the pair in every trap of the item. -/
theorem believed_part {column : Nat} (part : Bool × Bool → Bool) (hAbsent : part (false, false) = false)
    (hValues : ∀ trap ∈ (tableRun net.readObjid .inventory inputs).traps name,
      trap.valuesAt (instanceOid TableId.inventory.tableOid column name) =
        [snmpBool (part (Inventory.receivedPair trap))]) :
    believed (run net.readObjid order inputs)
        (instanceOid TableId.inventory.tableOid column name) (snmpBool false) =
      snmpBool (part (Inventory.believedPair ((tableRun net.readObjid .inventory inputs).row
        (Inventory.itemClass net.readObjid) name))) := by
  have hTracks := Inventory.slot_tracks
    (reachable_slot (I := Inventory.itemClass net.readObjid) (T := Inventory.inventoryTable)
      (inputs.filterMap (Input.message .inventory)) name)
  have hPairs : ((tableRun net.readObjid .inventory inputs).history name).flatMap Inventory.sentPairs =
      ((tableRun net.readObjid .inventory inputs).traps name).map Inventory.receivedPair :=
    List.map_flatMap.symm
  have hLast : (((tableRun net.readObjid .inventory inputs).traps name).map Inventory.receivedPair).getLastD
      (false, false) = Inventory.believedPair ((tableRun net.readObjid .inventory inputs).row
        (Inventory.itemClass net.readObjid) name) := hPairs ▸ hTracks.last
  rw [believed, known, valuesAt_cell hNet.readObjid hPaths hOrder, List.flatMap_congr hValues,
    ← List.map_eq_flatMap, List.getLast?_map, ← hLast, List.getLastD_eq_getLast?, List.getLast?_map]
  cases ((tableRun net.readObjid .inventory inputs).traps name).getLast? with
  | none => exact congrArg snmpBool hAbsent.symm
  | some trap => rfl

theorem believed_pair (hName : IsPath name) (hFits : FitsOid TableId.inventory.info name) :
    let pair := Inventory.believedPair ((tableRun net.readObjid .inventory inputs).row
      (Inventory.itemClass net.readObjid) name)
    believed (run net.readObjid order inputs)
        (instanceOid TableId.inventory.tableOid Inventory.columnPresent name) (snmpBool false) =
      snmpBool pair.1 ∧
    believed (run net.readObjid order inputs)
        (instanceOid TableId.inventory.tableOid Inventory.columnFunctional name) (snmpBool false) =
      snmpBool pair.2 := by
  intro pair
  have hShort : name.length ≤ 117 := by
    have hLength := fitsOid_iff.mp hFits
    simp [TableId.info, TableId.tableOid, Inventory.inventoryTableOid, yadroOid, maxOidLen] at hLength
    omega
  have hServed : ∀ column, column = Inventory.columnPresent ∨ column = Inventory.columnFunctional →
      Inventory.columnOid net.readObjid column name = instanceOid TableId.inventory.tableOid column name := by
    intro column hColumn
    rw [columnOid_served (hName.notMem (by decide)) (fun oid hOid => hNet.readObjid oid hOid name hName) hColumn,
      if_pos hShort]
    rfl
  have hPresent := hServed _ (.inl rfl)
  have hFunctional := hServed _ (.inr rfl)
  have hApart : instanceOid TableId.inventory.tableOid Inventory.columnPresent name ≠
      instanceOid TableId.inventory.tableOid Inventory.columnFunctional name := fun h =>
    absurd (instanceOid_inj h).1 (by decide)
  constructor
  · refine believed_part hNet hOrder hPaths Prod.fst rfl fun trap hTrap => ?_
    obtain ⟨item, present, functional, hItem, rfl⟩ := Inventory.sent_of_run _ trap hTrap
    rw [Inventory.receivedPair_trapOf]
    simp [Trap.valuesAt, Inventory.trapOf, hItem.present, hItem.functional, hPresent, hFunctional, hApart.symm]
  · refine believed_part hNet hOrder hPaths Prod.snd rfl fun trap hTrap => ?_
    obtain ⟨item, present, functional, hItem, rfl⟩ := Inventory.sent_of_run _ trap hTrap
    rw [Inventory.receivedPair_trapOf]
    simp [Trap.valuesAt, Inventory.trapOf, hItem.present, hItem.functional, hPresent, hFunctional, hApart]

theorem believed_power :
    believed (run net.readObjid order inputs) PowerState.stateOid (.integer PowerState.unknown) =
      (PowerState.run (inputs.filterMap Input.toScalar)).exported := by
  have hNe : PowerState.stateOid ≠ [] := by decide
  have hCarried : (sentBy net.readObjid .powerState inputs).flatMap
      (fun trap => trap.valuesAt PowerState.stateOid) =
        (PowerState.run (inputs.filterMap Input.toScalar)).sent := by
    refine List.flatMap_congr fun trap hTrap => Trap.valuesAt_of_forall ?_
    intro k hk
    rwa [(PowerState.trap_of_run _ trap hTrap).2, List.mem_singleton] at hk
  have hValues : valuesAt (pdus (run net.readObjid order inputs)) PowerState.stateOid =
      (PowerState.run (inputs.filterMap Input.toScalar)).sent :=
    (valuesAt_object hNet.readObjid hPaths hOrder (o := .powerState) List.prefix_rfl hNe).trans hCarried
  rw [believed, known, hValues, ← List.getLastD_eq_getLast?, PowerState.last_sent]

end Knowledge

section Cells

theorem cell_state (i : Fin Sensors.sensorsTables.length) (row : Option Sensors.Sensor) :
    cellReply (.sensors i) Sensors.columnState row = .answer (.value (Sensors.exportedState row)) ∨
      cellReply (.sensors i) Sensors.columnState row = .noSuchInstance ∧
        Sensors.exportedState row = Sensors.SensorState.disabled.value := by
  cases row with
  | none => exact .inr ⟨rfl, rfl⟩
  | some row => exact .inl rfl

/-- A column that serves one part of the pair. -/
theorem cell_part {column : Nat} (part : Bool × Bool → Bool) (hAbsent : part (false, false) = false)
    (hServed : ∀ item, Inventory.getSnmpReply item column =
      .value (snmpBool (part (item.present, item.functional)))) (item : Option Inventory.InventoryItem) :
    cellReply .inventory column item = .answer (.value (snmpBool (part (Inventory.believedPair item)))) ∨
      cellReply .inventory column item = .noSuchInstance ∧
        snmpBool (part (Inventory.believedPair item)) = snmpBool false := by
  cases item with
  | none => exact .inr ⟨rfl, congrArg snmpBool hAbsent⟩
  | some item => exact .inl (congrArg Reply.answer (hServed item))

end Cells

theorem Notified.mirrors (net : NetSnmp) (hNet : net.Documented) (hOrder : Bank.Turns order)
    (hPaths : ∀ input ∈ inputs, input.HasPaths) {absent : Value} (h : Notified oid absent) :
    Mirrors net (run net.readObjid order inputs) oid absent := by
  unfold Mirrors
  cases h with
  | power =>
    left
    rw [get_power hNet, state_power hOrder, believed_power hNet hOrder hPaths]
    rfl
  | @state i name hName hFits =>
    have hColumn : (TableId.sensors i).info.HasColumn Sensors.columnState := by
      simp [TableInfo.HasColumn, TableId.info, TableId.minColumn, TableId.maxColumn, Sensors.columnState]
    rw [get_run hNet hOrder hColumn hFits, believed_state hNet hOrder hPaths i hName hFits]
    exact cell_state i _
  | @present name hName hFits =>
    have hColumn : TableId.inventory.info.HasColumn Inventory.columnPresent := by decide
    rw [get_run hNet hOrder hColumn hFits, (believed_pair hNet hOrder hPaths hName hFits).1]
    exact cell_part Prod.fst rfl (fun _ => rfl) _
  | @functional name hName hFits =>
    have hColumn : TableId.inventory.info.HasColumn Inventory.columnFunctional := by decide
    rw [get_run hNet hOrder hColumn hFits, (believed_pair hNet hOrder hPaths hName hFits).2]
    exact cell_part Prod.snd rfl (fun _ => rfl) _

/-- In every run of the agent, a manager that listens to the traps holds, for every
cell they are about, what a GET of the cell answers, or the value of its absence. -/
theorem manager_mirrors (net : NetSnmp) (hNet : net.Documented) (hOrder : Bank.Turns order)
    (inputs : List Input) (hPaths : ∀ input ∈ inputs, input.HasPaths) {absent : Value}
    (h : Notified oid absent) : Mirrors net (run net.readObjid order inputs) oid absent :=
  h.mirrors net hNet hOrder hPaths

/-- A manager that outlives processes of the agent can be wrong about what is absent
now, from before this process, and about nothing else. -/
theorem outdated_only_if_absent (net : NetSnmp) (hNet : net.Documented) (hOrder : Bank.Turns order)
    (old : List (List Varbind)) (inputs : List Input) (hPaths : ∀ input ∈ inputs, input.HasPaths)
    {absent : Value} (h : Notified oid absent) :
    let s := run net.readObjid order inputs
    let held := (known (old ++ pdus s) oid).getD absent
    get net s oid = .answer (.value held) ∨
      (get net s oid = .noSuchInstance ∨ get net s oid = .answer (.value absent)) ∧
        (held = absent ∨ some held = known old oid) := by
  intro s held
  have hMirrors : Mirrors net s oid absent := h.mirrors net hNet hOrder hPaths
  have hHeld : held = ((known (pdus s) oid).or (known old oid)).getD absent :=
    congrArg (Option.getD · absent) (known_append old (pdus s) oid)
  unfold Mirrors believed at hMirrors
  cases hKnown : known (pdus s) oid with
  | some value =>
    rw [hKnown, Option.some_or, Option.getD_some] at hHeld
    rw [hKnown, Option.getD_some, ← hHeld] at hMirrors
    rcases hMirrors with hSame | ⟨hGone, hAbsent⟩
    · exact .inl hSame
    · exact .inr ⟨.inl hGone, .inl hAbsent⟩
  | none =>
    -- this process sent nothing about the cell, so it is absent
    rw [hKnown, Option.none_or] at hHeld
    rw [hKnown, Option.getD_none] at hMirrors
    refine .inr ⟨hMirrors.symm.imp_left And.left, ?_⟩
    cases hOld : known old oid with
    | none =>
      rw [hOld, Option.getD_none] at hHeld
      exact .inl hHeld
    | some value =>
      rw [hOld, Option.getD_some] at hHeld
      exact .inr (congrArg some hHeld)

section Ambient

theorem hasPaths_added {path : Str} {data : AddedData} (h : IsPath path) :
    (Input.interfacesAdded (.ok (path, data))).HasPaths := by
  rintro c m hMessage p hPath
  cases hMessage
  rw [Message.paths, List.mem_singleton] at hPath
  exact hPath ▸ h

theorem ambientAdded_hasPaths : ambientAdded.HasPaths := hasPaths_added (by decide)

theorem ambient_mirrored :
    Mirrors referenceNetSnmp (run referenceNetSnmp.readObjid ObjectId.all [ambientAdded])
      (instanceOid temperature.tableOid Sensors.columnState (Str.lit "ambient"))
      Sensors.SensorState.disabled.value := by
  apply manager_mirrors referenceNetSnmp referenceNetSnmp_documented turns_all
  · exact List.forall_mem_singleton.mpr ambientAdded_hasPaths
  · exact .state ⟨0, by decide⟩ (by decide) (fitsOid_iff.mpr (by decide))

theorem powerChanged_hasPaths : powerChanged.HasPaths := by
  rintro c m hMessage
  cases hMessage

/-- The process that announced the sensor is gone. The next one has met another
sensor and the host, and not this one. -/
theorem ambient_outdated :
    let oid := instanceOid temperature.tableOid Sensors.columnState (Str.lit "ambient")
    let absent := Sensors.SensorState.disabled.value
    let old := pdus (run referenceNetSnmp.readObjid ObjectId.all [ambientAdded])
    let s := run referenceNetSnmp.readObjid ObjectId.all [inletAdded, powerChanged]
    let held := (known (old ++ pdus s) oid).getD absent
    get referenceNetSnmp s oid = .answer (.value held) ∨
      (get referenceNetSnmp s oid = .noSuchInstance ∨ get referenceNetSnmp s oid = .answer (.value absent)) ∧
        (held = absent ∨ some held = known old oid) := by
  apply outdated_only_if_absent referenceNetSnmp referenceNetSnmp_documented turns_all
  · rintro input hInput
    rcases List.mem_pair.mp hInput with rfl | rfl
    · exact hasPaths_added (by decide)
    · exact powerChanged_hasPaths
  · exact .state ⟨0, by decide⟩ (by decide) (fitsOid_iff.mpr (by decide))

end Ambient

end Agent

end YadroSnmp
