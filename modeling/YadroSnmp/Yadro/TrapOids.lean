import YadroSnmp.Data.View
import YadroSnmp.Yadro.Inventory
import YadroSnmp.Yadro.SensorHistory

/-! # The OIDs of state varbinds

Traps name instances by OIDs read from formatted text, apart from the OIDs the
tables are registered with. The two agree as long as the text can be read; what
happens to a longer name is decided where the trap is sent.
-/

namespace YadroSnmp

open Snmp Table Labelled

namespace Snmp

/-- `MAX_OID_LEN` -/
def maxOidLen : Nat := 128

/-- A string as an index of a table: its length and its bytes. -/
def stringIndex (name : Str) : OID := name.length :: name.map UInt8.toNat

/-- The OID under which a column of the row called `name` is served. -/
def instanceOid (tableOid : OID) (column : Nat) (name : Str) : OID :=
  tableOid ++ [1, column] ++ stringIndex name

def dotted (oid : OID) : Str := oid.flatMap fun n => Str.lit "." ++ formatUlong n

def quotedText (oid : OID) (name : Str) : Str := dotted oid ++ Str.lit ".\"" ++ name ++ Str.lit "\""

/-- `read_objid` turns the quoted name into its length and its bytes, unless the result is too long. -/
def ReadsQuoted (readObjid : ReadObjid) (oid : OID) (name : Str) : Prop :=
  readObjid (quotedText oid name) =
    if (oid ++ stringIndex name).length ≤ maxOidLen then some (oid ++ stringIndex name) else none

theorem makeOid_quotedText {readObjid : ReadObjid} {oid : OID} {name : Str}
    (h : ReadsQuoted readObjid oid name) :
    makeOid readObjid (quotedText oid name) =
      if oid.length + 1 + name.length ≤ maxOidLen then oid ++ stringIndex name else [] := by
  have hLength : (oid ++ stringIndex name).length = oid.length + 1 + name.length := by
    simp [stringIndex]
    omega
  rw [makeOid, h, hLength]
  split
  · rename_i hRead
    split at hRead
    · cases hRead
      rename_i hFits
      rw [if_pos hFits]
    · cases hRead
  · rename_i hRead
    split at hRead
    · cases hRead
    · rename_i hFits
      rw [if_neg hFits]

theorem formatCStr_eq {name : Str} (hName : 0 ∉ name) : formatCStr name = name := by
  rw [formatCStr, List.takeWhile_eq_self_iff]
  intro b hb
  exact bne_iff_ne.mpr (ne_of_mem_of_not_mem hb hName)

end Snmp

namespace Sensors

/-- `SensorsTable`: the folder, and the OID the table is registered with. -/
structure SensorsTable where
  folder : String
  tableOid : OID

def sensorsTables : List SensorsTable :=
  [⟨"temperature", yadroOid [1, 2]⟩, ⟨"voltage", yadroOid [1, 3]⟩, ⟨"fan_tach", yadroOid [1, 4]⟩,
    ⟨"current", yadroOid [1, 5]⟩, ⟨"power", yadroOid [1, 6]⟩]

variable {readObjid : ReadObjid} {folder name : Str} {s : Sensor} {trap : Trap}

/-- The format string spells out the column OID of the registration. -/
theorem stateOid_eq {T : SensorsTable} (hT : T ∈ sensorsTables) (hName : 0 ∉ name) :
    stateOid readObjid (sensorsTable T.folder).path name =
      makeOid readObjid (quotedText (T.tableOid ++ [1, columnState]) name) := by
  rw [stateOid, formatCStr_eq hName]
  simp only [sensorsTables, List.mem_cons, List.not_mem_nil, or_false] at hT
  obtain rfl | rfl | rfl | rfl | rfl := hT
  all_goals rfl

theorem varbinds_of_sendNotify {state : SensorState} (h : trap ∈ sendNotify s state) :
    trap.fields.map Prod.fst = [s.stateOid] ∧ s.stateOid ≠ [] := by
  unfold sendNotify at h
  split at h
  · rename_i hOids
    rw [List.mem_singleton.mp h]
    exact ⟨rfl, hOids.2⟩
  · cases h

theorem varbinds_of_step {s t : Option Sensor} {e : Event}
    (hs : ∀ row ∈ s, RowOids readObjid folder name row)
    (h : Slot.Step (itemClass readObjid) folder name s e t) :
    ∀ trap ∈ e.traps, trap.fields.map Prod.fst = [stateOid readObjid folder name] ∧
      stateOid readObjid folder name ≠ [] := by
  intro trap hTrap
  cases h with
  | create => exact varbinds_of_sendNotify hTrap
  | setFields row fields =>
    have hTrap : trap ∈ (setFields row fields).traps := hTrap
    rw [← (hs row rfl).state]
    unfold setFields at hTrap
    simp only at hTrap
    split at hTrap
    · exact varbinds_of_sendNotify hTrap
    · cases hTrap
  | destroy row =>
    rw [← (hs row rfl).state]
    exact varbinds_of_sendNotify hTrap

/-- A sensor sends no trap unless its state OID could be read. -/
theorem varbinds_of_run (T : Config) (ms : List Message) :
    ∀ trap ∈ (run (itemClass readObjid) T initial ms).traps name,
      trap.fields.map Prod.fst = [stateOid readObjid T.path name] ∧ stateOid readObjid T.path name ≠ [] := by
  exact traps_of_run (P := fun s => ∀ row ∈ s, RowOids readObjid T.path name row) (by simp)
    (fun _ _ _ => rowOids_of_step) (fun _ _ _ => varbinds_of_step) ms

end Sensors

namespace Inventory

def inventoryTableOid : OID := yadroOid [4]

variable {readObjid : ReadObjid} {folder name : Str} {item : InventoryItem}

structure RowOids (readObjid : ReadObjid) (name : Str) (item : InventoryItem) : Prop where
  present : item.presentOid = columnOid readObjid columnPresent name
  functional : item.functionalOid = columnOid readObjid columnFunctional name

theorem columnOid_eq {column : Nat} (hName : 0 ∉ name)
    (hColumn : column = columnPresent ∨ column = columnFunctional) :
    columnOid readObjid column name =
      makeOid readObjid (quotedText (inventoryTableOid ++ [1, column]) name) := by
  rw [columnOid, formatCStr_eq hName]
  rcases hColumn with rfl | rfl
  · rfl
  · rfl

theorem rowOids_of_step {s t : Option InventoryItem} {e : Event}
    (hs : ∀ item ∈ s, RowOids readObjid name item)
    (h : Slot.Step (itemClass readObjid) folder name s e t) : ∀ item ∈ t, RowOids readObjid name item := by
  cases h with
  | create =>
    rintro _ ⟨⟩
    exact ⟨rfl, rfl⟩
  | setFields item fields =>
    rintro _ ⟨⟩
    exact ⟨(hs item rfl).present, (hs item rfl).functional⟩
  | destroy item => rintro _ ⟨⟩

theorem RowOids.varbinds (h : RowOids readObjid name item) (present functional : Bool) :
    (trapOf item present functional).fields.map Prod.fst =
      [columnOid readObjid columnPresent name, columnOid readObjid columnFunctional name] := by
  rw [← h.present, ← h.functional]
  rfl

theorem varbinds_of_step {s t : Option InventoryItem} {e : Event}
    (hs : ∀ item ∈ s, RowOids readObjid name item)
    (h : Slot.Step (itemClass readObjid) folder name s e t) :
    ∀ trap ∈ e.traps, trap.fields.map Prod.fst =
      [columnOid readObjid columnPresent name, columnOid readObjid columnFunctional name] := by
  have ht := rowOids_of_step hs h
  intro trap hTrap
  cases h with
  | create => cases hTrap
  | setFields item fields =>
    have hTrap : trap ∈ (setFields item fields).traps := hTrap
    unfold setFields at hTrap
    simp only at hTrap
    split at hTrap
    · rw [List.mem_singleton.mp hTrap]
      exact (ht _ rfl).varbinds _ _
    · cases hTrap
  | destroy item =>
    have hTrap : trap ∈ onDestroy item := hTrap
    unfold onDestroy at hTrap
    split at hTrap
    · rw [List.mem_singleton.mp hTrap]
      exact (hs item rfl).varbinds _ _
    · cases hTrap

/-- An item sends its traps with whatever became of its OIDs. -/
theorem varbinds_of_run (ms : List Message) :
    ∀ trap ∈ (run (itemClass readObjid) inventoryTable initial ms).traps name,
      trap.fields.map Prod.fst =
        [columnOid readObjid columnPresent name, columnOid readObjid columnFunctional name] := by
  exact traps_of_run (P := fun s => ∀ item ∈ s, RowOids readObjid name item) (by simp)
    (fun _ _ _ => rowOids_of_step) (fun _ _ _ => varbinds_of_step) ms

def presentAdded (name : Str) : Message :=
  .interfacesAdded (.ok (objectPath inventoryTable name,
    .ofList [(Str.lit "xyz.openbmc_project.Inventory.Item", .ofList [(Str.lit "Present", .bool true)])]))

theorem traps_presentAdded (name : Str) :
    (run (itemClass readObjid) inventoryTable initial [presentAdded name]).traps name =
      [trapOf (make readObjid inventoryTable.path name) true false] := by
  obtain ⟨⟨-, hView, -⟩, -⟩ := handle_view (I := itemClass readObjid) (T := inventoryTable) initial_sorted
    (m := presentAdded name) rfl
  have hHistory := congrArg View.history hView
  change (run (itemClass readObjid) inventoryTable initial [presentAdded name]).history name = _ at hHistory
  rw [State.traps, hHistory]
  rfl

end Inventory

open Inventory (inventoryTable inventoryTableOid columnPresent columnFunctional)

def columnOids : List OID :=
  (Sensors.sensorsTables.map fun T => T.tableOid ++ [1, Sensors.columnState]) ++
    [inventoryTableOid ++ [1, columnPresent], inventoryTableOid ++ [1, columnFunctional]]

/-- In every run every state varbind of a trap of the name has the OID its column is served under. -/
structure VarbindsServed (readObjid : ReadObjid) (name : Str) : Prop where
  sensors : ∀ T ∈ Sensors.sensorsTables, ∀ ms, ∀ trap ∈
    (run (Sensors.itemClass readObjid) (Sensors.sensorsTable T.folder) initial ms).traps name,
    trap.fields.map Prod.fst = [instanceOid T.tableOid Sensors.columnState name]
  inventory : ∀ ms, ∀ trap ∈ (run (Inventory.itemClass readObjid) inventoryTable initial ms).traps name,
    trap.fields.map Prod.fst =
      [instanceOid inventoryTableOid columnPresent name, instanceOid inventoryTableOid columnFunctional name]

section Served

variable {readObjid : ReadObjid} {name : Str} (hName : 0 ∉ name)
  (hRead : ∀ oid ∈ columnOids, ReadsQuoted readObjid oid name)
include hName hRead

theorem stateOid_served {T : Sensors.SensorsTable} (hT : T ∈ Sensors.sensorsTables)
    (hNe : Sensors.stateOid readObjid (Sensors.sensorsTable T.folder).path name ≠ []) :
    Sensors.stateOid readObjid (Sensors.sensorsTable T.folder).path name =
      instanceOid T.tableOid Sensors.columnState name := by
  have hMem : T.tableOid ++ [1, Sensors.columnState] ∈ columnOids :=
    List.mem_append_left _ (List.mem_map_of_mem hT)
  rw [Sensors.stateOid_eq hT hName, makeOid_quotedText (hRead _ hMem)] at hNe ⊢
  split at hNe
  · rename_i hFits
    rw [if_pos hFits]
    rfl
  · exact absurd rfl hNe

theorem columnOid_served {column : Nat} (hColumn : column = columnPresent ∨ column = columnFunctional) :
    Inventory.columnOid readObjid column name =
      if name.length ≤ 117 then instanceOid inventoryTableOid column name else [] := by
  have hMem : inventoryTableOid ++ [1, column] ∈ columnOids := by
    rcases hColumn with rfl | rfl
    · decide
    · decide
  have hLength : (inventoryTableOid ++ [1, column]).length + 1 + name.length ≤ maxOidLen ↔
      name.length ≤ 117 := by
    simp [inventoryTableOid, yadroOid, maxOidLen]
    omega
  rw [Inventory.columnOid_eq hName hColumn, makeOid_quotedText (hRead _ hMem), if_congr hLength rfl rfl]
  rfl

end Served

/-- The varbinds name the instances of the row exactly for names that fit an OID
after the columns of the inventory. Names are parts of object paths, which have no NUL. -/
theorem varbindsServed_iff (readObjid : ReadObjid) (name : Str) (hName : 0 ∉ name)
    (hRead : ∀ oid ∈ columnOids, ReadsQuoted readObjid oid name) :
    VarbindsServed readObjid name ↔ name.length ≤ 117 := by
  have hPresent := columnOid_served hName hRead (.inl rfl)
  have hFunctional := columnOid_served hName hRead (.inr rfl)
  constructor
  · intro h
    by_contra hLong
    -- The item of a longer name sends its first trap under two empty OIDs.
    have hTrap := h.inventory [Inventory.presentAdded name]
      (Inventory.trapOf (Inventory.make readObjid inventoryTable.path name) true false)
      (by simp [Inventory.traps_presentAdded])
    obtain ⟨hFirst, -⟩ := List.cons.inj hTrap
    change Inventory.columnOid readObjid columnPresent name = _ at hFirst
    rw [hPresent, if_neg hLong] at hFirst
    simp [instanceOid] at hFirst
  · intro hShort
    refine ⟨fun T hT ms trap hTrap => ?_, fun ms trap hTrap => ?_⟩
    · obtain ⟨hFields, hNe⟩ := Sensors.varbinds_of_run _ ms trap hTrap
      rw [hFields, stateOid_served hName hRead hT hNe]
    · rw [Inventory.varbinds_of_run ms trap hTrap, hPresent, hFunctional, if_pos hShort, if_pos hShort]

def readDigit (oid : OID) (b : UInt8) : Option OID :=
  if b = '.'.toUInt8 then some (oid ++ [0])
  else if '0'.toUInt8 ≤ b ∧ b ≤ '9'.toUInt8 then
    some (oid.dropLast ++ [10 * oid.getLastD 0 + (b.toNat - '0'.toUInt8.toNat)])
  else none

/-- A reader of textual OIDs that end in a quoted string. -/
def readObjidQuoted (text : Str) : Option OID := do
  let oid ← (text.takeWhile (· != '"'.toUInt8)).foldlM readDigit []
  let name := ((text.dropWhile (· != '"'.toUInt8)).drop 1).takeWhile (· != '"'.toUInt8)
  let result := oid.dropLast ++ stringIndex name
  if result.length ≤ maxOidLen then some result else none

theorem split_quote {s : Str} (h : '"'.toUInt8 ∉ s) (rest : Str) :
    (s ++ '"'.toUInt8 :: rest).takeWhile (· != '"'.toUInt8) = s ∧
      (s ++ '"'.toUInt8 :: rest).dropWhile (· != '"'.toUInt8) = '"'.toUInt8 :: rest := by
  have hPos : ∀ b ∈ s, (b != '"'.toUInt8) = true := fun b hb =>
    bne_iff_ne.mpr (ne_of_mem_of_not_mem hb h)
  rw [List.takeWhile_append_of_pos hPos, List.dropWhile_append_of_pos hPos]
  exact ⟨by simp, by simp⟩

theorem readDigit_dotted : ∀ oid ∈ columnOids,
    '"'.toUInt8 ∉ dotted oid ++ Str.lit "." ∧
      (dotted oid ++ Str.lit ".").foldlM readDigit [] = some (oid ++ [0]) := by
  decide +kernel

theorem readsQuoted_readObjidQuoted {oid : OID} (hOid : oid ∈ columnOids) {name : Str}
    (hQuote : '"'.toUInt8 ∉ name) : ReadsQuoted readObjidQuoted oid name := by
  obtain ⟨hPlain, hRead⟩ := readDigit_dotted oid hOid
  have hText : quotedText oid name =
      (dotted oid ++ Str.lit ".") ++ '"'.toUInt8 :: (name ++ '"'.toUInt8 :: []) := by
    have hDot : Str.lit ".\"" = Str.lit "." ++ ['"'.toUInt8] := by decide
    rw [quotedText, hDot]
    simp [show Str.lit "\"" = ['"'.toUInt8] by decide]
  obtain ⟨hOidText, hRest⟩ := split_quote hPlain (name ++ '"'.toUInt8 :: [])
  obtain ⟨hNameText, -⟩ := split_quote hQuote []
  unfold ReadsQuoted readObjidQuoted
  rw [hText, hOidText, hRest, hRead, List.drop_one, List.tail_cons, hNameText]
  simp

theorem ambient_varbindsServed : VarbindsServed readObjidQuoted (Str.lit "ambient") :=
  (varbindsServed_iff readObjidQuoted (Str.lit "ambient") (by decide)
    fun _ hOid => readsQuoted_readObjidQuoted hOid (by decide)).mpr (by decide)

/-- An item with a name of 118 bytes announces itself under empty OIDs. -/
theorem long_name_unserved :
    let name := List.replicate 118 'a'.toUInt8
    (∀ oid ∈ columnOids, ReadsQuoted readObjidQuoted oid name) ∧
      ((run (Inventory.itemClass readObjidQuoted) inventoryTable initial
          [Inventory.presentAdded name]).traps name).map Trap.fields =
        [[([], snmpBool true), ([], snmpBool false)]] ∧
      ¬ VarbindsServed readObjidQuoted name := by
  intro name
  have hBytes : ∀ b ≠ 'a'.toUInt8, b ∉ name := fun b hb hMem => hb (List.eq_of_mem_replicate hMem)
  have hName : 0 ∉ name := hBytes 0 (by decide)
  have hRead : ∀ oid ∈ columnOids, ReadsQuoted readObjidQuoted oid name := fun _ hOid =>
    readsQuoted_readObjidQuoted hOid (hBytes _ (by decide))
  have hLong : ¬ name.length ≤ 117 := by
    rw [List.length_replicate]
    decide
  have hTraps : ((run (Inventory.itemClass readObjidQuoted) inventoryTable initial
      [Inventory.presentAdded name]).traps name).map Trap.fields =
        [[([], snmpBool true), ([], snmpBool false)]] := by
    have hPresent := columnOid_served hName hRead (.inl rfl)
    have hFunctional := columnOid_served hName hRead (.inr rfl)
    rw [if_neg hLong] at hPresent hFunctional
    rw [Inventory.traps_presentAdded, List.map_singleton]
    simp [Inventory.trapOf, Inventory.make, hPresent, hFunctional]
  refine ⟨hRead, hTraps, fun h => ?_⟩
  obtain ⟨trap, hTrap, hFields⟩ : ∃ trap ∈ (run (Inventory.itemClass readObjidQuoted) inventoryTable initial
      [Inventory.presentAdded name]).traps name, trap.fields = [([], snmpBool true), ([], snmpBool false)] :=
    List.mem_map.mp (hTraps ▸ List.mem_singleton.mpr rfl)
  have hServed := h.inventory _ trap hTrap
  rw [hFields] at hServed
  simp [instanceOid] at hServed

end YadroSnmp
