import Mathlib.Data.List.Find
import YadroSnmp.Agent.Dispatch
import YadroSnmp.Agent.NetSnmp

/-! # Requests to the agent

The subtrees the objects register are unrelated, so an OID lies in one of them
at most. A GET of a cell is answered from the row whose name the OID spells,
whatever the order of the rows in the vector and of the signals before.
-/

namespace YadroSnmp.Agent

open Snmp Table KeyedList

def TableId.info (c : TableId) : TableInfo := ⟨c.tableOid, c.minColumn, c.maxColumn⟩

def ObjectId.root : ObjectId → OID
  | powerState => PowerState.stateOid
  | table c => c.tableOid

def registrations : List (OID × ObjectId) := ObjectId.all.map fun o => (o.root, o)

/-- The rows of a table as its hooks serve them, by `walk_points`. -/
def points (readObjid : ReadObjid) (s : Bank.Shared ObjectId.State Trap) (c : TableId) :
    List (DataPoint c.Row) :=
  State.points (c.itemClass readObjid) (s.states (.table c))

def tableReply (c : TableId) (request : Request c.Row) : Reply :=
  (snmpHandler c.getSnmpReply .get [request]).headD .untouched

/-- A GET of one OID; net-snmp itself answers what reaches no handler. -/
def get (net : NetSnmp) (s : Bank.Shared ObjectId.State Trap) (oid : OID) : Reply :=
  match net.lookup registrations oid with
  | none => .untouched
  | some .powerState =>
    if net.instanceGet PowerState.stateOid oid then
      .answer (PowerState.snmpHandler (s.states .powerState))
    else .untouched
  | some (.table c) =>
    match net.tableGet c.info (points net.readObjid s c) oid with
    | none => .untouched
    | some request => tableReply c request

def getNext (net : NetSnmp) (c : TableId) (s : Bank.Shared ObjectId.State Trap) (oid : OID) :
    Option (OID × Reply) :=
  (net.tableGetNext c.info (points net.readObjid s c) oid).map fun next => (next.1, tableReply c next.2)

def rowOf (readObjid : ReadObjid) (s : Bank.Shared ObjectId.State Trap) (c : TableId) (name : Str) :
    Option c.Row :=
  State.row (c.itemClass readObjid) (s.states (.table c)) name

def cellReply (c : TableId) (column : Nat) (row : Option c.Row) : Reply :=
  row.elim .noSuchInstance fun row => .answer (c.getSnmpReply row column)

variable {net : NetSnmp} {order : List ObjectId} {s : Bank.Shared ObjectId.State Trap} {c : TableId}

section Lookup

theorem roots_unrelated {o o' : ObjectId} (hNe : o ≠ o') : ¬ o.root <+: o'.root := by
  have hAll : ∀ o ∈ ObjectId.all, ∀ o' ∈ ObjectId.all, o ≠ o' → ¬ o.root <+: o'.root := by decide
  exact hAll o o.mem_all o' o'.mem_all hNe

theorem root_unique {o o' : ObjectId} {oid : OID} (h : o.root <+: oid) (h' : o'.root <+: oid) : o = o' := by
  by_contra hNe
  rcases List.prefix_or_prefix_of_prefix h h' with hLe | hLe
  · exact roots_unrelated hNe hLe
  · exact roots_unrelated (Ne.symm hNe) hLe

theorem lookup_eq (hNet : net.Documented) {o : ObjectId} {oid : OID} (h : o.root <+: oid) :
    net.lookup registrations oid = some o := by
  apply hNet.lookup registrations oid o.root o (List.mem_map_of_mem o.mem_all) h
  intro reg hReg hPrefix
  obtain ⟨o', -, rfl⟩ := List.mem_map.mp hReg
  rw [root_unique hPrefix h]

theorem tableOid_below (c : TableId) (column : Nat) (name : Str) :
    (ObjectId.table c).root <+: instanceOid c.tableOid column name := by
  rw [instanceOid, List.append_assoc]
  exact List.prefix_append _ _

theorem cell_inj {c c' : TableId} {column column' : Nat} {name name' : Str}
    (h : instanceOid c.tableOid column name = instanceOid c'.tableOid column' name') :
    c = c' ∧ column = column' ∧ name = name' := by
  have hSame : ObjectId.table c = .table c' :=
    root_unique (tableOid_below c column name) (h ▸ tableOid_below c' column' name')
  cases hSame
  exact ⟨rfl, instanceOid_inj h⟩

end Lookup

section Cells

theorem sorted_rows (hOrder : Bank.Turns order) (readObjid : ReadObjid) (inputs : List Input) (c : TableId) :
    Sorted (c.itemClass readObjid).name
      (State.items ((run readObjid order inputs).states (.table c))) := by
  rw [state_table hOrder]
  exact reachable_sorted _

theorem find_points {Row : Type} (I : ItemClass Row) (t : Table.State Row) (name : Str) :
    ((t.points I).find? fun point => point.index = name).map DataPoint.row = t.row I name := by
  have hIndex : ∀ point ∈ t.points I,
      decide (point.index = name) = (decide (I.name point.row = name)) := by
    intro point hPoint
    rw [State.points, List.mem_mapIdx] at hPoint
    obtain ⟨i, -, rfl⟩ := hPoint
    rfl
  rw [List.find?_congr hIndex, State.row, find]
  conv_rhs => rw [← map_row_points (I := I) t, List.find?_map]
  rfl

theorem nodup_points {Row : Type} {I : ItemClass Row} {t : Table.State Row} (hs : Sorted I.name t.items) :
    ((t.points I).map DataPoint.index).Nodup := by
  rw [map_index_points]
  exact hs.keys_nodup

theorem get_cell (hNet : net.Documented)
    (hs : Sorted (c.itemClass net.readObjid).name (State.items (s.states (.table c)))) {column : Nat}
    {name : Str} (hColumn : c.info.HasColumn column) (hFits : FitsOid c.info name) :
    get net s (instanceOid c.tableOid column name) = cellReply c column (rowOf net.readObjid s c name) := by
  have hGet := hNet.tableGet c.info (points net.readObjid s c) column name (nodup_points hs) hColumn hFits
  rw [points, find_points] at hGet
  simp only [get, lookup_eq hNet (tableOid_below c column name)]
  rw [show instanceOid c.tableOid column name = instanceOid c.info.tableOid column name from rfl, points,
    hGet, cellReply, rowOf]
  cases State.row (c.itemClass net.readObjid) (s.states (.table c)) name with
  | none => rfl
  | some row => rfl

theorem get_power (hNet : net.Documented) (s : Bank.Shared ObjectId.State Trap) :
    get net s PowerState.stateOid = .answer (PowerState.snmpHandler (s.states .powerState)) := by
  have hLookup : net.lookup registrations PowerState.stateOid = some .powerState :=
    lookup_eq hNet (o := .powerState) List.prefix_rfl
  simp only [get, hLookup, hNet.instanceGet, if_true]

end Cells

end YadroSnmp.Agent
