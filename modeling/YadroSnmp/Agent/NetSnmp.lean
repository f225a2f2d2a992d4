import Mathlib.Data.List.Lex
import Mathlib.Data.List.MinMax
import Mathlib.Data.Set.Finite.List
import YadroSnmp.Data.Walk
import YadroSnmp.Yadro.TrapOids

/-! # What net-snmp does between a request and a handler

The agent registers subtrees with handlers; a request reaches a handler through
helpers of net-snmp, which look for the row of a table with the hooks. These
services are a parameter here, and what is relied on is what they document.
-/

namespace YadroSnmp.Snmp

open Table

inductive Mode where
  | get
  | other
deriving DecidableEq

/-- A request as the helpers leave it: the context found by the iterator and the column. -/
structure Request (Row : Type) where
  entry : Option Row
  colnum : Nat
deriving DecidableEq

inductive Reply where
  | answer (answer : Answer)
  | noSuchInstance
  | untouched
deriving DecidableEq

/-- `Table<ItemType>::snmp_handler`: the replies to the requests, in their order. -/
def snmpHandler {Row : Type} (getSnmpReply : Row → Nat → Answer) (mode : Mode)
    (requests : List (Request Row)) : List Reply :=
  match mode with
  | .get => requests.map fun request =>
      match request.entry with
      | none => .noSuchInstance
      | some entry => .answer (getSnmpReply entry request.colnum)
  | .other => requests.map fun _ => .untouched

/-- `netsnmp_table_registration_info`, with the OID it is registered for. -/
structure TableInfo where
  tableOid : OID
  minColumn : Nat
  maxColumn : Nat

def TableInfo.HasColumn (info : TableInfo) (column : Nat) : Prop :=
  info.minColumn ≤ column ∧ column ≤ info.maxColumn

instance (info : TableInfo) (column : Nat) : Decidable (info.HasColumn column) :=
  inferInstanceAs (Decidable (_ ∧ _))

/-- The bytes of a D-Bus object path. -/
def isPathByte (b : UInt8) : Bool :=
  ('a'.toUInt8 ≤ b && b ≤ 'z'.toUInt8) || ('A'.toUInt8 ≤ b && b ≤ 'Z'.toUInt8) ||
    ('0'.toUInt8 ≤ b && b ≤ '9'.toUInt8) || b == '_'.toUInt8 || b == '/'.toUInt8

def IsPath (path : Str) : Prop := path.all isPathByte = true

instance (path : Str) : Decidable (IsPath path) := inferInstanceAs (Decidable (_ = true))

def cells {Row : Type} (info : TableInfo) (points : List (DataPoint Row)) : Set OID :=
  { oid | ∃ column, info.HasColumn column ∧ ∃ point ∈ points,
    oid = instanceOid info.tableOid column point.index }

def FitsOid (info : TableInfo) (name : Str) : Prop :=
  ∀ column, (instanceOid info.tableOid column name).length ≤ maxOidLen

structure NetSnmp where
  readObjid : ReadObjid
  /-- The handler of the registered subtree that an OID lies in. -/
  lookup : {Handler : Type} → List (OID × Handler) → OID → Option Handler
  /-- Whether the helper of a read-only instance passes a GET on. -/
  instanceGet : (registered requested : OID) → Bool
  /-- What the table helpers make of a GET, from the points the hooks serve. -/
  tableGet : {Row : Type} → TableInfo → List (DataPoint Row) → OID → Option (Request Row)
  /-- The same for a GETNEXT, with the OID that is answered for; none after the last cell. -/
  tableGetNext : {Row : Type} → TableInfo → List (DataPoint Row) → OID → Option (OID × Request Row)

structure Servable {Row : Type} (info : TableInfo) (points : List (DataPoint Row)) : Prop where
  nodup : (points.map DataPoint.index).Nodup
  fits : ∀ point ∈ points, FitsOid info point.index

structure NextCell {Row : Type} (info : TableInfo) (points : List (DataPoint Row)) (oid : OID)
    (next : OID) (request : Request Row) : Prop where
  least : IsLeast { x | x ∈ cells info points ∧ oid < x } next
  found : ∃ point ∈ points, info.HasColumn request.colnum ∧
    next = instanceOid info.tableOid request.colnum point.index ∧ request.entry = some point.row

structure NetSnmp.Documented (net : NetSnmp) : Prop where
  readObjid : ∀ oid ∈ columnOids, ∀ name, IsPath name → ReadsQuoted net.readObjid oid name
  lookup : ∀ {Handler : Type} (regs : List (OID × Handler)) oid root handler, (root, handler) ∈ regs →
    root <+: oid → (∀ reg ∈ regs, reg.1 <+: oid → reg = (root, handler)) →
    net.lookup regs oid = some handler
  instanceGet : ∀ registered, net.instanceGet registered registered = true
  tableGet : ∀ {Row : Type} info (points : List (DataPoint Row)) column name,
    (points.map DataPoint.index).Nodup → info.HasColumn column → FitsOid info name →
    net.tableGet info points (instanceOid info.tableOid column name) =
      some ⟨(points.find? fun point => point.index = name).map DataPoint.row, column⟩
  tableGetNext : ∀ {Row : Type} info (points : List (DataPoint Row)) oid, Servable info points →
    match net.tableGetNext info points oid with
    | none => ∀ x ∈ cells info points, ¬ oid < x
    | some (next, request) => NextCell info points oid next request

section Oids

theorem stringIndex_injective : Function.Injective stringIndex := by
  intro name name' h
  obtain ⟨-, hBytes⟩ := List.cons.inj h
  exact List.map_injective_iff.mpr (fun _ _ => UInt8.toNat_inj.mp) hBytes

theorem instanceOid_inj {tableOid : OID} {column column' : Nat} {name name' : Str}
    (h : instanceOid tableOid column name = instanceOid tableOid column' name') :
    column = column' ∧ name = name' := by
  rw [instanceOid, instanceOid, List.append_assoc, List.append_assoc, List.append_cancel_left_eq] at h
  obtain ⟨-, hRest⟩ := List.cons.inj h
  obtain ⟨hColumn, hName⟩ := List.cons.inj hRest
  exact ⟨hColumn, stringIndex_injective hName⟩

theorem length_instanceOid (tableOid : OID) (column : Nat) (name : Str) :
    (instanceOid tableOid column name).length = tableOid.length + 3 + name.length := by
  simp [instanceOid, stringIndex]
  omega

theorem fitsOid_iff {info : TableInfo} {name : Str} :
    FitsOid info name ↔ info.tableOid.length + 3 + name.length ≤ maxOidLen := by
  unfold FitsOid
  simp only [length_instanceOid]
  exact ⟨fun h => h 0, fun h _ => h⟩

theorem IsPath.notMem {name : Str} (h : IsPath name) {b : UInt8} (hb : isPathByte b = false) :
    b ∉ name := by
  intro hMem
  have hByte := List.all_eq_true.mp h b hMem
  rw [hb] at hByte
  cases hByte

theorem IsPath.drop {name : Str} (h : IsPath name) (n : Nat) : IsPath (name.drop n) :=
  List.all_eq_true.mpr fun b hb => List.all_eq_true.mp h b (List.mem_of_mem_drop hb)

end Oids

section Reference

def allCells {Row : Type} (info : TableInfo) (points : List (DataPoint Row)) : List (OID × Request Row) :=
  ((List.range (info.maxColumn + 1)).filter fun column => info.HasColumn column).flatMap fun column =>
    points.map fun point => (instanceOid info.tableOid column point.index, ⟨some point.row, column⟩)

/-- A net-snmp that keeps to what is documented: it decodes the OID of a GET, and
compares all cells for a GETNEXT. -/
def referenceNetSnmp : NetSnmp where
  readObjid := readObjidQuoted
  lookup regs oid := (regs.find? fun reg => reg.1.isPrefixOf oid).map Prod.snd
  instanceGet registered requested := decide (requested = registered)
  tableGet info points oid :=
    if (info.tableOid ++ [1]).isPrefixOf oid then
      match oid.drop (info.tableOid.length + 1) with
      | column :: index =>
        if info.HasColumn column then
          some ⟨(points.find? fun point => stringIndex point.index = index).map DataPoint.row, column⟩
        else none
      | [] => none
    else none
  tableGetNext info points oid :=
    ((allCells info points).filter fun cell => oid < cell.1).argmin Prod.fst

theorem mem_allCells {Row : Type} {info : TableInfo} {points : List (DataPoint Row)} {x : OID}
    {request : Request Row} :
    (x, request) ∈ allCells info points ↔ ∃ point ∈ points, info.HasColumn request.colnum ∧
      x = instanceOid info.tableOid request.colnum point.index ∧ request.entry = some point.row := by
  simp only [allCells, List.mem_flatMap, List.mem_filter, List.mem_range, decide_eq_true_eq, List.mem_map,
    Prod.mk.injEq]
  constructor
  · rintro ⟨column, ⟨-, hColumn⟩, point, hPoint, rfl, rfl⟩
    exact ⟨point, hPoint, hColumn, rfl, rfl⟩
  · rintro ⟨point, hPoint, hColumn, rfl, hEntry⟩
    cases request
    cases hEntry
    exact ⟨_, ⟨Nat.lt_succ_of_le hColumn.2, hColumn⟩, point, hPoint, rfl, rfl⟩

theorem mem_cells_iff {Row : Type} {info : TableInfo} {points : List (DataPoint Row)} {x : OID} :
    x ∈ cells info points ↔ ∃ request, (x, request) ∈ allCells info points := by
  simp only [mem_allCells]
  constructor
  · rintro ⟨column, hColumn, point, hPoint, rfl⟩
    exact ⟨⟨some point.row, column⟩, point, hPoint, hColumn, rfl, rfl⟩
  · rintro ⟨request, point, hPoint, hColumn, rfl, -⟩
    exact ⟨request.colnum, hColumn, point, hPoint, rfl⟩

theorem cells_finite {Row : Type} (info : TableInfo) (points : List (DataPoint Row)) :
    (cells info points).Finite := by
  apply ((allCells info points).map Prod.fst).finite_toSet.subset
  intro x hx
  obtain ⟨request, hRequest⟩ := mem_cells_iff.mp hx
  exact List.mem_map_of_mem (f := Prod.fst) hRequest

theorem tableGet_reference {Row : Type} {info : TableInfo} (points : List (DataPoint Row)) {column : Nat}
    (name : Str) (hColumn : info.HasColumn column) :
    referenceNetSnmp.tableGet info points (instanceOid info.tableOid column name) =
      some ⟨(points.find? fun point => point.index = name).map DataPoint.row, column⟩ := by
  have hOid : instanceOid info.tableOid column name =
      (info.tableOid ++ [1]) ++ column :: stringIndex name := by simp [instanceOid]
  have hPrefix : (info.tableOid ++ [1]).isPrefixOf (instanceOid info.tableOid column name) = true := by
    rw [hOid]
    exact List.isPrefixOf_iff_prefix.mpr (List.prefix_append _ _)
  have hDrop : (instanceOid info.tableOid column name).drop (info.tableOid.length + 1) =
      column :: stringIndex name := by
    rw [hOid, List.drop_left' (by simp)]
  simp only [referenceNetSnmp, hPrefix, hDrop, if_true, if_pos hColumn, stringIndex_injective.eq_iff]

theorem referenceNetSnmp_documented : referenceNetSnmp.Documented where
  readObjid _ hOid _ hName := readsQuoted_readObjidQuoted hOid (hName.notMem (by decide))
  lookup {Handler} regs oid root handler hMem hPrefix hOnly := by
    obtain ⟨reg, hFind⟩ : ∃ reg, (regs.find? fun reg => reg.1.isPrefixOf oid) = some reg := by
      rw [← Option.isSome_iff_exists, List.find?_isSome]
      exact ⟨_, hMem, List.isPrefixOf_iff_prefix.mpr hPrefix⟩
    have hFound := List.find?_some hFind
    have hSame := hOnly reg (List.mem_of_find?_eq_some hFind) (List.isPrefixOf_iff_prefix.mp hFound)
    simp [referenceNetSnmp, hFind, hSame]
  instanceGet registered := decide_eq_true rfl
  tableGet info points column name _ hColumn _ := tableGet_reference points name hColumn
  tableGetNext {Row} info points oid _ := by
    simp only [referenceNetSnmp]
    cases hNext : ((allCells info points).filter fun cell => oid < cell.1).argmin Prod.fst with
    | none =>
      intro x hx hLt
      obtain ⟨request, hRequest⟩ := mem_cells_iff.mp hx
      have hMem : (x, request) ∈ (allCells info points).filter fun cell => oid < cell.1 :=
        List.mem_filter.mpr ⟨hRequest, decide_eq_true hLt⟩
      rw [List.argmin_eq_none.mp hNext] at hMem
      cases hMem
    | some cell =>
      obtain ⟨next, request⟩ := cell
      have hMem := List.argmin_mem hNext
      obtain ⟨hCell, hLt⟩ := List.mem_filter.mp hMem
      refine ⟨⟨⟨mem_cells_iff.mpr ⟨request, hCell⟩, of_decide_eq_true hLt⟩, ?_⟩, mem_allCells.mp hCell⟩
      rintro x ⟨hx, hAfter⟩
      obtain ⟨request', hRequest'⟩ := mem_cells_iff.mp hx
      have hMem : (x, request') ∈ (allCells info points).filter fun cell => oid < cell.1 :=
        List.mem_filter.mpr ⟨hRequest', decide_eq_true hAfter⟩
      exact not_lt.mp (List.not_lt_of_mem_argmin hMem hNext)

end Reference

end YadroSnmp.Snmp
