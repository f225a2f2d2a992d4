import YadroSnmp.Agent.Requests
import YadroSnmp.Lib.Cursor

/-! # Walking a table while it changes

A manager reads a table by GETNEXT requests, each from the OID of the answer
before, and the agent handles its inputs between the requests. Rows may come
and go, and the vector may shift under the walk: as the position is an OID, the
walk meets every row that stays, and each of its cells once.
-/

namespace YadroSnmp.Agent

open Snmp Table KeyedList Cursor

/-- An answer of a walk, after all inputs handled so far. -/
structure Visit where
  seen : List Input
  oid : OID
  reply : Reply

/-- A walk of the subtree of a table from an OID on, until nothing is next. -/
inductive Walk (net : NetSnmp) (order : List ObjectId) (c : TableId) :
    List Input → OID → List Visit → List Input → Prop
  | stop {seen : List Input} {oid : OID} (inputs : List Input) :
      getNext net c (run net.readObjid order (seen ++ inputs)) oid = none →
      Walk net order c seen oid [] (seen ++ inputs)
  | visit {seen final : List Input} {oid next : OID} {reply : Reply} {visits : List Visit}
      (inputs : List Input) :
      getNext net c (run net.readObjid order (seen ++ inputs)) oid = some (next, reply) →
      Walk net order c (seen ++ inputs) next visits final →
      Walk net order c seen oid (⟨seen ++ inputs, next, reply⟩ :: visits) final

variable {net : NetSnmp} {order : List ObjectId} {c : TableId} {seen final : List Input} {oid : OID}
  {visits : List Visit} {name : Str} {column : Nat}

def rowAfter (net : NetSnmp) (order : List ObjectId) (c : TableId) (name : Str) (inputs : List Input) :
    Option c.Row :=
  rowOf net.readObjid (run net.readObjid order inputs) c name

/-- Every row there is then has a name that fits an OID. -/
def NamesFit (net : NetSnmp) (order : List ObjectId) (c : TableId) (inputs : List Input) : Prop :=
  ∀ name, rowAfter net order c name inputs ≠ none → FitsOid c.info name

def cellsAfter (net : NetSnmp) (order : List ObjectId) (c : TableId) (inputs : List Input) : Set OID :=
  cells c.info (points net.readObjid (run net.readObjid order inputs) c)

/-- The answer shows a cell of a row that was there when it was given. -/
def Shows (net : NetSnmp) (order : List ObjectId) (c : TableId) (v : Visit) : Prop :=
  ∃ name column row, c.info.HasColumn column ∧ rowAfter net order c name v.seen = some row ∧
    v.oid = instanceOid c.tableOid column name ∧ v.reply = .answer (c.getSnmpReply row column)

section Points

variable (hOrder : Bank.Turns order)
include hOrder

theorem row_of_point {inputs : List Input} {point : DataPoint c.Row}
    (hPoint : point ∈ points net.readObjid (run net.readObjid order inputs) c) :
    rowAfter net order c point.index inputs = some point.row := by
  rw [points, State.points, List.mem_mapIdx] at hPoint
  obtain ⟨i, hi, rfl⟩ := hPoint
  exact (sorted_rows hOrder net.readObjid inputs c).find_key (List.getElem_mem hi)

omit hOrder in
theorem exists_point {inputs : List Input} {row : c.Row} (hRow : rowAfter net order c name inputs = some row) :
    ∃ point ∈ points net.readObjid (run net.readObjid order inputs) c, point.index = name := by
  rw [rowAfter, rowOf, ← find_points, Option.map_eq_some_iff] at hRow
  obtain ⟨point, hFind, -⟩ := hRow
  exact ⟨point, List.mem_of_find?_eq_some hFind, by simpa using List.find?_some hFind⟩

omit hOrder in
theorem namesFit_of_items {inputs : List Input}
    (h : ∀ item ∈ State.items ((run net.readObjid order inputs).states (.table c)),
      c.info.tableOid.length + 3 + ((c.itemClass net.readObjid).name item).length ≤ maxOidLen) :
    NamesFit net order c inputs := by
  intro name hRow
  have hMem : name ∈ State.names (c.itemClass net.readObjid)
      ((run net.readObjid order inputs).states (.table c)) := Option.isSome_iff_ne_none.mpr hRow
  obtain ⟨item, hItem, rfl⟩ := State.mem_names.mp hMem
  exact fitsOid_iff.mpr (h item hItem)

theorem servable_points {inputs : List Input} (hFit : NamesFit net order c inputs) :
    Servable c.info (points net.readObjid (run net.readObjid order inputs) c) where
  nodup := nodup_points (sorted_rows hOrder net.readObjid inputs c)
  fits point hPoint := hFit point.index (by simp [row_of_point hOrder hPoint])

omit hOrder in
theorem mem_cellsAfter {inputs : List Input} {row : c.Row} (hColumn : c.info.HasColumn column)
    (hRow : rowAfter net order c name inputs = some row) :
    instanceOid c.tableOid column name ∈ cellsAfter net order c inputs := by
  obtain ⟨point, hPoint, rfl⟩ := exists_point hRow
  exact ⟨column, hColumn, point, hPoint, rfl⟩

end Points

section Steps

variable (hNet : net.Documented) (hOrder : Bank.Turns order) {inputs : List Input}
  (hFit : NamesFit net order c inputs)
include hNet hOrder hFit

theorem getNext_none (h : getNext net c (run net.readObjid order inputs) oid = none) :
    ∀ x ∈ cellsAfter net order c inputs, ¬ oid < x := by
  have hSpec := hNet.tableGetNext c.info _ oid (servable_points hOrder hFit)
  rw [getNext, Option.map_eq_none_iff] at h
  rwa [h] at hSpec

theorem getNext_some {next : OID} {reply : Reply}
    (h : getNext net c (run net.readObjid order inputs) oid = some (next, reply)) :
    Next (cellsAfter net order c inputs) oid next ∧ Shows net order c ⟨inputs, next, reply⟩ := by
  have hSpec := hNet.tableGetNext c.info _ oid (servable_points hOrder hFit)
  rw [getNext, Option.map_eq_some_iff] at h
  obtain ⟨⟨next', request⟩, hNext, hReply⟩ := h
  cases hReply
  rw [hNext] at hSpec
  obtain ⟨point, hPoint, hColumn, hOid, hEntry⟩ := hSpec.found
  refine ⟨hSpec.least, point.index, request.colnum, point.row, hColumn, row_of_point hOrder hPoint, hOid, ?_⟩
  simp [tableReply, snmpHandler, hEntry]

end Steps

theorem Walk.scan (hNet : net.Documented) (hOrder : Bank.Turns order)
    (h : Walk net order c seen oid visits final) (hFit : ∀ v ∈ visits, NamesFit net order c v.seen)
    (hLast : NamesFit net order c final) :
    Scan oid (visits.map fun v => (cellsAfter net order c v.seen, v.oid)) (cellsAfter net order c final) ∧
      ∀ v ∈ visits, Shows net order c v := by
  induction h with
  | stop inputs hNone =>
    refine ⟨.done (getNext_none hNet hOrder hLast hNone), ?_⟩
    rintro v ⟨⟩
  | visit inputs hSome _ ih =>
    obtain ⟨hHere, hLater⟩ := List.forall_mem_cons.mp hFit
    obtain ⟨hScan, hShows⟩ := ih hLater hLast
    obtain ⟨hNext, hShow⟩ := getNext_some hNet hOrder hHere hSome
    exact ⟨.next hNext hScan, List.forall_mem_cons.mpr ⟨hShow, hShows⟩⟩

theorem map_oid_rounds (net : NetSnmp) (order : List ObjectId) (c : TableId) (visits : List Visit) :
    (visits.map fun v => (cellsAfter net order c v.seen, v.oid)).map Prod.snd = visits.map Visit.oid := by
  rw [List.map_map]
  rfl

theorem tableOid_lt (c : TableId) (column : Nat) (name : Str) :
    c.tableOid < instanceOid c.tableOid column name := by
  have hIndex : ([] : OID) < [1, column] ++ stringIndex name := List.nil_lt_cons _ _
  have hBelow := @List.append_left_lt _ _ c.tableOid _ _ hIndex
  rw [List.append_nil, ← List.append_assoc] at hBelow
  exact hBelow

theorem Shows.reply_eq_get {v : Visit} (hNet : net.Documented) (hOrder : Bank.Turns order)
    (hFit : NamesFit net order c v.seen) (h : Shows net order c v) :
    v.reply = get net (run net.readObjid order v.seen) v.oid := by
  obtain ⟨name, column, row, hColumn, hRow, hOid, hReply⟩ := h
  have hFits : FitsOid c.info name := hFit name (by simp [hRow])
  rw [hReply, hOid, get_cell hNet (sorted_rows hOrder net.readObjid v.seen c) hColumn hFits,
    show rowOf net.readObjid (run net.readObjid order v.seen) c name = some row from hRow]
  rfl

/-- A walk of a table, whatever the agent handles between its requests: the OIDs
increase, every answer is a cell as it is at that moment, also to a GET, and no
cell of a row that is there all the time is left out. -/
theorem walk_complete (net : NetSnmp) (hNet : net.Documented) (hOrder : Bank.Turns order)
    (h : Walk net order c seen c.tableOid visits final) (hFit : ∀ v ∈ visits, NamesFit net order c v.seen)
    (hLast : NamesFit net order c final) :
    (visits.map Visit.oid).Pairwise (· < ·) ∧
      (∀ v ∈ visits, Shows net order c v ∧ v.reply = get net (run net.readObjid order v.seen) v.oid) ∧
      ∀ name column, c.info.HasColumn column → (∀ v ∈ visits, rowAfter net order c name v.seen ≠ none) →
        rowAfter net order c name final ≠ none →
        instanceOid c.tableOid column name ∈ visits.map Visit.oid := by
  obtain ⟨hScan, hShows⟩ := h.scan hNet hOrder hFit hLast
  have hOids := map_oid_rounds net order c visits
  refine ⟨?_, fun v hv => ⟨hShows v hv, (hShows v hv).reply_eq_get hNet hOrder (hFit v hv)⟩,
    fun name column hColumn hStays hFinal => ?_⟩
  · have hIncreasing := hScan.increasing
    rw [hOids] at hIncreasing
    exact (List.pairwise_cons.mp hIncreasing).2
  · rw [← hOids]
    apply hScan.complete (tableOid_lt c column name)
    · intro round hRound
      obtain ⟨v, hv, rfl⟩ := List.mem_map.mp hRound
      obtain ⟨row, hRow⟩ := Option.ne_none_iff_exists'.mp (hStays v hv)
      exact mem_cellsAfter hColumn hRow
    · obtain ⟨row, hRow⟩ := Option.ne_none_iff_exists'.mp hFinal
      exact mem_cellsAfter hColumn hRow

theorem Walk.stop_now (h : getNext net c (run net.readObjid order seen) oid = none) :
    Walk net order c seen oid [] seen := by
  have hStop : Walk net order c seen oid [] (seen ++ []) := .stop [] (by rwa [List.append_nil])
  rwa [List.append_nil] at hStop

theorem Walk.visit_now {next : OID} {reply : Reply}
    (h : getNext net c (run net.readObjid order seen) oid = some (next, reply))
    (hWalk : Walk net order c seen next visits final) :
    Walk net order c seen oid (⟨seen, next, reply⟩ :: visits) final := by
  have hVisit : Walk net order c seen oid (⟨seen ++ [], next, reply⟩ :: visits) final :=
    .visit [] (by rwa [List.append_nil]) (by rwa [List.append_nil])
  rwa [List.append_nil] at hVisit

/-- With nothing handled in between, a walk from any OID comes to an end. -/
theorem exists_walk (hNet : net.Documented) (hOrder : Bank.Turns order) {inputs : List Input}
    (hFit : NamesFit net order c inputs) (oid : OID) :
    ∃ visits, Walk net order c inputs oid visits inputs ∧ ∀ v ∈ visits, v.seen = inputs := by
  induction hAhead : (ahead (cellsAfter net order c inputs) oid).ncard using Nat.strong_induction_on
    generalizing oid with
  | _ count ih =>
    cases hNext : getNext net c (run net.readObjid order inputs) oid with
    | none => exact ⟨[], .stop_now hNext, by simp⟩
    | some answer =>
      obtain ⟨next, reply⟩ := answer
      have hLess := (getNext_some hNet hOrder hFit hNext).1.ncard_ahead_lt (cells_finite _ _)
      obtain ⟨visits, hWalk, hSeen⟩ := ih _ (hAhead ▸ hLess) next rfl
      exact ⟨⟨inputs, next, reply⟩ :: visits, .visit_now hNext hWalk,
        List.forall_mem_cons.mpr ⟨rfl, hSeen⟩⟩

/-- A walk of a table that stays as it is ends, and visits exactly its cells,
in the order of their OIDs, each with the answer of a GET. -/
theorem walk_exact (net : NetSnmp) (hNet : net.Documented) (hOrder : Bank.Turns order) (c : TableId)
    (inputs : List Input) (hFit : NamesFit net order c inputs) :
    ∃ visits, Walk net order c inputs c.tableOid visits inputs ∧
      (visits.map Visit.oid).Pairwise (· < ·) ∧
      (∀ oid, oid ∈ visits.map Visit.oid ↔ ∃ name column, c.info.HasColumn column ∧
        rowAfter net order c name inputs ≠ none ∧ oid = instanceOid c.tableOid column name) ∧
      ∀ v ∈ visits, v.reply = get net (run net.readObjid order inputs) v.oid := by
  obtain ⟨visits, hWalk, hSeen⟩ := exists_walk hNet hOrder hFit c.tableOid
  have hFits : ∀ v ∈ visits, NamesFit net order c v.seen := fun v hv => (hSeen v hv).symm ▸ hFit
  obtain ⟨hScan, hShows⟩ := hWalk.scan hNet hOrder hFits hFit
  have hOids := map_oid_rounds net order c visits
  refine ⟨visits, hWalk, ?_, fun oid => ⟨?_, ?_⟩, fun v hv => ?_⟩
  · have hIncreasing := hScan.increasing
    rw [hOids] at hIncreasing
    exact (List.pairwise_cons.mp hIncreasing).2
  · intro hOid
    obtain ⟨v, hv, rfl⟩ := List.mem_map.mp hOid
    obtain ⟨name, column, row, hColumn, hRow, hOid, -⟩ := hShows v hv
    rw [hSeen v hv] at hRow
    exact ⟨name, column, hColumn, by simp [hRow], hOid⟩
  · rintro ⟨name, column, hColumn, hSome, rfl⟩
    obtain ⟨row, hRow⟩ := Option.ne_none_iff_exists'.mp hSome
    rw [← hOids]
    apply hScan.complete (tableOid_lt c column name) _ (mem_cellsAfter hColumn hRow)
    intro round hRound
    obtain ⟨v, hv, rfl⟩ := List.mem_map.mp hRound
    exact (hSeen v hv).symm ▸ mem_cellsAfter hColumn hRow
  · have hReply := (hShows v hv).reply_eq_get hNet hOrder (hFits v hv)
    rwa [hSeen v hv] at hReply

section Ambient

theorem ambient_fits : NamesFit referenceNetSnmp ObjectId.all temperature [ambientAdded] :=
  namesFit_of_items (by decide +kernel)

/-- The visit of a cell of the temperature table. -/
def visitOf (seen : List Input) (column : Nat) (name : String) : Visit where
  seen := seen
  oid := instanceOid temperature.tableOid column (Str.lit name)
  reply := get referenceNetSnmp (run referenceNetSnmp.readObjid ObjectId.all seen)
    (instanceOid temperature.tableOid column (Str.lit name))

def bothAdded : List Input := [ambientAdded, inletAdded]

def inletLeft : List Input := bothAdded ++ [ambientRemoved]

/-- After the first column one of the two sensors is gone, and the walk goes on with the other. -/
def inletVisits : List Visit :=
  [visitOf bothAdded 1 "inlet", visitOf bothAdded 1 "ambient"] ++
    [2, 3, 4, 5, 6, 7].map fun column => visitOf inletLeft column "inlet"

theorem inletVisits_walk :
    Walk referenceNetSnmp ObjectId.all temperature [] temperature.tableOid inletVisits inletLeft :=
  .visit bothAdded (by decide +kernel) <| .visit_now (by decide +kernel) <|
    .visit [ambientRemoved] (by decide +kernel) <| .visit_now (by decide +kernel) <|
    .visit_now (by decide +kernel) <| .visit_now (by decide +kernel) <| .visit_now (by decide +kernel) <|
    .visit_now (by decide +kernel) <| .stop_now (by decide +kernel)

theorem seen_of_mem_inletVisits {v : Visit} (h : v ∈ inletVisits) : v.seen = bothAdded ∨ v.seen = inletLeft := by
  rcases List.mem_append.mp h with hFirst | hLater
  · rcases List.mem_pair.mp hFirst with rfl | rfl
    · exact .inl rfl
    · exact .inl rfl
  · obtain ⟨column, -, rfl⟩ := List.mem_map.mp hLater
    exact .inr rfl

theorem inlet_walked :
    (inletVisits.map Visit.oid).Pairwise (· < ·) ∧
      (∀ v ∈ inletVisits, Shows referenceNetSnmp ObjectId.all temperature v ∧
        v.reply = get referenceNetSnmp (run referenceNetSnmp.readObjid ObjectId.all v.seen) v.oid) ∧
      ∀ column, temperature.info.HasColumn column →
        instanceOid temperature.tableOid column (Str.lit "inlet") ∈ inletVisits.map Visit.oid := by
  have hBoth : NamesFit referenceNetSnmp ObjectId.all temperature bothAdded := namesFit_of_items (by decide +kernel)
  have hLeft : NamesFit referenceNetSnmp ObjectId.all temperature inletLeft := namesFit_of_items (by decide +kernel)
  have hFits : ∀ v ∈ inletVisits, NamesFit referenceNetSnmp ObjectId.all temperature v.seen := by
    intro v hv
    rcases seen_of_mem_inletVisits hv with hSeen | hSeen
    · exact hSeen ▸ hBoth
    · exact hSeen ▸ hLeft
  obtain ⟨hIncreasing, hShows, hComplete⟩ :=
    walk_complete referenceNetSnmp referenceNetSnmp_documented turns_all inletVisits_walk hFits hLeft
  refine ⟨hIncreasing, hShows, fun column hColumn => hComplete (Str.lit "inlet") column hColumn ?_ ?_⟩
  · intro v hv
    rcases seen_of_mem_inletVisits hv with hSeen | hSeen
    · rw [hSeen]
      decide +kernel
    · rw [hSeen]
      decide +kernel
  · decide +kernel

theorem ambient_walked_exactly :
    ∃ visits, Walk referenceNetSnmp ObjectId.all temperature [ambientAdded] temperature.tableOid visits
        [ambientAdded] ∧
      (visits.map Visit.oid).Pairwise (· < ·) ∧
      (∀ oid, oid ∈ visits.map Visit.oid ↔ ∃ name column, temperature.info.HasColumn column ∧
        rowAfter referenceNetSnmp ObjectId.all temperature name [ambientAdded] ≠ none ∧
          oid = instanceOid temperature.tableOid column name) ∧
      ∀ v ∈ visits, v.reply =
        get referenceNetSnmp (run referenceNetSnmp.readObjid ObjectId.all [ambientAdded]) v.oid :=
  walk_exact referenceNetSnmp referenceNetSnmp_documented turns_all temperature [ambientAdded] ambient_fits

end Ambient

end YadroSnmp.Agent
