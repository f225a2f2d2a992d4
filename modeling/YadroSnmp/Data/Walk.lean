import YadroSnmp.Lib.Traversal
import YadroSnmp.Data.Handlers

/-! # The rows as seen by an SNMP walk

The two iterator hooks of the table, and what sorted rows mean for its
operations: a lookup by name finds the one row there is, an insertion or a
removal changes that row only, and a walk serves every row once.
-/

namespace YadroSnmp.Table

open KeyedList Traversal

variable {Row : Type} (I : ItemClass Row) (T : Config)

/-- What the hooks hand out: the row in `data_ctx`, the index put into `idx_data` and `loop_ctx`. -/
structure DataPoint (Row : Type) where
  row : Row
  index : Str
  loopCtx : Nat

def getNextDataPoint (s : State Row) (loopCtx : Nat) : Option (DataPoint Row) :=
  if h : loopCtx < s.items.length then
    some ⟨s.items[loopCtx], I.name s.items[loopCtx], loopCtx + 1⟩
  else none

def getFirstDataPoint (s : State Row) : Option (DataPoint Row) := getNextDataPoint I s 0

/-- The points served from the first hook on until the second one returns null. -/
def Walk (s : State Row) (points : List (DataPoint Row)) : Prop :=
  Visits (fun point => getNextDataPoint I s point.loopCtx) (getFirstDataPoint I s) points

/-- `getItem` returns the row of that name, or one inserted between the others. -/
def GetsItem (s : State Row) (path : Str) : Prop :=
  match s.row I (rowName T path) with
  | some row => ∃ it, getItem I T s path = .ok (s, it) ∧ s.items[it]? = some row
  | none => ∃ t lo hi, getItem I T s path = .ok (t, lo.length) ∧ s.items = lo ++ hi ∧
      t.items = lo ++ I.make T.path (rowName T path) :: hi

/-- `dropItem` removes the row of that name, or nothing. -/
def DropsItem (s : State Row) (path : Str) : Prop :=
  match s.row I (rowName T path) with
  | some row => ∃ t lo hi, dropItem I T s path = ⟨t, none⟩ ∧ s.items = lo ++ row :: hi ∧
      t.items = lo ++ hi
  | none => dropItem I T s path = ⟨s, none⟩

variable {I T} {s : State Row}

theorem getsItem (hs : Sorted I.name s.items) {path : Str} (h : T.path.length < path.length) :
    GetsItem I T s path := by
  unfold GetsItem
  cases hRow : s.row I (rowName T path) with
  | some row => exact ⟨_, getItem_of_row hs h hRow, hs.position_of_find hRow⟩
  | none =>
    obtain ⟨lo, hi, hItems, hPos, -, -⟩ := hs.split (rowName T path)
    refine ⟨emplaceAt I T s lo.length (rowName T path), lo, hi, ?_, hItems, ?_⟩
    · rw [getItem_of_none hs h hRow, hPos]
    · rw [emplaceAt, hItems, insertIdx_append]

theorem dropsItem (hs : Sorted I.name s.items) {path : Str} (h : T.path.length < path.length) :
    DropsItem I T s path := by
  unfold DropsItem
  cases hRow : s.row I (rowName T path) with
  | some row =>
    have hAt := hs.position_of_find hRow
    obtain ⟨hLength, hItem⟩ := List.getElem?_eq_some_iff.mp hAt
    refine ⟨_, s.items.take (position I.name s.items (rowName T path)),
      s.items.drop (position I.name s.items (rowName T path) + 1), dropItem_of_row hs h hRow, ?_, ?_⟩
    · rw [← hItem, List.getElem_cons_drop, List.take_append_drop]
    · rw [dropAt_eq hAt, List.eraseIdx_eq_take_drop_succ]
  | none => exact dropItem_of_none hs h hRow

def State.points (I : ItemClass Row) (s : State Row) : List (DataPoint Row) :=
  s.items.mapIdx fun i item => ⟨item, I.name item, i + 1⟩

theorem getNextDataPoint_eq (s : State Row) (loopCtx : Nat) :
    getNextDataPoint I s loopCtx = (s.points I)[loopCtx]? := by
  unfold getNextDataPoint State.points
  rw [List.getElem?_mapIdx]
  split
  · rename_i h
    rw [List.getElem?_eq_getElem h]
    rfl
  · rename_i h
    rw [List.getElem?_eq_none (Nat.le_of_not_lt h)]
    rfl

theorem map_row_points (s : State Row) : (s.points I).map DataPoint.row = s.items := by
  refine List.ext_getElem? fun i => ?_
  rw [List.getElem?_map, State.points, List.getElem?_mapIdx, Option.map_map]
  exact Option.map_id'

theorem map_index_points (s : State Row) : (s.points I).map DataPoint.index = s.items.map I.name := by
  refine List.ext_getElem? fun i => ?_
  rw [List.getElem?_map, State.points, List.getElem?_mapIdx, Option.map_map, List.getElem?_map]
  rfl

theorem walk_points (s : State Row) : Walk I s (s.points I) := by
  have hNext : ∀ i point, (s.points I)[i]? = some point →
      getNextDataPoint I s point.loopCtx = (s.points I)[i + 1]? := by
    intro i point hPoint
    rw [State.points, List.getElem?_mapIdx, Option.map_eq_some_iff] at hPoint
    obtain ⟨item, -, rfl⟩ := hPoint
    exact getNextDataPoint_eq s (i + 1)
  rw [Walk, getFirstDataPoint, getNextDataPoint_eq]
  exact visits_drop hNext 0

/-- In every reachable table the rows are strictly sorted, lookups, insertions
and removals are exact, and a walk ends after serving each row once, in order. -/
theorem reachable_table_exact (I : ItemClass Row) (T : Config) (ms : List Message) :
    let s := run I T initial ms
    Sorted I.name s.items ∧
      (∀ path, T.path.length < path.length → GetsItem I T s path ∧ DropsItem I T s path) ∧
      ∃ points, Walk I s points ∧ (∀ points', Walk I s points' → points' = points) ∧
        points.map DataPoint.row = s.items ∧ (points.map DataPoint.index).Nodup := by
  intro s
  have hs : Sorted I.name s.items := reachable_sorted ms
  refine ⟨hs, fun path hLength => ⟨getsItem hs hLength, dropsItem hs hLength⟩, s.points I,
    walk_points s, fun points' hWalk => hWalk.unique (walk_points s), map_row_points s, ?_⟩
  rw [map_index_points]
  exact hs.keys_nodup

end YadroSnmp.Table
