import YadroSnmp.Data.Field
import YadroSnmp.Data.RowNames
import YadroSnmp.Data.Session
import YadroSnmp.Yadro.SensorAlarms

/-! # Rows that follow their objects

Seen from one object, a session is a lane: its properties, what the agent holds
for it, what is queued about it, and its row. Every step of a session is a step
of each lane or nothing to it, so a row shows the current properties whenever
nothing is on its way, provided no change happened unseen.
-/

namespace YadroSnmp.Table

open Snmp KeyedList Labelled Replica

variable {Row : Type} (F : FieldClass Row) (T : Config)

def Task.hand (n : Str) : Task → Hand Str Variant
  | .create name maps _ => if name = n then .opening maps else .free
  | .fill _ name maps _ => if name = n then .filling maps else .free
  | _ => .free

def Signal.mail? (n : Str) : Signal → Option (Mail Str Variant)
  | .interfacesAdded name data =>
    if name = n ∧ isOwned T data.keys = true then some (.opened data.maps) else none
  | .propertiesChanged name fields => if name = n then some (.changed fields) else none

def World.lane (w : World Row) (n : Str) : Lane Str Variant Row where
  values := w.values n
  hand := w.task.hand n
  mail := w.queue.filterMap (Signal.mail? T n)
  row := w.table.row F.toItemClass n

/-- Nothing about the object is queued for the agent or being handled by it. -/
def World.Quiet (w : World Row) (n : Str) : Prop :=
  w.task.hand n = .free ∧ w.queue.filterMap (Signal.mail? T n) = []

/-- Properties change while the object has a row, which hears of it, or while
nothing about the object is on its way; and no map makes a row throw. -/
def World.Timely (w : World Row) : Action → Prop
  | .change name fields =>
    F.Fits fields ∧ ((w.table.row F.toItemClass name).isSome ∨ w.Quiet T name)
  | .announce _ data => ∀ m ∈ data.maps, F.Fits m
  | .getSubTree _ => True
  | .agent => ∀ name rest, w.task = .refresh (name :: rest) → F.Fits (w.values name)

structure World.Sound (w : World Row) : Prop where
  sorted : Sorted F.name w.table.items
  held : ∀ it name maps rest, w.task = .fill it name maps rest →
    ∃ row, w.table.items[it]? = some row ∧ F.name row = name

variable {F T} {w w' : World Row} {a : Action}

section Sound

theorem agentStep_sound (h : w.Sound F) : (agentStep F.toItemClass T w).Sound F := by
  obtain ⟨values, queue, table, task⟩ := w
  cases task with
  | idle =>
    cases queue with
    | nil => exact h
    | cons signal queue =>
      cases signal with
      | interfacesAdded name data =>
        simp only [agentStep]
        split
        · exact ⟨h.sorted, by simp⟩
        · exact ⟨h.sorted, by simp⟩
      | propertiesChanged name fields =>
        exact ⟨(onPropertiesChanged_advance (T := T) h.sorted _ _).sorted, by simp [agentStep]⟩
  | refresh names =>
    cases names with
    | nil => exact ⟨h.sorted, by simp [agentStep]⟩
    | cons name rest => exact ⟨h.sorted, by simp [agentStep]⟩
  | create name maps rest =>
    obtain ⟨t, it, hGet, hFound⟩ := getItem_found (I := F.toItemClass) h.sorted
      (path_length_lt_objectPath (T := T) name)
    rw [rowName_objectPath] at hFound
    simp only [agentStep, hGet]
    refine ⟨hFound.advance.sorted, ?_⟩
    rintro _ _ _ _ ⟨⟩
    exact ⟨_, hFound.item, getD_name table name⟩
  | fill it name maps rest =>
    cases maps with
    | nil => exact ⟨h.sorted, by simp [agentStep]⟩
    | cons m maps =>
      obtain ⟨row, hRow, hName⟩ := h.held it name _ rest rfl
      have hSorted := (setFieldsAt_advance (T := T) h.sorted hRow m).sorted
      simp only [agentStep]
      split
      · exact ⟨hSorted, by simp⟩
      · refine ⟨hSorted, ?_⟩
        rintro _ _ _ _ ⟨⟩
        refine ⟨(F.setFields row m).row, ?_, (F.name_setFields row m).trans hName⟩
        rw [setFieldsAt_eq hRow]
        exact List.getElem?_set_self (List.getElem?_eq_some_iff.mp hRow).1

theorem sound_step (h : w.Sound F) (hStep : w.Step F.toItemClass T a w') : w'.Sound F := by
  obtain ⟨-, rfl⟩ := hStep
  cases a with
  | change => exact ⟨h.sorted, h.held⟩
  | announce => exact ⟨h.sorted, h.held⟩
  | getSubTree data => exact ⟨(pruneLoop_advance (T := T) h.sorted _ _ _).sorted, by simp [World.apply]⟩
  | agent => exact agentStep_sound h

end Sound

section Lanes

variable {n : Str}

/-- `l'` is `l`, or one step of the lane from it. -/
def Follow (F : FieldClass Row) (T : Config) (n : Str) (l l' : Lane Str Variant Row) : Prop :=
  l' = l ∨ Replica.Step F.copy (F.make T.path n) l l'

variable {values : Str → FieldsMap} {queue : List Signal} {table : State Row} {name : Str}
  {rest : List Str} {maps : List FieldsMap}

theorem lane_signal (hs : Sorted F.name table.items) (signal : Signal) :
    Follow F T n (World.lane F T ⟨values, signal :: queue, table, .idle⟩ n)
      ((agentStep F.toItemClass T ⟨values, signal :: queue, table, .idle⟩).lane F T n) := by
  cases signal with
  | interfacesAdded name data =>
    simp only [agentStep]
    split
    · rename_i hOwned
      rcases eq_or_ne name n with rfl | hn
      · right
        simpa [World.lane, Task.hand, Signal.mail?, hOwned] using Replica.Step.take
      · left
        simp [World.lane, Task.hand, Signal.mail?, hn]
    · rename_i hOther
      left
      simp [World.lane, Task.hand, Signal.mail?, hOther]
  | propertiesChanged name fields =>
    have hRow := row_onPropertiesChanged (T := T) hs name fields n
    rcases eq_or_ne name n with rfl | hn
    · right
      rw [if_pos rfl] at hRow
      simp only [World.lane, agentStep, hRow, Task.hand, Signal.mail?, List.filterMap_cons, if_true]
      exact Replica.Step.receive
    · left
      rw [if_neg hn.symm] at hRow
      simp [World.lane, agentStep, hRow, Task.hand, Signal.mail?, hn]

theorem lane_ask (hFits : F.Fits (values name)) :
    Follow F T n (World.lane F T ⟨values, queue, table, .refresh (name :: rest)⟩ n)
      ((agentStep F.toItemClass T ⟨values, queue, table, .refresh (name :: rest)⟩).lane F T n) := by
  rcases eq_or_ne name n with rfl | hn
  · right
    simp only [World.lane, agentStep, Task.hand, if_true]
    exact Replica.Step.ask hFits
  · left
    simp [World.lane, agentStep, Task.hand, hn]

theorem lane_open (hs : Sorted F.name table.items) :
    Follow F T n (World.lane F T ⟨values, queue, table, .create name maps rest⟩ n)
      ((agentStep F.toItemClass T ⟨values, queue, table, .create name maps rest⟩).lane F T n) := by
  obtain ⟨t, it, hGet, -⟩ := getItem_found (I := F.toItemClass) hs
    (path_length_lt_objectPath (T := T) name)
  have hRow := row_getItem hs hGet n
  rcases eq_or_ne name n with rfl | hn
  · right
    rw [if_pos rfl] at hRow
    simp only [World.lane, agentStep, hGet, hRow, Task.hand, if_true]
    exact Replica.Step.open
  · left
    rw [if_neg hn.symm] at hRow
    simp [World.lane, agentStep, hGet, hRow, Task.hand, hn]

theorem lane_filled {it : Nat} :
    Follow F T n (World.lane F T ⟨values, queue, table, .fill it name [] rest⟩ n)
      ((agentStep F.toItemClass T ⟨values, queue, table, .fill it name [] rest⟩).lane F T n) := by
  rcases eq_or_ne name n with rfl | hn
  · right
    simp only [World.lane, agentStep, Task.hand, if_true]
    exact Replica.Step.filled
  · left
    simp [World.lane, agentStep, Task.hand, hn]

theorem lane_set (hs : Sorted F.name table.items) {it : Nat} {row : Row} {m : FieldsMap}
    (hItem : table.items[it]? = some row) (hName : F.name row = name) (hFits : name = n → F.Fits m) :
    Follow F T n (World.lane F T ⟨values, queue, table, .fill it name (m :: maps) rest⟩ n)
      ((agentStep F.toItemClass T ⟨values, queue, table, .fill it name (m :: maps) rest⟩).lane F T n) := by
  have hRow := row_setFieldsAt hs hItem m n
  rw [hName] at hRow
  rcases eq_or_ne name n with rfl | hn
  · right
    have hRaised : (setFieldsAt F.toItemClass table it m).raised = none := by
      rw [setFieldsAt_eq hItem]
      exact hFits rfl row
    have hBefore := row_of_getElem hs hItem
    rw [hName] at hBefore
    rw [if_pos rfl] at hRow
    simp only [World.lane, agentStep, hRaised, hRow, hBefore, Task.hand, if_true]
    exact Replica.Step.set
  · left
    rw [if_neg hn.symm] at hRow
    simp only [agentStep]
    split
    · simp [World.lane, Task.hand, hn, hRow]
    · simp [World.lane, Task.hand, hn, hRow]

/-- A move of the agent is a step of the lane it is about and nothing to the others. -/
theorem lane_agentStep (h : w.Sound F) (hTimely : w.Timely F T .agent)
    (hFits : ∀ m ∈ (w.lane F T n).flight, F.Fits m) :
    Follow F T n (w.lane F T n) ((agentStep F.toItemClass T w).lane F T n) := by
  obtain ⟨values, queue, table, task⟩ := w
  cases task with
  | idle =>
    cases queue with
    | nil => exact .inl rfl
    | cons signal queue => exact lane_signal h.sorted signal
  | refresh names =>
    cases names with
    | nil => exact .inl rfl
    | cons name rest => exact lane_ask (hTimely name rest rfl)
  | create name maps rest => exact lane_open h.sorted
  | fill it name maps rest =>
    cases maps with
    | nil => exact lane_filled
    | cons m maps =>
      obtain ⟨row, hItem, hName⟩ := h.held it name _ rest rfl
      refine lane_set h.sorted hItem hName ?_
      rintro rfl
      apply hFits
      simp [World.lane, Lane.flight, Task.hand, Hand.maps]

theorem lane_change {fields : FieldsMap} (hTimely : w.Timely F T (.change name fields)) :
    Follow F T n (w.lane F T n) ((w.apply F.toItemClass T (.change name fields)).lane F T n) := by
  obtain ⟨hFits, hSeen⟩ := hTimely
  rcases eq_or_ne name n with rfl | hn
  · right
    cases hRow : w.table.row F.toItemClass name with
    | some row =>
      simp only [World.lane, World.apply, hRow, Function.update_self, Option.isSome_some, if_true,
        List.filterMap_append, List.filterMap_cons, Signal.mail?, List.filterMap_nil]
      exact Replica.Step.change hFits
    | none =>
      rcases hSeen with hSome | ⟨hHand, hMail⟩
      · simp [hRow] at hSome
      · simp only [World.lane, World.apply, hRow, Function.update_self, hHand, hMail,
          Option.isSome_none, Bool.false_eq_true, if_false]
        exact Replica.Step.changeUnseen
  · left
    simp only [World.lane, World.apply, Function.update_of_ne hn.symm]
    split
    · simp [Signal.mail?, hn]
    · rfl

theorem lane_announce {data : AddedData} (hCarries : Carries data.maps (w.values name))
    (hFits : ∀ m ∈ data.maps, F.Fits m) :
    Follow F T n (w.lane F T n) ((w.apply F.toItemClass T (.announce name data)).lane F T n) := by
  by_cases hMine : name = n ∧ isOwned T data.keys = true
  · right
    obtain ⟨rfl, hOwned⟩ := hMine
    simp only [World.lane, World.apply, List.filterMap_append, List.filterMap_cons, Signal.mail?,
      hOwned, and_self, if_true, List.filterMap_nil]
    exact Replica.Step.announce hCarries hFits
  · left
    simp [World.lane, World.apply, Signal.mail?, hMine]

theorem lane_getSubTree {data : Objects} (h : w.Sound F) (hIdle : w.task = .idle) :
    Follow F T n (w.lane F T n) ((w.apply F.toItemClass T (.getSubTree data)).lane F T n) := by
  have hRow := row_pruneLoop (T := T) h.sorted data n
  split at hRow
  · left
    simp [World.lane, World.apply, hRow, hIdle, Task.hand]
  · right
    simp only [World.lane, World.apply, hRow, hIdle, Task.hand]
    exact Replica.Step.drop

end Lanes

section Runs

structure World.Follows (F : FieldClass Row) (T : Config) (w : World Row) : Prop where
  sound : w.Sound F
  fresh : ∀ n, Fresh F.copy (w.lane F T n)

theorem follows_step (h : w.Follows F T) (hTimely : w.Timely F T a)
    (hStep : w.Step F.toItemClass T a w') : w'.Follows F T := by
  refine ⟨sound_step h.sound hStep, fun n => ?_⟩
  obtain ⟨hEnabled, rfl⟩ := hStep
  suffices hLane : Follow F T n (w.lane F T n) ((w.apply F.toItemClass T a).lane F T n) by
    rcases hLane with hSame | hLane
    · exact hSame ▸ h.fresh n
    · exact hLane.fresh (h.fresh n)
  cases a with
  | change name fields => exact lane_change hTimely
  | announce name data => exact lane_announce hEnabled hTimely
  | getSubTree data => exact lane_getSubTree h.sound hEnabled.1
  | agent => exact lane_agentStep h.sound hTimely (h.fresh n).fit

theorem follows_start (values : Str → FieldsMap) : (World.start values).Follows F T where
  sound := ⟨initial_sorted, by simp [World.start]⟩
  fresh n := by
    constructor <;> simp [World.start, World.lane, Lane.flight, Task.hand, Hand.maps, Openings,
      initial, State.row, find]

def World.TimelyStep (F : FieldClass Row) (T : Config) (w : World Row) (a : Action) (w' : World Row) :
    Prop :=
  w.Timely F T a ∧ w.Step F.toItemClass T a w'

/-- Every field of every row has the current value of its property, if that has the field's type. -/
def World.Current (F : FieldClass Row) (w : World Row) : Prop :=
  ∀ f ∈ F.fields, ∀ n row value, w.table.row F.toItemClass n = some row →
    (w.values n).find? f.property = some value → f.Shows row value

/-- In a session without unseen changes the rows are current whenever the queue
is empty and the agent idle. -/
theorem rows_current (F : FieldClass Row) (T : Config) (values : Str → FieldsMap) (actions : List Action)
    (w : World Row) (hRun : Run (World.TimelyStep F T) (World.start values) actions w)
    (hQueue : w.queue = []) (hIdle : w.task = .idle) : w.Current F := by
  intro f hf n row value hRow hValue
  have hFollows := hRun.preserves (P := World.Follows F T)
    (fun w a w' h hStep => follows_step h hStep.1 hStep.2) (follows_start values)
  have hFlight : (w.lane F T n).flight = [] := by
    simp [World.lane, Lane.flight, hQueue, hIdle, Task.hand, Hand.maps]
  exact (hFollows.fresh n).quiet hFlight hRow hValue f hf rfl

end Runs

section Ambient

open Sensors

def reading (value : ℚ) : FieldsMap := OrdMap.ofList [(Str.lit "Value", .double value)]

def readingData (value : ℚ) : AddedData :=
  OrdMap.ofList [(Str.lit "xyz.openbmc_project.Sensor.Value", reading value)]

def ambientValues : Str → FieldsMap := fun name => if name = Str.lit "ambient" then reading 27 else ∅

theorem readingData_carries (value : ℚ) : Replica.Carries (readingData value).maps (reading value) := by
  intro k
  have hMaps : (readingData value).maps = [reading value] := rfl
  rw [hMaps, OrdMap.latest_cons, OrdMap.latest_nil, Option.none_or]

theorem sensors_fit (fields : FieldsMap) : (fieldClass ambientObjid).Fits fields := fun _ => rfl

theorem rows_current_at_ambient :
    let actions := [.announce (Str.lit "ambient") (readingData 27), .agent, .agent, .agent, .agent,
      .agent, .change (Str.lit "ambient") (reading 28), .agent]
    let w := (World.start ambientValues).after (itemClass ambientObjid) (sensorsTable "temperature") actions
    w.Current (fieldClass ambientObjid) ∧
      (w.table.row (itemClass ambientObjid) (Str.lit "ambient")).map Sensor.value = some 28 := by
  intro actions w
  refine ⟨rows_current (fieldClass ambientObjid) (sensorsTable "temperature") ambientValues actions w ?_
    (by decide) (by decide), by decide⟩
  have hAgent : ∀ (w : World Sensor) name rest, w.task = .refresh (name :: rest) →
      (fieldClass ambientObjid).Fits (w.values name) := fun w name _ _ => sensors_fit (w.values name)
  refine .cons ⟨fun m _ => sensors_fit m, readingData_carries 27, rfl⟩ ?_
  iterate 5 refine .cons ⟨hAgent _, trivial, rfl⟩ ?_
  refine .cons ⟨⟨sensors_fit _, .inl (by decide)⟩, trivial, rfl⟩ ?_
  exact .cons ⟨hAgent _, trivial, rfl⟩ (.nil _)

/-- A change between the announcement and the creation of the row is lost. -/
theorem ambient_update_lost :
    let actions := [.announce (Str.lit "ambient") (readingData 27),
      .change (Str.lit "ambient") (reading 28), .agent, .agent, .agent, .agent, .agent]
    let w := (World.start ambientValues).after (itemClass ambientObjid) (sensorsTable "temperature") actions
    Run (World.Step (itemClass ambientObjid) (sensorsTable "temperature")) (World.start ambientValues)
        actions w ∧
      w.queue = [] ∧ w.task = .idle ∧ ¬ w.Current (fieldClass ambientObjid) := by
  intro actions w
  refine ⟨?_, by decide, by decide, fun h => ?_⟩
  · refine .cons ⟨readingData_carries 27, rfl⟩ ?_
    iterate 5 refine .cons ⟨trivial, rfl⟩ ?_
    exact .cons ⟨trivial, rfl⟩ (.nil _)
  · have hStale : (w.table.row (itemClass ambientObjid) (Str.lit "ambient")).map Sensor.value = some 27 := by
      decide
    have hNow : (w.values (Str.lit "ambient")).find? (Str.lit "Value") = some (.double 28) := by decide
    obtain ⟨row, hRow, hValue⟩ := Option.map_eq_some_iff.mp hStale
    have hShown : row.value = 28 :=
      h (.typed "Value" Sensor.value) (.head _) (Str.lit "ambient") row _ hRow hNow (28 : ℚ) rfl
    exact absurd (hValue.symm.trans hShown) (by decide)

end Ambient

end YadroSnmp.Table
