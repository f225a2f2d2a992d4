import YadroSnmp.Lib.ChangeLog
import YadroSnmp.Yadro.SensorAlarms

/-! # The trap log of a sensor table

A slot exports the state of its row, or `disabled` without one. Every call
sends exactly the change it makes to that value, so the states sent for a name
track it through any run of the table.
-/

namespace YadroSnmp.Sensors

open Snmp Table Labelled ChangeLog

def Event.states (e : Event) : List Value := e.traps.flatMap Trap.carried

def sentStates (calls : List Event) : List Value := calls.flatMap Event.states

/-- The state a receiver should know: a name without a row is disabled. -/
def exportedState : Option Sensor → Value
  | none => SensorState.disabled.value
  | some row => (getState row).value

/-- The trap OIDs of a row are those built for its folder and name. -/
structure RowOids (readObjid : ReadObjid) (folder name : Str) (row : Sensor) : Prop where
  notify : row.notifyOid = notifyOid folder
  state : row.stateOid = stateOid readObjid folder name

section Slot

variable {readObjid : ReadObjid} {folder name : Str}

theorem rowOids_of_step {s t : Option Sensor} {e : Event}
    (hs : ∀ row ∈ s, RowOids readObjid folder name row)
    (h : Slot.Step (itemClass readObjid) folder name s e t) :
    ∀ row ∈ t, RowOids readObjid folder name row := by
  cases h with
  | create =>
    rintro _ ⟨⟩
    exact ⟨rfl, rfl⟩
  | setFields row fields =>
    rintro _ ⟨⟩
    exact ⟨(hs row rfl).notify, (hs row rfl).state⟩
  | destroy row => rintro _ ⟨⟩

variable (hNotify : notifyOid folder ≠ []) (hState : stateOid readObjid folder name ≠ [])
include hNotify hState

theorem RowOids.carried {row : Sensor} (h : RowOids readObjid folder name row) (state : SensorState) :
    (sendNotify row state).flatMap Trap.carried = [state.value] := by
  rw [sendNotify_eq (h.notify ▸ hNotify) (h.state ▸ hState)]
  rfl

/-- Each call sends the change it makes to the exported state. -/
theorem states_of_step {s t : Option Sensor} {e : Event}
    (hs : ∀ row ∈ s, RowOids readObjid folder name row)
    (h : Slot.Step (itemClass readObjid) folder name s e t) :
    Event.states e = entry (exportedState s) (exportedState t) := by
  have ht := rowOids_of_step hs h
  cases h with
  | create =>
    exact (ht _ rfl).carried hNotify hState .normal
  | setFields row fields =>
    change (setFields row fields).traps.flatMap Trap.carried =
      entry (getState row).value (getState (assignFields row fields)).value
    have hSend : (sendNotify (assignFields row fields) (getState (assignFields row fields))).flatMap
        Trap.carried = [(getState (assignFields row fields)).value] :=
      (ht _ rfl).carried hNotify hState _
    by_cases hSame : getState row = getState (assignFields row fields)
    · simp [setFields, entry, hSame]
    · simp [setFields, entry, hSame, SensorState.value_injective.eq_iff, hSend]
  | destroy row =>
    change (sendNotify row .disabled).flatMap Trap.carried =
      entry (getState row).value SensorState.disabled.value
    rw [(hs row rfl).carried hNotify hState, entry,
      if_neg (SensorState.value_injective.ne (getState_ne_disabled row))]

theorem slot_tracks {calls : List Event} {s : Option Sensor}
    (h : Run (Slot.Step (itemClass readObjid) folder name) none calls s) :
    Tracks SensorState.disabled.value (sentStates calls) (exportedState s) :=
  tracks_of_run exportedState Event.states (P := fun s => ∀ row ∈ s, RowOids readObjid folder name row)
    (fun _ _ _ => rowOids_of_step) (fun _ _ _ => states_of_step hNotify hState) (by simp) h

theorem living_states {calls : List Event} {row : Sensor}
    (h : Slot.Living (itemClass readObjid) folder name calls row) :
    RowOids readObjid folder name row ∧
      ∃ rest, sentStates calls = SensorState.normal.value :: rest ∧
        SensorState.disabled.value ∉ rest := by
  induction h with
  | create =>
    refine ⟨⟨rfl, rfl⟩, [], ?_, by simp⟩
    have hRow : RowOids readObjid folder name (make readObjid folder name) := ⟨rfl, rfl⟩
    rw [sentStates, List.flatMap_singleton]
    exact hRow.carried hNotify hState .normal
  | @setFields calls row fields _ ih =>
    obtain ⟨hRow, rest, hSent, hRest⟩ := ih
    have hStep := states_of_step (s := some row) hNotify hState (by rintro _ ⟨⟩; exact hRow)
      (.setFields row fields)
    refine ⟨⟨hRow.notify, hRow.state⟩,
      rest ++ entry (getState row).value (getState (assignFields row fields)).value, ?_, ?_⟩
    · rw [sentStates, List.flatMap_append, List.flatMap_singleton, hStep, ← sentStates, hSent]
      rfl
    · intro hMem
      rcases List.mem_append.mp hMem with hMem | hMem
      · exact hRest hMem
      · unfold entry at hMem
        split at hMem
        · cases hMem
        · exact SensorState.value_injective.ne (getState_ne_disabled _) (List.mem_singleton.mp hMem).symm

theorem ended_states {life : List Event} (h : Slot.Ended (itemClass readObjid) folder name life) :
    ∃ rest, sentStates life = SensorState.normal.value :: rest ++ [SensorState.disabled.value] ∧
      SensorState.disabled.value ∉ rest := by
  obtain ⟨before, row, hLiving, rfl⟩ := h
  obtain ⟨hRow, rest, hSent, hRest⟩ := living_states hNotify hState hLiving
  refine ⟨rest, ?_, hRest⟩
  rw [sentStates, List.flatMap_append, List.flatMap_singleton, ← sentStates, hSent]
  exact congrArg _ (hRow.carried hNotify hState .disabled)

end Slot

/-- In every run of a sensor table the states sent for a name end with the state
served for its row, never repeat, and fall into lifetimes from `normal` to `disabled`. -/
theorem trap_log_faithful (readObjid : ReadObjid) {T : Config} (hT : T ∈ sensors) (name : Str)
    (hState : stateOid readObjid T.path name ≠ []) (ms : List Message) :
    let s := run (itemClass readObjid) T initial ms
    let states := (s.traps name).flatMap Trap.carried
    (∀ row, s.row (itemClass readObjid) name = some row →
      ∃ value, states.getLast? = some value ∧ value = (getState row).value ∧
        getSnmpReply row columnState = .value value) ∧
    (s.row (itemClass readObjid) name = none →
      states = [] ∨ states.getLast? = some SensorState.disabled.value) ∧
    states.IsChain (· ≠ ·) ∧
    ∃ (ended : List (List Event)) (current : List Event), s.history name = ended.flatten ++ current ∧
      (∀ life ∈ ended, Slot.Ended (itemClass readObjid) T.path name life ∧
        ∃ rest, sentStates life = SensorState.normal.value :: rest ++ [SensorState.disabled.value] ∧
          SensorState.disabled.value ∉ rest) ∧
      Slot.Current (itemClass readObjid) T.path name current (s.row (itemClass readObjid) name) ∧
      ∀ row, s.row (itemClass readObjid) name = some row →
        ∃ rest, sentStates current = SensorState.normal.value :: rest ∧
          SensorState.disabled.value ∉ rest := by
  intro s states
  have hNotify := notifyOid_ne_nil hT
  have hRun := reachable_slot (I := itemClass readObjid) (T := T) ms name
  have hTracks := slot_tracks hNotify hState hRun
  have hStates : states = sentStates (s.history name) := List.flatMap_assoc
  obtain ⟨ended, current, hHistory, hEnded, hCurrent⟩ := Slot.lifetimes hRun
  rw [hStates]
  refine ⟨?_, ?_, hTracks.chain.tail, ended, current, hHistory, ?_, hCurrent, ?_⟩
  · intro row hRow
    rw [hRow] at hTracks
    exact ⟨(getState row).value,
      hTracks.getLast?_eq (SensorState.value_injective.ne (getState_ne_disabled row)), rfl, rfl⟩
  · intro hRow
    rw [hRow] at hTracks
    exact hTracks.eq_nil_or_getLast?
  · exact fun life hLife => ⟨hEnded life hLife, ended_states hNotify hState (hEnded life hLife)⟩
  · intro row hRow
    rw [hRow] at hCurrent
    exact (living_states hNotify hState hCurrent).2

def ambientVisit : List Message :=
  [.interfacesAdded (.ok (objectPath (sensorsTable "temperature") (Str.lit "ambient"),
      OrdMap.ofList [(Str.lit "xyz.openbmc_project.Sensor.Value", OrdMap.ofList [(Str.lit "Value", .double 27)])])),
    .propertiesChanged (objectPath (sensorsTable "temperature") (Str.lit "ambient"))
      (.ok (raise ["WarningAlarmHigh"])),
    .interfacesRemoved (.ok (objectPath (sensorsTable "temperature") (Str.lit "ambient"),
      [Str.lit "xyz.openbmc_project.Sensor.Value"]))]

theorem trap_log_at_ambient :
    let s := run (itemClass ambientObjid) (sensorsTable "temperature") initial ambientVisit
    let states := (s.traps (Str.lit "ambient")).flatMap Trap.carried
    states = [SensorState.normal.value, SensorState.warningHigh.value, SensorState.disabled.value] ∧
      (s.row (itemClass ambientObjid) (Str.lit "ambient") = none →
        states = [] ∨ states.getLast? = some SensorState.disabled.value) ∧
      states.IsChain (· ≠ ·) := by
  have h := trap_log_faithful ambientObjid (T := sensorsTable "temperature") (.head _)
    (Str.lit "ambient") (by decide) ambientVisit
  exact ⟨by decide, h.2.1, h.2.2.1⟩

end YadroSnmp.Sensors
