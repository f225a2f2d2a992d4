import Mathlib.Data.List.Induction
import Mathlib.Data.List.Infix
import YadroSnmp.Yadro.Sensors

/-! # Alarm flags and the exported state

The flags of a row are the last booleans delivered for them, and the last trap
carries the exported state. Which flag combinations hide a critical alarm is
then a question about `getState` alone.
-/

namespace YadroSnmp.Sensors

open Snmp Table

/-- The last boolean delivered for a property, false before the first. -/
def lastBool (propertyName : Str) (maps : List FieldsMap) : Bool :=
  (maps.reverse.findSome? fun fields => fields.typed Bool propertyName).getD false

def criticalAlarmLow (maps : List FieldsMap) : Bool := lastBool (Str.lit "CriticalAlarmLow") maps
def criticalAlarmHigh (maps : List FieldsMap) : Bool := lastBool (Str.lit "CriticalAlarmHigh") maps
def warningAlarmLow (maps : List FieldsMap) : Bool := lastBool (Str.lit "WarningAlarmLow") maps
def warningAlarmHigh (maps : List FieldsMap) : Bool := lastBool (Str.lit "WarningAlarmHigh") maps

def Critical (maps : List FieldsMap) : Prop :=
  criticalAlarmLow maps = true ∨ criticalAlarmHigh maps = true

def ShowsCritical (value : Value) : Prop :=
  value = SensorState.criticalLow.value ∨ value = SensorState.criticalHigh.value

instance (maps : List FieldsMap) : Decidable (Critical maps) := inferInstanceAs (Decidable (_ ∨ _))
instance (value : Value) : Decidable (ShowsCritical value) := inferInstanceAs (Decidable (_ ∨ _))

/-- While a critical alarm is up, both the state column and the last trap show one. -/
def AlarmShown (life : Sensor × List Trap) (maps : List FieldsMap) : Prop :=
  Critical maps →
    (∃ value, getSnmpReply life.1 columnState = .value value ∧ ShowsCritical value) ∧
    ∃ trap value, life.2.getLast? = some trap ∧ trap.carried = [value] ∧ ShowsCritical value

/-- The map that raises the first critical alarm makes the row send a trap. -/
def AlarmSent (life : Sensor × List Trap) (maps : List FieldsMap) (fields : FieldsMap) : Prop :=
  ¬ Critical maps → Critical (maps ++ [fields]) → (setFields life.1 fields).traps ≠ []

/-- After every step of the run the alarms are shown, and the first one was sent. -/
def NoAlarmMasked (readObjid : ReadObjid) (folder name : Str) (maps : List FieldsMap) : Prop :=
  ∀ seen, seen <+: maps →
    AlarmShown ((itemClass readObjid).life folder name seen) seen ∧
    ∀ before fields, seen = before ++ [fields] →
      AlarmSent ((itemClass readObjid).life folder name before) before fields

/-- A low critical alarm under a warning, without a high critical alarm. -/
def LowAlarmUnderWarning (maps : List FieldsMap) : Prop :=
  criticalAlarmLow maps = true ∧ criticalAlarmHigh maps = false ∧
    (warningAlarmLow maps = true ∨ warningAlarmHigh maps = true)

instance (maps : List FieldsMap) : Decidable (LowAlarmUnderWarning maps) :=
  inferInstanceAs (Decidable (_ ∧ _ ∧ (_ ∨ _)))

theorem lastBool_snoc (propertyName : Str) (maps : List FieldsMap) (fields : FieldsMap) :
    lastBool propertyName (maps ++ [fields]) =
      (fields.typed Bool propertyName).getD (lastBool propertyName maps) := by
  rw [lastBool, List.reverse_append, List.reverse_singleton, List.singleton_append,
    List.findSome?_cons]
  cases fields.typed Bool propertyName <;> rfl

/-- What the row of a life knows of the maps delivered to it. -/
structure Mirrors (notify state : OID) (maps : List FieldsMap) (life : Sensor × List Trap) : Prop where
  critLow : life.1.critLowAlarm = criticalAlarmLow maps
  critHi : life.1.critHiAlarm = criticalAlarmHigh maps
  warnLow : life.1.warnLowAlarm = warningAlarmLow maps
  warnHi : life.1.warnHiAlarm = warningAlarmHigh maps
  notifyOid : life.1.notifyOid = notify
  stateOid : life.1.stateOid = state
  lastTrap : life.2.getLast? = some ⟨notify, [(state, (getState life.1).value)]⟩

section Life

variable {readObjid : ReadObjid} {folder name : Str}

theorem Mirrors.deliver {notify state : OID} {maps : List FieldsMap} {life : Sensor × List Trap}
    (h : Mirrors notify state maps life) (hNotify : notify ≠ []) (hState : state ≠ [])
    (fields : FieldsMap) :
    Mirrors notify state (maps ++ [fields]) ((itemClass readObjid).deliver life fields) where
  critLow := by
    rw [criticalAlarmLow, lastBool_snoc, ← criticalAlarmLow, ← h.critLow]
    exact setField_eq _ _ _
  critHi := by
    rw [criticalAlarmHigh, lastBool_snoc, ← criticalAlarmHigh, ← h.critHi]
    exact setField_eq _ _ _
  warnLow := by
    rw [warningAlarmLow, lastBool_snoc, ← warningAlarmLow, ← h.warnLow]
    exact setField_eq _ _ _
  warnHi := by
    rw [warningAlarmHigh, lastBool_snoc, ← warningAlarmHigh, ← h.warnHi]
    exact setField_eq _ _ _
  notifyOid := h.notifyOid
  stateOid := h.stateOid
  lastTrap := by
    change (life.2 ++ (setFields life.1 fields).traps).getLast? =
      some ⟨notify, [(state, (getState (assignFields life.1 fields)).value)]⟩
    by_cases hSame : getState life.1 = getState (assignFields life.1 fields)
    · have hQuiet : (setFields life.1 fields).traps = [] := if_neg (not_not_intro hSame)
      rw [hQuiet, List.append_nil, h.lastTrap, hSame]
    · have hSend := sendNotify_eq (s := assignFields life.1 fields) (h.notifyOid ▸ hNotify)
        (h.stateOid ▸ hState) (getState (assignFields life.1 fields))
      simp [setFields, hSame, hSend, h.notifyOid, h.stateOid]

theorem life_mirrors (hNotify : notifyOid folder ≠ []) (hState : stateOid readObjid folder name ≠ [])
    (maps : List FieldsMap) :
    Mirrors (notifyOid folder) (stateOid readObjid folder name) maps
      ((itemClass readObjid).life folder name maps) := by
  induction maps using List.reverseRecOn with
  | nil =>
    refine ⟨rfl, rfl, rfl, rfl, rfl, rfl, ?_⟩
    change (sendNotify (make readObjid folder name) .normal).getLast? = _
    rw [sendNotify_eq hNotify hState]
    rfl
  | append_singleton maps fields ih =>
    rw [ItemClass.life_snoc]
    exact ih.deliver hNotify hState fields

end Life

theorem showsCritical_getState (s : Sensor) :
    ShowsCritical (getState s).value ↔
      s.critHiAlarm = true ∨
        s.critLowAlarm = true ∧ s.warnLowAlarm = false ∧ s.warnHiAlarm = false := by
  unfold getState
  cases s.critHiAlarm <;> cases s.warnHiAlarm <;> cases s.warnLowAlarm <;> cases s.critLowAlarm <;>
    simp [ShowsCritical, SensorState.value, SensorState.code]

theorem Mirrors.alarmShown_iff {notify state : OID} {maps : List FieldsMap} {life : Sensor × List Trap}
    (h : Mirrors notify state maps life) : AlarmShown life maps ↔ ¬ LowAlarmUnderWarning maps := by
  have hShown : AlarmShown life maps ↔ (Critical maps → ShowsCritical (getState life.1).value) := by
    simp [AlarmShown, h.lastTrap, Trap.carried]
  rw [hShown, showsCritical_getState, h.critLow, h.critHi, h.warnLow, h.warnHi, Critical,
    LowAlarmUnderWarning]
  cases criticalAlarmLow maps <;> cases criticalAlarmHigh maps <;> cases warningAlarmLow maps <;>
    cases warningAlarmHigh maps <;> simp

theorem Mirrors.alarmSent {notify state : OID} {maps : List FieldsMap} {life : Sensor × List Trap}
    (h : Mirrors notify state maps life) (hNotify : notify ≠ []) (hState : state ≠ [])
    {readObjid : ReadObjid} {fields : FieldsMap}
    (hShown : AlarmShown ((itemClass readObjid).deliver life fields) (maps ++ [fields])) :
    AlarmSent life maps fields := by
  intro hBefore hAfter
  obtain ⟨⟨value, hReply, hValue⟩, -⟩ := hShown hAfter
  have hNow : ShowsCritical (getState (assignFields life.1 fields)).value := by
    cases hReply
    exact hValue
  have hPrev : ¬ ShowsCritical (getState life.1).value := by
    rw [showsCritical_getState, h.critLow, h.critHi]
    rw [Critical] at hBefore
    tauto
  have hChange : getState life.1 ≠ getState (assignFields life.1 fields) := by
    intro hSame
    rw [← hSame] at hNow
    exact hPrev hNow
  have hSend := sendNotify_eq (s := assignFields life.1 fields) (h.notifyOid ▸ hNotify)
    (h.stateOid ▸ hState) (getState (assignFields life.1 fields))
  simp [setFields, hChange, hSend]

/-- A run shows and reports its critical alarms after every step exactly when
no step leaves a low critical alarm under a warning. -/
theorem noAlarmMasked_iff (readObjid : ReadObjid) (folder name : Str)
    (hNotify : notifyOid folder ≠ []) (hState : stateOid readObjid folder name ≠ [])
    (maps : List FieldsMap) :
    NoAlarmMasked readObjid folder name maps ↔
      ∀ seen, seen <+: maps → ¬ LowAlarmUnderWarning seen := by
  constructor
  · intro h seen hSeen
    exact (life_mirrors hNotify hState seen).alarmShown_iff.mp (h seen hSeen).1
  · intro h seen hSeen
    have hShown := (life_mirrors hNotify hState seen).alarmShown_iff.mpr (h seen hSeen)
    refine ⟨hShown, ?_⟩
    rintro before fields rfl
    rw [ItemClass.life_snoc] at hShown
    exact (life_mirrors hNotify hState before).alarmSent hNotify hState hShown

def ambientObjid : ReadObjid := fun _ =>
  some (yadroOid [1, 2, 1, 7, 7, 97, 109, 98, 105, 101, 110, 116])

def raise (alarms : List String) : FieldsMap :=
  OrdMap.ofList (alarms.map fun alarm => (Str.lit alarm, .bool true))

theorem critical_low_shown_at_ambient :
    NoAlarmMasked ambientObjid (sensorsTable "temperature").path (Str.lit "ambient")
      [raise ["CriticalAlarmLow"]] := by
  refine (noAlarmMasked_iff ambientObjid (sensorsTable "temperature").path (Str.lit "ambient")
    (by decide) (by decide) [raise ["CriticalAlarmLow"]]).mpr ?_
  have hInits : ∀ seen ∈ [raise ["CriticalAlarmLow"]].inits, ¬ LowAlarmUnderWarning seen := by decide
  exact fun seen hSeen => hInits seen ((List.mem_inits seen _).mpr hSeen)

theorem critical_low_masked_at_ambient :
    notifyOid (sensorsTable "temperature").path ≠ [] ∧
      stateOid ambientObjid (sensorsTable "temperature").path (Str.lit "ambient") ≠ [] ∧
      ¬ NoAlarmMasked ambientObjid (sensorsTable "temperature").path (Str.lit "ambient")
        [raise ["WarningAlarmLow", "CriticalAlarmLow"]] := by
  refine ⟨by decide, by decide, fun h => ?_⟩
  obtain ⟨⟨value, hReply, hValue⟩, -⟩ :=
    (h [raise ["WarningAlarmLow", "CriticalAlarmLow"]] List.prefix_rfl).1 (by decide)
  have hState : getSnmpReply ((itemClass ambientObjid).life (sensorsTable "temperature").path
      (Str.lit "ambient") [raise ["WarningAlarmLow", "CriticalAlarmLow"]]).1 columnState =
      .value SensorState.warningLow.value := by decide
  rw [hState] at hReply
  cases hReply
  revert hValue
  decide

end YadroSnmp.Sensors
