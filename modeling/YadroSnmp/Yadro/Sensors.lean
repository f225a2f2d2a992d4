import Mathlib.Algebra.Order.Floor.Ring
import Mathlib.Data.Rat.Floor
import YadroSnmp.Data.Field
import YadroSnmp.Data.Handlers

/-! # Sensor rows

The row class of the five sensor tables: construction from the folder and the
name, the update of the nine fields, the exported state and the traps.
-/

namespace YadroSnmp.Sensors

open Snmp Table

/-- `state_t`: state codes like in MIB file. -/
inductive SensorState where
  | disabled
  | normal
  | warningLow
  | warningHigh
  | criticalLow
  | criticalHigh
deriving DecidableEq

def SensorState.code : SensorState → Int
  | .disabled => 0
  | .normal => 1
  | .warningLow => 2
  | .warningHigh => 3
  | .criticalLow => 4
  | .criticalHigh => 5

def SensorState.value (state : SensorState) : Value := .integer state.code

structure Sensor where
  name : Str
  value : ℚ
  warnLow : ℚ
  warnLowAlarm : Bool
  warnHi : ℚ
  warnHiAlarm : Bool
  critLow : ℚ
  critLowAlarm : Bool
  critHi : ℚ
  critHiAlarm : Bool
  notifyOid : OID
  stateOid : OID
  power : Nat
deriving DecidableEq

/-- `folder[n + 1]` for the last slash at `n`; past the end it reads NUL. -/
def typeLetter (folder : Str) : Option UInt8 :=
  (Str.findLast (· == '/'.toUInt8) folder).map fun n => (folder[n + 1]?).getD 0

def notifyOid (folder : Str) : OID :=
  match typeLetter folder with
  | none => []
  | some letter =>
    if letter = 't'.toUInt8 then yadroOid [0, 2]
    else if letter = 'v'.toUInt8 then yadroOid [0, 3]
    else if letter = 'f'.toUInt8 then yadroOid [0, 4]
    else if letter = 'c'.toUInt8 then yadroOid [0, 5]
    else if letter = 'p'.toUInt8 then yadroOid [0, 6]
    else []

def power (folder : Str) : Nat := if typeLetter folder = some 'f'.toUInt8 then 0 else 3

def stateOid (readObjid : ReadObjid) (folder name : Str) : OID :=
  match (notifyOid folder).getLast? with
  | none => []
  | some back =>
    makeOid readObjid (Str.lit ".1.3.6.1.4.1.49769.1." ++ formatUlong back ++ Str.lit ".1.7.\"" ++
      formatCStr name ++ Str.lit "\"")

def make (readObjid : ReadObjid) (folder name : Str) : Sensor where
  name := name
  value := 0
  warnLow := 0
  warnLowAlarm := false
  warnHi := 0
  warnHiAlarm := false
  critLow := 0
  critLowAlarm := false
  critHi := 0
  critHiAlarm := false
  notifyOid := notifyOid folder
  stateOid := stateOid readObjid folder name
  power := power folder

def getState (s : Sensor) : SensorState :=
  if s.critHiAlarm then .criticalHigh
  else if s.warnHiAlarm then .warningHigh
  else if s.warnLowAlarm then .warningLow
  else if s.critLowAlarm then .criticalLow
  else .normal

/-- `send_notify`: without both OIDs the trap is replaced by an error message. -/
def sendNotify (s : Sensor) (state : SensorState) : List Trap :=
  if s.notifyOid ≠ [] ∧ s.stateOid ≠ [] then [⟨s.notifyOid, [(s.stateOid, state.value)]⟩] else []

def assignFields (s : Sensor) (fields : FieldsMap) : Sensor :=
  { s with
    value := setField fields (Str.lit "Value") s.value
    warnLow := setField fields (Str.lit "WarningLow") s.warnLow
    warnLowAlarm := setField fields (Str.lit "WarningAlarmLow") s.warnLowAlarm
    warnHi := setField fields (Str.lit "WarningHigh") s.warnHi
    warnHiAlarm := setField fields (Str.lit "WarningAlarmHigh") s.warnHiAlarm
    critLow := setField fields (Str.lit "CriticalLow") s.critLow
    critLowAlarm := setField fields (Str.lit "CriticalAlarmLow") s.critLowAlarm
    critHi := setField fields (Str.lit "CriticalHigh") s.critHi
    critHiAlarm := setField fields (Str.lit "CriticalAlarmHigh") s.critHiAlarm }

/-- The comparison of the scaled values before and after only guards a debug message. -/
def setFields (s : Sensor) (fields : FieldsMap) : Reaction Sensor :=
  let prevState := getState s
  let s := assignFields s fields
  let lastState := getState s
  { row := s
    traps := if prevState ≠ lastState then sendNotify s lastState else []
    raised := none }

def onCreate (s : Sensor) : List Trap := sendNotify s .normal

def onDestroy (s : Sensor) : List Trap := sendNotify s .disabled

/-- `std::round`: halves go away from zero. -/
def roundAway (q : ℚ) : Int := if 0 ≤ q then ⌊q + 1 / 2⌋ else ⌈q - 1 / 2⌉

/-- The field in units of the row's power of ten, rounded. The product is exact here; the
source multiplies in floating point and rounds that, which may differ next to a half. -/
def scaled (s : Sensor) (field : ℚ) : Int := roundAway (field * 10 ^ s.power)

/-- `getValue`: the cast has no meaning outside the range of `int`. -/
def getValue (s : Sensor) (field : ℚ) : Answer :=
  if -2 ^ 31 ≤ scaled s field ∧ scaled s field < 2 ^ 31 then .value (.integer (scaled s field))
  else .undefined

/-- `get_snmp_reply`, by column number. -/
def getSnmpReply (s : Sensor) (colnum : Nat) : Answer :=
  match colnum with
  | 1 => .value (.octetStr s.name)
  | 2 => getValue s s.value
  | 3 => getValue s s.warnLow
  | 4 => getValue s s.warnHi
  | 5 => getValue s s.critLow
  | 6 => getValue s s.critHi
  | 7 => .value (getState s).value
  | _ => .noSuchObject

def columnState : Nat := 7

def itemClass (readObjid : ReadObjid) : ItemClass Sensor where
  name := Sensor.name
  make := make readObjid
  setFields := setFields
  onCreate := onCreate
  onDestroy := onDestroy
  name_make _ _ := rfl
  name_setFields _ _ := rfl

def fields : List (Field Sensor) :=
  [.typed "Value" Sensor.value, .typed "WarningLow" Sensor.warnLow,
    .typed "WarningAlarmLow" Sensor.warnLowAlarm, .typed "WarningHigh" Sensor.warnHi,
    .typed "WarningAlarmHigh" Sensor.warnHiAlarm, .typed "CriticalLow" Sensor.critLow,
    .typed "CriticalAlarmLow" Sensor.critLowAlarm, .typed "CriticalHigh" Sensor.critHi,
    .typed "CriticalAlarmHigh" Sensor.critHiAlarm]

def fieldClass (readObjid : ReadObjid) : FieldClass Sensor where
  toItemClass := itemClass readObjid
  fields := fields
  assigned := by
    intro f hf row map _
    simp only [fields, List.mem_cons, List.not_mem_nil, or_false] at hf
    obtain rfl | rfl | rfl | rfl | rfl | rfl | rfl | rfl | rfl := hf
    all_goals exact Field.typed_assigned rfl

def rowClass (readObjid : ReadObjid) : RowClass Sensor where
  toFieldClass := fieldClass readObjid
  core s := (s.name, s.notifyOid, s.stateOid, s.power)
  core_setFields _ _ := rfl
  ext := by
    intro s s' hCore hFields
    have hFields' : ∀ f ∈ fields, f.get s = f.get s' := hFields
    simp only [fields, List.forall_mem_cons, Field.typed] at hFields'
    cases s
    cases s'
    simp_all
  refused _ := False
  raised_iff _ _ := by simp [fieldClass, itemClass, setFields]

def sensorsTable (folder : String) : Config where
  path := Str.lit "/xyz/openbmc_project/sensors/" ++ Str.lit folder
  interfaces :=
    [Str.lit "xyz.openbmc_project.Sensor.Value",
      Str.lit "xyz.openbmc_project.Sensor.Threshold.Warning",
      Str.lit "xyz.openbmc_project.Sensor.Threshold.Critical",
      Str.lit "xyz.openbmc_project.Sensor.Threshold.Fatal"]

def sensors : List Config :=
  ["temperature", "voltage", "fan_tach", "current", "power"].map sensorsTable

theorem notifyOid_ne_nil {T : Config} (hT : T ∈ sensors) : notifyOid T.path ≠ [] := by
  have hAll : ∀ T ∈ sensors, notifyOid T.path ≠ [] := by decide
  exact hAll T hT

theorem SensorState.value_injective : Function.Injective SensorState.value := by
  intro a b h
  cases a <;> cases b <;> first | rfl | cases h

@[simp] theorem getSnmpReply_state (s : Sensor) :
    getSnmpReply s columnState = .value (getState s).value := rfl

section Oids

variable {s : Sensor} (fields : FieldsMap)

@[simp] theorem assignFields_notifyOid : (assignFields s fields).notifyOid = s.notifyOid := rfl
@[simp] theorem assignFields_stateOid : (assignFields s fields).stateOid = s.stateOid := rfl

theorem sendNotify_eq (hNotify : s.notifyOid ≠ []) (hState : s.stateOid ≠ []) (state : SensorState) :
    sendNotify s state = [⟨s.notifyOid, [(s.stateOid, state.value)]⟩] :=
  if_pos ⟨hNotify, hState⟩

end Oids

theorem getState_ne_disabled (s : Sensor) : getState s ≠ .disabled := by
  unfold getState
  repeat' split
  all_goals simp

end YadroSnmp.Sensors
