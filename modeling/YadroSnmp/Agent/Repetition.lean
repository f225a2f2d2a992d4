import YadroSnmp.Agent.Cells
import YadroSnmp.Data.Redelivery

/-! # Inputs that come twice

The rows of all tables absorb a signal that is delivered again, the software
rows also one they refuse, and so does the power state. The agent then answers
as before and sends nothing.
-/

namespace YadroSnmp

open Snmp Table

namespace Sensors

theorem repeats (readObjid : ReadObjid) : (rowClass readObjid).Repeats where
  keep _ hf _ _ hNone := RowClass.keep_of_normal hf rfl hNone
  again _ _ := RowClass.again_of_normal id
  quiet row map hRow := by
    have hSame : assignFields row map = row := hRow
    change (setFields row map).traps = []
    simp [setFields, hSame]

end Sensors

namespace Inventory

theorem repeats (readObjid : ReadObjid) : (rowClass readObjid).Repeats where
  keep _ hf _ _ hNone := RowClass.keep_of_normal hf rfl hNone
  again _ _ := RowClass.again_of_normal id
  quiet row map hRow := by
    have hSame : assignFields row map = row := hRow
    change (setFields row map).traps = []
    simp [setFields, hSame]

end Inventory

namespace SoftwareVersions

variable {map : FieldsMap} {property : Str} {enumcvt : DBusEnum UInt8}

theorem setFieldEnum_none (old : UInt8) (h : map.find? property = none) :
    setFieldEnum map property enumcvt old = .ok old := by
  simp [setFieldEnum, FieldsMap.typed, h]

theorem setFieldEnum_again {old value : UInt8} (h : setFieldEnum map property enumcvt old = .ok value) :
    setFieldEnum map property enumcvt value = .ok value := by
  unfold setFieldEnum at h ⊢
  cases hTyped : map.typed Str property with
  | none => rfl
  | some str => simpa [hTyped] using h

theorem setField_again {α : Type} [HoldsAlternative α] (map : FieldsMap) (property : Str) (field : α) :
    setField map property (setField map property field) = setField map property field := by
  rw [setField_eq, setField_eq]
  cases map.typed α property with
  | none => rfl
  | some value => rfl

theorem setFields_again (s : Software) (map : FieldsMap) :
    (setFields (setFields s map).row map).row = (setFields s map).row := by
  cases hPurpose : setFieldEnum map (Str.lit "Purpose") purpose s.purpose with
  | error e => simp [setFields, hPurpose, setField_again]
  | ok p =>
    have hPurposeAgain := setFieldEnum_again hPurpose
    cases hActivation : setFieldEnum map (Str.lit "Activation") activation s.activation with
    | error e => simp [setFields, hPurpose, hPurposeAgain, hActivation, setField_again]
    | ok a =>
      have hActivationAgain := setFieldEnum_again hActivation
      simp [setFields, hPurpose, hPurposeAgain, hActivation, hActivationAgain, setField_again]

theorem setField_none {α : Type} [HoldsAlternative α] (field : α) (h : map.find? property = none) :
    setField map property field = field := by
  simp [setField, h]

/-- The first throw ends the assignments: each field is as if all of them were made, or as before. -/
theorem setFields_stops (s : Software) (map : FieldsMap) :
    let row := (setFields s map).row
    row.version = setField map (Str.lit "Version") s.version ∧
      (row.purpose = s.purpose ∨ setFieldEnum map (Str.lit "Purpose") purpose s.purpose = .ok row.purpose) ∧
      (row.activation = s.activation ∨
        setFieldEnum map (Str.lit "Activation") activation s.activation = .ok row.activation) ∧
      (row.priority = s.priority ∨ row.priority = setField map (Str.lit "Priority") s.priority) := by
  cases hPurpose : setFieldEnum map (Str.lit "Purpose") purpose s.purpose with
  | error e => simp [setFields, hPurpose]
  | ok p =>
    cases hActivation : setFieldEnum map (Str.lit "Activation") activation s.activation with
    | error e => simp [setFields, hPurpose, hActivation]
    | ok a => simp [setFields, hPurpose, hActivation]

/-- Also a map that is refused sets fields of its own properties only. -/
theorem setFields_keep {f : Field Software} (hf : f ∈ fields) (s : Software)
    (hNone : map.find? f.property = none) : f.get (setFields s map).row = f.get s := by
  obtain ⟨hVersion, hPurpose, hActivation, hPriority⟩ := setFields_stops s map
  simp only [fields, List.mem_cons, List.not_mem_nil, or_false] at hf
  obtain rfl | rfl | rfl | rfl := hf
  · exact hVersion.trans (setField_none s.version hNone)
  · apply hPurpose.elim id
    exact fun hOk => (Except.ok.inj (hOk.symm.trans (setFieldEnum_none s.purpose hNone)))
  · apply hActivation.elim id
    exact fun hOk => (Except.ok.inj (hOk.symm.trans (setFieldEnum_none s.activation hNone)))
  · exact hPriority.elim id fun hSet => hSet.trans (setField_none s.priority hNone)

theorem repeats : rowClass.Repeats where
  keep _ hf row _ hNone := setFields_keep hf row hNone
  again := setFields_again
  quiet row map _ := by
    change (setFields row map).traps = []
    exact traps_setFields row map

end SoftwareVersions

namespace PowerState

theorem setValue_of_value {s : State} {var : Str} (h : s.value = var) : s.setValue var = s := by
  subst h
  simp [State.setValue, Scalar.setValue]

theorem run_again (inputs : List (Scalar.Input Str)) (input : Scalar.Input Str) :
    run (inputs ++ [input] ++ [input]) = run (inputs ++ [input]) := by
  rw [@run_snoc (inputs ++ [input]), @run_snoc inputs]
  cases State.make.arrival input with
  | none => rfl
  | some var => exact setValue_of_value value_setValue

end PowerState

namespace Agent

variable {readObjid : ReadObjid} {order : List ObjectId} {others : List Input} {input : Input}
  {c : TableId}

theorem TableId.repeats (readObjid : ReadObjid) (c : TableId) : (c.rowClass readObjid).Repeats := by
  cases c with
  | sensors i => exact Sensors.repeats readObjid
  | software => exact SoftwareVersions.repeats
  | inventory => exact Inventory.repeats readObjid

/-- A query or signal of the power state, or a signal that gives no property twice. -/
def Input.Repeatable : Input → Prop
  | .update _ _ _ => False
  | .interfacesAdded (.ok (_, data)) => DisjointProperties data
  | _ => True

/-- The other input has nothing to do with the objects of this one. -/
structure Input.ApartFrom (input other : Input) : Prop where
  rows : ∀ c name, input.Concerns c name → ¬ other.Concerns c name
  power : input.toScalar ≠ none → other.toScalar = none

theorem Input.Repeatable.message {m : Message} (h : input.Repeatable) (hMessage : input.message c = some m) :
    m.Repeatable := by
  cases input with
  | power => cases hMessage
  | update => exact h.elim
  | interfacesAdded r =>
    cases hMessage
    cases r with
    | error => trivial
    | ok body => exact h
  | interfacesRemoved r =>
    cases hMessage
    trivial
  | propertiesChanged path r =>
    cases hMessage
    trivial

theorem table_again (readObjid : ReadObjid) (c : TableId) (inputs : List Input) (h : input.Repeatable)
    (hApart : ∀ other ∈ others, input.ApartFrom other) {m : Message} (hMessage : input.message c = some m) :
    let t := tableRun readObjid c (inputs ++ input :: others)
    (handle (c.itemClass readObjid) c.config t m).state.items = t.items ∧
      (handle (c.itemClass readObjid) c.config t m).state.log.flatMap Event.traps =
        t.log.flatMap Event.traps := by
  intro t
  have hRun : t = Table.run (c.itemClass readObjid) c.config
      (handle (c.itemClass readObjid) c.config (tableRun readObjid c inputs) m).state
      (others.filterMap (Input.message c)) := by
    simp only [t, tableRun, Table.run, List.filterMap_append, List.foldl_append,
      List.filterMap_cons_some hMessage, List.foldl_cons]
  have hBefore : KeyedList.Sorted (c.itemClass readObjid).name (tableRun readObjid c inputs).items :=
    reachable_sorted _
  have hNow : KeyedList.Sorted (c.itemClass readObjid).name t.items := reachable_sorted _
  rw [TableId.itemClass_eq] at hRun hBefore hNow ⊢
  refine handle_again (c.repeats readObjid) hBefore hNow (h.message hMessage) fun n hConcerns => ?_
  have hAfter := (handle_advance (T := c.config) hBefore m).sorted
  rw [hRun]
  refine view_run_of_not_concerns hAfter fun m' hm' hBoth => ?_
  obtain ⟨other, hOther, hOtherMessage⟩ := List.mem_filterMap.mp hm'
  exact (hApart other hOther).rows c n ⟨m, hMessage, hConcerns⟩ ⟨m', hOtherMessage, hBoth⟩

theorem power_again (inputs : List Input) (hApart : ∀ other ∈ others, input.ApartFrom other) {i : Scalar.Input Str}
    (hInput : input.toScalar = some i) :
    PowerState.run ((inputs ++ input :: others ++ [input]).filterMap Input.toScalar) =
      PowerState.run ((inputs ++ input :: others).filterMap Input.toScalar) := by
  have hNone : others.filterMap Input.toScalar = [] :=
    List.filterMap_eq_nil_iff.mpr fun other hOther => (hApart other hOther).power (by simp [hInput])
  have hOnce : (inputs ++ input :: others).filterMap Input.toScalar =
      inputs.filterMap Input.toScalar ++ [i] := by
    rw [List.filterMap_append, List.filterMap_cons_some hInput, hNone]
  have hTwice : (inputs ++ input :: others ++ [input]).filterMap Input.toScalar =
      inputs.filterMap Input.toScalar ++ [i] ++ [i] := by
    rw [List.filterMap_append, hOnce, List.filterMap_cons_some hInput, List.filterMap_nil]
  rw [hTwice, hOnce, PowerState.run_again]

section Absorbed

variable (inputs : List Input) (hRepeatable : input.Repeatable) (hApart : ∀ other ∈ others, input.ApartFrom other)
include hApart

theorem power_absorbs (readObjid : ReadObjid) :
    let s := PowerState.run ((inputs ++ input :: others).filterMap Input.toScalar)
    (objects readObjid).step .powerState s input = s ∧ (objects readObjid).emit .powerState s input = [] := by
  intro s
  cases hInput : input.toScalar with
  | none => exact power_idle readObjid hInput s
  | some i =>
    have hAgain := power_again inputs hApart hInput
    rw [List.filterMap_append, List.filterMap_cons_some hInput, List.filterMap_nil] at hAgain
    have hStep : PowerState.State.scalarClass.step s i = s :=
      (ScalarClass.run_snoc (C := PowerState.State.scalarClass) _ i).symm.trans hAgain
    have hTurn := power_turn readObjid hInput s
    rwa [hStep, List.drop_length] at hTurn

include hRepeatable

theorem table_absorbs (readObjid : ReadObjid) (c : TableId) :
    let t := tableRun readObjid c (inputs ++ input :: others)
    State.items ((objects readObjid).step (.table c) t input) = t.items ∧
      (objects readObjid).emit (.table c) t input = [] := by
  intro t
  cases hMessage : input.message c with
  | none =>
    obtain ⟨hStep, hEmit⟩ := table_idle readObjid hMessage t
    exact ⟨congrArg State.items hStep, hEmit⟩
  | some m =>
    obtain ⟨hStep, hEmit⟩ := table_turn readObjid hMessage t
    obtain ⟨hItems, hTraps⟩ := table_again readObjid c inputs hRepeatable hApart hMessage
    have hNow : KeyedList.Sorted (c.itemClass readObjid).name t.items := reachable_sorted _
    obtain ⟨events, hLog, -⟩ := (handle_advance (T := c.config) hNow m).calls
    rw [hLog, List.flatMap_append] at hTraps
    rw [hLog, List.drop_left] at hEmit
    exact ⟨(congrArg State.items hStep).trans hItems, hEmit.trans (List.append_right_eq_self.mp hTraps)⟩

end Absorbed

theorem get_congr {s s' : Bank.Shared ObjectId.State Trap} (net : NetSnmp)
    (hPower : PowerState.snmpHandler (s'.states .powerState) = PowerState.snmpHandler (s.states .powerState))
    (hItems : ∀ c, State.items (s'.states (.table c)) = State.items (s.states (.table c))) :
    (∀ oid, get net s' oid = get net s oid) ∧ ∀ c oid, getNext net c s' oid = getNext net c s oid := by
  have hPoints : ∀ c, points net.readObjid s' c = points net.readObjid s c := by
    intro c
    rw [points, points, State.points, State.points, hItems]
  constructor
  · intro oid
    unfold get
    cases net.lookup registrations oid with
    | none => rfl
    | some o =>
      cases o with
      | powerState => simp only [hPower]
      | table c => simp only [hPoints]
  · intro c oid
    rw [getNext, getNext, hPoints]

/-- An input that comes again before its object sends anything else is absorbed:
no trap is sent, and every request is answered as before. -/
theorem redelivery_absorbed (net : NetSnmp) (hOrder : Bank.Turns order) (inputs others : List Input)
    (h : input.Repeatable) (hApart : ∀ other ∈ others, input.ApartFrom other) :
    let s := run net.readObjid order (inputs ++ input :: others)
    let s' := run net.readObjid order (inputs ++ input :: others ++ [input])
    s'.log = s.log ∧ (∀ oid, get net s' oid = get net s oid) ∧
      ∀ c oid, getNext net c s' oid = getNext net c s oid := by
  intro s s'
  have hLast : s' = (objects net.readObjid).serve order s input := Bank.run_append _ _
  have hPower := power_absorbs inputs hApart net.readObjid
  have hTable := table_absorbs inputs h hApart net.readObjid
  rw [← state_power hOrder] at hPower
  simp only [tableRun, ← state_table hOrder] at hTable
  constructor
  · rw [hLast, Bank.serve_log hOrder, List.flatMap_eq_nil_iff.mpr, List.append_nil]
    intro o _
    cases o with
    | powerState => exact hPower.2
    | table c => exact (hTable c).2
  · apply get_congr
    · rw [hLast, Bank.serve_states hOrder]
      exact congrArg PowerState.snmpHandler hPower.1
    · intro c
      rw [hLast, Bank.serve_states hOrder]
      exact (hTable c).1

section Ambient

theorem ambient_apart_from_inlet : ambientAdded.ApartFrom inletAdded where
  rows := by
    rintro c name ⟨m, ⟨⟩, hAmbient⟩ ⟨m', ⟨⟩, hInlet⟩
    have hAll : ∀ c ∈ TableId.all, c.config.path <+: ambientPath →
        rowName c.config ambientPath ≠ rowName c.config inletPath := by decide
    exact hAll c c.mem_all hAmbient.1 (hAmbient.2.2.trans hInlet.2.2.symm)
  power h := absurd rfl h

theorem ambient_apart_from_power : ambientAdded.ApartFrom powerChanged where
  rows := by
    rintro c name - ⟨m, ⟨⟩, -⟩
  power h := absurd rfl h

theorem ambient_absorbed :
    let s := run referenceNetSnmp.readObjid ObjectId.all ([] ++ ambientAdded :: [inletAdded, powerChanged])
    let s' := run referenceNetSnmp.readObjid ObjectId.all
      ([] ++ ambientAdded :: [inletAdded, powerChanged] ++ [ambientAdded])
    s'.log = s.log ∧ (∀ oid, get referenceNetSnmp s' oid = get referenceNetSnmp s oid) ∧
      ∀ c oid, getNext referenceNetSnmp c s' oid = getNext referenceNetSnmp c s oid := by
  apply redelivery_absorbed referenceNetSnmp turns_all
  · change DisjointProperties (readingData 27)
    unfold DisjointProperties
    decide
  · rintro other hOther
    rcases List.mem_pair.mp hOther with rfl | rfl
    · exact ambient_apart_from_inlet
    · exact ambient_apart_from_power

end Ambient

end Agent

end YadroSnmp
