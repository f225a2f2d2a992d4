import YadroSnmp.Agent.HostPower
import YadroSnmp.Agent.Repetition
import YadroSnmp.Data.Forgetting

/-! # An agent that starts again

An agent that has asked for everything at its start cannot be told from one
that has run before and gets the same answers. What either has handled before
shows in no request and in no trap from then on.
-/

namespace YadroSnmp

open Snmp Table

namespace PowerState

theorem traps_setValue (s : State) (var : Str) : (s.setValue var).traps =
    s.traps ++ if s.value = var then [] else [⟨notifyOid, [(stateOid, .integer (number var))]⟩] := by
  unfold State.setValue
  dsimp only
  split
  · rename_i hNe
    have hNe : ¬ s.value = var := hNe
    rw [if_neg hNe]
    rfl
  · rename_i hSame
    have hSame : s.value = var := not_not.mp hSame
    rw [if_pos hSame, List.append_nil]

theorem toScalar_setValue (s : State) (var : Str) : (s.setValue var).toScalar = s.toScalar.setValue var :=
  State.scalarClass.scalar_setValue s var

end PowerState

namespace Agent

variable {readObjid : ReadObjid} {order : List ObjectId}

/-- States that differ at most in what was sent before. -/
def ObjectId.Alike : (o : ObjectId) → o.State → o.State → Prop
  | powerState, s, t => s.toScalar = t.toScalar
  | table _, s, t => State.items s = State.items t

/-- A state some inputs may have led to. -/
def ObjectId.Grown (readObjid : ReadObjid) : (o : ObjectId) → o.State → Prop
  | powerState, s => s.toProperty = hostState
  | table c, s => Built (c.rowClass readObjid) c.config s

/-- The power state is heard, or all objects of a table are with all their fields. -/
def Input.Settles (readObjid : ReadObjid) : ObjectId → Input → Prop
  | .powerState, .power i => (hostState.arrival i).isSome
  | .table c, .update c' subtree getAll =>
    c' = c ∧ Complete (c.rowClass readObjid) c.config (callMethodAndRead subtree) getAll
  | _, _ => False

section Power

theorem power_alike {s t : PowerState.State} (h : s.toScalar = t.toScalar) (i : Scalar.Input Str) :
    (PowerState.State.scalarClass.step s i).toScalar = (PowerState.State.scalarClass.step t i).toScalar ∧
      (PowerState.State.scalarClass.step s i).traps.drop s.traps.length =
        (PowerState.State.scalarClass.step t i).traps.drop t.traps.length := by
  have hArrival : (PowerState.State.scalarClass.scalar s).arrival i =
      (PowerState.State.scalarClass.scalar t).arrival i :=
    congrArg (fun o : Scalar Str => o.arrival i) h
  rw [ScalarClass.step_eq, ScalarClass.step_eq, hArrival]
  cases (PowerState.State.scalarClass.scalar t).arrival i with
  | none =>
    refine ⟨h, ?_⟩
    rw [Option.elim_none, Option.elim_none, List.drop_length, List.drop_length]
  | some var =>
    simp only [Option.elim_some]
    change (s.setValue var).toScalar = (t.setValue var).toScalar ∧
      (s.setValue var).traps.drop _ = (t.setValue var).traps.drop _
    rw [PowerState.toScalar_setValue, PowerState.toScalar_setValue, PowerState.traps_setValue,
      PowerState.traps_setValue, List.drop_left, List.drop_left, h]
    exact ⟨rfl, rfl⟩

theorem power_settles {s t : PowerState.State} {i : Scalar.Input Str} (hs : s.toProperty = hostState)
    (ht : t.toProperty = hostState) (h : (hostState.arrival i).isSome) :
    (PowerState.State.scalarClass.step s i).toScalar = (PowerState.State.scalarClass.step t i).toScalar := by
  obtain ⟨var, hVar⟩ := Option.isSome_iff_exists.mp h
  have hStep : ∀ u : PowerState.State, u.toProperty = hostState →
      (PowerState.State.scalarClass.step u i).toScalar = ⟨hostState, var⟩ := by
    intro u hu
    have hArrival : (PowerState.State.scalarClass.scalar u).arrival i = some var := by
      rw [← hVar, ← hu]
      rfl
    rw [ScalarClass.step_eq, hArrival, Option.elim_some]
    change (u.setValue var).toScalar = _
    rw [PowerState.toScalar_setValue, Scalar.setValue, ← hu]
  rw [hStep s hs, hStep t ht]

theorem power_grown {s : PowerState.State} (h : s.toProperty = hostState) (i : Scalar.Input Str) :
    (PowerState.State.scalarClass.step s i).toProperty = hostState := by
  rw [ScalarClass.step_eq]
  cases (PowerState.State.scalarClass.scalar s).arrival i with
  | none => exact h
  | some var =>
    have hSet := congrArg Scalar.toProperty (PowerState.toScalar_setValue s var)
    exact hSet.trans h

end Power

section Objects

theorem object_alike (o : ObjectId) (s t : o.State) (input : Input) (h : o.Alike s t) :
    o.Alike ((objects readObjid).step o s input) ((objects readObjid).step o t input) ∧
      (objects readObjid).emit o s input = (objects readObjid).emit o t input := by
  cases o with
  | powerState =>
    cases hInput : input.toScalar with
    | none =>
      obtain ⟨hStep, hEmit⟩ := power_idle readObjid hInput s
      obtain ⟨hStep', hEmit'⟩ := power_idle readObjid hInput t
      rw [hStep, hEmit, hStep', hEmit']
      exact ⟨h, rfl⟩
    | some i =>
      obtain ⟨hStep, hEmit⟩ := power_turn readObjid hInput s
      obtain ⟨hStep', hEmit'⟩ := power_turn readObjid hInput t
      rw [hStep, hEmit, hStep', hEmit']
      exact power_alike h i
  | table c =>
    cases hMessage : input.message c with
    | none =>
      obtain ⟨hStep, hEmit⟩ := table_idle readObjid hMessage s
      obtain ⟨hStep', hEmit'⟩ := table_idle readObjid hMessage t
      rw [hStep, hEmit, hStep', hEmit']
      exact ⟨h, rfl⟩
    | some m =>
      obtain ⟨hStep, hEmit⟩ := table_turn readObjid hMessage s
      obtain ⟨hStep', hEmit'⟩ := table_turn readObjid hMessage t
      obtain ⟨hItems, hLog⟩ := handle_of_items (I := c.itemClass readObjid) (T := c.config) h m
      rw [hStep, hEmit, hStep', hEmit', hLog]
      exact ⟨hItems, rfl⟩

theorem object_grown (o : ObjectId) (s : o.State) (input : Input) (h : o.Grown readObjid s) :
    o.Grown readObjid ((objects readObjid).step o s input) := by
  cases o with
  | powerState =>
    cases hInput : input.toScalar with
    | none => rwa [(power_idle readObjid hInput s).1]
    | some i =>
      rw [(power_turn readObjid hInput s).1]
      exact power_grown h i
  | table c =>
    cases hMessage : input.message c with
    | none => rwa [(table_idle readObjid hMessage s).1]
    | some m =>
      rw [(table_turn readObjid hMessage s).1, TableId.itemClass_eq]
      exact Built.handle h m

theorem object_settles (o : ObjectId) (s t : o.State) (input : Input) (hs : o.Grown readObjid s)
    (ht : o.Grown readObjid t) (h : input.Settles readObjid o) :
    o.Alike ((objects readObjid).step o s input) ((objects readObjid).step o t input) := by
  cases o with
  | powerState =>
    cases input with
    | power i =>
      have hInput : (Input.power i).toScalar = some i := rfl
      rw [(power_turn readObjid hInput s).1, (power_turn readObjid hInput t).1]
      exact power_settles hs ht h
    | _ => exact h.elim
  | table c =>
    cases input with
    | update c' subtree getAll =>
      obtain ⟨rfl, hComplete⟩ := h
      have hMessage : (Input.update c' subtree getAll).message c' = some (.update subtree getAll) := if_pos rfl
      rw [(table_turn readObjid hMessage s).1, (table_turn readObjid hMessage t).1, TableId.itemClass_eq]
      cases subtree with
      | ok data => exact hComplete.items_eq hs ht
      | error data => exact hComplete.items_eq hs ht
    | _ => exact h.elim

theorem grown_initial (o : ObjectId) : o.Grown readObjid (initial.states o) := by
  cases o with
  | powerState => rfl
  | table c => exact ⟨initial_sorted, fun n row hRow => by cases hRow⟩

end Objects

/-- After inputs that settle every object, two agents answer all requests the
same and send the same traps for whatever comes, whatever came before. -/
theorem restart_forgets (net : NetSnmp) (hOrder : Bank.Turns order) (before before' settling later : List Input)
    (hSettles : ∀ o, ∃ input ∈ settling, input.Settles net.readObjid o) :
    let s := run net.readObjid order (before ++ settling)
    let s' := run net.readObjid order (before' ++ settling)
    let t := run net.readObjid order (before ++ settling ++ later)
    let t' := run net.readObjid order (before' ++ settling ++ later)
    (∀ oid, get net t' oid = get net t oid) ∧ (∀ c oid, getNext net c t' oid = getNext net c t oid) ∧
      ∃ sent, pdus t = pdus s ++ sent ∧ pdus t' = pdus s' ++ sent := by
  intro s s' t t'
  have hGrown : ∀ (inputs : List Input) (o : ObjectId),
      o.Grown net.readObjid ((run net.readObjid order inputs).states o) := by
    intro inputs o
    rw [run, Bank.run_states hOrder]
    exact List.foldlRecOn inputs _ (grown_initial o) fun s hs input _ => object_grown o s input hs
  have hAlike : ∀ o, ObjectId.Alike o (s.states o) (s'.states o) := by
    intro o
    have hSplit : ∀ inputs, (run net.readObjid order (inputs ++ settling)).states o =
        settling.foldl ((objects net.readObjid).step o) ((run net.readObjid order inputs).states o) := by
      intro inputs
      rw [run, Bank.run_append, Bank.run_states hOrder]
      rfl
    rw [hSplit before, hSplit before']
    refine Bank.foldl_settles ?_ ?_ ?_ (hGrown before o) (hGrown before' o) (hSettles o)
    · exact fun s input => object_grown o s input
    · exact fun s t input h => (object_alike o s t input h).1
    · exact fun s t input => object_settles o s t input
  obtain ⟨hStates, sent, hSent, hSent'⟩ := Bank.run_alike hOrder
    (fun o s t input h => object_alike o s t input h) hAlike later
  have hRun : t = (objects net.readObjid).run order s later := Bank.run_append _ _
  have hRun' : t' = (objects net.readObjid).run order s' later := Bank.run_append _ _
  rw [← hRun, ← hRun'] at hStates
  rw [← hRun] at hSent
  rw [← hRun'] at hSent'
  have hPower : (t'.states .powerState).toScalar = (t.states .powerState).toScalar := (hStates .powerState).symm
  have hHandler : PowerState.snmpHandler (t'.states .powerState) = PowerState.snmpHandler (t.states .powerState) :=
    congrArg (fun o : Scalar Str => Answer.value (.integer (PowerState.number o.value))) hPower
  obtain ⟨hGet, hGetNext⟩ := get_congr net hHandler fun c => (hStates (.table c)).symm
  refine ⟨hGet, hGetNext, sent.map Trap.vars, ?_, ?_⟩
  · rw [pdus, hSent, List.map_append, pdus]
  · rw [pdus, hSent', List.map_append, pdus]

section Startup

def ambientProperties : FieldsMap := OrdMap.ofList
  [(Str.lit "Value", .double 27), (Str.lit "WarningLow", .double 5),
    (Str.lit "WarningAlarmLow", .bool false), (Str.lit "WarningHigh", .double 40),
    (Str.lit "WarningAlarmHigh", .bool false), (Str.lit "CriticalLow", .double 0),
    (Str.lit "CriticalAlarmLow", .bool false), (Str.lit "CriticalHigh", .double 50),
    (Str.lit "CriticalAlarmHigh", .bool false)]

/-- The queries of `init`, on a bus with a running host and one sensor. -/
def startup : List Input :=
  .power (.update (hostBus PowerState.running)) :: TableId.all.map fun c =>
    .update c (.ok (if c = temperature then ambientAnswer else ∅)) fun _ _ => .ok ambientProperties

theorem complete_temperature (readObjid : ReadObjid) :
    Complete (Sensors.rowClass readObjid) (Sensors.sensorsTable "temperature") ambientAnswer
      fun _ _ => .ok ambientProperties where
  paths path hPath := by
    have hKeys : ambientAnswer.keys = [objectPath (Sensors.sensorsTable "temperature") (Str.lit "ambient")] := by
      decide
    rw [hKeys, List.mem_singleton] at hPath
    exact ⟨_, hPath⟩
  hosted := by decide
  accepted _ _ _ _ := id
  fields := by
    change ∀ path ∈ ambientAnswer.keys, ∀ f ∈ Sensors.fields, _
    decide +kernel

theorem complete_empty (readObjid : ReadObjid) (c : TableId) (getAll : (service path : Str) → Read FieldsMap) :
    Complete (c.rowClass readObjid) c.config ∅ getAll where
  paths _ hPath := by cases hPath
  hosted _ he := by cases he
  accepted _ hPath := by cases hPath
  fields _ hPath := by cases hPath

theorem startup_settles (readObjid : ReadObjid) (o : ObjectId) : ∃ input ∈ startup, input.Settles readObjid o := by
  cases o with
  | powerState => exact ⟨_, List.mem_cons_self, rfl⟩
  | table c =>
    refine ⟨_, List.mem_cons_of_mem _ (List.mem_map_of_mem c.mem_all), rfl, ?_⟩
    split
    · rename_i hTemperature
      subst hTemperature
      exact complete_temperature readObjid
    · exact complete_empty readObjid c _

theorem startup_forgets :
    let s := run referenceNetSnmp.readObjid ObjectId.all ([] ++ startup)
    let s' := run referenceNetSnmp.readObjid ObjectId.all ([ambientAdded, inletAdded] ++ startup)
    let t := run referenceNetSnmp.readObjid ObjectId.all ([] ++ startup ++ [ambientRemoved])
    let t' := run referenceNetSnmp.readObjid ObjectId.all ([ambientAdded, inletAdded] ++ startup ++ [ambientRemoved])
    (∀ oid, get referenceNetSnmp t' oid = get referenceNetSnmp t oid) ∧
      (∀ c oid, getNext referenceNetSnmp c t' oid = getNext referenceNetSnmp c t oid) ∧
      ∃ sent, pdus t = pdus s ++ sent ∧ pdus t' = pdus s' ++ sent :=
  restart_forgets referenceNetSnmp turns_all [] [ambientAdded, inletAdded] startup [ambientRemoved]
    (startup_settles _)

end Startup

end Agent

end YadroSnmp
