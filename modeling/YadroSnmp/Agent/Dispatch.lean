import YadroSnmp.Agent.Objects

/-! # One agent made of independent objects

All objects share the bus and the stream of traps. An input changes its owner
at most, so an object lives as if it were alone with the bus, and its traps can
be told from the others by their notification.
-/

namespace YadroSnmp.Agent

open Snmp Table KeyedList

variable {readObjid : ReadObjid} {order order' : List ObjectId} {c : TableId} {input : Input}

section Turn

theorem table_idle (readObjid : ReadObjid) (h : input.message c = none) (s : Table.State c.Row) :
    (objects readObjid).step (.table c) s input = s ∧ (objects readObjid).emit (.table c) s input = [] := by
  simp only [objects]
  rw [h]
  exact ⟨rfl, rfl⟩

theorem table_turn (readObjid : ReadObjid) {m : Message} (h : input.message c = some m) (s : Table.State c.Row) :
    (objects readObjid).step (.table c) s input = (handle (c.itemClass readObjid) c.config s m).state ∧
      (objects readObjid).emit (.table c) s input =
        ((handle (c.itemClass readObjid) c.config s m).state.log.drop s.log.length).flatMap Event.traps := by
  simp only [objects]
  rw [h]
  exact ⟨rfl, rfl⟩

theorem power_idle (readObjid : ReadObjid) (h : input.toScalar = none) (s : PowerState.State) :
    (objects readObjid).step .powerState s input = s ∧ (objects readObjid).emit .powerState s input = [] := by
  simp only [objects]
  rw [h]
  exact ⟨rfl, rfl⟩

theorem power_turn (readObjid : ReadObjid) {i : Scalar.Input Str} (h : input.toScalar = some i) (s : PowerState.State) :
    (objects readObjid).step .powerState s input = PowerState.State.scalarClass.step s i ∧
      (objects readObjid).emit .powerState s input =
        (PowerState.State.scalarClass.step s i).traps.drop s.traps.length := by
  simp only [objects]
  rw [h]
  exact ⟨rfl, rfl⟩

end Turn

section Owner

theorem handle_of_unrelated {Row : Type} {I : ItemClass Row} {T : Config} {s : Table.State Row} {path : Str}
    (h : ¬ T.path <+: path) :
    (∀ data, onInterfacesAdded I T s (.ok (path, data)) = ⟨s, none⟩) ∧
      (∀ m, (callMethodAndRead m).1 = path → onInterfacesRemoved I T s m = ⟨s, none⟩) ∧
      ∀ m, onPropertiesChanged I T s path m = ⟨s, none⟩ := by
  have hStarts : Str.startsWith path T.path = false := by
    rw [← Bool.not_eq_true, Str.startsWith_iff]
    exact h
  refine ⟨fun data => ?_, ?_, ?_⟩
  · simp [onInterfacesAdded, hStarts]
  · rintro m rfl
    simp [onInterfacesRemoved, hStarts]
  · apply onPropertiesChanged_of_none
    rintro n rfl
    exact absurd (path_prefix_objectPath n) h

theorem handle_of_not_owner {m : Message} (hMessage : input.message c = some m)
    (hOwner : input.owner ≠ some (.table c)) (s : Table.State c.Row) :
    (handle (c.itemClass readObjid) c.config s m).state = s := by
  have hUnrelated : ∀ path, (tableOf path).map ObjectId.table ≠ some (.table c) →
      ¬ c.config.path <+: path := by
    intro path hNe hPrefix
    rw [tableOf_eq_some_iff.mpr hPrefix] at hNe
    exact hNe rfl
  cases input with
  | power => cases hMessage
  | update c' subtree getAll =>
    have hNe : c' ≠ c := fun h => hOwner (congrArg (fun c => some (ObjectId.table c)) h)
    rw [Input.message, if_neg hNe] at hMessage
    cases hMessage
  | interfacesAdded r =>
    cases hMessage
    cases r with
    | error => rfl
    | ok body => rw [handle, (handle_of_unrelated (hUnrelated _ hOwner)).1]
  | interfacesRemoved r =>
    cases hMessage
    rw [handle, (handle_of_unrelated (hUnrelated _ hOwner)).2.1 r rfl]
  | propertiesChanged path r =>
    cases hMessage
    rw [handle, (handle_of_unrelated (hUnrelated _ hOwner)).2.2]

theorem objects_owned (readObjid : ReadObjid) : (objects readObjid).Owned Input.owner := by
  intro o s input hOwner
  cases o with
  | powerState =>
    cases input with
    | power i => exact absurd rfl hOwner
    | _ => exact ⟨rfl, rfl⟩
  | table c =>
    cases hMessage : input.message c with
    | none => exact table_idle readObjid hMessage s
    | some m =>
      obtain ⟨hStep, hEmit⟩ := table_turn readObjid hMessage s
      rw [handle_of_not_owner hMessage hOwner] at hStep hEmit
      rw [List.drop_length] at hEmit
      exact ⟨hStep, hEmit⟩

/-- In which order the objects registered their matches cannot be observed. -/
theorem run_order_irrelevant (readObjid : ReadObjid) (hOrder : Bank.Turns order)
    (hOrder' : Bank.Turns order') (inputs : List Input) :
    run readObjid order inputs = run readObjid order' inputs :=
  Bank.run_eq_of_owned hOrder hOrder' (objects_owned readObjid) initial inputs

theorem ambient_order_irrelevant :
    run readObjidQuoted ObjectId.all [ambientAdded, ambientRemoved] =
      run readObjidQuoted ObjectId.all.reverse [ambientAdded, ambientRemoved] := by
  have hReverse : Bank.Turns ObjectId.all.reverse :=
    ⟨List.nodup_reverse.mpr turns_all.nodup, fun o => List.mem_reverse.mpr o.mem_all⟩
  exact run_order_irrelevant readObjidQuoted turns_all hReverse _

end Owner

section Alone

theorem state_table (hOrder : Bank.Turns order) (inputs : List Input) (c : TableId) :
    (run readObjid order inputs).states (.table c) =
      Table.run (c.itemClass readObjid) c.config Table.initial (inputs.filterMap (Input.message c)) := by
  rw [run, Bank.run_states hOrder, Table.run, List.foldl_filterMap]
  congr 1
  funext s input
  cases hMessage : input.message c with
  | none => exact (table_idle readObjid hMessage s).1
  | some m => exact (table_turn readObjid hMessage s).1

theorem state_power (hOrder : Bank.Turns order) (inputs : List Input) :
    (run readObjid order inputs).states .powerState = PowerState.run (inputs.filterMap Input.toScalar) := by
  rw [run, Bank.run_states hOrder, PowerState.run, ScalarClass.run, List.foldl_filterMap]
  congr 1
  funext s input
  cases hInput : input.toScalar with
  | none => exact (power_idle readObjid hInput s).1
  | some i => exact (power_turn readObjid hInput s).1

def sentBy (readObjid : ReadObjid) (o : ObjectId) (inputs : List Input) : List Trap :=
  match o with
  | .powerState => (PowerState.run (inputs.filterMap Input.toScalar)).traps
  | .table c =>
    (Table.run (c.itemClass readObjid) c.config Table.initial
      (inputs.filterMap (Input.message c))).log.flatMap Event.traps

theorem emitted_table {s : Table.State c.Row} (hs : Sorted (c.itemClass readObjid).name s.items)
    (inputs : List Input) :
    (Table.run (c.itemClass readObjid) c.config s (inputs.filterMap (Input.message c))).log.flatMap
        Event.traps =
      s.log.flatMap Event.traps ++ (objects readObjid).emitted (.table c) s inputs := by
  induction inputs generalizing s with
  | nil => simp [Table.run, Bank.emitted]
  | cons input inputs ih =>
    cases hMessage : input.message c with
    | none =>
      obtain ⟨hStep, hEmit⟩ := table_idle readObjid hMessage s
      rw [List.filterMap_cons_none hMessage, Bank.emitted_cons, hEmit, hStep, List.nil_append]
      exact ih hs
    | some m =>
      have hAdvance := handle_advance (I := c.itemClass readObjid) (T := c.config) hs m
      obtain ⟨events, hLog, -⟩ := hAdvance.calls
      obtain ⟨hStep, hEmit⟩ := table_turn readObjid hMessage s
      rw [List.filterMap_cons_some hMessage, Bank.emitted_cons, hEmit, hStep, hLog, List.drop_left,
        ← List.append_assoc, ← List.flatMap_append, ← hLog]
      exact ih hAdvance.sorted

theorem traps_step (s : PowerState.State) (input : Scalar.Input Str) :
    ∃ traps, (PowerState.State.scalarClass.step s input).traps = s.traps ++ traps ∧
      ∀ trap ∈ traps, trap.oid = PowerState.notifyOid ∧ trap.fields.map Prod.fst = [PowerState.stateOid] := by
  rw [ScalarClass.step_eq]
  cases (PowerState.State.scalarClass.scalar s).arrival input with
  | none => exact ⟨[], (List.append_nil _).symm, by simp⟩
  | some var =>
    change ∃ traps, (s.setValue var).traps = s.traps ++ traps ∧ _
    unfold PowerState.State.setValue
    simp only
    split
    · exact ⟨_, rfl, by simp⟩
    · exact ⟨[], (List.append_nil _).symm, by simp⟩

theorem emitted_power (s : PowerState.State) (inputs : List Input) :
    (PowerState.State.scalarClass.run s (inputs.filterMap Input.toScalar)).traps =
      s.traps ++ (objects readObjid).emitted .powerState s inputs := by
  induction inputs generalizing s with
  | nil => simp [ScalarClass.run, Bank.emitted]
  | cons input inputs ih =>
    cases hInput : input.toScalar with
    | none =>
      obtain ⟨hStep, hEmit⟩ := power_idle readObjid hInput s
      rw [List.filterMap_cons_none hInput, Bank.emitted_cons, hEmit, hStep, List.nil_append]
      exact ih s
    | some i =>
      obtain ⟨traps, hTraps, -⟩ := traps_step s i
      obtain ⟨hStep, hEmit⟩ := power_turn readObjid hInput s
      rw [List.filterMap_cons_some hInput, Bank.emitted_cons, hEmit, hStep, hTraps, List.drop_left,
        ← List.append_assoc, ← hTraps]
      exact ih _

theorem emitted_eq (readObjid : ReadObjid) (o : ObjectId) (inputs : List Input) :
    (objects readObjid).emitted o o.initial inputs = sentBy readObjid o inputs := by
  cases o with
  | powerState => exact (emitted_power PowerState.State.make inputs).symm
  | table c => exact (emitted_table initial_sorted inputs).symm

end Alone

end YadroSnmp.Agent
