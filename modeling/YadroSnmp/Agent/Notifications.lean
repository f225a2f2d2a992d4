import YadroSnmp.Agent.Requests
import YadroSnmp.Snmp.Pdu

/-! # Whose trap it is

Every object has a notification of its own, and the traps of an object carry
it. The stream of the agent is the shuffle of what its objects send, and the
notification takes it apart again.
-/

namespace YadroSnmp

open Snmp Table

theorem Table.forall_mem_traps {Row : Type} {s : Table.State Row} {Q : Trap → Prop}
    (h : ∀ n, ∀ trap ∈ s.traps n, Q trap) : ∀ trap ∈ s.log.flatMap Event.traps, Q trap := by
  intro trap hTrap
  obtain ⟨e, he, hTrap⟩ := List.mem_flatMap.mp hTrap
  apply h e.name
  exact List.mem_flatMap.mpr ⟨e, List.mem_filter.mpr ⟨he, by simp⟩, hTrap⟩

namespace Sensors

variable {readObjid : ReadObjid} {folder name : Str} {trap : Trap}

/-- Whatever a call sends, it sends through `send_notify` of a row of the table. -/
theorem sent_of_step {s t : Option Sensor} {e : Event}
    (hs : ∀ row ∈ s, RowOids readObjid folder name row)
    (h : Slot.Step (itemClass readObjid) folder name s e t) :
    ∀ trap ∈ e.traps, ∃ row state, RowOids readObjid folder name row ∧ trap ∈ sendNotify row state := by
  have ht := rowOids_of_step hs h
  intro trap hTrap
  cases h with
  | create => exact ⟨_, .normal, ht _ rfl, hTrap⟩
  | setFields row fields =>
    have hTrap : trap ∈ (setFields row fields).traps := hTrap
    unfold setFields at hTrap
    simp only at hTrap
    split at hTrap
    · exact ⟨_, _, ht _ rfl, hTrap⟩
    · cases hTrap
  | destroy row => exact ⟨row, .disabled, hs row rfl, hTrap⟩

theorem oid_of_sendNotify {s : Sensor} {state : SensorState} (h : trap ∈ sendNotify s state) :
    trap.oid = s.notifyOid := by
  unfold sendNotify at h
  split at h
  · rw [List.mem_singleton.mp h]
  · cases h

theorem oid_of_run (T : Config) (ms : List Message) :
    ∀ trap ∈ (Table.run (itemClass readObjid) T Table.initial ms).traps name, trap.oid = notifyOid T.path := by
  refine traps_of_run (P := fun s => ∀ row ∈ s, RowOids readObjid T.path name row) (by simp)
    (fun _ _ _ => rowOids_of_step) (fun s e t hs hStep trap hTrap => ?_) ms
  obtain ⟨row, state, hRow, hSent⟩ := sent_of_step hs hStep trap hTrap
  rw [oid_of_sendNotify hSent, hRow.notify]

end Sensors

namespace Inventory

variable {readObjid : ReadObjid} {name : Str}

theorem sent_of_step {folder : Str} {s t : Option InventoryItem} {e : Event}
    (hs : ∀ item ∈ s, RowOids readObjid name item)
    (h : Slot.Step (itemClass readObjid) folder name s e t) :
    ∀ trap ∈ e.traps, ∃ item present functional, RowOids readObjid name item ∧
      trap = trapOf item present functional := by
  have ht := rowOids_of_step hs h
  intro trap hTrap
  cases h with
  | create => cases hTrap
  | setFields item fields =>
    have hTrap : trap ∈ (setFields item fields).traps := hTrap
    unfold setFields at hTrap
    simp only at hTrap
    split at hTrap
    · exact ⟨_, _, _, ht _ rfl, List.mem_singleton.mp hTrap⟩
    · cases hTrap
  | destroy item =>
    have hTrap : trap ∈ onDestroy item := hTrap
    unfold onDestroy at hTrap
    split at hTrap
    · exact ⟨item, false, false, hs item rfl, List.mem_singleton.mp hTrap⟩
    · cases hTrap

theorem sent_of_run (ms : List Message) :
    ∀ trap ∈ (Table.run (itemClass readObjid) inventoryTable Table.initial ms).traps name,
      ∃ item present functional, RowOids readObjid name item ∧ trap = trapOf item present functional :=
  traps_of_run (P := fun s => ∀ item ∈ s, RowOids readObjid name item) (by simp)
    (fun _ _ _ => rowOids_of_step) (fun _ _ _ => sent_of_step) ms

end Inventory

namespace SoftwareVersions

theorem traps_setFields (s : Software) (fields : FieldsMap) : (setFields s fields).traps = [] := by
  simp only [setFields]
  split
  · rfl
  · split
    · rfl
    · rfl

theorem traps_of_run_eq_nil (ms : List Message) (name : Str) :
    (Table.run itemClass softwareTable Table.initial ms).traps name = [] := by
  refine List.eq_nil_iff_forall_not_mem.mpr ?_
  refine traps_of_run (P := fun _ => True) (Q := fun _ => False) trivial (fun _ _ _ _ _ => trivial)
    (fun s e t _ hStep trap hTrap => ?_) ms
  cases hStep with
  | create => cases hTrap
  | setFields row fields =>
    have hTrap : trap ∈ (setFields row fields).traps := hTrap
    rw [traps_setFields] at hTrap
    cases hTrap
  | destroy row => cases hTrap

end SoftwareVersions

namespace PowerState

theorem trap_of_run (inputs : List (Scalar.Input Str)) :
    ∀ trap ∈ (run inputs).traps, trap.oid = notifyOid ∧ trap.fields.map Prod.fst = [stateOid] := by
  induction inputs using List.reverseRecOn with
  | nil =>
    rintro trap ⟨⟩
  | append_singleton inputs input ih =>
    obtain ⟨traps, hTraps, hNew⟩ := Agent.traps_step (run inputs) input
    have hRun : run (inputs ++ [input]) = State.scalarClass.step (run inputs) input :=
      ScalarClass.run_snoc inputs input
    intro trap hTrap
    rw [hRun, hTraps] at hTrap
    exact (List.mem_append.mp hTrap).elim (ih trap) (hNew trap)

end PowerState

namespace Agent

variable {readObjid : ReadObjid} {order : List ObjectId}

/-- What the agent sent, as its receivers get it. -/
def pdus (s : Bank.Shared ObjectId.State Trap) : List (List Varbind) := s.log.map Trap.vars

theorem received_eq_log (s : Bank.Shared ObjectId.State Trap) : (pdus s).filterMap receive = s.log := by
  have hReceive : (fun trap : Trap => receive trap.vars) = some := funext receive_vars
  rw [pdus, List.filterMap_map]
  change s.log.filterMap (fun trap => receive trap.vars) = s.log
  rw [hReceive, List.filterMap_some]

theorem ObjectId.notifyOid_inj {o o' : ObjectId} {oid : OID} (h : o.notifyOid = some oid)
    (h' : o'.notifyOid = some oid) : o = o' := by
  have hAll : ∀ o ∈ ObjectId.all, ∀ o' ∈ ObjectId.all,
      o.notifyOid.isSome = true → o.notifyOid = o'.notifyOid → o = o' := by decide
  exact hAll o o.mem_all o' o'.mem_all (by rw [h]; rfl) (h.trans h'.symm)

theorem notifyOid_of_sentBy (readObjid : ReadObjid) (o : ObjectId) (inputs : List Input) :
    ∀ trap ∈ sentBy readObjid o inputs, o.notifyOid = some trap.oid := by
  cases o with
  | powerState =>
    intro trap hTrap
    rw [(PowerState.trap_of_run _ trap hTrap).1]
    rfl
  | table c =>
    refine Table.forall_mem_traps fun n trap hTrap => ?_
    cases c with
    | sensors i =>
      rw [Sensors.oid_of_run _ _ trap hTrap]
      rfl
    | software =>
      change trap ∈ (Table.run SoftwareVersions.itemClass SoftwareVersions.softwareTable Table.initial
        (inputs.filterMap (Input.message .software))).traps n at hTrap
      rw [SoftwareVersions.traps_of_run_eq_nil] at hTrap
      cases hTrap
    | inventory =>
      obtain ⟨item, present, functional, -, rfl⟩ := Inventory.sent_of_run _ trap hTrap
      rfl

/-- In every run each object is where it would be alone with the bus. Every PDU
is a trap of an object, and the traps received with the notification of an object
are the ones it would have sent alone. -/
theorem traps_demultiplexed (readObjid : ReadObjid) (hOrder : Bank.Turns order) (inputs : List Input) :
    let s := run readObjid order inputs
    s.states .powerState = PowerState.run (inputs.filterMap Input.toScalar) ∧
      (∀ c, s.states (.table c) =
        Table.run (c.itemClass readObjid) c.config Table.initial (inputs.filterMap (Input.message c))) ∧
      (∀ o : ObjectId, ((pdus s).filterMap receive).filter (fun trap => o.notifyOid = some trap.oid) =
        sentBy readObjid o inputs) ∧
      ∀ vars ∈ pdus s, ∃ trap, ∃ o : ObjectId, receive vars = some trap ∧ o.notifyOid = some trap.oid := by
  intro s
  have hSent : ∀ o, ∀ trap ∈ (objects readObjid).emitted o (initial.states o) inputs,
      o.notifyOid = some trap.oid := by
    intro o trap hTrap
    exact notifyOid_of_sentBy readObjid o inputs trap (emitted_eq readObjid o inputs ▸ hTrap)
  refine ⟨state_power hOrder inputs, state_table hOrder inputs, fun o => ?_, fun vars hVars => ?_⟩
  · have hLog : s.log.filter (fun trap => o.notifyOid = some trap.oid) =
        ((objects readObjid).emitted o (initial.states o) inputs).filter
          fun trap => o.notifyOid = some trap.oid := by
      apply Bank.filter_log hOrder
      intro o' hNe trap hTrap
      exact decide_eq_false fun hOwn => hNe (ObjectId.notifyOid_inj (hSent o' trap hTrap) hOwn)
    have hOwn : (sentBy readObjid o inputs).filter (fun trap => o.notifyOid = some trap.oid) =
        sentBy readObjid o inputs :=
      List.filter_eq_self.mpr fun trap hTrap =>
        decide_eq_true (notifyOid_of_sentBy readObjid o inputs trap hTrap)
    rw [received_eq_log, hLog, ← hOwn, ← emitted_eq]
    rfl
  · obtain ⟨trap, hTrap, rfl⟩ := List.mem_map.mp hVars
    rcases (Bank.mem_log hOrder).mp hTrap with hOld | ⟨o, hNew⟩
    · cases hOld
    · exact ⟨trap, o, receive_vars trap, hSent o trap hNew⟩

theorem ambient_demultiplexed :
    let s := run readObjidQuoted ObjectId.all [ambientAdded, ambientRemoved]
    s.states .powerState = PowerState.run [] ∧
      (∀ c, s.states (.table c) = Table.run (c.itemClass readObjidQuoted) c.config Table.initial
        ([ambientAdded, ambientRemoved].filterMap (Input.message c))) ∧
      (∀ o : ObjectId, ((pdus s).filterMap receive).filter (fun trap => o.notifyOid = some trap.oid) =
        sentBy readObjidQuoted o [ambientAdded, ambientRemoved]) ∧
      ∀ vars ∈ pdus s, ∃ trap, ∃ o : ObjectId, receive vars = some trap ∧ o.notifyOid = some trap.oid :=
  traps_demultiplexed readObjidQuoted turns_all [ambientAdded, ambientRemoved]

end Agent

end YadroSnmp
