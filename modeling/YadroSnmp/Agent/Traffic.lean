import YadroSnmp.Agent.Notifications
import YadroSnmp.Data.Traffic

/-! # How many traps the agent sends

A call on a row sends one trap at most, so the bound on the calls is one on the
traps: whatever comes over the bus, in whatever order, the agent answers it
with no more traps than the rows and maps it was told about.
-/

namespace YadroSnmp

open Snmp Table Labelled

/-- No call sends more than one trap. -/
structure ItemClass.Terse {Row : Type} (I : ItemClass Row) : Prop where
  create : ∀ row, (I.onCreate row).length ≤ 1
  setFields : ∀ row fields, (I.setFields row fields).traps.length ≤ 1
  destroy : ∀ row, (I.onDestroy row).length ≤ 1

section Calls

variable {Row : Type} {I : ItemClass Row} {T : Config} {s : Table.State Row}

theorem ItemClass.Terse.step (h : I.Terse) {folder name : Str} {row row' : Option Row} {e : Event}
    (hStep : Slot.Step I folder name row e row') : e.traps.length ≤ 1 := by
  cases hStep with
  | create => exact h.create _
  | setFields row fields => exact h.setFields row fields
  | destroy row => exact h.destroy row

theorem ItemClass.Terse.handle (h : I.Terse) (hs : KeyedList.Sorted I.name s.items) (m : Message) :
    (((Table.handle I T s m).state.log.drop s.log.length).flatMap Event.traps).length +
        (Table.handle I T s m).state.items.length ≤ s.items.length + m.load := by
  obtain ⟨events, hLog, -, hRun⟩ := (handle_advance (T := T) hs m).calls
  have hTraps : (events.flatMap Event.traps).length ≤ events.length := by
    have hOne : ∀ e ∈ events, e.traps.length ≤ 1 := by
      intro e he
      exact (hRun e.name).forall_labels (P := fun _ => True) trivial (fun _ _ _ _ _ => trivial)
        (fun _ _ _ _ hStep => h.step hStep) e (List.mem_filter.mpr ⟨he, by simp⟩)
    rw [List.length_flatMap]
    simpa using List.sum_le_card_nsmul (events.map fun e => e.traps.length) 1 (by simpa using hOne)
  have hLoad := handle_load (T := T) hs m
  simp only [State.load, hLog, List.length_append] at hLoad
  rw [hLog, List.drop_left]
  omega

end Calls

namespace Agent

variable {readObjid : ReadObjid} {order : List ObjectId} {input : Input} {c : TableId}

/-- One trap for a query or signal of the power state; for the tables, what the message brings. -/
def Input.load : Input → Nat
  | power _ => 1
  | update _ subtree getAll => (Message.update subtree getAll).load
  | interfacesAdded m => (Message.interfacesAdded m).load
  | interfacesRemoved m => (Message.interfacesRemoved m).load
  | propertiesChanged path m => (Message.propertiesChanged path m).load

def ObjectId.rows : (o : ObjectId) → o.State → Nat
  | powerState, _ => 0
  | table _, s => State.items s |>.length

end Agent

end YadroSnmp
