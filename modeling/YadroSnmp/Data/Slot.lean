import YadroSnmp.Lib.Run
import YadroSnmp.Data.Table

/-! # The slot of one row name

Seen from one name, a table is either without a row or holds one, and the
calls made on that row are the labels of its transitions. A history of a slot
falls into lifetimes: a creation, updates, and a removal unless the row lives.
-/

namespace YadroSnmp.Slot

open Snmp Table Labelled

variable {Row : Type} (I : ItemClass Row) (folder name : Str)

inductive Step : Option Row → Event → Option Row → Prop
  | create : Step none ⟨name, .onCreate, I.onCreate (I.make folder name)⟩
      (some (I.make folder name))
  | setFields (row : Row) (fields : FieldsMap) :
      Step (some row) ⟨name, .setFields fields, (I.setFields row fields).traps⟩
        (some (I.setFields row fields).row)
  | destroy (row : Row) : Step (some row) ⟨name, .onDestroy, I.onDestroy row⟩ none

/-- The calls made on a living row since its creation, and the row they left. -/
inductive Living : List Event → Row → Prop
  | create : Living [⟨name, .onCreate, I.onCreate (I.make folder name)⟩] (I.make folder name)
  | setFields {calls : List Event} {row : Row} (fields : FieldsMap) : Living calls row →
      Living (calls ++ [⟨name, .setFields fields, (I.setFields row fields).traps⟩])
        (I.setFields row fields).row

/-- A lifetime that is over: its last call is the removal. -/
def Ended (calls : List Event) : Prop :=
  ∃ before row, Living I folder name before row ∧
    calls = before ++ [⟨name, .onDestroy, I.onDestroy row⟩]

def Current (calls : List Event) : Option Row → Prop
  | none => calls = []
  | some row => Living I folder name calls row

/-- The calls fall into ended lifetimes followed by the current one. -/
def Lifetimes (calls : List Event) (s : Option Row) : Prop :=
  ∃ (ended : List (List Event)) (current : List Event), calls = ended.flatten ++ current ∧
    (∀ life ∈ ended, Ended I folder name life) ∧ Current I folder name current s

variable {I folder name}

/-- Every history from an empty slot is a sequence of lifetimes. -/
theorem lifetimes {calls : List Event} {s : Option Row}
    (h : Run (Step I folder name) none calls s) : Lifetimes I folder name calls s := by
  refine h.induction_right (P := Lifetimes I folder name) ?_ ?_
  · exact ⟨[], [], rfl, by simp, rfl⟩
  · rintro calls t e u - ⟨ended, current, rfl, hEnded, hCurrent⟩ hStep
    cases hStep with
    | create =>
      obtain rfl : current = [] := hCurrent
      exact ⟨ended, _, by simp, hEnded, .create⟩
    | setFields row fields =>
      exact ⟨ended, _, by rw [List.append_assoc], hEnded, .setFields fields hCurrent⟩
    | destroy row =>
      refine ⟨ended ++ [current ++ [⟨name, .onDestroy, I.onDestroy row⟩]], [], by simp, ?_, rfl⟩
      intro life hLife
      rcases List.mem_append.mp hLife with hLife | hLife
      · exact hEnded life hLife
      · rw [List.mem_singleton.mp hLife]
        exact ⟨current, row, hCurrent, rfl⟩

end YadroSnmp.Slot
