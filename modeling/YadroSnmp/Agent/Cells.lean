import YadroSnmp.Agent.Manager
import YadroSnmp.Data.Locality

/-! # What one cell depends on

Two runs of the agent that agree on the inputs about one row cannot be told
apart at its cells: neither by requests nor by the traps, whatever else
happened, in whatever order, to the other rows and the other objects.
-/

namespace YadroSnmp.Agent

open Snmp Table

variable {net : NetSnmp} {readObjid : ReadObjid} {order order' : List ObjectId} {inputs inputs' : List Input}
  {c : TableId} {name : Str} {column : Nat}

def TableId.rowClass (readObjid : ReadObjid) : (c : TableId) → RowClass c.Row
  | sensors _ => Sensors.rowClass readObjid
  | software => SoftwareVersions.rowClass
  | inventory => Inventory.rowClass readObjid

/-- The inputs from which the table may act on the row of the name. -/
def Input.Concerns (c : TableId) (name : Str) (input : Input) : Prop :=
  ∃ m ∈ input.message c, m.Concerns c.config name

instance (c : TableId) (name : Str) : DecidablePred (Input.Concerns c name) := fun input =>
  match h : input.message c with
  | none => isFalse (by simp [Input.Concerns, h])
  | some m => decidable_of_iff (m.Concerns c.config name) (by simp [Input.Concerns, h])

theorem TableId.itemClass_eq (readObjid : ReadObjid) (c : TableId) :
    c.itemClass readObjid = (c.rowClass readObjid).toItemClass := by
  cases c with
  | sensors i => rfl
  | software => rfl
  | inventory => rfl

theorem filter_messages (c : TableId) (name : Str) (inputs : List Input) :
    ((inputs.filterMap (Input.message c)).filter fun m => m.Concerns c.config name) =
      (inputs.filter fun input => input.Concerns c name).filterMap (Input.message c) := by
  induction inputs with
  | nil => rfl
  | cons input inputs ih =>
    cases hMessage : input.message c with
    | none =>
      have hNot : ¬ input.Concerns c name := by simp [Input.Concerns, hMessage]
      rw [List.filterMap_cons_none hMessage, ih, List.filter_cons_of_neg (by simpa using hNot)]
    | some m =>
      have hConcerns : input.Concerns c name ↔ m.Concerns c.config name := by
        simp [Input.Concerns, hMessage]
      rw [List.filterMap_cons_some hMessage, List.filter_cons, List.filter_cons, ih]
      simp only [decide_eq_true_eq, hConcerns]
      split
      · rw [List.filterMap_cons_some hMessage]
      · rfl

theorem view_tableRun_eq (readObjid : ReadObjid)
    (hSame : (inputs.filter fun input => input.Concerns c name) =
      inputs'.filter fun input => input.Concerns c name) :
    (tableRun readObjid c inputs).view (c.itemClass readObjid) name =
      (tableRun readObjid c inputs').view (c.itemClass readObjid) name := by
  rw [tableRun, tableRun, TableId.itemClass_eq]
  apply view_run_eq
  rw [filter_messages, filter_messages, hSame]

/-- The answers of a cell and the values sent about it are a function of the
inputs that concern its row. -/
theorem cells_independent (net : NetSnmp) (hNet : net.Documented) (hOrder : Bank.Turns order)
    (hOrder' : Bank.Turns order') (inputs inputs' : List Input)
    (hSame : (inputs.filter fun input => input.Concerns c name) =
      inputs'.filter fun input => input.Concerns c name)
    (hColumn : c.info.HasColumn column) (hFits : FitsOid c.info name) :
    let cell := instanceOid c.tableOid column name
    let s := run net.readObjid order inputs
    let s' := run net.readObjid order' inputs'
    get net s cell = get net s' cell ∧
      ((∀ input ∈ inputs ++ inputs', input.HasPaths) → valuesAt (pdus s) cell = valuesAt (pdus s') cell) := by
  intro cell s s'
  have hView := view_tableRun_eq net.readObjid hSame
  constructor
  · rw [get_run hNet hOrder hColumn hFits, get_run hNet hOrder' hColumn hFits]
    exact congrArg (cellReply c column) (congrArg View.row hView)
  · intro hPaths
    have hHistory : (tableRun net.readObjid c inputs).traps name =
        (tableRun net.readObjid c inputs').traps name :=
      congrArg (List.flatMap Event.traps) (congrArg View.history hView)
    rw [valuesAt_cell hNet.readObjid (fun input h => hPaths input (List.mem_append_left _ h)) hOrder,
      valuesAt_cell hNet.readObjid (fun input h => hPaths input (List.mem_append_right _ h)) hOrder', hHistory]

section Ambient

theorem ambient_independent :
    let cell := instanceOid temperature.tableOid Sensors.columnState (Str.lit "ambient")
    let s := run referenceNetSnmp.readObjid ObjectId.all [inletAdded, ambientAdded, powerChanged]
    let s' := run referenceNetSnmp.readObjid ObjectId.all [ambientAdded]
    get referenceNetSnmp s cell = get referenceNetSnmp s' cell ∧
      ((∀ input ∈ [inletAdded, ambientAdded, powerChanged] ++ [ambientAdded], input.HasPaths) →
        valuesAt (pdus s) cell = valuesAt (pdus s') cell) := by
  apply cells_independent referenceNetSnmp referenceNetSnmp_documented turns_all turns_all
  · rw [List.filter_cons_of_neg (by decide), List.filter_cons_of_pos (by decide),
      List.filter_cons_of_neg (by decide), List.filter_cons_of_pos (by decide)]
  · decide
  · exact fitsOid_iff.mpr (by decide)

end Ambient

end YadroSnmp.Agent
