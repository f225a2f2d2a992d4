import YadroSnmp.Snmp.Trap

/-! # The varbinds of a trap and their receiver

`create_variable_list` puts the notification into the varbind `snmpTrapOID.0`
and each `add_field` appends one. A receiver takes the trap apart again; over
many traps it remembers the last value sent under each OID.
-/

namespace YadroSnmp.Snmp

inductive Content where
  | objectId (oid : OID)
  | value (value : Value)
deriving DecidableEq

structure Varbind where
  name : OID
  content : Content
deriving DecidableEq

/-- `SNMPTRAP_OID`: snmpTrapOID.0 -/
def snmptrapOid : OID := [1, 3, 6, 1, 6, 3, 1, 1, 4, 1, 0]

def createVariableList (trapOid : OID) : List Varbind := [⟨snmptrapOid, .objectId trapOid⟩]

/-- `VariableList::add`, for a value of any of its overloads. -/
def addField (vars : List Varbind) (fieldOid : OID) (fieldValue : Value) : List Varbind :=
  vars ++ [⟨fieldOid, .value fieldValue⟩]

/-- What `send` hands to net-snmp. -/
def Trap.vars (trap : Trap) : List Varbind :=
  trap.fields.foldl (fun vars field => addField vars field.1 field.2) (createVariableList trap.oid)

def Varbind.field : Varbind → Option (OID × Value)
  | ⟨name, .value value⟩ => some (name, value)
  | ⟨_, .objectId _⟩ => none

def receive : List Varbind → Option Trap
  | ⟨name, .objectId oid⟩ :: vars =>
    if name = snmptrapOid then (vars.mapM Varbind.field).map (Trap.mk oid) else none
  | _ => none

def valuesAt (pdus : List (List Varbind)) (oid : OID) : List Value :=
  (pdus.flatMap fun vars => vars.filterMap Varbind.field).filterMap fun field =>
    if field.1 = oid then some field.2 else none

def known (pdus : List (List Varbind)) (oid : OID) : Option Value := (valuesAt pdus oid).getLast?

def Trap.valuesAt (trap : Trap) (oid : OID) : List Value :=
  trap.fields.filterMap fun field => if field.1 = oid then some field.2 else none

theorem Trap.vars_eq (trap : Trap) :
    trap.vars = ⟨snmptrapOid, .objectId trap.oid⟩ ::
      trap.fields.map fun field => ⟨field.1, .value field.2⟩ := by
  suffices h : ∀ vars, trap.fields.foldl (fun vars field => addField vars field.1 field.2) vars =
      vars ++ trap.fields.map fun field => ⟨field.1, .value field.2⟩ from h _
  induction trap.fields with
  | nil => exact fun vars => (List.append_nil vars).symm
  | cons field fields ih =>
    intro vars
    rw [List.foldl_cons, ih, addField, List.append_assoc]
    rfl

theorem mapM_field (fields : List (OID × Value)) :
    (fields.map fun field => Varbind.mk field.1 (.value field.2)).mapM Varbind.field = some fields := by
  induction fields with
  | nil => rfl
  | cons field fields ih =>
    rw [List.map_cons, List.mapM_cons, ih]
    rfl

/-- A receiver gets back the trap that was sent. -/
theorem receive_vars (trap : Trap) : receive trap.vars = some trap := by
  rw [Trap.vars_eq, receive, if_pos rfl, mapM_field]
  rfl

theorem filterMap_vars (trap : Trap) : trap.vars.filterMap Varbind.field = trap.fields := by
  rw [Trap.vars_eq, List.filterMap_cons_none rfl, List.filterMap_map]
  exact List.filterMap_some

theorem valuesAt_vars (traps : List Trap) (oid : OID) :
    valuesAt (traps.map Trap.vars) oid = traps.flatMap fun trap => trap.valuesAt oid := by
  rw [valuesAt, List.flatMap_map]
  simp only [filterMap_vars, List.filterMap_flatMap]
  rfl

/-- What was sent last decides, and what was sent before it only where that says nothing. -/
theorem known_append (pdus pdus' : List (List Varbind)) (oid : OID) :
    known (pdus ++ pdus') oid = (known pdus' oid).or (known pdus oid) := by
  rw [known, valuesAt, List.flatMap_append, List.filterMap_append, List.getLast?_append]
  rfl

theorem Trap.valuesAt_of_ne {trap : Trap} {oid : OID} (h : oid ∉ trap.fields.map Prod.fst) :
    trap.valuesAt oid = [] := by
  refine List.filterMap_eq_nil_iff.mpr fun field hField => if_neg ?_
  rintro rfl
  exact h (List.mem_map_of_mem hField)

theorem Trap.valuesAt_of_forall {trap : Trap} {oid : OID} (h : ∀ name ∈ trap.fields.map Prod.fst, name = oid) :
    trap.valuesAt oid = trap.carried := by
  rw [Trap.valuesAt, Trap.carried, List.map_eq_flatMap, List.filterMap_eq_flatMap_toList]
  refine List.flatMap_congr fun field hField => ?_
  rw [if_pos (h field.1 (List.mem_map_of_mem hField))]
  rfl

end YadroSnmp.Snmp
