import YadroSnmp.Lib.ByteString

/-! # Object identifiers, varbind values and traps

`read_objid` belongs to net-snmp, so the text parser is a parameter of
`makeOid`. A trap is the notification OID followed by the varbinds that
`add_field` appended, in order.
-/

namespace YadroSnmp.Snmp

abbrev OID := List Nat

def yadroOid (args : List Nat) : OID := [1, 3, 6, 1, 4, 1, 49769] ++ args

/-- `read_objid`: the sub-identifiers of a textual OID, when it parses. -/
abbrev ReadObjid := Str → Option OID

/-- `make_oid` applied to the formatted text: a failed parse clears the result. -/
def makeOid (readObjid : ReadObjid) (oidStr : Str) : OID :=
  match readObjid oidStr with
  | some oid => oid
  | none => []

def formatUlong (n : Nat) : Str := (Nat.toDigits 10 n).map fun c => c.toUInt8

/-- `%s` applied to `c_str()`: the bytes before the first NUL. -/
def formatCStr (s : Str) : Str := s.takeWhile (· != 0)

inductive Value where
  | octetStr (value : Str)
  | integer (value : Int)
deriving DecidableEq

/-- `SNMPBOOL`: `TruthValue::True` is 1 and `TruthValue::False` is 2. -/
def snmpBool (value : Bool) : Value := .integer (if value then 1 else 2)

/-- `Trap trap(oid)` followed by one `add_field` for each pair. -/
structure Trap where
  oid : OID
  fields : List (OID × Value)
deriving DecidableEq

def Trap.carried (trap : Trap) : List Value := trap.fields.map Prod.snd

/-- What a row answers to a GET of one column; `undefined` is the result of a
conversion to `int` outside its range. -/
inductive Answer where
  | value (value : Value)
  | noSuchObject
  | undefined
deriving DecidableEq

end YadroSnmp.Snmp
