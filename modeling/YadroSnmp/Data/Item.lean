import Mathlib.Data.Rat.Defs
import YadroSnmp.Lib.OrdMap
import YadroSnmp.Snmp.Trap

/-! # Rows of a table

`Variant` and `FieldsMap` are the values a D-Bus message carries, and
`setField` is the typed assignment every row class is built from. `ItemClass`
lists what `Table<ItemType>` uses of its parameter.
-/

namespace YadroSnmp

open Snmp

inductive Exc where
  | outOfRange
  | sdBusError
deriving DecidableEq

/-- `variant_t`; D-Bus doubles are exact rationals. -/
inductive Variant where
  | int64 (value : Int64)
  | string (value : Str)
  | bool (value : Bool)
  | uint8 (value : UInt8)
  | double (value : ℚ)
deriving DecidableEq

abbrev FieldsMap := OrdMap Str Variant

/-- `std::holds_alternative` and `std::get` at one type. -/
class HoldsAlternative (α : Type) where
  get? : Variant → Option α

instance : HoldsAlternative Str where
  get? | .string value => some value | _ => none

instance : HoldsAlternative Bool where
  get? | .bool value => some value | _ => none

instance : HoldsAlternative UInt8 where
  get? | .uint8 value => some value | _ => none

instance : HoldsAlternative ℚ where
  get? | .double value => some value | _ => none

def FieldsMap.typed (α : Type) [HoldsAlternative α] (fieldsMap : FieldsMap) (propertyName : Str) :
    Option α :=
  (fieldsMap.find? propertyName).bind HoldsAlternative.get?

/-- `Item::setField`: the new value of the field whose old value is `field`. -/
def setField {α : Type} [HoldsAlternative α] (fieldsMap : FieldsMap) (propertyName : Str)
    (field : α) : α :=
  match fieldsMap.find? propertyName with
  | some value =>
    match HoldsAlternative.get? value with
    | some value => value
    | none => field
  | none => field

section Access

variable {α : Type} [HoldsAlternative α]

/-- The guard of a field, `at` for the check of the type, `at` and `get` for the
value; `none` when one of the three throws. -/
def guardedAccess (α : Type) [HoldsAlternative α] (fieldsMap : FieldsMap) (propertyName : Str) :
    Option (Option α) :=
  if fieldsMap.contains propertyName then
    (fieldsMap.find? propertyName).bind fun checked =>
      if (HoldsAlternative.get? checked : Option α).isSome then
        (fieldsMap.find? propertyName).bind fun value => (HoldsAlternative.get? value).map some
      else some none
  else some none

theorem guardedAccess_eq (fieldsMap : FieldsMap) (propertyName : Str) :
    guardedAccess α fieldsMap propertyName = some (fieldsMap.typed α propertyName) := by
  unfold guardedAccess OrdMap.contains FieldsMap.typed
  cases fieldsMap.find? propertyName with
  | none => rfl
  | some value =>
    cases hGet : (HoldsAlternative.get? value : Option α) with
    | none => simp [hGet]
    | some x => simp [hGet]

/-- A field is assigned what the guarded access finds, and keeps its value where that is nothing. -/
theorem setField_guarded (fieldsMap : FieldsMap) (propertyName : Str) (field : α) :
    (guardedAccess α fieldsMap propertyName).map (fun found => found.getD field) =
      some (setField fieldsMap propertyName field) := by
  unfold guardedAccess OrdMap.contains setField
  cases fieldsMap.find? propertyName with
  | none => rfl
  | some value =>
    cases hGet : (HoldsAlternative.get? value : Option α) with
    | none => simp [hGet]
    | some x => simp [hGet]

theorem setField_eq (fieldsMap : FieldsMap) (propertyName : Str) (field : α) :
    setField fieldsMap propertyName field = (fieldsMap.typed α propertyName).getD field := by
  have hGuarded := setField_guarded fieldsMap propertyName field
  rw [guardedAccess_eq, Option.map_some] at hGuarded
  exact (Option.some.inj hGuarded).symm

end Access

/-- What a call of `setFields` leaves: the row, the traps sent and the exception, if one escaped. -/
structure Reaction (Row : Type) where
  row : Row
  traps : List Trap
  raised : Option Exc

/-- The members of `ItemType` that the table calls. A row keeps the name it was built with. -/
structure ItemClass (Row : Type) where
  name : Row → Str
  make : (folder name : Str) → Row
  setFields : Row → FieldsMap → Reaction Row
  onCreate : Row → List Trap
  onDestroy : Row → List Trap
  name_make : ∀ folder n, name (make folder n) = n
  name_setFields : ∀ row fields, name (setFields row fields).row = name row

attribute [simp] ItemClass.name_make ItemClass.name_setFields

namespace ItemClass

variable {Row : Type} (I : ItemClass Row)

def deliver (life : Row × List Trap) (fields : FieldsMap) : Row × List Trap :=
  ((I.setFields life.1 fields).row, life.2 ++ (I.setFields life.1 fields).traps)

/-- A row from its creation through a sequence of maps delivered to it. -/
def life (folder name : Str) (maps : List FieldsMap) : Row × List Trap :=
  maps.foldl I.deliver (I.make folder name, I.onCreate (I.make folder name))

theorem life_snoc (folder name : Str) (maps : List FieldsMap) (fields : FieldsMap) :
    I.life folder name (maps ++ [fields]) = I.deliver (I.life folder name maps) fields := by
  simp [life]

end ItemClass

end YadroSnmp
