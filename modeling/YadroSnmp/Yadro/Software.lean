import YadroSnmp.Data.Enums
import YadroSnmp.Data.Field
import YadroSnmp.Data.Table

/-! # Software rows

The row class of the software table. Two of its fields are enumerations, whose
conversion may throw and end `setFields` between two assignments.
-/

namespace YadroSnmp.SoftwareVersions

open Snmp Table

def invalidEnumValue : UInt8 := 0xFF

def enumValues (values : List (String × UInt8)) : OrdMap Str UInt8 :=
  OrdMap.ofList (values.map fun e => (Str.lit e.1, e.2))

def purpose : DBusEnum UInt8 where
  base := Str.lit "xyz.openbmc_project.Software.Version.VersionPurpose"
  values := enumValues [("Unknown", 0), ("Other", 1), ("System", 2), ("BMC", 3), ("Host", 4)]
  wrongValue := invalidEnumValue

def activation : DBusEnum UInt8 where
  base := Str.lit "xyz.openbmc_project.Software.Activation.Activations"
  values := enumValues
    [("NotReady", 0), ("Invalid", 1), ("Ready", 2), ("Activating", 3), ("Active", 4), ("Failed", 5)]
  wrongValue := invalidEnumValue

/-- The bare type name raises, and any byte passes for the dot. -/
theorem purpose_misread :
    (¬ ∃ value, purpose.get purpose.base = .ok value ∧ purpose.Decodes purpose.base value) ∧
      ¬ ∃ value, purpose.get (purpose.base ++ Str.lit "#BMC") = .ok value ∧
        purpose.Decodes (purpose.base ++ Str.lit "#BMC") value := by
  have hBMC : purpose.get (purpose.base ++ Str.lit "#BMC") = .ok 3 := by decide
  constructor
  · rintro ⟨value, hGet, -⟩
    rw [DBusEnum.get_base] at hGet
    cases hGet
  · rintro ⟨value, hGet, hDecodes⟩
    obtain rfl : 3 = value := Except.ok.inj (hBMC.symm.trans hGet)
    have hText : Str.lit "#BMC" = '#'.toUInt8 :: Str.lit "BMC" := by decide
    rw [hText, DBusEnum.decodes_append, if_neg (by decide)] at hDecodes
    revert hDecodes
    decide

structure Software where
  name : Str
  version : Str
  purpose : UInt8
  activation : UInt8
  priority : UInt8
deriving DecidableEq

def make (_folder name : Str) : Software where
  name := name
  version := []
  purpose := invalidEnumValue
  activation := invalidEnumValue
  priority := invalidEnumValue

/-- `setFieldEnum`: the new value of the field whose old value is `old`. -/
def setFieldEnum (fields : FieldsMap) (field : Str) (enumcvt : DBusEnum UInt8) (old : UInt8) :
    Except Exc UInt8 :=
  match fields.typed Str field with
  | some str => enumcvt.get str
  | none => .ok old

theorem setFieldEnum_guarded (fields : FieldsMap) (field : Str) (enumcvt : DBusEnum UInt8) (old : UInt8) :
    (guardedAccess Str fields field).map (fun found => found.elim (.ok old) enumcvt.get) =
      some (setFieldEnum fields field enumcvt old) := by
  rw [guardedAccess_eq, setFieldEnum]
  cases fields.typed Str field with
  | none => rfl
  | some str => rfl

/-- What was assigned before a throw stays. -/
def setFields (s : Software) (fields : FieldsMap) : Reaction Software :=
  let s := { s with version := setField fields (Str.lit "Version") s.version }
  match setFieldEnum fields (Str.lit "Purpose") purpose s.purpose with
  | .error e => ⟨s, [], some e⟩
  | .ok value =>
    let s := { s with purpose := value }
    match setFieldEnum fields (Str.lit "Activation") activation s.activation with
    | .error e => ⟨s, [], some e⟩
    | .ok value =>
      let s := { s with
        activation := value
        priority := setField fields (Str.lit "Priority") s.priority }
      ⟨s, [], none⟩

def getSnmpReply (s : Software) (colnum : Nat) : Answer :=
  match colnum with
  | 1 => .value (.octetStr s.name)
  | 2 => .value (.octetStr s.version)
  | 3 => .value (.integer s.purpose.toNat)
  | 4 => .value (.integer s.activation.toNat)
  | 5 => .value (.integer s.priority.toNat)
  | _ => .noSuchObject

theorem name_setFields (s : Software) (fields : FieldsMap) : (setFields s fields).row.name = s.name := by
  cases hPurpose : setFieldEnum fields (Str.lit "Purpose") purpose s.purpose with
  | error e => simp [setFields, hPurpose]
  | ok p =>
    cases hActivation : setFieldEnum fields (Str.lit "Activation") activation s.activation with
    | error e => simp [setFields, hPurpose, hActivation]
    | ok a => simp [setFields, hPurpose, hActivation]

def itemClass : ItemClass Software where
  name := Software.name
  make := make
  setFields := setFields
  onCreate _ := []
  onDestroy _ := []
  name_make _ _ := rfl
  name_setFields := name_setFields

def enumField (property : String) (enumcvt : DBusEnum UInt8) (get : Software → UInt8) : Field Software where
  property := Str.lit property
  decode value := (HoldsAlternative.get? value).bind fun str => (enumcvt.get str).toOption
  get := get

def fields : List (Field Software) :=
  [.typed "Version" Software.version, enumField "Purpose" purpose Software.purpose,
    enumField "Activation" activation Software.activation, .typed "Priority" Software.priority]

theorem enumField_assigned {map : FieldsMap} {property : String} {enumcvt : DBusEnum UInt8}
    {get : Software → UInt8} {s s' : Software}
    (h : setFieldEnum map (Str.lit property) enumcvt (get s) = .ok (get s')) :
    (enumField property enumcvt get).Assigned map s s' := by
  change get s' =
    ((map.find? (Str.lit property)).bind (enumField property enumcvt get).decode).getD (get s)
  unfold setFieldEnum FieldsMap.typed at h
  cases hFind : map.find? (Str.lit property) with
  | none =>
    rw [hFind] at h
    exact (Except.ok.inj h).symm
  | some variant =>
    rw [hFind] at h
    cases hGet : HoldsAlternative.get? (α := Str) variant with
    | none =>
      simp only [Option.bind_some, hGet] at h
      simpa [enumField, hGet] using (Except.ok.inj h).symm
    | some str =>
      simp only [Option.bind_some, hGet] at h
      simp [enumField, hGet, h, Except.toOption]

theorem setFields_normal {s : Software} {map : FieldsMap} (h : (setFields s map).raised = none) :
    ∃ p a, setFieldEnum map (Str.lit "Purpose") purpose s.purpose = .ok p ∧
      setFieldEnum map (Str.lit "Activation") activation s.activation = .ok a ∧
      (setFields s map).row =
        { s with
          version := setField map (Str.lit "Version") s.version
          purpose := p
          activation := a
          priority := setField map (Str.lit "Priority") s.priority } := by
  cases hPurpose : setFieldEnum map (Str.lit "Purpose") purpose s.purpose with
  | error e => simp [setFields, hPurpose] at h
  | ok p =>
    cases hActivation : setFieldEnum map (Str.lit "Activation") activation s.activation with
    | error e => simp [setFields, hPurpose, hActivation] at h
    | ok a => exact ⟨p, a, rfl, rfl, by simp [setFields, hPurpose, hActivation]⟩

def fieldClass : FieldClass Software where
  toItemClass := itemClass
  fields := fields
  assigned := by
    intro f hf row map hNormal
    obtain ⟨p, a, hPurpose, hActivation, hRow⟩ := setFields_normal hNormal
    change f.Assigned map row (setFields row map).row
    rw [hRow]
    simp only [fields, List.mem_cons, List.not_mem_nil, or_false] at hf
    obtain rfl | rfl | rfl | rfl := hf
    · exact Field.typed_assigned rfl
    · exact enumField_assigned hPurpose
    · exact enumField_assigned hActivation
    · exact Field.typed_assigned rfl

/-- A property that is to hold an enumeration is the bare name of its type. -/
def NamesEnumType (map : FieldsMap) : Prop :=
  map.typed Str (Str.lit "Purpose") = some purpose.base ∨
    map.typed Str (Str.lit "Activation") = some activation.base

theorem setFieldEnum_ok_iff {map : FieldsMap} {property : Str} {enumcvt : DBusEnum UInt8} (old : UInt8) :
    (∃ value, setFieldEnum map property enumcvt old = .ok value) ↔
      map.typed Str property ≠ some enumcvt.base := by
  unfold setFieldEnum
  cases map.typed Str property with
  | none => simp
  | some str => simp [DBusEnum.get_ok_iff]

theorem raised_iff (s : Software) (map : FieldsMap) :
    (setFields s map).raised = none ↔ ¬ NamesEnumType map := by
  rw [NamesEnumType, not_or]
  constructor
  · intro hNormal
    obtain ⟨p, a, hPurpose, hActivation, -⟩ := setFields_normal hNormal
    exact ⟨(setFieldEnum_ok_iff s.purpose).mp ⟨p, hPurpose⟩,
      (setFieldEnum_ok_iff s.activation).mp ⟨a, hActivation⟩⟩
  · rintro ⟨hPurpose, hActivation⟩
    obtain ⟨p, hp⟩ := (setFieldEnum_ok_iff s.purpose).mpr hPurpose
    obtain ⟨a, ha⟩ := (setFieldEnum_ok_iff s.activation).mpr hActivation
    simp [setFields, hp, ha]

def rowClass : RowClass Software where
  toFieldClass := fieldClass
  core := Software.name
  core_setFields := name_setFields
  ext := by
    intro s s' hCore hFields
    have hFields' : ∀ f ∈ fields, f.get s = f.get s' := hFields
    simp only [fields, List.forall_mem_cons, Field.typed, enumField] at hFields'
    cases s
    cases s'
    simp_all
  refused := NamesEnumType
  raised_iff := raised_iff

def softwareTable : Config where
  path := Str.lit "/xyz/openbmc_project/software"
  interfaces :=
    [Str.lit "xyz.openbmc_project.Software.Version", Str.lit "xyz.openbmc_project.Software.Activation",
      Str.lit "xyz.openbmc_project.Software.RedundancyPriority"]

end YadroSnmp.SoftwareVersions
