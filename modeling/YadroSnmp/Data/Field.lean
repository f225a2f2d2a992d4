import YadroSnmp.Lib.Replica
import YadroSnmp.Data.Item

/-! # The fields of a row class

A field is taken from one property and keeps the last value it accepted. A row
class made of fields is an instance of the copies whose freshness is studied
in general.
-/

namespace YadroSnmp

/-- A member of the tuple `data` with the property that sets it. -/
structure Field (Row : Type) where
  property : Str
  {Value : Type}
  decode : Variant → Option Value
  get : Row → Value

def Field.typed {Row α : Type} [HoldsAlternative α] (property : String) (get : Row → α) : Field Row where
  property := Str.lit property
  decode := HoldsAlternative.get?
  get := get

/-- From `row` to `row'` the field took its property from the map, if that was there and of its type. -/
def Field.Assigned {Row : Type} (f : Field Row) (map : FieldsMap) (row row' : Row) : Prop :=
  f.get row' = ((map.find? f.property).bind f.decode).getD (f.get row)

/-- The last value of the field's type that one of the maps has for it. -/
def Field.last {Row : Type} (f : Field Row) : List FieldsMap → Option f.Value
  | [] => none
  | map :: maps => (f.last maps).or ((map.find? f.property).bind f.decode)

section Last

variable {Row : Type} {f : Field Row} {maps : List FieldsMap} {value : Variant}

theorem Field.last_eq_none (h : ∀ map ∈ maps, map.find? f.property = none) : f.last maps = none := by
  induction maps with
  | nil => rfl
  | cons map maps ih =>
    rw [last, ih fun map' hMap => h map' (List.mem_cons_of_mem map hMap), h map List.mem_cons_self]
    rfl

/-- When the maps agree on the property, the order they come in does not matter. -/
theorem Field.last_eq_decode (hAgree : ∀ map ∈ maps, ∀ v, map.find? f.property = some v → v = value)
    (hSome : ∃ map ∈ maps, map.find? f.property = some value) : f.last maps = f.decode value := by
  induction maps with
  | nil => simp at hSome
  | cons map maps ih =>
    rw [last]
    by_cases hLater : ∃ map ∈ maps, map.find? f.property = some value
    · rw [ih (fun map' hMap => hAgree map' (List.mem_cons_of_mem map hMap)) hLater]
      cases hFind : map.find? f.property with
      | none => rw [Option.bind_none, Option.or_none]
      | some v => rw [hAgree map List.mem_cons_self v hFind, Option.bind_some, Option.or_self]
    · have hNone : ∀ map' ∈ maps, map'.find? f.property = none := by
        intro map' hMap
        cases hFind : map'.find? f.property with
        | none => rfl
        | some v =>
          rw [hAgree map' (List.mem_cons_of_mem map hMap) v hFind] at hFind
          exact absurd ⟨map', hMap, hFind⟩ hLater
      obtain ⟨map', hMem, hFind⟩ := hSome
      rcases List.mem_cons.mp hMem with rfl | hMem
      · rw [Field.last_eq_none hNone, hFind, Option.none_or, Option.bind_some]
      · exact absurd ⟨map', hMem, hFind⟩ hLater

end Last

theorem Field.typed_assigned {Row α : Type} [HoldsAlternative α] {property : String} {get : Row → α}
    {map : FieldsMap} {row row' : Row} (h : get row' = setField map (Str.lit property) (get row)) :
    (Field.typed property get).Assigned map row row' :=
  h.trans (setField_eq map (Str.lit property) (get row))

def Field.Shows {Row : Type} (f : Field Row) (row : Row) (value : Variant) : Prop :=
  ∀ x, f.decode value = some x → f.get row = x

/-- A row class with its fields: `setFields` takes each of them from the map, unless it throws. -/
structure FieldClass (Row : Type) extends ItemClass Row where
  fields : List (Field Row)
  assigned : ∀ f ∈ fields, ∀ row map, (setFields row map).raised = none →
    f.Assigned map row (setFields row map).row

/-- A row class whose rows are their fields and a core that stays as it was
built. Whether a map makes a row throw does not depend on the row. -/
structure RowClass (Row : Type) extends FieldClass Row where
  {Core : Type}
  core : Row → Core
  core_setFields : ∀ row map, core (setFields row map).row = core row
  ext : ∀ row row', core row = core row' → (∀ f ∈ fields, f.get row = f.get row') → row = row'
  refused : FieldsMap → Prop
  raised_iff : ∀ row map, (setFields row map).raised = none ↔ ¬ refused map

namespace FieldClass

variable {Row : Type} (F : FieldClass Row)

/-- No row of the class throws on the map. -/
def Fits (map : FieldsMap) : Prop := ∀ row, (F.setFields row map).raised = none

def Shows (row : Row) (property : Str) (value : Variant) : Prop :=
  ∀ f ∈ F.fields, f.property = property → f.Shows row value

variable {F}

theorem shows_set {row : Row} {map : FieldsMap} {property : Str} {value : Variant}
    (hFits : F.Fits map) (hMap : map.find? property = some value) :
    F.Shows (F.setFields row map).row property value := by
  rintro f hf rfl x hx
  rw [F.assigned f hf row map (hFits row), hMap, Option.bind_some, hx, Option.getD_some]

theorem shows_keep {row : Row} {map : FieldsMap} {property : Str} {value : Variant}
    (hFits : F.Fits map) (hMap : map.find? property = none) (hRow : F.Shows row property value) :
    F.Shows (F.setFields row map).row property value := by
  rintro f hf rfl x hx
  rw [F.assigned f hf row map (hFits row), hMap, Option.bind_none, Option.getD_none]
  exact hRow f hf rfl x hx

/-- Rows as copies of the properties of their object. -/
def copy (F : FieldClass Row) : Replica.Copy Str Variant Row where
  fit := F.Fits
  set row map := (F.setFields row map).row
  shows := F.Shows
  shows_set := shows_set
  shows_keep := shows_keep

end FieldClass

end YadroSnmp
