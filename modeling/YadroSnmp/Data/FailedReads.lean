import YadroSnmp.Data.Confinement

/-! # Calls and signals that cannot be read

The helper below `update` and the handler of removals swallow the error of a
failed read and go on with what was filled in: nothing for a failed query, a
part of the body for a broken signal. Both drop rows on that basis.
-/

namespace YadroSnmp.Table

open Snmp KeyedList Sensors

variable {Row : Type} (I : ItemClass Row) (T : Config)

/-- The part of a removal that was read is enough to drop a row. -/
def NamesRow (s : State Row) (filled : Str × List Str) : Prop :=
  T.path <+: filled.1 ∧ T.path.length < filled.1.length ∧ isOwned T filled.2 = true ∧
    rowName T filled.1 ∈ s.names I

variable {I T} {s : State Row}

theorem Unchanged.refl (s : State Row) : Unchanged s s := ⟨rfl, rfl⟩

/-- A failed query reads as an answer without objects, so every row is dropped. -/
theorem update_failed_items (s : State Row)
    (getAll : (service path : Str) → Read FieldsMap) :
    (update I T s (.error ∅) getAll).state.items = [] := by
  have hItems := pruneLoop_items (I := I) (T := T) (∅ : Objects) s.items.length 0 (s := s) (by omega)
  rw [List.take_zero, List.nil_append, List.drop_zero, List.filter_eq_nil_iff.mpr] at hItems
  · exact hItems
  · intro item _
    rw [OrdMap.contains_iff]
    exact List.not_mem_nil

/-- A failed query of the mapper leaves a reachable table intact exactly when it has no rows. -/
theorem failed_query_unchanged_iff (I : ItemClass Row) (T : Config) (ms : List Message)
    (getAll : (service path : Str) → Read FieldsMap) :
    Unchanged (run I T initial ms) (update I T (run I T initial ms) (.error ∅) getAll).state ↔
      (run I T initial ms).items = [] := by
  generalize run I T initial ms = s
  constructor
  · rintro ⟨hItems, -⟩
    rw [← hItems, update_failed_items]
  · intro hEmpty
    have hSame : (update I T s (.error ∅) getAll).state = s := by
      change pruneLoop I T ∅ s.items.length 0 s = s
      rw [hEmpty]
      rfl
    rw [hSame]
    exact .refl s

/-- The row of a live sensor is gone, and a trap says the sensor is disabled. -/
theorem ambient_lost_with_query :
    ¬ Unchanged (run (itemClass ambientObjid) (sensorsTable "temperature") initial
        [announced ambientPath 27])
      (update (itemClass ambientObjid) (sensorsTable "temperature")
        (run (itemClass ambientObjid) (sensorsTable "temperature") initial [announced ambientPath 27])
        (.error ∅) fun _ _ => .error ∅).state := by
  unfold Unchanged
  decide

theorem removed_unchanged_iff (hs : Sorted I.name s.items) (filled : Str × List Str) :
    Unchanged s (onInterfacesRemoved I T s (.error filled)).state ↔ ¬ NamesRow I T s filled := by
  constructor
  · rintro hSame ⟨hPrefix, hLength, hOwned, hRow⟩
    exact removed_not_unchanged (r := .error filled) hs ⟨rfl, hPrefix, hOwned, hLength⟩ hRow hSame
  · intro hNot
    have hSame : (onInterfacesRemoved I T s (.error filled)).state = s := by
      have hRead : callMethodAndRead (.error filled) = (filled.1, filled.2) := rfl
      rcases onInterfacesRemoved_cases (I := I) (T := T) hRead s with ⟨hPrefix, hOwned, hEq⟩ | ⟨-, hEq⟩
      · rw [hEq]
        rcases dropItem_cases (T := T) hs filled.1 with
          ⟨hLength, row, hRow, -⟩ | ⟨-, -, hDrop⟩ | ⟨-, hDrop⟩
        · have hMem : rowName T filled.1 ∈ s.names I := Option.isSome_of_mem hRow
          exact absurd ⟨hPrefix, hLength, hOwned, hMem⟩ hNot
        · rw [hDrop]
        · rw [hDrop]
      · rw [hEq]
    rw [hSame]
    exact .refl s

/-- A signal whose body cannot be read changes nothing, except a removal that was
read far enough to name a row and to be taken for one of the table's. -/
theorem unread_signal_unchanged_iff (I : ItemClass Row) (T : Config) (ms : List Message) :
    (∀ filled, Unchanged (run I T initial ms)
      (handle I T (run I T initial ms) (.interfacesAdded (.error filled))).state) ∧
    ∀ filled, Unchanged (run I T initial ms)
        (handle I T (run I T initial ms) (.interfacesRemoved (.error filled))).state ↔
      ¬ NamesRow I T (run I T initial ms) filled :=
  ⟨fun _ => .refl _, removed_unchanged_iff (reachable_sorted ms)⟩

/-- Without an interface list the path alone is enough; otherwise one listed interface is. -/
theorem ambient_lost_with_signal :
    (¬ Unchanged (run (itemClass ambientObjid) ⟨(sensorsTable "temperature").path, []⟩ initial
        [announced ambientPath 27])
      (handle (itemClass ambientObjid) ⟨(sensorsTable "temperature").path, []⟩
        (run (itemClass ambientObjid) ⟨(sensorsTable "temperature").path, []⟩ initial
          [announced ambientPath 27])
        (.interfacesRemoved (.error (ambientPath, [])))).state) ∧
    ¬ Unchanged (run (itemClass ambientObjid) (sensorsTable "temperature") initial
        [announced ambientPath 27])
      (handle (itemClass ambientObjid) (sensorsTable "temperature")
        (run (itemClass ambientObjid) (sensorsTable "temperature") initial [announced ambientPath 27])
        (.interfacesRemoved (.error
          (ambientPath, [Str.lit "xyz.openbmc_project.Sensor.Value"])))).state := by
  unfold Unchanged
  decide

end YadroSnmp.Table
