import YadroSnmp.Lib.Componentwise
import YadroSnmp.Data.Confinement
import YadroSnmp.Data.View

/-! # The order of signals about different objects

The views are the components of a table, and a signal about an object of the
folder acts on the view of its name only. The outcome of a sequence of signals
is therefore fixed by what each object sent, not by how the senders interleave.
-/

namespace YadroSnmp.Table

open Snmp KeyedList Componentwise

variable {Row : Type} (I : ItemClass Row) (T : Config)

/-- The signal is about an object strictly below the folder. -/
def AboutBelow (m : Message) : Prop := ∃ path, m.object = some path ∧ Below T path

variable {I T}

theorem AboutBelow.object_eq_iff {m : Message} (h : AboutBelow T m) {n : Str} :
    m.object.map (rowName T) = some n ↔ m.object = some (objectPath T n) := by
  obtain ⟨path, hPath, hBelow⟩ := h
  rw [hPath, Option.map_some, Option.some_inj, Option.some_inj, below_rowName hBelow, rowName_objectPath,
    objectPath_injective.eq_iff]

theorem signals_act (I : ItemClass Row) (T : Config) :
    Acts (fun s m => (handle I T s m).state) (State.view I) (fun m => m.object.map (rowName T))
      (fun n v m => (v.receive I T n m).1) (fun s => Sorted I.name s.items) (AboutBelow T) := by
  constructor
  · exact fun s m hs _ => (handle_advance hs m).sorted
  · intro s m n hs hm hName
    exact (handle_view hs (hm.object_eq_iff.mp hName)).1.self
  · intro s m n hs hm hOther
    obtain ⟨path, hPath, hBelow⟩ := hm
    rw [hPath, Option.map_some, Option.some_inj.ne] at hOther
    rw [below_rowName hBelow] at hPath
    exact (handle_view hs hPath).1.other n hOther.symm

/-- Two sequences of signals that are the same for each object leave the same
rows in the same order, and have sent the same traps for each row name. -/
theorem interleavings_agree (I : ItemClass Row) (T : Config) (before ms ms' : List Message)
    (hBelow : ∀ m ∈ ms ++ ms', AboutBelow T m)
    (hSame : ∀ path, (ms.filter fun m => m.object = some path) =
      ms'.filter fun m => m.object = some path) :
    let s := run I T initial before
    (run I T s ms).items = (run I T s ms').items ∧
      ∀ n, (run I T s ms).traps n = (run I T s ms').traps n := by
  intro s
  have hs : Sorted I.name s.items := reachable_sorted before
  have hMs : ∀ m ∈ ms, AboutBelow T m := fun m hm => hBelow m (List.mem_append_left ms' hm)
  have hMs' : ∀ m ∈ ms', AboutBelow T m := fun m hm => hBelow m (List.mem_append_right ms hm)
  have hNames : ∀ n, (ms.filter fun m => m.object.map (rowName T) = some n) =
      ms'.filter fun m => m.object.map (rowName T) = some n := by
    intro n
    rw [List.filter_congr fun m hm => decide_eq_decide.mpr (hMs m hm).object_eq_iff,
      List.filter_congr fun m hm => decide_eq_decide.mpr (hMs' m hm).object_eq_iff]
    exact hSame (objectPath T n)
  have hViews := (signals_act I T).view_eq_of_filter_eq hs hMs hMs' hNames
  constructor
  · exact ((signals_act I T).inv_foldl hs hMs).ext ((signals_act I T).inv_foldl hs hMs') fun n =>
      congrArg View.row (hViews n)
  · intro n
    exact congrArg (List.flatMap Event.traps) (congrArg View.history (hViews n))

section Ambient

open Sensors

theorem object_announced (path : Str) (value : ℚ) : (announced path value).object = some path := rfl

def ambientFirst : List Message :=
  [announced ambientPath 27, announced inletPath 20, announced ambientPath 28]

def inletFirst : List Message :=
  [announced inletPath 20, announced ambientPath 27, announced ambientPath 28]

theorem ambient_inlet_agree :
    let s := run (itemClass ambientObjid) (sensorsTable "temperature") initial []
    (run (itemClass ambientObjid) (sensorsTable "temperature") s ambientFirst).items =
        (run (itemClass ambientObjid) (sensorsTable "temperature") s inletFirst).items ∧
      ∀ n, (run (itemClass ambientObjid) (sensorsTable "temperature") s ambientFirst).traps n =
        (run (itemClass ambientObjid) (sensorsTable "temperature") s inletFirst).traps n := by
  refine interleavings_agree (itemClass ambientObjid) (sensorsTable "temperature") [] _ _ ?_ ?_
  · have hAmbient : ∀ value, AboutBelow (sensorsTable "temperature") (announced ambientPath value) :=
      fun _ => ⟨_, rfl, Str.lit "ambient", by decide, rfl⟩
    have hInlet : AboutBelow (sensorsTable "temperature") (announced inletPath 20) :=
      ⟨_, rfl, Str.lit "inlet", by decide, rfl⟩
    simp [ambientFirst, inletFirst, hAmbient, hInlet]
  · intro path
    have hNe : ambientPath ≠ inletPath := by decide
    rcases eq_or_ne ambientPath path with rfl | hPath
    · simp [ambientFirst, inletFirst, object_announced, hNe.symm]
    · simp [ambientFirst, inletFirst, List.filter_cons, object_announced, hPath]

end Ambient

end YadroSnmp.Table
