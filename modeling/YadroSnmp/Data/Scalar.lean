import Mathlib.Data.List.Induction
import YadroSnmp.Data.Table

/-! # Export of a D-Bus property to a scalar MIB value

`Scalar<T>` holds the last value of one property, which reaches it in the
answer to a query or in a signal. `setValue` is virtual, so both paths belong
to a derived class.
-/

namespace YadroSnmp

open Table

structure Property where
  path : Str
  iface : Str
  prop : Str

structure Scalar (T : Type) extends Property where
  value : T

/-- `helper::Services`: for each service its interfaces. -/
abbrev Services := OrdMap Str (List Str)

/-- The answers on the bus during one call of `update`. -/
structure Bus (T : Type) where
  getObject : (path : Str) → (ifaces : List Str) → Read Services
  get : (service path iface prop : Str) → Read T

/-- `helper::getService`: without an answer from the mapper the name is empty. -/
def getService {T : Type} (bus : Bus T) (path iface : Str) : Str :=
  match (callMethodAndRead (bus.getObject path [iface])).keys with
  | service :: _ => service
  | [] => []

/-- A way a value can reach the scalar: a query, or the properties of a signal. -/
inductive Scalar.Input (T : Type) where
  | update (bus : Bus T)
  | propertyChanged (m : Read (OrdMap Str T))

def Scalar.setValue {T : Type} (s : Scalar T) (var : T) : Scalar T := { s with value := var }

/-- A class derived from `Scalar<T>` with its override of `setValue`. -/
structure ScalarClass (T Obj : Type) where
  scalar : Obj → Scalar T
  setValue : Obj → T → Obj
  scalar_setValue : ∀ o var, scalar (setValue o var) = (scalar o).setValue var

namespace ScalarClass

variable {T Obj : Type} (C : ScalarClass T Obj)

/-- An `SdBusError` of the query or of reading its answer is silenced. -/
def update (bus : Bus T) (o : Obj) : Obj :=
  let s := C.scalar o
  match bus.get (getService bus s.path s.iface) s.path s.iface s.prop with
  | .ok var => C.setValue o var
  | .error _ => o

def onPropertyChanged (m : Read (OrdMap Str T)) (o : Obj) : Obj × Option Exc :=
  match m with
  | .ok data =>
    match data.find? (C.scalar o).prop with
    | some var => (C.setValue o var, none)
    | none => (o, none)
  | .error _ => (o, some .sdBusError)

def step (o : Obj) : Scalar.Input T → Obj
  | .update bus => C.update bus o
  | .propertyChanged m => (C.onPropertyChanged m o).1

def run (o : Obj) (inputs : List (Scalar.Input T)) : Obj := inputs.foldl C.step o

end ScalarClass

def Property.arrival {T : Type} (p : Property) : Scalar.Input T → Option T
  | .update bus =>
    match bus.get (getService bus p.path p.iface) p.path p.iface p.prop with
    | .ok var => some var
    | .error _ => none
  | .propertyChanged (.ok data) => data.find? p.prop
  | .propertyChanged (.error _) => none

def Property.arrivals {T : Type} (p : Property) (inputs : List (Scalar.Input T)) : List T :=
  inputs.filterMap p.arrival

namespace ScalarClass

variable {T Obj : Type} {C : ScalarClass T Obj} {o : Obj}

/-- Queries and signals act through the value they deliver, and without one not at all. -/
theorem step_eq (input : Scalar.Input T) :
    C.step o input = ((C.scalar o).arrival input).elim o (C.setValue o) := by
  cases input with
  | update bus =>
    simp only [step, update, Property.arrival]
    split
    · rfl
    · rfl
  | propertyChanged m =>
    cases m with
    | ok data =>
      simp only [step, onPropertyChanged, Property.arrival]
      split
      · rename_i hFind
        rw [hFind, Option.elim_some]
      · rename_i hFind
        rw [hFind, Option.elim_none]
    | error filled => rfl

theorem run_snoc (inputs : List (Scalar.Input T)) (input : Scalar.Input T) :
    C.run o (inputs ++ [input]) = C.step (C.run o inputs) input := by
  simp [run]

theorem toProperty_run (inputs : List (Scalar.Input T)) :
    (C.scalar (C.run o inputs)).toProperty = (C.scalar o).toProperty := by
  induction inputs using List.reverseRecOn with
  | nil => rfl
  | append_singleton inputs input ih =>
    rw [run_snoc, step_eq]
    cases (C.scalar (C.run o inputs)).arrival input with
    | none => exact ih
    | some var => exact (congrArg Scalar.toProperty (C.scalar_setValue _ var)).trans ih

theorem run_snoc_eq (inputs : List (Scalar.Input T)) (input : Scalar.Input T) :
    C.run o (inputs ++ [input]) =
      ((C.scalar o).arrival input).elim (C.run o inputs) (C.setValue (C.run o inputs)) := by
  rw [run_snoc, step_eq, toProperty_run]

theorem arrivals_snoc (p : Property) (inputs : List (Scalar.Input T)) (input : Scalar.Input T) :
    p.arrivals (inputs ++ [input]) = p.arrivals inputs ++ (p.arrival input).toList := by
  rw [Property.arrivals, List.filterMap_append, ← Property.arrivals]
  cases hArrival : p.arrival input with
  | none => simp [hArrival]
  | some var => simp [hArrival]

theorem value_run (inputs : List (Scalar.Input T)) :
    (C.scalar (C.run o inputs)).value =
      ((C.scalar o).arrivals inputs).getLastD (C.scalar o).value := by
  induction inputs using List.reverseRecOn with
  | nil => rfl
  | append_singleton inputs input ih =>
    rw [run_snoc_eq, arrivals_snoc]
    cases (C.scalar o).arrival input with
    | none => simpa using ih
    | some var => simp [C.scalar_setValue, Scalar.setValue]

end ScalarClass

end YadroSnmp
