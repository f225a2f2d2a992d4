import YadroSnmp.Data.Scalar
import YadroSnmp.Lib.Run
import YadroSnmp.Lib.Trail

/-! # A scalar and the service behind it

The match is registered when the scalar is made, so every signal about the
property is queued for the agent. A query is answered at once, before the
signals that are queued already.
-/

namespace YadroSnmp.Scalar

open Table Labelled

/-- The values the property has had, the signals that are queued, and what the agent handled. -/
structure World (T : Type) where
  past : List T
  queue : List (OrdMap Str T)
  heard : List (Input T)

inductive Action (T : Type) where
  /-- The service sets properties of the interface, or starts with them. -/
  | change (fields : OrdMap Str T)
  | query (bus : Bus T)
  | agent

variable {T : Type} (p : Property)

/-- An answer is the current value; a service that does not run gives none. -/
def World.Enabled (w : World T) : Action T → Prop
  | .change _ => True
  | .query bus => ∀ value ∈ p.arrival (.update bus), w.past.getLast? = some value
  | .agent => True

def World.apply (w : World T) : Action T → World T
  | .change fields =>
    { w with
      past := w.past ++ (fields.find? p.prop).toList
      queue := w.queue ++ [fields] }
  | .query bus => { w with heard := w.heard ++ [.update bus] }
  | .agent =>
    match w.queue with
    | [] => w
    | fields :: queue => { w with queue := queue, heard := w.heard ++ [.propertyChanged (.ok fields)] }

def World.Step (w : World T) (a : Action T) (w' : World T) : Prop := w.Enabled p a ∧ w' = w.apply p a

def World.start (past : List T) : World T := ⟨past, [], []⟩

def World.trail (w : World T) : Trail.World T where
  past := w.past
  queue := w.queue.map fun fields => fields.find? p.prop
  last := (p.arrivals w.heard).getLast?

def World.pending (w : World T) : List T := (w.trail p).pending

variable {p} {w w' : World T} {a : Action T}

theorem getLast?_arrivals_snoc (heard : List (Input T)) (input : Input T) :
    (p.arrivals (heard ++ [input])).getLast? = (p.arrival input).or (p.arrivals heard).getLast? := by
  rw [ScalarClass.arrivals_snoc]
  cases p.arrival input with
  | none => simp
  | some value => simp

theorem close_step (h : (w.trail p).Close) (hStep : w.Step p a w') : (w'.trail p).Close := by
  obtain ⟨hEnabled, rfl⟩ := hStep
  cases a with
  | change fields =>
    have hAnnounced := (Trail.Step.announce (fields.find? p.prop)).close h
    simpa [World.trail, World.apply] using hAnnounced
  | query bus =>
    simp only [World.trail, World.apply, getLast?_arrivals_snoc]
    cases hAnswer : p.arrival (.update bus) with
    | none => rwa [Option.none_or]
    | some value => exact (Trail.Step.answer (hEnabled value hAnswer)).close h
  | agent =>
    obtain ⟨past, queue, heard⟩ := w
    cases queue with
    | nil => exact h
    | cons fields queue =>
      simp only [World.trail, World.apply, getLast?_arrivals_snoc]
      exact Trail.Step.receive.close h

theorem close_start (past : List T) : ((World.start past).trail p).Close :=
  ⟨List.nil_suffix, by simp [World.trail, World.start, Property.arrivals]⟩

/-- The value of the scalar is the one it was made with, or one of those that
were current since the first signal that is still queued. -/
theorem value_recent {Obj : Type} {C : ScalarClass T Obj} {o : Obj} {past : List T} {actions : List (Action T)}
    (hRun : Run (World.Step (C.scalar o).toProperty) (World.start past) actions w) :
    (C.scalar (C.run o w.heard)).value = (C.scalar o).value ∧ (C.scalar o).arrivals w.heard = [] ∨
      (C.scalar (C.run o w.heard)).value ∈ w.past.rtake ((w.pending (C.scalar o).toProperty).length + 1) := by
  have hClose := hRun.preserves (P := fun w => (w.trail (C.scalar o).toProperty).Close)
    (fun _ _ _ => close_step) (close_start past)
  rw [ScalarClass.value_run, List.getLastD_eq_getLast?]
  cases hLast : ((C.scalar o).arrivals w.heard).getLast? with
  | none => exact .inl ⟨rfl, List.getLast?_eq_none_iff.mp hLast⟩
  | some value => exact .inr (hClose.recent value hLast)

end YadroSnmp.Scalar
