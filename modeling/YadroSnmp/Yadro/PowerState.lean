import YadroSnmp.Data.Scalar
import YadroSnmp.Lib.ChangeLog

/-! # The host power state

`State` sends a trap when the string it holds changes, with the number it
serves for the string. Strings it has no number of its own for share one.
-/

namespace YadroSnmp.PowerState

open Snmp ChangeLog

def stateOid : OID := yadroOid [1, 1]

def notifyOid : OID := yadroOid [0, 1]

def unknown : Int := -1

def off : Int := 0

def on : Int := 1

def running : Str := Str.lit "xyz.openbmc_project.State.Host.HostState.Running"

def stopped : Str := Str.lit "xyz.openbmc_project.State.Host.HostState.Off"

structure State extends Scalar Str where
  traps : List Trap

def State.make : State where
  path := Str.lit "/xyz/openbmc_project/state/host0"
  iface := Str.lit "xyz.openbmc_project.State.Host"
  prop := Str.lit "CurrentHostState"
  value := []
  traps := []

/-- The number of a string, as `State::toSNMPValue` compares it. -/
def number (value : Str) : Int :=
  if value = running then on
  else if value = stopped then off
  else unknown

def State.toSNMPValue (s : State) : Int := number s.value

def State.setValue (s : State) (var : Str) : State :=
  let next : State := { s with toScalar := s.toScalar.setValue var }
  if s.value ≠ next.value then
    { next with traps := s.traps ++ [⟨notifyOid, [(stateOid, .integer next.toSNMPValue)]⟩] }
  else next

/-- `State_snmp_handler` -/
def snmpHandler (s : State) : Answer := .value (.integer s.toSNMPValue)

def State.scalarClass : ScalarClass Str State where
  scalar := State.toScalar
  setValue := State.setValue
  scalar_setValue s var := by
    simp only [State.setValue]
    split
    · rfl
    · rfl

def run (inputs : List (Scalar.Input Str)) : State := State.scalarClass.run State.make inputs

/-- The strings that reach the scalar, with the one it starts from. -/
def held (inputs : List (Scalar.Input Str)) : List Str := [] :: State.make.arrivals inputs

def State.sent (s : State) : List Value := s.traps.flatMap Trap.carried

def State.exported (s : State) : Value := .integer s.toSNMPValue

/-- A receiver that starts from `unknown` and replays the traps holds what is
served, at every moment; a trap is sent exactly when that changes, and no trap
repeats what the receiver holds. -/
structure Faithful (inputs : List (Scalar.Input Str)) : Prop where
  replayed : ∀ seen, seen <+: inputs →
    snmpHandler (run seen) = .value ((run seen).sent.getLastD (.integer unknown))
  exact : ∀ seen input, seen ++ [input] <+: inputs →
    (run (seen ++ [input])).sent =
      (run seen).sent ++ entry (run seen).exported (run (seen ++ [input])).exported
  chain : (.integer unknown :: (run inputs).sent).IsChain (· ≠ ·)

/-- Different strings of which one has a number of its own. -/
def Distinguished (prev curr : Str) : Prop :=
  prev ≠ curr → prev = running ∨ prev = stopped ∨ curr = running ∨ curr = stopped

instance (prev curr : Str) : Decidable (Distinguished prev curr) :=
  inferInstanceAs (Decidable (_ → _))

section Numbers

variable {prev curr : Str}

theorem number_eq_unknown_iff : number curr = unknown ↔ curr ≠ running ∧ curr ≠ stopped := by
  unfold number
  split
  · rename_i hRunning
    simp [hRunning, on, unknown]
  · rename_i hRunning
    split
    · rename_i hStopped
      simp [hStopped, off, unknown]
    · rename_i hStopped
      simp [hRunning, hStopped]

theorem number_inj (h : number prev = number curr) (hNumber : number prev ≠ unknown) : prev = curr := by
  unfold number at h hNumber
  grind [on, off, unknown]

theorem distinguished_iff : Distinguished prev curr ↔ (prev ≠ curr → number prev ≠ number curr) := by
  constructor
  · intro h hNe hSame
    rcases eq_or_ne (number prev) unknown with hPrev | hPrev
    · have hCurr := number_eq_unknown_iff.mp (hSame ▸ hPrev)
      obtain ⟨hRunning, hStopped⟩ := number_eq_unknown_iff.mp hPrev
      rcases h hNe with h | h | h | h
      · exact hRunning h
      · exact hStopped h
      · exact hCurr.1 h
      · exact hCurr.2 h
    · exact hNe (number_inj hSame hPrev)
  · intro h hNe
    by_contra hNone
    push Not at hNone
    obtain ⟨hPrevRunning, hPrevStopped, hCurrRunning, hCurrStopped⟩ := hNone
    apply h hNe
    rw [number_eq_unknown_iff.mpr ⟨hPrevRunning, hPrevStopped⟩,
      number_eq_unknown_iff.mpr ⟨hCurrRunning, hCurrStopped⟩]

end Numbers

section Step

variable {s : State} {var : Str}

@[simp] theorem value_setValue : (s.setValue var).value = var :=
  congrArg Scalar.value (State.scalarClass.scalar_setValue s var)

theorem sent_setValue :
    (s.setValue var).sent =
      s.sent ++ if s.value = var then [] else [.integer (number var)] := by
  unfold State.setValue State.sent
  simp only [Scalar.setValue]
  split
  · rename_i hNe
    simp [hNe, Trap.carried, State.toSNMPValue]
  · rename_i hSame
    simp [not_not.mp hSame]

/-- The trap of a step is the change of the number when the strings can be told apart by it. -/
theorem sent_exact_iff (s : State) (var : Str) :
    (s.setValue var).sent = s.sent ++ entry s.exported (s.setValue var).exported ↔
      Distinguished s.value var := by
  have hInj : Function.Injective Value.integer := fun _ _ => Value.integer.inj
  rw [sent_setValue, List.append_cancel_left_eq, distinguished_iff, State.exported, State.exported,
    State.toSNMPValue, State.toSNMPValue, value_setValue]
  exact (projected_eq_entry_iff fun value => Value.integer (number value)).trans
    (by rw [hInj.ne_iff])

end Step

section Run

variable {inputs : List (Scalar.Input Str)} {input : Scalar.Input Str}

theorem run_snoc :
    run (inputs ++ [input]) =
      (State.make.arrival input).elim (run inputs) (run inputs).setValue :=
  ScalarClass.run_snoc_eq (C := State.scalarClass) (o := State.make) inputs input

theorem getLast?_held : (held inputs).getLast? = some (run inputs).value := by
  have hValue : (run inputs).value = (State.make.arrivals inputs).getLastD [] :=
    ScalarClass.value_run (C := State.scalarClass) (o := State.make) inputs
  rw [held, List.getLast?_cons, hValue, List.getLastD_eq_getLast?]

theorem isChain_held_snoc :
    (held (inputs ++ [input])).IsChain Distinguished ↔
      (held inputs).IsChain Distinguished ∧
        ∀ var ∈ State.make.arrival input, Distinguished (run inputs).value var := by
  have hSnoc : held (inputs ++ [input]) = held inputs ++ (State.make.arrival input).toList :=
    congrArg ([] :: ·) (ScalarClass.arrivals_snoc _ inputs input)
  rw [hSnoc, List.isChain_append, getLast?_held]
  cases State.make.arrival input with
  | none => simp
  | some var => simp

theorem sent_snoc_iff :
    (run (inputs ++ [input])).sent =
        (run inputs).sent ++ entry (run inputs).exported (run (inputs ++ [input])).exported ↔
      ∀ var ∈ State.make.arrival input, Distinguished (run inputs).value var := by
  rw [run_snoc]
  cases State.make.arrival input with
  | none => simp [entry]
  | some var => simpa using sent_exact_iff (run inputs) var

theorem exact_iff :
    (∀ seen input, seen ++ [input] <+: inputs →
        (run (seen ++ [input])).sent =
          (run seen).sent ++ entry (run seen).exported (run (seen ++ [input])).exported) ↔
      (held inputs).IsChain Distinguished := by
  induction inputs using List.reverseRecOn with
  | nil => simp [held, Property.arrivals]
  | append_singleton inputs input ih =>
    rw [isChain_held_snoc, ← ih, ← sent_snoc_iff]
    constructor
    · intro h
      exact ⟨fun seen input' hSeen => h seen input' (hSeen.trans (List.prefix_append _ _)),
        h inputs input List.prefix_rfl⟩
    · rintro ⟨hBefore, hLast⟩ seen input' hSeen
      rcases List.prefix_concat_iff.mp hSeen with hSame | hSeen
      · obtain ⟨rfl, ⟨⟩⟩ := List.append_inj' hSame rfl
        exact hLast
      · exact hBefore seen input' hSeen

theorem tracks_run (h : (held inputs).IsChain Distinguished) :
    Tracks (.integer unknown) (run inputs).sent (run inputs).exported := by
  induction inputs using List.reverseRecOn with
  | nil => exact .nil _
  | append_singleton inputs input ih =>
    obtain ⟨hBefore, hLast⟩ := isChain_held_snoc.mp h
    rw [sent_snoc_iff.mpr hLast]
    exact (ih hBefore).append_entry _

theorem isChain_held_mono {seen : List (Scalar.Input Str)} (hSeen : seen <+: inputs)
    (h : (held inputs).IsChain Distinguished) : (held seen).IsChain Distinguished := by
  obtain ⟨rest, rfl⟩ := hSeen
  rw [held, Property.arrivals, List.filterMap_append, ← List.cons_append] at h
  exact h.left_of_append

end Run

/-- The notifications are those of the exported number exactly in the runs that
never go from one string without a number of its own to another. -/
theorem faithful_iff (inputs : List (Scalar.Input Str)) :
    Faithful inputs ↔ (held inputs).IsChain Distinguished := by
  constructor
  · intro h
    exact exact_iff.mp h.exact
  · intro h
    refine ⟨fun seen hSeen => ?_, exact_iff.mpr h, (tracks_run h).chain⟩
    rw [(tracks_run (isChain_held_mono hSeen h)).last]
    rfl

/-- The first string is one without a number, and is announced as `unknown`. -/
theorem quiesced_announced :
    ¬ Faithful [.propertyChanged (.ok (.ofList
      [(Str.lit "CurrentHostState", Str.lit "xyz.openbmc_project.State.Host.HostState.Quiesced")]))] := by
  intro h
  have hChain := h.chain
  revert hChain
  decide +kernel

end YadroSnmp.PowerState
