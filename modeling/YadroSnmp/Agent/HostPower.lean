import YadroSnmp.Agent.Manager
import YadroSnmp.Data.ScalarSession

/-! # How recent the power state is

The host service, the bus and the whole agent: the number a manager is shown,
by a GET or by the traps, is that of a recent value of the property, and of the
current one when no signal about it is queued.
-/

namespace YadroSnmp.Agent

open Snmp Labelled

variable {order : List ObjectId} {past : List Str} {actions : List (Scalar.Action Str)} {w : Scalar.World Str}

def hostState : Property := PowerState.State.make.toProperty

/-- Where nothing was heard of the property it is unknown; otherwise the number
is that of a value it has had since the first signal that is still queued. -/
def Recent (w : Scalar.World Str) (number : Int) : Prop :=
  number = PowerState.unknown ∧ hostState.arrivals w.heard = [] ∨
    ∃ value ∈ w.past.rtake ((w.pending hostState).length + 1), number = PowerState.number value

theorem recent_run (hRun : Run (Scalar.World.Step hostState) (Scalar.World.start past) actions w) :
    Recent w (PowerState.run w.heard).toSNMPValue := by
  have hValue := Scalar.value_recent (C := PowerState.State.scalarClass) (o := PowerState.State.make) hRun
  rcases hValue with ⟨hMade, hNone⟩ | hRecent
  · left
    refine ⟨?_, hNone⟩
    exact congrArg PowerState.number hMade
  · exact .inr ⟨_, hRecent, rfl⟩

/-- A GET and the last trap show the same number, and a recent one, whatever
else the agent has handled. -/
theorem power_recent (net : NetSnmp) (hNet : net.Documented) (hOrder : Bank.Turns order)
    (hRun : Run (Scalar.World.Step hostState) (Scalar.World.start past) actions w) (inputs : List Input)
    (hPaths : ∀ input ∈ inputs, input.HasPaths) (hHeard : inputs.filterMap Input.toScalar = w.heard) :
    ∃ number, Recent w number ∧
      get net (run net.readObjid order inputs) PowerState.stateOid = .answer (.value (.integer number)) ∧
      believed (run net.readObjid order inputs) PowerState.stateOid (.integer PowerState.unknown) =
        .integer number := by
  refine ⟨_, recent_run hRun, ?_, ?_⟩
  · rw [get_power hNet, state_power hOrder, hHeard]
    rfl
  · rw [believed_power hNet hOrder hPaths, hHeard]
    rfl

section Host

def hostBus (value : Str) : Bus Str where
  getObject _ _ := .ok ∅
  get _ _ _ _ := .ok value

def hostChanged (value : Str) : OrdMap Str Str := .ofList [(hostState.prop, value)]

/-- The host is started while the agent starts: the answer comes before the older signals. -/
def hostActions : List (Scalar.Action Str) :=
  [.change (hostChanged PowerState.stopped), .change (hostChanged PowerState.running),
    .query (hostBus PowerState.running), .agent]

def hostInputs : List Input :=
  [.power (.update (hostBus PowerState.running)), ambientAdded,
    .power (.propertyChanged (.ok (hostChanged PowerState.stopped)))]

def hostWorld : Scalar.World Str := hostActions.foldl (Scalar.World.apply hostState) (.start [])

theorem host_recent :
    ∃ number, Recent hostWorld number ∧
      get referenceNetSnmp (run referenceNetSnmp.readObjid ObjectId.all hostInputs) PowerState.stateOid =
        .answer (.value (.integer number)) ∧
      believed (run referenceNetSnmp.readObjid ObjectId.all hostInputs) PowerState.stateOid
        (.integer PowerState.unknown) = .integer number := by
  have hRun : Run (Scalar.World.Step hostState) (Scalar.World.start []) hostActions hostWorld := by
    refine .cons ⟨trivial, rfl⟩ (.cons ⟨trivial, rfl⟩ (.cons ⟨?_, rfl⟩ (.cons ⟨trivial, rfl⟩ (.nil _))))
    rintro value ⟨⟩
    decide
  refine power_recent referenceNetSnmp referenceNetSnmp_documented turns_all hRun hostInputs ?_ rfl
  have hPower : ∀ i, (Input.power i).HasPaths := by
    rintro i c m ⟨⟩
  simp [hostInputs, hPower, ambientAdded_hasPaths]

end Host

end YadroSnmp.Agent
