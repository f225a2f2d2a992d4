import YadroSnmp.Lib.Interrupted
import YadroSnmp.SnmpCfg.Service

/-! # The configurator killed during a call

A set call step by step: the property first, then the lines into the temporary
file, one at a time, then the renaming and the reload. The process may be killed
between two of the steps and is started again. The SNMP daemon reads the
configuration at any moment.
-/

namespace YadroSnmp.SnmpCfg

open Interrupted Lines Responder Snmp

/-- The next step of a call; `copying` has the lines not yet read, the stream and `updated`. -/
inductive Stage where
  | called
  | opening
  | copying (lines : List Str) (r : OStream UInt8 × Bool)
  | replacing
  | reloading
  | discarding
  | returned (result : Except Error Str)

structure Call where
  world : World
  value : Str
  stage : Stage

def start (w : World) (value : Str) : Call := ⟨w, value, .called⟩

/-- A step of `community` or of a function it calls. `std::endl` flushes each line. -/
def advance (env : Env) (c : Call) : Call :=
  match c.stage with
  | .called =>
    if c.value.length < communityMinLen ∨ c.value.length > communityMaxLen then
      { c with stage := .returned (.error (.invalidArgument (Str.lit "Community") (formatCStr c.value))) }
    else { c with world := { c.world with community := c.value }, stage := .opening }
  | .opening =>
    { c with
      world := if env.openWrite then { c.world with tmp := some [] } else c.world
      stage :=
        if !env.openRead then .returned (.ok c.value)
        else if !env.openWrite then .returned (.ok c.value)
        else .copying (getlines newline c.world.conf) (.opened UInt8 env.room, false) }
  | .copying (line :: lines) r =>
    let r := writeLine c.world.community r line
    { c with world := { c.world with tmp := some r.1.content }, stage := .copying lines r }
  | .copying [] r =>
    { c with
      world := { c.world with tmp := some r.1.content }
      stage := if r.2 then .replacing else .discarding }
  | .replacing =>
    if env.rename then
      { c with world := { c.world with conf := c.world.tmp.getD [], tmp := none }, stage := .reloading }
    else { c with stage := .returned (.error .internalFailure) }
  | .reloading => { c with stage := .returned (if env.reload then .ok c.value else .error .internalFailure) }
  | .discarding =>
    { c with
      world := if env.remove then { c.world with tmp := none } else c.world
      stage := .returned (.ok c.value) }
  | .returned _ => c

/-- The setter after `writeConfig`. -/
def answer (value : Str) : World × Option Error → World × Except Error Str
  | (w, none) => (w, .ok value)
  | (w, some e) => (w, .error e)

/-- `writeConfig` after its loop. -/
def settle (env : Env) (w : World) (updated : Bool) : World × Option Error :=
  if updated then
    if env.rename then reloadSnmpDaemon env { w with conf := w.tmp.getD [], tmp := none }
    else (w, some .internalFailure)
  else if env.remove then ({ w with tmp := none }, none)
  else (w, none)

/-- How the call ends from here when nothing stops it. -/
def finish (env : Env) (c : Call) : World × Except Error Str :=
  match c.stage with
  | .called => community env c.world c.value
  | .opening => answer c.value (writeConfig env c.world)
  | .copying lines r =>
    let r := lines.foldl (writeLine c.world.community) r
    answer c.value (settle env { c.world with tmp := some r.1.content } r.2)
  | .replacing => answer c.value (settle env c.world true)
  | .reloading => answer c.value (reloadSnmpDaemon env c.world)
  | .discarding => answer c.value (settle env c.world false)
  | .returned result => (c.world, result)

/-- A bound on the steps still to make, for a file of so many lines. -/
def Stage.left : Stage → (lines : Nat) → Nat
  | .called, lines => lines + 5
  | .opening, lines => lines + 4
  | .copying lines _, _ => lines.length + 3
  | .replacing, _ => 2
  | .reloading, _ => 1
  | .discarding, _ => 1
  | .returned _, _ => 0

def Call.left (c : Call) : Nat := c.stage.left (getlines newline c.world.conf).length

/-- What happens to the service: a request, or the end of its process after some
steps of a call, with anything left in the temporary file, and a new process. -/
inductive Incident where
  | request (request : Request)
  | killed (env : Env) (value : Str) (steps : Nat) (tmp : Option Str) (openRead : Bool)

/-- Nobody gets the answer of a killed call. -/
def suffer (w : World) : Incident → World × Option (Except Error Str)
  | .request request => serve w request
  | .killed env value steps tmp openRead =>
    serve { ((advance env)^[steps] (start w value)).world with tmp := tmp } (.restart openRead)

/-- A killed call was not made, or it was made to its end. -/
inductive ComesTo : Incident → List Request → Prop
  | request (request : Request) : ComesTo (.request request) [request]
  | unmade {env : Env} {value : Str} {steps : Nat} {tmp : Option Str} {openRead : Bool} :
      ComesTo (.killed env value steps tmp openRead) [.restart openRead]
  | made {env : Env} {value : Str} {steps : Nat} {tmp : Option Str} {openRead : Bool} :
      ComesTo (.killed env value steps tmp openRead) [.set env value, .restart openRead]

def Incident.Plain : Incident → Prop
  | .request r => r.Plain
  | .killed env value _ _ _ => (Request.set env value).Plain

instance (incident : Incident) : Decidable incident.Plain :=
  match incident with
  | .request r => inferInstanceAs (Decidable r.Plain)
  | .killed env value _ _ _ => inferInstanceAs (Decidable (Request.set env value).Plain)

/-- Requests of which only the last is answered. -/
def serveAll (w : World) (requests : List Request) : World × Option (Except Error Str) :=
  ((run serve w requests).1, (run serve w requests).2.getLastD none)

/-- The temporary file is left out: a call that writes it empties it before. -/
def Alike (w w' : World) : Prop := w.community = w'.community ∧ w.conf = w'.conf

variable {env : Env} {w w' : World} {value : Str} {n : Nat}

section Steps

theorem finish_advance (env : Env) (c : Call) : finish env (advance env c) = finish env c := by
  obtain ⟨w, value, stage⟩ := c
  cases stage with
  | called =>
    by_cases hRejected : value.length < communityMinLen ∨ value.length > communityMaxLen
    · simp only [advance, finish, community, if_pos hRejected]
    · simp only [advance, finish, community, if_neg hRejected]
      rfl
  | opening =>
    simp only [advance, finish, writeConfig]
    cases env.openRead with
    | false => rfl
    | true =>
      cases env.openWrite with
      | false => rfl
      | true => rfl
  | copying lines r =>
    cases lines with
    | cons line lines => rfl
    | nil =>
      obtain ⟨out, updated⟩ := r
      cases updated with
      | true => rfl
      | false => rfl
  | replacing =>
    simp only [advance, finish, settle, if_true]
    cases env.rename with
    | true => rfl
    | false => rfl
  | reloading =>
    simp only [advance, finish, reloadSnmpDaemon]
    cases env.reload with
    | true => rfl
    | false => rfl
  | discarding =>
    simp only [advance, finish, settle]
    cases env.remove with
    | true => rfl
    | false => rfl
  | returned result => rfl

theorem conf_advance (env : Env) (c : Call) :
    (advance env c).world.conf = c.world.conf ∨ (advance env c).world.conf = (finish env c).1.conf := by
  obtain ⟨w, value, stage⟩ := c
  cases stage with
  | replacing =>
    simp only [advance, finish, settle, if_true]
    cases env.rename with
    | false => exact .inl rfl
    | true =>
      right
      simp only [if_true, reloadSnmpDaemon]
      cases env.reload with
      | true => rfl
      | false => rfl
  | called =>
    left
    unfold advance
    dsimp only
    split
    · rfl
    · rfl
  | opening =>
    left
    simp only [advance]
    cases env.openWrite with
    | true => rfl
    | false => rfl
  | copying lines r =>
    left
    cases lines with
    | cons line lines => rfl
    | nil => rfl
  | reloading => exact .inl rfl
  | discarding =>
    left
    simp only [advance]
    cases env.remove with
    | true => rfl
    | false => rfl
  | returned result => exact .inl rfl

theorem staged (env : Env) :
    Staged (advance env) (finish env) (fun c => c.world.conf) (fun r => r.1.conf) :=
  ⟨finish_advance env, conf_advance env⟩

theorem left_advance (env : Env) (c : Call) : (advance env c).left ≤ c.left - 1 := by
  obtain ⟨w, value, stage⟩ := c
  cases stage with
  | called =>
    simp only [advance, Call.left]
    split
    · exact Nat.zero_le _
    · exact Nat.le_refl _
  | opening =>
    simp only [advance, Call.left]
    split
    · exact Nat.zero_le _
    · split
      · exact Nat.zero_le _
      · exact Nat.le_refl _
  | copying lines r =>
    cases lines with
    | cons line lines => exact Nat.le_refl _
    | nil =>
      obtain ⟨out, updated⟩ := r
      cases updated with
      | true => exact Nat.le_refl _
      | false => exact Nat.le_succ 1
  | replacing =>
    simp only [advance, Call.left]
    split
    · exact Nat.le_refl _
    · exact Nat.zero_le _
  | reloading => exact Nat.zero_le _
  | discarding => exact Nat.zero_le _
  | returned result => exact Nat.zero_le _

/-- Uninterrupted, the steps make up the call. -/
theorem advance_to_end (hSteps : (getlines newline w.conf).length + 5 ≤ n) :
    ((advance env)^[n] (start w value)).world = (community env w value).1 ∧
      ((advance env)^[n] (start w value)).stage = .returned (community env w value).2 := by
  have hFinish := (staged env).finish_iterate n (start w value)
  have hLeft := left_iterate (left_advance env) n (start w value)
  have hNone : (start w value).left - n = 0 := Nat.sub_eq_zero_of_le hSteps
  rw [hNone, Nat.le_zero] at hLeft
  revert hFinish hLeft
  generalize (advance env)^[n] (start w value) = c
  obtain ⟨w', value', stage⟩ := c
  intro hFinish hLeft
  cases stage with
  | returned result =>
    have hPair : (w', result) = community env w value := hFinish
    rw [← hPair]
    exact ⟨rfl, rfl⟩
  | _ => simp [Call.left, Stage.left] at hLeft

/-- At any moment the configuration is the one before the call or the one after it. -/
theorem conf_interrupted (env : Env) (w : World) (value : Str) (n : Nat) :
    ((advance env)^[n] (start w value)).world.conf = w.conf ∨
      ((advance env)^[n] (start w value)).world.conf = (community env w value).1.conf :=
  (staged env).see_iterate n (start w value)

end Steps

section Incidents

theorem alike_restart (hConf : w.conf = w'.conf) (openRead : Bool) :
    Alike (serve w (.restart openRead)).1 (serve w' (.restart openRead)).1 := by
  rw [serve, serve, readConfig_eq, readConfig_eq, hConf]
  exact ⟨rfl, rfl⟩

theorem Alike.community (h : Alike w w') (env : Env) (value : Str) :
    Alike (SnmpCfg.community env w value).1 (SnmpCfg.community env w' value).1 ∧
      (SnmpCfg.community env w value).2 = (SnmpCfg.community env w' value).2 := by
  obtain ⟨hCommunity, hConf⟩ := h
  rcases community_cases env w value with ⟨hRejected, hCall⟩ | ⟨hAccepted, hNot, tmp, hCall⟩ | hRewrites
  · rw [hCall, community_rejected hRejected]
    exact ⟨⟨hCommunity, hConf⟩, rfl⟩
  · obtain ⟨tmp', hCall'⟩ := community_of_not_rewrites hAccepted (hConf ▸ hNot)
    rw [hCall, hCall']
    exact ⟨⟨rfl, hConf⟩, rfl⟩
  · have hRewrites' : Rewrites env value w'.conf := hConf ▸ hRewrites
    rw [community_of_rewrites hRewrites, community_of_rewrites hRewrites', hConf]
    exact ⟨⟨rfl, rfl⟩, rfl⟩

theorem Alike.serve (h : Alike w w') (request : Request) :
    Alike (SnmpCfg.serve w request).1 (SnmpCfg.serve w' request).1 ∧
      (SnmpCfg.serve w request).2 = (SnmpCfg.serve w' request).2 := by
  cases request with
  | set env value =>
    obtain ⟨hAlike, hAnswer⟩ := h.community env value
    exact ⟨hAlike, congrArg some hAnswer⟩
  | restart openRead => exact ⟨alike_restart h.2 openRead, rfl⟩

theorem suffer_simulates : Simulates suffer serveAll Alike ComesTo := by
  intro w w' incident hAlike
  cases incident with
  | request request =>
    obtain ⟨hNext, hAnswer⟩ := hAlike.serve request
    exact ⟨[request], .request request, hNext, hAnswer⟩
  | killed env value steps tmp openRead =>
    rcases conf_interrupted env w value steps with hBefore | hAfter
    · refine ⟨_, .unmade, alike_restart ?_ openRead, rfl⟩
      exact hBefore.trans hAlike.2
    · refine ⟨_, .made, alike_restart ?_ openRead, rfl⟩
      exact hAfter.trans (hAlike.community env value).1.2

/-- A configurator that is killed at any steps of its calls cannot be told from one that
made each of those calls completely or not at all before it was started again. -/
theorem kills_atomic (w : World) (incidents : List Incident) :
    ∃ calls, List.Forall₂ ComesTo incidents calls ∧
      Alike (run suffer w incidents).1 (run serveAll w calls).1 ∧
      (run suffer w incidents).2 = (run serveAll w calls).2 :=
  suffer_simulates.run ⟨rfl, rfl⟩ incidents

end Incidents

section Readers

variable {incidents : List Incident} {calls : List (List Request)}

theorem conf_restart (w : World) (openRead : Bool) : (serve w (.restart openRead)).1.conf = w.conf := by
  rw [serve, readConfig_eq]

section Public

/-- Killed before the renaming and after it. -/
example :
    (suffer publicWorld (.killed working (Str.lit "private") 5 none true)).1.community = Str.lit "public" ∧
      (suffer publicWorld (.killed working (Str.lit "private") 6 none true)).1.community =
        Str.lit "private" := by
  decide

end Public

end Readers

end YadroSnmp.SnmpCfg
