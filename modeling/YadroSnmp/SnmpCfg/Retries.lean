import YadroSnmp.SnmpCfg.Interruption

/-! # A reload that failed is not made up for

The file is replaced before the SNMP daemon is asked to reload it. A client that
tries again after a failed reload finds nothing to replace, is told that all went
well, and the daemon keeps what it had read before.
-/

namespace YadroSnmp.SnmpCfg

open Lines Responder

/-- The value once more, or a restart of the service. -/
inductive Request.Retries (value : Str) : Request → Prop
  | set (env : Env) : Retries value (.set env value)
  | restart (openRead : Bool) : Retries value (.restart openRead)

/-- The call has nothing to replace in the file. -/
def Call.Quiet (c : Call) : Prop :=
  match c.stage with
  | .called => ¬ HasStale c.value c.world.conf
  | .opening => ¬ HasStale c.world.community c.world.conf
  | .copying lines r => r.2 = false ∧ ∀ line ∈ lines, isStale c.world.community line = false
  | .replacing => False
  | .reloading => False
  | .discarding => True
  | .returned _ => True

variable {env : Env} {w : World} {value : Str} {c : Call} {requests : List Request}

theorem updated_writeLine (value line : Str) (r : OStream UInt8 × Bool) :
    (writeLine value r line).2 = (r.2 || isStale value line) := by
  unfold writeLine isStale
  cases getCommunityName line with
  | none => exact (Bool.or_false r.2).symm
  | some name =>
    by_cases hSame : name = value
    · simp [hSame]
    · simp [hSame]

theorem Call.Quiet.advance (h : c.Quiet) (env : Env) : (advance env c).Quiet := by
  obtain ⟨w, value, stage⟩ := c
  cases stage with
  | called =>
    unfold SnmpCfg.advance
    dsimp only
    split
    · trivial
    · exact h
  | opening =>
    have hLines : ∀ line ∈ getlines newline w.conf, isStale w.community line = false := by
      intro line hLine
      by_contra hStale
      exact h ⟨line, hLine, by simpa using hStale⟩
    simp only [SnmpCfg.advance]
    cases env.openRead with
    | false => trivial
    | true =>
      cases env.openWrite with
      | false => trivial
      | true => exact ⟨rfl, hLines⟩
  | copying lines r =>
    obtain ⟨hUpdated, hLines⟩ := h
    cases lines with
    | nil =>
      simp only [SnmpCfg.advance]
      rw [show r.2 = false from hUpdated]
      trivial
    | cons line lines =>
      obtain ⟨hFirst, hRest⟩ := List.forall_mem_cons.mp hLines
      refine ⟨?_, hRest⟩
      rw [updated_writeLine, hUpdated, hFirst]
      rfl
  | replacing => exact h.elim
  | reloading => exact h.elim
  | discarding => trivial
  | returned result => trivial

theorem quiet_iterate (h : ¬ HasStale value w.conf) (env : Env) (n : Nat) :
    ((advance env)^[n] (start w value)).Quiet := by
  induction n with
  | zero => exact h
  | succ n ih =>
    rw [Function.iterate_succ_apply']
    exact ih.advance env

theorem never_reloading (h : ¬ HasStale value w.conf) (env : Env) (n : Nat) :
    ((advance env)^[n] (start w value)).stage ≠ .reloading := by
  intro hStage
  have hQuiet := quiet_iterate h env n
  rw [Call.Quiet, hStage] at hQuiet
  exact hQuiet

/-- A retry changes nothing in the file and is answered as if it had. -/
theorem retry_step (hAccepted : Accepted value) (hFresh : ¬ HasStale value w.conf) {request : Request}
    (h : request.Retries value) :
    (serve w request).1.conf = w.conf ∧
      ((serve w request).2 = none ∨ (serve w request).2 = some (.ok value)) := by
  cases h with
  | set env =>
    have hNot : ¬ Rewrites env value w.conf := fun hRewrites => hFresh hRewrites.2.2.2
    obtain ⟨tmp, hCall⟩ := community_of_not_rewrites hAccepted hNot
    rw [serve, hCall]
    exact ⟨rfl, .inr rfl⟩
  | restart openRead => exact ⟨conf_restart w openRead, .inl rfl⟩

theorem retries_run (hAccepted : Accepted value) (hFresh : ¬ HasStale value w.conf)
    (h : ∀ request ∈ requests, request.Retries value) :
    (run serve w requests).1.conf = w.conf ∧
      ∀ answer ∈ (run serve w requests).2, answer = none ∨ answer = some (.ok value) := by
  induction requests generalizing w with
  | nil => exact ⟨rfl, fun _ h => absurd h List.not_mem_nil⟩
  | cons request requests ih =>
    obtain ⟨hFirst, hRest⟩ := List.forall_mem_cons.mp h
    obtain ⟨hConf, hAnswer⟩ := retry_step hAccepted hFresh hFirst
    obtain ⟨hConfs, hAnswers⟩ := ih (hConf.symm ▸ hFresh) hRest
    exact ⟨hConfs.trans hConf, List.forall_mem_cons.mpr ⟨hAnswer, hAnswers⟩⟩

/-- After a failed reload the value may be set again any number of times, and the service
started again: each of these calls succeeds, and no step of the next one asks for a reload. -/
theorem failed_reload_stays (w : World) (hRewrites : Rewrites env value w.conf)
    (hPlain : (Request.set env value).Plain) (hRename : env.rename = true) (hReload : env.reload = false)
    (hRetries : ∀ request ∈ requests, request.Retries value) :
    (community env w value).2 = .error .internalFailure ∧
      (run serve (community env w value).1 requests).1.conf = rewritten value w.conf ∧
      (∀ answer ∈ (run serve (community env w value).1 requests).2,
        answer = none ∨ answer = some (.ok value)) ∧
      ∀ env' n, ((advance env')^[n]
        (start (run serve (community env w value).1 requests).1 value)).stage ≠ .reloading := by
  obtain ⟨hRoom, hLine, hQuotes⟩ := hPlain
  have hAccepted := hRewrites.1
  have hCall : community env w value = (⟨value, rewritten value w.conf, none⟩, .error .internalFailure) := by
    rw [community_of_rewrites hRewrites, if_pos hRename, hReload, hRoom]
    rfl
  have hFresh : ¬ HasStale value (rewritten value w.conf) :=
    ((persisted_rewritten_iff hAccepted hRewrites.2.2.2).mpr ⟨hLine, hQuotes⟩).not_hasStale
  rw [hCall]
  obtain ⟨hConf, hAnswers⟩ := retries_run (w := ⟨value, rewritten value w.conf, none⟩) hAccepted hFresh hRetries
  exact ⟨rfl, hConf, hAnswers, never_reloading (hConf.symm ▸ hFresh)⟩

section Public

theorem private_reload_stays :
    let env := { working with reload := false }
    let requests := [.set working (Str.lit "private"), .restart true, .set working (Str.lit "private")]
    let failed := community env publicWorld (Str.lit "private")
    failed.2 = .error .internalFailure ∧
      (run serve failed.1 requests).1.conf = rewritten (Str.lit "private") publicWorld.conf ∧
      (∀ answer ∈ (run serve failed.1 requests).2,
        answer = none ∨ answer = some (.ok (Str.lit "private"))) ∧
      ∀ env' n, ((advance env')^[n]
        (start (run serve failed.1 requests).1 (Str.lit "private"))).stage ≠ .reloading := by
  apply failed_reload_stays publicWorld (by decide) (by decide) rfl rfl
  exact List.forall_mem_cons.mpr ⟨.set _, List.forall_mem_cons.mpr ⟨.restart _,
    List.forall_mem_singleton.mpr (.set _)⟩⟩

end Public

end YadroSnmp.SnmpCfg
