import YadroSnmp.SnmpCfg.Frame

/-! # What a successful set stores

A call that returns normally has published the value. Whether the file agrees
depends on the early returns of `writeConfig`, on a community line to rewrite,
and on the written line being read back as the value.
-/

namespace YadroSnmp.SnmpCfg

open Lines

/-- The configuration names the value on its community lines, and has one. -/
def Persisted (value conf : Str) : Prop :=
  (∃ line ∈ getlines newline conf, IsCommunity line) ∧
    ∀ line ∈ getlines newline conf, ∀ name, getCommunityName line = some name → name = value

/-- When the call returns, the file, a restarted configurator and the running one agree on the value. -/
def SetPersists (env : Env) (w : World) (value : Str) : Prop :=
  ∀ result, (community env w value).2 = .ok result →
    Persisted value (community env w value).1.conf ∧
      (restart (community env w value).1).community = value ∧
      (community env w value).1.community = value

variable {env : Env} {w : World} {value conf : Str}

theorem Persisted.not_hasStale (h : Persisted value conf) : ¬ HasStale value conf := by
  rintro ⟨line, hLine, hStale⟩
  obtain ⟨name, hName, hNe⟩ := isStale_iff.mp hStale
  exact hNe (h.2 line hLine name hName)

/-- The first community line decides what a restarted configurator publishes. -/
theorem Persisted.restart (h : Persisted value w.conf) : (restart w).community = value := by
  have hFound : (getlines newline w.conf).findSome? getCommunityName = some value := by
    cases hFind : (getlines newline w.conf).findSome? getCommunityName with
    | none =>
      obtain ⟨line, hLine, hCommunity⟩ := h.1
      rw [List.findSome?_eq_none_iff] at hFind
      simp [IsCommunity, hFind line hLine] at hCommunity
    | some name =>
      obtain ⟨line, hLine, hName⟩ := List.exists_of_findSome?_eq_some hFind
      rw [h.2 line hLine name hName]
  simp [SnmpCfg.restart, readConfig, hFound]

/-- The rewritten file names the value unless a newline splits the written line
or the quotes of the value are taken for quoting. -/
theorem persisted_rewritten_iff (hAccepted : Accepted value) (hStale : HasStale value conf) :
    Persisted value (rewritten value conf) ↔ newline ∉ value ∧ ¬ SelfQuoted value := by
  obtain ⟨old, hOld, hOldStale⟩ := hStale
  constructor
  · rintro ⟨⟨line, hLine, hCommunity⟩, hAll⟩
    have hValue : newline ∉ value := by
      obtain ⟨name, hName⟩ := Option.isSome_iff_exists.mp hCommunity
      obtain rfl := hAll line hLine name hName
      exact fun hMem => sep_notMem hLine (mem_of_mem_name hName hMem)
    refine ⟨hValue, ?_⟩
    rw [getlines_rewritten hValue] at hAll
    have hRender := getCommunityName_render hAccepted.ne_nil
    rw [← rewriteLine_of_stale hOldStale] at hRender
    have hName := hAll _ (List.mem_map_of_mem hOld) _ hRender
    rw [rewriteLine_of_stale hOldStale, hName] at hRender
    exact (getCommunityName_render_eq_iff hAccepted.ne_nil).mp hRender
  · rintro ⟨hValue, hPlain⟩
    have hRender := (getCommunityName_render_eq_iff hAccepted.ne_nil).mpr hPlain
    rw [Persisted, getlines_rewritten hValue]
    constructor
    · refine ⟨rewriteLine value old, List.mem_map_of_mem hOld, ?_⟩
      rw [IsCommunity, rewriteLine_of_stale hOldStale, hRender]
      rfl
    · intro line hLine name hName
      obtain ⟨before, -, rfl⟩ := List.mem_map.mp hLine
      cases hBefore : isStale value before with
      | true =>
        rw [rewriteLine_of_stale hBefore, hRender] at hName
        exact (Option.some.inj hName).symm
      | false =>
        rw [rewriteLine_of_fresh hBefore] at hName
        by_contra hNe
        rw [isStale_iff.mpr ⟨name, hName, hNe⟩] at hBefore
        cases hBefore

/-- A call that returns has stored the value exactly when the file had it
already, or the file is rewritten with a value that is read back. -/
theorem set_persists_iff (env : Env) (w : World) (value : Str) (hAccepted : Accepted value)
    (hWrites : env.room = none) :
    SetPersists env w value ↔
      Persisted value w.conf ∨
        Rewrites env value w.conf ∧
          (¬ (env.rename = true ∧ env.reload = true) ∨ newline ∉ value ∧ ¬ SelfQuoted value) := by
  unfold SetPersists
  by_cases hRewrites : Rewrites env value w.conf
  · have hNot : ¬ Persisted value w.conf := fun h => h.not_hasStale hRewrites.2.2.2
    rw [or_iff_right hNot, and_iff_right hRewrites, community_of_rewrites hRewrites, hWrites]
    by_cases hDone : env.rename = true ∧ env.reload = true
    · rw [or_iff_right (not_not_intro hDone), if_pos hDone.1, if_pos hDone.2,
        ← persisted_rewritten_iff hAccepted hRewrites.2.2.2]
      constructor
      · exact fun h => (h value rfl).1
      · exact fun h _ _ => ⟨h, Persisted.restart h, rfl⟩
    · refine iff_of_true (fun result hOk => ?_) (.inl hDone)
      split at hOk
      · rename_i hRename
        rw [if_neg fun hReload => hDone ⟨hRename, hReload⟩] at hOk
        cases hOk
      · cases hOk
  · rw [or_iff_left fun h => hRewrites h.1]
    obtain ⟨tmp, hCall⟩ := community_of_not_rewrites (w := w) hAccepted hRewrites
    rw [hCall]
    constructor
    · exact fun h => (h value rfl).1
    · exact fun h _ _ => ⟨h, Persisted.restart (w := ⟨value, w.conf, tmp⟩) h, rfl⟩

section Public

theorem private_persists : SetPersists working publicWorld (Str.lit "private") :=
  (set_persists_iff working publicWorld (Str.lit "private") (by decide) rfl).mpr
    (.inr ⟨by decide, .inr ⟨by decide, by decide⟩⟩)

theorem set_without_config :
    Accepted (Str.lit "private") ∧
      ¬ SetPersists { working with openRead := false } publicWorld (Str.lit "private") := by
  refine ⟨by decide, fun h => ?_⟩
  have hRestart := (h (Str.lit "private") (by decide)).2.1
  revert hRestart
  decide

end Public

end YadroSnmp.SnmpCfg
