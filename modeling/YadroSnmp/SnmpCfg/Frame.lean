import Mathlib.Data.List.Forall2
import YadroSnmp.SnmpCfg.Rewrite

/-! # What setting the community leaves alone

A sequence of calls on files that can be read and written. The lines of the
configuration keep their number and their places, and those that are no
community line their text, as long as no value carries a newline into the file.
-/

namespace YadroSnmp.SnmpCfg

open Lines

/-- Every file operation of the call succeeds. -/
def FilesWork (env : Env) : Prop :=
  env.openRead = true ∧ env.openWrite = true ∧ env.room = none ∧ env.rename = true ∧ env.remove = true

instance (env : Env) : Decidable (FilesWork env) :=
  inferInstanceAs (Decidable (_ ∧ _ ∧ _ ∧ _ ∧ _))

def communities (w : World) (calls : List (Env × Str)) : World :=
  calls.foldl (fun w c => (community c.1 w c.2).1) w

/-- The line keeps its text, or is a community line and stays one. -/
def KeepsLine (old new : Str) : Prop :=
  (IsCommunity new ↔ IsCommunity old) ∧ (¬ IsCommunity old → new = old)

/-- Line by line the new configuration frames the old one; in particular it has as many lines. -/
def Framed (conf conf' : Str) : Prop :=
  List.Forall₂ KeepsLine (getlines newline conf) (getlines newline conf')

variable {env : Env} {w : World} {value conf conf' conf'' : Str}

theorem Framed.refl (conf : Str) : Framed conf conf :=
  List.forall₂_same.mpr fun _ _ => ⟨Iff.rfl, fun _ => rfl⟩

theorem Framed.trans (h : Framed conf conf') (h' : Framed conf' conf'') : Framed conf conf'' := by
  unfold Framed at h h' ⊢
  generalize getlines newline conf = lines, getlines newline conf' = lines',
    getlines newline conf'' = lines'' at h h'
  induction h generalizing lines'' with
  | nil =>
    cases h'
    exact .nil
  | cons hFirst _ ih =>
    obtain ⟨_, _, hSecond, hRest, rfl⟩ := List.forall₂_cons_left_iff.mp h'
    refine .cons ⟨hSecond.1.trans hFirst.1, fun hOld => ?_⟩ (ih _ hRest)
    exact (hSecond.2 fun hNew => hOld (hFirst.1.mp hNew)).trans (hFirst.2 hOld)

theorem Accepted.ne_nil (h : Accepted value) : value ≠ [] :=
  List.length_pos_iff.mp h.1

section Step

variable (hFiles : FilesWork env) (hAccepted : Accepted value)
include hFiles hAccepted

theorem conf_community :
    (community env w value).1.conf =
      if HasStale value w.conf then rewritten value w.conf else w.conf := by
  obtain ⟨hRead, hWrite, hRoom, hRename, -⟩ := hFiles
  split
  · rename_i hStale
    rw [community_of_rewrites ⟨hAccepted, hRead, hWrite, hStale⟩, if_pos hRename, hRoom]
    rfl
  · rename_i hFresh
    have hNot : ¬ Rewrites env value w.conf := fun h => hFresh h.2.2.2
    obtain ⟨tmp, hCall⟩ := community_of_not_rewrites hAccepted hNot
    rw [hCall]

theorem framed_community (hValue : newline ∉ value) : Framed w.conf (community env w value).1.conf := by
  rw [conf_community hFiles hAccepted]
  split
  · rw [Framed, getlines_rewritten hValue, List.forall₂_map_right_iff]
    refine List.forall₂_same.mpr fun line _ => ?_
    have hSame := isCommunity_rewriteLine line hAccepted.ne_nil
    refine ⟨by rw [IsCommunity, hSame, IsCommunity], fun hOld => rewriteLine_of_fresh ?_⟩
    by_contra hStale
    obtain ⟨name, hName, -⟩ := isStale_iff.mp (by simpa using hStale)
    exact hOld (by simp [IsCommunity, hName])
  · exact .refl _

theorem conf_of_no_community (hNone : ∀ line ∈ getlines newline w.conf, ¬ IsCommunity line) :
    (community env w value).1.conf = w.conf := by
  rw [conf_community hFiles hAccepted, if_neg]
  rintro ⟨line, hLine, hStale⟩
  obtain ⟨name, hName, -⟩ := isStale_iff.mp hStale
  exact hNone line hLine (by simp [IsCommunity, hName])

theorem length_le_community :
    (getlines newline w.conf).length ≤ (getlines newline (community env w value).1.conf).length := by
  rw [conf_community hFiles hAccepted]
  split
  · have hLength := length_le_getlines_unlines newline
      ((getlines newline w.conf).map (rewriteLine value))
    rwa [List.length_map] at hLength
  · exact le_rfl

theorem length_lt_community (hValue : newline ∈ value)
    (hSome : ∃ line ∈ getlines newline w.conf, IsCommunity line) :
    (getlines newline w.conf).length < (getlines newline (community env w value).1.conf).length := by
  obtain ⟨line, hLine, hCommunity⟩ := hSome
  have hStale := isStale_of_newline (sep_notMem hLine) hCommunity hValue
  have hLength := length_lt_getlines_unlines (List.mem_map_of_mem (f := rewriteLine value) hLine)
    (rewriteLine_of_stale hStale ▸ newline_mem_render.mpr hValue)
  rw [List.length_map] at hLength
  rwa [conf_community hFiles hAccepted, if_pos ⟨line, hLine, hStale⟩, rewritten]

end Step

section Sequence

variable {calls : List (Env × Str)}

theorem length_le_communities (hCalls : ∀ c ∈ calls, FilesWork c.1 ∧ Accepted c.2) (w : World) :
    (getlines newline w.conf).length ≤ (getlines newline (communities w calls).conf).length := by
  induction calls generalizing w with
  | nil => exact le_rfl
  | cons c calls ih =>
    obtain ⟨hFiles, hAccepted⟩ := hCalls c List.mem_cons_self
    exact (length_le_community hFiles hAccepted).trans
      (ih (fun c hc => hCalls c (List.mem_cons_of_mem _ hc)) _)

theorem Framed.exists_community (h : Framed conf conf')
    (hSome : ∃ line ∈ getlines newline conf, IsCommunity line) :
    ∃ line ∈ getlines newline conf', IsCommunity line := by
  obtain ⟨line, hLine, hCommunity⟩ := hSome
  unfold Framed at h
  generalize getlines newline conf = lines, getlines newline conf' = lines' at h hLine
  induction h with
  | nil => cases hLine
  | cons hKeeps _ ih =>
    rcases List.mem_cons.mp hLine with rfl | hLine
    · exact ⟨_, List.mem_cons_self, hKeeps.1.mpr hCommunity⟩
    · obtain ⟨line', hLine', hCommunity'⟩ := ih hLine
      exact ⟨line', List.mem_cons_of_mem _ hLine', hCommunity'⟩

theorem length_lt_communities (hCalls : ∀ c ∈ calls, FilesWork c.1 ∧ Accepted c.2)
    (hSome : ∃ line ∈ getlines newline w.conf, IsCommunity line)
    (hNewline : ∃ c ∈ calls, newline ∈ c.2) :
    (getlines newline w.conf).length < (getlines newline (communities w calls).conf).length := by
  induction calls generalizing w with
  | nil => simp at hNewline
  | cons c calls ih =>
    obtain ⟨hFiles, hAccepted⟩ := hCalls c List.mem_cons_self
    have hRest : ∀ c ∈ calls, FilesWork c.1 ∧ Accepted c.2 := fun c hc =>
      hCalls c (List.mem_cons_of_mem _ hc)
    by_cases hValue : newline ∈ c.2
    · exact (length_lt_community hFiles hAccepted hValue hSome).trans_le
        (length_le_communities hRest _)
    · have hFramed := framed_community (w := w) hFiles hAccepted hValue
      have hLater : ∃ c ∈ calls, newline ∈ c.2 := by
        obtain ⟨d, hd, hMem⟩ := hNewline
        rcases List.mem_cons.mp hd with rfl | hd
        · exact absurd hMem hValue
        · exact ⟨d, hd, hMem⟩
      have hMore := ih hRest (hFramed.exists_community hSome) hLater
      exact hFramed.length_eq ▸ hMore

theorem framed_communities (hCalls : ∀ c ∈ calls, FilesWork c.1 ∧ Accepted c.2)
    (hPlain : ∀ c ∈ calls, newline ∉ c.2) (w : World) : Framed w.conf (communities w calls).conf := by
  induction calls generalizing w with
  | nil => exact .refl _
  | cons c calls ih =>
    obtain ⟨hFiles, hAccepted⟩ := hCalls c List.mem_cons_self
    exact (framed_community hFiles hAccepted (hPlain c List.mem_cons_self)).trans
      (ih (fun c hc => hCalls c (List.mem_cons_of_mem _ hc))
        (fun c hc => hPlain c (List.mem_cons_of_mem _ hc)) _)

theorem communities_of_no_community (hCalls : ∀ c ∈ calls, FilesWork c.1 ∧ Accepted c.2)
    (hNone : ∀ line ∈ getlines newline w.conf, ¬ IsCommunity line) :
    (communities w calls).conf = w.conf := by
  induction calls generalizing w with
  | nil => rfl
  | cons c calls ih =>
    obtain ⟨hFiles, hAccepted⟩ := hCalls c List.mem_cons_self
    have hFirst := conf_of_no_community hFiles hAccepted hNone
    refine (ih (fun c hc => hCalls c (List.mem_cons_of_mem _ hc)) ?_).trans hFirst
    rwa [hFirst]

end Sequence

/-- A sequence of accepted values frames the configuration exactly when there is
no community line to rewrite or no value contains a newline. -/
theorem communities_framed_iff (w : World) (calls : List (Env × Str))
    (hCalls : ∀ c ∈ calls, FilesWork c.1 ∧ Accepted c.2) :
    Framed w.conf (communities w calls).conf ↔
      (∀ line ∈ getlines newline w.conf, ¬ IsCommunity line) ∨ ∀ c ∈ calls, newline ∉ c.2 := by
  constructor
  · intro h
    by_contra hNot
    simp only [not_or, not_forall, not_not, exists_prop] at hNot
    exact (length_lt_communities hCalls hNot.1 hNot.2).ne h.length_eq
  · rintro (hNone | hPlain)
    · rw [communities_of_no_community hCalls hNone]
      exact .refl _
    · exact framed_communities hCalls hPlain w

section Public

def working : Env := ⟨true, true, none, true, true, true⟩

def publicWorld : World where
  community := Str.lit "public"
  conf := Str.lit "com2sec readonly  default     public\nview all included .1\n"
  tmp := none

theorem private_framed :
    Framed publicWorld.conf (communities publicWorld [(working, Str.lit "private")]).conf :=
  (communities_framed_iff publicWorld [(working, Str.lit "private")] (by decide)).mpr
    (.inr (by decide))

/-- A newline in the value puts a directive of its own into the file. -/
theorem directive_injected :
    (∀ c ∈ [(working, Str.lit "x\nrwcommunity y\n#")], FilesWork c.1 ∧ Accepted c.2) ∧
      Str.lit "rwcommunity y" ∈ getlines newline
        (communities publicWorld [(working, Str.lit "x\nrwcommunity y\n#")]).conf ∧
      ¬ Framed publicWorld.conf
        (communities publicWorld [(working, Str.lit "x\nrwcommunity y\n#")]).conf := by
  refine ⟨by decide, ?_, fun h => absurd h.length_eq ?_⟩
  · decide
  · decide

end Public

end YadroSnmp.SnmpCfg
