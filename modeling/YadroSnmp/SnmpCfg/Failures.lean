import YadroSnmp.Lib.Growth
import YadroSnmp.SnmpCfg.Frame

/-! # What a failing call leaves behind

The temporary file takes the place of the configuration whether or not all of it
was written, and neither the property nor the file is put back when the renaming
or the reload fails.
-/

namespace YadroSnmp.SnmpCfg

open Lines

/-- The configuration holds the previous lines or all of the rewritten ones. -/
def ReplacedWhole (env : Env) (w : World) (value : Str) : Prop :=
  getlines newline (community env w value).1.conf = getlines newline w.conf ∨
    getlines newline (community env w value).1.conf =
      (getlines newline w.conf).map (rewriteLine value)

/-- When the call raises, the property and the configuration are as before and
there is no new temporary file. -/
def FailsClean (env : Env) (w : World) (value : Str) : Prop :=
  ∀ e, (community env w value).2 = .error e →
    (community env w value).1.community = w.community ∧
      (community env w value).1.conf = w.conf ∧
      (w.tmp = none → (community env w value).1.tmp = none)

/-- All of the rewritten text fits, or all but the end of a last line that is not empty. -/
def RoomSuffices (room : Option Nat) (value conf : Str) : Prop :=
  (∀ k, room = some k → (rewritten value conf).length ≤ k) ∨
    (∃ k, room = some k ∧ (rewritten value conf).length = k + 1) ∧
      ∃ line, (getlines newline conf).getLast? = some line ∧ line ≠ []

/-- A community line of another name, unless it is the line to write already. -/
def Changes (value line : Str) : Prop := isStale value line = true ∧ line ≠ render value

instance (value line : Str) : Decidable (Changes value line) := inferInstanceAs (Decidable (_ ∧ _))

/-- Only the last line changes, it begins the line to write, and the room ends with it. -/
def StopsInLastLine (room : Option Nat) (value conf : Str) : Prop :=
  ∃ init last, getlines newline conf = init ++ [last] ∧ (∀ line ∈ init, ¬ Changes value line) ∧
    Changes value last ∧ last <+: render value ∧
    room = some ((unlines newline init).length + last.length)

/-- The lines that are written for a line. -/
def written (value line : Str) : List Str := getlines newline (rewriteLine value line ++ [newline])

/-- What comes of the rest of the line to write: its lines, those written for these, and so on. -/
def following (value rest : Str) (n : Nat) : List Str :=
  Growth.grown (getlines newline (rest ++ [newline])) (written value) n

/-- The first line that changes ends at a newline of the value, the lines after it
begin what comes of the rest, and the room ends with them. -/
def StopsInValue (room : Option Nat) (value conf : Str) : Prop :=
  ∃ init line rest text, getlines newline conf = init ++ line :: getlines newline text ∧
    (∀ l ∈ init, ¬ Changes value l) ∧ Changes value line ∧ render value = line ++ newline :: rest ∧
    text <+: unlines newline (following value rest (getlines newline text).length) ∧
    room = some ((unlines newline init).length + line.length + 1 + text.length)

/-- No line changes, and the newline that is written at the end is there already or
does not fit; or a line changes and the room ends with the file before. -/
def KeepsFile (room : Option Nat) (value conf : Str) : Prop :=
  (∀ line ∈ getlines newline conf, ¬ Changes value line) ∧
      (if conf.getLast? = some newline then ∀ k, room = some k → conf.length ≤ k
        else room = some conf.length) ∨
    room = some conf.length ∧ (StopsInLastLine room value conf ∨ StopsInValue room value conf)

variable {env : Env} {w : World} {value line conf : Str} {room : Option Nat}

theorem conf_of_not_replaced (h : ¬ (Rewrites env value w.conf ∧ env.rename = true)) :
    (community env w value).1.conf = w.conf := by
  rcases community_cases env w value with ⟨-, hCall⟩ | ⟨-, -, tmp, hCall⟩ | hRewrites
  · rw [hCall]
  · rw [hCall]
  · rw [community_of_rewrites hRewrites, if_neg fun hRename => h ⟨hRewrites, hRename⟩]

theorem conf_of_replaced (h : Rewrites env value w.conf) (hRename : env.rename = true) :
    (community env w value).1.conf = OStream.fitting env.room (rewritten value w.conf) := by
  rw [community_of_rewrites h, if_pos hRename]

section Whole

theorem getCommunityName_nil : getCommunityName [] = none := by decide

theorem rewriteLine_ne_nil (hValue : value ≠ []) : rewriteLine value line ≠ [] ↔ line ≠ [] := by
  cases hStale : isStale value line with
  | true =>
    obtain ⟨name, hName, -⟩ := isStale_iff.mp hStale
    have hRender := getCommunityName_render hValue
    rw [rewriteLine_of_stale hStale]
    constructor
    · rintro - rfl
      rw [getCommunityName_nil] at hName
      cases hName
    · intro _ hNil
      rw [hNil, getCommunityName_nil] at hRender
      cases hRender
  | false => rw [rewriteLine_of_fresh hStale]

theorem getLast?_rewritten (hValue : value ≠ []) {lines : List Str} :
    (∃ line, (lines.map (rewriteLine value)).getLast? = some line ∧ line ≠ []) ↔
      ∃ line, lines.getLast? = some line ∧ line ≠ [] := by
  rw [List.getLast?_map]
  constructor
  · rintro ⟨_, hLast, hNe⟩
    obtain ⟨line, hLine, rfl⟩ := Option.map_eq_some_iff.mp hLast
    exact ⟨line, hLine, (rewriteLine_ne_nil hValue).mp hNe⟩
  · rintro ⟨line, hLast, hNe⟩
    exact ⟨_, by rw [hLast, Option.map_some], (rewriteLine_ne_nil hValue).mpr hNe⟩

theorem exists_rewritten_concat (hStale : HasStale value conf) :
    ∃ text, rewritten value conf = text ++ [newline] := by
  obtain ⟨line, hLine, -⟩ := hStale
  obtain ⟨init, last, hLines⟩ : ∃ init last, getlines newline conf = init ++ [last] :=
    ⟨_, _, (List.dropLast_append_getLast (List.ne_nil_of_mem hLine)).symm⟩
  refine ⟨unlines newline (init.map (rewriteLine value)) ++ rewriteLine value last, ?_⟩
  rw [rewritten, hLines, List.map_append, unlines_append, List.append_assoc]
  simp

/-- All the rewritten lines are there when nothing but the last newline is missing
and the value does not bring newlines of its own. -/
theorem getlines_fitting_eq_rewritten_iff (hValue : value ≠ []) (hStale : HasStale value conf) :
    getlines newline (OStream.fitting room (rewritten value conf)) =
        (getlines newline conf).map (rewriteLine value) ↔
      newline ∉ value ∧ RoomSuffices room value conf := by
  obtain ⟨text, hText⟩ := exists_rewritten_concat hStale
  have hCut : OStream.fitting room (rewritten value conf) ++ [newline] = rewritten value conf ↔
      ∃ k, room = some k ∧ (rewritten value conf).length = k + 1 := by
    rw [hText, OStream.fitting_append_eq_iff, List.length_append]
    constructor
    · exact fun hRoom => ⟨text.length, hRoom, rfl⟩
    · rintro ⟨k, hRoom, hLength⟩
      rw [hRoom, Nat.succ.inj hLength]
  rw [getlines_eq_iff, newline_notMem_rewritten_iff hStale, ← rewritten, OStream.fitting_eq_self_iff,
    hCut, getLast?_rewritten hValue]
  rfl

end Whole

section Stops

variable {init post lines : List Str}

theorem rewriteLine_eq_self_iff : rewriteLine value line = line ↔ ¬ Changes value line := by
  unfold Changes
  cases hStale : isStale value line with
  | true =>
    rw [rewriteLine_of_stale hStale]
    simp [eq_comm]
  | false => simp [rewriteLine_of_fresh hStale]

theorem map_rewriteLine (h : ∀ line ∈ lines, ¬ Changes value line) : lines.map (rewriteLine value) = lines :=
  (List.map_congr_left fun line hLine => rewriteLine_eq_self_iff.mpr (h line hLine)).trans (List.map_id lines)

theorem exists_first_change (h : ¬ ∀ line ∈ lines, ¬ Changes value line) :
    ∃ init line post, lines = init ++ line :: post ∧ (∀ l ∈ init, ¬ Changes value l) ∧ Changes value line := by
  cases hFind : lines.find? fun line => decide (Changes value line) with
  | none =>
    rw [List.find?_eq_none] at hFind
    exact absurd (fun line hLine => by simpa using hFind line hLine) h
  | some line =>
    obtain ⟨hLine, init, post, rfl, hInit⟩ := List.find?_eq_some_iff_append.mp hFind
    exact ⟨init, line, post, rfl, fun l hl => by simpa using hInit l hl, of_decide_eq_true hLine⟩

theorem rewritten_split (hLines : getlines newline conf = init ++ line :: post)
    (hInit : ∀ l ∈ init, ¬ Changes value l) (hLine : Changes value line) :
    rewritten value conf =
      unlines newline init ++ (render value ++ newline :: unlines newline (post.map (rewriteLine value))) := by
  rw [rewritten, hLines, List.map_append, List.map_cons, map_rewriteLine hInit, rewriteLine_of_stale hLine.1,
    unlines_append, unlines_cons]

theorem newline_notMem_line (hLines : getlines newline conf = init ++ line :: post) : newline ∉ line :=
  sep_notMem (hLines ▸ List.mem_append_right init List.mem_cons_self)

theorem Changes.ne_nil (h : Changes value line) : line ≠ [] := by
  rintro rfl
  obtain ⟨name, hName, -⟩ := isStale_iff.mp h.1
  rw [getCommunityName_nil] at hName
  cases hName

theorem unlines_written (value line : Str) :
    unlines newline (written value line) = rewriteLine value line ++ [newline] :=
  unlines_getlines_concat (rewriteLine value line)

theorem unlines_next (value rest : Str) (lines : List Str) :
    unlines newline (Growth.next (getlines newline (rest ++ [newline])) (written value) lines) =
      rest ++ newline :: unlines newline (lines.map (rewriteLine value)) := by
  have hWritten : unlines newline (lines.flatMap (written value)) =
      unlines newline (lines.map (rewriteLine value)) := by
    induction lines with
    | nil => rfl
    | cons line lines ih =>
      rw [List.flatMap_cons, unlines_append, unlines_written, ih, List.map_cons, unlines_cons, List.append_assoc]
      rfl
  rw [Growth.next, unlines_append, unlines_getlines_concat, hWritten, List.append_assoc]
  rfl

theorem prefix_following_iff {rest text : Str} :
    text <+: unlines newline (following value rest (getlines newline text).length) ↔
      text <+: rest ++ newline :: unlines newline ((getlines newline text).map (rewriteLine value)) := by
  have hNe : ∀ s : Str, getlines newline (s ++ [newline]) ≠ [] := fun s h => by
    simpa using getlines_eq_nil h
  rw [← unlines_next]
  exact (Growth.prefix_unlines_next_iff (hNe rest) (fun line => hNe (rewriteLine value line))
    (fun _ => sep_notMem) fun _ _ => sep_notMem).symm

/-- A line that changes is met by the line to write, which leaves the two ways to stop. -/
theorem stops_of_kept {kept : Str} (hChange : ¬ ∀ line ∈ getlines newline conf, ¬ Changes value line)
    (hPrefix : kept <+: rewritten value conf) (hKept : getlines newline kept = getlines newline conf) :
    StopsInLastLine (some kept.length) value conf ∨ StopsInValue (some kept.length) value conf := by
  obtain ⟨init, line, post, hLines, hInit, hLine⟩ := exists_first_change hChange
  obtain ⟨tail, rfl, hTail⟩ := getlines_eq_append (hKept.trans hLines) (List.cons_ne_nil line post)
  have hNewline := newline_notMem_line hLines
  rw [rewritten_split hLines hInit hLine, List.prefix_append_right_inj] at hPrefix
  rcases getlines_eq_cons hTail with ⟨rfl, rfl⟩ | ⟨text, rfl, hText⟩
  · left
    exact ⟨init, tail, hLines, hInit, hLine, prefix_line hNewline hPrefix, by rw [List.length_append]⟩
  · right
    rcases prefix_line_sep hNewline hPrefix with ⟨hSame, -⟩ | ⟨rest, hRest, hBegins⟩
    · exact absurd hSame hLine.2
    · rw [← hText] at hLines hBegins
      refine ⟨init, line, rest, text, hLines, hInit, hLine, hRest, prefix_following_iff.mpr hBegins, ?_⟩
      simp only [List.length_append, List.length_cons]
      congr 1
      omega

theorem kept_of_stops (h : StopsInLastLine room value conf ∨ StopsInValue room value conf) :
    ∃ kept, kept <+: rewritten value conf ∧ room = some kept.length ∧
      getlines newline kept = getlines newline conf := by
  have hComplete : ∀ {init post line}, getlines newline conf = init ++ line :: post →
      ∀ l ∈ init, newline ∉ l := fun hLines l hl => sep_notMem (hLines ▸ List.mem_append_left _ hl)
  rcases h with ⟨init, last, hLines, hInit, hLast, hPrefix, hRoom⟩ |
    ⟨init, line, rest, text, hLines, hInit, hLine, hRest, hBegins, hRoom⟩
  · refine ⟨unlines newline init ++ last, ?_, by rw [hRoom, List.length_append], ?_⟩
    · rw [rewritten_split hLines hInit hLast, List.prefix_append_right_inj]
      exact List.prefix_append_of_prefix hPrefix
    · rw [getlines_unlines_append (hComplete hLines), getlines_last (newline_notMem_line hLines) hLast.ne_nil,
        hLines]
  · refine ⟨unlines newline init ++ (line ++ newline :: text), ?_, ?_, ?_⟩
    · rw [rewritten_split hLines hInit hLine, hRest, List.prefix_append_right_inj, List.append_assoc,
        List.prefix_append_right_inj, List.cons_append, List.cons_prefix_cons]
      exact ⟨rfl, prefix_following_iff.mp hBegins⟩
    · rw [hRoom]
      simp only [List.length_append, List.length_cons]
      congr 1
      omega
    · rw [getlines_unlines_append (hComplete hLines), getlines_line (newline_notMem_line hLines), hLines]

theorem not_stops (hSame : ∀ line ∈ getlines newline conf, ¬ Changes value line) :
    ¬ (StopsInLastLine room value conf ∨ StopsInValue room value conf) := by
  rintro (⟨init, last, hLines, -, hLast, -⟩ | ⟨init, line, -, text, hLines, -, hLine, -⟩)
  · exact hSame last (hLines ▸ List.mem_append_right init List.mem_cons_self) hLast
  · exact hSame line (hLines ▸ List.mem_append_right init List.mem_cons_self) hLine

theorem getlines_rewritten_ne (hChange : ¬ ∀ line ∈ getlines newline conf, ¬ Changes value line) :
    getlines newline (rewritten value conf) ≠ getlines newline conf := by
  intro h
  by_cases hValue : newline ∈ value
  · obtain ⟨init, line, post, hLines, -, hLine⟩ := exists_first_change hChange
    have hMem : line ∈ getlines newline conf := hLines ▸ List.mem_append_right init List.mem_cons_self
    have hNewline : newline ∈ rewriteLine value line := by
      rw [rewriteLine_of_stale hLine.1]
      exact newline_mem_render.mpr hValue
    have hMore := length_lt_getlines_unlines (List.mem_map_of_mem (f := rewriteLine value) hMem) hNewline
    rw [← rewritten, h, List.length_map] at hMore
    exact lt_irrefl _ hMore
  · rw [getlines_rewritten hValue] at h
    apply hChange
    intro line hLine
    exact rewriteLine_eq_self_iff.mp (List.map_inj_left.mp (h.trans (List.map_id _).symm) line hLine)

/-- When some line changes, the previous lines come out only where the writing stops at them. -/
theorem getlines_fitting_eq_previous_iff (hChange : ¬ ∀ line ∈ getlines newline conf, ¬ Changes value line) :
    getlines newline (OStream.fitting room (rewritten value conf)) = getlines newline conf ↔
      StopsInLastLine room value conf ∨ StopsInValue room value conf := by
  constructor
  · intro h
    obtain ⟨hPrefix, hFull | ⟨hAll, -⟩⟩ := OStream.fitting_eq_iff.mp
      (Eq.refl (OStream.fitting room (rewritten value conf)))
    · rw [hFull]
      exact stops_of_kept hChange hPrefix h
    · rw [hAll] at h
      exact absurd h (getlines_rewritten_ne hChange)
  · intro h
    obtain ⟨kept, hPrefix, hRoom, hKept⟩ := kept_of_stops h
    rw [OStream.fitting_eq_iff.mpr ⟨hPrefix, .inl hRoom⟩, hKept]

/-- The file as a whole comes out of what fits of the rewritten text. -/
theorem fitting_eq_conf_iff (hStale : HasStale value conf) :
    OStream.fitting room (rewritten value conf) = conf ↔ KeepsFile room value conf := by
  unfold KeepsFile
  by_cases hSame : ∀ line ∈ getlines newline conf, ¬ Changes value line
  · rw [and_iff_right hSame, or_iff_left fun h => not_stops hSame h.2, rewritten, map_rewriteLine hSame]
    rcases eq_unlines newline conf with hConf | ⟨hConf, last, hLast, hNe⟩
    · obtain ⟨text, hText⟩ := exists_rewritten_concat hStale
      rw [rewritten, map_rewriteLine hSame, ← hConf] at hText
      rw [← hConf, if_pos (by rw [hText, List.getLast?_concat]), OStream.fitting_eq_self_iff]
    · rw [← hConf, if_neg (getLast?_ne_sep hConf hLast hNe), ← OStream.fitting_append_eq_iff, List.append_left_inj]
  · rw [or_iff_right fun h => hSame h.1]
    constructor
    · intro h
      obtain ⟨hPrefix, hFull | ⟨hAll, -⟩⟩ := OStream.fitting_eq_iff.mp h
      · exact ⟨hFull, hFull ▸ stops_of_kept hSame hPrefix rfl⟩
      · exact absurd (congrArg (getlines newline) hAll.symm) (getlines_rewritten_ne hSame)
    · rintro ⟨hRoom, hStops⟩
      obtain ⟨kept, hPrefix, hKeptRoom, hKept⟩ := kept_of_stops hStops
      have hLength : kept.length = conf.length := Option.some.inj (hKeptRoom.symm.trans hRoom)
      obtain rfl : kept = conf := eq_of_getlines_eq hKept hLength
      exact OStream.fitting_eq_iff.mpr ⟨hPrefix, .inl hRoom⟩

end Stops

/-- The configuration is replaced as a whole exactly when it is not replaced at
all, when the text fits and the value has no newline, or when the room ends with
the previous lines, in the last of them or within the lines of the value. -/
theorem replacedWhole_iff (env : Env) (w : World) (value : Str) :
    ReplacedWhole env w value ↔
      ¬ (Rewrites env value w.conf ∧ env.rename = true) ∨
        newline ∉ value ∧ RoomSuffices env.room value w.conf ∨
        StopsInLastLine env.room value w.conf ∨ StopsInValue env.room value w.conf := by
  by_cases hReplaced : Rewrites env value w.conf ∧ env.rename = true
  · rw [or_iff_right (not_not_intro hReplaced), ReplacedWhole, conf_of_replaced hReplaced.1 hReplaced.2]
    obtain ⟨⟨hAccepted, -, -, hStale⟩, -⟩ := hReplaced
    have hWhole := @getlines_fitting_eq_rewritten_iff value w.conf env.room hAccepted.ne_nil hStale
    by_cases hSame : ∀ line ∈ getlines newline w.conf, ¬ Changes value line
    · rw [map_rewriteLine hSame] at hWhole ⊢
      rw [or_self_iff, hWhole, or_iff_left (not_stops hSame)]
    · rw [getlines_fitting_eq_previous_iff hSame, hWhole, or_comm]
  · refine iff_of_true (.inl ?_) (.inl hReplaced)
    rw [conf_of_not_replaced hReplaced]

example : StopsInLastLine (some 31) (Str.lit "public") (Str.lit "com2sec readonly  default\t  pub") :=
  ⟨[], Str.lit "com2sec readonly  default\t  pub", by decide, by decide, by decide, by decide, by decide⟩

-- what follows the first line is written again after the value
example : StopsInValue (some 33) (Str.lit "a\nb") (Str.lit "com2sec readonly  default\t  a\nb\nb\n") :=
  ⟨[], Str.lit "com2sec readonly  default\t  a", Str.lit "b", Str.lit "b\nb", by decide, by decide, by decide,
    by decide, by decide, by decide⟩

section Clean

theorem failsClean_of_not_rewrites (h : ¬ Rewrites env value w.conf) : FailsClean env w value := by
  intro e hRaised
  rcases community_cases env w value with ⟨-, hCall⟩ | ⟨-, -, tmp, hCall⟩ | hRewrites
  · rw [hCall]
    exact ⟨rfl, rfl, id⟩
  · rw [hCall] at hRaised
    cases hRaised
  · exact absurd hRewrites h

variable (h : Rewrites env value w.conf)
include h

theorem failsClean_iff_of_not_renamed (hRename : env.rename = false) :
    FailsClean env w value ↔ w.community = value ∧ w.tmp.isSome = true := by
  rw [FailsClean, community_of_rewrites h, hRename, if_neg Bool.false_ne_true, Option.isSome_iff_ne_none]
  constructor
  · intro hClean
    obtain ⟨hValue, -, hTmp⟩ := hClean _ rfl
    refine ⟨hValue.symm, fun hNone => ?_⟩
    cases hTmp hNone
  · rintro ⟨hValue, hTmp⟩ e -
    exact ⟨hValue.symm, rfl, fun hNone => absurd hNone hTmp⟩

theorem failsClean_iff_of_not_reloaded (hRename : env.rename = true) (hReload : env.reload = false) :
    FailsClean env w value ↔ w.community = value ∧ KeepsFile env.room value w.conf := by
  rw [FailsClean, community_of_rewrites h, if_pos hRename, hReload, if_neg Bool.false_ne_true,
    ← fitting_eq_conf_iff h.2.2.2]
  constructor
  · intro hClean
    obtain ⟨hValue, hConf, -⟩ := hClean _ rfl
    exact ⟨hValue.symm, hConf⟩
  · rintro ⟨hValue, hConf⟩ e -
    exact ⟨hValue.symm, hConf, fun _ => rfl⟩

theorem failsClean_of_reloaded (hRename : env.rename = true) (hReload : env.reload = true) :
    FailsClean env w value := by
  intro e hRaised
  rw [community_of_rewrites h, if_pos hRename, if_pos hReload] at hRaised
  cases hRaised

end Clean

/-- A call that raises leaves everything as it was exactly when it is rejected
or does not raise, or when the value and whatever it leaves were there before. -/
theorem failsClean_iff (env : Env) (w : World) (value : Str) :
    FailsClean env w value ↔
      ¬ (Rewrites env value w.conf ∧ (env.rename = false ∨ env.reload = false)) ∨
        w.community = value ∧
          (env.rename = false ∧ w.tmp.isSome = true ∨
            env.rename = true ∧ KeepsFile env.room value w.conf) := by
  by_cases hRewrites : Rewrites env value w.conf
  · cases hRename : env.rename with
    | false =>
      rw [failsClean_iff_of_not_renamed hRewrites hRename]
      simp [hRewrites]
    | true =>
      cases hReload : env.reload with
      | false =>
        rw [failsClean_iff_of_not_reloaded hRewrites hRename hReload]
        simp [hRewrites]
      | true => exact iff_of_true (failsClean_of_reloaded hRewrites hRename hReload) (by simp)
  · exact iff_of_true (failsClean_of_not_rewrites hRewrites) (.inl fun h => hRewrites h.1)

section Public

/-- A device that fills up leaves a part of the first line as the whole configuration. -/
theorem public_truncated :
    Accepted (Str.lit "private") ∧
      (community { working with room := some 20 } publicWorld (Str.lit "private")).1.conf =
        Str.lit "com2sec readonly  de" ∧
      ¬ ReplacedWhole { working with room := some 20 } publicWorld (Str.lit "private") := by
  refine ⟨by decide, by decide, ?_⟩
  unfold ReplacedWhole
  decide

theorem private_published :
    ¬ FailsClean { working with rename := false } publicWorld (Str.lit "private") ∧
      ¬ FailsClean { working with reload := false } publicWorld (Str.lit "private") := by
  constructor
  · intro h
    have hPublic := (h .internalFailure (by decide)).1
    revert hPublic
    decide
  · intro h
    have hPublic := (h .internalFailure (by decide)).1
    revert hPublic
    decide

end Public

end YadroSnmp.SnmpCfg
