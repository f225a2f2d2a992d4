import YadroSnmp.SnmpCfg.Configurator

/-! # The rewritten configuration

The line written for a value is a community line, of that value unless a pair
of double quotes around it is taken for quoting. Without a newline in the value
the text keeps one line for each line; a newline adds lines.
-/

namespace YadroSnmp.SnmpCfg

open Lines

/-- Enclosed in double quotes and written without a pair of its own. -/
def SelfQuoted (value : Str) : Prop :=
  (∀ b ∈ value, isWhitespace b = false) ∧ 2 ≤ value.length ∧ value.head? = some quote ∧
    value.getLast? = some quote

instance (value : Str) : Decidable (SelfQuoted value) :=
  @instDecidableAnd _ _ (List.decidableBAll _ value) inferInstance

variable {value line conf : Str}

theorem isQuoteRequired_iff :
    (Str.findFirst isWhitespace value 0).isSome = true ↔ ∃ b ∈ value, isWhitespace b = true := by
  simp [Str.findFirst]

section Render

theorem tokens_written (x : Str) :
    Tokens communityTokens (Str.lit "com2sec readonly  default\t  " ++ x) (Str.lit "\t  " ++ x) := by
  have hText : Str.lit "com2sec readonly  default\t  " ++ x =
      [] ++ Str.lit "com2sec" ++ ' '.toUInt8 :: (Str.lit "readonly" ++ ' '.toUInt8 ::
        (' '.toUInt8 :: (Str.lit "default" ++ '\t'.toUInt8 :: (Str.lit "  " ++ x)))) := by
    have hPrefix : Str.lit "com2sec readonly  default\t  " =
        Str.lit "com2sec" ++ ' '.toUInt8 :: (Str.lit "readonly" ++ ' '.toUInt8 ::
          (' '.toUInt8 :: (Str.lit "default" ++ '\t'.toUInt8 :: Str.lit "  "))) := by decide
    rw [hPrefix]
    simp
  have hDefault : Tokens [Str.lit "default"]
      ([' '.toUInt8, ' '.toUInt8] ++ Str.lit "default" ++ '\t'.toUInt8 :: (Str.lit "  " ++ x))
      (Str.lit "\t  " ++ x) :=
    .cons (by decide) (by decide) (.nil _)
  have hReadonly : Tokens [Str.lit "readonly", Str.lit "default"]
      ([' '.toUInt8] ++ Str.lit "readonly" ++ ' '.toUInt8 ::
        (' '.toUInt8 :: (Str.lit "default" ++ '\t'.toUInt8 :: (Str.lit "  " ++ x))))
      (Str.lit "\t  " ++ x) :=
    .cons (by decide) (by decide) hDefault
  rw [hText]
  exact .cons (by decide) (by decide) hReadonly

theorem getCommunityName_written {x : Str} (hx : Trimmed x) :
    getCommunityName (Str.lit "com2sec readonly  default\t  " ++ x) = some (unquote x) := by
  have hTokens := tokens_written x
  rw [← List.append_nil (Str.lit "\t  " ++ x)] at hTokens
  exact getCommunityName_of_tokens hTokens (by decide) hx (by decide)

/-- The pair of quotes written around a value with blanks is the one taken off. -/
theorem getCommunityName_quoted (value : Str) :
    getCommunityName (Str.lit "com2sec readonly  default\t  " ++ (quote :: value ++ [quote])) =
      some value := by
  have hLast : (quote :: value ++ [quote]).getLast? = some quote := List.getLast?_concat
  have hTrimmed : Trimmed (quote :: value ++ [quote]) :=
    ⟨⟨quote, rfl, by decide⟩, quote, hLast, by decide⟩
  rw [getCommunityName_written hTrimmed, unquote, if_pos ⟨by simp, rfl, hLast⟩]
  exact congrArg some List.dropLast_concat

theorem trimmed_of_word (h : Word value) : Trimmed value :=
  ⟨⟨value.head h.1, List.head?_eq_some_head h.1, h.2 _ (List.head_mem h.1)⟩,
    value.getLast h.1, List.getLast?_eq_some_getLast h.1, h.2 _ (List.getLast_mem h.1)⟩

/-- The name read back from the written line. -/
theorem getCommunityName_render (hValue : value ≠ []) :
    getCommunityName (render value) = some (if SelfQuoted value then unquote value else value) := by
  cases hQuotes : (Str.findFirst isWhitespace value 0).isSome with
  | true =>
    have hRender : render value =
        Str.lit "com2sec readonly  default\t  " ++ (quote :: value ++ [quote]) := by
      simp [render, hQuotes]
    have hPlain : ¬ SelfQuoted value := by
      obtain ⟨b, hb, hBlank⟩ := isQuoteRequired_iff.mp hQuotes
      intro h
      rw [h.1 b hb] at hBlank
      cases hBlank
    rw [hRender, getCommunityName_quoted, if_neg hPlain]
  | false =>
    have hRender : render value = Str.lit "com2sec readonly  default\t  " ++ value := by
      simp [render, hQuotes]
    have hWord : Word value := by
      refine ⟨hValue, fun b hb => ?_⟩
      by_contra hBlank
      have hSome := isQuoteRequired_iff.mpr ⟨b, hb, by simpa using hBlank⟩
      rw [hQuotes] at hSome
      cases hSome
    rw [hRender, getCommunityName_written (trimmed_of_word hWord)]
    congr 1
    split
    · rfl
    · rename_i hPlain
      exact if_neg fun h => hPlain ⟨hWord.2, h⟩

theorem getCommunityName_render_eq_iff (hValue : value ≠ []) :
    getCommunityName (render value) = some value ↔ ¬ SelfQuoted value := by
  rw [getCommunityName_render hValue]
  split
  · rename_i hSelf
    refine iff_of_false (fun h => ?_) (not_not_intro hSelf)
    have hLength := congrArg List.length (Option.some.inj h)
    rw [unquote, if_pos hSelf.2, List.length_dropLast, List.length_tail] at hLength
    have hLong := hSelf.2.1
    omega
  · exact iff_of_true rfl ‹_›

end Render

section Newline

theorem tokens_suffix {tokens : List Str} {s s' : Str} (h : Tokens tokens s s') : s' <:+ s := by
  induction h with
  | nil => exact List.suffix_rfl
  | @cons token blanks rest s' tokens b _ _ _ ih => exact ih.trans (List.suffix_append _ _)

theorem mem_unquote {s : Str} {b : UInt8} (h : b ∈ unquote s) : b ∈ s := by
  unfold unquote at h
  split at h
  · exact List.mem_of_mem_tail (List.mem_of_mem_dropLast h)
  · exact h

theorem mem_of_mem_name {name : Str} (h : getCommunityName line = some name) {b : UInt8}
    (hb : b ∈ name) : b ∈ line := by
  obtain ⟨blanks, x, after, hTokens, -, -, -, rfl⟩ := getCommunityName_spec.mp h
  apply (tokens_suffix hTokens).subset
  simp [mem_unquote hb]

theorem newline_mem_render : newline ∈ render value ↔ newline ∈ value := by
  have hPrefix : newline ∉ Str.lit "com2sec readonly  default\t  " := by decide
  have hQuote : newline ≠ quote := by decide
  unfold render
  cases (Str.findFirst isWhitespace value 0).isSome with
  | true => simp [hPrefix, hQuote]
  | false => simp [hPrefix]

end Newline

section Lines

def IsCommunity (line : Str) : Prop := (getCommunityName line).isSome = true

theorem isStale_iff :
    isStale value line = true ↔ ∃ name, getCommunityName line = some name ∧ name ≠ value := by
  unfold isStale
  cases getCommunityName line with
  | none => simp
  | some name => simp

theorem rewriteLine_of_stale (h : isStale value line = true) : rewriteLine value line = render value :=
  if_pos h

theorem rewriteLine_of_fresh (h : isStale value line = false) : rewriteLine value line = line :=
  if_neg (by simp [h])

theorem isStale_of_newline (hLine : newline ∉ line) (hCommunity : IsCommunity line)
    (hValue : newline ∈ value) : isStale value line = true := by
  obtain ⟨name, hName⟩ := Option.isSome_iff_exists.mp hCommunity
  refine isStale_iff.mpr ⟨name, hName, ?_⟩
  rintro rfl
  exact hLine (mem_of_mem_name hName hValue)

theorem isCommunity_rewriteLine (line : Str) (hValue : value ≠ []) :
    (getCommunityName (rewriteLine value line)).isSome = (getCommunityName line).isSome := by
  cases hStale : isStale value line with
  | true =>
    obtain ⟨name, hName, -⟩ := isStale_iff.mp hStale
    rw [rewriteLine_of_stale hStale, getCommunityName_render hValue, hName]
    rfl
  | false => rw [rewriteLine_of_fresh hStale]

theorem newline_notMem_rewriteLine (hLine : newline ∉ line) (hValue : newline ∉ value) :
    newline ∉ rewriteLine value line := by
  cases hStale : isStale value line with
  | true =>
    rw [rewriteLine_of_stale hStale, newline_mem_render]
    exact hValue
  | false => rwa [rewriteLine_of_fresh hStale]

theorem newline_notMem_rewritten_iff (hStale : HasStale value conf) :
    (∀ line ∈ (getlines newline conf).map (rewriteLine value), newline ∉ line) ↔ newline ∉ value := by
  constructor
  · intro h hMem
    obtain ⟨line, hLine, hOld⟩ := hStale
    apply h _ (List.mem_map_of_mem hLine)
    rw [rewriteLine_of_stale hOld]
    exact newline_mem_render.mpr hMem
  · intro h line hLine
    obtain ⟨old, hOld, rfl⟩ := List.mem_map.mp hLine
    exact newline_notMem_rewriteLine (sep_notMem hOld) h

/-- Without a newline in the value the rewritten lines are the lines of the rewritten text. -/
theorem getlines_rewritten (hValue : newline ∉ value) :
    getlines newline (rewritten value conf) = (getlines newline conf).map (rewriteLine value) := by
  apply getlines_unlines
  intro line hLine
  obtain ⟨old, hOld, rfl⟩ := List.mem_map.mp hLine
  exact newline_notMem_rewriteLine (sep_notMem hOld) hValue

end Lines

end YadroSnmp.SnmpCfg
