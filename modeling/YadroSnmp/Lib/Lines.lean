import Mathlib.Data.List.Infix
import Mathlib.Tactic.Common

/-! # Texts and their lines

`getlines` reads a text line by line: a separator ends a line, and what follows
the last separator is a line of its own only when it is not empty. `unlines`
writes each line with a separator after it.
-/

namespace Lines

variable {α : Type*} {sep : α} {s t l : List α} {ls ms : List (List α)}

def getlines [DecidableEq α] (sep : α) : List α → List (List α)
  | [] => []
  | b :: s =>
    if b = sep then [] :: getlines sep s
    else
      match getlines sep s with
      | [] => [[b]]
      | l :: ls => (b :: l) :: ls

def unlines (sep : α) (ls : List (List α)) : List α := ls.flatMap fun l => l ++ [sep]

@[simp] theorem unlines_nil : unlines sep [] = [] := rfl

@[simp] theorem unlines_cons : unlines sep (l :: ls) = l ++ sep :: unlines sep ls := by
  simp [unlines]

@[simp] theorem unlines_append : unlines sep (ls ++ ms) = unlines sep ls ++ unlines sep ms :=
  List.flatMap_append

section Prefix

variable {m : List α}

theorem prefix_line (hl : sep ∉ l) (h : l <+: m ++ sep :: t) : l <+: m := by
  rcases List.prefix_or_prefix_of_prefix h (List.prefix_append m (sep :: t)) with hLe | ⟨u, rfl⟩
  · exact hLe
  · rw [List.prefix_append_right_inj] at h
    rcases List.prefix_cons_iff.mp h with rfl | ⟨u', rfl, -⟩
    · rw [List.append_nil]
    · exact absurd (by simp) hl

/-- A complete line is the line there, or ends at a separator within what stands there. -/
theorem prefix_line_sep (hl : sep ∉ l) (h : l ++ sep :: s <+: m ++ sep :: t) :
    l = m ∧ s <+: t ∨ ∃ rest, m = l ++ sep :: rest ∧ s <+: rest ++ sep :: t := by
  obtain ⟨u, rfl⟩ := prefix_line hl ((List.prefix_append l (sep :: s)).trans h)
  rw [List.append_assoc, List.prefix_append_right_inj] at h
  cases u with
  | nil => exact .inl ⟨(List.append_nil l).symm, (List.cons_prefix_cons.mp h).2⟩
  | cons c rest =>
    obtain ⟨rfl, hRest⟩ := List.cons_prefix_cons.mp h
    exact .inr ⟨rest, rfl, hRest⟩

end Prefix

variable [DecidableEq α]

@[simp] theorem getlines_nil : getlines sep [] = [] := rfl

theorem sep_notMem (h : l ∈ getlines sep s) : sep ∉ l := by
  induction s generalizing l with
  | nil => cases h
  | cons b s ih =>
    rw [getlines] at h
    split at h
    · rcases List.mem_cons.mp h with rfl | h
      · simp
      · exact ih h
    · rename_i hb
      split at h
      · rw [List.mem_singleton.mp h]
        simpa using Ne.symm hb
      · rename_i l' ls hLines
        rcases List.mem_cons.mp h with rfl | h
        · have hTail : sep ∉ l' := ih (hLines ▸ List.mem_cons_self)
          simpa using ⟨Ne.symm hb, hTail⟩
        · exact ih (hLines ▸ List.mem_cons_of_mem l' h)

theorem getlines_line (hl : sep ∉ l) (s : List α) :
    getlines sep (l ++ sep :: s) = l :: getlines sep s := by
  induction l with
  | nil => simp [getlines]
  | cons b l ih =>
    have hb : b ≠ sep := fun hb => hl (hb ▸ List.mem_cons_self)
    rw [List.cons_append, getlines, if_neg hb, ih fun h => hl (List.mem_cons_of_mem b h)]

theorem getlines_last (hl : sep ∉ l) (hNe : l ≠ []) : getlines sep l = [l] := by
  induction l with
  | nil => exact absurd rfl hNe
  | cons b l ih =>
    have hb : b ≠ sep := fun hb => hl (hb ▸ List.mem_cons_self)
    rw [getlines, if_neg hb]
    cases l with
    | nil => rfl
    | cons c l => rw [ih (fun h => hl (List.mem_cons_of_mem b h)) (List.cons_ne_nil c l)]

theorem getlines_unlines_append (h : ∀ l ∈ ls, sep ∉ l) (s : List α) :
    getlines sep (unlines sep ls ++ s) = ls ++ getlines sep s := by
  induction ls with
  | nil => rfl
  | cons l ls ih =>
    rw [unlines_cons, List.append_assoc, List.cons_append, getlines_line (h l List.mem_cons_self),
      ih fun m hm => h m (List.mem_cons_of_mem l hm)]
    rfl

/-- Lines written are lines read. -/
theorem getlines_unlines (h : ∀ l ∈ ls, sep ∉ l) : getlines sep (unlines sep ls) = ls := by
  have hAll := getlines_unlines_append h []
  rwa [List.append_nil, getlines_nil, List.append_nil] at hAll

/-- A text is its complete lines, or these without the separator after the last one. -/
theorem eq_unlines (sep : α) (s : List α) :
    s = unlines sep (getlines sep s) ∨
      s ++ [sep] = unlines sep (getlines sep s) ∧ ∃ l, (getlines sep s).getLast? = some l ∧ l ≠ [] := by
  induction s with
  | nil => exact .inl rfl
  | cons b s ih =>
    rw [getlines]
    split
    · rename_i hb
      subst hb
      rcases ih with h | ⟨h, l, hLast, hNe⟩
      · left
        simpa using h
      · right
        refine ⟨by simpa using h, l, ?_, hNe⟩
        rw [List.getLast?_cons, hLast, Option.getD_some]
    · split
      · rename_i hEmpty
        right
        rw [hEmpty] at ih
        rcases ih with rfl | ⟨h, -⟩
        · exact ⟨rfl, [b], rfl, List.cons_ne_nil b []⟩
        · simp at h
      · rename_i l ls hLines
        rw [hLines] at ih
        rcases ih with h | ⟨h, m, hLast, hNe⟩
        · left
          simpa using h
        · right
          refine ⟨by simpa using h, ?_⟩
          cases ls with
          | nil => exact ⟨b :: l, rfl, List.cons_ne_nil b l⟩
          | cons l' ls => exact ⟨m, by simpa using hLast, hNe⟩

/-- A text without the separator at the end ends with the last of its last line. -/
theorem getLast?_ne_sep (h : s ++ [sep] = unlines sep (getlines sep s))
    (hLast : (getlines sep s).getLast? = some l) (hNe : l ≠ []) : s.getLast? ≠ some sep := by
  obtain ⟨init, hLines⟩ : ∃ init, getlines sep s = init ++ [l] := List.getLast?_eq_some_iff.mp hLast
  have hText : s = unlines sep init ++ l := by
    rw [hLines, unlines_append, unlines_cons, unlines_nil, ← List.append_assoc] at h
    exact List.append_cancel_right h
  intro hSep
  rw [hText, List.getLast?_append_of_ne_nil _ hNe] at hSep
  exact sep_notMem (hLines ▸ List.mem_append_right init List.mem_cons_self) (List.mem_of_getLast? hSep)

/-- Which texts read as given lines. -/
theorem getlines_eq_iff :
    getlines sep s = ls ↔ (∀ l ∈ ls, sep ∉ l) ∧
      (s = unlines sep ls ∨ s ++ [sep] = unlines sep ls ∧ ∃ l, ls.getLast? = some l ∧ l ≠ []) := by
  constructor
  · rintro rfl
    exact ⟨fun l => sep_notMem, eq_unlines sep s⟩
  · rintro ⟨hSep, rfl | ⟨hText, l, hLast, hNe⟩⟩
    · exact getlines_unlines hSep
    · obtain ⟨init, rfl⟩ : ∃ init, ls = init ++ [l] := List.getLast?_eq_some_iff.mp hLast
      have hs : s = unlines sep init ++ l := by
        rw [unlines_append, unlines_cons, unlines_nil, ← List.append_assoc] at hText
        exact List.append_cancel_right hText
      rw [hs, getlines_unlines_append fun m hm => hSep m (List.mem_append_left [l] hm),
        getlines_last (hSep l (List.mem_append_right init List.mem_cons_self)) hNe]

theorem length_getlines_append (s t : List α) :
    (getlines sep (s ++ sep :: t)).length = s.count sep + 1 + (getlines sep t).length := by
  induction s with
  | nil => simp [getlines, Nat.add_comm]
  | cons b s ih =>
    rw [List.cons_append, getlines, List.count_cons]
    split
    · rename_i hb
      simp only [List.length_cons, ih, hb, beq_self_eq_true, if_true]
      omega
    · rename_i hb
      cases hLines : getlines sep (s ++ sep :: t) with
      | nil =>
        rw [hLines, List.length_nil] at ih
        omega
      | cons l ls =>
        rw [hLines] at ih
        simpa [hb] using ih

theorem length_le_getlines_unlines (sep : α) (ms : List (List α)) :
    ms.length ≤ (getlines sep (unlines sep ms)).length := by
  induction ms with
  | nil => exact le_rfl
  | cons m ms ih =>
    rw [unlines_cons, length_getlines_append, List.length_cons]
    omega

/-- A separator inside one of the texts makes them more. -/
theorem length_lt_getlines_unlines (hl : l ∈ ms) (hSep : sep ∈ l) :
    ms.length < (getlines sep (unlines sep ms)).length := by
  induction ms with
  | nil => cases hl
  | cons m ms ih =>
    rw [unlines_cons, length_getlines_append, List.length_cons]
    rcases List.mem_cons.mp hl with rfl | hl
    · have hCount := List.count_pos_iff.mpr hSep
      have hRest := length_le_getlines_unlines sep ms
      omega
    · have hRest := ih hl
      omega

section Inversion

theorem getlines_eq_nil (h : getlines sep s = []) : s = [] := by
  rcases eq_unlines sep s with hText | ⟨-, l, hLast, -⟩
  · rwa [h] at hText
  · rw [h] at hLast
    cases hLast

/-- The first line is all of the text, or a separator stands after it. -/
theorem getlines_eq_cons (h : getlines sep s = l :: ls) :
    s = l ∧ ls = [] ∨ ∃ s', s = l ++ sep :: s' ∧ getlines sep s' = ls := by
  induction s generalizing l with
  | nil => cases h
  | cons b s ih =>
    rw [getlines] at h
    split at h
    · rename_i hb
      obtain ⟨rfl, rfl⟩ := List.cons.inj h
      exact .inr ⟨s, by rw [hb]; rfl, rfl⟩
    · split at h
      · rename_i hLines
        obtain ⟨rfl, rfl⟩ := List.cons.inj h
        exact .inl ⟨by rw [getlines_eq_nil hLines], rfl⟩
      · rename_i l' ls' hLines
        obtain ⟨rfl, rfl⟩ := List.cons.inj h
        rcases ih hLines with ⟨rfl, hEnd⟩ | ⟨s', rfl, hRest⟩
        · exact .inl ⟨rfl, hEnd⟩
        · exact .inr ⟨s', rfl, hRest⟩

theorem getlines_eq_append (h : getlines sep s = ms ++ ls) (hNe : ls ≠ []) :
    ∃ s', s = unlines sep ms ++ s' ∧ getlines sep s' = ls := by
  induction ms generalizing s with
  | nil => exact ⟨s, rfl, h⟩
  | cons m ms ih =>
    rcases getlines_eq_cons h with ⟨-, hEnd⟩ | ⟨s', rfl, hRest⟩
    · exact absurd (List.append_eq_nil_iff.mp hEnd).2 hNe
    · obtain ⟨s'', rfl, hLines⟩ := ih hRest
      exact ⟨s'', by simp, hLines⟩

/-- Texts of the same lines differ in nothing but the separator at the end. -/
theorem eq_of_getlines_eq (h : getlines sep s = getlines sep t) (hLength : s.length = t.length) : s = t := by
  rcases eq_unlines sep s with hs | ⟨hs, -⟩
  · rcases eq_unlines sep t with ht | ⟨ht, -⟩
    · rw [hs, ht, h]
    · have hLonger := congrArg List.length (hs.trans (h ▸ ht.symm))
      rw [List.length_append, hLength] at hLonger
      simp at hLonger
  · rcases eq_unlines sep t with ht | ⟨ht, -⟩
    · have hLonger := congrArg List.length (hs.trans (h ▸ ht.symm))
      rw [List.length_append, hLength] at hLonger
      simp at hLonger
    · exact List.append_cancel_right (hs.trans (h ▸ ht.symm))

/-- A text that ends with a separator is its complete lines. -/
theorem unlines_getlines_concat (s : List α) : unlines sep (getlines sep (s ++ [sep])) = s ++ [sep] := by
  rcases eq_unlines sep (s ++ [sep]) with h | ⟨h, l, hLast, hNe⟩
  · exact h.symm
  · exact absurd List.getLast?_concat (getLast?_ne_sep h hLast hNe)

end Inversion

section Beginning

variable (hSep : ∀ m ∈ ms, sep ∉ m)
include hSep

/-- What a text begins is settled by as many lines as it has. -/
theorem prefix_unlines_iff :
    s <+: unlines sep ms ↔ s <+: unlines sep (ms.take (getlines sep s).length) := by
  constructor
  · intro h
    induction ms generalizing s with
    | nil => simpa using h
    | cons m ms ih =>
      cases hLines : getlines sep s with
      | nil =>
        rw [getlines_eq_nil hLines]
        exact List.nil_prefix
      | cons l ls =>
        rw [List.length_cons, List.take_succ_cons, unlines_cons]
        rw [unlines_cons] at h
        have hl : sep ∉ l := sep_notMem (hLines ▸ List.mem_cons_self)
        rcases getlines_eq_cons hLines with ⟨rfl, rfl⟩ | ⟨t, rfl, rfl⟩
        · exact List.prefix_append_of_prefix (prefix_line hl h)
        · rcases prefix_line_sep hl h with ⟨rfl, hRest⟩ | ⟨rest, rfl, -⟩
          · rw [List.prefix_append_right_inj, List.cons_prefix_cons]
            exact ⟨rfl, ih (fun n hn => hSep n (List.mem_cons_of_mem l hn)) hRest⟩
          · exact absurd (List.mem_append_right l List.mem_cons_self) (hSep _ List.mem_cons_self)
  · exact fun h => h.trans ((List.take_prefix _ ms).flatMap _)

/-- All lines but the last, which may be cut, are lines there. -/
theorem prefix_dropLast_getlines (h : s <+: unlines sep ms) : (getlines sep s).dropLast <+: ms := by
  induction ms generalizing s with
  | nil =>
    rw [unlines_nil, List.prefix_nil] at h
    rw [h]
    exact List.nil_prefix
  | cons m ms ih =>
    cases hLines : getlines sep s with
    | nil => exact List.nil_prefix
    | cons l ls =>
      have hl : sep ∉ l := sep_notMem (hLines ▸ List.mem_cons_self)
      rw [unlines_cons] at h
      rcases getlines_eq_cons hLines with ⟨rfl, rfl⟩ | ⟨t, rfl, rfl⟩
      · exact List.nil_prefix
      · rcases prefix_line_sep hl h with ⟨rfl, hRest⟩ | ⟨rest, rfl, -⟩
        · cases hTail : getlines sep t with
          | nil => exact List.nil_prefix
          | cons l' ls =>
            rw [List.dropLast_cons_cons, List.cons_prefix_cons, ← hTail]
            exact ⟨rfl, ih (fun n hn => hSep n (List.mem_cons_of_mem l hn)) hRest⟩
        · exact absurd (List.mem_append_right l List.mem_cons_self) (hSep _ List.mem_cons_self)

end Beginning

end Lines
