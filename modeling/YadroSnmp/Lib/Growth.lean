import YadroSnmp.Lib.Lines

/-! # Lists that go on to write themselves

Such a list begins with a seed, and after it come, in their order, the lists that
its own entries stand for. The rounds that start from nothing say what it has to be.
-/

namespace Growth

variable {α : Type*} {seed l m : List α} {f : α → List α} {n : Nat}

def next (seed : List α) (f : α → List α) (l : List α) : List α := seed ++ l.flatMap f

def grown (seed : List α) (f : α → List α) : Nat → List α
  | 0 => []
  | n + 1 => next seed f (grown seed f n)

theorem next_mono (h : l <+: m) : next seed f l <+: next seed f m :=
  (List.prefix_append_right_inj seed).mpr (h.flatMap f)

theorem grown_prefix_succ (n : Nat) : grown seed f n <+: grown seed f (n + 1) := by
  induction n with
  | zero => exact List.nil_prefix
  | succ n ih => exact next_mono ih

theorem prefix_next_of_grown (h : l <+: grown seed f n) : l <+: next seed f l := by
  induction n with
  | zero =>
    rw [List.prefix_nil.mp h]
    exact List.nil_prefix
  | succ n ih =>
    rcases List.prefix_or_prefix_of_prefix h (grown_prefix_succ n) with hLe | hLe
    · exact ih hLe
    · exact h.trans (next_mono hLe)

section Longer

variable (hSeed : seed ≠ []) (hf : ∀ a, f a ≠ [])
include hSeed hf

theorem length_lt_next (l : List α) : l.length < (next seed f l).length := by
  have hLe : l.length ≤ (l.flatMap f).length := by
    induction l with
    | nil => exact le_rfl
    | cons a l ih =>
      have hPos := List.length_pos_iff.mpr (hf a)
      rw [List.flatMap_cons, List.length_append, List.length_cons]
      omega
  have hPos := List.length_pos_iff.mpr hSeed
  rw [next, List.length_append]
  omega

theorem prefix_next (hl : l <+: m) (h : l <+: next seed f m) : l <+: next seed f l :=
  List.prefix_of_prefix_length_le h (next_mono hl) (length_lt_next hSeed hf l).le

/-- The entries so far fix the one after them, so the rounds give them all. -/
theorem prefix_grown (h : l <+: next seed f l) : l <+: grown seed f l.length := by
  have hTake : ∀ n, l.take n <+: grown seed f n := by
    intro n
    induction n with
    | zero => exact List.nil_prefix
    | succ n ih =>
      have hShort : (l.take (n + 1)).length ≤ (next seed f (l.take n)).length := by
        have hMore := length_lt_next hSeed hf (l.take n)
        rw [List.length_take] at hMore ⊢
        omega
      exact (List.prefix_of_prefix_length_le ((List.take_prefix (n + 1) l).trans h)
        (next_mono (List.take_prefix n l)) hShort).trans (next_mono ih)
  have hAll := hTake l.length
  rwa [List.take_length] at hAll

/-- One entry more than those that agree is as in the rounds. -/
theorem take_next_eq_take_grown (hl : l <+: m) (h : l <+: next seed f l) :
    (next seed f m).take (l.length + 1) = (grown seed f (l.length + 1)).take (l.length + 1) := by
  have hMore := length_lt_next hSeed hf l
  obtain ⟨s, hs⟩ := @next_mono α seed l m f hl
  obtain ⟨t, ht⟩ := @next_mono α seed l (grown seed f l.length) f (prefix_grown hSeed hf h)
  rw [grown, ← hs, ← ht, List.take_append_of_le_length hMore, List.take_append_of_le_length hMore]

end Longer

section Texts

open Lines

variable {sep : α} {text : List α} {first : List (List α)} {g : List α → List (List α)}

theorem sep_notMem_next {ls : List (List α)} (hFirst : ∀ l ∈ first, sep ∉ l) (hg : ∀ l, ∀ m ∈ g l, sep ∉ m) :
    ∀ l ∈ next first g ls, sep ∉ l := by
  intro l hl
  rcases List.mem_append.mp hl with hl | hl
  · exact hFirst l hl
  · obtain ⟨m, -, hm⟩ := List.mem_flatMap.mp hl
    exact hg m l hm

theorem sep_notMem_grown (hFirst : ∀ l ∈ first, sep ∉ l) (hg : ∀ l, ∀ m ∈ g l, sep ∉ m) :
    ∀ l ∈ grown first g n, sep ∉ l := by
  cases n with
  | zero => exact nofun
  | succ n => exact sep_notMem_next hFirst hg

/-- A text begins what its own lines stand for when it begins what comes of the rounds. -/
theorem prefix_unlines_next_iff [DecidableEq α] (hNe : first ≠ []) (hgNe : ∀ l, g l ≠ []) (hFirst : ∀ l ∈ first, sep ∉ l)
    (hg : ∀ l, ∀ m ∈ g l, sep ∉ m) :
    text <+: unlines sep (next first g (getlines sep text)) ↔
      text <+: unlines sep (grown first g (getlines sep text).length) := by
  cases hLines : getlines sep text with
  | nil =>
    rw [getlines_eq_nil hLines]
    exact iff_of_true List.nil_prefix List.nil_prefix
  | cons l ls =>
    have hLength : (l :: ls).dropLast.length + 1 = (l :: ls).length := by simp
    have hSame : (l :: ls).dropLast <+: next first g (l :: ls).dropLast →
        (next first g (l :: ls)).take (l :: ls).length =
          (grown first g (l :: ls).length).take (l :: ls).length := by
      intro h
      rw [← hLength]
      exact take_next_eq_take_grown hNe hgNe (List.dropLast_prefix (l :: ls)) h
    have hNext := @sep_notMem_next α sep first g (l :: ls) hFirst hg
    have hGrown := @sep_notMem_grown α (l :: ls).length sep first g hFirst hg
    constructor
    · intro h
      have hInit := prefix_dropLast_getlines hNext h
      rw [hLines] at hInit
      rw [prefix_unlines_iff hNext, hLines,
        hSame (prefix_next hNe hgNe (List.dropLast_prefix (l :: ls)) hInit)] at h
      rwa [prefix_unlines_iff hGrown, hLines]
    · intro h
      have hInit := prefix_dropLast_getlines hGrown h
      rw [hLines] at hInit
      rw [prefix_unlines_iff hGrown, hLines] at h
      rw [prefix_unlines_iff hNext, hLines, hSame (prefix_next_of_grown hInit)]
      exact h

end Texts

end Growth
