import Mathlib.Data.List.Basic

/-! # Steps that act on one component each

A state is seen as a family of components. When a step acts on the component it
is about by a function of that component alone, and on no other, the steps about
different components commute: a run acts on a component by the steps about it,
in their order, wherever the others stand between them.
-/

namespace Componentwise

variable {σ α ι ν : Type*} {step : σ → α → σ} {view : σ → ι → ν}
  {subject : α → Option ι} {act : ι → ν → α → ν} {Inv : σ → Prop} {Valid : α → Prop} {s : σ}
  {as bs : List α}

structure Acts (step : σ → α → σ) (view : σ → ι → ν) (subject : α → Option ι)
    (act : ι → ν → α → ν) (Inv : σ → Prop) (Valid : α → Prop) : Prop where
  inv : ∀ s a, Inv s → Valid a → Inv (step s a)
  self : ∀ s a i, Inv s → Valid a → subject a = some i → view (step s a) i = act i (view s i) a
  other : ∀ s a i, Inv s → Valid a → subject a ≠ some i → view (step s a) i = view s i

namespace Acts

theorem inv_foldl (h : Acts step view subject act Inv Valid) (hs : Inv s)
    (hValid : ∀ a ∈ as, Valid a) : Inv (as.foldl step s) := by
  induction as generalizing s with
  | nil => exact hs
  | cons a as ih =>
    exact ih (h.inv s a hs (hValid a List.mem_cons_self)) fun b hb =>
      hValid b (List.mem_cons_of_mem a hb)

variable [DecidableEq ι]

theorem view_foldl (h : Acts step view subject act Inv Valid) (hs : Inv s)
    (hValid : ∀ a ∈ as, Valid a) (i : ι) :
    view (as.foldl step s) i = (as.filter fun a => subject a = some i).foldl (act i) (view s i) := by
  induction as generalizing s with
  | nil => rfl
  | cons a as ih =>
    have ha := hValid a List.mem_cons_self
    rw [List.foldl_cons, ih (h.inv s a hs ha) fun b hb => hValid b (List.mem_cons_of_mem a hb)]
    by_cases hi : subject a = some i
    · rw [List.filter_cons_of_pos (by simpa), List.foldl_cons, h.self s a i hs ha hi]
    · rw [List.filter_cons_of_neg (by simpa), h.other s a i hs ha hi]

/-- Two runs with the same steps about each component end in the same components. -/
theorem view_eq_of_filter_eq (h : Acts step view subject act Inv Valid) (hs : Inv s)
    (hAs : ∀ a ∈ as, Valid a) (hBs : ∀ b ∈ bs, Valid b)
    (hSame : ∀ i, (as.filter fun a => subject a = some i) = bs.filter fun b => subject b = some i)
    (i : ι) : view (as.foldl step s) i = view (bs.foldl step s) i := by
  rw [h.view_foldl hs hAs, h.view_foldl hs hBs, hSame]

end Acts

/-- What is seen of a state changes in relevant steps only, and then into
something that depends on what was seen before, not on the rest of the state. -/
structure Depends (step : σ → α → σ) (see : σ → ν) (Relevant : α → Prop) (Inv : σ → Prop) : Prop where
  inv : ∀ s a, Inv s → Inv (step s a)
  congr : ∀ s t a, Inv s → Inv t → see s = see t → see (step s a) = see (step t a)
  other : ∀ s a, Inv s → ¬ Relevant a → see (step s a) = see s

namespace Depends

variable {see : σ → ν} {Relevant : α → Prop} [DecidablePred Relevant] {t : σ}

/-- The steps that are not relevant can be left out of a run. -/
theorem see_foldl_filter (h : Depends step see Relevant Inv) (hs : Inv s) (ht : Inv t)
    (hSame : see s = see t) :
    see (as.foldl step s) = see ((as.filter fun a => Relevant a).foldl step t) := by
  induction as generalizing s t with
  | nil => exact hSame
  | cons a as ih =>
    rw [List.foldl_cons, List.filter_cons]
    split
    · exact ih (h.inv s a hs) (h.inv t a ht) (h.congr s t a hs ht hSame)
    · rename_i hOther
      exact ih (h.inv s a hs) ht ((h.other s a hs (of_decide_eq_false (by simpa using hOther))).trans hSame)

theorem see_eq_of_filter_eq (h : Depends step see Relevant Inv) (hs : Inv s)
    (hSame : (as.filter fun a => Relevant a) = bs.filter fun b => Relevant b) :
    see (as.foldl step s) = see (bs.foldl step s) :=
  calc see (as.foldl step s) = see ((as.filter fun a => Relevant a).foldl step s) :=
        h.see_foldl_filter hs hs rfl
    _ = see ((bs.filter fun b => Relevant b).foldl step s) := by rw [hSame]
    _ = see (bs.foldl step s) := (h.see_foldl_filter hs hs rfl).symm

end Depends

end Componentwise
