import Mathlib.Algebra.BigOperators.Group.Finset.Piecewise
import Mathlib.Algebra.GroupWithZero.Nat
import Mathlib.Algebra.Order.BigOperators.Group.List
import Mathlib.Algebra.Order.Group.Nat
import Mathlib.Data.List.Flatten
import Mathlib.Data.List.Nodup
import Mathlib.Logic.Function.Basic

/-! # Machines fed by one stream into one log

Every input is handed to each machine of a family in turn, and whatever a
machine emits goes to the end of one log. A machine ends where it would have
ended alone, and its own output can be taken out of the log again. When no
input concerns two machines, the order of the turns cannot be observed, the
length of the log is bounded by potentials of the single machines, and states
that the machines cannot tell apart go on alike.
-/

variable {ι : Type*} {σ : ι → Type*} {α β γ : Type*}

structure Bank (σ : ι → Type*) (α β : Type*) where
  step : (i : ι) → σ i → α → σ i
  emit : (i : ι) → σ i → α → List β

namespace Bank

structure Shared (σ : ι → Type*) (β : Type*) where
  states : (i : ι) → σ i
  log : List β

/-- An order of turns gives each machine exactly one. -/
structure Turns (order : List ι) : Prop where
  nodup : order.Nodup
  all : ∀ i, i ∈ order

section Definitions

variable [DecidableEq ι] (B : Bank σ α β)

def turn (a : α) (s : Shared σ β) (i : ι) : Shared σ β where
  states := Function.update s.states i (B.step i (s.states i) a)
  log := s.log ++ B.emit i (s.states i) a

def serve (order : List ι) (s : Shared σ β) (a : α) : Shared σ β := order.foldl (B.turn a) s

def run (order : List ι) (s : Shared σ β) (as : List α) : Shared σ β := as.foldl (B.serve order) s

end Definitions

/-- What a machine emits when it is alone with the stream. -/
def emitted (B : Bank σ α β) (i : ι) : σ i → List α → List β
  | _, [] => []
  | x, a :: as => B.emit i x a ++ B.emitted i (B.step i x a) as

/-- An input concerns its owner only. -/
def Owned (B : Bank σ α β) (owner : α → Option ι) : Prop :=
  ∀ i x a, owner a ≠ some i → B.step i x a = x ∧ B.emit i x a = []

variable {B : Bank σ α β} {order order' : List ι} {s : Shared σ β} {a : α} {as : List α}

theorem Shared.ext {t : Shared σ β} (hStates : ∀ i, s.states i = t.states i) (hLog : s.log = t.log) :
    s = t := by
  cases s
  cases t
  cases (funext hStates : _ = _)
  cases hLog
  rfl

/-- What only one member of a duplicate-free list contributes. -/
theorem flatMap_eq_of_single {f : ι → List β} {i : ι} (hNodup : order.Nodup) (hi : i ∈ order)
    (hOther : ∀ j, j ≠ i → f j = []) : order.flatMap f = f i := by
  induction order with
  | nil => cases hi
  | cons j order ih =>
    obtain ⟨hNew, hNodup⟩ := List.nodup_cons.mp hNodup
    rw [List.flatMap_cons]
    rcases eq_or_ne j i with rfl | hNe
    · have hRest : order.flatMap f = [] :=
        List.flatMap_eq_nil_iff.mpr fun k hk => hOther k (ne_of_mem_of_not_mem hk hNew)
      rw [hRest, List.append_nil]
    · have hLater : i ∈ order := (List.mem_cons.mp hi).resolve_left hNe.symm
      rw [hOther j hNe, List.nil_append, ih hNodup hLater]

/-- Entries that contribute nothing may be left out. -/
theorem flatMap_filter_of_nil {p : β → Bool} {f : β → List γ} {log : List β}
    (h : ∀ b ∈ log, p b = false → f b = []) : (log.filter p).flatMap f = log.flatMap f := by
  induction log with
  | nil => rfl
  | cons b log ih =>
    have hRest := ih fun b' hb => h b' (List.mem_cons_of_mem b hb)
    cases hp : p b with
    | true => rw [List.filter_cons_of_pos hp, List.flatMap_cons, List.flatMap_cons, hRest]
    | false =>
      rw [List.filter_cons_of_neg (by simp [hp]), List.flatMap_cons, h b List.mem_cons_self hp, List.nil_append,
        hRest]

variable [DecidableEq ι]

section Serve

theorem foldl_turn (hNodup : order.Nodup) (s : Shared σ β) (a : α) :
    (∀ i, (order.foldl (B.turn a) s).states i =
        if i ∈ order then B.step i (s.states i) a else s.states i) ∧
      (order.foldl (B.turn a) s).log =
        s.log ++ order.flatMap fun i => B.emit i (s.states i) a := by
  induction order generalizing s with
  | nil => simp
  | cons j order ih =>
    obtain ⟨hNew, hNodup⟩ := List.nodup_cons.mp hNodup
    obtain ⟨hStates, hLog⟩ := ih hNodup (B.turn a s j)
    have hOther : ∀ i ∈ order, (B.turn a s j).states i = s.states i := fun i hi =>
      Function.update_of_ne (ne_of_mem_of_not_mem hi hNew) _ _
    constructor
    · intro i
      rw [List.foldl_cons, hStates i]
      rcases eq_or_ne i j with rfl | hNe
      · rw [if_neg hNew, if_pos List.mem_cons_self]
        exact Function.update_self _ _ _
      · have hSame : (B.turn a s j).states i = s.states i := Function.update_of_ne hNe _ _
        simp only [hSame, List.mem_cons, hNe, false_or]
    · have hEmits : (order.flatMap fun i => B.emit i ((B.turn a s j).states i) a) =
          order.flatMap fun i => B.emit i (s.states i) a :=
        List.flatMap_congr fun i hi => by rw [hOther i hi]
      rw [List.foldl_cons, hLog, hEmits, List.flatMap_cons, turn, List.append_assoc]

theorem serve_states (hOrder : Turns order) (s : Shared σ β) (a : α) (i : ι) :
    (B.serve order s a).states i = B.step i (s.states i) a :=
  ((foldl_turn hOrder.nodup s a).1 i).trans (if_pos (hOrder.all i))

theorem serve_log (hOrder : Turns order) (s : Shared σ β) (a : α) :
    (B.serve order s a).log = s.log ++ order.flatMap fun i => B.emit i (s.states i) a :=
  (foldl_turn hOrder.nodup s a).2

variable {owner : α → Option ι}

theorem serve_owned (hOrder : Turns order) (hOwned : B.Owned owner) (s : Shared σ β) (a : α) :
    B.serve order s a = (owner a).elim s (B.turn a s) := by
  cases hOwner : owner a with
  | none =>
    have hIdle := fun i => hOwned i (s.states i) a (by simp [hOwner])
    apply Shared.ext
    · exact fun i => (serve_states hOrder s a i).trans (hIdle i).1
    · rw [serve_log hOrder, List.flatMap_eq_nil_iff.mpr fun i _ => (hIdle i).2, List.append_nil]
      rfl
  | some i =>
    have hIdle := fun j (hNe : j ≠ i) => hOwned j (s.states j) a
      (by rw [hOwner]; exact fun h => hNe (Option.some.inj h).symm)
    apply Shared.ext
    · intro j
      rw [serve_states hOrder]
      rcases eq_or_ne j i with rfl | hNe
      · exact (Function.update_self _ _ _).symm
      · exact (hIdle j hNe).1.trans (Function.update_of_ne hNe _ _).symm
    · rw [serve_log hOrder, flatMap_eq_of_single hOrder.nodup (hOrder.all i) fun j hNe => (hIdle j hNe).2]
      rfl

/-- The order of the turns cannot be told from states and log. -/
theorem run_eq_of_owned (hOrder : Turns order) (hOrder' : Turns order') (hOwned : B.Owned owner)
    (s : Shared σ β) (as : List α) : B.run order s as = B.run order' s as := by
  induction as generalizing s with
  | nil => rfl
  | cons a as ih =>
    change B.run order (B.serve order s a) as = B.run order' (B.serve order' s a) as
    rw [serve_owned hOrder hOwned, serve_owned hOrder' hOwned, ih]

end Serve

section Run

omit [DecidableEq ι] in
theorem emitted_cons (i : ι) (x : σ i) (a : α) (as : List α) :
    B.emitted i x (a :: as) = B.emit i x a ++ B.emitted i (B.step i x a) as := rfl

theorem run_states (hOrder : Turns order) (s : Shared σ β) (as : List α) (i : ι) :
    (B.run order s as).states i = as.foldl (B.step i) (s.states i) := by
  induction as generalizing s with
  | nil => rfl
  | cons a as ih =>
    change (B.run order (B.serve order s a) as).states i = _
    rw [ih, serve_states hOrder, List.foldl_cons]

theorem run_append (as bs : List α) :
    B.run order s (as ++ bs) = B.run order (B.run order s as) bs := by
  simp [run]

/-- What a selection takes from one machine only can be read off the log. -/
theorem flatMap_log {i : ι} {select : β → List γ} (hOrder : Turns order)
    (hOther : ∀ j, j ≠ i → ∀ b ∈ B.emitted j (s.states j) as, select b = []) :
    (B.run order s as).log.flatMap select =
      s.log.flatMap select ++ (B.emitted i (s.states i) as).flatMap select := by
  induction as generalizing s with
  | nil => simp [run, emitted]
  | cons a as ih =>
    have hFirst : (order.flatMap fun j => B.emit j (s.states j) a).flatMap select =
        (B.emit i (s.states i) a).flatMap select := by
      rw [List.flatMap_assoc]
      apply flatMap_eq_of_single hOrder.nodup (hOrder.all i)
      exact fun j hNe => List.flatMap_eq_nil_iff.mpr fun b hb =>
        hOther j hNe b (List.mem_append_left _ hb)
    have hRest : (B.run order (B.serve order s a) as).log.flatMap select =
        (B.serve order s a).log.flatMap select ++
          (B.emitted i ((B.serve order s a).states i) as).flatMap select := by
      apply ih
      intro j hNe b hb
      rw [serve_states hOrder] at hb
      exact hOther j hNe b (List.mem_append_right _ hb)
    change (B.run order (B.serve order s a) as).log.flatMap select = _
    rw [hRest, serve_states hOrder, serve_log hOrder, List.flatMap_append, hFirst, emitted,
      List.flatMap_append, List.append_assoc]

theorem filter_log {i : ι} {p : β → Bool} (hOrder : Turns order)
    (hOther : ∀ j, j ≠ i → ∀ b ∈ B.emitted j (s.states j) as, p b = false) :
    (B.run order s as).log.filter p = s.log.filter p ++ (B.emitted i (s.states i) as).filter p := by
  simp only [← List.filterMap_eq_filter, List.filterMap_eq_flatMap_toList]
  apply flatMap_log hOrder
  intro j hNe b hb
  simp [hOther j hNe b hb]

theorem mem_log {b : β} (hOrder : Turns order) :
    b ∈ (B.run order s as).log ↔ b ∈ s.log ∨ ∃ i, b ∈ B.emitted i (s.states i) as := by
  induction as generalizing s with
  | nil => simp [run, emitted]
  | cons a as ih =>
    change b ∈ (B.run order (B.serve order s a) as).log ↔ _
    simp only [ih, serve_states hOrder, serve_log hOrder, emitted, List.mem_append, List.mem_flatMap]
    constructor
    · rintro ((hOld | ⟨i, -, hEmit⟩) | ⟨i, hLater⟩)
      · exact .inl hOld
      · exact .inr ⟨i, .inl hEmit⟩
      · exact .inr ⟨i, .inr hLater⟩
    · rintro (hOld | ⟨i, hEmit | hLater⟩)
      · exact .inl (.inl hOld)
      · exact .inl (.inr ⟨i, hOrder.all i, hEmit⟩)
      · exact .inr ⟨i, hLater⟩

end Run

section Load

variable {size : (i : ι) → σ i → Nat} {owner : α → Option ι} {cost : α → Nat} {Inv : (i : ι) → σ i → Prop}

/-- What was emitted so far, and what the machines keep back. -/
def load (order : List ι) (size : (i : ι) → σ i → Nat) (s : Shared σ β) : Nat :=
  s.log.length + (order.map fun i => size i (s.states i)).sum

end Load
section Alike

variable {Alike : (i : ι) → σ i → σ i → Prop} {Inv : (i : ι) → σ i → Prop} {Settles : ι → α → Prop}
  {t : Shared σ β}

/-- States that are alike stay so on the same inputs, and the same is emitted. -/
theorem run_alike (hOrder : Turns order)
    (hStep : ∀ i x y a, Alike i x y → Alike i (B.step i x a) (B.step i y a) ∧ B.emit i x a = B.emit i y a)
    (h : ∀ i, Alike i (s.states i) (t.states i)) (as : List α) :
    (∀ i, Alike i ((B.run order s as).states i) ((B.run order t as).states i)) ∧
      ∃ sent, (B.run order s as).log = s.log ++ sent ∧ (B.run order t as).log = t.log ++ sent := by
  induction as generalizing s t with
  | nil => exact ⟨h, [], (List.append_nil _).symm, (List.append_nil _).symm⟩
  | cons a as ih =>
    have hNext : ∀ i, Alike i ((B.serve order s a).states i) ((B.serve order t a).states i) := by
      intro i
      rw [serve_states hOrder, serve_states hOrder]
      exact (hStep i _ _ a (h i)).1
    have hEmit : (order.flatMap fun i => B.emit i (t.states i) a) =
        order.flatMap fun i => B.emit i (s.states i) a :=
      List.flatMap_congr fun i _ => (hStep i _ _ a (h i)).2.symm
    obtain ⟨hStates, sent, hs, ht⟩ := ih hNext
    rw [serve_log hOrder, List.append_assoc] at hs ht
    rw [hEmit] at ht
    exact ⟨hStates, _, hs, ht⟩

omit [DecidableEq ι] in
/-- One settling input is enough, wherever it comes. -/
theorem foldl_settles {i : ι} {x y : σ i} (hKeep : ∀ x a, Inv i x → Inv i (B.step i x a))
    (hStep : ∀ x y a, Alike i x y → Alike i (B.step i x a) (B.step i y a))
    (hSettle : ∀ x y a, Inv i x → Inv i y → Settles i a → Alike i (B.step i x a) (B.step i y a))
    (hx : Inv i x) (hy : Inv i y) (h : ∃ a ∈ as, Settles i a) :
    Alike i (as.foldl (B.step i) x) (as.foldl (B.step i) y) := by
  obtain ⟨a, ha, hSettles⟩ := h
  obtain ⟨before, after, rfl⟩ := List.append_of_mem ha
  have hBefore : ∀ x, Inv i x → Inv i (before.foldl (B.step i) x) := fun x hx =>
    List.foldlRecOn before (B.step i) hx fun x hx a _ => hKeep x a hx
  have hSettled := hSettle _ _ a (hBefore x hx) (hBefore y hy) hSettles
  simp only [List.foldl_append, List.foldl_cons]
  generalize B.step i (before.foldl (B.step i) x) a = x', B.step i (before.foldl (B.step i) y) a = y' at hSettled
  clear ha
  induction after generalizing x' y' with
  | nil => exact hSettled
  | cons b after ih => exact ih _ _ (hStep x' y' b hSettled)

end Alike

end Bank
