import YadroSnmp.Lib.OrdMap

/-! # Partial updates of a map

`overlay` writes one map over another; `latest` looks a key up in a sequence of
updates that are applied in order.
-/

namespace OrdMap

open KeyedList

variable {κ α : Type*} [LinearOrder κ] {m u : OrdMap κ α} {ms ms' : List (OrdMap κ α)} {k : κ} {v : α}

def emplaceAll (m : OrdMap κ α) (l : List (κ × α)) : OrdMap κ α :=
  l.foldl (fun m e => m.emplace e.1 e.2) m

/-- The entries of `u`, and those of `m` for the other keys. -/
def overlay (m u : OrdMap κ α) : OrdMap κ α := u.emplaceAll m.entries

def latest : List (OrdMap κ α) → κ → Option α
  | [], _ => none
  | m :: ms, k => (latest ms k).or (m.find? k)

theorem find?_emplaceAll (m : OrdMap κ α) (l : List (κ × α)) (k : κ) :
    (m.emplaceAll l).find? k = (m.find? k).or ((find Prod.fst l k).map Prod.snd) := by
  induction l generalizing m with
  | nil => simp [emplaceAll, find]
  | cons e l ih =>
    have hStep : (m.emplaceAll (e :: l)).find? k = ((m.emplace e.1 e.2).emplaceAll l).find? k := rfl
    rw [hStep, ih, find?_emplace]
    by_cases hk : k = e.1
    · subst hk
      cases hOld : m.find? e.1 <;> simp [find]
    · simp [find, hk, Ne.symm hk]

@[simp] theorem find?_overlay (m u : OrdMap κ α) (k : κ) :
    (m.overlay u).find? k = (u.find? k).or (m.find? k) :=
  find?_emplaceAll u m.entries k

@[simp] theorem latest_nil : latest ([] : List (OrdMap κ α)) k = none := rfl

@[simp] theorem latest_cons : latest (m :: ms) k = (latest ms k).or (m.find? k) := rfl

@[simp] theorem latest_append : latest (ms ++ ms') k = (latest ms' k).or (latest ms k) := by
  induction ms with
  | nil => simp
  | cons m ms ih => rw [List.cons_append, latest_cons, ih, latest_cons, Option.or_assoc]

end OrdMap
