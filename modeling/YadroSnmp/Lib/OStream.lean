import Mathlib.Data.List.Basic
import Mathlib.Tactic.Common

/-! # Writing to a file that may run out of room

Once a write did not fit, the stream is bad and later writes do nothing. The
file then holds the beginning of what was written.
-/

structure OStream (α : Type*) where
  content : List α
  room : Option Nat
  bad : Bool

namespace OStream

variable {α : Type*} {room : Option Nat} {total bytes : List α} {out : OStream α}

def opened (α : Type*) (room : Option Nat) : OStream α := ⟨[], room, false⟩

def put (out : OStream α) (bytes : List α) : OStream α :=
  if out.bad then out
  else
    match out.room with
    | none => { out with content := out.content ++ bytes }
    | some k =>
      if bytes.length ≤ k then
        { out with content := out.content ++ bytes, room := some (k - bytes.length) }
      else { content := out.content ++ bytes.take k, room := some 0, bad := true }

def fitting (room : Option Nat) (total : List α) : List α :=
  match room with
  | none => total
  | some k => total.take k

/-- The part that fits is all of the text, or a beginning of it that fills the room. -/
theorem fitting_eq_iff {kept : List α} :
    fitting room total = kept ↔
      kept <+: total ∧
        (room = some kept.length ∨ kept = total ∧ ∀ k, room = some k → total.length ≤ k) := by
  cases room with
  | none =>
    constructor
    · rintro rfl
      exact ⟨List.prefix_rfl, .inr ⟨rfl, nofun⟩⟩
    · rintro ⟨-, hNone | ⟨hAll, -⟩⟩
      · cases hNone
      · exact hAll.symm
  | some k =>
    constructor
    · rintro rfl
      refine ⟨List.take_prefix k total, ?_⟩
      rcases Nat.le_total k total.length with hLe | hLe
      · left
        rw [fitting, List.length_take_of_le hLe]
      · right
        refine ⟨List.take_of_length_le hLe, ?_⟩
        rintro _ ⟨⟩
        exact hLe
    · rintro ⟨hPrefix, hFull | ⟨rfl, hFits⟩⟩
      · rw [Option.some.inj hFull]
        exact (List.prefix_iff_eq_take.mp hPrefix).symm
      · exact List.take_of_length_le (hFits k rfl)

theorem fitting_eq_self_iff : fitting room total = total ↔ ∀ k, room = some k → total.length ≤ k := by
  rw [fitting_eq_iff]
  constructor
  · rintro ⟨-, hFull | ⟨-, hFits⟩⟩
    · intro k hk
      rw [hFull] at hk
      exact Nat.le_of_eq (Option.some.inj hk)
    · exact hFits
  · exact fun h => ⟨List.prefix_rfl, .inr ⟨rfl, h⟩⟩

theorem fitting_append_eq_iff {a : α} :
    fitting room (total ++ [a]) ++ [a] = total ++ [a] ↔ room = some total.length := by
  rw [List.append_left_inj, fitting_eq_iff]
  constructor
  · rintro ⟨-, hFull | ⟨hSame, -⟩⟩
    · exact hFull
    · simp at hSame
  · exact fun h => ⟨List.prefix_append total [a], .inl h⟩

/-- The stream was opened with this room and `total` was written to it. -/
inductive Wrote : Option Nat → List α → OStream α → Prop
  | unlimited {total : List α} : Wrote none total ⟨total, none, false⟩
  | good {k : Nat} {total : List α} : total.length ≤ k →
      Wrote (some k) total ⟨total, some (k - total.length), false⟩
  | bad {k : Nat} {total : List α} : k ≤ total.length → Wrote (some k) total ⟨total.take k, some 0, true⟩

theorem wrote_opened : Wrote room ([] : List α) (opened α room) := by
  cases room with
  | none => exact .unlimited
  | some k => exact .good (Nat.zero_le k)

theorem Wrote.put (h : Wrote room total out) (bytes : List α) :
    Wrote room (total ++ bytes) (out.put bytes) := by
  cases h with
  | unlimited => exact .unlimited
  | @good k _ hLe =>
    simp only [OStream.put, Bool.false_eq_true, if_false]
    split
    · rename_i hFits
      have hRoom : k - total.length - bytes.length = k - (total ++ bytes).length := by
        rw [List.length_append]
        omega
      rw [hRoom]
      apply Wrote.good
      rw [List.length_append]
      omega
    · rename_i hFull
      have hTake : total ++ bytes.take (k - total.length) = (total ++ bytes).take k := by
        rw [List.take_append, List.take_of_length_le hLe]
      rw [hTake]
      apply Wrote.bad
      rw [List.length_append]
      omega
  | @bad k _ hLe =>
    have hTake : total.take k = (total ++ bytes).take k := (List.take_append_of_le_length hLe).symm
    simp only [OStream.put, if_true]
    rw [hTake]
    apply Wrote.bad
    rw [List.length_append]
    omega

theorem Wrote.content_eq (h : Wrote room total out) : out.content = fitting room total := by
  cases h with
  | unlimited => rfl
  | good hLe => exact (List.take_of_length_le hLe).symm
  | bad => rfl

end OStream
