import Mathlib.Data.List.Lex
import Mathlib.Tactic.Common

/-! # Byte strings

Strings are lists of bytes, ordered lexicographically by unsigned byte value.
The searches return `none` where the position of the C++ library is `npos`,
and `substr` is partial exactly where the library raises `out_of_range`.
-/

instance instLinearOrderByte : LinearOrder UInt8 where
  le_refl := UInt8.le_refl
  le_trans _ _ _ := UInt8.le_trans
  le_antisymm _ _ := UInt8.le_antisymm
  le_total := UInt8.le_total
  lt_iff_le_not_ge a b := by
    rw [UInt8.lt_iff_toNat_lt, UInt8.le_iff_toNat_le, UInt8.le_iff_toNat_le]
    omega
  toDecidableLE := inferInstance
  toDecidableEq := inferInstance
  toDecidableLT := inferInstance

abbrev Str := List UInt8

namespace Str

def lit (s : String) : Str := s.toUTF8.data.toList

/-- `s.substr(pos)`. -/
def substr (s : Str) (pos : Nat) : Option Str := if pos ≤ s.length then some (s.drop pos) else none

/-- `0 == s.compare(0, base.length(), base)`. -/
def startsWith (s base : Str) : Bool := s.take base.length == base

def findFirst (p : UInt8 → Bool) (s : Str) (pos : Nat) : Option Nat :=
  ((s.drop pos).findIdx? p).map (· + pos)

def findLast (p : UInt8 → Bool) (s : Str) : Option Nat :=
  (s.reverse.findIdx? p).map fun i => s.length - 1 - i

theorem startsWith_iff {s base : Str} : startsWith s base = true ↔ base <+: s := by
  rw [startsWith, beq_iff_eq, List.prefix_iff_eq_take, eq_comm]

theorem findIdx?_eq_some_iff {p : UInt8 → Bool} {s : Str} {i : Nat} :
    s.findIdx? p = some i ↔
      ∃ before b after, s = before ++ b :: after ∧ (∀ c ∈ before, p c = false) ∧ p b = true ∧
        i = before.length := by
  constructor
  · intro h
    obtain ⟨hi, hb, hBefore⟩ := List.findIdx?_eq_some_iff_getElem.mp h
    refine ⟨s.take i, s[i], s.drop (i + 1), ?_, ?_, hb, (List.length_take_of_le hi.le).symm⟩
    · rw [List.getElem_cons_drop, List.take_append_drop]
    · intro c hc
      obtain ⟨j, hj, rfl⟩ := List.mem_take_iff_getElem.mp hc
      exact Bool.eq_false_iff.mpr (hBefore j (by omega))
  · rintro ⟨before, b, after, rfl, hBefore, hb, rfl⟩
    induction before with
    | nil => simp [List.findIdx?_cons, hb]
    | cons c before ih =>
      have hc : p c = false := hBefore c List.mem_cons_self
      have hRest := ih fun d hd => hBefore d (List.mem_cons_of_mem c hd)
      simp [List.findIdx?_cons, hc, hRest]

theorem findFirst_eq_some_iff {p : UInt8 → Bool} {s : Str} {pos i : Nat} :
    findFirst p s pos = some i ↔
      ∃ before b after, s.drop pos = before ++ b :: after ∧ (∀ c ∈ before, p c = false) ∧ p b = true ∧
        i = pos + before.length := by
  simp only [findFirst, Option.map_eq_some_iff, findIdx?_eq_some_iff]
  constructor
  · rintro ⟨_, ⟨before, b, after, hs, hBefore, hb, rfl⟩, rfl⟩
    exact ⟨before, b, after, hs, hBefore, hb, Nat.add_comm _ _⟩
  · rintro ⟨before, b, after, hs, hBefore, hb, rfl⟩
    exact ⟨before.length, ⟨before, b, after, hs, hBefore, hb, rfl⟩, Nat.add_comm _ _⟩

theorem findLast_eq_some_iff {p : UInt8 → Bool} {s : Str} {i : Nat} :
    findLast p s = some i ↔
      ∃ before b after, s = before ++ b :: after ∧ p b = true ∧ (∀ c ∈ after, p c = false) ∧
        i = before.length := by
  simp only [findLast, Option.map_eq_some_iff, findIdx?_eq_some_iff]
  constructor
  · rintro ⟨_, ⟨before, b, after, hs, hBefore, hb, rfl⟩, rfl⟩
    have hRev : s = after.reverse ++ b :: before.reverse := by
      rw [← List.reverse_reverse s, hs]
      simp
    refine ⟨after.reverse, b, before.reverse, hRev, hb, by simpa using hBefore, ?_⟩
    rw [hRev]
    simp
  · rintro ⟨before, b, after, rfl, hb, hAfter, rfl⟩
    refine ⟨after.length, ⟨after.reverse, b, before.reverse, by simp, by simpa using hAfter, hb,
      by simp⟩, ?_⟩
    simp

end Str
