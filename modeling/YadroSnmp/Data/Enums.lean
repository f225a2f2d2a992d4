import YadroSnmp.Data.Item

/-! # Enumerations sent as strings

A D-Bus enumeration value is its type name, a dot and the value name. The
reader compares the type name and then skips one byte, whatever it is and
whether it is there.
-/

namespace YadroSnmp

structure DBusEnum (α : Type) where
  base : Str
  values : OrdMap Str α
  wrongValue : α

/-- `DBusEnum::get`; the dot is skipped without a look at it. -/
def DBusEnum.get {α : Type} (e : DBusEnum α) (str : Str) : Except Exc α :=
  if Str.startsWith str e.base then
    match Str.substr str (e.base.length + 1) with
    | none => .error .outOfRange
    | some name => .ok ((e.values.find? name).getD e.wrongValue)
  else .ok e.wrongValue

def dot : UInt8 := '.'.toUInt8

namespace DBusEnum

variable {α : Type} (e : DBusEnum α)

/-- The value of the name after the type name and a dot; the wrong value for every other string. -/
def Decodes (str : Str) (value : α) : Prop :=
  (∃ name, str = e.base ++ dot :: name ∧ e.values.find? name = some value) ∨
    (∀ name, str = e.base ++ dot :: name → e.values.find? name = none) ∧ value = e.wrongValue

variable {e} {str : Str}

theorem get_base : e.get e.base = .error .outOfRange := by
  have hPrefix : Str.startsWith e.base e.base = true := Str.startsWith_iff.mpr List.prefix_rfl
  have hShort : Str.substr e.base (e.base.length + 1) = none := if_neg (by omega)
  simp [get, hPrefix, hShort]

theorem get_append (c : UInt8) (name : Str) :
    e.get (e.base ++ c :: name) = .ok ((e.values.find? name).getD e.wrongValue) := by
  have hPrefix : Str.startsWith (e.base ++ c :: name) e.base = true :=
    Str.startsWith_iff.mpr (List.prefix_append _ _)
  have hName : Str.substr (e.base ++ c :: name) (e.base.length + 1) = some name := by
    rw [Str.substr, if_pos (by simp), ← List.drop_drop, List.drop_left]
    rfl
  simp [get, hPrefix, hName]

theorem get_of_not_prefix (h : ¬ e.base <+: str) : e.get str = .ok e.wrongValue := by
  rw [get, if_neg]
  rwa [Str.startsWith_iff]

theorem get_ok_iff : (∃ value, e.get str = .ok value) ↔ str ≠ e.base := by
  by_cases hPrefix : e.base <+: str
  · obtain ⟨rest, rfl⟩ := hPrefix
    cases rest with
    | nil => simp [get_base]
    | cons c name => simp [get_append]
  · refine iff_of_true ⟨_, get_of_not_prefix hPrefix⟩ ?_
    rintro rfl
    exact hPrefix List.prefix_rfl

theorem decodes_append {c : UInt8} {name : Str} {value : α} :
    e.Decodes (e.base ++ c :: name) value ↔
      if c = dot then value = (e.values.find? name).getD e.wrongValue else value = e.wrongValue := by
  simp only [Decodes, List.append_cancel_left_eq, List.cons.injEq]
  split
  · rename_i hc
    cases hFind : e.values.find? name with
    | none => simp [hc, hFind]
    | some v => simp [hc, hFind, eq_comm]
  · rename_i hc
    simp [hc]

theorem decodes_of_not_prefix (h : ¬ e.base <+: str) : e.Decodes str e.wrongValue := by
  refine .inr ⟨fun name hStr => absurd ?_ h, rfl⟩
  rw [hStr]
  exact List.prefix_append _ _

/-- `get` decodes every string but the bare type name and a known name after a byte that is no dot. -/
theorem get_decodes_iff (e : DBusEnum α) (str : Str) :
    (∃ value, e.get str = .ok value ∧ e.Decodes str value) ↔
      str ≠ e.base ∧ ∀ c name, str = e.base ++ c :: name → c ≠ dot →
        e.values.find? name = none ∨ e.values.find? name = some e.wrongValue := by
  by_cases hPrefix : e.base <+: str
  · obtain ⟨rest, rfl⟩ := hPrefix
    cases rest with
    | nil => simp [get_base]
    | cons c name =>
      have hOther : ∀ found : Option α,
          found.getD e.wrongValue = e.wrongValue ↔ found = none ∨ found = some e.wrongValue := by
        intro found
        cases found <;> simp
      simp only [get_append, decodes_append, Except.ok.injEq, exists_eq_left', ne_eq,
        List.append_right_eq_self, reduceCtorEq, not_false_eq_true, true_and,
        List.append_cancel_left_eq, List.cons.injEq, and_imp]
      constructor
      · rintro h _ _ rfl rfl hc
        rw [if_neg hc] at h
        exact (hOther _).mp h
      · intro h
        split
        · trivial
        · rename_i hc
          exact (hOther _).mpr (h c name rfl rfl hc)
  · refine iff_of_true ⟨_, get_of_not_prefix hPrefix, decodes_of_not_prefix hPrefix⟩ ⟨?_, ?_⟩
    · rintro rfl
      exact hPrefix List.prefix_rfl
    · rintro c name rfl
      exact absurd (List.prefix_append _ _) hPrefix

end DBusEnum

end YadroSnmp
