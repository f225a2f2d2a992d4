import YadroSnmp.Lib.KeyedList

/-! # Ordered finite maps

A map is its list of entries in strictly increasing key order, so the order of
iteration is part of the value.
-/

structure OrdMap (κ α : Type*) [LinearOrder κ] where
  entries : List (κ × α)
  sorted : KeyedList.Sorted Prod.fst entries

namespace OrdMap

open KeyedList

variable {κ α : Type*} [LinearOrder κ] {m m' : OrdMap κ α} {k : κ} {v : α}

instance [DecidableEq α] : DecidableEq (OrdMap κ α) := fun m m' =>
  decidable_of_iff (m.entries = m'.entries)
    ⟨fun h => by cases m; cases m'; cases h; rfl, congrArg entries⟩

def empty : OrdMap κ α := ⟨[], .nil⟩

instance : EmptyCollection (OrdMap κ α) := ⟨empty⟩
instance : Inhabited (OrdMap κ α) := ⟨empty⟩

def find? (m : OrdMap κ α) (k : κ) : Option α := (find Prod.fst m.entries k).map Prod.snd

def contains (m : OrdMap κ α) (k : κ) : Bool := (m.find? k).isSome

def keys (m : OrdMap κ α) : List κ := m.entries.map Prod.fst

/-- Insertion that keeps an existing entry. -/
def emplace (m : OrdMap κ α) (k : κ) (v : α) : OrdMap κ α :=
  if h : find Prod.fst m.entries k = none then
    ⟨m.entries.insertIdx (position Prod.fst m.entries k) (k, v), m.sorted.insert (r := (k, v)) h⟩
  else m

def ofList (l : List (κ × α)) : OrdMap κ α := l.foldl (fun m e => m.emplace e.1 e.2) empty

/-- `map.erase(it)` -/
def eraseAt (m : OrdMap κ α) (it : Nat) : OrdMap κ α := ⟨m.entries.eraseIdx it, m.sorted.erase it⟩

theorem contains_iff : m.contains k = true ↔ k ∈ m.keys := by
  simp [contains, find?, find_isSome_iff, keys]

theorem keys_nodup (m : OrdMap κ α) : m.keys.Nodup := m.sorted.keys_nodup

theorem find?_of_mem {e : κ × α} (h : e ∈ m.entries) : m.find? e.1 = some e.2 := by
  rw [find?, m.sorted.find_key h, Option.map_some]

theorem find?_eq_some_iff : m.find? k = some v ↔ (k, v) ∈ m.entries := by
  constructor
  · intro h
    obtain ⟨e, hFind, rfl⟩ := Option.map_eq_some_iff.mp h
    obtain ⟨hMem, rfl⟩ := m.sorted.find_eq_some_iff.mp hFind
    exact hMem
  · exact find?_of_mem

theorem find?_isSome_iff : (m.find? k).isSome ↔ k ∈ m.keys := contains_iff

theorem find?_eraseAt {it : Nat} (hi : m.entries[it]? = some (k, v)) (k' : κ) :
    (m.eraseAt it).find? k' = if k' = k then none else m.find? k' := by
  rw [find?, eraseAt, m.sorted.find_erase hi]
  split
  · rfl
  · rfl

theorem find?_emplace (m : OrdMap κ α) (k k' : κ) (v : α) :
    (m.emplace k v).find? k' =
      if k' = k then some ((m.find? k).getD v) else m.find? k' := by
  unfold emplace
  split
  · rename_i hNew
    rw [find?, m.sorted.find_insert (r := (k, v)) hNew]
    split <;> simp [find?, hNew]
  · rename_i hOld
    obtain ⟨e, hFind⟩ := Option.ne_none_iff_exists'.mp hOld
    split
    · rename_i hk
      simp [find?, hk, hFind]
    · rfl

end OrdMap
