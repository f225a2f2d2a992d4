import Mathlib.Data.Set.Basic
import YadroSnmp.Data.Slot

/-! # The table refines a family of independent slots

`Advance` says that a stretch of execution kept the rows sorted and that, for
every name, the calls it logged under that name are a run of the name's slot.
It composes, so each function of the table is covered by its primitive edits.
-/

namespace YadroSnmp.Table

open Snmp KeyedList Labelled

variable {Row : Type} (I : ItemClass Row) (T : Config)

/-- From `s` to `t`, calls were made only on rows named in `names`, and each
slot made the steps logged under its name. -/
structure Advance (names : Set Str) (s t : State Row) : Prop where
  sorted : Sorted I.name t.items
  calls : ∃ events, t.log = s.log ++ events ∧ (∀ e ∈ events, e.name ∈ names) ∧
    ∀ n, Run (Slot.Step I T.path n) (s.row I n) (events.filter fun e => e.name = n) (t.row I n)

variable {I T} {names names' : Set Str} {s t u : State Row}

namespace Advance

theorem refl (hs : Sorted I.name s.items) : Advance I T names s s :=
  ⟨hs, [], by simp, by simp, fun n => .nil _⟩

theorem trans (h : Advance I T names s t) (h' : Advance I T names t u) : Advance I T names s u := by
  obtain ⟨events, hLog, hNames, hRun⟩ := h.calls
  obtain ⟨events', hLog', hNames', hRun'⟩ := h'.calls
  refine ⟨h'.sorted, events ++ events', by rw [hLog', hLog, List.append_assoc], ?_, ?_⟩
  · intro e he
    exact (List.mem_append.mp he).elim (hNames e) (hNames' e)
  · intro n
    rw [List.filter_append]
    exact (hRun n).append (hRun' n)

theorem mono (hLe : names ⊆ names') (h : Advance I T names s t) : Advance I T names' s t := by
  obtain ⟨events, hLog, hNames, hRun⟩ := h.calls
  exact ⟨h.sorted, events, hLog, fun e he => hLe (hNames e he), hRun⟩

theorem of_event {e : Event} (hSorted : Sorted I.name t.items) (hLog : t.log = s.log ++ [e])
    (hStep : Slot.Step I T.path e.name (s.row I e.name) e (t.row I e.name))
    (hFrame : ∀ n, n ≠ e.name → t.row I n = s.row I n) : Advance I T {e.name} s t := by
  refine ⟨hSorted, [e], hLog, ?_, ?_⟩
  · intro e' he'
    rw [List.mem_singleton.mp he']
    rfl
  · intro n
    by_cases hn : e.name = n
    · subst hn
      simpa using Run.single hStep
    · simpa [hn] using hFrame n (Ne.symm hn)

theorem slot_run (h : Advance I T names s t) (n : Str) :
    ∃ events, t.history n = s.history n ++ events ∧
      Run (Slot.Step I T.path n) (s.row I n) events (t.row I n) := by
  obtain ⟨events, hLog, -, hRun⟩ := h.calls
  exact ⟨_, by rw [State.history, hLog, List.filter_append, State.history], hRun n⟩

theorem frame (h : Advance I T names s t) {n : Str} (hn : n ∉ names) :
    t.row I n = s.row I n ∧ t.history n = s.history n := by
  obtain ⟨events, hLog, hNames, hRun⟩ := h.calls
  have hNone : (events.filter fun e => e.name = n) = [] := by
    refine List.filter_eq_nil_iff.mpr fun e he hEq => hn ?_
    simpa [of_decide_eq_true hEq] using hNames e he
  have hRun := hRun n
  rw [hNone, Run.nil_iff] at hRun
  exact ⟨hRun, by rw [State.history, hLog, List.filter_append, hNone, List.append_nil, State.history]⟩

theorem eq_of_empty (hs : Sorted I.name s.items) (h : Advance I T ∅ s t) : t = s := by
  obtain ⟨events, hLog, hNames, -⟩ := h.calls
  have hEvents : events = [] :=
    List.eq_nil_iff_forall_not_mem.mpr fun e he => (hNames e he).elim
  have hItems : t.items = s.items :=
    h.sorted.ext hs fun n => (h.frame (Set.notMem_empty n)).1
  rw [hEvents, List.append_nil] at hLog
  cases s
  cases t
  cases hItems
  cases hLog
  rfl

end Advance

section Primitive

variable {item : Row} {it : Nat}

theorem emplaceAt_advance {n : Str} (hs : Sorted I.name s.items) (hNew : s.row I n = none) :
    Advance I T {n} s (emplaceAt I T s (position I.name s.items n) n) := by
  have hName : I.name (I.make T.path n) = n := I.name_make T.path n
  have hFind : find I.name s.items (I.name (I.make T.path n)) = none := by rwa [hName]
  have hSorted := hs.insert hFind
  have hRow := hs.find_insert hFind
  rw [hName] at hSorted
  simp only [hName] at hRow
  refine Advance.of_event (e := ⟨n, .onCreate, I.onCreate (I.make T.path n)⟩) hSorted rfl ?_ ?_
  · have hAfter : (emplaceAt I T s (position I.name s.items n) n).row I n = some (I.make T.path n) :=
      (hRow n).trans (if_pos rfl)
    rw [hNew, hAfter]
    exact .create
  · intro m hm
    exact (hRow m).trans (if_neg hm)

theorem row_of_getElem (hs : Sorted I.name s.items) (hi : s.items[it]? = some item) :
    s.row I (I.name item) = some item :=
  hs.find_key (List.mem_of_getElem? hi)

theorem setFieldsAt_eq (hi : s.items[it]? = some item) (fields : FieldsMap) :
    setFieldsAt I s it fields =
      { state :=
          { items := s.items.set it (I.setFields item fields).row
            log := s.log ++ [⟨I.name item, .setFields fields, (I.setFields item fields).traps⟩] }
        raised := (I.setFields item fields).raised } := by
  simp [setFieldsAt, hi]

theorem setFieldsAt_advance (hs : Sorted I.name s.items) (hi : s.items[it]? = some item)
    (fields : FieldsMap) :
    Advance I T {I.name item} s (setFieldsAt I s it fields).state := by
  rw [setFieldsAt_eq hi]
  have hName := I.name_setFields item fields
  have hRow := hs.find_set hi hName
  refine Advance.of_event
    (e := ⟨I.name item, .setFields fields, (I.setFields item fields).traps⟩)
    (hs.set hi hName) rfl ?_ ?_
  · rw [row_of_getElem hs hi, State.row, hRow, if_pos rfl]
    exact .setFields item fields
  · intro m hm
    exact (hRow m).trans (if_neg hm)

theorem dropAt_eq (hi : s.items[it]? = some item) :
    dropAt I s it =
      { items := s.items.eraseIdx it
        log := s.log ++ [⟨I.name item, .onDestroy, I.onDestroy item⟩] } := by
  simp [dropAt, hi]

theorem dropAt_advance (hs : Sorted I.name s.items) (hi : s.items[it]? = some item) :
    Advance I T {I.name item} s (dropAt I s it) := by
  rw [dropAt_eq hi]
  have hRow := hs.find_erase hi
  refine Advance.of_event (e := ⟨I.name item, .onDestroy, I.onDestroy item⟩) (hs.erase it) rfl ?_ ?_
  · rw [row_of_getElem hs hi, State.row, hRow, if_pos rfl]
    exact .destroy item
  · intro m hm
    exact (hRow m).trans (if_neg hm)

end Primitive

end YadroSnmp.Table
