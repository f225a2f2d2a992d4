import YadroSnmp.Data.Locality
import YadroSnmp.Data.SameRow

/-! # Signals that are delivered again

A map that a row has taken already leaves it as it is when it comes once more,
and so does every map of an announcement in which no property is given twice.
A row that stays as it is sends nothing, so the second delivery goes unnoticed.
-/

namespace YadroSnmp

open Table KeyedList

/-- No property is in both maps. -/
def FieldsMap.Apart (map map' : FieldsMap) : Prop :=
  ∀ property, map.find? property = none ∨ map'.find? property = none

/-- What a row class has to keep for this: a map, also a refused one, sets the
fields of its properties only, repeats itself, and sends a trap for a change only. -/
structure RowClass.Repeats {Row : Type} (R : RowClass Row) : Prop where
  keep : ∀ f ∈ R.fields, ∀ row map, map.find? f.property = none →
    f.get (R.setFields row map).row = f.get row
  again : ∀ row map, (R.setFields (R.setFields row map).row map).row = (R.setFields row map).row
  quiet : ∀ row map, (R.setFields row map).row = row → (R.setFields row map).traps = []

namespace RowClass

variable {Row : Type} {R : RowClass Row} {row : Row} {map map' : FieldsMap}

theorem keep_of_normal {f : Field Row} (hf : f ∈ R.fields) (hNormal : (R.setFields row map).raised = none)
    (hNone : map.find? f.property = none) : f.get (R.setFields row map).row = f.get row := by
  rw [R.assigned f hf row map hNormal, hNone, Option.bind_none, Option.getD_none]

theorem again_of_normal (hNormal : ¬ R.refused map) :
    (R.setFields (R.setFields row map).row map).row = (R.setFields row map).row := by
  have hRaised : ∀ row, (R.setFields row map).raised = none := fun row => (R.raised_iff row map).mpr hNormal
  apply R.ext
  · rw [R.core_setFields]
  · intro f hf
    rw [R.assigned f hf _ map (hRaised _), R.assigned f hf row map (hRaised row)]
    cases (map.find? f.property).bind f.decode with
    | none => rfl
    | some value => rfl

/-- What the row took from a map stays when another map sets other properties. -/
theorem Repeats.settled (h : R.Repeats) (hNormal : ¬ R.refused map) (hApart : map.Apart map')
    (hSettled : (R.setFields row map).row = row) :
    (R.setFields (R.setFields row map').row map).row = (R.setFields row map').row := by
  have hRaised : ∀ row, (R.setFields row map).raised = none := fun row => (R.raised_iff row map).mpr hNormal
  apply R.ext
  · rw [R.core_setFields]
  · intro f hf
    rcases hApart f.property with hNone | hNone
    · exact keep_of_normal hf (hRaised _) hNone
    · have hRow := R.assigned f hf row map (hRaised row)
      rw [Field.Assigned, hSettled] at hRow
      rw [R.assigned f hf _ map (hRaised _), h.keep f hf row map' hNone]
      exact hRow.symm

end RowClass

namespace Table

variable {Row : Type} {R : RowClass Row} {T : Config} {n : Str} {maps : List FieldsMap} {row row' : Row}

/-- The maps take `row` to `row'` and leave `row'` as it is, silently, when they come again. -/
structure FillsAgain (R : RowClass Row) (n : Str) (maps : List FieldsMap) (row row' : Row) : Prop where
  first : ∀ history, ((View.mk (some row) history).fill R.toItemClass n maps).1.row = some row'
  again : ∀ history, ∃ calls, ((View.mk (some row') history).fill R.toItemClass n maps).1 =
    ⟨some row', history ++ calls⟩ ∧ calls.flatMap Event.traps = []
  settled : ∀ map, ¬ R.refused map → (∀ map' ∈ maps, map.Apart map') → (R.setFields row map).row = row →
    (R.setFields row' map).row = row'

theorem FillsAgain.nil (row : Row) : FillsAgain R n [] row row where
  first _ := rfl
  again history := ⟨[], congrArg (View.mk (some row)) (List.append_nil history).symm, rfl⟩
  settled _ _ _ hSettled := hSettled

theorem exists_fillsAgain (h : R.Repeats) (hApart : maps.Pairwise FieldsMap.Apart) (row : Row) :
    ∃ row', FillsAgain R n maps row row' := by
  induction maps generalizing row with
  | nil => exact ⟨row, .nil row⟩
  | cons map maps ih =>
    obtain ⟨hHead, hTail⟩ := List.pairwise_cons.mp hApart
    have hAgain := h.again row map
    cases hRaised : (R.setFields row map).raised with
    | some e =>
      -- a refused map is refused again, and nothing after it is delivered
      have hRefused : ∀ row', (R.setFields row' map).raised ≠ none := fun row' hNone => by
        rw [(R.raised_iff row map).mpr ((R.raised_iff row' map).mp hNone)] at hRaised
        cases hRaised
      obtain ⟨e', hRaised'⟩ := Option.ne_none_iff_exists'.mp (hRefused (R.setFields row map).row)
      refine ⟨(R.setFields row map).row, fun history => ?_, fun history => ?_, ?_⟩
      · simp [View.fill, View.raises, View.setFields, hRaised]
      · refine ⟨[⟨n, .setFields map, []⟩], ?_, rfl⟩
        simp [View.fill, View.raises, View.setFields, hRaised', hAgain, h.quiet _ _ hAgain]
      · intro map' hNormal hOther hSettled
        exact h.settled hNormal (hOther map List.mem_cons_self) hSettled
    | none =>
      have hNormal : ¬ R.refused map := (R.raised_iff row map).mp hRaised
      obtain ⟨row', hFill⟩ := ih hTail (R.setFields row map).row
      have hStays := hFill.settled map hNormal hHead hAgain
      have hRaised' : (R.setFields row' map).raised = none := (R.raised_iff row' map).mpr hNormal
      refine ⟨row', fun history => ?_, fun history => ?_, ?_⟩
      · simp only [View.fill, View.raises, Option.bind_some, hRaised, View.setFields]
        exact hFill.first _
      · obtain ⟨calls, hView, hSilent⟩ := hFill.again (history ++ [⟨n, .setFields map, []⟩])
        refine ⟨⟨n, .setFields map, []⟩ :: calls, ?_, hSilent⟩
        simp only [View.fill, View.raises, Option.bind_some, hRaised', View.setFields, hStays,
          h.quiet _ _ hStays]
        rw [hView, List.append_assoc]
        rfl
      · intro map' hNormal' hOther hSettled
        obtain ⟨hThis, hOthers⟩ := List.forall_mem_cons.mp hOther
        exact hFill.settled map' hNormal' hOthers (h.settled hNormal' hThis hSettled)

/-- Signals in which no property is given twice. -/
def Message.Repeatable : Message → Prop
  | .update _ _ => False
  | .interfacesAdded (.ok (_, data)) => DisjointProperties data
  | _ => True

theorem DisjointProperties.apart {data : AddedData} (h : DisjointProperties data) :
    data.maps.Pairwise FieldsMap.Apart := by
  have hKeys := data.keys_nodup
  rw [OrdMap.keys, List.Nodup, List.pairwise_map] at hKeys
  refine List.pairwise_map.mpr (hKeys.imp_of_mem fun {e e'} he he' hNe property => ?_)
  by_contra hBoth
  rw [not_or] at hBoth
  have hMem : ∀ map : FieldsMap, map.find? property ≠ none → property ∈ map.keys := fun map hFound =>
    OrdMap.find?_isSome_iff.mp (Option.isSome_iff_ne_none.mpr hFound)
  exact h e he e' he' hNe property (hMem _ hBoth.1) (hMem _ hBoth.2)

theorem receive_again (h : R.Repeats) {m : Message} (hm : m.Repeatable) (v : View Row) :
    ∃ calls, ((v.receive R.toItemClass T n m).1.receive R.toItemClass T n m).1 =
        ⟨(v.receive R.toItemClass T n m).1.row, (v.receive R.toItemClass T n m).1.history ++ calls⟩ ∧
      calls.flatMap Event.traps = [] := by
  have hSame : ∀ w : View Row, w = ⟨w.row, w.history ++ []⟩ := fun w => by rw [List.append_nil]
  cases m with
  | update => exact hm.elim
  | interfacesAdded r =>
    cases r with
    | error => exact ⟨[], hSame v, rfl⟩
    | ok body =>
      simp only [View.receive]
      split
      · obtain ⟨row', hFill⟩ := exists_fillsAgain (n := n) h (DisjointProperties.apart hm)
          (v.row.getD (R.make T.path n))
        have hOpened : v.getItem R.toItemClass T n =
            ⟨some (v.row.getD (R.make T.path n)), (v.getItem R.toItemClass T n).history⟩ :=
          congrArg (View.mk · _) View.row_getItem
        rw [hOpened]
        have hRow := hFill.first (v.getItem R.toItemClass T n).history
        generalize ((View.mk (some (v.row.getD (R.make T.path n)))
          (v.getItem R.toItemClass T n).history).fill R.toItemClass n body.2.maps).1 = w at hRow
        obtain ⟨calls, hView, hSilent⟩ := hFill.again w.history
        refine ⟨calls, ?_, hSilent⟩
        rw [View.getItem_of_isSome (by rw [hRow]; rfl), hRow, ← hView, ← hRow]
      · exact ⟨[], hSame v, rfl⟩
  | interfacesRemoved r =>
    simp only [View.receive]
    split
    · rw [View.dropItem_dropItem]
      exact ⟨[], hSame _, rfl⟩
    · exact ⟨[], hSame v, rfl⟩
  | propertiesChanged path r =>
    cases r with
    | error => exact ⟨[], hSame v, rfl⟩
    | ok fields =>
      cases hRow : v.row with
      | none =>
        have hIgnored : v.setFields R.toItemClass n fields = v := by simp [View.setFields, hRow]
        simp only [View.receive, hIgnored]
        exact ⟨[], hSame v, rfl⟩
      | some row =>
        refine ⟨[⟨n, .setFields fields, []⟩], ?_, rfl⟩
        have hAgain := h.again row fields
        simp [View.receive, View.setFields, hRow, hAgain, h.quiet _ _ hAgain]

theorem Message.Repeatable.signal {m : Message} (hm : m.Repeatable) :
    ∀ subtree getAll, m ≠ .update subtree getAll := by
  rintro subtree getAll rfl
  exact hm

theorem Message.Repeatable.about {m : Message} (hm : m.Repeatable) (path : Str) : (m.about path).Repeatable := by
  cases m with
  | update => exact hm
  | interfacesAdded r =>
    cases r with
    | error => trivial
    | ok body => exact hm
  | interfacesRemoved r => trivial
  | propertiesChanged path r => trivial

variable {s t : State Row}

/-- A signal that comes again while the rows it concerns are as it left them
changes no row and sends no trap. -/
theorem handle_again (h : R.Repeats) (hs : Sorted R.name s.items) (ht : Sorted R.name t.items)
    {m : Message} (hm : m.Repeatable)
    (hLeft : ∀ n, m.Concerns T n →
      t.view R.toItemClass n = (handle R.toItemClass T s m).state.view R.toItemClass n) :
    (handle R.toItemClass T t m).state.items = t.items ∧
      (handle R.toItemClass T t m).state.log.flatMap Event.traps = t.log.flatMap Event.traps := by
  have hViews : ∀ n, ∃ calls, (handle R.toItemClass T t m).state.view R.toItemClass n =
      ⟨(t.view R.toItemClass n).row, (t.view R.toItemClass n).history ++ calls⟩ ∧
        calls.flatMap Event.traps = [] := by
    intro n
    rcases Decidable.em (m.Concerns T n) with hConcerns | hNot
    · rw [view_of_concerns ht hConcerns hm.signal, hLeft n hConcerns,
        view_of_concerns hs hConcerns hm.signal]
      exact receive_again h (hm.about _) _
    · rw [view_of_not_concerns ht hNot]
      exact ⟨[], by rw [List.append_nil], rfl⟩
  have hAdvance := handle_advance (T := T) ht m
  obtain ⟨events, hLog, -⟩ := hAdvance.calls
  constructor
  · refine hAdvance.sorted.ext ht fun n => ?_
    obtain ⟨calls, hView, -⟩ := hViews n
    exact congrArg View.row hView
  · have hQuiet : ∀ e ∈ events, e.traps = [] := by
      intro e he
      obtain ⟨calls, hView, hSilent⟩ := hViews e.name
      have hHistory : (handle R.toItemClass T t m).state.history e.name = t.history e.name ++ calls :=
        congrArg View.history hView
      rw [State.history, hLog, List.filter_append, State.history, List.append_cancel_left_eq] at hHistory
      have hMem : e ∈ calls := hHistory ▸ List.mem_filter.mpr ⟨he, by simp⟩
      exact List.flatMap_eq_nil_iff.mp hSilent e hMem
    rw [hLog, List.flatMap_append, List.flatMap_eq_nil_iff.mpr hQuiet, List.append_nil]

end Table

end YadroSnmp
