import YadroSnmp.Data.Raising
import YadroSnmp.Data.SameRow

/-! # What a table keeps of its past

Two things forget. The log is only written, so what a table does next follows
from its rows. And a refresh that brings every field of every object leaves
rows in which nothing of the rows before is left.
-/

namespace YadroSnmp.Table

open Snmp KeyedList Labelled

variable {Row : Type}

section Log

variable {I : ItemClass Row} {T : Config} (log : List Event)

/-- The same rows, with a log before the log. -/
def State.after (s : State Row) : State Row := ⟨s.items, log ++ s.log⟩

def Outcome.after (o : Outcome Row) : Outcome Row := ⟨o.state.after log, o.raised⟩

@[simp] theorem State.items_after (s : State Row) : (s.after log).items = s.items := rfl

@[simp] theorem Outcome.raised_after (o : Outcome Row) : (o.after log).raised = o.raised := rfl

theorem emplaceAt_after (s : State Row) (it : Nat) (name : Str) :
    emplaceAt I T (s.after log) it name = (emplaceAt I T s it name).after log := by
  simp [emplaceAt, State.after]

theorem setFieldsAt_after (s : State Row) (it : Nat) (fields : FieldsMap) :
    setFieldsAt I (s.after log) it fields = (setFieldsAt I s it fields).after log := by
  rw [setFieldsAt, setFieldsAt, State.items_after]
  cases s.items[it]? with
  | none => rfl
  | some item => simp [Outcome.after, State.after]

theorem dropAt_after (s : State Row) (it : Nat) : dropAt I (s.after log) it = (dropAt I s it).after log := by
  rw [dropAt, dropAt, State.items_after]
  cases s.items[it]? with
  | none => rfl
  | some item => simp [State.after]

theorem getItem_after (s : State Row) (path : Str) :
    getItem I T (s.after log) path = (getItem I T s path).map fun found => (found.1.after log, found.2) := by
  unfold getItem
  cases Str.substr path (T.path.length + 1) with
  | none => rfl
  | some name =>
    dsimp only
    rw [emplaceAt_after, State.items_after]
    split
    · rfl
    · rfl

theorem pruneLoop_after (data : Objects) (rounds it : Nat) (s : State Row) :
    pruneLoop I T data rounds it (s.after log) = (pruneLoop I T data rounds it s).after log := by
  induction rounds generalizing it s with
  | zero => rfl
  | succ rounds ih =>
    rw [pruneLoop, pruneLoop, State.items_after]
    cases s.items[it]? with
    | none => rfl
    | some item =>
      dsimp only
      split
      · exact ih (it + 1) s
      · rw [dropAt_after, ih it]

theorem forEach_after {β : Type} {body : State Row → β → Outcome Row}
    (hBody : ∀ s b, body (s.after log) b = (body s b).after log) (l : List β) (s : State Row) :
    forEach body l (s.after log) = (forEach body l s).after log := by
  induction l generalizing s with
  | nil => rfl
  | cons b l ih =>
    rw [forEach, forEach, hBody, Outcome.andThen, Outcome.andThen, Outcome.raised_after]
    cases (body s b).raised with
    | some e => rfl
    | none => exact ih (body s b).state

theorem update_after (s : State Row) (subtree : Read Objects) (getAll : (service path : Str) → Read FieldsMap) :
    update I T (s.after log) subtree getAll = (update I T s subtree getAll).after log := by
  unfold update
  dsimp only
  rw [pruneLoop_after]
  refine forEach_after log (fun s pi => forEach_after log (fun s bi => ?_) _ s) _ _
  rw [getItem_after]
  cases getItem I T s pi.1 with
  | error e => rfl
  | ok found => exact setFieldsAt_after log _ _ _

theorem dropItem_after (s : State Row) (path : Str) :
    dropItem I T (s.after log) path = (dropItem I T s path).after log := by
  unfold dropItem
  cases Str.substr path (T.path.length + 1) with
  | none => rfl
  | some name =>
    dsimp only
    rw [dropAt_after, State.items_after]
    split
    · rfl
    · rfl

theorem onInterfacesAdded_after (s : State Row) (m : Read (Str × AddedData)) :
    onInterfacesAdded I T (s.after log) m = (onInterfacesAdded I T s m).after log := by
  cases m with
  | error => rfl
  | ok body =>
    obtain ⟨path, data⟩ := body
    unfold onInterfacesAdded
    dsimp only
    split
    · rw [getItem_after]
      cases getItem I T s path with
      | error e => rfl
      | ok found => exact forEach_after log (fun s item => setFieldsAt_after log s found.2 item.2) _ _
    · rfl

/-- A handler reads the rows, and only adds to the log. -/
theorem handle_after (s : State Row) (m : Message) :
    handle I T (s.after log) m = (handle I T s m).after log := by
  cases m with
  | update subtree getAll => exact update_after log s subtree getAll
  | interfacesAdded m => exact onInterfacesAdded_after log s m
  | interfacesRemoved m =>
    rw [handle, handle, onInterfacesRemoved, onInterfacesRemoved]
    dsimp only
    split
    · exact dropItem_after log s _
    · rfl
  | propertiesChanged path m =>
    cases m with
    | error => rfl
    | ok fields => simp [handle, onPropertiesChanged, Outcome.after, State.after]

/-- Tables with the same rows make the same calls on the same message. -/
theorem handle_of_items {s t : State Row} (h : s.items = t.items) (m : Message) :
    (handle I T s m).state.items = (handle I T t m).state.items ∧
      (handle I T s m).state.log.drop s.log.length = (handle I T t m).state.log.drop t.log.length := by
  have hSelf : ∀ u : State Row, u = State.after u.log ⟨u.items, []⟩ := fun u => by
    rw [State.after, List.append_nil]
  have hHandle : ∀ u : State Row, handle I T u m = (handle I T ⟨u.items, []⟩ m).after u.log := fun u =>
    (congrArg (handle I T · m) (hSelf u)).trans (handle_after u.log _ m)
  rw [hHandle s, hHandle t, h]
  exact ⟨rfl, by simp [Outcome.after, State.after]⟩

end Log

section Refresh

variable {R : RowClass Row} {T : Config} {s t : State Row} {data : Objects}
  {getAll : (service path : Str) → Read FieldsMap}

/-- The replies have every field of each object of the answer, and none is refused. -/
structure Complete (R : RowClass Row) (T : Config) (data : Objects)
    (getAll : (service path : Str) → Read FieldsMap) : Prop where
  paths : ∀ path ∈ data.keys, ∃ n, path = objectPath T n
  hosted : ∀ e ∈ data.entries, e.2.entries ≠ []
  accepted : ∀ path ∈ data.keys, ∀ map ∈ replies data getAll path, ¬ R.refused map
  fields : ∀ path ∈ data.keys, ∀ f ∈ R.fields, (f.last (replies data getAll path)).isSome

structure Built (R : RowClass Row) (T : Config) (s : State Row) : Prop where
  sorted : Sorted R.name s.items
  core : ∀ n, ∀ row ∈ s.row R.toItemClass n, R.core row = R.core (R.make T.path n)

theorem Built.advance {names : Set Str} (h : Built R T s) (hAdvance : Advance R.toItemClass T names s t) :
    Built R T t := by
  refine ⟨hAdvance.sorted, fun n => ?_⟩
  obtain ⟨calls, -, hRun⟩ := hAdvance.slot_run n
  refine hRun.preserves (P := fun row => ∀ r ∈ row, R.core r = R.core (R.make T.path n)) ?_ (h.core n)
  intro row e row' hRow hStep r hr
  cases hStep with
  | create =>
    cases hr
    rfl
  | setFields row fields =>
    cases hr
    rw [R.core_setFields]
    exact hRow row rfl
  | destroy => cases hr

theorem Built.handle (h : Built R T s) (m : Message) : Built R T (handle R.toItemClass T s m).state :=
  h.advance (handle_advance h.sorted m)

theorem forEach_normal {β : Type} {body : State Row → β → Outcome Row} {P : State Row → Prop} {l : List β}
    (hBody : ∀ s, ∀ b ∈ l, P s → P (body s b).state ∧ (body s b).raised = none) (hs : P s) :
    (forEach body l s).raised = none := by
  induction l generalizing s with
  | nil => rfl
  | cons b l ih =>
    obtain ⟨hNext, hNormal⟩ := hBody s b List.mem_cons_self hs
    rw [forEach, Outcome.andThen, hNormal]
    exact ih (fun s b hb => hBody s b (List.mem_cons_of_mem _ hb)) hNext

theorem Complete.normal (h : Complete R T data getAll) (hs : Sorted R.name s.items) :
    (update R.toItemClass T s (.ok data) getAll).raised = none := by
  have hPruned : Sorted R.name (pruneLoop R.toItemClass T data s.items.length 0 s).items :=
    (pruneLoop_advance (T := T) hs data _ 0).sorted
  refine forEach_normal (P := fun s => Sorted R.name s.items) (fun s e he hs => ?_) hPruned
  have he : e ∈ data.entries := he
  obtain ⟨n, hPath⟩ := h.paths e.1 (List.mem_map_of_mem he)
  have hReplies : replies data getAll e.1 = e.2.entries.map fun bi => callMethodAndRead (getAll bi.1 e.1) := by
    rw [replies, OrdMap.find?_of_mem he]
  have hAccepted := h.accepted e.1 (List.mem_map_of_mem he)
  obtain ⟨hOnly, hRaised⟩ := refreshLoop_view (I := R.toItemClass) (T := T)
    (fun bi : Str × List Str => callMethodAndRead (getAll bi.1 e.1)) e.2.entries hs n
  rw [← hReplies] at hRaised
  rw [← hPath] at hOnly hRaised
  refine ⟨hOnly.sorted, hRaised.trans ?_⟩
  rw [View.refresh]
  split
  · rfl
  · exact (fill_normal_iff View.isSome_getItem).mpr hAccepted

/-- The rows after a complete refresh are those of the answer, whatever the rows were. -/
theorem Complete.items_eq (h : Complete R T data getAll) (hs : Built R T s) (ht : Built R T t) :
    (update R.toItemClass T s (.ok data) getAll).state.items =
      (update R.toItemClass T t (.ok data) getAll).state.items := by
  have hSorted : ∀ u, Sorted R.name u.items → Sorted R.name (update R.toItemClass T u (.ok data) getAll).state.items :=
    fun u hu => (update_advance (T := T) hu (.ok data) getAll).sorted
  refine (hSorted s hs.sorted).ext (hSorted t ht.sorted) fun n => ?_
  by_cases hKey : objectPath T n ∈ data.keys
  · have hHosted : replies data getAll (objectPath T n) ≠ [] := replies_ne_nil h.hosted hKey
    obtain ⟨row, calls, hView, hDelivered⟩ := update_delivers hs.sorted h.paths (h.normal hs.sorted) hKey hHosted
    obtain ⟨row', calls', hView', hDelivered'⟩ := update_delivers ht.sorted h.paths (h.normal ht.sorted) hKey hHosted
    have hCore : ∀ u, Built R T u → R.core ((u.row R.toItemClass n).getD (R.make T.path n)) =
        R.core (R.make T.path n) := by
      intro u hu
      cases hRow : u.row R.toItemClass n with
      | none => rfl
      | some row => exact hu.core n row hRow
    have hSame : row = row' := by
      refine R.ext row row' ?_ fun f hf => ?_
      · rw [core_delivered hDelivered, core_delivered hDelivered', hCore s hs, hCore t ht]
      · obtain ⟨value, hValue⟩ := Option.isSome_iff_exists.mp (h.fields _ hKey f hf)
        rw [hDelivered.fields f hf, hDelivered'.fields f hf, hValue]
        rfl
    exact (congrArg View.row hView).trans ((congrArg some hSame).trans (congrArg View.row hView').symm)
  · have hGone : ∀ u, Sorted R.name u.items →
        (update R.toItemClass T u (.ok data) getAll).state.row R.toItemClass n = none := by
      intro u hu
      have hView := update_view hu h.paths (h.normal hu) n
      rw [if_neg fun hFound => hKey (OrdMap.contains_iff.mp hFound)] at hView
      exact (congrArg View.row hView).trans View.row_dropItem
    exact (hGone s hs.sorted).trans (hGone t ht.sorted).symm

end Refresh

end YadroSnmp.Table
