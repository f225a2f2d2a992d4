import YadroSnmp.Lib.Componentwise
import YadroSnmp.Data.Raising

/-! # What one row depends on

The messages that concern a name are the refreshes of the table and the signals
from whose path the table cuts that name. The row and the history of the name
depend on nothing else: not on the other rows, and not on what is in between.
-/

namespace YadroSnmp.Table

open KeyedList Componentwise

variable {Row : Type}

/-- The handlers take the path for one of the folder and cut the name out of it. -/
def CutsTo (T : Config) (path n : Str) : Prop :=
  T.path <+: path ∧ T.path.length < path.length ∧ rowName T path = n

instance (T : Config) (path n : Str) : Decidable (CutsTo T path n) :=
  inferInstanceAs (Decidable (_ ∧ _))

def Message.Concerns (T : Config) (n : Str) : Message → Prop
  | .update _ _ => True
  | .interfacesAdded (.error _) => False
  | .interfacesAdded (.ok (path, _)) => CutsTo T path n
  | .interfacesRemoved m => CutsTo T (callMethodAndRead m).1 n
  | .propertiesChanged path _ => path = objectPath T n

instance (T : Config) (n : Str) : DecidablePred (Message.Concerns T n)
  | .update _ _ => inferInstanceAs (Decidable True)
  | .interfacesAdded (.error _) => inferInstanceAs (Decidable False)
  | .interfacesAdded (.ok (path, _)) => inferInstanceAs (Decidable (CutsTo T path n))
  | .interfacesRemoved m => inferInstanceAs (Decidable (CutsTo T (callMethodAndRead m).1 n))
  | .propertiesChanged path _ => inferInstanceAs (Decidable (path = objectPath T n))

def Message.about (path : Str) : Message → Message
  | .update subtree getAll => .update subtree getAll
  | .interfacesAdded (.error filled) => .interfacesAdded (.error filled)
  | .interfacesAdded (.ok (_, data)) => .interfacesAdded (.ok (path, data))
  | .interfacesRemoved m => .interfacesRemoved (.ok (path, (callMethodAndRead m).2))
  | .propertiesChanged _ m => .propertiesChanged path m

variable {I : ItemClass Row} {T : Config} {n : Str} {s s' t t' : State Row}

section Paths

variable {path : Str} (h : T.path.length < path.length)
include h

theorem substr_path : Str.substr path (T.path.length + 1) = some (rowName T path) := if_pos h

theorem getItem_path : getItem I T s path = getItem I T s (objectPath T (rowName T path)) := by
  have hLength := path_length_lt_objectPath (T := T) (rowName T path)
  rw [getItem, getItem, substr_path h, substr_path hLength, rowName_objectPath]

theorem dropItem_path : dropItem I T s path = dropItem I T s (objectPath T (rowName T path)) := by
  have hLength := path_length_lt_objectPath (T := T) (rowName T path)
  rw [dropItem, dropItem, substr_path h, substr_path hLength, rowName_objectPath]

end Paths

section Signals

theorem CutsTo.startsWith {path : Str} (h : CutsTo T path n) : Str.startsWith path T.path = true :=
  Str.startsWith_iff.mpr h.1

theorem startsWith_objectPath (n : Str) : Str.startsWith (objectPath T n) T.path = true :=
  Str.startsWith_iff.mpr (path_prefix_objectPath n)

/-- A handler takes a signal that concerns a name for one about the object of the name. -/
theorem handle_about {m : Message} (h : m.Concerns T n) :
    handle I T s m = handle I T s (m.about (objectPath T n)) := by
  cases m with
  | update => rfl
  | interfacesAdded r =>
    cases r with
    | error => rfl
    | ok body =>
      have hCut : CutsTo T body.1 n := h
      obtain rfl := hCut.2.2
      simp only [handle, Message.about, onInterfacesAdded, hCut.startsWith, startsWith_objectPath,
        getItem_path hCut.2.1]
  | interfacesRemoved r =>
    have hCut : CutsTo T (callMethodAndRead r).1 n := h
    have hRead : ∀ body : Str × List Str, callMethodAndRead (.ok body) = body := fun _ => rfl
    obtain rfl := hCut.2.2
    simp only [handle, Message.about, onInterfacesRemoved, hRead, hCut.startsWith, startsWith_objectPath,
      dropItem_path hCut.2.1]
  | propertiesChanged path r =>
    obtain rfl : path = objectPath T n := h
    rfl

theorem object_about {m : Message} (h : m.Concerns T n) (hSignal : ∀ subtree getAll, m ≠ .update subtree getAll)
    (path : Str) : (m.about path).object = some path := by
  cases m with
  | update subtree getAll => exact absurd rfl (hSignal subtree getAll)
  | interfacesAdded r =>
    cases r with
    | error => cases h
    | ok body => rfl
  | interfacesRemoved r => rfl
  | propertiesChanged path r => rfl

theorem view_of_concerns {m : Message} (hs : Sorted I.name s.items) (h : m.Concerns T n)
    (hSignal : ∀ subtree getAll, m ≠ .update subtree getAll) :
    (handle I T s m).state.view I n = ((s.view I n).receive I T n (m.about (objectPath T n))).1 := by
  rw [handle_about h]
  exact (handle_view hs (object_about h hSignal _)).1.self

theorem concerns_of_touched {m : Message} (h : n ∈ touched T m) : m.Concerns T n := by
  cases m with
  | update => trivial
  | interfacesAdded r =>
    cases r with
    | error => cases h
    | ok body => exact ⟨h.1, h.2.2.1, h.2.2.2.symm⟩
  | interfacesRemoved r => exact ⟨h.1, h.2.2.1, h.2.2.2.symm⟩
  | propertiesChanged path r => exact h.symm

theorem view_of_not_concerns (hs : Sorted I.name s.items) {m : Message} (h : ¬ m.Concerns T n) :
    (handle I T s m).state.view I n = s.view I n := by
  obtain ⟨hRow, hHistory⟩ := (handle_advance (T := T) hs m).frame fun hTouched => h (concerns_of_touched hTouched)
  rw [State.view, hRow, hHistory, State.view]

end Signals

section Refresh

structure Alike (I : ItemClass Row) (n : Str) (s t : State Row) : Prop where
  left : Sorted I.name s.items
  right : Sorted I.name t.items
  view : s.view I n = t.view I n

theorem Alike.only {p : Str} (act : View Row → View Row) (h : Alike I n s t)
    (hs : Only I p (act (s.view I p)) s s') (ht : Only I p (act (t.view I p)) t t') : Alike I n s' t' := by
  refine ⟨hs.sorted, ht.sorted, ?_⟩
  rcases eq_or_ne n p with rfl | hNe
  · rw [hs.self, ht.self, h.view]
  · rw [hs.other n hNe, ht.other n hNe, h.view]

/-- Loops that keep two tables alike and raise in the same rounds. -/
theorem forEach_alike {β : Type} {body : State Row → β → Outcome Row} {l : List β}
    (hBody : ∀ s t, ∀ b ∈ l, Alike I n s t →
      Alike I n (body s b).state (body t b).state ∧ ((body s b).raised = none ↔ (body t b).raised = none))
    (h : Alike I n s t) :
    Alike I n (forEach body l s).state (forEach body l t).state ∧
      ((forEach body l s).raised = none ↔ (forEach body l t).raised = none) := by
  induction l generalizing s t with
  | nil => exact ⟨h, Iff.rfl⟩
  | cons b l ih =>
    obtain ⟨hAlike, hRaised⟩ := hBody s t b List.mem_cons_self h
    simp only [forEach, Outcome.andThen]
    cases hs : (body s b).raised with
    | none =>
      rw [hRaised.mp hs]
      exact ih (fun s t b hb => hBody s t b (List.mem_cons_of_mem _ hb)) hAlike
    | some e =>
      have hBoth : (body t b).raised ≠ none := fun ht => by simp [hRaised.mpr ht] at hs
      obtain ⟨e', ht⟩ := Option.ne_none_iff_exists'.mp hBoth
      rw [ht]
      exact ⟨hAlike, by simp [hs, ht]⟩

variable {R : RowClass Row}

theorem refresh_normal_iff (v : View Row) (replies : List FieldsMap) :
    (v.refresh R.toItemClass T n replies).2 = none ↔ ∀ map ∈ replies, ¬ R.refused map := by
  unfold View.refresh
  split
  · rename_i hNil
    simp [hNil]
  · exact fill_normal_iff View.isSome_getItem

theorem services_alike {getAll : (service path : Str) → Read FieldsMap} {pi : Str × OrdMap Str (List Str)}
    (h : Alike R.toItemClass n s t) :
    let body := fun (s : State Row) (bi : Str × List Str) =>
      match getItem R.toItemClass T s pi.1 with
      | .error e => ⟨s, some e⟩
      | .ok (s, it) => setFieldsAt R.toItemClass s it (callMethodAndRead (getAll bi.1 pi.1))
    Alike R.toItemClass n (forEach body pi.2.entries s).state (forEach body pi.2.entries t).state ∧
      ((forEach body pi.2.entries s).raised = none ↔ (forEach body pi.2.entries t).raised = none) := by
  intro body
  rcases Nat.lt_or_ge T.path.length pi.1.length with hLength | hShort
  · have hBody : body = fun s bi =>
        match getItem R.toItemClass T s (objectPath T (rowName T pi.1)) with
        | .error e => ⟨s, some e⟩
        | .ok (s, it) => setFieldsAt R.toItemClass s it (callMethodAndRead (getAll bi.1 pi.1)) := by
      funext s bi
      simp only [body, getItem_path hLength]
    obtain ⟨hs, hsRaised⟩ := refreshLoop_view (T := T)
      (fun bi : Str × List Str => callMethodAndRead (getAll bi.1 pi.1)) pi.2.entries h.left (rowName T pi.1)
    obtain ⟨ht, htRaised⟩ := refreshLoop_view (T := T)
      (fun bi : Str × List Str => callMethodAndRead (getAll bi.1 pi.1)) pi.2.entries h.right (rowName T pi.1)
    rw [hBody]
    have hLeft := (Eq.congr_left hsRaised).trans (refresh_normal_iff _ _)
    have hRight := (Eq.congr_left htRaised).trans (refresh_normal_iff _ _)
    exact ⟨h.only (fun v => (v.refresh R.toItemClass T (rowName T pi.1) _).1) hs ht,
      hLeft.trans hRight.symm⟩
  · have hBody : ∀ (s : State Row) bi, body s bi = ⟨s, some .outOfRange⟩ := fun s bi => by
      simp only [body, getItem_short (I := R.toItemClass) (s := s) hShort]
    refine forEach_alike (fun s t bi _ hAlike => ?_) h
    rw [hBody, hBody]
    exact ⟨hAlike, Iff.rfl⟩

theorem pruneLoop_alike (h : Alike I n s t) (data : Objects) :
    Alike I n (pruneLoop I T data s.items.length 0 s) (pruneLoop I T data t.items.length 0 t) := by
  have hNone : ∀ u : State Row, ∀ row ∈ u.items.take 0, data.contains (objectPath T (I.name row)) = true := by
    simp
  refine ⟨(pruneLoop_advance (T := T) h.left data _ 0).sorted,
    (pruneLoop_advance (T := T) h.right data _ 0).sorted, ?_⟩
  rw [pruneLoop_view s.items.length 0 h.left (by omega) (hNone s),
    pruneLoop_view t.items.length 0 h.right (by omega) (hNone t), h.view]

theorem update_alike (h : Alike R.toItemClass n s t) (subtree : Read Objects)
    (getAll : (service path : Str) → Read FieldsMap) :
    Alike R.toItemClass n (update R.toItemClass T s subtree getAll).state
      (update R.toItemClass T t subtree getAll).state :=
  (forEach_alike (fun _ _ _ _ hAlike => services_alike hAlike) (pruneLoop_alike h _)).1

end Refresh

variable {R : RowClass Row}

theorem view_handle_congr (hs : Sorted R.name s.items) (ht : Sorted R.name t.items)
    (hSame : s.view R.toItemClass n = t.view R.toItemClass n) (m : Message) :
    (handle R.toItemClass T s m).state.view R.toItemClass n =
      (handle R.toItemClass T t m).state.view R.toItemClass n := by
  rcases Decidable.em (m.Concerns T n) with hConcerns | hNot
  · cases m with
    | update subtree getAll => exact (update_alike ⟨hs, ht, hSame⟩ subtree getAll).view
    | _ => rw [view_of_concerns hs hConcerns (by simp), view_of_concerns ht hConcerns (by simp), hSame]
  · rw [view_of_not_concerns hs hNot, view_of_not_concerns ht hNot, hSame]

theorem view_run_of_not_concerns (hs : Sorted I.name s.items) {ms : List Message}
    (h : ∀ m ∈ ms, ¬ m.Concerns T n) : (run I T s ms).view I n = s.view I n := by
  induction ms generalizing s with
  | nil => rfl
  | cons m ms ih =>
    obtain ⟨hFirst, hRest⟩ := List.forall_mem_cons.mp h
    exact (ih (handle_advance hs m).sorted hRest).trans (view_of_not_concerns hs hFirst)

theorem view_depends (R : RowClass Row) (T : Config) (n : Str) :
    Depends (fun s m => (handle R.toItemClass T s m).state) (fun s => s.view R.toItemClass n)
      (Message.Concerns T n) (fun s => Sorted R.name s.items) where
  inv _ m hs := (handle_advance hs m).sorted
  congr _ _ m hs ht hSame := view_handle_congr hs ht hSame m
  other _ _ hs hNot := view_of_not_concerns hs hNot

/-- Two runs with the same messages about a name hold the same about it. -/
theorem view_run_eq (R : RowClass Row) (T : Config) (n : Str) {ms ms' : List Message}
    (hSame : (ms.filter fun m => m.Concerns T n) = ms'.filter fun m => m.Concerns T n) :
    (run R.toItemClass T initial ms).view R.toItemClass n =
      (run R.toItemClass T initial ms').view R.toItemClass n :=
  (view_depends R T n).see_eq_of_filter_eq initial_sorted hSame

end YadroSnmp.Table
