import YadroSnmp.Data.RowNames
import YadroSnmp.Data.Session

/-! # The exact effect of the handlers on one name

A view is what the table holds about one name: its row and its history. Every
function of the table acts on the view of the name it looks up, by the view's
own version of that function, and leaves the views of the other names alone.
-/

namespace YadroSnmp.Table

open Snmp KeyedList

variable {Row : Type}

structure View (Row : Type) where
  row : Option Row
  history : List Event

/-- The object a signal is about; the path of an addition is read before anything else. -/
def Message.object : Message → Option Str
  | .update _ _ => none
  | .interfacesAdded (.error _) => none
  | .interfacesAdded (.ok (path, _)) => some path
  | .interfacesRemoved m => some (callMethodAndRead m).1
  | .propertiesChanged path _ => some path

def State.view (I : ItemClass Row) (s : State Row) (n : Str) : View Row := ⟨s.row I n, s.history n⟩

namespace View

variable (I : ItemClass Row) (T : Config) (n : Str)

def getItem (v : View Row) : View Row :=
  match v.row with
  | some _ => v
  | none =>
    ⟨some (I.make T.path n), v.history ++ [⟨n, .onCreate, I.onCreate (I.make T.path n)⟩]⟩

def setFields (v : View Row) (fields : FieldsMap) : View Row :=
  match v.row with
  | none => v
  | some row =>
    ⟨some (I.setFields row fields).row,
      v.history ++ [⟨n, .setFields fields, (I.setFields row fields).traps⟩]⟩

def raises (v : View Row) (fields : FieldsMap) : Option Exc :=
  v.row.bind fun row => (I.setFields row fields).raised

def dropItem (v : View Row) : View Row :=
  match v.row with
  | none => v
  | some row => ⟨none, v.history ++ [⟨n, .onDestroy, I.onDestroy row⟩]⟩

/-- Maps delivered one after another, up to the first that raises. -/
def fill (v : View Row) : List FieldsMap → View Row × Option Exc
  | [] => (v, none)
  | map :: maps =>
    match v.raises I map with
    | some e => (v.setFields I n map, some e)
    | none => (v.setFields I n map).fill maps

/-- The services of one object in `update`: without a service there is no lookup. -/
def refresh (v : View Row) (replies : List FieldsMap) : View Row × Option Exc :=
  if replies = [] then (v, none) else (v.getItem I T n).fill I n replies

/-- A signal about the object of the name, and the exception its handler ends in. -/
def receive (v : View Row) : Message → View Row × Option Exc
  | .update _ _ => (v, none)
  | .interfacesAdded (.error _) => (v, some .sdBusError)
  | .interfacesAdded (.ok (_, data)) =>
    if isOwned T data.keys then (v.getItem I T n).fill I n data.maps else (v, none)
  | .interfacesRemoved m =>
    (if isOwned T (callMethodAndRead m).2 then v.dropItem I n else v, none)
  | .propertiesChanged _ (.error _) => (v, if v.row.isSome then some .sdBusError else none)
  | .propertiesChanged _ (.ok fields) => (v.setFields I n fields, v.raises I fields)

variable {I T n} {v : View Row}

theorem getItem_of_isSome (h : v.row.isSome) : v.getItem I T n = v := by
  obtain ⟨row, hRow⟩ := Option.isSome_iff_exists.mp h
  simp [getItem, hRow]

theorem row_getItem : (v.getItem I T n).row = some (v.row.getD (I.make T.path n)) := by
  cases hRow : v.row with
  | none => simp [getItem, hRow]
  | some row => simp [getItem, hRow]

theorem isSome_getItem : (v.getItem I T n).row.isSome := by
  rw [row_getItem]
  rfl

theorem isSome_setFields (fields : FieldsMap) : (v.setFields I n fields).row.isSome = v.row.isSome := by
  cases hRow : v.row with
  | none => simp [setFields, hRow]
  | some row => simp [setFields, hRow]

theorem isSome_fill (maps : List FieldsMap) : (v.fill I n maps).1.row.isSome = v.row.isSome := by
  induction maps generalizing v with
  | nil => rfl
  | cons map maps ih =>
    rw [fill]
    cases v.raises I map with
    | some e => exact isSome_setFields map
    | none => exact ih.trans (isSome_setFields map)

theorem row_dropItem : (v.dropItem I n).row = none := by
  cases hRow : v.row with
  | none => simp [dropItem, hRow]
  | some row => simp [dropItem, hRow]

theorem refresh_of_isSome (h : v.row.isSome) (replies : List FieldsMap) :
    v.refresh I T n replies = v.fill I n replies := by
  rw [refresh, getItem_of_isSome h]
  split
  · rename_i hNil
    rw [hNil, fill]
  · rfl

theorem dropItem_dropItem : (v.dropItem I n).dropItem I n = v.dropItem I n := by
  cases hRow : v.row with
  | none => simp [dropItem, hRow]
  | some row => simp [dropItem, hRow]

end View

variable {I : ItemClass Row} {T : Config} {n : Str} {s t u : State Row} {v v' : View Row}

/-- From `s` to `t` the view of `n` became `v` and no other view changed. -/
structure Only (I : ItemClass Row) (n : Str) (v : View Row) (s t : State Row) : Prop where
  sorted : Sorted I.name t.items
  self : t.view I n = v
  other : ∀ m, m ≠ n → t.view I m = s.view I m

namespace Only

theorem refl (hs : Sorted I.name s.items) : Only I n (s.view I n) s s := ⟨hs, rfl, fun _ _ => rfl⟩

theorem trans (h : Only I n v s t) (h' : Only I n v' t u) : Only I n v' s u :=
  ⟨h'.sorted, h'.self, fun m hm => (h'.other m hm).trans (h.other m hm)⟩

theorem of_event {e : Event} (hSorted : Sorted I.name t.items) (hLog : t.log = s.log ++ [e])
    (hFrame : ∀ n, n ≠ e.name → t.row I n = s.row I n) :
    Only I e.name ⟨t.row I e.name, s.history e.name ++ [e]⟩ s t := by
  have hHistory : ∀ n, t.history n = s.history n ++ [e].filter fun e => e.name = n := by
    intro n
    rw [State.history, hLog, List.filter_append, State.history]
  constructor
  · exact hSorted
  · rw [State.view, hHistory]
    simp
  · intro m hm
    rw [State.view, hHistory, hFrame m hm]
    simp [State.view, hm.symm]

end Only

section Primitive

variable {it : Nat} {item : Row}

theorem getItem_view (hs : Sorted I.name s.items) (n : Str) :
    ∃ t it row, getItem I T s (objectPath T n) = .ok (t, it) ∧ t.items[it]? = some row ∧
      I.name row = n ∧ Only I n ((s.view I n).getItem I T n) s t := by
  have hLength := path_length_lt_objectPath (T := T) n
  cases hRow : s.row I n with
  | some row =>
    have hGet := getItem_of_row (T := T) hs hLength (by rwa [rowName_objectPath])
    rw [rowName_objectPath] at hGet
    have hView : (s.view I n).getItem I T n = s.view I n := by simp [View.getItem, State.view, hRow]
    rw [hView]
    exact ⟨s, _, row, hGet, hs.position_of_find hRow, row_name hRow, .refl hs⟩
  | none =>
    have hGet := getItem_of_none (T := T) hs hLength (by rwa [rowName_objectPath])
    rw [rowName_objectPath] at hGet
    have hFound := emplaceAt_advance (T := T) hs hRow
    have hFind : find I.name s.items (I.name (I.make T.path n)) = none := by
      rwa [I.name_make]
    have hAfter := hs.find_insert hFind n
    rw [I.name_make, if_pos rfl] at hAfter
    have hOnly := Only.of_event (I := I) (s := s) hFound.sorted rfl fun m hm =>
      (hFound.frame hm).1
    refine ⟨_, _, I.make T.path n, hGet, ?_, I.name_make T.path n, ?_⟩
    · simp [emplaceAt, List.getElem?_insertIdx_self, position_le]
    · have hView : (s.view I n).getItem I T n =
          ⟨some (I.make T.path n), s.history n ++ [⟨n, .onCreate, I.onCreate (I.make T.path n)⟩]⟩ := by
        simp [View.getItem, State.view, hRow]
      rw [hView, ← hAfter]
      exact hOnly

theorem setFieldsAt_view (hs : Sorted I.name s.items) (hi : s.items[it]? = some item)
    (hName : I.name item = n) (fields : FieldsMap) :
    Only I n ((s.view I n).setFields I n fields) s (setFieldsAt I s it fields).state ∧
      (setFieldsAt I s it fields).raised = (s.view I n).raises I fields ∧
      ∃ row, (setFieldsAt I s it fields).state.items[it]? = some row ∧ I.name row = n := by
  subst hName
  have hAdvance := setFieldsAt_advance (T := ⟨[], []⟩) hs hi fields
  have hBefore := row_of_getElem hs hi
  have hAfter := row_setFieldsAt hs hi fields (I.name item)
  rw [if_pos rfl] at hAfter
  have hOnly := Only.of_event (I := I) (s := s)
    (e := ⟨I.name item, .setFields fields, (I.setFields item fields).traps⟩) hAdvance.sorted
    (by rw [setFieldsAt_eq hi]) fun m hm => (hAdvance.frame hm).1
  simp only [hAfter] at hOnly
  refine ⟨?_, ?_, (I.setFields item fields).row, ?_, I.name_setFields item fields⟩
  · simpa [View.setFields, State.view, hBefore] using hOnly
  · simp [View.raises, State.view, hBefore, setFieldsAt_eq hi]
  · rw [setFieldsAt_eq hi]
    exact List.getElem?_set_self (List.getElem?_eq_some_iff.mp hi).1

theorem dropAt_view (hs : Sorted I.name s.items) (hi : s.items[it]? = some item)
    (hName : I.name item = n) : Only I n ((s.view I n).dropItem I n) s (dropAt I s it) := by
  subst hName
  have hAdvance := dropAt_advance (T := ⟨[], []⟩) hs hi
  have hBefore := row_of_getElem hs hi
  have hAfter : (dropAt I s it).row I (I.name item) = none := by
    rw [dropAt_eq hi]
    exact (hs.find_erase hi _).trans (if_pos rfl)
  have hOnly := Only.of_event (I := I) (s := s)
    (e := ⟨I.name item, .onDestroy, I.onDestroy item⟩) hAdvance.sorted
    (by rw [dropAt_eq hi]) fun m hm => (hAdvance.frame hm).1
  simp only [hAfter] at hOnly
  simpa [View.dropItem, State.view, hBefore] using hOnly

end Primitive

section Loops

variable {β : Type}

theorem setFieldsLoop_view (f : β → FieldsMap) {it : Nat} (l : List β) (hs : Sorted I.name s.items)
    (hi : ∃ row, s.items[it]? = some row ∧ I.name row = n) :
    Only I n ((s.view I n).fill I n (l.map f)).1 s
        (forEach (fun s b => setFieldsAt I s it (f b)) l s).state ∧
      (forEach (fun s b => setFieldsAt I s it (f b)) l s).raised =
        ((s.view I n).fill I n (l.map f)).2 := by
  induction l generalizing s with
  | nil => exact ⟨.refl hs, rfl⟩
  | cons b l ih =>
    obtain ⟨row, hRow, hName⟩ := hi
    obtain ⟨hOnly, hRaised, hNext⟩ := setFieldsAt_view hs hRow hName (f b)
    rw [forEach, Outcome.andThen, List.map_cons, View.fill, ← hRaised]
    cases hEnd : (setFieldsAt I s it (f b)).raised with
    | some e => exact ⟨hOnly, hEnd⟩
    | none =>
      obtain ⟨hRest, hRestRaised⟩ := ih hOnly.sorted hNext
      rw [hOnly.self] at hRest hRestRaised
      exact ⟨hOnly.trans hRest, hRestRaised⟩

/-- The loop of `update` over the services of one object. -/
theorem refreshLoop_view (f : β → FieldsMap) (l : List β) (hs : Sorted I.name s.items) (n : Str) :
    let body := fun (s : State Row) b =>
      match getItem I T s (objectPath T n) with
      | .error e => ⟨s, some e⟩
      | .ok (s, it) => setFieldsAt I s it (f b)
    Only I n ((s.view I n).refresh I T n (l.map f)).1 s (forEach body l s).state ∧
      (forEach body l s).raised = ((s.view I n).refresh I T n (l.map f)).2 := by
  intro body
  induction l generalizing s with
  | nil => exact ⟨.refl hs, rfl⟩
  | cons b l ih =>
    obtain ⟨t, it, row, hGet, hRow, hName, hFound⟩ := getItem_view (T := T) hs n
    obtain ⟨hOnly, hRaised, -⟩ := setFieldsAt_view hFound.sorted hRow hName (f b)
    have hBody : body s b = setFieldsAt I t it (f b) := by simp only [body, hGet]
    rw [hFound.self] at hOnly hRaised
    rw [forEach, Outcome.andThen, hBody, List.map_cons, View.refresh, if_neg (List.cons_ne_nil _ _),
      View.fill, ← hRaised]
    cases hEnd : (setFieldsAt I t it (f b)).raised with
    | some e => exact ⟨hFound.trans hOnly, hEnd⟩
    | none =>
      obtain ⟨hRest, hRestRaised⟩ := ih hOnly.sorted
      have hSome : ((s.view I n).getItem I T n |>.setFields I n (f b)).row.isSome := by
        rw [View.isSome_setFields]
        exact View.isSome_getItem
      rw [hOnly.self, View.refresh_of_isSome hSome] at hRest hRestRaised
      exact ⟨(hFound.trans hOnly).trans hRest, hRestRaised⟩

theorem view_of_kept {data : Objects}
    (hKept : ∀ row ∈ s.items, data.contains (objectPath T (I.name row)) = true) (n : Str) :
    s.view I n = if data.contains (objectPath T n) then s.view I n else (s.view I n).dropItem I n := by
  split
  · rfl
  · rename_i hGone
    cases hRow : s.row I n with
    | none => simp [View.dropItem, State.view, hRow]
    | some row =>
      have hFound := hKept row (mem_of_find hRow)
      rw [row_name hRow] at hFound
      exact absurd hFound hGone

/-- The rows before `it` have been found in the answer. -/
theorem pruneLoop_view {data : Objects} (rounds it : Nat) (hs : Sorted I.name s.items)
    (hRounds : s.items.length ≤ it + rounds)
    (hKept : ∀ row ∈ s.items.take it, data.contains (objectPath T (I.name row)) = true) (n : Str) :
    (pruneLoop I T data rounds it s).view I n =
      if data.contains (objectPath T n) then s.view I n else (s.view I n).dropItem I n := by
  induction rounds generalizing it s with
  | zero =>
    have hEnd : s.items.length ≤ it := hRounds
    rw [List.take_of_length_le hEnd] at hKept
    exact view_of_kept hKept n
  | succ rounds ih =>
    rw [pruneLoop]
    cases hi : s.items[it]? with
    | none =>
      rw [List.take_of_length_le (List.getElem?_eq_none_iff.mp hi)] at hKept
      exact view_of_kept hKept n
    | some item =>
      simp only
      split
      · rename_i hFound
        have hKept' : ∀ row ∈ s.items.take (it + 1),
            data.contains (objectPath T (I.name row)) = true := by
          intro row hRow
          rw [List.take_add_one, hi, Option.toList_some, List.mem_append, List.mem_singleton] at hRow
          rcases hRow with hRow | rfl
          · exact hKept row hRow
          · exact hFound
        exact ih (it + 1) hs (by omega) hKept'
      · rename_i hGone
        have hDrop := dropAt_view hs hi rfl
        have hItems : (dropAt I s it).items = s.items.eraseIdx it := by rw [dropAt_eq hi]
        have hLength := (List.getElem?_eq_some_iff.mp hi).1
        have hShorter : (dropAt I s it).items.length ≤ it + rounds := by
          rw [hItems, List.length_eraseIdx_of_lt hLength]
          omega
        have hKept' : ∀ row ∈ (dropAt I s it).items.take it,
            data.contains (objectPath T (I.name row)) = true := by
          rwa [hItems, (take_drop_eraseIdx hi).1]
        rw [ih it hDrop.sorted hShorter hKept']
        rcases eq_or_ne n (I.name item) with rfl | hn
        · rw [if_neg hGone, if_neg hGone, hDrop.self, View.dropItem_dropItem]
        · rw [hDrop.other n hn]

end Loops

section Handlers

theorem dropItem_view (hs : Sorted I.name s.items) (n : Str) :
    Only I n ((s.view I n).dropItem I n) s (dropItem I T s (objectPath T n)).state ∧
      (dropItem I T s (objectPath T n)).raised = none := by
  have hLength := path_length_lt_objectPath (T := T) n
  cases hRow : s.row I n with
  | none =>
    rw [dropItem_of_none hs hLength (by rwa [rowName_objectPath])]
    have hView : (s.view I n).dropItem I n = s.view I n := by simp [View.dropItem, State.view, hRow]
    rw [hView]
    exact ⟨.refl hs, rfl⟩
  | some row =>
    rw [dropItem_of_row hs hLength (by rwa [rowName_objectPath]), rowName_objectPath]
    exact ⟨dropAt_view hs (hs.position_of_find hRow) (row_name hRow), rfl⟩

theorem onPropertiesChanged_view (hs : Sorted I.name s.items) (n : Str) (m : Read FieldsMap) :
    Only I n ((s.view I n).receive I T n (.propertiesChanged (objectPath T n) m)).1 s
        (onPropertiesChanged I T s (objectPath T n) m).state ∧
      (onPropertiesChanged I T s (objectPath T n) m).raised =
        ((s.view I n).receive I T n (.propertiesChanged (objectPath T n) m)).2 := by
  cases m with
  | error =>
    refine ⟨.refl hs, ?_⟩
    have hAny : (s.items.any fun item => decide (objectPath T (I.name item) = objectPath T n)) =
        (s.row I n).isSome := by
      rw [Bool.eq_iff_iff, State.row, find_isSome_iff]
      simp [objectPath_injective.eq_iff]
    simp only [onPropertiesChanged, hAny, View.receive, State.view]
    rfl
  | ok fields =>
    cases hRow : s.row I n with
    | none =>
      rw [onPropertiesChanged_of_none fun m hm => by rw [objectPath_injective hm, hRow]]
      have hSame : (s.view I n).setFields I n fields = s.view I n := by
        simp [View.setFields, State.view, hRow]
      rw [View.receive, hSame]
      exact ⟨.refl hs, by simp [View.raises, State.view, hRow]⟩
    | some row =>
      obtain ⟨t, hEq, hLog, hSorted, hAfter, hFrame⟩ :=
        onPropertiesChanged_of_row (T := T) hs hRow fields
      have hOnly := Only.of_event (I := I) (s := s)
        (e := ⟨n, .setFields fields, (I.setFields row fields).traps⟩) hSorted hLog hFrame
      rw [hEq]
      simp only [hAfter] at hOnly
      refine ⟨?_, by simp [View.receive, View.raises, State.view, hRow]⟩
      simpa [View.receive, View.setFields, State.view, hRow] using hOnly

/-- The handler of a signal about an object of the folder is the handler of its
view: row, history and exception. -/
theorem handle_view (hs : Sorted I.name s.items) {m : Message} (hm : m.object = some (objectPath T n)) :
    Only I n ((s.view I n).receive I T n m).1 s (handle I T s m).state ∧
      (handle I T s m).raised = ((s.view I n).receive I T n m).2 := by
  have hPrefix : Str.startsWith (objectPath T n) T.path = true :=
    Str.startsWith_iff.mpr (path_prefix_objectPath n)
  cases m with
  | update => cases hm
  | interfacesAdded r =>
    cases r with
    | error => cases hm
    | ok body =>
      obtain ⟨path, data⟩ := body
      cases hm
      simp only [handle, onInterfacesAdded, hPrefix, Bool.true_and, View.receive]
      split
      · obtain ⟨t, it, row, hGet, hRow, hName, hFound⟩ := getItem_view (T := T) hs n
        obtain ⟨hOnly, hRaised⟩ := setFieldsLoop_view Prod.snd data.entries hFound.sorted
          ⟨row, hRow, hName⟩
        rw [hFound.self] at hOnly hRaised
        simp only [hGet]
        exact ⟨hFound.trans hOnly, hRaised⟩
      · exact ⟨.refl hs, rfl⟩
  | interfacesRemoved r =>
    have hPath : (callMethodAndRead r).1 = objectPath T n := Option.some.inj hm
    simp only [handle, onInterfacesRemoved, hPath, hPrefix, Bool.true_and, View.receive]
    split
    · exact dropItem_view hs n
    · exact ⟨.refl hs, rfl⟩
  | propertiesChanged path r =>
    cases hm
    exact onPropertiesChanged_view hs n r

end Handlers

section Update

/-- The answers to the `GetAll` calls `update` makes for an object, in the order of its services. -/
def replies (data : Objects) (getAll : (service path : Str) → Read FieldsMap) (path : Str) :
    List FieldsMap :=
  match data.find? path with
  | none => []
  | some services => services.entries.map fun bi => callMethodAndRead (getAll bi.1 path)

theorem replies_ne_nil {data : Objects} {getAll : (service path : Str) → Read FieldsMap} {path : Str}
    (hHosted : ∀ e ∈ data.entries, e.2.entries ≠ []) (hPath : path ∈ data.keys) :
    replies data getAll path ≠ [] := by
  obtain ⟨e, he, rfl⟩ := List.mem_map.mp hPath
  simp only [replies, OrdMap.find?_of_mem he, ne_eq, List.map_eq_nil_iff]
  exact hHosted e he

variable {β : Type} {body : State Row → β → Outcome Row} {l : List β}

theorem forEach_cons_normal {b : β} (h : (forEach body (b :: l) s).raised = none) :
    (body s b).raised = none ∧ forEach body (b :: l) s = forEach body l (body s b).state := by
  rw [forEach, Outcome.andThen] at h ⊢
  cases hRaised : (body s b).raised with
  | none => exact ⟨rfl, rfl⟩
  | some e => simp [hRaised] at h

/-- Rounds about different names, none of which raises, act on each view once. -/
theorem forEach_view (name : β → Str) (act : β → View Row → View Row × Option Exc)
    (hs : Sorted I.name s.items) (hDistinct : (l.map name).Nodup)
    (hBody : ∀ t, ∀ b ∈ l, Sorted I.name t.items →
      Only I (name b) (act b (t.view I (name b))).1 t (body t b).state ∧
        (body t b).raised = (act b (t.view I (name b))).2)
    (hNormal : (forEach body l s).raised = none) :
    (∀ b ∈ l, (forEach body l s).state.view I (name b) = (act b (s.view I (name b))).1 ∧
        (act b (s.view I (name b))).2 = none) ∧
      ∀ n, n ∉ l.map name → (forEach body l s).state.view I n = s.view I n := by
  induction l generalizing s with
  | nil => exact ⟨by simp, fun _ _ => rfl⟩
  | cons b l ih =>
    obtain ⟨hFirst, hRest⟩ := forEach_cons_normal hNormal
    obtain ⟨hOnly, hRaised⟩ := hBody s b List.mem_cons_self hs
    rw [hRest] at hNormal ⊢
    rw [List.map_cons, List.nodup_cons] at hDistinct
    obtain ⟨hLater, hFrame⟩ := ih hOnly.sorted hDistinct.2
      (fun t b hb => hBody t b (List.mem_cons_of_mem _ hb)) hNormal
    refine ⟨fun c hc => ?_, fun n hn => ?_⟩
    · rcases List.mem_cons.mp hc with rfl | hc
      · rw [hFrame _ hDistinct.1, hOnly.self, ← hRaised]
        exact ⟨rfl, hFirst⟩
      · have hOther : name c ≠ name b := fun hSame =>
          hDistinct.1 (hSame ▸ List.mem_map_of_mem hc)
        rw [hLater c hc |>.1, ← hOnly.other _ hOther]
        exact ⟨rfl, (hLater c hc).2⟩
    · rw [List.map_cons, List.mem_cons, not_or] at hn
      rw [hFrame n hn.2, hOnly.other n hn.1]

/-- A refresh that ends normally drops the view of an object that is not in the
answer, and otherwise delivers it the replies for the object. -/
theorem update_view (hs : Sorted I.name s.items) {data : Objects}
    {getAll : (service path : Str) → Read FieldsMap}
    (hBelow : ∀ path ∈ data.keys, ∃ n, path = objectPath T n)
    (hNormal : (update I T s (.ok data) getAll).raised = none) (n : Str) :
    if data.contains (objectPath T n) then
      (update I T s (.ok data) getAll).state.view I n =
          ((s.view I n).refresh I T n (replies data getAll (objectPath T n))).1 ∧
        ((s.view I n).refresh I T n (replies data getAll (objectPath T n))).2 = none
    else (update I T s (.ok data) getAll).state.view I n = (s.view I n).dropItem I n := by
  have hPrune := pruneLoop_advance (T := T) hs data s.items.length 0
  have hNone : ∀ row ∈ s.items.take 0, data.contains (objectPath T (I.name row)) = true := by simp
  have hPruned := pruneLoop_view s.items.length 0 hs (by omega) hNone
  have hName : ∀ e ∈ data.entries, e.1 = objectPath T (rowName T e.1) := by
    intro e he
    obtain ⟨n, hn⟩ := hBelow e.1 (List.mem_map_of_mem he)
    rw [hn, rowName_objectPath]
  have hDistinct : (data.entries.map fun e => rowName T e.1).Nodup := by
    refine List.Nodup.of_map (objectPath T) ?_
    have hKeys : (data.entries.map fun e => rowName T e.1).map (objectPath T) = data.keys := by
      rw [List.map_map, OrdMap.keys]
      exact List.map_congr_left fun e he => (hName e he).symm
    rw [hKeys]
    exact data.keys_nodup
  obtain ⟨hLater, hFrame⟩ := forEach_view (I := I) (fun e => rowName T e.1)
    (fun e v => v.refresh I T (rowName T e.1)
      (e.2.entries.map fun bi => callMethodAndRead (getAll bi.1 e.1))) hPrune.sorted hDistinct
    (fun t e he ht => by
      have hLoop := refreshLoop_view (T := T) (fun bi : Str × List Str => callMethodAndRead (getAll bi.1 e.1))
        e.2.entries ht (rowName T e.1)
      rwa [← hName e he] at hLoop) hNormal
  split
  · rename_i hKept
    obtain ⟨e, he, hPath⟩ := List.mem_map.mp (OrdMap.contains_iff.mp hKept)
    have hReplies : replies data getAll (objectPath T n) =
        e.2.entries.map fun bi => callMethodAndRead (getAll bi.1 e.1) := by
      have hFind : data.find? (objectPath T n) = some e.2 := by
        rw [← hPath, OrdMap.find?_of_mem he]
      rw [replies, hFind, ← hPath]
    have hSelf := hLater e he
    rw [hPath, rowName_objectPath, hPruned, if_pos hKept] at hSelf
    rw [hReplies, hPath]
    exact hSelf
  · rename_i hGone
    have hOther : n ∉ data.entries.map fun e => rowName T e.1 := by
      intro hMem
      obtain ⟨e, he, rfl⟩ := List.mem_map.mp hMem
      rw [← hName e he] at hGone
      exact hGone (OrdMap.contains_iff.mpr (List.mem_map_of_mem he))
    have hSame := hFrame n hOther
    rw [hPruned, if_neg hGone] at hSame
    exact hSame

/-- A refresh that ends normally shows the objects of the answer and no others,
provided each has a hosting service and lies below the folder. -/
theorem update_names (hs : Sorted I.name s.items) {data : Objects}
    {getAll : (service path : Str) → Read FieldsMap}
    (hBelow : ∀ path ∈ data.keys, ∃ n, path = objectPath T n)
    (hHosted : ∀ e ∈ data.entries, e.2.entries ≠ [])
    (hNormal : (update I T s (.ok data) getAll).raised = none) :
    (update I T s (.ok data) getAll).state.names I = { n | objectPath T n ∈ data.keys } := by
  ext n
  have hView := update_view hs hBelow hNormal n
  change ((update I T s (.ok data) getAll).state.view I n).row.isSome ↔ objectPath T n ∈ data.keys
  rw [← OrdMap.contains_iff]
  split at hView
  · rename_i hKept
    have hReplies : replies data getAll (objectPath T n) ≠ [] :=
      replies_ne_nil hHosted (OrdMap.contains_iff.mp hKept)
    rw [hView.1, View.refresh, if_neg hReplies, View.isSome_fill]
    exact iff_of_true View.isSome_getItem hKept
  · rename_i hGone
    rw [hView, View.row_dropItem]
    exact iff_of_false Bool.false_ne_true hGone

end Update

end YadroSnmp.Table
