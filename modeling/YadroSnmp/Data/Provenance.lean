import YadroSnmp.Data.RowNames

/-! # Where rows and calls come from

A row is created, and called, only under a name cut out of a path that some
message carried. In particular a refresh drops rows it finds and calls the rows
of its answer, and leaves every other name alone.
-/

namespace YadroSnmp.Table

open KeyedList

variable {Row : Type} {I : ItemClass Row} {T : Config} {s t : State Row} {n : Str}

/-- The object paths a message carries. -/
def Message.paths : Message → List Str
  | .update subtree _ => (callMethodAndRead subtree).keys
  | .interfacesAdded (.ok (path, _)) => [path]
  | .interfacesAdded (.error _) => []
  | .interfacesRemoved m => [(callMethodAndRead m).1]
  | .propertiesChanged path _ => [path]

/-- A name without a row, about which nothing was done since `s`. -/
structure Untold (I : ItemClass Row) (n : Str) (s t : State Row) : Prop where
  sorted : Sorted I.name t.items
  row : t.row I n = none
  history : t.history n = s.history n

theorem Untold.advance {names : Set Str} {u : State Row} (h : Untold I n s t)
    (hAdvance : Advance I T names t u) (hn : n ∉ names) : Untold I n s u := by
  obtain ⟨hRow, hHistory⟩ := hAdvance.frame hn
  exact ⟨hAdvance.sorted, hRow.trans h.row, hHistory.trans h.history⟩

theorem untold_pruneLoop (h : Untold I n s t) (data : Objects) (rounds it : Nat) :
    Untold I n s (pruneLoop I T data rounds it t) := by
  induction rounds generalizing it t with
  | zero => exact h
  | succ rounds ih =>
    rw [pruneLoop]
    cases hi : t.items[it]? with
    | none => exact h
    | some item =>
      simp only
      split
      · exact ih h _
      · refine ih (h.advance (dropAt_advance (T := T) h.sorted hi) ?_) _
        rintro rfl
        have hRow := row_of_getElem h.sorted hi
        rw [h.row] at hRow
        cases hRow

theorem untold_update (h : Untold I n s t) (subtree : Read Objects)
    (getAll : (service path : Str) → Read FieldsMap)
    (hPaths : ∀ path ∈ (callMethodAndRead subtree).keys, n ≠ rowName T path) :
    Untold I n s (update I T t subtree getAll).state := by
  refine forEach_preserves (fun u pi hpi hu => ?_) (untold_pruneLoop h _ _ _)
  refine forEach_preserves (fun u bi _ hu => ?_) hu
  have hName : n ∉ ({rowName T pi.1} : Set Str) := hPaths pi.1 (List.mem_map_of_mem hpi)
  rcases Nat.lt_or_ge T.path.length pi.1.length with hLength | hShort
  · obtain ⟨v, it, hGet, hFound⟩ := getItem_found hu.sorted hLength
    simp only [hGet]
    have hSet := setFieldsAt_advance (T := T) hFound.advance.sorted hFound.item
      (callMethodAndRead (getAll bi.1 pi.1))
    rw [getD_name] at hSet
    exact (hu.advance hFound.advance hName).advance hSet hName
  · simp only [getItem_short (I := I) (s := u) hShort]
    exact hu

theorem untold_handle (h : Untold I n s t) {m : Message}
    (hPaths : ∀ path ∈ m.paths, n ≠ rowName T path) : Untold I n s (handle I T t m).state := by
  have hAdvance := handle_advance (T := T) h.sorted m
  cases m with
  | update subtree getAll => exact untold_update h subtree getAll hPaths
  | interfacesAdded r =>
    cases r with
    | error => exact h
    | ok body => exact h.advance hAdvance fun hn => hPaths _ List.mem_cons_self hn.2.2.2
  | interfacesRemoved r => exact h.advance hAdvance fun hn => hPaths _ List.mem_cons_self hn.2.2.2
  | propertiesChanged path r =>
    refine h.advance hAdvance ?_
    rintro rfl
    exact hPaths _ List.mem_cons_self (rowName_objectPath n).symm

theorem untold_run {ms : List Message} (hPaths : ∀ m ∈ ms, ∀ path ∈ m.paths, n ≠ rowName T path) :
    Untold I n initial (run I T initial ms) := by
  induction ms using List.reverseRecOn with
  | nil => exact ⟨initial_sorted, rfl, rfl⟩
  | append_singleton ms m ih =>
    rw [run, List.foldl_append]
    refine untold_handle (ih fun m' hm' => hPaths m' (List.mem_append_left _ hm')) ?_
    exact hPaths m (List.mem_append_right _ List.mem_cons_self)

/-- Every call of a run was made under a name that a message carried. -/
theorem exists_path_of_mem_log {ms : List Message} {e : Event} (he : e ∈ (run I T initial ms).log) :
    ∃ m ∈ ms, ∃ path ∈ m.paths, e.name = rowName T path := by
  by_contra hNone
  push Not at hNone
  have hHistory := (untold_run (I := I) hNone).history
  have hMem : e ∈ (run I T initial ms).history e.name := List.mem_filter.mpr ⟨he, by simp⟩
  rw [hHistory] at hMem
  cases hMem

end YadroSnmp.Table
