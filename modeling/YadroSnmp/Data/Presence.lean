import YadroSnmp.Data.View
import YadroSnmp.Yadro.SensorAlarms

/-! # Which objects have a row

The bus side is the set of interfaces each object implements and the stream of
changes to it, one signal a change. A refresh shows the objects with a listed
interface; the question is whether the signals keep the table on that set.
-/

namespace YadroSnmp.Table

open KeyedList

abbrev Bus := Str → Set Str

inductive Change where
  | added (name : Str) (data : AddedData)
  | removed (name : Str) (interfaces : List Str)

variable {Row : Type} (I : ItemClass Row) (T : Config)

def Change.name : Change → Str
  | .added name _ => name
  | .removed name _ => name

def Change.result (interfaces : Set Str) : Change → Set Str
  | .added _ data => interfaces ∪ { iface | iface ∈ data.keys }
  | .removed _ gone => interfaces \ { iface | iface ∈ gone }

def Change.signal : Change → Message
  | .added name data => .interfacesAdded (.ok (objectPath T name, data))
  | .removed name interfaces => .interfacesRemoved (.ok (objectPath T name, interfaces))

noncomputable def Bus.change (b : Bus) (c : Change) : Bus :=
  Function.update b (objectPath T c.name) (c.result (b (objectPath T c.name)))

noncomputable def Bus.after (b : Bus) (changes : List Change) : Bus := changes.foldl (Bus.change T) b

def Listed (interfaces : Set Str) : Prop := ∃ iface ∈ T.interfaces, iface ∈ interfaces

/-- The names of the objects below the folder that implement a listed interface. -/
def Bus.present (b : Bus) : Set Str := { n | n ≠ [] ∧ Listed T (b (objectPath T n)) }

/-- An answer of the mapper: exactly the present objects, each with a hosting service. -/
structure Bus.Answers (b : Bus) (data : Objects) : Prop where
  keys : ∀ path, path ∈ data.keys ↔ ∃ n ∈ b.present T, path = objectPath T n
  hosted : ∀ e ∈ data.entries, e.2.entries ≠ []

/-- The rows are those of the present objects, which are those any refresh would show. -/
def Agrees (s : State Row) (b : Bus) : Prop :=
  s.names I = b.present T ∧
    ∀ data getAll, b.Answers T data → (update I T s (.ok data) getAll).raised = none →
      (update I T s (.ok data) getAll).state.names I = s.names I

def KeepsUp (s : State Row) (b : Bus) (changes : List Change) : Prop :=
  ∀ seen, seen <+: changes →
    Agrees I T (run I T s (seen.map (Change.signal T))) (b.after T seen)

/-- A listed interface goes away and the object keeps another one. -/
def PartlyRemoved (b : Bus) : Change → Prop
  | .added _ _ => False
  | .removed name interfaces =>
    isOwned T interfaces = true ∧
      Listed T (b (objectPath T name) \ { iface | iface ∈ interfaces })

variable {I T} {s : State Row} {b : Bus}

theorem isOwned_iff (hList : T.interfaces ≠ []) (interfaces : List Str) :
    isOwned T interfaces = true ↔ Listed T { iface | iface ∈ interfaces } := by
  have hEmpty : T.interfaces.isEmpty = false := by simpa using hList
  simp [isOwned, hEmpty, Listed]

theorem Listed.mono {S S' : Set Str} (hLe : S ⊆ S') (h : Listed T S) : Listed T S' := by
  obtain ⟨iface, hMem, hS⟩ := h
  exact ⟨iface, hMem, hLe hS⟩

theorem listed_union {S S' : Set Str} : Listed T (S ∪ S') ↔ Listed T S ∨ Listed T S' := by
  constructor
  · rintro ⟨iface, hMem, hS | hS'⟩
    · exact .inl ⟨iface, hMem, hS⟩
    · exact .inr ⟨iface, hMem, hS'⟩
  · rintro (h | h)
    · exact h.mono Set.subset_union_left
    · exact h.mono Set.subset_union_right

theorem listed_sdiff {S S' : Set Str} (h : ¬ Listed T S') : Listed T (S \ S') ↔ Listed T S := by
  constructor
  · exact fun hDiff => hDiff.mono Set.sdiff_subset
  · rintro ⟨iface, hMem, hS⟩
    exact ⟨iface, hMem, hS, fun hS' => h ⟨iface, hMem, hS'⟩⟩

theorem Bus.change_self (b : Bus) (c : Change) :
    b.change T c (objectPath T c.name) = c.result (b (objectPath T c.name)) :=
  Function.update_self _ _ _

theorem Bus.change_other (b : Bus) (c : Change) {n : Str} (hn : n ≠ c.name) :
    b.change T c (objectPath T n) = b (objectPath T n) :=
  Function.update_of_ne (objectPath_injective.ne hn) _ _

theorem Bus.after_snoc (b : Bus) (before : List Change) (c : Change) :
    b.after T (before ++ [c]) = (b.after T before).change T c := by
  simp [Bus.after]

theorem Bus.mem_present_other (b : Bus) (c : Change) {n : Str} (hn : n ≠ c.name) :
    n ∈ (b.change T c).present T ↔ n ∈ b.present T := by
  rw [Bus.present, Set.mem_ofPred_eq, Bus.change_other b c hn]
  rfl

theorem Bus.mem_present_self (b : Bus) (c : Change) (hn : c.name ≠ []) :
    c.name ∈ (b.change T c).present T ↔ Listed T (c.result (b (objectPath T c.name))) := by
  rw [Bus.present, Set.mem_ofPred_eq, Bus.change_self]
  exact and_iff_right hn

/-- Whatever the rows were, a refresh that ends normally leaves those of the present objects. -/
theorem update_present (hs : Sorted I.name s.items) {data : Objects}
    {getAll : (service path : Str) → Read FieldsMap} (hAnswer : b.Answers T data)
    (hNormal : (update I T s (.ok data) getAll).raised = none) :
    (update I T s (.ok data) getAll).state.names I = b.present T := by
  rw [update_names hs ?_ hAnswer.hosted hNormal]
  · ext n
    rw [Set.mem_ofPred_eq, hAnswer.keys]
    constructor
    · rintro ⟨m, hm, hPath⟩
      rwa [objectPath_injective hPath]
    · exact fun hn => ⟨n, hn, rfl⟩
  · intro path hPath
    obtain ⟨n, -, hn⟩ := (hAnswer.keys path).mp hPath
    exact ⟨n, hn⟩

theorem agrees_iff (hs : Sorted I.name s.items) : Agrees I T s b ↔ s.names I = b.present T := by
  constructor
  · exact And.left
  · intro hNames
    refine ⟨hNames, fun data getAll hAnswer hNormal => ?_⟩
    rw [update_present hs hAnswer hNormal, hNames]

section Signals

variable {name : Str}

theorem names_iff_present_other (hNames : s.names I = b.present T) (c : Change) {n : Str}
    (hn : n ≠ c.name) : n ∈ s.names I ↔ n ∈ (b.change T c).present T := by
  rw [hNames, Bus.mem_present_other b c hn]

theorem names_added (hs : Sorted I.name s.items) (hList : T.interfaces ≠ [])
    (hNames : s.names I = b.present T) (hName : name ≠ []) (data : AddedData) :
    (handle I T s (Change.signal T (.added name data))).state.names I =
      (b.change T (.added name data)).present T := by
  have hOther := fun n => names_iff_present_other hNames (.added name data) (n := n)
  have hSelf : name ∈ s.names I ↔ Listed T (b (objectPath T name)) := by
    rw [hNames]
    exact and_iff_right hName
  have hAfter := Bus.mem_present_self (T := T) b (.added name data) hName
  have hRows := onInterfacesAdded_names (T := T) hs (path_prefix_objectPath name)
    (path_length_lt_objectPath name) data
  rw [rowName_objectPath] at hRows
  refine hRows.trans ?_
  ext n
  rcases eq_or_ne n name with rfl | hn
  · apply Iff.trans ?_ hAfter.symm
    rw [Change.result, listed_union, ← isOwned_iff hList]
    split
    · exact iff_of_true (Set.mem_insert n _) (.inr ‹_›)
    · exact hSelf.trans (or_iff_left ‹_›).symm
  · rw [← hOther n hn]
    split
    · exact Set.mem_insert_iff.trans (or_iff_right hn)
    · rfl

theorem names_removed_iff (hs : Sorted I.name s.items) (hList : T.interfaces ≠ [])
    (hNames : s.names I = b.present T) (hName : name ≠ []) (interfaces : List Str) :
    (handle I T s (Change.signal T (.removed name interfaces))).state.names I =
        (b.change T (.removed name interfaces)).present T ↔
      ¬ PartlyRemoved T b (.removed name interfaces) := by
  have hOther := fun n => names_iff_present_other hNames (.removed name interfaces) (n := n)
  have hSelf : name ∈ s.names I ↔ Listed T (b (objectPath T name)) := by
    rw [hNames]
    exact and_iff_right hName
  have hAfter := Bus.mem_present_self (T := T) b (.removed name interfaces) hName
  have hRows := onInterfacesRemoved_names (T := T) (m := .ok (objectPath T name, interfaces)) hs
    (path_prefix_objectPath name) (path_length_lt_objectPath name)
  simp only [callMethodAndRead, rowName_objectPath] at hRows
  split at hRows
  · rename_i hTrue
    constructor
    · -- the row is gone, so a remaining listed interface tells the two sets apart
      rintro hEq ⟨-, hLeft⟩
      have hMem := hAfter.mpr hLeft
      rw [← hEq] at hMem
      exact (hRows ▸ hMem : _ ∈ s.names I \ {name}).2 rfl
    · intro hWhole
      refine hRows.trans ?_
      ext n
      rcases eq_or_ne n name with rfl | hn
      · exact iff_of_false (fun hMem => hMem.2 rfl) fun hMem => hWhole ⟨hTrue, hAfter.mp hMem⟩
      · rw [← hOther n hn]
        exact and_iff_left hn
  · rename_i hFalse
    refine iff_of_true (hRows.trans ?_) fun h => hFalse h.1
    ext n
    rcases eq_or_ne n name with rfl | hn
    · have hUnlisted := mt (isOwned_iff hList interfaces).mpr hFalse
      exact hSelf.trans ((listed_sdiff hUnlisted).symm.trans hAfter.symm)
    · exact hOther n hn

/-- The signal of a change keeps the rows on the present objects unless the
change takes only a part of the listed interfaces away. -/
theorem names_signal_iff (hs : Sorted I.name s.items) (hList : T.interfaces ≠ [])
    (hNames : s.names I = b.present T) (c : Change) (hName : c.name ≠ []) :
    (handle I T s (c.signal T)).state.names I = (b.change T c).present T ↔ ¬ PartlyRemoved T b c := by
  cases c with
  | added name data => exact iff_of_true (names_added hs hList hNames hName data) not_false
  | removed name interfaces => exact names_removed_iff hs hList hNames hName interfaces

end Signals

/-- Filled by a refresh and then told of every change, a table stays on the
objects a refresh would show exactly as long as no change takes away only a
part of the listed interfaces of an object. -/
theorem keepsUp_iff (hList : T.interfaces ≠ []) (data : Objects)
    (getAll : (service path : Str) → Read FieldsMap) (hAnswer : b.Answers T data)
    (hNormal : (update I T initial (.ok data) getAll).raised = none) (changes : List Change)
    (hBelow : ∀ c ∈ changes, c.name ≠ []) :
    KeepsUp I T (update I T initial (.ok data) getAll).state b changes ↔
      ∀ before c, before ++ [c] <+: changes → ¬ PartlyRemoved T (b.after T before) c := by
  have hFill := (update_advance (I := I) (T := T) initial_sorted (.ok data) getAll).sorted
  have hSorted : ∀ ms, Sorted I.name (run I T (update I T initial (.ok data) getAll).state ms).items :=
    fun ms => (run_advance hFill ms).sorted
  have hRun : ∀ before c,
      run I T (update I T initial (.ok data) getAll).state ((before ++ [c]).map (Change.signal T)) =
        (handle I T (run I T (update I T initial (.ok data) getAll).state
          (before.map (Change.signal T))) (c.signal T)).state := by
    intro before c
    simp [run]
  constructor
  · intro h before c hSeen
    have hBefore := (h before ((List.prefix_append before [c]).trans hSeen)).1
    have hAfter := (h _ hSeen).1
    rw [hRun, Bus.after_snoc] at hAfter
    have hMem : c ∈ changes := hSeen.subset (List.mem_append_right before List.mem_cons_self)
    exact (names_signal_iff (hSorted _) hList hBefore c (hBelow c hMem)).mp hAfter
  · intro h seen hSeen
    rw [agrees_iff (hSorted _)]
    induction seen using List.reverseRecOn with
    | nil => exact update_present initial_sorted hAnswer hNormal
    | append_singleton before c ih =>
      have hBefore := ih ((List.prefix_append before [c]).trans hSeen)
      have hMem : c ∈ changes := hSeen.subset (List.mem_append_right before List.mem_cons_self)
      rw [hRun, Bus.after_snoc]
      exact (names_signal_iff (hSorted _) hList hBefore c (hBelow c hMem)).mpr (h before c hSeen)

section Ambient

open Sensors

noncomputable def ambientBus : Bus :=
  Function.update (fun _ => ∅) (objectPath (sensorsTable "temperature") (Str.lit "ambient"))
    { Str.lit "xyz.openbmc_project.Sensor.Value",
      Str.lit "xyz.openbmc_project.Sensor.Threshold.Warning" }

def ambientAnswer : Objects :=
  OrdMap.ofList [(objectPath (sensorsTable "temperature") (Str.lit "ambient"),
    OrdMap.ofList [(Str.lit "xyz.openbmc_project.HwmonTempSensor",
      [Str.lit "xyz.openbmc_project.Sensor.Value",
        Str.lit "xyz.openbmc_project.Sensor.Threshold.Warning"])])]

def ambientGetAll : (service path : Str) → Read FieldsMap := fun _ _ =>
  .ok (OrdMap.ofList [(Str.lit "Value", .double 27), (Str.lit "WarningHigh", .double 40)])

theorem mem_ambientBus_present {n : Str} :
    n ∈ ambientBus.present (sensorsTable "temperature") ↔ n = Str.lit "ambient" := by
  constructor
  · rintro ⟨-, iface, -, hIface⟩
    by_contra hn
    rw [ambientBus, Function.update_of_ne (objectPath_injective.ne hn)] at hIface
    exact hIface
  · rintro rfl
    refine ⟨by decide, Str.lit "xyz.openbmc_project.Sensor.Value", .head _, ?_⟩
    rw [ambientBus, Function.update_self]
    exact .inl rfl

theorem ambientAnswer_answers : ambientBus.Answers (sensorsTable "temperature") ambientAnswer where
  keys path := by
    have hKeys : ambientAnswer.keys =
        [objectPath (sensorsTable "temperature") (Str.lit "ambient")] := by decide
    simp [hKeys, mem_ambientBus_present]
  hosted := by decide

theorem keeps_up_at_ambient :
    KeepsUp (itemClass ambientObjid) (sensorsTable "temperature")
      (update (itemClass ambientObjid) (sensorsTable "temperature") initial (.ok ambientAnswer)
        ambientGetAll).state ambientBus
      [.removed (Str.lit "ambient") [Str.lit "xyz.openbmc_project.Sensor.Value",
        Str.lit "xyz.openbmc_project.Sensor.Threshold.Warning"]] := by
  refine (keepsUp_iff (by decide) ambientAnswer ambientGetAll ambientAnswer_answers (by decide) _
    (by decide)).mpr ?_
  intro before c hSeen hPart
  obtain ⟨rfl, rfl⟩ : before = [] ∧ c = _ := by
    simpa [List.prefix_cons_iff, List.append_eq_cons_iff] using hSeen
  obtain ⟨-, iface, -, hLeft⟩ := hPart
  simp only [Bus.after, List.foldl_nil, ambientBus, Function.update_self] at hLeft
  exact hLeft.2 (by simpa using hLeft.1)

/-- Losing its warning threshold costs a live sensor its row. -/
theorem ambient_dropped_with_threshold :
    (sensorsTable "temperature").interfaces ≠ [] ∧
      ambientBus.Answers (sensorsTable "temperature") ambientAnswer ∧
      (update (itemClass ambientObjid) (sensorsTable "temperature") initial (.ok ambientAnswer)
        ambientGetAll).raised = none ∧
      ¬ KeepsUp (itemClass ambientObjid) (sensorsTable "temperature")
        (update (itemClass ambientObjid) (sensorsTable "temperature") initial (.ok ambientAnswer)
          ambientGetAll).state ambientBus
        [.removed (Str.lit "ambient") [Str.lit "xyz.openbmc_project.Sensor.Threshold.Warning"]] := by
  refine ⟨by decide, ambientAnswer_answers, by decide, fun h => ?_⟩
  have hNames := (h _ List.prefix_rfl).1
  have hPresent : Str.lit "ambient" ∈ (ambientBus.after (sensorsTable "temperature")
      [.removed (Str.lit "ambient") [Str.lit "xyz.openbmc_project.Sensor.Threshold.Warning"]]).present
        (sensorsTable "temperature") := by
    refine ⟨by decide, Str.lit "xyz.openbmc_project.Sensor.Value", .head _, ?_⟩
    simp [Bus.after, Bus.change, Change.name, Change.result, ambientBus]
    decide
  rw [← hNames] at hPresent
  have hRow : (State.row (itemClass ambientObjid) _ (Str.lit "ambient")).isSome = true := hPresent
  revert hRow
  decide

end Ambient

end YadroSnmp.Table
