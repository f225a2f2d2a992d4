import YadroSnmp.Lib.Replica
import YadroSnmp.Data.Handlers

/-! # The agent between a service and the bus

The handlers of a table cut at the points where the service may act: before
each `GetAll`, between the reply and the creation of the row, and between the
calls on the row. The daemon queues `PropertiesChanged` of an object for the
agent when the row of the object exists, because the row registers the match.
-/

namespace YadroSnmp.Table

open Snmp KeyedList OrdMap

inductive Signal where
  | interfacesAdded (name : Str) (data : AddedData)
  | propertiesChanged (name : Str) (fields : FieldsMap)
deriving DecidableEq

/-- Where the agent is: in its event loop, in `update` with `GetAll` calls left
to make, before `getItem`, or before the next `setFields` on the row found. -/
inductive Task where
  | idle
  | refresh (names : List Str)
  | create (name : Str) (maps : List FieldsMap) (rest : List Str)
  | fill (it : Nat) (name : Str) (maps : List FieldsMap) (rest : List Str)
deriving DecidableEq

structure World (Row : Type) where
  values : Str → FieldsMap
  queue : List Signal
  table : State Row
  task : Task

inductive Action where
  | change (name : Str) (fields : FieldsMap)
  | announce (name : Str) (data : AddedData)
  | getSubTree (data : Objects)
  | agent

variable {Row : Type} (I : ItemClass Row) (T : Config)

def AddedData.maps (data : AddedData) : List FieldsMap := data.entries.map Prod.snd

/-- The objects `update` asks for their properties, once for each service. -/
def asked (data : Objects) : List Str :=
  data.entries.flatMap fun pi => pi.2.entries.map fun _ => rowName T pi.1

def agentStep (w : World Row) : World Row :=
  match w.task with
  | .idle =>
    match w.queue with
    | [] => w
    | .interfacesAdded name data :: queue =>
      if isOwned T data.keys then { w with queue := queue, task := .create name data.maps [] }
      else { w with queue := queue }
    | .propertiesChanged name fields :: queue =>
      { w with
        queue := queue
        table := (onPropertiesChanged I T w.table (objectPath T name) (.ok fields)).state }
  | .refresh [] => { w with task := .idle }
  | .refresh (name :: rest) => { w with task := .create name [w.values name] rest }
  | .create name maps rest =>
    match getItem I T w.table (objectPath T name) with
    | .error _ => { w with task := .idle }
    | .ok (table, it) => { w with table := table, task := .fill it name maps rest }
  | .fill _ _ [] rest => { w with task := .refresh rest }
  | .fill it name (fields :: maps) rest =>
    let o := setFieldsAt I w.table it fields
    match o.raised with
    | some _ => { w with table := o.state, task := .idle }
    | none => { w with table := o.state, task := .fill it name maps rest }

def World.apply (w : World Row) : Action → World Row
  | .change name fields =>
    { w with
      values := Function.update w.values name ((w.values name).overlay fields)
      queue :=
        if (w.table.row I name).isSome then w.queue ++ [.propertiesChanged name fields] else w.queue }
  | .announce name data => { w with queue := w.queue ++ [.interfacesAdded name data] }
  | .getSubTree data =>
    { w with
      table := pruneLoop I T data w.table.items.length 0 w.table
      task := .refresh (asked T data) }
  | .agent => agentStep I T w

/-- An announcement carries the current properties; the mapper answers with objects of the folder. -/
def World.Enabled (w : World Row) : Action → Prop
  | .change _ _ => True
  | .announce name data => Replica.Carries data.maps (w.values name)
  | .getSubTree data => w.task = .idle ∧ ∀ path ∈ data.keys, ∃ n, path = objectPath T n
  | .agent => True

def World.Step (w : World Row) (a : Action) (w' : World Row) : Prop := w.Enabled T a ∧ w' = w.apply I T a

def World.after (w : World Row) (actions : List Action) : World Row := actions.foldl (World.apply I T) w

def World.start (values : Str → FieldsMap) : World Row := ⟨values, [], initial, .idle⟩

variable {I T}

section Loops

variable {β γ : Type} {body : State Row → γ → Outcome Row} {s : State Row}

theorem andThen_assoc (o : Outcome Row) (f g : State Row → Outcome Row) :
    (o.andThen f).andThen g = o.andThen fun s => (f s).andThen g := by
  cases hRaised : o.raised with
  | none => simp [Outcome.andThen, hRaised]
  | some e => simp [Outcome.andThen, hRaised]

theorem forEach_append (l l' : List γ) (s : State Row) :
    forEach body (l ++ l') s = (forEach body l s).andThen (forEach body l') := by
  induction l generalizing s with
  | nil => rfl
  | cons c l ih =>
    rw [List.cons_append, forEach, forEach, andThen_assoc]
    congr 1
    funext t
    exact ih t

theorem forEach_flatMap (f : β → List γ) (l : List β) (s : State Row) :
    forEach body (l.flatMap f) s = forEach (fun s b => forEach body (f b) s) l s := by
  induction l generalizing s with
  | nil => rfl
  | cons b l ih =>
    rw [List.flatMap_cons, forEach_append, forEach]
    congr 1
    funext t
    exact ih t

theorem forEach_map (f : β → γ) (l : List β) (s : State Row) :
    forEach body (l.map f) s = forEach (fun s b => body s (f b)) l s := by
  induction l generalizing s with
  | nil => rfl
  | cons b l ih =>
    rw [List.map_cons, forEach, forEach]
    congr 1
    funext t
    exact ih t

theorem forEach_congr {body' : State Row → γ → Outcome Row} {l : List γ}
    (h : ∀ s, ∀ c ∈ l, body s c = body' s c) (s : State Row) :
    forEach body l s = forEach body' l s := by
  induction l generalizing s with
  | nil => rfl
  | cons c l ih =>
    rw [forEach, forEach, h s c List.mem_cons_self]
    congr 1
    funext t
    exact ih (fun s c hc => h s c (List.mem_cons_of_mem _ hc)) t

end Loops

section Handlers

/-- The agent, left alone, comes from one world to another. -/
def Leads (I : ItemClass Row) (T : Config) (w w' : World Row) : Prop := ∃ k, (agentStep I T)^[k] w = w'

theorem Leads.step {w w' : World Row} (h : Leads I T (agentStep I T w) w') : Leads I T w w' := by
  obtain ⟨k, hk⟩ := h
  exact ⟨k + 1, by rw [Function.iterate_succ_apply, hk]⟩

theorem Leads.refl (w : World Row) : Leads I T w w := ⟨0, rfl⟩

theorem Leads.trans {w w' w'' : World Row} (h : Leads I T w w') (h' : Leads I T w' w'') :
    Leads I T w w'' := by
  obtain ⟨k, rfl⟩ := h
  obtain ⟨k', rfl⟩ := h'
  exact ⟨k' + k, Function.iterate_add_apply _ _ _ _⟩

variable {values : Str → FieldsMap} {queue : List Signal} {s : State Row}

def afterFill (o : Outcome Row) (rest : List Str) : Task :=
  match o.raised with
  | none => .refresh rest
  | some _ => .idle

theorem fill_leads (values : Str → FieldsMap) (queue : List Signal) (it : Nat) (name : Str)
    (maps : List FieldsMap) (rest : List Str) (s : State Row) :
    Leads I T ⟨values, queue, s, .fill it name maps rest⟩
      ⟨values, queue, (forEach (fun s fields => setFieldsAt I s it fields) maps s).state,
        afterFill (forEach (fun s fields => setFieldsAt I s it fields) maps s) rest⟩ := by
  induction maps generalizing s with
  | nil =>
    apply Leads.step
    exact .refl _
  | cons fields maps ih =>
    apply Leads.step
    cases hRaised : (setFieldsAt I s it fields).raised with
    | none =>
      have hNext := ih (setFieldsAt I s it fields).state
      simpa [agentStep, forEach, Outcome.andThen, hRaised] using hNext
    | some e => simpa [agentStep, forEach, Outcome.andThen, afterFill, hRaised] using Leads.refl _

def refreshRow (I : ItemClass Row) (T : Config) (values : Str → FieldsMap) (s : State Row) (name : Str) :
    Outcome Row :=
  match getItem I T s (objectPath T name) with
  | .error e => ⟨s, some e⟩
  | .ok (s, it) => setFieldsAt I s it (values name)

theorem refresh_leads (names : List Str) (s : State Row) :
    Leads I T ⟨values, queue, s, .refresh names⟩
      ⟨values, queue, (forEach (refreshRow I T values) names s).state, .idle⟩ := by
  induction names generalizing s with
  | nil =>
    apply Leads.step
    exact .refl _
  | cons name rest ih =>
    apply Leads.step
    apply Leads.step
    cases hGet : getItem I T s (objectPath T name) with
    | error e =>
      simpa [agentStep, forEach, refreshRow, Outcome.andThen, hGet] using Leads.refl _
    | ok found =>
      obtain ⟨t, it⟩ := found
      have hFill := fill_leads (I := I) (T := T) values queue it name [values name] rest t
      cases hRaised : (setFieldsAt I t it (values name)).raised with
      | none =>
        simp only [forEach, Outcome.andThen, afterFill, hRaised] at hFill
        simpa [agentStep, forEach, refreshRow, Outcome.andThen, hGet, hRaised] using hFill.trans (ih _)
      | some e =>
        simp only [forEach, Outcome.andThen, afterFill, hRaised] at hFill
        simpa [agentStep, forEach, refreshRow, Outcome.andThen, hGet, hRaised] using hFill

/-- Without interference the moves of a refresh are `update`. -/
theorem update_leads {data : Objects} (hBelow : ∀ path ∈ data.keys, ∃ n, path = objectPath T n)
    (s : State Row) :
    Leads I T ((World.mk values queue s .idle).apply I T (.getSubTree data))
      ⟨values, queue,
        (update I T s (.ok data) fun _ path => .ok (values (rowName T path))).state, .idle⟩ := by
  have hLoop : update I T s (.ok data) (fun _ path => .ok (values (rowName T path))) =
      forEach (refreshRow I T values) (asked T data) (pruneLoop I T data s.items.length 0 s) := by
    rw [asked, forEach_flatMap]
    refine forEach_congr (fun t pi hpi => ?_) _
    rw [forEach_map]
    refine forEach_congr (fun t _ _ => ?_) _
    obtain ⟨n, hn⟩ := hBelow pi.1 (List.mem_map_of_mem hpi)
    simp only [hn, rowName_objectPath]
    rfl
  rw [hLoop]
  exact refresh_leads _ _

theorem onInterfacesAdded_leads (n : Str) (data : AddedData) (s : State Row) :
    Leads I T ⟨values, .interfacesAdded n data :: queue, s, .idle⟩
      ⟨values, queue, (onInterfacesAdded I T s (.ok (objectPath T n, data))).state, .idle⟩ := by
  have hPrefix : Str.startsWith (objectPath T n) T.path = true :=
    Str.startsWith_iff.mpr (path_prefix_objectPath n)
  apply Leads.step
  simp only [agentStep, onInterfacesAdded, hPrefix, Bool.true_and]
  split
  · apply Leads.step
    cases hGet : getItem I T s (objectPath T n) with
    | error e => simpa [agentStep, hGet] using Leads.refl _
    | ok found =>
      obtain ⟨t, it⟩ := found
      have hFill := fill_leads (I := I) (T := T) values queue it n data.maps [] t
      rw [AddedData.maps, forEach_map] at hFill
      simp only [agentStep, hGet]
      refine hFill.trans ?_
      unfold afterFill
      split
      · exact Leads.step (.refl _)
      · exact .refl _
  · exact .refl _

end Handlers

end YadroSnmp.Table
