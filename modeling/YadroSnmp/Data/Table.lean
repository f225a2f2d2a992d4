import YadroSnmp.Data.Item

/-! # Export of a D-Bus folder to a MIB table

The functions of `Table<ItemType>` over an explicit state: the row vector and
the calls made on rows so far. An exception that escapes a handler leaves the
state as it was at the throw, so every handler returns both.
-/

namespace YadroSnmp.Table

open Snmp KeyedList

structure Config where
  path : Str
  interfaces : List Str

inductive Call where
  | onCreate
  | setFields (fields : FieldsMap)
  | onDestroy
deriving DecidableEq

/-- A call made on the row called `name`, with the traps it sent. -/
structure Event where
  name : Str
  call : Call
  traps : List Trap
deriving DecidableEq

structure State (Row : Type) where
  items : List Row
  log : List Event
deriving DecidableEq

/-- The state a handler leaves and the exception it ended in, if any. -/
structure Outcome (Row : Type) where
  state : State Row
  raised : Option Exc

/-- The outputs of `message::read`; a failed read leaves them partly filled. -/
inductive Read (α : Type) where
  | ok (value : α)
  | error (filled : α)

/-- `helper::callMethodAndRead`: an `SdBusError` is swallowed, and what was
read before it is returned (nothing, when the call itself failed). -/
def callMethodAndRead {α : Type} : Read α → α
  | .ok resp => resp
  | .error resp => resp

/-- `helper::Objects`: for each path the services hosting it, with their interfaces. -/
abbrev Objects := OrdMap Str (OrdMap Str (List Str))

/-- The body of `InterfacesAdded`: for each interface its properties. -/
abbrev AddedData := OrdMap Str FieldsMap

def slash : Str := Str.lit "/"

variable {Row : Type} (I : ItemClass Row) (T : Config)

def Outcome.andThen (o : Outcome Row) (next : State Row → Outcome Row) : Outcome Row :=
  match o.raised with
  | some _ => o
  | none => next o.state

def forEach {β : Type} (body : State Row → β → Outcome Row) : List β → State Row → Outcome Row
  | [], s => ⟨s, none⟩
  | b :: bs, s => (body s b).andThen (forEach body bs)

/-- The D-Bus path of a name: the one the row's match is registered for. -/
def objectPath (name : Str) : Str := T.path ++ slash ++ name

def emplaceAt (s : State Row) (it : Nat) (name : Str) : State Row where
  items := s.items.insertIdx it (I.make T.path name)
  log := s.log ++ [⟨name, .onCreate, I.onCreate (I.make T.path name)⟩]

/-- `getItem`: the index stands for the reference returned. -/
def getItem (s : State Row) (path : Str) : Except Exc (State Row × Nat) :=
  match Str.substr path (T.path.length + 1) with
  | none => .error .outOfRange
  | some name =>
    let it := position I.name s.items name
    if (s.items[it]?).any fun item => I.name item = name then .ok (s, it)
    else .ok (emplaceAt I T s it name, it)

def setFieldsAt (s : State Row) (it : Nat) (fields : FieldsMap) : Outcome Row :=
  match s.items[it]? with
  | none => ⟨s, none⟩
  | some item =>
    let r := I.setFields item fields
    { state :=
        { items := s.items.set it r.row
          log := s.log ++ [⟨I.name item, .setFields fields, r.traps⟩] }
      raised := r.raised }

/-- `dropItem(Items::iterator)`: the iterator returned is again `it`. -/
def dropAt (s : State Row) (it : Nat) : State Row :=
  match s.items[it]? with
  | none => s
  | some item =>
    { items := s.items.eraseIdx it
      log := s.log ++ [⟨I.name item, .onDestroy, I.onDestroy item⟩] }

/-- `dropItem(const std::string&)` -/
def dropItem (s : State Row) (path : Str) : Outcome Row :=
  match Str.substr path (T.path.length + 1) with
  | none => ⟨s, some .outOfRange⟩
  | some name =>
    let it := position I.name s.items name
    if (s.items[it]?).any fun item => I.name item = name then ⟨dropAt I s it, none⟩
    else ⟨s, none⟩

/-- The test both signal handlers make on the interfaces of the message. -/
def isOwned (interfaces : List Str) : Bool :=
  T.interfaces.isEmpty || T.interfaces.any fun iface => interfaces.contains iface

/-- The loop of `update` that drops the rows missing from the answer; a round
either erases a row or steps over one, so the number of rows bounds it. -/
def pruneLoop (data : Objects) : (rounds it : Nat) → State Row → State Row
  | 0, _, s => s
  | rounds + 1, it, s =>
    match s.items[it]? with
    | none => s
    | some item =>
      if data.contains (objectPath T (I.name item)) then pruneLoop data rounds (it + 1) s
      else pruneLoop data rounds it (dropAt I s it)

/-- `update`, given the mapper's answer and the answers to the `GetAll` calls. -/
def update (s : State Row) (subtree : Read Objects) (getAll : (service path : Str) → Read FieldsMap) :
    Outcome Row :=
  let data := callMethodAndRead subtree
  forEach
    (fun s pi =>
      forEach
        (fun s bi =>
          let fields := callMethodAndRead (getAll bi.1 pi.1)
          match getItem I T s pi.1 with
          | .error e => ⟨s, some e⟩
          | .ok (s, it) => setFieldsAt I s it fields)
        pi.2.entries s)
    data.entries (pruneLoop I T data s.items.length 0 s)

/-- A read error escapes this handler. -/
def onInterfacesAdded (s : State Row) (m : Read (Str × AddedData)) : Outcome Row :=
  match m with
  | .error _ => ⟨s, some .sdBusError⟩
  | .ok (path, data) =>
    if Str.startsWith path T.path && isOwned T data.keys then
      match getItem I T s path with
      | .error e => ⟨s, some e⟩
      | .ok (s, it) => forEach (fun s item => setFieldsAt I s it item.2) data.entries s
    else ⟨s, none⟩

/-- A read error is logged here, and the handler goes on with what was read. -/
def onInterfacesRemoved (s : State Row) (m : Read (Str × List Str)) : Outcome Row :=
  let (path, data) := callMethodAndRead m
  if Str.startsWith path T.path && isOwned T data then dropItem I T s path else ⟨s, none⟩

/-- Delivery of `PropertiesChanged` from `path` to the rows that registered a match for it. -/
def onPropertiesChanged (s : State Row) (path : Str) (m : Read FieldsMap) : Outcome Row :=
  let matched := fun item => decide (objectPath T (I.name item) = path)
  match m with
  | .error _ => ⟨s, if s.items.any matched then some .sdBusError else none⟩
  | .ok fields =>
    { state :=
        { items := s.items.map fun item => if matched item then (I.setFields item fields).row else item
          log := s.log ++ (s.items.filter matched).map fun item =>
            ⟨I.name item, .setFields fields, (I.setFields item fields).traps⟩ }
      raised := (s.items.filter matched).findSome? fun item => (I.setFields item fields).raised }

inductive Message where
  | update (subtree : Read Objects) (getAll : (service path : Str) → Read FieldsMap)
  | interfacesAdded (m : Read (Str × AddedData))
  | interfacesRemoved (m : Read (Str × List Str))
  | propertiesChanged (path : Str) (m : Read FieldsMap)

def handle (s : State Row) : Message → Outcome Row
  | .update subtree getAll => update I T s subtree getAll
  | .interfacesAdded m => onInterfacesAdded I T s m
  | .interfacesRemoved m => onInterfacesRemoved I T s m
  | .propertiesChanged path m => onPropertiesChanged I T s path m

def initial : State Row := ⟨[], []⟩

/-- The state after a sequence of messages; an exception ends its handler only. -/
def run (s : State Row) (ms : List Message) : State Row :=
  ms.foldl (fun s m => (handle I T s m).state) s

def State.row (I : ItemClass Row) (s : State Row) (name : Str) : Option Row := find I.name s.items name

def State.history (s : State Row) (name : Str) : List Event := s.log.filter fun e => e.name = name

def State.traps (s : State Row) (name : Str) : List Trap := (s.history name).flatMap Event.traps

end YadroSnmp.Table
