import YadroSnmp.Lib.Responder
import YadroSnmp.SnmpCfg.Persistence

/-! # The configurator as a register

Over its life the service publishes a value and keeps a document of community
entries and other lines. Setting a value replaces all community entries or
none, and a restart publishes the first of them. The calls of the configurator
on its files refine this, for values that survive being written.
-/

namespace YadroSnmp.SnmpCfg

open Lines Responder

/-- What reaches the service: a call, or the end of its process and a new one. -/
inductive Request where
  | set (env : Env) (value : Str)
  | restart (openRead : Bool)

/-- A restart answers nothing. -/
def serve (w : World) : Request → World × Option (Except Error Str)
  | .set env value => ((community env w value).1, some (community env w value).2)
  | .restart openRead => (readConfig openRead { w with community := [] }, none)

inductive Entry where
  | community (name : Str)
  | other (line : Str)
deriving DecidableEq

namespace Entry

def name? : Entry → Option Str
  | community name => some name
  | other _ => none

def put (value : Str) : Entry → Entry
  | community _ => community value
  | other line => other line

def ofLine (line : Str) : Entry :=
  match getCommunityName line with
  | some name => community name
  | none => other line

end Entry

/-- The abstract service: what is published, and the entries in the store. -/
structure Register where
  published : Str
  document : List Entry
deriving DecidableEq

namespace Register

def stored (r : Register) : Option Str := r.document.findSome? Entry.name?

def replace (r : Register) (value : Str) : Register :=
  { r with document := r.document.map (Entry.put value) }

/-- Entries that would change need the files, and then a rename that takes effect at once. -/
def set (r : Register) (env : Env) (value : Str) : Register × Except Error Str :=
  if ¬ Accepted value then
    (r, .error (.invalidArgument (Str.lit "Community") (Snmp.formatCStr value)))
  else
    let r := { r with published := value }
    if r.replace value = r ∨ env.openRead = false ∨ env.openWrite = false then (r, .ok value)
    else if env.rename = false then (r, .error .internalFailure)
    else (r.replace value, if env.reload then .ok value else .error .internalFailure)

def restart (r : Register) (openRead : Bool) : Register :=
  { r with published := if openRead then r.stored.getD [] else [] }

def serve (r : Register) : Request → Register × Option (Except Error Str)
  | .set env value => ((r.set env value).1, some (r.set env value).2)
  | .restart openRead => (r.restart openRead, none)

def ofWorld (w : World) : Register := ⟨w.community, (getlines newline w.conf).map Entry.ofLine⟩

end Register

namespace Request

/-- A value that is read back as it was written, on a device with room for the file. -/
def Plain : Request → Prop
  | set env value => env.room = none ∧ newline ∉ value ∧ ¬ SelfQuoted value
  | restart _ => True

instance (request : Request) : Decidable request.Plain :=
  match request with
  | set _ _ => inferInstanceAs (Decidable (_ ∧ _ ∧ _))
  | restart _ => inferInstanceAs (Decidable True)

end Request

section Entries

variable {value line conf : Str}

theorem put_ofLine_eq_iff : (Entry.ofLine line).put value = Entry.ofLine line ↔ isStale value line = false := by
  unfold Entry.ofLine isStale
  cases getCommunityName line with
  | none => exact iff_of_true rfl rfl
  | some name =>
    simp only [Entry.put, Entry.community.injEq, decide_eq_false_iff_not, not_not]
    exact eq_comm

theorem replace_eq_iff {w : World} :
    (Register.ofWorld w).replace value = Register.ofWorld w ↔ ¬ HasStale value w.conf := by
  rw [Register.replace, Register.ofWorld, Register.mk.injEq, and_iff_right rfl, List.map_map,
    List.map_inj_left, hasStale_iff]
  simp only [Function.comp_apply, put_ofLine_eq_iff, Bool.not_eq_true, List.any_eq_false]

theorem ofLine_rewriteLine (hValue : value ≠ []) (hPlain : ¬ SelfQuoted value) :
    Entry.ofLine (rewriteLine value line) = (Entry.ofLine line).put value := by
  cases hStale : isStale value line with
  | true =>
    have hRead := (getCommunityName_render_eq_iff hValue).mpr hPlain
    obtain ⟨name, hName, -⟩ := isStale_iff.mp hStale
    rw [rewriteLine_of_stale hStale]
    simp [Entry.ofLine, hRead, hName, Entry.put]
  | false => rw [rewriteLine_of_fresh hStale, put_ofLine_eq_iff.mpr hStale]

theorem document_rewritten (hValue : value ≠ []) (hLine : newline ∉ value) (hPlain : ¬ SelfQuoted value) :
    (getlines newline (rewritten value conf)).map Entry.ofLine =
      ((getlines newline conf).map Entry.ofLine).map (Entry.put value) := by
  rw [getlines_rewritten hLine, List.map_map, List.map_map]
  exact List.map_congr_left fun line _ => ofLine_rewriteLine hValue hPlain

theorem stored_ofWorld (w : World) :
    (Register.ofWorld w).stored = (getlines newline w.conf).findSome? getCommunityName := by
  rw [Register.stored, Register.ofWorld, List.findSome?_map]
  congr 1
  funext line
  simp only [Function.comp_apply, Entry.ofLine]
  cases getCommunityName line with
  | none => rfl
  | some name => rfl

end Entries

section Steps

variable {w : World} {env : Env} {value : Str}

theorem community_refines (hRoom : env.room = none) (hLine : newline ∉ value) (hPlain : ¬ SelfQuoted value) :
    (Register.ofWorld w).set env value =
      (Register.ofWorld (community env w value).1, (community env w value).2) := by
  rcases community_cases env w value with ⟨hRejected, hCall⟩ | ⟨hAccepted, hNot, tmp, hCall⟩ | hRewrites
  · rw [Register.set, if_pos hRejected, hCall]
  · have hKept : (Register.ofWorld ⟨value, w.conf, w.tmp⟩).replace value = Register.ofWorld ⟨value, w.conf, w.tmp⟩ ∨
        env.openRead = false ∨ env.openWrite = false := by
      rw [replace_eq_iff]
      by_contra hAll
      simp only [not_or, not_not, Bool.not_eq_false] at hAll
      exact hNot ⟨hAccepted, hAll.2.1, hAll.2.2, hAll.1⟩
    rw [Register.set, if_neg (not_not_intro hAccepted), hCall]
    exact if_pos hKept
  · obtain ⟨hAccepted, hRead, hWrite, hStale⟩ := hRewrites
    have hChanges : ¬ ((Register.ofWorld ⟨value, w.conf, w.tmp⟩).replace value =
        Register.ofWorld ⟨value, w.conf, w.tmp⟩ ∨ env.openRead = false ∨ env.openWrite = false) := by
      rw [replace_eq_iff]
      simp [hStale, hRead, hWrite]
    rw [Register.set, if_neg (not_not_intro hAccepted), community_of_rewrites ⟨hAccepted, hRead, hWrite, hStale⟩,
      hRoom]
    refine (if_neg hChanges).trans ?_
    cases hRename : env.rename with
    | false => rfl
    | true =>
      have hDocument := @document_rewritten value w.conf hAccepted.ne_nil hLine hPlain
      simp only [Bool.true_eq_false, if_false, if_true, Register.replace, Register.ofWorld, OStream.fitting,
        hDocument]

/-- What a new process publishes; the files are only read. -/
theorem readConfig_eq (openRead : Bool) (w : World) :
    readConfig openRead { w with community := [] } =
      ⟨if openRead then ((getlines newline w.conf).findSome? getCommunityName).getD [] else [],
        w.conf, w.tmp⟩ := by
  unfold readConfig
  cases openRead with
  | false => rfl
  | true =>
    simp only [if_true]
    cases (getlines newline w.conf).findSome? getCommunityName with
    | none => rfl
    | some name => rfl

theorem restart_refines (w : World) (openRead : Bool) :
    (Register.ofWorld w).restart openRead =
      Register.ofWorld (readConfig openRead { w with community := [] }) := by
  rw [Register.restart, stored_ofWorld, readConfig_eq]
  rfl

theorem serve_refines : Refines serve Register.serve Register.ofWorld Request.Plain := by
  intro w request hPlain
  cases request with
  | set env value =>
    obtain ⟨hRoom, hLine, hQuotes⟩ := hPlain
    simp only [Register.serve, serve, community_refines hRoom hLine hQuotes]
  | restart openRead => simp only [Register.serve, serve, restart_refines]

end Steps

section Sequences

variable {requests : List Request}

/-- For values that are read back, the configurator cannot be told from the register. -/
theorem service_refines (w : World) (hPlain : ∀ request ∈ requests, request.Plain) :
    run Register.serve (Register.ofWorld w) requests =
      (Register.ofWorld (run serve w requests).1, (run serve w requests).2) :=
  Refines.run serve_refines hPlain w

section Public

def publicRequests : List Request :=
  [.set working (Str.lit "private"), .set { working with rename := false } (Str.lit "other"), .restart true]

theorem public_served :
    run Register.serve (Register.ofWorld publicWorld) publicRequests =
      (Register.ofWorld (run serve publicWorld publicRequests).1,
        [some (.ok (Str.lit "private")), some (.error .internalFailure), none]) :=
  (service_refines publicWorld (by decide)).trans (by decide)

end Public

end Sequences

end YadroSnmp.SnmpCfg
