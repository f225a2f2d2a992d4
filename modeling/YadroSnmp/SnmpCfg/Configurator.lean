import YadroSnmp.Lib.Lines
import YadroSnmp.Lib.OStream
import YadroSnmp.Snmp.Trap
import YadroSnmp.SnmpCfg.Community

/-! # The configurator of the SNMP daemon

`community` and the functions below it, over the published property, the live
configuration and the temporary file. Each call gets the outcomes of its file
operations and of the reload from its environment.
-/

namespace YadroSnmp.SnmpCfg

open Lines Snmp

def newline : UInt8 := '\n'.toUInt8

/-- What succeeds during a call; `room` limits the bytes the temporary file takes. -/
structure Env where
  openRead : Bool
  openWrite : Bool
  room : Option Nat
  rename : Bool
  remove : Bool
  reload : Bool

/-- The property `Community`, `snmpd.conf` and `snmpd.conf.tmp`, if that exists. -/
structure World where
  community : Str
  conf : Str
  tmp : Option Str
deriving DecidableEq

inductive Error where
  | invalidArgument (argumentName argumentValue : Str)
  | internalFailure
deriving DecidableEq

/-- A round of the loop in `writeConfig`, on the file to write and `updated`. -/
def writeLine (value : Str) (r : OStream UInt8 × Bool) (line : Str) : OStream UInt8 × Bool :=
  let isQuoteRequired := (Str.findFirst isWhitespace value 0).isSome
  let quotes := if isQuoteRequired then [quote] else []
  let kept := ((r.1.put line).put [newline], r.2)
  match getCommunityName line with
  | some communityName =>
    if communityName ≠ value then
      (((((r.1.put (Str.lit "com2sec readonly  default\t  ")).put quotes).put value).put quotes).put
        [newline], true)
    else kept
  | none => kept

def reloadSnmpDaemon (env : Env) (w : World) : World × Option Error :=
  if env.reload then (w, none) else (w, some .internalFailure)

/-- Both files are opened before either is looked at, and opening the temporary
file empties it. A file that cannot be opened is logged, as is a failed `remove`. -/
def writeConfig (env : Env) (w : World) : World × Option Error :=
  let w := if env.openWrite then { w with tmp := some [] } else w
  if !env.openRead then (w, none)
  else if !env.openWrite then (w, none)
  else
    let r := (getlines newline w.conf).foldl (writeLine w.community) (.opened UInt8 env.room, false)
    let w := { w with tmp := some r.1.content }
    if r.2 then
      if env.rename then reloadSnmpDaemon env { w with conf := r.1.content, tmp := none }
      else (w, some .internalFailure)
    else if env.remove then ({ w with tmp := none }, none)
    else (w, none)

def communityMaxLen : Nat := 256
def communityMinLen : Nat := 1

def community (env : Env) (w : World) (value : Str) : World × Except Error Str :=
  if value.length < communityMinLen ∨ value.length > communityMaxLen then
    (w, .error (.invalidArgument (Str.lit "Community") (formatCStr value)))
  else
    match writeConfig env { w with community := value } with
    | (w, none) => (w, .ok value)
    | (w, some e) => (w, .error e)

/-- `readConfig`: the property a configurator starts with is empty. -/
def readConfig (openRead : Bool) (w : World) : World :=
  if openRead then
    match (getlines newline w.conf).findSome? getCommunityName with
    | some communityName => { w with community := communityName }
    | none => w
  else w

def restart (w : World) : World := readConfig true { w with community := [] }

/-- The line written for a value, without its end. -/
def render (value : Str) : Str :=
  let quotes := if (Str.findFirst isWhitespace value 0).isSome then [quote] else []
  Str.lit "com2sec readonly  default\t  " ++ quotes ++ value ++ quotes

def isStale (value line : Str) : Bool :=
  match getCommunityName line with
  | some communityName => decide (communityName ≠ value)
  | none => false

def rewriteLine (value line : Str) : Str := if isStale value line then render value else line

def rewritten (value conf : Str) : Str :=
  unlines newline ((getlines newline conf).map (rewriteLine value))

def Accepted (value : Str) : Prop := communityMinLen ≤ value.length ∧ value.length ≤ communityMaxLen

def HasStale (value conf : Str) : Prop := ∃ line ∈ getlines newline conf, isStale value line = true

/-- The call gets to the renaming of the temporary file. -/
def Rewrites (env : Env) (value conf : Str) : Prop :=
  Accepted value ∧ env.openRead = true ∧ env.openWrite = true ∧ HasStale value conf

instance (value : Str) : Decidable (Accepted value) := inferInstanceAs (Decidable (_ ∧ _))
instance (value conf : Str) : Decidable (HasStale value conf) := inferInstanceAs (Decidable (∃ _ ∈ _, _))
instance (env : Env) (value conf : Str) : Decidable (Rewrites env value conf) :=
  inferInstanceAs (Decidable (_ ∧ _))

section Writing

variable {room : Option Nat}

theorem writeLine_wrote (value line : Str) {total : Str} {r : OStream UInt8 × Bool}
    (h : OStream.Wrote room total r.1) :
    OStream.Wrote room (total ++ (rewriteLine value line ++ [newline])) (writeLine value r line).1 ∧
      (writeLine value r line).2 = (r.2 || isStale value line) := by
  have hKept := (h.put line).put [newline]
  rw [List.append_assoc] at hKept
  cases hName : getCommunityName line with
  | none => simpa [writeLine, rewriteLine, isStale, hName] using hKept
  | some communityName =>
    by_cases hSame : communityName = value
    · simpa [writeLine, rewriteLine, isStale, hName, hSame] using hKept
    · have hNew := ((((h.put (Str.lit "com2sec readonly  default\t  ")).put
        (if (Str.findFirst isWhitespace value 0).isSome then [quote] else [])).put value).put
        (if (Str.findFirst isWhitespace value 0).isSome then [quote] else [])).put [newline]
      simpa [writeLine, rewriteLine, isStale, hName, hSame, render] using hNew

/-- The loop writes the rewritten lines, as far as they fit, and notes whether one was replaced. -/
theorem writeLines_wrote (value : Str) (lines : List Str) {total : Str} {r : OStream UInt8 × Bool}
    (h : OStream.Wrote room total r.1) :
    OStream.Wrote room (total ++ unlines newline (lines.map (rewriteLine value)))
        (lines.foldl (writeLine value) r).1 ∧
      (lines.foldl (writeLine value) r).2 = (r.2 || lines.any (isStale value)) := by
  induction lines generalizing total r with
  | nil => simpa using h
  | cons line lines ih =>
    obtain ⟨hWrote, hUpdated⟩ := writeLine_wrote value line h
    obtain ⟨hRest, hRestUpdated⟩ := ih hWrote
    refine ⟨by simpa using hRest, ?_⟩
    rw [List.foldl_cons, hRestUpdated, hUpdated, List.any_cons, Bool.or_assoc]

end Writing

section Outcomes

variable {env : Env} {w : World} {value : Str}

theorem community_rejected (h : ¬ Accepted value) :
    community env w value =
      (w, .error (.invalidArgument (Str.lit "Community") (formatCStr value))) := by
  have hLength : value.length < communityMinLen ∨ value.length > communityMaxLen := by
    unfold Accepted at h
    omega
  rw [community, if_pos hLength]

theorem community_accepted (h : Accepted value) :
    community env w value =
      match writeConfig env { w with community := value } with
      | (w, none) => (w, .ok value)
      | (w, some e) => (w, .error e) := by
  have hLength : ¬ (value.length < communityMinLen ∨ value.length > communityMaxLen) := by
    unfold Accepted at h
    omega
  rw [community, if_neg hLength]

theorem hasStale_iff {conf : Str} :
    HasStale value conf ↔ (getlines newline conf).any (isStale value) = true := by
  rw [List.any_eq_true]
  rfl

theorem community_of_not_rewrites (hAccepted : Accepted value) (h : ¬ Rewrites env value w.conf) :
    ∃ tmp, community env w value = (⟨value, w.conf, tmp⟩, .ok value) := by
  rw [community_accepted hAccepted]
  unfold writeConfig
  cases hRead : env.openRead with
  | false =>
    cases env.openWrite with
    | false => exact ⟨_, rfl⟩
    | true => exact ⟨_, rfl⟩
  | true =>
    cases hWrite : env.openWrite with
    | false => exact ⟨_, rfl⟩
    | true =>
      obtain ⟨-, hUpdated⟩ := writeLines_wrote value (getlines newline w.conf)
        (r := (.opened UInt8 env.room, false)) OStream.wrote_opened
      have hFresh : (getlines newline w.conf).any (isStale value) = false := by
        rw [← Bool.not_eq_true, ← hasStale_iff]
        exact fun hStale => h ⟨hAccepted, hRead, hWrite, hStale⟩
      rw [hFresh] at hUpdated
      simp only [hUpdated, if_true, Bool.not_true, Bool.false_eq_true, if_false, Bool.or_self]
      cases env.remove with
      | false => exact ⟨_, rfl⟩
      | true => exact ⟨_, rfl⟩

/-- A call that gets to the renaming has written what fits of the rewritten text. -/
theorem community_of_rewrites (h : Rewrites env value w.conf) :
    community env w value =
      if env.rename then
        (⟨value, OStream.fitting env.room (rewritten value w.conf), none⟩,
          if env.reload then .ok value else .error .internalFailure)
      else
        (⟨value, w.conf, some (OStream.fitting env.room (rewritten value w.conf))⟩,
          .error .internalFailure) := by
  obtain ⟨hAccepted, hRead, hWrite, hStale⟩ := h
  obtain ⟨hWrote, hUpdated⟩ := writeLines_wrote value (getlines newline w.conf)
    (r := (.opened UInt8 env.room, false)) OStream.wrote_opened
  rw [hasStale_iff.mp hStale] at hUpdated
  have hContent := hWrote.content_eq
  rw [List.nil_append, ← rewritten] at hContent
  rw [community_accepted hAccepted]
  unfold writeConfig reloadSnmpDaemon
  simp only [hRead, hWrite, hUpdated, hContent, if_true, Bool.not_true, Bool.false_eq_true, if_false,
    Bool.or_true]
  cases env.rename with
  | false => rfl
  | true =>
    cases env.reload with
    | false => rfl
    | true => rfl

theorem community_cases (env : Env) (w : World) (value : Str) :
    (¬ Accepted value ∧ community env w value =
        (w, .error (.invalidArgument (Str.lit "Community") (formatCStr value)))) ∨
      (Accepted value ∧ ¬ Rewrites env value w.conf ∧
        ∃ tmp, community env w value = (⟨value, w.conf, tmp⟩, .ok value)) ∨
      Rewrites env value w.conf := by
  rcases Decidable.em (Rewrites env value w.conf) with hRewrites | hNot
  · exact .inr (.inr hRewrites)
  · rcases Decidable.em (Accepted value) with hAccepted | hRejected
    · exact .inr (.inl ⟨hAccepted, hNot, community_of_not_rewrites hAccepted hNot⟩)
    · exact .inl ⟨hRejected, community_rejected hRejected⟩

end Outcomes

end YadroSnmp.SnmpCfg
