import Mathlib.Data.Finset.Basic
import Mathlib.Data.List.Induction
import YadroSnmp.Lib.OrdMap

/-! # Descriptors of net-snmp in the event loop

`sdevent_snmp_update` brings the tracked descriptors in line with those
net-snmp selects. The calls on event sources are recorded in order; they
succeed.
-/

namespace YadroSnmp.Snmp

/-- `source::IO`, for input on its descriptor; `id` tells the sources ever created apart. -/
structure Source where
  id : Nat
  fd : Int
deriving DecidableEq

inductive SourceCall where
  | create (source : Source)
  | disable (source : Source)
  | erase (source : Source)
deriving DecidableEq

def SourceCall.source : SourceCall → Source
  | create source => source
  | disable source => source
  | erase source => source

abbrev FdSet := Finset Int

/-- What `snmp_select_info` returns, and the clock. -/
structure SelectInfo where
  maxfd : Int
  fdset : FdSet
  tvSec : Int
  tvUsec : Int
  now : Int

/-- `snmp_fds`, the time the timer is set to, and the calls so far. -/
structure EventLoop where
  fds : OrdMap Int Source
  created : Nat
  timer : Option Int
  calls : List SourceCall

namespace EventLoop

def init : EventLoop where
  fds := ∅
  created := 0
  timer := none
  calls := []

/-- The timer starts at time zero; without a timeout it is left as it is. -/
def setTimer (s : EventLoop) (r : SelectInfo) : EventLoop :=
  { s with
    timer := some
      (if r.tvSec ≠ 0 ∨ r.tvUsec ≠ 0 then r.now + r.tvSec * 1000000 + r.tvUsec else s.timer.getD 0) }

def untrack (s : EventLoop) (it : Nat) (source : Source) : EventLoop :=
  { s with
    fds := s.fds.eraseAt it
    calls := s.calls ++ [.disable source, .erase source] }

/-- The first loop, with the set it clears; a round erases the entry at `it` or steps over it. -/
def untrackLoop (maxfd : Int) : (rounds it : Nat) → FdSet → EventLoop → FdSet × EventLoop
  | 0, _, fdset, s => (fdset, s)
  | rounds + 1, it, fdset, s =>
    match s.fds.entries[it]? with
    | none => (fdset, s)
    | some (fd, source) =>
      if fd ≥ maxfd ∨ fd ∉ fdset then untrackLoop maxfd rounds it fdset (s.untrack it source)
      -- The bits that stay set are those the second loop has to track.
      else untrackLoop maxfd rounds (it + 1) (fdset.erase fd) s

/-- The body of the second loop for a descriptor in the set; the source is
created before `emplace` looks for the descriptor. -/
def track (s : EventLoop) (fd : Int) : EventLoop :=
  { s with
    fds := s.fds.emplace fd ⟨s.created, fd⟩
    created := s.created + 1
    calls := s.calls ++ [.create ⟨s.created, fd⟩] }

def trackLoop (fdset : FdSet) (count : Nat) (s : EventLoop) : EventLoop :=
  (List.range count).foldl (fun s fd => if (fd : Int) ∈ fdset then s.track fd else s) s

/-- `sdevent_snmp_update` -/
def update (s : EventLoop) (r : SelectInfo) : EventLoop :=
  let s := s.setTimer r
  let (fdset, s) := untrackLoop r.maxfd s.fds.entries.length 0 r.fdset s
  trackLoop fdset r.maxfd.toNat s

def run (results : List SelectInfo) : EventLoop := results.foldl update init

def history (s : EventLoop) (fd : Int) : List SourceCall := s.calls.filter fun c => c.source.fd = fd

def Wanted (r : SelectInfo) (fd : Int) : Prop := 0 ≤ fd ∧ fd < r.maxfd ∧ fd ∈ r.fdset

/-- What may become of a descriptor, from its source before to its source after:
a source that stays is not touched, and a new one was never there before. -/
inductive Turn (calls : List SourceCall) (wanted : Prop) (fd : Int) :
    Option Source → List SourceCall → Option Source → Prop
  | keep (source : Source) : wanted → Turn calls wanted fd (some source) [] (some source)
  | untrack (source : Source) : ¬ wanted →
      Turn calls wanted fd (some source) [.disable source, .erase source] none
  | track (source : Source) : wanted → source.fd = fd → (∀ c ∈ calls, c.source.id ≠ source.id) →
      Turn calls wanted fd none [.create source] (some source)
  | ignore : ¬ wanted → Turn calls wanted fd none [] none

/-- Tracked descriptors are ones a set can hold, with sources of their own,
and sources are numbered in the order of their creation. -/
structure Tracking (s : EventLoop) : Prop where
  sources : ∀ fd source, s.fds.find? fd = some source →
    0 ≤ fd ∧ source.fd = fd ∧ source.id < s.created
  past : ∀ c ∈ s.calls, c.source.id < s.created

/-- Between two moments of the first loop nothing happened to the descriptor. -/
structure Untouched (fd : Int) (before after : FdSet × EventLoop) : Prop where
  source : after.2.fds.find? fd = before.2.fds.find? fd
  ready : fd ∈ after.1 ↔ fd ∈ before.1
  history : after.2.history fd = before.2.history fd

section Untrack

variable {s : EventLoop} {fdset : FdSet} {maxfd fd k : Int} {it rounds : Nat} {source : Source}

theorem history_untrack :
    (s.untrack it source).history fd =
      s.history fd ++ if source.fd = fd then [.disable source, .erase source] else [] := by
  rw [history, untrack, List.filter_append, ← history]
  split
  · rename_i hFd
    simp [SourceCall.source, hFd]
  · rename_i hFd
    simp [SourceCall.source, hFd]

theorem Tracking.untrack (h : Tracking s) (hi : s.fds.entries[it]? = some (k, source)) :
    Tracking (s.untrack it source) := by
  refine ⟨fun fd source' hFind => ?_, fun c hc => ?_⟩
  · rw [EventLoop.untrack, OrdMap.find?_eraseAt hi] at hFind
    split at hFind
    · cases hFind
    · exact h.sources fd source' hFind
  · have hSource := (h.sources k source (OrdMap.find?_of_mem (List.mem_of_getElem? hi))).2.2
    rcases List.mem_append.mp hc with hc | hc
    · exact h.past c hc
    · rcases List.mem_pair.mp hc with rfl | rfl
      · exact hSource
      · exact hSource

theorem Untouched.untrack (h : Tracking s) (hi : s.fds.entries[it]? = some (k, source)) (hNe : k ≠ fd) :
    Untouched fd (fdset, s) (fdset, s.untrack it source) where
  source := (OrdMap.find?_eraseAt hi fd).trans (if_neg hNe.symm)
  ready := Iff.rfl
  history := by
    have hOwn := (h.sources k source (OrdMap.find?_of_mem (List.mem_of_getElem? hi))).2.1
    rw [history_untrack, if_neg (hOwn ▸ hNe), List.append_nil]

theorem Untouched.clear (hNe : k ≠ fd) : Untouched fd (fdset, s) (fdset.erase k, s) where
  source := rfl
  ready := by simp [hNe.symm]
  history := rfl

theorem Untouched.trans {p q r : FdSet × EventLoop} (h : Untouched fd p q) (h' : Untouched fd q r) :
    Untouched fd p r :=
  ⟨h'.source.trans h.source, h'.ready.trans h.ready, h'.history.trans h.history⟩

theorem tracking_untrackLoop (h : Tracking s) :
    Tracking (untrackLoop maxfd rounds it fdset s).2 ∧
      (untrackLoop maxfd rounds it fdset s).2.created = s.created := by
  induction rounds generalizing it fdset s with
  | zero => exact ⟨h, rfl⟩
  | succ rounds ih =>
    rw [untrackLoop]
    cases hi : s.fds.entries[it]? with
    | none => exact ⟨h, rfl⟩
    | some e =>
      obtain ⟨k, source⟩ := e
      simp only
      split
      · exact ih (h.untrack hi)
      · exact ih h

theorem untrackLoop_other (h : Tracking s) (hNot : ∀ e ∈ s.fds.entries.drop it, e.1 ≠ fd) :
    Untouched fd (fdset, s) (untrackLoop maxfd rounds it fdset s) := by
  induction rounds generalizing it fdset s with
  | zero => exact ⟨rfl, Iff.rfl, rfl⟩
  | succ rounds ih =>
    rw [untrackLoop]
    cases hi : s.fds.entries[it]? with
    | none => exact ⟨rfl, Iff.rfl, rfl⟩
    | some e =>
      obtain ⟨k, source⟩ := e
      rw [KeyedList.drop_of_getElem? hi, List.forall_mem_cons] at hNot
      obtain ⟨hNe, hRest⟩ := hNot
      simp only
      split
      · have hErase := (KeyedList.take_drop_eraseIdx hi).2
        exact (Untouched.untrack h hi hNe).trans (ih (h.untrack hi) (hErase.symm ▸ hRest))
      · exact (Untouched.clear hNe).trans (ih h hRest)

/-- The rounds are enough to reach every descriptor from the position on, and it is untouched till then. -/
theorem untrackLoop_reaches (h : Tracking s) (hRounds : s.fds.entries.length ≤ it + rounds)
    (hMem : (fd, source) ∈ s.fds.entries.drop it) :
    ∃ fdset' s' it' rounds', Untouched fd (fdset, s) (fdset', s') ∧ Tracking s' ∧
      s'.fds.entries[it']? = some (fd, source) ∧
      untrackLoop maxfd rounds it fdset s = untrackLoop maxfd (rounds' + 1) it' fdset' s' := by
  induction rounds generalizing it fdset s with
  | zero =>
    have hNil : s.fds.entries.drop it = [] := List.drop_of_length_le hRounds
    rw [hNil] at hMem
    cases hMem
  | succ rounds ih =>
    cases hi : s.fds.entries[it]? with
    | none =>
      rw [List.drop_of_length_le (List.getElem?_eq_none_iff.mp hi)] at hMem
      cases hMem
    | some e =>
      have hAfter := s.fds.sorted.key_ne_of_mem_drop hi
      rw [KeyedList.drop_of_getElem? hi] at hMem
      rcases List.mem_cons.mp hMem with rfl | hLater
      · exact ⟨fdset, s, it, rounds, ⟨rfl, Iff.rfl, rfl⟩, h, hi, rfl⟩
      · obtain ⟨k, source'⟩ := e
        have hNe : k ≠ fd := (hAfter _ hLater).symm
        obtain ⟨hLength, -⟩ := List.getElem?_eq_some_iff.mp hi
        rw [untrackLoop, hi]
        simp only
        split
        · have hShorter : (s.untrack it source').fds.entries.length ≤ it + rounds := by
            have hOne := List.length_eraseIdx_of_lt hLength
            change (s.fds.entries.eraseIdx it).length ≤ it + rounds
            omega
          have hErase := (KeyedList.take_drop_eraseIdx hi).2
          obtain ⟨fdset', s', it', rounds', hUntouched, hReached⟩ :=
            ih (h.untrack hi) hShorter (hErase.symm ▸ hLater)
          exact ⟨fdset', s', it', rounds', (Untouched.untrack h hi hNe).trans hUntouched, hReached⟩
        · obtain ⟨fdset', s', it', rounds', hUntouched, hReached⟩ :=
            ih h (by omega) hLater
          exact ⟨fdset', s', it', rounds', (Untouched.clear hNe).trans hUntouched, hReached⟩

/-- A tracked descriptor that is selected keeps its source and leaves the set. -/
theorem untrackLoop_keep (h : Tracking s) (hFind : s.fds.find? fd = some source)
    (hKeep : fd < maxfd ∧ fd ∈ fdset) :
    let q := untrackLoop maxfd s.fds.entries.length 0 fdset s
    q.2.fds.find? fd = some source ∧ fd ∉ q.1 ∧ q.2.history fd = s.history fd := by
  intro q
  obtain ⟨fdset', s', it', rounds', hUntouched, h', hi, hReached⟩ :=
    untrackLoop_reaches h (Nat.le_add_left _ 0) (OrdMap.find?_eq_some_iff.mp hFind)
  have hStep : q = untrackLoop maxfd rounds' (it' + 1) (fdset'.erase fd) s' := by
    rw [show q = _ from hReached, untrackLoop, hi]
    exact if_neg (by simp [hKeep.1, hUntouched.ready.mpr hKeep.2])
  have hOther : Untouched fd (fdset'.erase fd, s') q := by
    rw [hStep]
    exact untrackLoop_other h' (s'.fds.sorted.key_ne_of_mem_drop hi)
  refine ⟨hOther.source.trans (hUntouched.source.trans hFind), ?_, hOther.history.trans hUntouched.history⟩
  simp [hOther.ready]

theorem untrackLoop_drop (h : Tracking s) (hFind : s.fds.find? fd = some source)
    (hDrop : ¬ (fd < maxfd ∧ fd ∈ fdset)) :
    let q := untrackLoop maxfd s.fds.entries.length 0 fdset s
    q.2.fds.find? fd = none ∧ (fd ∈ q.1 ↔ fd ∈ fdset) ∧
      q.2.history fd = s.history fd ++ [.disable source, .erase source] := by
  intro q
  obtain ⟨fdset', s', it', rounds', hUntouched, h', hi, hReached⟩ :=
    untrackLoop_reaches h (Nat.le_add_left _ 0) (OrdMap.find?_eq_some_iff.mp hFind)
  have hStep : q = untrackLoop maxfd rounds' it' fdset' (s'.untrack it' source) := by
    rw [show q = _ from hReached, untrackLoop, hi]
    apply if_pos
    rw [hUntouched.ready]
    by_contra hNone
    exact hDrop (by simpa using hNone)
  have hOwn := (h.sources fd source hFind).2.1
  have hOther : Untouched fd (fdset', s'.untrack it' source) q := by
    have hAfter := s'.fds.sorted.key_ne_of_mem_drop hi
    rw [← (KeyedList.take_drop_eraseIdx hi).2] at hAfter
    rw [hStep]
    exact untrackLoop_other (h'.untrack hi) hAfter
  refine ⟨hOther.source.trans ?_, hOther.ready.trans hUntouched.ready, hOther.history.trans ?_⟩
  · exact (OrdMap.find?_eraseAt hi fd).trans (if_pos rfl)
  · rw [history_untrack, if_pos hOwn, hUntouched.history]

end Untrack

section Track

variable {s : EventLoop} {fdset : FdSet} {fd k : Int} {count : Nat}

theorem history_track :
    (s.track k).history fd = s.history fd ++ if k = fd then [.create ⟨s.created, fd⟩] else [] := by
  rw [history, track, List.filter_append, ← history]
  split
  · rename_i hFd
    simp [SourceCall.source, hFd]
  · rename_i hFd
    simp [SourceCall.source, hFd]

theorem Tracking.track (h : Tracking s) (hk : 0 ≤ k) : Tracking (s.track k) := by
  refine ⟨fun fd source hFind => ?_, fun c hc => ?_⟩
  · change (s.fds.emplace k ⟨s.created, k⟩).find? fd = some source at hFind
    rw [OrdMap.find?_emplace] at hFind
    split at hFind
    · rename_i hSame
      subst hSame
      cases hOld : s.fds.find? fd with
      | none =>
        rw [hOld] at hFind
        cases hFind
        exact ⟨hk, rfl, Nat.lt_succ_self _⟩
      | some old =>
        rw [hOld] at hFind
        cases hFind
        obtain ⟨hFd, hOwn, hId⟩ := h.sources fd _ hOld
        exact ⟨hFd, hOwn, Nat.lt_succ_of_lt hId⟩
    · obtain ⟨hFd, hOwn, hId⟩ := h.sources fd _ hFind
      exact ⟨hFd, hOwn, Nat.lt_succ_of_lt hId⟩
  · rcases List.mem_append.mp hc with hc | hc
    · exact Nat.lt_succ_of_lt (h.past c hc)
    · rw [List.mem_singleton.mp hc]
      exact Nat.lt_succ_self _

theorem trackLoop_succ :
    trackLoop fdset (count + 1) s =
      if (count : Int) ∈ fdset then (trackLoop fdset count s).track count else trackLoop fdset count s := by
  simp [trackLoop, List.range_succ]

theorem tracking_trackLoop (h : Tracking s) :
    Tracking (trackLoop fdset count s) ∧ s.created ≤ (trackLoop fdset count s).created := by
  induction count with
  | zero => exact ⟨h, le_rfl⟩
  | succ count ih =>
    rw [trackLoop_succ]
    split
    · exact ⟨ih.1.track (Int.natCast_nonneg count), ih.2.trans (Nat.le_succ _)⟩
    · exact ih

theorem trackLoop_other (s : EventLoop) (fdset : FdSet) (count : Nat) {fd : Int}
    (hNot : ¬ (0 ≤ fd ∧ fd < count ∧ fd ∈ fdset)) :
    (trackLoop fdset count s).fds.find? fd = s.fds.find? fd ∧
      (trackLoop fdset count s).history fd = s.history fd := by
  induction count with
  | zero => exact ⟨rfl, rfl⟩
  | succ count ih =>
    obtain ⟨hFind, hHistory⟩ := ih fun ⟨h0, hLt, hMem⟩ => hNot ⟨h0, by omega, hMem⟩
    rw [trackLoop_succ]
    split
    · rename_i hMem
      have hNe : (count : Int) ≠ fd := by
        rintro rfl
        exact hNot ⟨Int.natCast_nonneg count, by omega, hMem⟩
      refine ⟨?_, ?_⟩
      · rw [track, OrdMap.find?_emplace, if_neg hNe.symm, hFind]
      · rw [history_track, if_neg hNe, List.append_nil, hHistory]
    · exact ⟨hFind, hHistory⟩

theorem trackLoop_new (h : Tracking s) (h0 : 0 ≤ fd) (hLt : fd < count) (hMem : fd ∈ fdset)
    (hNew : s.fds.find? fd = none) :
    ∃ id, s.created ≤ id ∧ (trackLoop fdset count s).fds.find? fd = some ⟨id, fd⟩ ∧
      (trackLoop fdset count s).history fd = s.history fd ++ [.create ⟨id, fd⟩] := by
  induction count with
  | zero => omega
  | succ count ih =>
    rw [trackLoop_succ]
    rcases eq_or_ne (count : Int) fd with rfl | hNe
    · have hPast : ¬ (0 ≤ (count : Int) ∧ (count : Int) < count ∧ (count : Int) ∈ fdset) := by omega
      obtain ⟨hFind, hHistory⟩ := trackLoop_other s fdset count hPast
      rw [if_pos hMem]
      refine ⟨(trackLoop fdset count s).created, (tracking_trackLoop h).2, ?_, ?_⟩
      · rw [track, OrdMap.find?_emplace, if_pos rfl, hFind, hNew, Option.getD_none]
      · rw [history_track, if_pos rfl, hHistory]
    · obtain ⟨id, hId, hFind, hHistory⟩ := ih (by omega)
      refine ⟨id, hId, ?_⟩
      split
      · rw [history_track, if_neg hNe, List.append_nil, track, OrdMap.find?_emplace, if_neg hNe.symm]
        exact ⟨hFind, hHistory⟩
      · exact ⟨hFind, hHistory⟩

end Track

section Update

variable {s : EventLoop} {r : SelectInfo}

theorem Tracking.setTimer (h : Tracking s) : Tracking (s.setTimer r) := ⟨h.sources, h.past⟩

theorem Tracking.update (h : Tracking s) : Tracking (s.update r) :=
  (tracking_trackLoop (tracking_untrackLoop h.setTimer).1).1

theorem tracking_run (results : List SelectInfo) : Tracking (run results) := by
  induction results using List.reverseRecOn with
  | nil =>
    refine ⟨?_, ?_⟩
    · rintro fd source ⟨⟩
    · rintro c ⟨⟩
  | append_singleton results r ih =>
    rw [run, List.foldl_append]
    exact ih.update

section Loops

variable {fd : Int}

theorem turn_of_tracked (h : Tracking s) {source : Source} (hFind : s.fds.find? fd = some source) :
    let q := untrackLoop r.maxfd s.fds.entries.length 0 r.fdset s
    let t := trackLoop q.1 r.maxfd.toNat q.2
    ∃ calls, t.history fd = s.history fd ++ calls ∧
      Turn s.calls (Wanted r fd) fd (some source) calls (t.fds.find? fd) := by
  intro q t
  obtain ⟨h0, -, -⟩ := h.sources fd source hFind
  by_cases hWanted : Wanted r fd
  · obtain ⟨hKept, hReady, hHistory⟩ := untrackLoop_keep h hFind hWanted.2
    obtain ⟨hAfter, hCalls⟩ := trackLoop_other q.2 q.1 r.maxfd.toNat fun hBits => hReady hBits.2.2
    refine ⟨[], ?_, ?_⟩
    · rw [hCalls, hHistory, List.append_nil]
    · rw [hAfter, hKept]
      exact .keep source hWanted
  · have hDrop : ¬ (fd < r.maxfd ∧ fd ∈ r.fdset) := fun hBits => hWanted ⟨h0, hBits⟩
    obtain ⟨hGone, hReady, hHistory⟩ := untrackLoop_drop h hFind hDrop
    have hNot : ¬ (0 ≤ fd ∧ fd < r.maxfd.toNat ∧ fd ∈ q.1) := fun ⟨_, hLt, hMem⟩ =>
      hDrop ⟨by omega, hReady.mp hMem⟩
    obtain ⟨hAfter, hCalls⟩ := trackLoop_other q.2 q.1 r.maxfd.toNat hNot
    refine ⟨[.disable source, .erase source], hCalls.trans hHistory, ?_⟩
    rw [hAfter, hGone]
    exact .untrack source hWanted

/-- The first loop leaves the bit of an untracked descriptor for the second. -/
theorem turn_of_untracked (h : Tracking s) (hFind : s.fds.find? fd = none) :
    let q := untrackLoop r.maxfd s.fds.entries.length 0 r.fdset s
    let t := trackLoop q.1 r.maxfd.toNat q.2
    ∃ calls, t.history fd = s.history fd ++ calls ∧
      Turn s.calls (Wanted r fd) fd none calls (t.fds.find? fd) := by
  intro q t
  obtain ⟨hMiddle, hCreated⟩ : Tracking q.2 ∧ q.2.created = s.created := tracking_untrackLoop h
  have hUntouched : Untouched fd (r.fdset, s) q := by
    apply untrackLoop_other h
    rintro ⟨k, source⟩ hMem rfl
    rw [OrdMap.find?_of_mem (List.mem_of_mem_drop hMem)] at hFind
    cases hFind
  have hNone : q.2.fds.find? fd = none := hUntouched.source.trans hFind
  by_cases hWanted : Wanted r fd
  · obtain ⟨h0, hLt, hMem⟩ := hWanted
    have hCount : fd < r.maxfd.toNat := by omega
    obtain ⟨id, hId, hAfter, hCalls⟩ :=
      trackLoop_new hMiddle h0 hCount (hUntouched.ready.mpr hMem) hNone
    refine ⟨[.create ⟨id, fd⟩], ?_, ?_⟩
    · rw [hCalls, hUntouched.history]
    · rw [hAfter]
      refine .track ⟨id, fd⟩ ⟨h0, hLt, hMem⟩ rfl fun c hc => ?_
      have hPast := h.past c hc
      exact Nat.ne_of_lt (hPast.trans_le (hCreated ▸ hId))
  · have hNot : ¬ (0 ≤ fd ∧ fd < r.maxfd.toNat ∧ fd ∈ q.1) := fun ⟨h0, hLt, hMem⟩ =>
      hWanted ⟨h0, by omega, hUntouched.ready.mp hMem⟩
    obtain ⟨hAfter, hCalls⟩ := trackLoop_other q.2 q.1 r.maxfd.toNat hNot
    refine ⟨[], ?_, ?_⟩
    · rw [hCalls, hUntouched.history, List.append_nil]
    · rw [hAfter, hNone]
      exact .ignore hWanted

theorem turn_loops (h : Tracking s) (fd : Int) :
    let q := untrackLoop r.maxfd s.fds.entries.length 0 r.fdset s
    let t := trackLoop q.1 r.maxfd.toNat q.2
    ∃ calls, t.history fd = s.history fd ++ calls ∧
      Turn s.calls (Wanted r fd) fd (s.fds.find? fd) calls (t.fds.find? fd) := by
  cases hFind : s.fds.find? fd with
  | some source => exact turn_of_tracked h hFind
  | none => exact turn_of_untracked h hFind

end Loops

theorem Turn.isSome_iff {calls : List SourceCall} {wanted : Prop} {fd : Int} {before after : Option Source}
    {actions : List SourceCall} (h : Turn calls wanted fd before actions after) :
    after.isSome ↔ wanted := by
  cases h with
  | keep source hWanted => simp [hWanted]
  | untrack source hWanted => simp [hWanted]
  | track source hWanted => simp [hWanted]
  | ignore hWanted => simp [hWanted]

end Update

/-- After any updates one more leaves exactly the selected descriptors tracked,
and calls the sources of each descriptor no further than its turn asks for. -/
theorem update_tracks_exactly (results : List SelectInfo) (r : SelectInfo) :
    let s := run results
    let t := s.update r
    (∀ fd, fd ∈ t.fds.keys ↔ Wanted r fd) ∧
      ∀ fd, ∃ calls, t.history fd = s.history fd ++ calls ∧
        Turn s.calls (Wanted r fd) fd (s.fds.find? fd) calls (t.fds.find? fd) := by
  intro s t
  have hTurn : ∀ fd, ∃ calls, t.history fd = s.history fd ++ calls ∧
      Turn s.calls (Wanted r fd) fd (s.fds.find? fd) calls (t.fds.find? fd) :=
    turn_loops (tracking_run results).setTimer
  refine ⟨fun fd => ?_, hTurn⟩
  obtain ⟨calls, -, hTurn⟩ := hTurn fd
  rw [← OrdMap.find?_isSome_iff]
  exact hTurn.isSome_iff

end EventLoop

end YadroSnmp.Snmp
