import YadroSnmp.Lib.Run
import YadroSnmp.Lib.Updates

/-! # A copy fed by snapshots and updates

One owner of a set of values, one channel and one reader that keeps a row. The
row is opened by a snapshot of the values, from the channel or on request, and
then follows the updates sent while it exists. `Fresh` is the invariant under
which the row shows the values whenever nothing is on its way to it.
-/

namespace Replica

open OrdMap

variable {κ α ρ : Type*} [LinearOrder κ]

/-- A row type: how a map is applied to a row and when the row shows a value.
Maps that are not `fit` may be refused. -/
structure Copy (κ α ρ : Type*) [LinearOrder κ] where
  fit : OrdMap κ α → Prop
  set : ρ → OrdMap κ α → ρ
  shows : ρ → κ → α → Prop
  shows_set : ∀ {r m k v}, fit m → m.find? k = some v → shows (set r m) k v
  shows_keep : ∀ {r m k v}, fit m → m.find? k = none → shows r k v → shows (set r m) k v

/-- What the reader holds: nothing, maps to open the row with, or maps left to apply. -/
inductive Hand (κ α : Type*) [LinearOrder κ] where
  | free
  | opening (maps : List (OrdMap κ α))
  | filling (maps : List (OrdMap κ α))

inductive Mail (κ α : Type*) [LinearOrder κ] where
  | opened (maps : List (OrdMap κ α))
  | changed (map : OrdMap κ α)

def Hand.maps : Hand κ α → List (OrdMap κ α)
  | .free => []
  | .opening maps => maps
  | .filling maps => maps

def Mail.maps : Mail κ α → List (OrdMap κ α)
  | .opened maps => maps
  | .changed map => [map]

structure Lane (κ α ρ : Type*) [LinearOrder κ] where
  values : OrdMap κ α
  hand : Hand κ α
  mail : List (Mail κ α)
  row : Option ρ

def Lane.flight (l : Lane κ α ρ) : List (OrdMap κ α) := l.hand.maps ++ l.mail.flatMap Mail.maps

def Carries (maps : List (OrdMap κ α)) (values : OrdMap κ α) : Prop :=
  ∀ k, latest maps k = values.find? k

/-- Every value is carried by one of the maps, in some version. -/
def Covers (maps : List (OrdMap κ α)) (values : OrdMap κ α) : Prop :=
  ∀ k, latest maps k = none → values.find? k = none

/-- Every opening in the channel, with what follows it, covers the values. -/
def Openings (values : OrdMap κ α) : List (Mail κ α) → Prop
  | [] => True
  | .opened maps :: rest => Covers (maps ++ rest.flatMap Mail.maps) values ∧ Openings values rest
  | .changed _ :: rest => Openings values rest

inductive Step (C : Copy κ α ρ) (made : ρ) : Lane κ α ρ → Lane κ α ρ → Prop
  /-- A change while the row exists is sent to it. -/
  | change {values hand mail r m} : C.fit m →
      Step C made ⟨values, hand, mail, some r⟩ ⟨values.overlay m, hand, mail ++ [.changed m], some r⟩
  /-- A change that nobody is told about, with nothing on its way. -/
  | changeUnseen {values m} :
      Step C made ⟨values, .free, [], none⟩ ⟨values.overlay m, .free, [], none⟩
  | announce {values hand mail row maps} : Carries maps values → (∀ m ∈ maps, C.fit m) →
      Step C made ⟨values, hand, mail, row⟩ ⟨values, hand, mail ++ [.opened maps], row⟩
  | ask {values mail row} : C.fit values →
      Step C made ⟨values, .free, mail, row⟩ ⟨values, .opening [values], mail, row⟩
  | take {values maps mail row} :
      Step C made ⟨values, .free, .opened maps :: mail, row⟩ ⟨values, .opening maps, mail, row⟩
  | «open» {values maps mail row} :
      Step C made ⟨values, .opening maps, mail, row⟩
        ⟨values, .filling maps, mail, some (row.getD made)⟩
  | set {values m maps mail r} :
      Step C made ⟨values, .filling (m :: maps), mail, some r⟩
        ⟨values, .filling maps, mail, some (C.set r m)⟩
  | filled {values mail row} : Step C made ⟨values, .filling [], mail, row⟩ ⟨values, .free, mail, row⟩
  | receive {values m mail row} :
      Step C made ⟨values, .free, .changed m :: mail, row⟩
        ⟨values, .free, mail, row.map fun r => C.set r m⟩
  | drop {values mail row} : Step C made ⟨values, .free, mail, row⟩ ⟨values, .free, mail, none⟩

structure Fresh (C : Copy κ α ρ) (l : Lane κ α ρ) : Prop where
  fit : ∀ m ∈ l.flight, C.fit m
  current : ∀ k v, latest l.flight k = some v → l.values.find? k = some v
  opening : ∀ maps, l.hand = .opening maps → Covers l.flight l.values
  openings : Openings l.values l.mail
  shown : ∀ r k v, l.row = some r → latest l.flight k = none → l.values.find? k = some v → C.shows r k v

variable {C : Copy κ α ρ} {made : ρ} {l l' : Lane κ α ρ} {values values' : OrdMap κ α}

/-- What is sent last must carry every value that it changes or finds uncarried. -/
theorem Covers.snoc {maps : List (OrdMap κ α)} {x : Mail κ α} (h : Covers maps values)
    (hSent : ∀ k, latest x.maps k = none → values'.find? k = values.find? k) :
    Covers (maps ++ x.maps) values' := by
  intro k hk
  rw [latest_append, Option.or_eq_none_iff] at hk
  rw [hSent k hk.1]
  exact h k hk.2

theorem Openings.snoc {mail : List (Mail κ α)} {x : Mail κ α} (h : Openings values mail)
    (hSent : ∀ k, latest x.maps k = none → values'.find? k = values.find? k)
    (hLast : Openings values' [x]) : Openings values' (mail ++ [x]) := by
  induction mail with
  | nil => exact hLast
  | cons y mail ih =>
    cases y with
    | changed => exact ih h
    | opened maps =>
      refine ⟨?_, ih h.2⟩
      have hCovers := h.1.snoc hSent
      simpa using hCovers

/-- Applying the next map in flight keeps the row right about what no later map carries. -/
theorem shows_next {m : OrdMap κ α} {maps : List (OrdMap κ α)} {r : ρ} {k : κ} {v : α}
    (hFit : C.fit m) (hCurrent : ∀ v, latest (m :: maps) k = some v → values.find? k = some v)
    (hShown : latest (m :: maps) k = none → C.shows r k v) (hLater : latest maps k = none)
    (hValue : values.find? k = some v) : C.shows (C.set r m) k v := by
  rw [latest_cons, hLater, Option.none_or] at hCurrent hShown
  cases hm : m.find? k with
  | none => exact C.shows_keep hFit hm (hShown hm)
  | some u =>
    obtain rfl : u = v := Option.some.inj ((hCurrent u hm).symm.trans hValue)
    exact C.shows_set hFit hm

section Send

variable {hand : Hand κ α} {mail : List (Mail κ α)} {row : Option ρ} {x : Mail κ α}

theorem Fresh.send (h : Fresh C ⟨values, hand, mail, row⟩) (hFit : ∀ m ∈ x.maps, C.fit m)
    (hCarried : ∀ k v, latest x.maps k = some v → values'.find? k = some v)
    (hSent : ∀ k, latest x.maps k = none → values'.find? k = values.find? k)
    (hLast : Openings values' [x]) : Fresh C ⟨values', hand, mail ++ [x], row⟩ := by
  have hFlight : (Lane.mk values' hand (mail ++ [x]) row).flight =
      (Lane.mk values hand mail row).flight ++ x.maps := by
    simp [Lane.flight]
  constructor
  · intro m hm
    rw [hFlight] at hm
    exact (List.mem_append.mp hm).elim (h.fit m) (hFit m)
  · intro k v hk
    rw [hFlight, latest_append] at hk
    cases hLatest : latest x.maps k with
    | some u =>
      rw [hLatest] at hk
      exact hk ▸ hCarried k u hLatest
    | none =>
      rw [hLatest, Option.none_or] at hk
      exact (hSent k hLatest).trans (h.current k v hk)
  · intro maps hHand
    rw [hFlight]
    exact (h.opening maps hHand).snoc hSent
  · exact h.openings.snoc hSent hLast
  · intro r k v hRow hk hValue
    rw [hFlight, latest_append, Option.or_eq_none_iff] at hk
    exact h.shown r k v hRow hk.2 ((hSent k hk.1).symm.trans hValue)

end Send

theorem Fresh.move {hand hand' : Hand κ α} {mail mail' : List (Mail κ α)} {row : Option ρ}
    (h : Fresh C ⟨values, hand, mail, row⟩)
    (hFlight : hand'.maps ++ mail'.flatMap Mail.maps = hand.maps ++ mail.flatMap Mail.maps)
    (hOpening : ∀ maps, hand' = .opening maps → Covers (hand.maps ++ mail.flatMap Mail.maps) values)
    (hOpenings : Openings values mail') : Fresh C ⟨values, hand', mail', row⟩ := by
  have hSame : (Lane.mk values hand' mail' row).flight = (Lane.mk values hand mail row).flight := hFlight
  constructor
  · rw [hSame]
    exact h.fit
  · rw [hSame]
    exact h.current
  · rw [hSame]
    exact hOpening
  · exact hOpenings
  · rw [hSame]
    exact h.shown

theorem Fresh.apply {hand hand' : Hand κ α} {mail mail' : List (Mail κ α)} {row : Option ρ}
    {m : OrdMap κ α} (h : Fresh C ⟨values, hand, mail, row⟩)
    (hFlight : hand.maps ++ mail.flatMap Mail.maps = m :: (hand'.maps ++ mail'.flatMap Mail.maps))
    (hOpening : ∀ maps, hand' ≠ .opening maps) (hOpenings : Openings values mail') :
    Fresh C ⟨values, hand', mail', row.map fun r => C.set r m⟩ := by
  have hNext : (Lane.mk values hand mail row).flight =
      m :: (Lane.mk values hand' mail' (row.map fun r => C.set r m)).flight := hFlight
  have hFit := h.fit
  have hCurrent := h.current
  have hShown := h.shown
  rw [hNext] at hFit hCurrent hShown
  constructor
  · exact fun m' hm' => hFit m' (List.mem_cons_of_mem m hm')
  · intro k v hk
    apply hCurrent
    rw [latest_cons, hk, Option.some_or]
  · exact fun maps hHand => absurd hHand (hOpening maps)
  · exact hOpenings
  · intro r k v hRow hk hValue
    obtain ⟨r', rfl, rfl⟩ := Option.map_eq_some_iff.mp hRow
    exact shows_next (hFit m List.mem_cons_self) (hCurrent k)
      (fun hLatest => hShown r' k v rfl hLatest hValue) hk hValue

/-- A reply comes before what is queued, which carries current values only. -/
theorem Fresh.ask {mail : List (Mail κ α)} {row : Option ρ} (h : Fresh C ⟨values, .free, mail, row⟩)
    (hFit : C.fit values) : Fresh C ⟨values, .opening [values], mail, row⟩ := by
  have hFlight : (Lane.mk values (.opening [values]) mail row).flight =
      values :: (Lane.mk values .free mail row).flight := rfl
  constructor
  · rw [hFlight]
    rintro m (_ | ⟨_, hm⟩)
    · exact hFit
    · exact h.fit m hm
  · intro k v hk
    rw [hFlight, latest_cons, Option.or_eq_some_iff] at hk
    rcases hk with hk | ⟨-, hk⟩
    · exact h.current k v hk
    · exact hk
  · intro maps _ k hk
    rw [hFlight, latest_cons, Option.or_eq_none_iff] at hk
    exact hk.2
  · exact h.openings
  · intro r k v _ hk hValue
    rw [hFlight, latest_cons, Option.or_eq_none_iff] at hk
    exact absurd (hk.2.symm.trans hValue) (by simp)

theorem Step.fresh (hStep : Step C made l l') (h : Fresh C l) : Fresh C l' := by
  cases hStep with
  | change hFit =>
    refine h.send (by simpa [Mail.maps]) ?_ ?_ trivial
    · intro k v hk
      have hm := by simpa [Mail.maps] using hk
      simp [hm]
    · intro k hk
      have hm := by simpa [Mail.maps] using hk
      simp [hm]
  | changeUnseen =>
    exact ⟨by simp [Lane.flight, Hand.maps], by simp [Lane.flight, Hand.maps], by simp, trivial, by simp⟩
  | announce hCarries hFit =>
    refine h.send hFit (fun k v hk => (hCarries k).symm.trans hk) (fun _ _ => rfl) ⟨?_, trivial⟩
    intro k hk
    rw [List.flatMap_nil, List.append_nil] at hk
    exact (hCarries k).symm.trans hk
  | ask hFit => exact h.ask hFit
  | take => exact h.move rfl (fun _ _ => h.openings.1) h.openings.2
  | @«open» values maps mail row =>
    have hMoved : Fresh C ⟨values, .filling maps, mail, row⟩ := h.move rfl (by simp) h.openings
    refine ⟨hMoved.fit, hMoved.current, hMoved.opening, hMoved.openings, ?_⟩
    -- an opening covers the values, so there is nothing the new row has to show
    intro r k v _ hk hValue
    rw [h.opening _ rfl k hk] at hValue
    cases hValue
  | set => exact h.apply rfl (by simp) h.openings
  | filled => exact h.move rfl (by simp) h.openings
  | receive => exact h.apply rfl (by simp) h.openings
  | drop => exact ⟨h.fit, h.current, h.opening, h.openings, by simp⟩

/-- With nothing on its way, the row shows the values. -/
theorem Fresh.quiet {r : ρ} (h : Fresh C l) (hFlight : l.flight = []) (hRow : l.row = some r)
    {k : κ} {v : α} (hValue : l.values.find? k = some v) : C.shows r k v :=
  h.shown r k v hRow (by rw [hFlight, latest_nil]) hValue

end Replica
