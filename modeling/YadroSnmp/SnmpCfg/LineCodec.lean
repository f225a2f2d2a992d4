import YadroSnmp.SnmpCfg.Frame

/-! # The grammar of the community line

`Checked` repeats the reader with string accesses that fail on positions out of
range, and never fails. The lines it accepts are spelled out as one sentence;
the lines the writer produces are among them, most of them with their value.
A single word is read whole wherever something follows it.
-/

namespace YadroSnmp.SnmpCfg

/-- The error of a position past the end of its string. -/
inductive OutOfRange where
  | mk

namespace Checked

/-- `0 == str.compare(pos, token.size(), token)` -/
def compareAt (str : Str) (pos : Nat) (token : Str) : Except OutOfRange Bool :=
  if pos ≤ str.length then .ok (Str.startsWith (str.drop pos) token) else .error .mk

/-- `str[pos]`, refused for the terminating NUL as well. -/
def byteAt (str : Str) (pos : Nat) : Except OutOfRange UInt8 :=
  match str[pos]? with
  | some b => .ok b
  | none => .error .mk

/-- `str.substr(pos, n)` -/
def substrAt (str : Str) (pos n : Nat) : Except OutOfRange Str :=
  if pos ≤ str.length then .ok ((str.drop pos).take n) else .error .mk

def getToken (str token : Str) (pos : Nat) : Except OutOfRange (Bool × Option Nat) :=
  match Str.findFirst (fun b => !isWhitespace b) str pos with
  | none => .ok (false, none)
  | some start => do
    if ← compareAt str start token then
      match Str.findFirst isWhitespace str start with
      | none => .ok (true, none)
      | some endPos => if start + token.length = endPos then .ok (true, some endPos) else .ok (false, some start)
    else .ok (false, some start)

def getTokens (line : Str) : (tokens : List Str) → (pos : Nat) → Except OutOfRange (Option Nat)
  | [], pos => .ok (some pos)
  | token :: tokens, pos => do
    match ← getToken line token pos with
    | (true, some pos) => getTokens line tokens pos
    | _ => .ok none

/-- The conjunction of the two comparisons with a quote stops at the first that fails. -/
def isQuoted (str : Str) (pos endPos : Nat) : Except OutOfRange Bool :=
  if pos < endPos then do
    let first ← byteAt str pos
    if first = quote then
      let last ← byteAt str endPos
      .ok (decide (last = quote))
    else .ok false
  else .ok false

def nameBetween (str : Str) (pos endPos : Nat) : Except OutOfRange Str := do
  let (pos, endPos) := if ← isQuoted str pos endPos then (pos + 1, endPos - 1) else (pos, endPos)
  if pos ≤ endPos then substrAt str pos (endPos - pos + 1) else .ok []

/-- A last position `npos` would be out of range. -/
def getCommunityName (line : Str) : Except OutOfRange (Option Str) := do
  match ← getTokens line communityTokens 0 with
  | none => .ok none
  | some pos =>
    match Str.findFirst (fun b => !isWhitespace b) line pos with
    | none => .ok none
    | some pos =>
      match Str.findLast (fun b => !isWhitespace b) line with
      | none => .error .mk
      | some endPos => do
        let name ← nameBetween line pos endPos
        .ok (some name)

section Total

variable {p : UInt8 → Bool} {str token : Str} {pos endPos i : Nat}

theorem findFirst_lt (h : Str.findFirst p str pos = some i) : i < str.length := by
  obtain ⟨before, b, after, hDrop, -, -, rfl⟩ := Str.findFirst_eq_some_iff.mp h
  have hLength := congrArg List.length hDrop
  rw [List.length_drop, List.length_append, List.length_cons] at hLength
  omega

theorem findLast_lt (h : Str.findLast p str = some i) : i < str.length := by
  obtain ⟨before, b, after, rfl, -, -, rfl⟩ := Str.findLast_eq_some_iff.mp h
  simp

/-- What a search from the left finds, a search from the right does not miss. -/
theorem exists_findLast (h : Str.findFirst p str pos = some i) : ∃ j, Str.findLast p str = some j := by
  obtain ⟨before, b, after, hDrop, -, hb, -⟩ := Str.findFirst_eq_some_iff.mp h
  have hMem : b ∈ str := List.mem_of_mem_drop (i := pos) (by simp [hDrop])
  cases hLast : Str.findLast p str with
  | some j => exact ⟨j, rfl⟩
  | none =>
    simp only [Str.findLast, Option.map_eq_none_iff, List.findIdx?_eq_none_iff, List.mem_reverse] at hLast
    rw [hLast b hMem] at hb
    cases hb

theorem getToken_eq (str token : Str) (pos : Nat) :
    getToken str token pos = .ok (SnmpCfg.getToken str token pos) := by
  unfold getToken SnmpCfg.getToken
  cases hStart : Str.findFirst (fun b => !isWhitespace b) str pos with
  | none => rfl
  | some start =>
    have hCompare : compareAt str start token = .ok (Str.startsWith (str.drop start) token) :=
      if_pos (findFirst_lt hStart).le
    simp only [hCompare, bind, Except.bind]
    cases Str.startsWith (str.drop start) token with
    | false => rfl
    | true =>
      cases Str.findFirst isWhitespace str start with
      | none => rfl
      | some endPos =>
        simp only [if_true]
        split
        · rfl
        · rfl

theorem getTokens_eq (line : Str) (tokens : List Str) (pos : Nat) :
    getTokens line tokens pos = .ok (SnmpCfg.getTokens line tokens pos) := by
  induction tokens generalizing pos with
  | nil => rfl
  | cons token tokens ih =>
    rw [getTokens, SnmpCfg.getTokens, getToken_eq]
    simp only [bind, Except.bind]
    obtain ⟨found, next⟩ := SnmpCfg.getToken line token pos
    cases found with
    | false => rfl
    | true =>
      cases next with
      | none => rfl
      | some next => exact ih next

theorem byteAt_eq (h : i < str.length) : byteAt str i = .ok str[i] := by
  rw [byteAt, List.getElem?_eq_getElem h]

theorem isQuoted_eq (hEnd : endPos < str.length) :
    isQuoted str pos endPos =
      .ok (decide (pos < endPos ∧ str[pos]? = some quote ∧ str[endPos]? = some quote)) := by
  unfold isQuoted
  split
  · rename_i hLt
    have hPos : pos < str.length := hLt.trans hEnd
    rw [byteAt_eq hPos, byteAt_eq hEnd, List.getElem?_eq_getElem hPos, List.getElem?_eq_getElem hEnd]
    simp only [bind, Except.bind]
    split
    · rename_i hFirst
      simp [hLt, hFirst]
    · rename_i hFirst
      simp [hFirst]
  · rename_i hLt
    simp [hLt]

theorem nameBetween_eq (hPos : pos < str.length) (hEnd : endPos < str.length) :
    nameBetween str pos endPos = .ok (SnmpCfg.nameBetween str pos endPos) := by
  unfold nameBetween SnmpCfg.nameBetween
  rw [isQuoted_eq hEnd]
  simp only [bind, Except.bind, decide_eq_true_eq]
  split
  · rename_i hQuoted
    simp only
    split
    · exact if_pos (by omega)
    · rfl
  · simp only
    split
    · exact if_pos hPos.le
    · rfl

/-- No access of the reader is out of range. -/
theorem getCommunityName_eq (line : Str) :
    getCommunityName line = .ok (SnmpCfg.getCommunityName line) := by
  unfold getCommunityName SnmpCfg.getCommunityName
  rw [getTokens_eq]
  simp only [bind, Except.bind]
  cases SnmpCfg.getTokens line communityTokens 0 with
  | none => rfl
  | some pos =>
    cases hFirst : Str.findFirst (fun b => !isWhitespace b) line pos with
    | none => simp [hFirst]
    | some first =>
      obtain ⟨last, hLast⟩ := exists_findLast hFirst
      simp only [hFirst, hLast, nameBetween_eq (findFirst_lt hFirst) (findLast_lt hLast)]

end Total

end Checked

section Grammar

variable {line s s' : Str} {token : Str} {tokens : List Str}

def Gap (s : Str) : Prop := s ≠ [] ∧ Blank s

/-- A line that gives the community `c`. -/
def CommunityLine (line c : Str) : Prop :=
  ∃ w0 w1 w2 w3 x w4, Blank w0 ∧ Gap w1 ∧ Gap w2 ∧ Gap w3 ∧ Trimmed x ∧ Blank w4 ∧
    line = w0 ++ Str.lit "com2sec" ++ w1 ++ Str.lit "readonly" ++ w2 ++ Str.lit "default" ++ w3 ++ x ++
      w4 ∧
    c = if 2 ≤ x.length ∧ x.head? = some quote ∧ x.getLast? = some quote then x.tail.dropLast else x

def BlankHead (s : Str) : Prop := ∃ b, s.head? = some b ∧ isWhitespace b = true

theorem tokens_nil_iff : Tokens [] line s ↔ line = s := by
  constructor
  · rintro ⟨⟩
    rfl
  · rintro rfl
    exact .nil line

theorem tokens_cons_iff :
    Tokens (token :: tokens) line s ↔
      ∃ blanks rest, line = blanks ++ token ++ rest ∧ Blank blanks ∧ BlankHead rest ∧
        Tokens tokens rest s := by
  constructor
  · rintro (_ | @⟨_, blanks, rest, _, _, b, hBlanks, hb, hRest⟩)
    exact ⟨blanks, b :: rest, rfl, hBlanks, ⟨b, rfl, hb⟩, hRest⟩
  · rintro ⟨blanks, rest, rfl, hBlanks, ⟨b, hHead, hb⟩, hRest⟩
    obtain ⟨rest, rfl⟩ := List.head?_eq_some_iff.mp hHead
    exact .cons hBlanks hb hRest

theorem tokens_cons {blanks gap rest : Str} (hBlanks : Blank blanks) (hGap : Gap gap)
    (h : Tokens tokens (gap ++ rest) s) : Tokens (token :: tokens) (blanks ++ (token ++ (gap ++ rest))) s := by
  obtain ⟨b, gap, rfl⟩ := List.exists_cons_of_ne_nil hGap.1
  exact tokens_cons_iff.mpr ⟨blanks, _, (List.append_assoc _ _ _).symm, hBlanks,
    ⟨b, rfl, hGap.2 b List.mem_cons_self⟩, h⟩

/-- Blanks before text that does not begin with one are there when the whole begins with one. -/
theorem gap_of_blankHead (hHead : BlankHead (s ++ s')) (hBlank : Blank s)
    (hText : ∃ b, s'.head? = some b ∧ isWhitespace b = false) : Gap s := by
  refine ⟨?_, hBlank⟩
  rintro rfl
  obtain ⟨b, hb, hWhite⟩ := hHead
  obtain ⟨c, hc, hNot⟩ := hText
  obtain rfl : b = c := Option.some.inj (hb.symm.trans hc)
  rw [hWhite] at hNot
  cases hNot

/-- The reader never leaves the line and accepts exactly the community lines, with their name. -/
theorem getCommunityName_exact (line : Str) :
    Checked.getCommunityName line = .ok (getCommunityName line) ∧
      ∀ c, getCommunityName line = some c ↔ CommunityLine line c := by
  refine ⟨Checked.getCommunityName_eq line, fun c => ?_⟩
  rw [getCommunityName_spec]
  constructor
  · rintro ⟨w3, x, w4, hTokens, hW3, hx, hW4, rfl⟩
    obtain ⟨w0, l1, rfl, hW0, hl1, hTokens⟩ := tokens_cons_iff.mp hTokens
    obtain ⟨w1, l2, rfl, hW1, hl2, hTokens⟩ := tokens_cons_iff.mp hTokens
    obtain ⟨w2, l3, rfl, hW2, hl3, hTokens⟩ := tokens_cons_iff.mp hTokens
    obtain rfl := tokens_nil_iff.mp hTokens
    rw [List.append_assoc] at hl1 hl2 hl3
    have hGap1 := gap_of_blankHead hl1 hW1 ⟨'r'.toUInt8, rfl, by decide⟩
    have hGap2 := gap_of_blankHead hl2 hW2 ⟨'d'.toUInt8, rfl, by decide⟩
    have hText : ∃ b, (x ++ w4).head? = some b ∧ isWhitespace b = false := by
      obtain ⟨b, hHead, hb⟩ := hx.1
      exact ⟨b, by simp [List.head?_append, hHead], hb⟩
    have hGap3 := gap_of_blankHead hl3 hW3 hText
    exact ⟨w0, w1, w2, w3, x, w4, hW0, hGap1, hGap2, hGap3, hx, hW4, by simp, rfl⟩
  · rintro ⟨w0, w1, w2, w3, x, w4, hW0, hW1, hW2, hW3, hx, hW4, rfl, rfl⟩
    refine ⟨w3, x, w4, ?_, hW3.2, hx, hW4, rfl⟩
    have hDefault : Tokens [Str.lit "default"] (w2 ++ (Str.lit "default" ++ (w3 ++ (x ++ w4))))
        (w3 ++ (x ++ w4)) :=
      tokens_cons hW2.2 hW3 (.nil _)
    have hReadonly : Tokens [Str.lit "readonly", Str.lit "default"]
        (w1 ++ (Str.lit "readonly" ++ (w2 ++ (Str.lit "default" ++ (w3 ++ (x ++ w4))))))
        (w3 ++ (x ++ w4)) :=
      tokens_cons hW1.2 hW2 hDefault
    simpa [communityTokens] using tokens_cons hW0 hW1 hReadonly

end Grammar

section WholeTokens

variable {str token run rest : Str} {pos : Nat} {next : Option Nat}

/-- The first run of bytes other than blanks, from `pos` on, and the position
past it, which is `npos` at the end of the string. -/
def FirstRun (str : Str) (pos : Nat) (run : Str) (next : Option Nat) : Prop :=
  ∃ blanks rest, str.drop pos = blanks ++ (run ++ rest) ∧ Blank blanks ∧ Word run ∧
    (rest = [] ∧ next = none ∨ BlankHead rest ∧ next = some (pos + blanks.length + run.length))

/-- `getToken` is true exactly on a first run that is the token, and then leaves the position past it. -/
def RecognisesWhole (str token : Str) (pos : Nat) : Prop :=
  ((getToken str token pos).1 = true ↔ ∃ next, FirstRun str pos token next) ∧
    ((getToken str token pos).1 = true → FirstRun str pos token (getToken str token pos).2)

def RunsOn (str token : Str) (pos : Nat) : Prop :=
  ∃ more, more ≠ [] ∧ FirstRun str pos (token ++ more) none

theorem findFirst_eq_none_iff {p : UInt8 → Bool} :
    Str.findFirst p str pos = none ↔ ∀ b ∈ str.drop pos, p b = false := by
  rw [Str.findFirst, Option.map_eq_none_iff, List.findIdx?_eq_none_iff]

/-- A word does not reach beyond the run of the text it begins. -/
theorem prefix_run_iff (hToken : Word token) (hRest : rest = [] ∨ BlankHead rest) :
    token <+: run ++ rest ↔ token <+: run := by
  refine ⟨fun h => ?_, fun h => h.trans (List.prefix_append run rest)⟩
  rcases List.prefix_or_prefix_of_prefix h (List.prefix_append run rest) with hShort | ⟨more, rfl⟩
  · exact hShort
  · have hMore : more <+: rest := (List.prefix_append_right_inj run).mp h
    cases more with
    | nil => rw [List.append_nil]
    | cons b more =>
      obtain ⟨after, rfl⟩ := hMore
      obtain hNil | ⟨c, hHead, hc⟩ := hRest
      · cases hNil
      · cases hHead
        rw [hToken.2 b (by simp)] at hc
        cases hc

theorem findFirst_run {blanks : Str} (hDrop : str.drop pos = blanks ++ (run ++ rest)) (hBlanks : Blank blanks)
    (hRun : Word run) :
    Str.findFirst (fun b => !isWhitespace b) str pos = some (pos + blanks.length) := by
  obtain ⟨b, run, rfl⟩ := List.exists_cons_of_ne_nil hRun.1
  exact Str.findFirst_eq_some_iff.mpr ⟨blanks, b, run ++ rest, hDrop, hBlanks.not,
    by simp [hRun.2 b List.mem_cons_self], rfl⟩

theorem getToken_of_firstRun (hToken : Word token) (h : FirstRun str pos run next) :
    ((getToken str token pos).1 = true ↔ token <+: run ∧ (next = none ∨ run = token)) ∧
      ((getToken str token pos).1 = true → (getToken str token pos).2 = next) := by
  obtain ⟨blanks, rest, hDrop, hBlanks, hRun, hEnd⟩ := h
  have hStart := findFirst_run hDrop hBlanks hRun
  have hText := take_left_of_drop hDrop
  have hPrefix : Str.startsWith (str.drop (pos + blanks.length)) token = true ↔ token <+: run := by
    rw [Str.startsWith_iff, hText]
    exact prefix_run_iff hToken (hEnd.imp And.left And.left)
  simp only [getToken, hStart]
  rcases hEnd with ⟨rfl, rfl⟩ | ⟨⟨b, hHead, hb⟩, rfl⟩
  · have hNone : Str.findFirst isWhitespace str (pos + blanks.length) = none := by
      rw [findFirst_eq_none_iff, hText, List.append_nil]
      exact hRun.2
    rw [hNone]
    split
    · rename_i hStarts
      simp [hPrefix.mp hStarts]
    · rename_i hStarts
      simp [mt hPrefix.mpr hStarts]
  · obtain ⟨rest, rfl⟩ := List.head?_eq_some_iff.mp hHead
    have hSome : Str.findFirst isWhitespace str (pos + blanks.length) =
        some (pos + blanks.length + run.length) :=
      Str.findFirst_eq_some_iff.mpr ⟨run, b, rest, hText, hRun.2, hb, rfl⟩
    rw [hSome]
    split
    · rename_i hStarts
      have hBegins := hPrefix.mp hStarts
      simp only [Nat.add_left_cancel_iff]
      split
      · rename_i hLength
        simp [hBegins.eq_of_length hLength]
      · rename_i hLength
        have hNe : run ≠ token := fun hSame => hLength (by rw [hSame])
        simp [hNe]
    · rename_i hStarts
      simp [mt hPrefix.mpr hStarts]

theorem FirstRun.unique {run' : Str} {next' : Option Nat} (h : FirstRun str pos run next)
    (h' : FirstRun str pos run' next') : run = run' ∧ next = next' := by
  obtain ⟨blanks, rest, hDrop, hBlanks, hRun, hEnd⟩ := h
  obtain ⟨blanks', rest', hDrop', hBlanks', hRun', hEnd'⟩ := h'
  have hEq := hDrop.symm.trans hDrop'
  have hStart := Option.some.inj
    ((findFirst_run hDrop hBlanks hRun).symm.trans (findFirst_run hDrop' hBlanks' hRun'))
  obtain ⟨rfl, hText⟩ := List.append_inj hEq (Nat.add_left_cancel hStart)
  have hRest := hEnd.imp And.left And.left
  have hRest' := hEnd'.imp And.left And.left
  have hLe : run <+: run' := (prefix_run_iff hRun hRest').mp (hText ▸ List.prefix_append run rest)
  have hGe : run' <+: run := (prefix_run_iff hRun' hRest).mp (hText ▸ List.prefix_append run' rest')
  obtain rfl := hLe.eq_of_length (hLe.length_le.antisymm hGe.length_le)
  obtain rfl : rest = rest' := List.append_cancel_left hText
  refine ⟨rfl, ?_⟩
  rcases hEnd with ⟨rfl, rfl⟩ | ⟨hHead, rfl⟩
  · rcases hEnd' with ⟨-, rfl⟩ | ⟨⟨_, hNil, -⟩, -⟩
    · rfl
    · cases hNil
  · rcases hEnd' with ⟨rfl, -⟩ | ⟨-, rfl⟩
    · obtain ⟨_, hNil, -⟩ := hHead
      cases hNil
    · rfl

theorem exists_firstRun (str : Str) (pos : Nat) :
    (∃ run next, FirstRun str pos run next) ∨ Blank (str.drop pos) := by
  cases hStart : Str.findFirst (fun b => !isWhitespace b) str pos with
  | none =>
    refine .inr fun b hb => ?_
    simpa using findFirst_eq_none_iff.mp hStart b hb
  | some start =>
    obtain ⟨blanks, b, after, hDrop, hBlanks, hb, rfl⟩ := Str.findFirst_eq_some_iff.mp hStart
    have hBlank : Blank blanks := fun c hc => by simpa using hBlanks c hc
    have hText := take_left_of_drop hDrop
    refine .inl ?_
    cases hEnd : Str.findFirst isWhitespace str (pos + blanks.length) with
    | none =>
      have hRun := findFirst_eq_none_iff.mp hEnd
      rw [hText] at hRun
      exact ⟨b :: after, none, blanks, [], by rw [hDrop, List.append_nil], hBlank,
        ⟨List.cons_ne_nil _ _, hRun⟩, .inl ⟨rfl, rfl⟩⟩
    | some endPos =>
      obtain ⟨run, c, rest, hDrop', hRun, hc, rfl⟩ := Str.findFirst_eq_some_iff.mp hEnd
      have hEq := hText.symm.trans hDrop'
      refine ⟨run, _, blanks, c :: rest, by rw [hDrop, hEq], hBlank, ⟨?_, hRun⟩,
        .inr ⟨⟨c, rfl, hc⟩, rfl⟩⟩
      rintro rfl
      obtain ⟨rfl, -⟩ := List.cons.inj hEq
      rw [hc] at hb
      cases hb

theorem FirstRun.not_blank (h : FirstRun str pos run next) : ¬ Blank (str.drop pos) := by
  obtain ⟨blanks, rest, hDrop, -, hRun, -⟩ := h
  obtain ⟨b, run, rfl⟩ := List.exists_cons_of_ne_nil hRun.1
  intro hBlank
  have hb := hBlank b (by simp [hDrop])
  rw [hRun.2 b List.mem_cons_self] at hb
  cases hb

theorem getToken_of_blank (token : Str) (h : Blank (str.drop pos)) : getToken str token pos = (false, none) := by
  have hNone : Str.findFirst (fun b => !isWhitespace b) str pos = none :=
    findFirst_eq_none_iff.mpr h.not
  simp only [getToken, hNone]

/-- The reader recognises whole words, except that it takes the beginning of
the last word of the string for the word. -/
theorem recognisesWhole_iff (str token : Str) (pos : Nat) (hToken : Word token) :
    RecognisesWhole str token pos ↔ ¬ RunsOn str token pos := by
  rcases exists_firstRun str pos with ⟨run, next, hFirst⟩ | hBlank
  · obtain ⟨hFound, hNext⟩ := getToken_of_firstRun hToken hFirst
    constructor
    · rintro ⟨hWhole, -⟩ ⟨more, hMore, hRunsOn⟩
      obtain ⟨rfl, rfl⟩ := hFirst.unique hRunsOn
      obtain ⟨next, hToken'⟩ := hWhole.mp (hFound.mpr ⟨List.prefix_append token more, .inl rfl⟩)
      have hSame := (hToken'.unique hRunsOn).1
      exact hMore (List.self_eq_append_right.mp hSame)
    · intro hNot
      have hSame : (getToken str token pos).1 = true → run = token := by
        intro hTrue
        obtain ⟨⟨more, rfl⟩, hEnd⟩ := hFound.mp hTrue
        rcases hEnd with rfl | hSame
        · rcases List.eq_nil_or_concat more with rfl | ⟨_, _, rfl⟩
          · exact List.append_nil token
          · exact absurd ⟨_, by simp, hFirst⟩ hNot
        · exact hSame
      refine ⟨⟨fun hTrue => ⟨next, hSame hTrue ▸ hFirst⟩, ?_⟩, ?_⟩
      · rintro ⟨next', hToken'⟩
        obtain ⟨rfl, -⟩ := hFirst.unique hToken'
        exact hFound.mpr ⟨List.prefix_rfl, .inr rfl⟩
      · intro hTrue
        rw [hNext hTrue]
        exact hSame hTrue ▸ hFirst
  · have hNone := getToken_of_blank token hBlank
    refine iff_of_true ?_ fun ⟨_, _, hRunsOn⟩ => hRunsOn.not_blank hBlank
    rw [RecognisesWhole, hNone]
    refine ⟨⟨fun hTrue => ?_, fun ⟨_, hFirst⟩ => absurd hBlank hFirst.not_blank⟩, fun hTrue => ?_⟩
    · cases hTrue
    · cases hTrue

theorem readonly_recognisesWhole :
    RecognisesWhole (Str.lit "com2sec readonly") (Str.lit "readonly") 7 := by
  apply (recognisesWhole_iff _ (Str.lit "readonly") 7 (by decide)).mpr
  rintro ⟨more, hMore, hRunsOn⟩
  have hFirst : FirstRun (Str.lit "com2sec readonly") 7 (Str.lit "readonly") none :=
    ⟨Str.lit " ", [], by decide, by decide, by decide, .inl ⟨rfl, rfl⟩⟩
  exact hMore (List.self_eq_append_right.mp (hFirst.unique hRunsOn).1)

/-- A longer word at the end of the line is taken for the token. -/
theorem longer_word_recognised :
    getToken (Str.lit "com2secs") (Str.lit "com2sec") 0 = (true, none) ∧
      ¬ RecognisesWhole (Str.lit "com2secs") (Str.lit "com2sec") 0 := by
  have hTrue : getToken (Str.lit "com2secs") (Str.lit "com2sec") 0 = (true, none) := by decide
  refine ⟨hTrue, fun hWhole => ?_⟩
  have hFirst : FirstRun (Str.lit "com2secs") 0 (Str.lit "com2secs") none :=
    ⟨[], [], by decide, by decide, by decide, .inl ⟨rfl, rfl⟩⟩
  have hToken := hWhole.2 (by rw [hTrue])
  have hSame := (hToken.unique hFirst).1
  exact absurd hSame (by decide)

end WholeTokens

section RoundTrip

/-- The line written for a value is read back as the value, except a value with
quotes of its own around it and nothing in it that makes the writer add a pair. -/
theorem render_read_back_iff (value : Str) (hAccepted : Accepted value) :
    getCommunityName (render value) = some value ↔ ¬ SelfQuoted value :=
  getCommunityName_render_eq_iff hAccepted.ne_nil

theorem private_read_back : getCommunityName (render (Str.lit "private")) = some (Str.lit "private") :=
  (render_read_back_iff (Str.lit "private") (by decide)).mpr (by decide)

theorem quotes_lost :
    Accepted (Str.lit "\"x\"") ∧ getCommunityName (render (Str.lit "\"x\"")) ≠ some (Str.lit "\"x\"") := by
  decide

end RoundTrip

end YadroSnmp.SnmpCfg
