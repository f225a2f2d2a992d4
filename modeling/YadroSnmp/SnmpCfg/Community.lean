import Mathlib.Data.List.Induction
import YadroSnmp.Lib.ByteString

/-! # The community line

`getToken` and `getCommunityName` walk over a line by positions. What they
accept is stated on what is left of the line: tokens between blanks, and then a
name that loses one pair of double quotes.
-/

namespace YadroSnmp.SnmpCfg

def isWhitespace (b : UInt8) : Bool := b == ' '.toUInt8 || b == '\t'.toUInt8

def quote : UInt8 := '"'.toUInt8

/-- `getToken`: the result and the value left in `pos`, `none` for `npos`. A
token that reaches the end of the line is not compared in length. -/
def getToken (str token : Str) (pos : Nat) : Bool × Option Nat :=
  match Str.findFirst (fun b => !isWhitespace b) str pos with
  | none => (false, none)
  | some start =>
    if Str.startsWith (str.drop start) token then
      match Str.findFirst isWhitespace str start with
      | none => (true, none)
      | some endPos => if start + token.length = endPos then (true, some endPos) else (false, some start)
    else (false, some start)

/-- The loop over the tokens of `getCommunityName`: the position after the last one. -/
def getTokens (line : Str) : (tokens : List Str) → (pos : Nat) → Option Nat
  | [], pos => some pos
  | token :: tokens, pos =>
    match getToken line token pos with
    | (true, some pos) => getTokens line tokens pos
    | _ => none

def communityTokens : List Str := [Str.lit "com2sec", Str.lit "readonly", Str.lit "default"]

/-- The end of `getCommunityName`, from the first byte of the name to its last. -/
def nameBetween (str : Str) (pos endPos : Nat) : Str :=
  let (pos, endPos) :=
    if pos < endPos ∧ str[pos]? = some quote ∧ str[endPos]? = some quote then (pos + 1, endPos - 1)
    else (pos, endPos)
  if pos ≤ endPos then (str.drop pos).take (endPos - pos + 1) else []

def getCommunityName (line : Str) : Option Str :=
  match getTokens line communityTokens 0 with
  | none => none
  | some pos =>
    match Str.findFirst (fun b => !isWhitespace b) line pos,
      Str.findLast (fun b => !isWhitespace b) line with
    | some pos, some endPos => some (nameBetween line pos endPos)
    | _, _ => none

def Blank (s : Str) : Prop := ∀ b ∈ s, isWhitespace b = true

def Word (s : Str) : Prop := s ≠ [] ∧ ∀ b ∈ s, isWhitespace b = false

def Trimmed (s : Str) : Prop :=
  (∃ b, s.head? = some b ∧ isWhitespace b = false) ∧ ∃ b, s.getLast? = some b ∧ isWhitespace b = false

def unquote (s : Str) : Str :=
  if 2 ≤ s.length ∧ s.head? = some quote ∧ s.getLast? = some quote then s.tail.dropLast else s

/-- A string of tokens, each after some blanks and followed by one, and what is left after them. -/
inductive Tokens : List Str → Str → Str → Prop
  | nil (s : Str) : Tokens [] s s
  | cons {token blanks rest s : Str} {tokens : List Str} {b : UInt8} : Blank blanks →
      isWhitespace b = true → Tokens tokens (b :: rest) s →
      Tokens (token :: tokens) (blanks ++ token ++ b :: rest) s

-- The bytes of the string are looked through, not all bytes there are.
instance (s : Str) : Decidable (Blank s) := List.decidableBAll _ s
instance (s : Str) : Decidable (Word s) :=
  @instDecidableAnd _ _ inferInstance (List.decidableBAll _ s)

section Token

variable {str token : Str} {pos e : Nat}

theorem take_left_of_drop {before rest : Str} (h : str.drop pos = before ++ rest) :
    str.drop (pos + before.length) = rest := by
  rw [← List.drop_drop, h, List.drop_left]

theorem Blank.not (h : Blank token) : ∀ b ∈ token, (!isWhitespace b) = false := by
  intro b hb
  rw [h b hb]
  rfl

/-- A token is found with text after it exactly when it comes next, after blanks and before one. -/
theorem getToken_eq_iff (hToken : Word token) :
    getToken str token pos = (true, some e) ↔
      ∃ blanks b rest, str.drop pos = blanks ++ token ++ b :: rest ∧ Blank blanks ∧
        isWhitespace b = true ∧ str.drop e = b :: rest ∧ e = pos + blanks.length + token.length := by
  constructor
  · intro h
    unfold getToken at h
    split at h
    · cases h
    · rename_i start hStart
      obtain ⟨blanks, d, post, hDrop, hBlanks, -, rfl⟩ := Str.findFirst_eq_some_iff.mp hStart
      split at h
      · rename_i hPrefix
        obtain ⟨tail, hTail⟩ := Str.startsWith_iff.mp hPrefix
        split at h
        · cases h
        · rename_i endPos hEnd
          obtain ⟨mid, b, rest, hMid, hWord, hb, rfl⟩ := Str.findFirst_eq_some_iff.mp hEnd
          split at h
          · rename_i hLength
            obtain rfl : token = mid :=
              List.append_inj_left (hTail.trans hMid) (Nat.add_left_cancel hLength)
            cases h
            refine ⟨blanks, b, rest, ?_, ?_, hb, take_left_of_drop hMid, rfl⟩
            · rw [List.append_assoc, ← hMid, take_left_of_drop hDrop, hDrop]
            · intro c hc
              simpa using hBlanks c hc
          · cases h
      · cases h
  · rintro ⟨blanks, b, rest, hDrop, hBlanks, hb, -, rfl⟩
    obtain ⟨hNe, hWord⟩ := hToken
    rw [List.append_assoc] at hDrop
    have hStart : Str.findFirst (fun b => !isWhitespace b) str pos = some (pos + blanks.length) := by
      obtain ⟨t, ts, rfl⟩ := List.exists_cons_of_ne_nil hNe
      exact Str.findFirst_eq_some_iff.mpr ⟨blanks, t, ts ++ b :: rest, hDrop, hBlanks.not,
        by simp [hWord t List.mem_cons_self], rfl⟩
    have hRest := take_left_of_drop hDrop
    have hPrefix : Str.startsWith (str.drop (pos + blanks.length)) token = true := by
      rw [Str.startsWith_iff, hRest]
      exact List.prefix_append token _
    have hEnd : Str.findFirst isWhitespace str (pos + blanks.length) =
        some (pos + blanks.length + token.length) :=
      Str.findFirst_eq_some_iff.mpr ⟨token, b, rest, hRest, hWord, hb, rfl⟩
    simp [getToken, hStart, hPrefix, hEnd]

theorem getTokens_drop {tokens : List Str} (hTokens : ∀ token ∈ tokens, Word token)
    (h : getTokens str tokens pos = some e) : Tokens tokens (str.drop pos) (str.drop e) := by
  induction tokens generalizing pos with
  | nil =>
    cases h
    exact .nil _
  | cons token tokens ih =>
    rw [getTokens] at h
    split at h
    · rename_i next hNext
      obtain ⟨blanks, b, rest, hDrop, hBlanks, hb, hAfter, -⟩ :=
        (getToken_eq_iff (hTokens token List.mem_cons_self)).mp hNext
      have hRest := ih (fun t ht => hTokens t (List.mem_cons_of_mem token ht)) h
      rw [hAfter] at hRest
      rw [hDrop]
      exact .cons hBlanks hb hRest
    · cases h

theorem getTokens_of_tokens {tokens : List Str} {s s' : Str} (hTokens : ∀ token ∈ tokens, Word token)
    (h : Tokens tokens s s') (hs : str.drop pos = s) :
    ∃ e, getTokens str tokens pos = some e ∧ str.drop e = s' := by
  induction h generalizing pos with
  | nil => exact ⟨pos, rfl, hs⟩
  | @cons token blanks rest s' tokens b hBlanks hb _ ih =>
    have hAfter : str.drop (pos + blanks.length + token.length) = b :: rest := by
      rw [List.append_assoc] at hs
      exact take_left_of_drop (take_left_of_drop hs)
    have hNext := (getToken_eq_iff (hTokens token List.mem_cons_self)).mpr
      ⟨blanks, b, rest, hs, hBlanks, hb, hAfter, rfl⟩
    obtain ⟨e, hEnd, hDrop⟩ := ih (fun t ht => hTokens t (List.mem_cons_of_mem token ht)) hAfter
    exact ⟨e, by rw [getTokens, hNext]; exact hEnd, hDrop⟩

end Token

section Name

variable {line x : Str}

theorem nameBetween_eq (before after : Str) (hx : x ≠ []) :
    nameBetween (before ++ x ++ after) before.length (before.length + x.length - 1) = unquote x := by
  have hPos : 0 < x.length := List.length_pos_iff.mpr hx
  have hFirst : (before ++ x ++ after)[before.length]? = x.head? := by
    rw [List.append_assoc, List.getElem?_append_right le_rfl, Nat.sub_self,
      List.getElem?_append_left hPos, List.head?_eq_getElem?]
  have hLast : (before ++ x ++ after)[before.length + x.length - 1]? = x.getLast? := by
    rw [List.append_assoc, List.getElem?_append_right (by omega), List.getElem?_append_left (by omega),
      List.getLast?_eq_getElem?]
    congr 1
    omega
  unfold nameBetween unquote
  rw [hFirst, hLast]
  by_cases hQuoted : 2 ≤ x.length ∧ x.head? = some quote ∧ x.getLast? = some quote
  · have hInner : before.length < before.length + x.length - 1 ∧ x.head? = some quote ∧
        x.getLast? = some quote := ⟨by omega, hQuoted.2⟩
    rw [if_pos hQuoted, if_pos hInner]
    have hDrop : (before ++ x ++ after).drop (before.length + 1) = x.tail ++ after := by
      rw [← List.drop_drop, List.append_assoc, List.drop_left, ← List.tail_drop]
      cases x with
      | nil => exact absurd rfl hx
      | cons b x => rfl
    simp only [hDrop]
    split
    · rw [List.take_append_of_le_length (by rw [List.length_tail]; omega), List.dropLast_eq_take,
        List.length_tail]
      congr 1
      omega
    · -- only the two quotes
      have hEmpty : x.tail.dropLast.length = 0 := by
        rw [List.length_dropLast, List.length_tail]
        omega
      exact (List.length_eq_zero_iff.mp hEmpty).symm
  · have hOuter : ¬ (before.length < before.length + x.length - 1 ∧ x.head? = some quote ∧
        x.getLast? = some quote) := fun h => hQuoted ⟨by omega, h.2⟩
    rw [if_neg hQuoted, if_neg hOuter]
    simp only
    rw [if_pos (by omega), List.append_assoc, List.drop_left]
    have hAll : before.length + x.length - 1 - before.length + 1 = x.length := by omega
    rw [hAll, List.take_left]

theorem exists_trimmed {s : Str} (h : ∃ b, s.head? = some b ∧ isWhitespace b = false) :
    ∃ x after, s = x ++ after ∧ Trimmed x ∧ Blank after := by
  induction s using List.reverseRecOn with
  | nil => simp at h
  | append_singleton s b ih =>
    cases hb : isWhitespace b with
    | false => exact ⟨s ++ [b], [], by simp, ⟨h, b, by simp, hb⟩, by simp [Blank]⟩
    | true =>
      obtain ⟨c, hHead, hc⟩ := h
      cases s with
      | nil =>
        obtain rfl : b = c := by simpa using hHead
        rw [hb] at hc
        cases hc
      | cons d s =>
        obtain ⟨x, after, hs, hx, hAfter⟩ := ih ⟨c, by simpa using hHead, hc⟩
        refine ⟨x, after ++ [b], by rw [hs, List.append_assoc], hx, ?_⟩
        intro c hc
        rcases List.mem_append.mp hc with hc | hc
        · exact hAfter c hc
        · rwa [List.mem_singleton.mp hc]

theorem communityTokens_word : ∀ token ∈ communityTokens, Word token := by decide

theorem getCommunityName_of_tokens {blanks after : Str}
    (hTokens : Tokens communityTokens line (blanks ++ x ++ after)) (hBlanks : Blank blanks)
    (hx : Trimmed x) (hAfter : Blank after) : getCommunityName line = some (unquote x) := by
  obtain ⟨e, hEnd, hDrop⟩ := getTokens_of_tokens communityTokens_word hTokens List.drop_zero
  obtain ⟨⟨b, hHead, hb⟩, d, hBack, hd⟩ := hx
  obtain ⟨tail, rfl⟩ : ∃ tail, x = b :: tail := List.head?_eq_some_iff.mp hHead
  obtain ⟨init, hInit⟩ : ∃ init, b :: tail = init ++ [d] := List.getLast?_eq_some_iff.mp hBack
  have hBefore : (line.take e ++ blanks).length = e + blanks.length := by
    rw [List.length_append, List.length_take_of_le]
    by_contra hLong
    rw [List.drop_of_length_le (by omega)] at hDrop
    simp at hDrop
  have hLine : line = line.take e ++ blanks ++ (b :: tail) ++ after := by
    conv_lhs => rw [← List.take_append_drop e line, hDrop]
    simp
  have hFirst : Str.findFirst (fun b => !isWhitespace b) line e = some (e + blanks.length) :=
    Str.findFirst_eq_some_iff.mpr
      ⟨blanks, b, tail ++ after, by simpa using hDrop, hBlanks.not, by simp [hb], rfl⟩
  have hLast : Str.findLast (fun b => !isWhitespace b) line =
      some (e + blanks.length + (b :: tail).length - 1) := by
    refine Str.findLast_eq_some_iff.mpr ⟨line.take e ++ blanks ++ init, d, after, ?_, by simp [hd],
      hAfter.not, ?_⟩
    · rw [hInit] at hLine
      simpa using hLine
    · rw [List.length_append, hBefore, hInit, List.length_append, List.length_singleton]
      omega
  have hName := nameBetween_eq (line.take e ++ blanks) after (List.cons_ne_nil b tail)
  rw [← hLine, hBefore] at hName
  simp only [getCommunityName, hEnd, hFirst, hLast, hName]

/-- What `getCommunityName` accepts. -/
theorem getCommunityName_spec {c : Str} :
    getCommunityName line = some c ↔
      ∃ blanks x after, Tokens communityTokens line (blanks ++ x ++ after) ∧ Blank blanks ∧
        Trimmed x ∧ Blank after ∧ c = unquote x := by
  constructor
  · intro h
    have hFound := h
    unfold getCommunityName at h
    split at h
    · cases h
    · rename_i e hEnd
      split at h
      · rename_i first _ hFirst _
        obtain ⟨blanks, b, rest, hDrop, hBlanks, hb, -⟩ := Str.findFirst_eq_some_iff.mp hFirst
        obtain ⟨x, after, hRest, hx, hAfter⟩ :=
          exists_trimmed (s := b :: rest) ⟨b, rfl, by simpa using hb⟩
        have hBlank : Blank blanks := fun c hc => by simpa using hBlanks c hc
        have hTokens := getTokens_drop communityTokens_word hEnd
        rw [List.drop_zero, hDrop, hRest, ← List.append_assoc] at hTokens
        refine ⟨blanks, x, after, hTokens, hBlank, hx, hAfter, ?_⟩
        rw [getCommunityName_of_tokens hTokens hBlank hx hAfter] at hFound
        exact (Option.some.inj hFound).symm
      · cases h
  · rintro ⟨blanks, x, after, hTokens, hBlanks, hx, hAfter, rfl⟩
    exact getCommunityName_of_tokens hTokens hBlanks hx hAfter

end Name

end YadroSnmp.SnmpCfg
