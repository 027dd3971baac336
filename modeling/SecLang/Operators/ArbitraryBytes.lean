import SecLang.Go

/-!
# `matchesArbitraryBytes`: which patterns go to the binary engine

The `rx` operator compiles its pattern with the binary-safe engine when the pattern's byte
escapes decode to bytes that are not valid UTF-8.  `matchesArbitraryBytes` decides that: it
copies the pattern byte by byte into `decoded`, replacing every `\xHH` it meets with the byte
`0xHH`, and asks `utf8.Valid` of the result.

The scan does not know regex escaping.  After a backslash that is not followed by `x` it
copies the backslash alone and goes on at the next byte, so in `\\xff` (an escaped backslash,
then the text `xff`) the second backslash starts an escape and `0xFF` is decoded.  What the
scan computes is the plain left-to-right decoding `decodeEscapes`: every `\xHH` with two hex
digits becomes one byte, whatever stands before it.  The bytes the pattern denotes, its escaped
backslashes respected, are `decodeRealEscapes`; on `\\xff` they are valid text, and the scan
sends that pattern to the binary engine, against the comment of `newRX` that the binary matcher
is for patterns that match non-UTF-8 bytes (`newRX_escaped_backslash`, in `Operators.Rx`).

Go's library functions the scan calls are modelled on the inputs it gives them:
`strconv.UnquoteChar` on strings that start with `\x`, and `utf8.Valid` with its table of
leading bytes.

An escape is four ASCII bytes, and valid text holds an ASCII byte only between characters.  So
when every escape decodes to an ASCII byte, the UTF-8 automaton (`Utf8.step`) reads the pattern
and its decoding in step, and valid text decodes to valid text: only an escape of a byte
`≥ 0x80` sends valid text to the binary engine.

## Main statements

* `decodeLoop_eq`: the index loop with enough fuel is `decodeEscapes` of the unread bytes;
* `matchesArbitraryBytes_eq`: `matchesArbitraryBytes e` is `!valid (decodeEscapes e)`;
* `decodeRealEscapes`: the bytes a pattern denotes when its escaped backslashes are respected,
  which `newRX_escaped_backslash` (in `Operators.Rx`) compares with what the scan decodes;
* `matchesArbitraryBytes_append_ascii`: a prefix of ASCII bytes without backslash does not
  change the answer;
* `validFrom_decodeEscapes`: the UTF-8 automaton reads the decoded pattern as the pattern when
  every escape decodes to an ASCII byte;
* `matchesArbitraryBytes_escape`: **valid text goes to the binary engine only through an escape
  of a byte `≥ 0x80`**.
-/

namespace SecLang

namespace Utf8

/-- The `first` table and `acceptRanges` of Go's `unicode/utf8`, for a byte `≥ 0x80`: how many
continuation bytes follow it and the range the first of them must lie in; `none` for a byte
that cannot lead (`0x80`–`0xC1`, `0xF5`–`0xFF`). -/
def first (b : UInt8) : Option (Nat × UInt8 × UInt8) :=
  if b < 0xC2 then none
  else if b < 0xE0 then some (1, 0x80, 0xBF)
  else if b = 0xE0 then some (2, 0xA0, 0xBF)
  else if b < 0xED then some (2, 0x80, 0xBF)
  else if b = 0xED then some (2, 0x80, 0x9F)
  else if b < 0xF0 then some (2, 0x80, 0xBF)
  else if b = 0xF0 then some (3, 0x90, 0xBF)
  else if b < 0xF4 then some (3, 0x80, 0xBF)
  else if b = 0xF4 then some (3, 0x80, 0x8F)
  else none

/-- `p` starts with `owed` continuation bytes, the first in `[lo, hi]` and the others in
`[locb, hicb] = [0x80, 0xBF]`, and goes on with valid text. -/
def validFrom : Nat → UInt8 → UInt8 → List UInt8 → Bool
  | 0, _, _, [] => true
  | 0, _, _, b :: p =>
    if b < 0x80 then validFrom 0 0 0 p
    else
      match first b with
      | some (n, lo, hi) => validFrom n lo hi p
      | none => false
  | _ + 1, _, _, [] => false
  | n + 1, lo, hi, c :: p => lo ≤ c && c ≤ hi && validFrom n 0x80 0xBF p

/-- `utf8.Valid`, read one byte at a time: a byte below `RuneSelf` stands alone, any other must
lead a sequence as `first` says, with all its continuation bytes present.  (The eight-byte
ASCII fast path of the code reads the same.) -/
def valid (p : List UInt8) : Bool := validFrom 0 0 0 p

/-- A prefix of ASCII bytes does not change validity. -/
theorem valid_append_of_ascii : ∀ (p q : List UInt8), (∀ b ∈ p, b < 0x80) →
    valid (p ++ q) = valid q
  | [], _, _ => rfl
  | b :: p, q, h => by
    rw [← valid_append_of_ascii p q fun b hb => h b (List.mem_cons_of_mem _ hb)]
    show validFrom 0 0 0 (b :: (p ++ q)) = validFrom 0 0 0 (p ++ q)
    rw [validFrom, if_pos (h b (List.mem_cons_self b p))]

/-- One transition of `validFrom` on a byte: from between characters an ASCII byte stays
there and a leading byte owes its continuation bytes; inside a character the byte must lie in
the range owed.  `none` is a byte the text cannot have there. -/
def step : Nat → UInt8 → UInt8 → UInt8 → Option (Nat × UInt8 × UInt8)
  | 0, _, _, b => if b < 0x80 then some (0, 0, 0) else first b
  | n + 1, lo, hi, c => if lo ≤ c ∧ c ≤ hi then some (n, 0x80, 0xBF) else none

theorem validFrom_cons (n : Nat) (lo hi b : UInt8) (p : List UInt8) :
    validFrom n lo hi (b :: p) =
      ((step n lo hi b).map fun q => validFrom q.1 q.2.1 q.2.2 p).getD false := by
  cases n with
  | zero =>
    by_cases hb : b < 0x80
    · simp [validFrom, step, hb]
    · cases h : first b <;> simp [validFrom, step, hb, h]
  | succ n =>
    by_cases hc : lo ≤ b ∧ b ≤ hi
    · simp [validFrom, step, hc]
    · simp only [validFrom, step, if_neg hc, Option.map_none', Option.getD_none]
      simp only [not_and_or, not_le] at hc
      rcases hc with hc | hc <;> simp [hc]

/-- Every range a leading byte owes starts above the ASCII bytes. -/
theorem first_lo (b : UInt8) : (first b).all (fun q => decide (0x80 ≤ q.2.1)) = true := by
  unfold first
  simp only [apply_ite (Option.all _), Option.all_none, Option.all_some]
  simp

/-- Inside a character the range owed lies above the ASCII bytes. -/
theorem step_lo {n : Nat} {lo hi b : UInt8} {q : Nat × UInt8 × UInt8}
    (h : step n lo hi b = some q) : q.1 = 0 ∨ 0x80 ≤ q.2.1 := by
  cases n with
  | zero =>
    simp only [step] at h
    by_cases hb : b < 0x80
    · rw [if_pos hb] at h
      cases h
      exact .inl rfl
    · rw [if_neg hb] at h
      have := first_lo b
      rw [h] at this
      exact .inr (by simpa using this)
  | succ n =>
    simp only [step] at h
    by_cases hc : lo ≤ b ∧ b ≤ hi
    · rw [if_pos hc] at h
      cases h
      exact .inr (show (0x80 : UInt8) ≤ 0x80 by decide)
    · rw [if_neg hc] at h
      cases h

end Utf8

/-- Go's `unhex`: the value of a hex digit. -/
def unhex (c : UInt8) : Option Nat :=
  if '0'.toUInt8 ≤ c ∧ c ≤ '9'.toUInt8 then some (c - '0'.toUInt8).toNat
  else if 'a'.toUInt8 ≤ c ∧ c ≤ 'f'.toUInt8 then some ((c - 'a'.toUInt8).toNat + 10)
  else if 'A'.toUInt8 ≤ c ∧ c ≤ 'F'.toUInt8 then some ((c - 'A'.toUInt8).toNat + 10)
  else none

/-- The value of two hex digits. -/
def hexValue (h l : UInt8) : Option Nat :=
  (unhex h).bind fun a => (unhex l).map fun c => a * 16 + c

/-- `strconv.UnquoteChar(s, 0)` on a string that starts with `\x`, the only kind
`matchesArbitraryBytes` passes it: the value of the two hex digits after `\x`, with
`multibyte` false, or `ErrSyntax` (`none`). -/
def unquoteChar : List UInt8 → Option (Nat × Bool)
  | b :: x :: h :: l :: _ =>
    if b = '\\'.toUInt8 ∧ x = 'x'.toUInt8 then (hexValue h l).map fun v => (v, false) else none
  | _ => none

/-- The loop of `matchesArbitraryBytes` from the index `i`, with the bytes `decoded` so far,
for at most `fuel` iterations. -/
def decodeLoop (expr : List UInt8) : Nat → Nat → List UInt8 → List UInt8
  | 0, _, decoded => decoded
  | fuel + 1, i, decoded =>
    if h : i < expr.length then
      let c := expr[i]
      if c ≠ '\\'.toUInt8 then decodeLoop expr fuel (i + 1) (decoded ++ [c])
      -- `decoded = append(decoded, expr[i:]...); break`
      else if h3 : expr.length ≤ i + 3 then decoded ++ expr.drop i
      else if expr[i + 1] ≠ 'x'.toUInt8 then decodeLoop expr fuel (i + 1) (decoded ++ [c])
      else
        match unquoteChar (expr.drop i) with
        | some (v, false) => decodeLoop expr fuel (i + 4) (decoded ++ [v.toUInt8])
        | _ => decodeLoop expr fuel (i + 1) (decoded ++ [c])
    else decoded

/-- `matchesArbitraryBytes`: whether the decoded pattern is not valid UTF-8. -/
def matchesArbitraryBytes (expr : List UInt8) : Bool :=
  !Utf8.valid (decodeLoop expr expr.length 0 [])

/-! ## What the loop decodes -/

/-- The byte `\xHH` stands for, when `b x h l` is such an escape. -/
def escapeByte (b x h l : UInt8) : Option UInt8 :=
  if b = '\\'.toUInt8 ∧ x = 'x'.toUInt8 then (hexValue h l).map Nat.toUInt8 else none

/-- The bytes a pattern's escapes decode to, read left to right: every `\xHH` with two hex
digits is the byte `0xHH`, every other byte is itself. -/
def decodeEscapes : List UInt8 → List UInt8
  | b :: x :: h :: l :: rest =>
    match escapeByte b x h l with
    | some v => v :: decodeEscapes rest
    | none => b :: decodeEscapes (x :: h :: l :: rest)
  | bs => bs

/-- Fewer than four bytes hold no escape. -/
theorem decodeEscapes_of_length_le {bs : List UInt8} (h : bs.length ≤ 3) :
    decodeEscapes bs = bs := by
  match bs, h with
  | [], _ | [_], _ | [_, _], _ | [_, _, _], _ => rfl

/-- A byte that does not start an escape is kept. -/
theorem decodeEscapes_cons {b : UInt8} {rest : List UInt8}
    (h : ∀ x h l r, rest = x :: h :: l :: r → escapeByte b x h l = none) :
    decodeEscapes (b :: rest) = b :: decodeEscapes rest := by
  match rest, h with
  | x :: h' :: l :: r, h => rw [decodeEscapes, h x h' l r rfl]
  | [], _ | [_], _ | [_, _], _ => rfl

theorem escapeByte_of_ne {b x h l : UInt8} (hb : b ≠ '\\'.toUInt8) :
    escapeByte b x h l = none := by
  simp [escapeByte, hb]

/-- An escape is one byte. -/
theorem decodeEscapes_escape {b x h l v : UInt8} {rest : List UInt8}
    (hv : escapeByte b x h l = some v) :
    decodeEscapes (b :: x :: h :: l :: rest) = v :: decodeEscapes rest := by
  rw [decodeEscapes, hv]

/-- **The loop decodes the unread bytes**, given fuel for them. -/
theorem decodeLoop_eq (expr : List UInt8) : ∀ (fuel i : Nat) (decoded : List UInt8),
    expr.length ≤ i + fuel → decodeLoop expr fuel i decoded = decoded ++ decodeEscapes (expr.drop i)
  | 0, i, decoded, hf => by
    rw [List.drop_of_length_le (by omega), decodeEscapes_of_length_le (by simp), List.append_nil]
    rfl
  | fuel + 1, i, decoded, hf => by
    unfold decodeLoop
    dsimp only
    split_ifs with hi hc h3 hx
    · -- a byte other than a backslash
      rw [decodeLoop_eq expr fuel _ _ (by omega), List.drop_eq_getElem_cons hi,
        decodeEscapes_cons fun _ _ _ _ _ => escapeByte_of_ne hc, List.append_assoc]
      rfl
    · -- fewer than four bytes left
      rw [decodeEscapes_of_length_le (by simp; omega)]
    · -- a backslash not followed by `x`
      rw [decodeLoop_eq expr fuel _ _ (by omega), List.drop_eq_getElem_cons hi,
        decodeEscapes_cons fun x h l r hr => ?_, List.append_assoc]
      · rfl
      · rw [List.drop_eq_getElem_cons (by omega), List.cons.injEq] at hr
        simp [escapeByte, ← hr.1, hx]
    · -- `\x`: one byte when two hex digits follow
      push_neg at hc hx
      have hd1 : expr.drop (i + 1) =
          'x'.toUInt8 :: expr[i + 2] :: expr[i + 3] :: expr.drop (i + 4) := by
        rw [List.drop_eq_getElem_cons (by omega), List.drop_eq_getElem_cons (by omega),
          List.drop_eq_getElem_cons (by omega), hx]
      rw [List.drop_eq_getElem_cons hi, hd1, hc, unquoteChar, if_pos ⟨rfl, rfl⟩]
      cases hv : hexValue expr[i + 2] expr[i + 3] with
      | none =>
        rw [decodeEscapes_cons fun x h l r hr => ?_, Option.map_none',
          decodeLoop_eq expr fuel _ _ (by omega), hd1, List.append_assoc]
        · rfl
        · simp only [List.cons.injEq] at hr
          simp [escapeByte, ← hr.1, ← hr.2.1, ← hr.2.2.1, hv]
      | some v =>
        rw [decodeEscapes_escape
            (show escapeByte _ _ _ _ = some v.toUInt8 by simp [escapeByte, hv]),
          Option.map_some']
        dsimp only
        rw [decodeLoop_eq expr fuel _ _ (by omega), List.append_assoc]
        rfl
    · -- the end of the pattern
      rw [List.drop_of_length_le (by omega), decodeEscapes_of_length_le (by simp),
        List.append_nil]

/-- **`matchesArbitraryBytes` is invalidity of the decoded pattern.** -/
theorem matchesArbitraryBytes_eq (expr : List UInt8) :
    matchesArbitraryBytes expr = !Utf8.valid (decodeEscapes expr) := by
  rw [matchesArbitraryBytes, decodeLoop_eq expr expr.length 0 [] (by simp), List.drop_zero,
    List.nil_append]

/-! ## An ASCII prefix without backslash changes nothing -/

/-- Bytes that are not backslashes are kept, and the decoding goes on after them. -/
theorem decodeEscapes_append_of_ne : ∀ (p q : List UInt8), (∀ b ∈ p, b ≠ '\\'.toUInt8) →
    decodeEscapes (p ++ q) = p ++ decodeEscapes q
  | [], _, _ => rfl
  | b :: p, q, h => by
    rw [List.cons_append, decodeEscapes_cons fun _ _ _ _ _ =>
        escapeByte_of_ne (h b (List.mem_cons_self b p)),
      decodeEscapes_append_of_ne p q fun b hb => h b (List.mem_cons_of_mem _ hb),
      List.cons_append]

/-- **A prefix of ASCII bytes without backslash does not change the engine.** -/
theorem matchesArbitraryBytes_append_ascii {p : List UInt8}
    (h : ∀ b ∈ p, b < 0x80 ∧ b ≠ '\\'.toUInt8) (q : List UInt8) :
    matchesArbitraryBytes (p ++ q) = matchesArbitraryBytes q := by
  rw [matchesArbitraryBytes_eq, matchesArbitraryBytes_eq, decodeEscapes_append_of_ne p q fun b hb => (h b hb).2,
    Utf8.valid_append_of_ascii p _ fun b hb => (h b hb).1]

/-! ## Escaped backslashes -/

/-- The bytes a pattern denotes when regex escaping is respected: an escaped backslash `\\`
stands for itself, and only a backslash that is not escaped starts `\xHH`. -/
def decodeRealEscapes : List UInt8 → List UInt8
  | 0x5C :: 0x5C :: rest => 0x5C :: 0x5C :: decodeRealEscapes rest
  | b :: x :: h :: l :: rest =>
    match escapeByte b x h l with
    | some v => v :: decodeRealEscapes rest
    | none => b :: decodeRealEscapes (x :: h :: l :: rest)
  | bs => bs

/-! ## Valid text goes to the binary engine only through a non-ASCII escape -/

/-- The bytes the escapes of a pattern decode to, in the order `decodeEscapes` reads them. -/
def escapedBytes : List UInt8 → List UInt8
  | b :: x :: h :: l :: rest =>
    match escapeByte b x h l with
    | some v => v :: escapedBytes rest
    | none => escapedBytes (x :: h :: l :: rest)
  | _ => []

theorem lt_of_le_of_lt_u8 {a b c : UInt8} (h : a ≤ b) (h' : b < c) : a < c :=
  Nat.lt_of_le_of_lt h h'

/-- An escape is `\x` and two hex digits: four ASCII bytes. -/
theorem escapeByte_ascii {b x h l v : UInt8} (hv : escapeByte b x h l = some v) :
    b < 0x80 ∧ x < 0x80 ∧ h < 0x80 ∧ l < 0x80 := by
  have hu : ∀ c n, unhex c = some n → c < 0x80 := fun c n hc => by
    unfold unhex at hc
    split_ifs at hc with h1 h2 h3
    · exact lt_of_le_of_lt_u8 h1.2 (by decide)
    · exact lt_of_le_of_lt_u8 h2.2 (by decide)
    · exact lt_of_le_of_lt_u8 h3.2 (by decide)
  unfold escapeByte at hv
  split_ifs at hv with hbx
  obtain ⟨w, hw, -⟩ := Option.map_eq_some'.mp hv
  obtain ⟨a, ha, c, hc, -⟩ : ∃ a, unhex h = some a ∧ ∃ c, unhex l = some c ∧ _ := by
    simpa [hexValue, Option.bind_eq_some, Option.map_eq_some'] using hw
  rw [hbx.1, hbx.2]
  exact ⟨by decide, by decide, hu h a ha, hu l c hc⟩

/-- **The automaton reads the decoded pattern as it reads the pattern**, when every escape
decodes to an ASCII byte: an escape is ASCII, so the automaton meets it between characters, and
the byte it decodes to leaves it there. -/
theorem validFrom_decodeEscapes (expr : List UInt8) :
    ∀ (n : Nat) (lo hi : UInt8), (n = 0 ∨ 0x80 ≤ lo) →
      (∀ v ∈ escapedBytes expr, v < 0x80) → Utf8.validFrom n lo hi expr = true →
        Utf8.validFrom n lo hi (decodeEscapes expr) = true := by
  induction expr using decodeEscapes.induct with
  | case1 b x h l rest v hv ih =>
    intro n lo hi hn he hvalid
    obtain ⟨hb, hx, hh, hl⟩ := escapeByte_ascii hv
    have hv' : v < 0x80 := he v (by rw [escapedBytes, hv]; exact List.mem_cons_self _ _)
    -- the backslash is read between characters, so are the other three bytes
    obtain rfl : n = 0 := by
      rcases hn with hn | hn
      · exact hn
      · cases n with
        | zero => rfl
        | succ n =>
          simp only [Utf8.validFrom_cons, Utf8.step] at hvalid
          split_ifs at hvalid with hc
          · exact absurd (lt_of_le_of_lt_u8 (UInt8.le_trans hn hc.1) hb) (by decide)
          · cases hvalid
    simp only [Utf8.validFrom_cons, Utf8.step, hb, hx, hh, hl, if_true, Option.map_some',
      Option.getD_some] at hvalid
    rw [decodeEscapes_escape hv]
    simp only [Utf8.validFrom_cons, Utf8.step, hv', if_true, Option.map_some', Option.getD_some]
    exact ih 0 0 0 (.inl rfl)
      (fun w hw => he w (by rw [escapedBytes, hv]; exact List.mem_cons_of_mem _ hw)) hvalid
  | case2 b x h l rest hv ih =>
    intro n lo hi _ he hvalid
    rw [decodeEscapes, hv]
    rw [Utf8.validFrom_cons] at hvalid ⊢
    cases hs : Utf8.step n lo hi b with
    | none => rw [hs] at hvalid; cases hvalid
    | some q =>
      rw [hs, Option.map_some', Option.getD_some] at hvalid
      rw [Option.map_some', Option.getD_some]
      exact ih q.1 q.2.1 q.2.2 (Utf8.step_lo hs)
        (fun w hw => he w (by rw [escapedBytes, hv]; exact hw)) hvalid
  | case3 t ht =>
    intro n lo hi _ _ hvalid
    match t, ht with
    | [], _ | [_], _ | [_, _], _ | [_, _, _], _ => exact hvalid
    | _ :: _ :: _ :: _ :: _, ht => exact absurd rfl (ht _ _ _ _ _)

/-- **Valid text goes to the binary engine only through a non-ASCII escape**: when a pattern is
valid UTF-8 and `matchesArbitraryBytes` sends it to the binary engine, one of its escapes
`\xHH` decodes to a byte `0xHH ≥ 0x80`. -/
theorem matchesArbitraryBytes_escape {expr : List UInt8} (hv : Utf8.valid expr = true)
    (hb : matchesArbitraryBytes expr = true) : ∃ v ∈ escapedBytes expr, 0x80 ≤ v := by
  by_contra hno
  push_neg at hno
  have hdec := validFrom_decodeEscapes expr 0 0 0 (.inl rfl)
    (fun v hv => Nat.lt_of_not_le (hno v hv)) hv
  rw [matchesArbitraryBytes_eq] at hb
  simp [Utf8.valid, hdec] at hb

/-- `\xff` is valid text, sent to the binary engine by its escape of `0xFF`. -/
theorem matchesArbitraryBytes_escape_xff :
    Utf8.valid (bytes "\\xff") = true ∧ matchesArbitraryBytes (bytes "\\xff") = true ∧
      ∃ v ∈ escapedBytes (bytes "\\xff"), 0x80 ≤ v :=
  ⟨by decide, by decide, matchesArbitraryBytes_escape (by decide) (by decide)⟩

end SecLang
