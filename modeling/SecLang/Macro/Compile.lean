import SecLang.Macro.Token

/-!
# `macro.compile`: the scan loop, and that it stays inside the input

`compile` walks the template with an index `i` and three reads: `input[i]`, the lookahead
`input[i+1]` when it tests for `%{`, and the lookbehind `input[i-1]` when a reference closes.
The model keeps the index and makes every read through `byteAt`, so a read outside the input is
Go's panic and not a default byte.  The loop `for i := 0; i < l; i++` runs on a fuel of
`len(input)` iterations.

The body of the loop is split where the code splits it.  `opensReference` is the test for
`%{` with its short-circuit, `Scanner.openReference` what `%{` does, and `Scanner.next` the
two branches for any other byte; `step` puts them together at the index.  `Scanner.next` is
the part the list scan of `Macro.Scan` shares with this loop.

## Main statements

* `Scanner.next_eq_ok`: everything a successful `next` can do, and `opensReference_eq`: the
  test for `%{` at an index in range;
* `step_inv`: one iteration keeps `CompileState.Inv` (the index is at most `len(input)`, and
  an open reference means `i ≥ 2`) and moves the index forward;
* `step_ne_indexOutOfRange`: under the invariant no read of an iteration is out of range;
* `loop_ends`: from an invariant state with enough fuel, the loop leaves through its condition
  at `i = len(input)`, or returns an error that is not a panic;
* `loop_total_in_bounds`: the same from the initial state with the fuel `compile` gives it.
-/

namespace SecLang

variable {V : Type}

/-- The loop variables of `compile` other than the index: whether a reference is open, the
bytes of the token being read, and the tokens emitted so far. -/
structure Scanner (V : Type) where
  isMacro : Bool
  currentToken : List UInt8
  tokens : List (MacroToken V)

/-- The loop state of `compile`: the scanner and the index `i`. -/
structure CompileState (V : Type) extends Scanner V where
  i : Nat

namespace Scanner

/-- The tokens with the literal being read appended when it is not empty: the two
`if currentToken.Len() > 0` blocks of `compile`. -/
def flush (T : VariableTable V) (s : Scanner V) : List (MacroToken V) :=
  if 0 < s.currentToken.length then s.tokens ++ [T.literal s.currentToken] else s.tokens

/-- What `%{` does: flush the literal and open a reference. -/
def openReference (T : VariableTable V) (s : Scanner V) : Scanner V :=
  ⟨true, [], s.flush T⟩

/-- A byte `c` that does not open a reference: the branch for an open reference, then the
literal branch.  `prev` is the read of `input[i-1]`, used only on a closing brace; `last` is
`i+1 == l`. -/
def next (T : VariableTable V) (prev : Except MacroError UInt8) (c : UInt8) (last : Bool)
    (s : Scanner V) : Except MacroError (Scanner V) :=
  if s.isMacro then
    if c = '}'.toUInt8 then do
      if (← prev) = '.'.toUInt8 then throw .emptyVariableName
      let varName := (cut s.currentToken).1
      match T.parse varName with
      | none => throw (.unknownVariable varName)
      | some v =>
        pure ⟨false, [], s.tokens ++ [⟨s.currentToken, v, toLower (cut s.currentToken).2⟩]⟩
    else if !isValidMacroChar c then
      throw (.malformedVariable ('%'.toUInt8 :: '{'.toUInt8 :: s.currentToken))
    else if last then throw .noClosingBraces
    else pure { s with currentToken := s.currentToken ++ [c] }
  else pure { s with currentToken := s.currentToken ++ [c] }

/-- **What `next` can do**: append the byte to the literal, append a valid byte that is not the
last of the input to the body, or close the reference on `}` after a byte that is not `.`, with
a scope name that parses. -/
theorem next_eq_ok {T : VariableTable V} {prev : Except MacroError UInt8} {c : UInt8}
    {last : Bool} {s s' : Scanner V} (h : s.next T prev c last = .ok s') :
    (s.isMacro = false ∧ s' = { s with currentToken := s.currentToken ++ [c] }) ∨
    (s.isMacro = true ∧ isValidMacroChar c = true ∧ last = false ∧
      s' = { s with currentToken := s.currentToken ++ [c] }) ∨
    (s.isMacro = true ∧ c = '}'.toUInt8 ∧ ∃ p v, prev = .ok p ∧ p ≠ '.'.toUInt8 ∧
      T.parse (cut s.currentToken).1 = some v ∧
      s' = ⟨false, [], s.tokens ++ [⟨s.currentToken, v, toLower (cut s.currentToken).2⟩]⟩) := by
  unfold next at h
  split_ifs at h with hm hc hv hl
  · cases prev with
    | error e => cases h
    | ok p =>
      by_cases hp : p = '.'.toUInt8
      · simp only [hp, if_true] at h
        cases h
      · cases hv : T.parse (cut s.currentToken).1 with
        | none => simp [hp, hv] at h
        | some v =>
          simp only [hp, hv, ok_bind, if_false] at h
          cases h
          exact .inr (.inr ⟨hm, hc, p, v, rfl, hp, rfl, rfl⟩)
  · cases h
    exact .inr (.inl ⟨hm, by simpa using hv, by simpa using hl, rfl⟩)
  · cases h
    exact .inl ⟨by simpa using hm, rfl⟩

/-- `next` never opens a reference. -/
theorem isMacro_of_next {T : VariableTable V} {prev : Except MacroError UInt8} {c : UInt8}
    {last : Bool} {s s' : Scanner V} (h : s.next T prev c last = .ok s') (hm : s'.isMacro) :
    s.isMacro := by
  rcases next_eq_ok h with ⟨-, rfl⟩ | ⟨hs, -⟩ | ⟨hs, -⟩ <;> assumption

/-- **How `next` fails**: only inside a reference; on `}` by the read of the byte before it, a
`.` before it, or a scope name that does not parse; on any other byte by an invalid byte, or a
valid one at the end of the input. -/
theorem next_eq_error {T : VariableTable V} {prev : Except MacroError UInt8} {c : UInt8}
    {last : Bool} {s : Scanner V} {e : MacroError} (h : s.next T prev c last = .error e) :
    s.isMacro = true ∧
      ((c = '}'.toUInt8 ∧ (prev = .error e ∨ (prev = .ok '.'.toUInt8 ∧ e = .emptyVariableName) ∨
        (T.parse (cut s.currentToken).1 = none ∧ e = .unknownVariable (cut s.currentToken).1))) ∨
      (c ≠ '}'.toUInt8 ∧ isValidMacroChar c = false ∧
        e = .malformedVariable ('%'.toUInt8 :: '{'.toUInt8 :: s.currentToken)) ∨
      (c ≠ '}'.toUInt8 ∧ isValidMacroChar c = true ∧ last = true ∧ e = .noClosingBraces)) := by
  unfold next at h
  split_ifs at h with hm hc hv hl
  · refine ⟨hm, .inl ⟨hc, ?_⟩⟩
    cases prev with
    | error e' => cases h; exact .inl rfl
    | ok p =>
      by_cases hp : p = '.'.toUInt8
      · subst hp
        simp only [if_true] at h
        cases h
        exact .inr (.inl ⟨rfl, rfl⟩)
      · cases hv : T.parse (cut s.currentToken).1 with
        | none =>
          simp only [hp, hv, ok_bind, if_false] at h
          cases h
          exact .inr (.inr ⟨rfl, rfl⟩)
        | some v =>
          simp only [hp, hv, ok_bind, if_false] at h
          cases h
  · cases h
    exact ⟨hm, .inr (.inl ⟨hc, by simpa using hv, rfl⟩)⟩
  · cases h
    exact ⟨hm, .inr (.inr ⟨hc, by simpa using hv, hl, rfl⟩)⟩
  · cases h
  · cases h

/-- `next` panics only by reading `input[i-1]` inside a reference. -/
theorem prev_of_next_eq_indexOutOfRange {T : VariableTable V} {prev : Except MacroError UInt8}
    {c : UInt8} {last : Bool} {s : Scanner V}
    (h : s.next T prev c last = .error .indexOutOfRange) :
    s.isMacro ∧ prev = .error .indexOutOfRange := by
  obtain ⟨hm, ⟨-, hp | ⟨-, h'⟩ | ⟨-, h'⟩⟩ | ⟨-, -, h'⟩ | ⟨-, -, -, h'⟩⟩ := next_eq_error h
  · exact ⟨hm, hp⟩
  all_goals cases h'

end Scanner

/-- Go's `c == '%' && i+1 < l && input[i+1] == '{'`, which reads `input[i+1]` only when the
first two conjuncts hold. -/
def opensReference (input : List UInt8) (i : Nat) (c : UInt8) : Except MacroError Bool :=
  if c = '%'.toUInt8 ∧ i + 1 < input.length then
    (fun d => decide (d = '{'.toUInt8)) <$> byteAt input ↑(i + 1)
  else pure false

/-- The test for `%{` at an index in range: the byte is `%` and the next one, if there is one,
is `{`. -/
theorem opensReference_eq {input : List UInt8} {i : Nat} (hlt : i < input.length) :
    opensReference input i input[i] =
      .ok (decide (input[i] = '%'.toUInt8 ∧ (input.drop (i + 1)).head? = some '{'.toUInt8)) := by
  unfold opensReference
  by_cases h : i + 1 < input.length
  · rw [List.drop_eq_getElem_cons h, byteAt_of_lt h]
    by_cases hc : input[i] = '%'.toUInt8 <;>
      simp [hc, h, Functor.map, Except.map, pure, Except.pure]
  · rw [List.drop_eq_nil_of_le (by omega)]
    simp [h, pure, Except.pure]

/-- One iteration of the loop of `compile`, at an index `st.i < len(input)`. -/
def step (T : VariableTable V) (input : List UInt8) (st : CompileState V) :
    Except MacroError (CompileState V) := do
  let c ← byteAt input st.i
  if ← opensReference input st.i c then
    -- the `i++` that skips `{`, then the loop's own `i++`
    return ⟨st.toScanner.openReference T, st.i + 2⟩
  let s ← st.toScanner.next T (byteAt input (st.i - 1 : Int)) c (st.i + 1 == input.length)
  return ⟨s, st.i + 1⟩

/-- The loop `for i := 0; i < l; i++` of `compile`, run for at most `fuel` iterations. -/
def loop (T : VariableTable V) (input : List UInt8) : Nat → CompileState V →
    Except MacroError (CompileState V)
  | 0, st => pure st
  | fuel + 1, st => if st.i < input.length then step T input st >>= loop T input fuel else pure st

/-- `compile`: the loop runs from `i = 0` with no reference open, then the literal still being
read is flushed.  The template is kept as `original`. -/
def Macro.compile (T : VariableTable V) (input : List UInt8) : Except MacroError (Macro V) :=
  if input.length = 0 then throw .emptyMacro
  else (fun st => ⟨input, st.toScanner.flush T⟩) <$> loop T input input.length ⟨⟨false, [], []⟩, 0⟩

/-- `NewMacro`: reject the empty template, else compile it. -/
def newMacro (T : VariableTable V) (data : List UInt8) : Except MacroError (Macro V) :=
  if data.length = 0 then throw .emptyData else Macro.compile T data

/-! ## The loop stays inside the input -/

/-- The invariant of the loop of `compile`: the index never passes the end, and while a
reference is open the `%{` that opened it lies behind the index. -/
def CompileState.Inv (input : List UInt8) (st : CompileState V) : Prop :=
  st.i ≤ input.length ∧ (st.isMacro = true → 2 ≤ st.i)

variable {T : VariableTable V} {input : List UInt8} {st st' : CompileState V}

/-- **One iteration keeps the invariant**, and moves the index forward. -/
theorem step_inv (hi : st.Inv input) (hlt : st.i < input.length)
    (h : step T input st = .ok st') : st'.Inv input ∧ st.i < st'.i := by
  simp only [step, byteAt_of_lt hlt, opensReference_eq hlt, ok_bind] at h
  split_ifs at h with ho
  · -- `%{`: the lookahead was in range, so the index lands at most on the end
    have : st.i + 1 < input.length := by
      by_contra hge
      simp [List.drop_eq_nil_of_le (Nat.le_of_not_lt hge)] at ho
    cases h
    exact ⟨⟨by simp; omega, fun _ => by simp⟩, by simp⟩
  · cases hs : st.toScanner.next T _ _ _ with
    | error e => rw [hs] at h; cases h
    | ok s =>
      rw [hs] at h
      cases h
      exact ⟨⟨by simpa using hlt, fun hm => by
        have := hi.2 (Scanner.isMacro_of_next hs hm); simp; omega⟩, by simp⟩

/-- **No read of an iteration is out of range** under the invariant: `input[i]` by the loop
condition, `input[i+1]` by the short-circuit, and `input[i-1]` because `i ≥ 2` inside a
reference. -/
theorem step_ne_indexOutOfRange (hi : st.Inv input) (hlt : st.i < input.length) :
    step T input st ≠ .error .indexOutOfRange := by
  intro h
  simp only [step, byteAt_of_lt hlt, opensReference_eq hlt, ok_bind] at h
  split_ifs at h
  · cases h
  · cases hn : st.toScanner.next T _ _ _ with
    | ok s => rw [hn] at h; cases h
    | error e =>
      rw [hn] at h
      cases h
      obtain ⟨hm, hp⟩ := Scanner.prev_of_next_eq_indexOutOfRange hn
      rw [byteAt_sub_one_of_pos (by have := hi.2 hm; omega) hi.1] at hp
      cases hp

/-- **The run lemma.**  From an invariant state with fuel for the rest of the input, the loop
leaves through its condition at `i = len(input)`, or returns an error that is not a panic. -/
theorem loop_ends : ∀ (fuel : Nat) (st : CompileState V), st.Inv input →
    input.length ≤ st.i + fuel →
    (∃ st', loop T input fuel st = .ok st' ∧ st'.i = input.length) ∨
    (∃ e, loop T input fuel st = .error e ∧ e ≠ .indexOutOfRange)
  | 0, st, hi, hf => .inl ⟨st, rfl, by have := hi.1; omega⟩
  | fuel + 1, st, hi, hf => by
    simp only [loop]
    split_ifs with hlt
    · cases hs : step T input st with
      | error e => exact .inr ⟨e, rfl, fun he => step_ne_indexOutOfRange hi hlt (he ▸ hs)⟩
      | ok st' =>
        obtain ⟨hi', hlt'⟩ := step_inv hi hlt hs
        exact loop_ends fuel st' hi' (by omega)
    · exact .inl ⟨st, rfl, by have := hi.1; omega⟩

/-- **`compile` is total and in bounds.**  For every input, the loop of `compile` run with the
fuel `len(input)` leaves through its condition at `i = len(input)` or returns an error, and no
read of it is outside `[0, len(input))`. -/
theorem loop_total_in_bounds (T : VariableTable V) (input : List UInt8) :
    (∃ st, loop T input input.length ⟨⟨false, [], []⟩, 0⟩ = .ok st ∧ st.i = input.length) ∨
    (∃ e, loop T input input.length ⟨⟨false, [], []⟩, 0⟩ = .error e ∧
      e ≠ .indexOutOfRange) :=
  loop_ends _ _ ⟨Nat.zero_le _, fun h => absurd h Bool.false_ne_true⟩ (by simp)

end SecLang
