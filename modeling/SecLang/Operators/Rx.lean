import SecLang.Operators.ArbitraryBytes

/-!
# The `rx` operator: two engines behind one cache, and its captures

`newRX` prefixes the rule's pattern with the mode `(?s)` or `(?sm)` and, by
`matchesArbitraryBytes` of the prefixed pattern, compiles either with `regexp` (the text
engine, under the key `prefix ++ pattern`) or with `binaryregexp` (under the key `pattern`,
without the prefix).  Both go through `memoize.Do`, one cache for the process, and read the
value back with a type assertion that panics on a value of the other engine.

The two kinds of keys never meet.  A binary key `p` has `matchesArbitraryBytes (P ++ p)`, a text
key `P ++ q` has `¬ matchesArbitraryBytes (P ++ q)`, and since the prefix is ASCII without a
backslash, `matchesArbitraryBytes (P ++ x) = matchesArbitraryBytes x`: were `p = P ++ q`, the
two would be one value.  So every cache entry is of the engine its key selects
(`CacheInv`), every construction keeps that (`newRX_inv`), and no type assertion fails over any
run of constructions from the empty cache.  More holds: every entry is what compiling its key
with that engine gives (`CacheFaithful`), so a construction returns what it would in a fresh
process, and the cache changes no result, whatever the order of the constructions.

`Evaluate` is one body for both operators.  With capturing on it captures the groups of the
first match from index `0`, and returns at index `9`: the captures are `(ms.take 9).enum`.

## Main statements

* `newRX_escaped_backslash`: the pattern `\\xff`, valid text, goes to the binary engine;
* `rx_keys_disjoint`: the key-disjointness, the prefix law and the run safety together;
* `newRX_faithful`, `constructAll_faithful`: the step and run lemmas of `CacheFaithful`;
* `constructAll_eq_fresh`: **memoization changes no construction's result**;
* `Operator.evaluate_eq`, `Operator.evaluate_calls_lt`: what `Evaluate` returns and which
  `CaptureField` calls it makes, none from index `9` on;
* `evaluate_capture_law`: the two together, with the slots from `9` on left as they were.
-/

namespace SecLang

/-- What the operator reads of a compiled expression of either package. -/
structure Regexp where
  findStringSubmatch : List UInt8 → List (List UInt8)
  matchString : List UInt8 → Bool

/-- The two packages' `Compile`: `regexp.Compile` and `binaryregexp.Compile`. -/
structure Engines where
  compile : List UInt8 → Except String Regexp
  binaryCompile : List UInt8 → Except String Regexp

/-- A value of the memoize cache: the `interface{}` holds a `*regexp.Regexp` or a
`*binaryregexp.Regexp`. -/
inductive Memoized where
  | regexp (re : Regexp)
  | binaryRegexp (re : Regexp)

/-- Whether a cached value is of the binary engine. -/
def Memoized.isBinary : Memoized → Bool
  | .regexp _ => false
  | .binaryRegexp _ => true

/-- The process-wide memoize cache, by key. -/
abbrev Cache := List UInt8 → Option Memoized

/-- Modelled from the spec: `memoize.Do`, which is not under `src/`.  Compiled patterns are
memoized by their source text process-wide: a cached key gives its value, otherwise the value is
computed and stored under the key when that succeeds. -/
def memoizeDo (cache : Cache) (key : List UInt8) (fn : Except String Memoized) :
    Except String Memoized × Cache :=
  match cache key with
  | some v => (.ok v, cache)
  | none =>
    match fn with
    | .ok v => (.ok v, fun k => if k = key then some v else cache k)
    | .error e => (.error e, cache)

/-- What an `rx` construction can fail with. -/
inductive RxError where
  /-- The error of the package's `Compile`. -/
  | compile (msg : String)
  /-- The panic of a type assertion on a cached value of the other engine. -/
  | typeAssertion

/-- `rx`, the operator over a text expression. -/
structure Rx where
  re : Regexp

/-- `binaryRX`, the operator over a binary expression. -/
structure BinaryRX where
  re : Regexp

/-- A compiled `rx` operator, of either engine. -/
inductive Operator where
  | rx (o : Rx)
  | binaryRX (o : BinaryRX)

/-- `newBinaryRX`: compile the rule's pattern, without prefix, with the binary engine through
the cache, and assert the cached value is binary. -/
def newBinaryRX (E : Engines) (cache : Cache) (arguments : List UInt8) :
    Except RxError Operator × Cache :=
  let data := arguments
  let re := memoizeDo cache data ((E.binaryCompile data).map .binaryRegexp)
  (match re.1 with
    | .error e => .error (.compile e)
    | .ok (.binaryRegexp re) => .ok (.binaryRX ⟨re⟩)
    | .ok (.regexp _) => .error .typeAssertion, re.2)

/-- The mode prefix of `newRX`: `(?s)` when `shouldNotUseMultilineRegexesOperatorByDefault`,
else `(?sm)`. -/
def modePrefix (shouldNotUseMultilineRegexesOperatorByDefault : Bool) : List UInt8 :=
  if shouldNotUseMultilineRegexesOperatorByDefault then bytes "(?s)" else bytes "(?sm)"

/-- `newRX`: prefix the pattern with the mode; a pattern whose escapes are not UTF-8 goes to
`newBinaryRX`, any other is compiled with the text engine through the cache under the prefixed
pattern, and the cached value is asserted to be text. -/
def newRX (E : Engines) (shouldNotUseMultilineRegexesOperatorByDefault : Bool) (cache : Cache)
    (arguments : List UInt8) : Except RxError Operator × Cache :=
  let data := modePrefix shouldNotUseMultilineRegexesOperatorByDefault ++ arguments
  if matchesArbitraryBytes data then newBinaryRX E cache arguments
  else
    let re := memoizeDo cache data ((E.compile data).map .regexp)
    (match re.1 with
      | .error e => .error (.compile e)
      | .ok (.regexp re) => .ok (.rx ⟨re⟩)
      | .ok (.binaryRegexp _) => .error .typeAssertion, re.2)

/-- `rx` constructions one after another on one cache: their results and the cache after. -/
def constructAll (E : Engines) (flag : Bool) : Cache → List (List UInt8) →
    List (Except RxError Operator) × Cache
  | cache, [] => ([], cache)
  | cache, a :: args =>
    let r := newRX E flag cache a
    let rest := constructAll E flag r.2 args
    (r.1 :: rest.1, rest.2)

/-! ## The two engines never share a key -/

/-- The mode prefix is ASCII and has no backslash. -/
theorem modePrefix_ascii (flag : Bool) :
    ∀ b ∈ modePrefix flag, b < 0x80 ∧ b ≠ '\\'.toUInt8 := by
  cases flag <;> decide

/-- **The engine ignores the prefix.** -/
theorem matchesArbitraryBytes_modePrefix (flag : Bool) (x : List UInt8) :
    matchesArbitraryBytes (modePrefix flag ++ x) = matchesArbitraryBytes x :=
  matchesArbitraryBytes_append_ascii (modePrefix_ascii flag) x

/-- **An escaped backslash before `xff` sends valid text to the binary engine.**  The pattern
`\\xff`, an escaped backslash then the text `xff`, denotes the valid text `\xff`: respecting
its escaped backslash decodes nothing.  The scan of `matchesArbitraryBytes` reads its second
backslash as the start of `\xff` and decodes `0xFF`, so `newRX` compiles the pattern with the
binary engine, without the mode prefix, from any cache. -/
theorem newRX_escaped_backslash (E : Engines) (flag : Bool) (cache : Cache) :
    decodeRealEscapes [0x5C, 0x5C, 0x78, 0x66, 0x66] = [0x5C, 0x5C, 0x78, 0x66, 0x66] ∧
      Utf8.valid [0x5C, 0x5C, 0x78, 0x66, 0x66] = true ∧
      matchesArbitraryBytes [0x5C, 0x5C, 0x78, 0x66, 0x66] = true ∧
      newRX E flag cache [0x5C, 0x5C, 0x78, 0x66, 0x66] =
        newBinaryRX E cache [0x5C, 0x5C, 0x78, 0x66, 0x66] := by
  have hb : matchesArbitraryBytes [0x5C, 0x5C, 0x78, 0x66, 0x66] = true := by decide
  refine ⟨by decide, by decide, hb, ?_⟩
  unfold newRX
  dsimp only
  rw [if_pos ((matchesArbitraryBytes_modePrefix flag _).trans hb)]

/-- Every cached value is of the engine its key selects: binary exactly when the prefixed key
decodes to bytes that are not UTF-8. -/
def CacheInv (flag : Bool) (cache : Cache) : Prop :=
  ∀ k v, cache k = some v → v.isBinary = matchesArbitraryBytes (modePrefix flag ++ k)

/-- What `memoizeDo` returns and stores satisfies any property of key and value that the cache
and the computed value have. -/
theorem memoizeDo_inv {Good : List UInt8 → Memoized → Prop} {cache : Cache} (key : List UInt8)
    (fn : Except String Memoized) (hc : ∀ k v, cache k = some v → Good k v)
    (hf : ∀ v, fn = .ok v → Good key v) :
    (∀ v, (memoizeDo cache key fn).1 = .ok v → Good key v) ∧
      ∀ k v, (memoizeDo cache key fn).2 k = some v → Good k v := by
  unfold memoizeDo
  cases hk : cache key with
  | some v' => exact ⟨fun v h => (by cases h; exact hc _ _ hk), hc⟩
  | none =>
    cases fn with
    | error e => exact ⟨fun v h => (by cases h), hc⟩
    | ok v' =>
      refine ⟨fun v h => by cases h; exact hf _ rfl, fun k v h => ?_⟩
      dsimp only at h
      split_ifs at h with hkey
      · cases h; exact hkey ▸ hf _ rfl
      · exact hc _ _ h

/-- **One construction keeps the cache invariant and passes its type assertion.** -/
theorem newRX_inv (E : Engines) {flag : Bool} {cache : Cache} (a : List UInt8)
    (hc : CacheInv flag cache) :
    (newRX E flag cache a).1 ≠ .error .typeAssertion ∧ CacheInv flag (newRX E flag cache a).2 := by
  unfold newRX
  dsimp only
  split_ifs with hb
  · -- the binary engine, under the key `a`
    have := memoizeDo_inv a ((E.binaryCompile a).map .binaryRegexp) hc
      (fun v hv => by
        cases h : E.binaryCompile a <;> rw [h] at hv <;> cases hv
        exact hb.symm)
    unfold newBinaryRX
    dsimp only
    refine ⟨?_, this.2⟩
    split
    · simp
    · simp
    · next re h => simpa [Memoized.isBinary, hb] using this.1 _ h
  · -- the text engine, under the prefixed key, which the prefix does not move
    have hfalse : matchesArbitraryBytes (modePrefix flag ++ a) = false := by simpa using hb
    have := memoizeDo_inv (modePrefix flag ++ a) ((E.compile (modePrefix flag ++ a)).map .regexp) hc
      (fun v hv => by
        cases h : E.compile (modePrefix flag ++ a) <;> rw [h] at hv <;> cases hv
        rw [matchesArbitraryBytes_modePrefix, hfalse]; rfl)
    refine ⟨?_, this.2⟩
    split
    · simp
    · simp
    · next re h =>
      have hv := this.1 _ h
      rw [matchesArbitraryBytes_modePrefix, hfalse] at hv
      cases hv

/-- **No type assertion fails over a run of constructions** from a cache that keeps the
invariant. -/
theorem constructAll_inv (E : Engines) (flag : Bool) :
    ∀ (args : List (List UInt8)) (cache : Cache), CacheInv flag cache →
      ∀ r ∈ (constructAll E flag cache args).1, r ≠ .error .typeAssertion
  | [], _, _ => by simp [constructAll]
  | a :: args, cache, hc => by
    obtain ⟨h1, h2⟩ := newRX_inv E a hc
    simp only [constructAll, List.mem_cons]
    rintro r (rfl | hr)
    · exact h1
    · exact constructAll_inv E flag args _ h2 r hr

/-- **The two engines never share a memoize key.**  A pattern `p` that goes to the binary engine
(key `p`) is never the text key `P ++ q` of a pattern `q` that goes to the text engine; the
engine choice ignores the prefix; and so over every run of `rx` constructions from the empty
cache no type assertion on a cached value fails. -/
theorem rx_keys_disjoint (E : Engines) (flag : Bool) :
    (∀ p q : List UInt8, matchesArbitraryBytes (modePrefix flag ++ p) = true →
      matchesArbitraryBytes (modePrefix flag ++ q) = false → p ≠ modePrefix flag ++ q) ∧
    (∀ x, matchesArbitraryBytes (modePrefix flag ++ x) = matchesArbitraryBytes x) ∧
    (∀ args : List (List UInt8), ∀ r ∈ (constructAll E flag (fun _ => none) args).1,
      r ≠ .error .typeAssertion) := by
  refine ⟨fun p q hp hq hpq => ?_, matchesArbitraryBytes_modePrefix flag,
    fun args => constructAll_inv E flag args _ fun _ _ h => by cases h⟩
  rw [hpq, matchesArbitraryBytes_modePrefix, hq] at hp
  cases hp

/-! ## The cache changes no result -/

/-- What a construction computes for a key: the value of the engine the prefixed key selects,
compiled from the key itself. -/
def memoized (E : Engines) (flag : Bool) (k : List UInt8) : Except String Memoized :=
  if matchesArbitraryBytes (modePrefix flag ++ k) then (E.binaryCompile k).map .binaryRegexp
  else (E.compile k).map .regexp

/-- Every cached value is what a construction computes for its key. -/
def CacheFaithful (E : Engines) (flag : Bool) (cache : Cache) : Prop :=
  ∀ k v, cache k = some v → memoized E flag k = .ok v

/-- `memoizeDo` returns what `fn` gives when the entry under the key, if any, is that. -/
theorem memoizeDo_fst {cache : Cache} {key : List UInt8} {fn : Except String Memoized}
    (h : ∀ v, cache key = some v → fn = .ok v) : (memoizeDo cache key fn).1 = fn := by
  unfold memoizeDo
  cases hk : cache key with
  | some v => exact (h v hk).symm
  | none => cases fn <;> rfl

/-- **One construction on a faithful cache returns what it returns on the empty cache**, and
keeps the cache faithful: each engine's key is the text that engine compiles. -/
theorem newRX_faithful (E : Engines) {flag : Bool} {cache : Cache} (a : List UInt8)
    (hc : CacheFaithful E flag cache) :
    (newRX E flag cache a).1 = (newRX E flag (fun _ => none) a).1 ∧
      CacheFaithful E flag (newRX E flag cache a).2 := by
  have hnone : ∀ (key : List UInt8) (fn : Except String Memoized),
      (memoizeDo (fun _ => none) key fn).1 = fn := fun _ _ => memoizeDo_fst fun _ h => by cases h
  unfold newRX newBinaryRX
  dsimp only
  split_ifs with hb
  · -- the binary engine, under the key `a`
    have hk : memoized E flag a = (E.binaryCompile a).map .binaryRegexp := if_pos hb
    rw [memoizeDo_fst fun v hv => hk ▸ hc a v hv, hnone]
    exact ⟨rfl, (memoizeDo_inv a _ hc fun v hv => hk ▸ hv).2⟩
  · -- the text engine, under the prefixed key, which selects the text engine again
    have hk : memoized E flag (modePrefix flag ++ a) =
        (E.compile (modePrefix flag ++ a)).map .regexp :=
      if_neg (by rwa [matchesArbitraryBytes_modePrefix])
    rw [memoizeDo_fst fun v hv => hk ▸ hc _ v hv, hnone]
    exact ⟨rfl, (memoizeDo_inv _ _ hc fun v hv => hk ▸ hv).2⟩

/-- Over a run of constructions from a faithful cache, each returns what it returns on the
empty cache. -/
theorem constructAll_faithful (E : Engines) (flag : Bool) :
    ∀ (args : List (List UInt8)) (cache : Cache), CacheFaithful E flag cache →
      (constructAll E flag cache args).1 = args.map fun a => (newRX E flag (fun _ => none) a).1
  | [], _, _ => rfl
  | a :: args, cache, hc => by
    obtain ⟨h1, h2⟩ := newRX_faithful E a hc
    simp only [constructAll, List.map_cons, h1, constructAll_faithful E flag args _ h2]

/-- **Memoization changes no construction's result**: over every run of `rx` constructions from
the empty cache, each returns what it returns in a fresh process, whatever was constructed before
it, so the order of the constructions does not matter. -/
theorem constructAll_eq_fresh (E : Engines) (flag : Bool) (args : List (List UInt8)) :
    (constructAll E flag (fun _ => none) args).1 =
      args.map fun a => (newRX E flag (fun _ => none) a).1 :=
  constructAll_faithful E flag args _ fun _ _ h => by cases h

/-! ## `Evaluate` and the capture slots -/

/-- The loop `for i, c := range match` of `Evaluate` from index `i`: capture each group, and
return at index `9`.  The list is the `CaptureField` calls, in order. -/
def captureLoop : Nat → List (List UInt8) → List (Nat × List UInt8)
  | _, [] => []
  | i, c :: cs => if i = 9 then [] else (i, c) :: captureLoop (i + 1) cs

/-- The body of `Evaluate` that `rx` and `binaryRX` share, for a transaction whose
`Capturing()` is `capturing`: the result, and the `CaptureField` calls it makes. -/
def evaluate (re : Regexp) (capturing : Bool) (value : List UInt8) :
    Bool × List (Nat × List UInt8) :=
  if capturing then
    match re.findStringSubmatch value with
    | [] => (false, [])
    | ms => (true, captureLoop 0 ms)
  else (re.matchString value, [])

/-- `rx.Evaluate`. -/
def Rx.evaluate (o : Rx) : Bool → List UInt8 → Bool × List (Nat × List UInt8) :=
  SecLang.evaluate o.re

/-- `binaryRX.Evaluate`. -/
def BinaryRX.evaluate (o : BinaryRX) : Bool → List UInt8 → Bool × List (Nat × List UInt8) :=
  SecLang.evaluate o.re

/-- `Evaluate` of a compiled operator. -/
def Operator.evaluate : Operator → Bool → List UInt8 → Bool × List (Nat × List UInt8)
  | .rx o => o.evaluate
  | .binaryRX o => o.evaluate

/-- The expression of a compiled operator. -/
def Operator.re : Operator → Regexp
  | .rx o => o.re
  | .binaryRX o => o.re

/-- Modelled from the spec: the capture state of a transaction, text slots by index, and
`CaptureField(i, v)`, which writes slot `i` and nothing else. -/
structure CaptureState where
  slots : Nat → Option (List UInt8)

/-- `CaptureField(index, value)`. -/
def CaptureState.captureField (s : CaptureState) (index : Nat) (value : List UInt8) :
    CaptureState :=
  ⟨fun j => if j = index then some value else s.slots j⟩

/-- The capture state after a sequence of `CaptureField` calls. -/
def CaptureState.run (s : CaptureState) (calls : List (Nat × List UInt8)) : CaptureState :=
  calls.foldl (fun s c => s.captureField c.1 c.2) s

/-- A slot no call names keeps its value. -/
theorem CaptureState.run_slots_of_ne : ∀ (calls : List (Nat × List UInt8)) (s : CaptureState)
    (j : Nat), (∀ c ∈ calls, c.1 ≠ j) → (s.run calls).slots j = s.slots j
  | [], _, _, _ => rfl
  | c :: calls, s, j, h => by
    rw [run, List.foldl_cons, ← run,
      run_slots_of_ne calls _ j fun c' hc' => h c' (List.mem_cons_of_mem _ hc')]
    simp [captureField, Ne.symm (h c (List.mem_cons_self c calls))]

/-- From index `i ≤ 9` the loop captures the groups up to index `8`, each under its index. -/
theorem captureLoop_eq : ∀ (i : Nat) (ms : List (List UInt8)), i ≤ 9 →
    captureLoop i ms = (ms.take (9 - i)).enumFrom i
  | _, [], _ => by simp [captureLoop]
  | i, c :: cs, hi => by
    by_cases h9 : i = 9
    · subst h9; simp [captureLoop]
    · obtain ⟨k, hk⟩ : ∃ k, 9 - i = k + 1 := ⟨8 - i, by omega⟩
      rw [captureLoop, if_neg h9, captureLoop_eq (i + 1) cs (by omega), hk, List.take_succ_cons,
        List.enumFrom_cons, show 9 - (i + 1) = k by omega]

/-- `Evaluate` of both operators: with capturing on, whether `FindStringSubmatch` found a match,
and the first nine groups under their indices. -/
theorem Operator.evaluate_eq (o : Operator) (capturing : Bool) (value : List UInt8) :
    o.evaluate capturing value =
      (if capturing then
        (decide (o.re.findStringSubmatch value ≠ []), ((o.re.findStringSubmatch value).take 9).enum)
      else (o.re.matchString value, [])) := by
  have : o.evaluate capturing value = SecLang.evaluate o.re capturing value := by
    cases o <;> rfl
  rw [this, SecLang.evaluate]
  cases capturing
  · rfl
  · cases o.re.findStringSubmatch value with
    | nil => rfl
    | cons m ms => simp [captureLoop_eq 0 _ (Nat.zero_le 9), List.enum]

/-- No `CaptureField` call of `Evaluate` names an index from `9` on. -/
theorem Operator.evaluate_calls_lt (o : Operator) (capturing : Bool) (value : List UInt8) :
    ∀ c ∈ (o.evaluate capturing value).2, c.1 < 9 := by
  intro c hc
  rw [Operator.evaluate_eq] at hc
  split_ifs at hc
  · have := List.fst_lt_of_mem_enum hc
    rw [List.length_take] at this
    omega
  · cases hc

/-- **The capture law of `Evaluate`**, for `rx` and `binaryRX` alike.  With capturing on, it
returns whether `FindStringSubmatch` found a match, and its only effects are
`CaptureField(i, ms[i])` for `i < min(|ms|, 9)`, in order; with capturing off it returns
`MatchString` and captures nothing.  No call names an index from `9` on, so those slots keep
their values. -/
theorem evaluate_capture_law (o : Operator) (capturing : Bool) (value : List UInt8) :
    o.evaluate capturing value =
      (if capturing then
        (decide (o.re.findStringSubmatch value ≠ []), ((o.re.findStringSubmatch value).take 9).enum)
      else (o.re.matchString value, [])) ∧
    ∀ (s : CaptureState) (j : Nat), 9 ≤ j →
      (s.run (o.evaluate capturing value).2).slots j = s.slots j :=
  ⟨o.evaluate_eq capturing value, fun s j hj => CaptureState.run_slots_of_ne _ s j fun c hc => by
    have := o.evaluate_calls_lt capturing value c hc
    omega⟩

end SecLang
