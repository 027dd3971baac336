import SecLang.Macro.Template

/-!
# Every error of `NewMacro` has its cause in the template

Each error `compile` returns quotes or names what it found: `unknown variable %q` the scope name
of a reference `%{body}` of the template that `Parse` rejected, `malformed variable starting with
%q` the reference read up to the invalid byte.  `MacroError.Justified` says, for each error, what the template must contain for it, and
`newMacro_error_justified` that every error `NewMacro` returns is justified so.  The panic
`indexOutOfRange` is justified by nothing, which is `loop_total_in_bounds` once more.

The proof follows the scan with the bytes `u` it has read (`Consumed`): `prev` is the last of
them, and an open reference is a suffix `%{body}` of them with valid bytes in its body.  Every
step keeps that, and a `next` that fails at a byte `c` has its cause in `u ++ c :: rest`.

## Main statements

* `Scanner.next_eq_error` (in `Macro.Compile`): how `next` fails;
* `Consumed.next`, `Consumed.openReference`: the step lemmas, and `Consumed.next_error`: a
  failing `next` has its cause in the input;
* `scan_error_justified`: the run lemma;
* `newMacro_error_justified`: **every error of `NewMacro` is justified by the template**.
-/

namespace SecLang

variable {V : Type} {T : VariableTable V}

/-- What the template must contain for each error: an empty template for the two empty errors,
`.}` for an empty variable name, a reference `%{body}` of valid bytes whose scope name is the
one quoted and rejected by `Parse` for an unknown variable, `%{` and valid bytes then an invalid
byte other than `}` for a malformed reference, and a reference with valid bytes left open at the
end for a missing brace.  Nothing justifies the panic. -/
def MacroError.Justified (T : VariableTable V) (input : List UInt8) : MacroError → Prop
  | .emptyData | .emptyMacro => input = []
  | .emptyVariableName => ['.'.toUInt8, '}'.toUInt8] <:+: input
  | .unknownVariable varName => T.parse varName = none ∧ ∃ body, (cut body).1 = varName ∧
      (∀ b ∈ body, isValidMacroChar b = true) ∧ reference body <:+: input
  | .malformedVariable start => ∃ body c, start = '%'.toUInt8 :: '{'.toUInt8 :: body ∧
      (∀ b ∈ body, isValidMacroChar b = true) ∧ isValidMacroChar c = false ∧
      c ≠ '}'.toUInt8 ∧ start ++ [c] <:+: input
  | .noClosingBraces => ∃ body, body ≠ [] ∧ (∀ b ∈ body, isValidMacroChar b = true) ∧
      '%'.toUInt8 :: '{'.toUInt8 :: body <:+ input
  | .indexOutOfRange => False

/-- The scan has read `u`: `prev` is its last byte, the panic before the first one, and an open
reference is a suffix `%{body}` of `u` with valid bytes in its body. -/
structure Consumed (u : List UInt8) (prev : Except MacroError UInt8) (s : Scanner V) : Prop where
  /-- `prev` is the read of the byte before the rest. -/
  prev_eq : prev = (u.getLast?.map .ok).getD (.error .indexOutOfRange)
  /-- The open reference ends the bytes read. -/
  open_suffix : s.isMacro = true → '%'.toUInt8 :: '{'.toUInt8 :: s.currentToken <:+ u
  /-- Its body is made of valid bytes. -/
  valid : s.isMacro = true → ∀ c ∈ s.currentToken, isValidMacroChar c = true

/-- Outside a reference the invariant is the one on `prev`. -/
theorem Consumed.of_isMacro_false {u : List UInt8} {prev : Except MacroError UInt8}
    {s : Scanner V} (hp : prev = (u.getLast?.map .ok).getD (.error .indexOutOfRange))
    (hs : s.isMacro = false) : Consumed u prev s :=
  ⟨hp, fun h => absurd (hs.symm.trans h) Bool.false_ne_true,
    fun h => absurd (hs.symm.trans h) Bool.false_ne_true⟩

/-- **`%{` keeps the invariant**: it opens a reference with an empty body. -/
theorem Consumed.openReference {u : List UInt8} {prev : Except MacroError UInt8} {s : Scanner V}
    (_ : Consumed u prev s) :
    Consumed (u ++ ['%'.toUInt8, '{'.toUInt8]) (.ok '{'.toUInt8) (s.openReference T) :=
  ⟨by simp, fun _ => List.suffix_append _ _, fun _ => by simp [Scanner.openReference]⟩

/-- **A successful `next` keeps the invariant**: a body byte is valid and extends the open
reference. -/
theorem Consumed.next {u : List UInt8} {prev : Except MacroError UInt8} {c : UInt8}
    {last : Bool} {s s' : Scanner V} (hc : Consumed u prev s)
    (h : s.next T prev c last = .ok s') : Consumed (u ++ [c]) (.ok c) s' := by
  rcases Scanner.next_eq_ok h with ⟨hm, rfl⟩ | ⟨hm, hv, -, rfl⟩ | ⟨-, -, -, -, -, -, -, rfl⟩
  · exact .of_isMacro_false (by simp) hm
  · obtain ⟨t, ht⟩ := hc.open_suffix hm
    exact ⟨by simp, fun _ => ⟨t, by rw [← ht]; simp⟩,
      fun _ => List.forall_mem_append.mpr ⟨hc.valid hm, List.forall_mem_singleton.mpr hv⟩⟩
  · exact .of_isMacro_false (by simp) rfl

/-- **A failing `next` has its cause in the input**, whatever follows the byte. -/
theorem Consumed.next_error {u : List UInt8} {prev : Except MacroError UInt8} {c : UInt8}
    {s : Scanner V} {e : MacroError} (hc : Consumed u prev s) (rest : List UInt8)
    (h : s.next T prev c rest.isEmpty = .error e) : e.Justified T (u ++ c :: rest) := by
  obtain ⟨hm, ⟨rfl, hp | ⟨hp, rfl⟩ | ⟨hv, rfl⟩⟩ | ⟨hc', hv, rfl⟩ | ⟨hc', hv, hl, rfl⟩⟩ :=
    Scanner.next_eq_error h
  all_goals obtain ⟨t, ht⟩ := hc.open_suffix hm
  · -- the read of the byte before: inside a reference there is one
    rw [hc.prev_eq, ← ht] at hp
    simp [List.getLast?_cons] at hp
  · -- a `.` before the brace
    rw [hc.prev_eq] at hp
    obtain ⟨u', rfl⟩ : ∃ u', u = u' ++ ['.'.toUInt8] := by
      cases hl : u.getLast? with
      | none => rw [hl] at hp; cases hp
      | some x =>
        rw [hl] at hp
        cases hp
        exact List.getLast?_eq_some_iff.mp hl
    exact ⟨u', rest, by simp⟩
  · exact ⟨hv, s.currentToken, rfl, hc.valid hm, t, rest, by rw [← ht]; simp [reference]⟩
  · exact ⟨s.currentToken, c, rfl, hc.valid hm, hv, hc', ⟨t, rest, by rw [← ht]; simp⟩⟩
  · obtain rfl : rest = [] := List.isEmpty_iff.mp hl
    exact ⟨s.currentToken ++ [c], by simp,
      List.forall_mem_append.mpr ⟨hc.valid hm, List.forall_mem_singleton.mpr hv⟩,
      ⟨t, by rw [← ht]; simp⟩⟩

/-- **The run lemma**: an error of the scan from a state that has read `u` is justified by
`u` and the rest. -/
theorem scan_error_justified {e : MacroError} {u r : List UInt8}
    {prev : Except MacroError UInt8} {s : Scanner V} (hc : Consumed u prev s)
    (h : scan T prev r s = .error e) : e.Justified T (u ++ r) := by
  induction prev, r, s using scan_induction generalizing u with
  | nil prev s =>
    rw [scan_nil] at h
    cases h
  | opens prev rest s ih =>
    rw [scan_open] at h
    simpa using ih _ hc.openReference h
  | next prev c rest s ho ih =>
    rw [scan_cons ho] at h
    cases hn : s.next T prev c rest.isEmpty with
    | error e' =>
      rw [hn] at h
      cases h
      exact hc.next_error rest hn
    | ok s₁ =>
      rw [hn, ok_bind] at h
      simpa using ih s₁ (hc.next hn) h

/-- **Every error of `NewMacro` is justified by the template**: each names or quotes what the
template holds, and none is the panic. -/
theorem newMacro_error_justified {s : List UInt8} {e : MacroError}
    (h : newMacro T s = .error e) : e.Justified T s := by
  unfold newMacro at h
  split_ifs at h with h0
  · cases h
    exact List.eq_nil_of_length_eq_zero h0
  · have hne : s ≠ [] := fun hs => h0 (by simp [hs])
    rw [compile_eq_scan T hne] at h
    simpa using scan_error_justified (u := []) (.of_isMacro_false rfl rfl) (map_eq_error h)

/-- `%{tx.a b}` is rejected at the space, with the reference read up to it. -/
theorem newMacro_error_justified_space :
    newMacro txTable (bytes "%\x7btx.a b\x7d") = .error (.malformedVariable (bytes "%\x7btx.a")) ∧
      (MacroError.malformedVariable (bytes "%\x7btx.a")).Justified txTable
        (bytes "%\x7btx.a b\x7d") :=
  ⟨rfl, newMacro_error_justified rfl⟩

end SecLang
