import SecLang.Macro.Compile

/-!
# The loop of `compile` as a scan over the unread bytes

The index of `compile` only ever reads `input[i]`, `input[i+1]` and `input[i-1]`, so the loop can
be read over the suffix `input[i:]` together with the byte before it.  `scan` is that reading:
structural recursion on the suffix, the lookahead the head of the rest, `%{` consuming two bytes.
It calls the same `Scanner.next` as the loop, so the two agree branch for branch, and
`loop_eq_scan` says so for every state with fuel for the rest of the input.

Everything about the language `compile` accepts is proved on `scan`, where a template is taken
apart by `++` rather than by indices.

## Main statements

* `scan_induction`: the recursion of `scan` as an induction principle, which the run lemmas of
  `Macro.Roundtrip` and `Macro.Errors` use;
* `loop_eq_scan`: the loop is the scan of `input[i:]`;
* `compile_eq_scan`: `compile` is the scan of the whole template, then the flush.
-/

namespace SecLang

variable {V : Type}

/-- The loop of `compile` over the unread bytes: `prev` is the read of `input[i-1]`, and the
lookahead is the head of the rest. -/
def scan (T : VariableTable V) : Except MacroError UInt8 → List UInt8 → Scanner V →
    Except MacroError (Scanner V)
  | _, [], s => pure s
  | prev, c :: rest, s =>
    match rest with
    | d :: rest' =>
      if c = '%'.toUInt8 ∧ d = '{'.toUInt8 then scan T (.ok d) rest' (s.openReference T)
      else s.next T prev c false >>= scan T (.ok c) (d :: rest')
    | [] => s.next T prev c true

variable {T : VariableTable V} {input : List UInt8}

@[simp] theorem scan_nil (prev : Except MacroError UInt8) (s : Scanner V) :
    scan T prev [] s = pure s := by
  simp [scan]

theorem scan_open (prev : Except MacroError UInt8) (rest : List UInt8) (s : Scanner V) :
    scan T prev ('%'.toUInt8 :: '{'.toUInt8 :: rest) s =
      scan T (.ok '{'.toUInt8) rest (s.openReference T) := by
  simp [scan]

theorem scan_next {prev : Except MacroError UInt8} {c d : UInt8} {rest : List UInt8}
    {s : Scanner V} (h : ¬ (c = '%'.toUInt8 ∧ d = '{'.toUInt8)) :
    scan T prev (c :: d :: rest) s = s.next T prev c false >>= scan T (.ok c) (d :: rest) := by
  simp only [scan, if_neg h]

theorem scan_last (prev : Except MacroError UInt8) (c : UInt8) (s : Scanner V) :
    scan T prev [c] s = s.next T prev c true := by
  simp [scan]

/-- A byte that does not open a reference is one `next`, whatever follows it. -/
theorem scan_cons {prev : Except MacroError UInt8} {c : UInt8} {rest : List UInt8}
    {s : Scanner V} (h : ¬ (c = '%'.toUInt8 ∧ rest.head? = some '{'.toUInt8)) :
    scan T prev (c :: rest) s = s.next T prev c rest.isEmpty >>= scan T (.ok c) rest := by
  cases rest with
  | nil => rw [scan_last, List.isEmpty_nil]; cases s.next T prev c true <;> rfl
  | cons d rest => exact scan_next (by simpa using h)

/-- **The recursion of `scan`**, as an induction principle: a property of the scan of every
suffix from every state holds when it holds at the end of the input, after `%{`, and after any
other byte, each from the property of the rest from every state. -/
theorem scan_induction {motive : Except MacroError UInt8 → List UInt8 → Scanner V → Prop}
    (nil : ∀ prev s, motive prev [] s)
    (opens : ∀ prev rest s, (∀ s', motive (.ok '{'.toUInt8) rest s') →
      motive prev ('%'.toUInt8 :: '{'.toUInt8 :: rest) s)
    (next : ∀ prev c rest s, ¬ (c = '%'.toUInt8 ∧ rest.head? = some '{'.toUInt8) →
      (∀ s', motive (.ok c) rest s') → motive prev (c :: rest) s) :
    ∀ prev r s, motive prev r s
  | prev, [], s => nil prev s
  | prev, [c], s => next prev c [] s (by simp) fun s' => nil _ s'
  | prev, c :: d :: rest, s => by
    by_cases ho : c = '%'.toUInt8 ∧ d = '{'.toUInt8
    · obtain ⟨rfl, rfl⟩ := ho
      exact opens prev rest s fun s' => scan_induction nil opens next _ rest s'
    · exact next prev c (d :: rest) s (by simpa using ho)
        fun s' => scan_induction nil opens next _ (d :: rest) s'

/-- **The loop is the scan of the unread bytes**, for every state with fuel for the rest of the
input; it leaves at `i = len(input)`. -/
theorem loop_eq_scan : ∀ (fuel : Nat) (st : CompileState V), st.i ≤ input.length →
    input.length ≤ st.i + fuel →
    loop T input fuel st = (fun s => ⟨s, input.length⟩) <$>
      scan T (byteAt input (st.i - 1 : Int)) (input.drop st.i) st.toScanner
  | 0, ⟨s, i⟩, h1, h2 => by
    obtain rfl : i = input.length := by simp at h1 h2; omega
    simp [loop]
  | fuel + 1, ⟨s, i⟩, h1, h2 => by
    simp only at h1 h2 ⊢
    by_cases hlt : i < input.length
    · rw [List.drop_eq_getElem_cons hlt]
      simp only [loop, hlt, if_true, step, byteAt_of_lt hlt, opensReference_eq hlt, ok_bind]
      by_cases ho : input[i] = '%'.toUInt8 ∧ (input.drop (i + 1)).head? = some '{'.toUInt8
      · -- `%{`: both sides skip two bytes and open a reference
        rw [if_pos (decide_eq_true ho)]
        obtain ⟨hc, hd⟩ := ho
        have h' : i + 1 < input.length := by
          by_contra hge
          simp [List.drop_eq_nil_of_le (Nat.le_of_not_lt hge)] at hd
        rw [List.drop_eq_getElem_cons h', List.head?_cons, Option.some.injEq] at hd
        have hb : byteAt input (((i + 2 : Nat) : Int) - 1) = .ok '{'.toUInt8 := by
          simpa [hd] using byteAt_sub_one_of_pos (i := i + 2) (by omega) h'
        rw [List.drop_eq_getElem_cons h', hc, hd, scan_open, pure_bind,
          loop_eq_scan fuel _ (by simp; omega) (by simp; omega), hb]
      · -- any other byte: one `next`, then the rest of the input
        have hlast : (i + 1 == input.length) = (input.drop (i + 1)).isEmpty := by
          rw [Bool.eq_iff_iff, beq_iff_eq, List.isEmpty_iff, List.drop_eq_nil_iff]
          omega
        rw [if_neg (by simpa using ho), scan_cons ho, hlast]
        cases s.next T (byteAt input (i - 1 : Int)) input[i] (input.drop (i + 1)).isEmpty with
        | error e => rfl
        | ok s' =>
          have hb : byteAt input (((i + 1 : Nat) : Int) - 1) = .ok input[i] := by
            simpa using byteAt_sub_one_of_pos (Nat.succ_pos i) hlt
          show loop T input fuel ⟨s', i + 1⟩ = _
          rw [loop_eq_scan fuel _ (by simp; omega) (by simp; omega), hb, ok_bind]
    · obtain rfl : i = input.length := by omega
      simp [loop]

/-- **`compile` is the scan of the template**, then the flush. -/
theorem compile_eq_scan (T : VariableTable V) {input : List UInt8} (h : input ≠ []) :
    Macro.compile T input = (fun s => ⟨input, s.flush T⟩) <$>
      scan T (.error .indexOutOfRange) input ⟨false, [], []⟩ := by
  rw [Macro.compile, if_neg (by simpa using h),
    loop_eq_scan input.length _ (Nat.zero_le _) (by simp)]
  rw [List.drop_zero, byteAt_zero_sub_one]
  cases scan T (.error .indexOutOfRange) input ⟨false, [], []⟩ <;> rfl

end SecLang
