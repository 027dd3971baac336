import SecLang.Macro.Template

/-!
# `compile` reads back exactly the templates of the language

`compile` accepts more than the language (`newMacro_accepts_outside_language`), but what it
accepts outside the language it does not read back: a `%{` inside an open reference, or left
open at the end, is dropped from the tokens.  This module proves the converse of
`compile_render` in that form: a non-empty template is in the language exactly when `NewMacro`
accepts it and the source of its tokens is the template.

The proof follows the scan with the text of its state, `Scanner.text`: the source of the
tokens, then the token being read, after its `%{` when a reference is open.  A `next` adds
its byte to the text when the reference it may close has a scope name that does not parse to
`Unknown` (`text_next`), and at most its byte in any case; a `%{` in a literal adds `%{`.  Only
a `%{` inside an open reference, or a reference still open at the end, loses bytes, so a scan
never adds more than it reads (`scan_text_length_le`).  `Reads` says that the text read so far
is a prefix of a template of the language, and every step that loses nothing keeps it.  A scan
whose flushed tokens give back all it read therefore read a template of the language
(`scan_reads`).  The scope names are assumed known only for the references of the template
(`KnownScopes`): what has been read, then the rest, is the template, so the reference a brace
closes stands in it (`Reads.knownScope`).

## Main statements

* `next_eq_ok` (in `Macro.Compile`), `text_next` and `length_text_next_le`: what one byte does
  to the text;
* `scan_text_length_le`: a scan adds at most the bytes it reads to the text of its state;
* `Reads.next`, `Reads.openReference`, `Reads.inLanguage`: the step lemmas of the invariant,
  and `Reads.knownScope`: a closed reference stands in the template;
* `scan_reads`: the run lemma;
* `inLanguage_iff_newMacro`: **a non-empty template is in the language iff `NewMacro` accepts
  it and its tokens give it back**.
-/

namespace SecLang

variable {V : Type} [DecidableEq V] {T : VariableTable V}

/-! ## The text of a scanner state -/

namespace Scanner

/-- The text a scanner state stands for: the source of its tokens, then the token being read,
after the `%{` that opened it when a reference is open. -/
def text (T : VariableTable V) (s : Scanner V) : List UInt8 :=
  s.tokens.flatMap (MacroToken.source T) ++
    if s.isMacro then '%'.toUInt8 :: '{'.toUInt8 :: s.currentToken else s.currentToken

/-- The flush adds the token being read as a literal. -/
theorem source_flush (s : Scanner V) :
    (s.flush T).flatMap (MacroToken.source T) =
      s.tokens.flatMap (MacroToken.source T) ++ s.currentToken := by
  unfold flush
  split_ifs with h
  · simp
  · simp_all

theorem length_source_flush_le (s : Scanner V) :
    ((s.flush T).flatMap (MacroToken.source T)).length ≤ (s.text T).length := by
  cases hm : s.isMacro <;> simp [text, source_flush, hm]
  omega

/-- `%{` flushes the token being read as a literal: in a literal state it adds `%{` to the
text, inside an open reference it drops the `%{` that opened it. -/
theorem text_openReference (s : Scanner V) :
    (s.openReference T).text T =
      s.tokens.flatMap (MacroToken.source T) ++ s.currentToken ++
        ['%'.toUInt8, '{'.toUInt8] := by
  simp [text, openReference, source_flush]

/-- **A byte read by `next` is added to the text**, when the scope name of the body a closing
brace closes does not parse to `Unknown`: the brace turns `%{body` into the source `%{body}` of
the reference token. -/
theorem text_next {prev : Except MacroError UInt8} {c : UInt8} {last : Bool} {s s' : Scanner V}
    (hT : s.isMacro = true → c = '}'.toUInt8 → KnownScope T s.currentToken)
    (h : s.next T prev c last = .ok s') : s'.text T = s.text T ++ [c] := by
  rcases next_eq_ok h with ⟨hm, rfl⟩ | ⟨hm, -, -, rfl⟩ | ⟨hm, rfl, p, v, -, -, hv, rfl⟩
  · simp [text, hm]
  · simp [text, hm]
  · simp [text, hm, MacroToken.source, hT hm rfl v hv, reference]

/-- A byte read by `next` adds at most one byte to the text: a reference token whose variable is
`Unknown` stands for its body alone. -/
theorem length_text_next_le {prev : Except MacroError UInt8} {c : UInt8} {last : Bool}
    {s s' : Scanner V} (h : s.next T prev c last = .ok s') :
    (s'.text T).length ≤ (s.text T).length + 1 := by
  rcases next_eq_ok h with ⟨hm, rfl⟩ | ⟨hm, -, -, rfl⟩ | ⟨hm, rfl, p, v, -, -, hv, rfl⟩
  · simp [text, hm]; omega
  · simp [text, hm]; omega
  · by_cases hu : v = T.unknown <;> simp [text, hm, MacroToken.source, hu, reference] <;> omega

end Scanner

open Scanner

/-- **A scan adds at most the bytes it reads to the text of its state.** -/
theorem scan_text_length_le {prev : Except MacroError UInt8} {r : List UInt8} {s s' : Scanner V}
    (h : scan T prev r s = .ok s') : (s'.text T).length ≤ (s.text T).length + r.length := by
  induction prev, r, s using scan_induction generalizing s' with
  | nil prev s =>
    rw [scan_nil] at h
    cases h
    simp
  | opens prev rest s ih =>
    rw [scan_open] at h
    have hopen : ((s.openReference T).text T).length ≤ (s.text T).length + 2 := by
      rw [text_openReference]
      cases hm : s.isMacro <;> simp [text, hm]
      omega
    have := ih _ h
    simp only [List.length_cons]
    omega
  | next prev c rest s ho ih =>
    rw [scan_cons ho] at h
    obtain ⟨s₁, h₁, h₂⟩ := bind_eq_ok h
    have := ih _ h₂
    have := length_text_next_le h₁
    simp only [List.length_cons]
    omega

/-! ## The scan reads a prefix of a template of the language -/

/-- The scan has read `t`, a prefix of a template of the language, and stands before `r`. -/
structure Reads (T : VariableTable V) (t : Template) (prev : Except MacroError UInt8)
    (r : List UInt8) (s : Scanner V) : Prop where
  /-- What has been read is well formed. -/
  wellFormed : t.WellFormed T
  /-- The text of the state is `t`, then `%{` and the body read so far when a reference is
  open. -/
  text_eq : s.text T = t.render ++
    if s.isMacro then '%'.toUInt8 :: '{'.toUInt8 :: s.currentToken else []
  /-- The body read so far is made of valid bytes. -/
  valid : s.isMacro = true → ∀ c ∈ s.currentToken, isValidMacroChar c = true
  /-- The byte before the rest is the last of the body, or the `{` that opened it. -/
  prev_eq : s.isMacro = true → prev = .ok (s.currentToken.getLast?.getD '{'.toUInt8)
  /-- Outside a reference, a final `%` of the literal is not followed by `{`. -/
  last_ne_open : s.isMacro = false →
    t.last.getLast? = some '%'.toUInt8 → r.head? ≠ some '{'.toUInt8

theorem Reads.init (prev : Except MacroError UInt8) (r : List UInt8) :
    Reads T ⟨[], []⟩ prev r ⟨false, [], []⟩ :=
  ⟨⟨by simp, IsLiteral.nil⟩, by simp [text, Template.render], by simp, by simp, by simp⟩

/-- **`next` keeps the invariant**: a literal byte extends the last literal, a body byte the
body, and a closing brace turns the body into a reference of the template. -/
theorem Reads.next (hE : T.parse [] = none) {t : Template} {prev : Except MacroError UInt8}
    {c : UInt8} {r : List UInt8} {s s' : Scanner V} (hr : Reads T t prev (c :: r) s)
    (hT : s.isMacro = true → c = '}'.toUInt8 → KnownScope T s.currentToken)
    (ho : ¬ (c = '%'.toUInt8 ∧ r.head? = some '{'.toUInt8))
    (h : s.next T prev c r.isEmpty = .ok s') : ∃ t', Reads T t' (.ok c) r s' := by
  have htext := text_next hT h
  rcases next_eq_ok h with ⟨hm, rfl⟩ | ⟨hm, hc, -, rfl⟩ | ⟨hm, rfl, p, v, hp, hpd, hv, rfl⟩
  · -- a literal byte
    have hlast : t.last.getLast? = some '%'.toUInt8 → c ≠ '{'.toUInt8 := fun hl hc =>
      hr.last_ne_open hm hl (by rw [hc]; rfl)
    refine ⟨⟨t.refs, t.last ++ [c]⟩, ⟨⟨hr.wellFormed.1, hr.wellFormed.2.append_singleton hlast⟩,
      ?_, by simp [hm], by simp [hm], fun _ hl => ?_⟩⟩
    · rw [htext, hr.text_eq]
      simp [hm, Template.render]
    · have hc : c = '%'.toUInt8 := by simpa using hl
      exact fun hd => ho ⟨hc, hd⟩
  · -- a byte of the body
    refine ⟨t, ⟨hr.wellFormed, ?_,
      fun _ => List.forall_mem_append.mpr ⟨hr.valid hm, List.forall_mem_singleton.mpr hc⟩,
      fun _ => by simp, by simp [hm]⟩⟩
    rw [htext, hr.text_eq]
    simp [hm]
  · -- the closing brace
    have hne : s.currentToken ≠ [] := by
      intro h0
      rw [h0] at hv
      exact absurd (hE ▸ hv : none = some v) (by simp)
    have hbody : IsBody T s.currentToken := by
      refine ⟨hne, hr.valid hm, fun hl => ?_, by simp [hv]⟩
      have := hr.prev_eq hm
      rw [hl, hp] at this
      exact hpd (by simpa using this)
    refine ⟨⟨t.refs ++ [(t.last, s.currentToken)], []⟩,
      ⟨⟨fun x hx => ?_, IsLiteral.nil⟩, ?_, by simp, by simp, by simp⟩⟩
    · rcases List.mem_append.mp hx with hx | hx
      · exact hr.wellFormed.1 x hx
      · rw [List.mem_singleton.mp hx]
        exact ⟨hr.wellFormed.2, hbody⟩
    · rw [htext, hr.text_eq]
      simp [hm, Template.render, renderRefs, reference]

/-- **The reference a brace closes stands in the template**: the text read so far ends in
`%{body`, and the rest starts with the brace. -/
theorem Reads.knownScope {t : Template} {prev : Except MacroError UInt8} {c : UInt8}
    {r : List UInt8} {s : Scanner V} (hr : Reads T t prev (c :: r) s)
    (hK : KnownScopes T (s.text T ++ c :: r)) :
    s.isMacro = true → c = '}'.toUInt8 → KnownScope T s.currentToken := by
  rintro hm rfl
  refine hK _ ⟨t.render, r, ?_⟩ (hr.valid hm)
  rw [hr.text_eq]
  simp [hm, reference]

/-- **A `%{` in a literal keeps the invariant**: the literal read so far is flushed and a
reference opens. -/
theorem Reads.openReference {t : Template} {prev : Except MacroError UInt8} {r : List UInt8}
    {s : Scanner V} (hr : Reads T t prev ('%'.toUInt8 :: '{'.toUInt8 :: r) s)
    (hm : s.isMacro = false) : Reads T t (.ok '{'.toUInt8) r (s.openReference T) := by
  refine ⟨hr.wellFormed, ?_, by simp [Scanner.openReference], by simp [Scanner.openReference],
    by simp [Scanner.openReference]⟩
  have htext : s.tokens.flatMap (MacroToken.source T) ++ s.currentToken = t.render := by
    simpa [text, hm] using hr.text_eq
  rw [text_openReference, htext]
  simp [Scanner.openReference]

/-- **At the end of the input**, a scan whose flushed tokens give back its text is outside any
reference, and it has read a template of the language. -/
theorem Reads.inLanguage {t : Template} {prev : Except MacroError UInt8} {s : Scanner V}
    (hr : Reads T t prev [] s) (h : (s.flush T).flatMap (MacroToken.source T) = s.text T) :
    InLanguage T (s.text T) := by
  cases hm : s.isMacro
  · exact ⟨t, hr.wellFormed, by simpa [hm] using hr.text_eq.symm⟩
  · -- a reference still open at the end: the flush drops its `%{`
    have := congrArg List.length h
    simp [source_flush, text, hm] at this
    omega

/-- **The run lemma**: from a state that has read a prefix of a template of the language, a scan
whose flushed tokens give back its text and the rest has read a template of the language. -/
theorem scan_reads (hE : T.parse [] = none) {t : Template} {prev : Except MacroError UInt8}
    {r : List UInt8} {s s' : Scanner V} (hr : Reads T t prev r s)
    (hK : KnownScopes T (s.text T ++ r)) (h : scan T prev r s = .ok s')
    (hs : (s'.flush T).flatMap (MacroToken.source T) = s.text T ++ r) :
    InLanguage T (s.text T ++ r) := by
  induction prev, r, s using scan_induction generalizing t s' with
  | nil prev s =>
    rw [scan_nil] at h
    cases h
    rw [List.append_nil] at hs ⊢
    exact hr.inLanguage hs
  | opens prev rest s ih =>
    rw [scan_open] at h
    cases hm : s.isMacro
    · -- a reference opens
      have hopen : (s.openReference T).text T = s.text T ++ ['%'.toUInt8, '{'.toUInt8] := by
        rw [text_openReference]
        simp [text, hm]
      have := ih _ (hr.openReference hm) (by rw [hopen]; simpa using hK) h
        (by rw [hopen]; simpa using hs)
      simpa [hopen] using this
    · -- a `%{` inside an open reference drops the `%{` that opened it
      have hopen : ((s.openReference T).text T).length = (s.text T).length := by
        rw [text_openReference]
        simp [text, hm]
      have hle := scan_text_length_le h
      have hflush := length_source_flush_le (T := T) s'
      have hlen := congrArg List.length hs
      simp only [List.length_append, List.length_cons] at hlen
      omega
  | next prev c rest s ho ih =>
    rw [scan_cons ho] at h
    obtain ⟨s₁, h₁, h₂⟩ := bind_eq_ok h
    have hT := hr.knownScope hK
    obtain ⟨t', hr'⟩ := hr.next hE hT ho h₁
    have htext := text_next hT h₁
    have := ih _ hr' (by rw [htext]; simpa using hK) h₂ (by rw [htext]; simpa using hs)
    rwa [htext, List.append_assoc] at this

/-- **A non-empty template is in the language exactly when `NewMacro` accepts it and its tokens
give it back**, for a table that does not parse the empty name and parses no scope name the
template uses to `Unknown`.  With `compile_render`, the tokens are then the canonical ones. -/
theorem inLanguage_iff_newMacro (hE : T.parse [] = none) (s : List UInt8) (hT : KnownScopes T s) :
    s ≠ [] ∧ InLanguage T s ↔
      ∃ m, newMacro T s = .ok m ∧ m.tokens.flatMap (MacroToken.source T) = s := by
  constructor
  · rintro ⟨hne, t, ht, rfl⟩
    refine ⟨⟨t.render, t.tokens T⟩, ?_, source_tokens (hT.refs ht) ht⟩
    rw [newMacro, if_neg (by simpa using hne), compile_render ht hne]
  · rintro ⟨m, h, hm⟩
    have hne : s ≠ [] := by
      rintro rfl
      cases h
    rw [newMacro, if_neg (by simpa using hne), compile_eq_scan T hne] at h
    obtain ⟨s', hs', rfl⟩ := map_eq_ok h
    refine ⟨hne, ?_⟩
    simpa [text] using scan_reads hE (Reads.init _ _) (by simpa [text] using hT) hs'
      (by simpa [text] using hm)

/-- The table of `TX` does not parse the empty name and knows the scope of `%{tx.foo}`, a
template of the language that `NewMacro` reads back. -/
theorem txTable_inLanguage_iff_newMacro :
    txTable.parse [] = none ∧ KnownScopes txTable (bytes "%\x7btx.foo\x7d") ∧
    (bytes "%\x7btx.foo\x7d" ≠ [] ∧ InLanguage txTable (bytes "%\x7btx.foo\x7d") ↔
      ∃ m, newMacro txTable (bytes "%\x7btx.foo\x7d") = .ok m ∧
        m.tokens.flatMap (MacroToken.source txTable) = bytes "%\x7btx.foo\x7d") :=
  ⟨rfl, .of_ne_unknown txTable_parse_ne_unknown _,
    inLanguage_iff_newMacro rfl _ (.of_ne_unknown txTable_parse_ne_unknown _)⟩

end SecLang
