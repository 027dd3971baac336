import SecLang.Macro.Accept
import SecLang.Macro.Expand

/-!
# What a template outside the language means

`compile` accepts templates outside the language (`newMacro_accepts_outside_language`): it
accepts the drafts of `Macro.Accept`, where a `%{` inside an open reference flushes the body read
so far as a literal token, and a `%{` that ends the template is dropped.  This module shows that
nothing worse happens.  The tokens of every accepted template read as a template of the language,
`Template.ofTokens`: a literal token extends the last literal, a reference token closes it.  For
a draft that template is its normal form, each slip's body joined to the literal before it
(`Draft.normal`).  Compiling the text of the normal form succeeds, gives the same tokens with
adjacent literal tokens merged, reads back, and expands as the first macro does for every
transaction.  A template outside the language therefore means its normal form.

`IsExpandable` is the one reading that tells the two apart, since it counts tokens: `a%{b%{`
compiles to two literal tokens and is expandable, its normal form `ab` to one and is not.

One kind of accepted template has no normal form to compile: a run of `%{`, whose every
reference is dropped, has no tokens, and the empty text they stand for is rejected.  It is the
only kind (`newMacro_tokens_eq_nil`).

## Main statements

* `flatMap_ofTokens`: a reading of tokens that concatenates over literals reads canonical tokens
  as the canonical tokens of their template;
* `ofTokens_draft`: the tokens of a draft stand for its normal form;
* `newMacro_tokens_eq_nil`: an accepted template has no tokens exactly when it is a run of `%{`;
* `newMacro_normalForm`: **the tokens of every other accepted template stand for a template of
  the language, which compiles to them with adjacent literals merged and expands as they do**.
-/

namespace SecLang

variable {V : Type} [DecidableEq V] {T : VariableTable V}

/-! ## The template a token list stands for -/

/-- Read one more token into a template: a literal token extends the last literal, any other
token closes it with a reference to the token's text. -/
def Template.push (T : VariableTable V) (t : Template) (tok : MacroToken V) : Template :=
  if tok.var = T.unknown then ⟨t.refs, t.last ++ tok.text⟩
  else ⟨t.refs ++ [(t.last, tok.text)], []⟩

/-- The template a token list stands for, read from the left. -/
def Template.ofTokens (T : VariableTable V) (toks : List (MacroToken V)) : Template :=
  toks.foldl (Template.push T) ⟨[], []⟩

@[simp] theorem ofTokens_append_singleton (toks : List (MacroToken V)) (tok : MacroToken V) :
    Template.ofTokens T (toks ++ [tok]) = (Template.ofTokens T toks).push T tok :=
  List.foldl_append _ _ _ _

@[simp] theorem push_literal (t : Template) (l : List UInt8) :
    t.push T (T.literal l) = ⟨t.refs, t.last ++ l⟩ := by
  simp [Template.push, VariableTable.literal]

/-- A token as `compile` makes it: the literal token of a non-empty span, or the token of a
body, with the variable its scope name parses to and the lowered key, a variable other than
`Unknown`. -/
def MacroToken.Canonical (T : VariableTable V) (tok : MacroToken V) : Prop :=
  (tok = T.literal tok.text ∧ tok.text ≠ []) ∨
    (tok ∈ referenceTokens T tok.text ∧ tok.var ≠ T.unknown)

omit [DecidableEq V] in
/-- A reference token is the one token of its body. -/
theorem referenceTokens_of_mem {tok : MacroToken V} {b : List UInt8}
    (h : tok ∈ referenceTokens T b) : referenceTokens T b = [tok] := by
  simp only [referenceTokens, List.mem_map, Option.mem_toList, Option.mem_def] at h
  obtain ⟨v, hv, rfl⟩ := h
  simp [referenceTokens, hv]

/-- A canonical token stands for some text. -/
theorem MacroToken.Canonical.source_ne_nil {tok : MacroToken V} (hc : tok.Canonical T) :
    tok.source T ≠ [] := by
  rcases hc with ⟨htok, hne⟩ | ⟨-, hv⟩
  · rw [htok, source_literal]
    exact hne
  · simp [MacroToken.source, hv, reference]

/-- **Reading canonical tokens through their template**: a reading of tokens that concatenates
over literals reads canonical tokens as the canonical tokens of the template they stand for, so
merging adjacent literal tokens changes no such reading. -/
theorem flatMap_ofTokens {W : Type} {f : MacroToken V → List W}
    (hf : ∀ l₁ l₂, f (T.literal (l₁ ++ l₂)) = f (T.literal l₁) ++ f (T.literal l₂))
    (toks : List (MacroToken V)) (hc : ∀ tok ∈ toks, tok.Canonical T) :
    ((Template.ofTokens T toks).tokens T).flatMap f = toks.flatMap f := by
  have hnil : f (T.literal []) = [] := by simpa using congrArg List.length (hf [] [])
  have hlit : ∀ l, (literalTokens T l).flatMap f = f (T.literal l) := by
    intro l
    by_cases hl : 0 < l.length
    · simp [literalTokens, hl]
    · simp_all [literalTokens]
  induction toks using List.reverseRecOn with
  | nil => simp [Template.ofTokens, Template.tokens, hlit, hnil]
  | append_singleton toks tok ih =>
    have ih := ih fun t ht => hc t (List.mem_append_left _ ht)
    simp only [Template.tokens, List.flatMap_append, hlit] at ih
    rcases hc tok (by simp) with ⟨htok, -⟩ | htok
    · -- a literal token extends the last literal
      rw [htok, ofTokens_append_singleton, push_literal]
      simp [Template.tokens, hlit, hf, ← ih]
    · -- a reference token closes it
      obtain ⟨htok, hv⟩ := htok
      have hone := referenceTokens_of_mem htok
      simp [Template.push, hv, Template.tokens, refsTokens, hone, hlit, hnil, ← ih]

/-! ## The normal form of a draft -/

/-- A literal stays one with valid bytes appended. -/
theorem IsLiteral.append_valid {l b : List UInt8} (hl : IsLiteral l)
    (hb : ∀ c ∈ b, isValidMacroChar c = true) : IsLiteral (l ++ b) := by
  induction b generalizing l with
  | nil => simpa using hl
  | cons c b ih =>
    have hc := hb c (List.mem_cons_self c b)
    have hlc : IsLiteral (l ++ [c]) := hl.append_singleton fun _ h => by simp [h] at hc
    simpa using ih hlc fun x hx => hb x (List.mem_cons_of_mem c hx)

/-- The template a draft means: the body of each slip joins the literal before it. -/
def Draft.normal (k : Draft) : Template :=
  ⟨k.refs.map fun r => (r.1 ++ r.2.1.flatten, r.2.2), k.last ++ (k.tail.getD []).flatten⟩

omit [DecidableEq V] in
theorem Draft.normal_wellFormed {k : Draft} (hk : k.WellFormed T) : k.normal.WellFormed T := by
  have hflat : ∀ ps : List (List UInt8),
      (∀ b ∈ ps, ∀ c ∈ b, isValidMacroChar c = true) →
        ∀ c ∈ ps.flatten, isValidMacroChar c = true := fun ps h c hc => by
    obtain ⟨b, hb, hcb⟩ := List.mem_flatten.mp hc
    exact h b hb c hcb
  refine ⟨fun r hr => ?_, hk.2.1.append_valid (hflat _ hk.2.2)⟩
  obtain ⟨r', hr', rfl⟩ := List.mem_map.mp hr
  obtain ⟨hl, hps, hb⟩ := hk.1 r' hr'
  exact ⟨hl.append_valid (hflat _ hps), hb⟩

omit [DecidableEq V] in
/-- The references of a well-formed draft stand in its text. -/
theorem KnownScopes.draftRefs {k : Draft} (h : KnownScopes T k.render) (hk : k.WellFormed T) :
    ∀ r ∈ k.refs, KnownScope T r.2.2 := fun r hr => by
  have hin : r.1 ++ slipsText r.2.1 ++ reference r.2.2 <:+: renderDraftRefs k.refs :=
    List.infix_of_mem_flatten
      (List.mem_map_of_mem (fun r => r.1 ++ slipsText r.2.1 ++ reference r.2.2) hr)
  exact h r.2.2 (((List.suffix_append _ _).isInfix.trans hin).trans
    ((List.prefix_append _ _).trans (List.prefix_append _ _)).isInfix) (hk.1 r hr).2.2.2.1

omit [DecidableEq V] in
/-- The tokens of a draft are made as `compile` makes them, when the scope names of its
references do not parse to `Unknown`. -/
theorem Draft.canonical_tokens {k : Draft} (hT : ∀ r ∈ k.refs, KnownScope T r.2.2) :
    ∀ tok ∈ k.tokens T, tok.Canonical T := by
  have hlit : ∀ l, ∀ tok ∈ literalTokens T l, tok.Canonical T := fun l tok h => by
    unfold literalTokens at h
    split_ifs at h with hl
    · obtain rfl := List.mem_singleton.mp h
      exact .inl ⟨rfl, List.ne_nil_of_length_pos hl⟩
    · cases h
  have href : ∀ b, KnownScope T b → ∀ tok ∈ referenceTokens T b, tok.Canonical T :=
    fun b hb tok h => by
      have h' := h
      simp only [referenceTokens, List.mem_map, Option.mem_toList, Option.mem_def] at h'
      obtain ⟨v, hv, rfl⟩ := h'
      exact .inr ⟨h, hb v hv⟩
  intro tok h
  simp only [Draft.tokens, draftRefsTokens, List.mem_append, List.mem_flatMap] at h
  rcases h with ((⟨r, hr, (h | ⟨b, -, h⟩) | h⟩ | h) | ⟨b, -, h⟩)
  exacts [hlit _ tok h, hlit _ tok h, href _ (hT r hr) tok h, hlit _ tok h, hlit _ tok h]

/-- Reading the literal tokens of a span extends the last literal by the span. -/
theorem foldl_push_literalTokens (t : Template) (l : List UInt8) :
    (literalTokens T l).foldl (Template.push T) t = ⟨t.refs, t.last ++ l⟩ := by
  by_cases hl : 0 < l.length
  · simp [literalTokens, hl]
  · simp_all [literalTokens]

theorem foldl_push_slips (t : Template) (ps : List (List UInt8)) :
    (ps.flatMap (literalTokens T)).foldl (Template.push T) t =
      ⟨t.refs, t.last ++ ps.flatten⟩ := by
  induction ps generalizing t with
  | nil => simp
  | cons b ps ih => simp [List.foldl_append, foldl_push_literalTokens, ih]

theorem foldl_push_draftRefs :
    ∀ (refs : List (List UInt8 × List (List UInt8) × List UInt8))
      (R : List (List UInt8 × List UInt8)),
      (∀ r ∈ refs, (T.parse (cut r.2.2).1).isSome ∧ KnownScope T r.2.2) →
      (draftRefsTokens T refs).foldl (Template.push T) ⟨R, []⟩ =
        ⟨R ++ refs.map fun r => (r.1 ++ r.2.1.flatten, r.2.2), []⟩
  | [], R, _ => by simp [draftRefsTokens]
  | r :: refs, R, h => by
    obtain ⟨hs, hK⟩ := h r (List.mem_cons_self _ _)
    obtain ⟨v, hv⟩ := Option.isSome_iff_exists.mp hs
    have hpush : (referenceTokens T r.2.2).foldl (Template.push T)
        ⟨R, r.1 ++ r.2.1.flatten⟩ = ⟨R ++ [(r.1 ++ r.2.1.flatten, r.2.2)], []⟩ := by
      simp [referenceTokens, hv, Template.push, hK v hv]
    rw [draftRefsTokens_cons, List.foldl_append, List.foldl_append, List.foldl_append,
      foldl_push_literalTokens, foldl_push_slips, List.nil_append, hpush,
      foldl_push_draftRefs refs _ fun r' h' => h r' (List.mem_cons_of_mem _ h')]
    simp

/-- **The tokens of a draft stand for its normal form.** -/
theorem ofTokens_draft {k : Draft} (hk : k.WellFormed T)
    (hT : ∀ r ∈ k.refs, KnownScope T r.2.2) : Template.ofTokens T (k.tokens T) = k.normal := by
  rw [Template.ofTokens, Draft.tokens, List.foldl_append, List.foldl_append,
    foldl_push_draftRefs k.refs [] fun r hr => ⟨(hk.1 r hr).2.2.2.2.2, hT r hr⟩,
    foldl_push_literalTokens, foldl_push_slips]
  simp [Draft.normal]

omit [DecidableEq V] in
/-- What `NewMacro` gives a well-formed draft it accepts. -/
theorem newMacro_draft_eq {k : Draft} {m : Macro V} (hk : k.WellFormed T)
    (h : newMacro T k.render = .ok m) : m = ⟨k.render, k.tokens T⟩ := by
  have hne : k.render ≠ [] := by
    intro h0
    rw [h0] at h
    cases h
  rw [newMacro, if_neg (by simpa using hne), compile_draft hk hne] at h
  cases h
  rfl

/-- The tokens of every template `NewMacro` accepts are canonical and stand for a template of
the language whose scope names are those of the template. -/
theorem newMacro_tokens_normal (hE : T.parse [] = none) {s : List UInt8} {m : Macro V}
    (h : newMacro T s = .ok m) (hT : KnownScopes T s) :
    (Template.ofTokens T m.tokens).WellFormed T ∧
      (∀ r ∈ (Template.ofTokens T m.tokens).refs, KnownScope T r.2) ∧
      ∀ tok ∈ m.tokens, tok.Canonical T := by
  obtain ⟨k, hk, rfl⟩ := draft_of_newMacro hE h
  have hK := hT.draftRefs hk
  obtain rfl := newMacro_draft_eq hk h
  rw [ofTokens_draft hk hK]
  refine ⟨Draft.normal_wellFormed hk, fun r hr => ?_, Draft.canonical_tokens hK⟩
  obtain ⟨r', hr', rfl⟩ := List.mem_map.mp hr
  exact hK r' hr'

/-! ## Templates with no tokens -/

omit [DecidableEq V] in
theorem literalTokens_eq_nil {l : List UInt8} : literalTokens T l = [] ↔ l = [] := by
  cases l <;> simp [literalTokens]

/-- Slips with empty bodies, then the last `%{`, are a run of `%{`. -/
theorem tailText_replicate (n : Nat) : tailText (some (List.replicate n [])) =
    (List.replicate (n + 1) ['%'.toUInt8, '{'.toUInt8]).flatten := by
  induction n with
  | zero => rfl
  | succ n ih =>
    simp only [tailText] at ih ⊢
    rw [List.replicate_succ, slipsText_cons, List.nil_append, List.cons_append, List.cons_append,
      ih, List.replicate_succ _ (n + 1), List.flatten_cons]
    rfl

omit [DecidableEq V] in
/-- A well-formed draft has no tokens only when it has no reference, its literal is empty, and
so are the bodies of its final slips. -/
theorem Draft.tokens_eq_nil {k : Draft} (hk : k.WellFormed T) (h0 : k.tokens T = []) :
    k.refs = [] ∧ k.last = [] ∧ ∀ b ∈ k.tail.getD [], b = [] := by
  simp only [Draft.tokens, List.append_eq_nil, literalTokens_eq_nil,
    List.flatMap_eq_nil_iff] at h0
  obtain ⟨⟨hrefs, hlast⟩, htail⟩ := h0
  refine ⟨?_, hlast, htail⟩
  -- every reference has a token
  cases hr : k.refs with
  | nil => rfl
  | cons r refs =>
    obtain ⟨v, hv⟩ := Option.isSome_iff_exists.mp (hk.1 r (by simp [hr])).2.2.2.2.2
    rw [hr, draftRefsTokens_cons] at hrefs
    simp [referenceTokens, hv] at hrefs

omit [DecidableEq V] in
/-- **A template `NewMacro` accepts has no tokens exactly when it is a run of `%{`**: every `%{`
opens a reference that the next one, or the end, drops. -/
theorem newMacro_tokens_eq_nil (hE : T.parse [] = none) {s : List UInt8} {m : Macro V}
    (h : newMacro T s = .ok m) :
    m.tokens = [] ↔ ∃ n, s = (List.replicate (n + 1) ['%'.toUInt8, '{'.toUInt8]).flatten := by
  constructor
  · obtain ⟨k, hk, rfl⟩ := draft_of_newMacro hE h
    obtain rfl := newMacro_draft_eq hk h
    intro h0
    obtain ⟨hrefs, hlast, htail⟩ := Draft.tokens_eq_nil hk h0
    cases ht : k.tail with
    | none =>
      rw [Draft.render, hrefs, hlast, ht] at h
      cases h
    | some ps =>
      rw [ht, Option.getD_some] at htail
      obtain ⟨n, rfl⟩ : ∃ n, ps = List.replicate n [] :=
        ⟨ps.length, List.eq_replicate_iff.mpr ⟨rfl, htail⟩⟩
      exact ⟨n, by rw [Draft.render, hrefs, hlast, ht, ← tailText_replicate]; rfl⟩
  · rintro ⟨n, rfl⟩
    have hk : Draft.WellFormed T ⟨[], [], some (List.replicate n [])⟩ :=
      ⟨by simp, IsLiteral.nil, by simp⟩
    have hr : Draft.render ⟨[], [], some (List.replicate n [])⟩ =
        (List.replicate (n + 1) ['%'.toUInt8, '{'.toUInt8]).flatten := by
      rw [Draft.render, ← tailText_replicate]
      rfl
    rw [← hr] at h
    rw [newMacro_draft_eq hk h]
    simp [Draft.tokens, draftRefsTokens, literalTokens]

/-! ## The normal form -/

/-- **Every accepted template means its normal form.**  For a table that does not parse the empty
name, a template `NewMacro` accepts either is a run of `%{` and has no tokens, or its tokens
stand for a template of the language: when the template's scope names do not parse to
`Unknown`, `NewMacro` accepts the text they stand for, gives the canonical tokens of that
template (the first tokens with adjacent literals merged), which read back the same text, and
the two macros expand to the same text with the same warnings for every transaction. -/
theorem newMacro_normalForm (hE : T.parse [] = none) {s : List UInt8} {m : Macro V}
    (h : newMacro T s = .ok m) (hT : KnownScopes T s) :
    (m.tokens = [] ↔ ∃ n, s = (List.replicate (n + 1) ['%'.toUInt8, '{'.toUInt8]).flatten) ∧
    (m.tokens ≠ [] →
      ∃ m', newMacro T (m.tokens.flatMap (MacroToken.source T)) = .ok m' ∧
        m'.tokens = (Template.ofTokens T m.tokens).tokens T ∧
        m'.tokens.flatMap (MacroToken.source T) = m.tokens.flatMap (MacroToken.source T) ∧
        ∀ tx, m'.expand T tx = m.expand T tx) := by
  refine ⟨newMacro_tokens_eq_nil hE h, fun hne => ?_⟩
  obtain ⟨hwf, hK, hc⟩ := newMacro_tokens_normal hE h hT
  have hsrc : m.tokens.flatMap (MacroToken.source T) = (Template.ofTokens T m.tokens).render := by
    rw [← source_tokens hK hwf, flatMap_ofTokens (by simp) _ hc]
  have hrender : (Template.ofTokens T m.tokens).render ≠ [] := by
    obtain ⟨tok, toks, htoks⟩ := List.exists_cons_of_ne_nil hne
    rw [← hsrc, htoks, List.flatMap_cons]
    exact fun h0 => (hc tok (by simp [htoks])).source_ne_nil (List.append_eq_nil.mp h0).1
  refine ⟨⟨(Template.ofTokens T m.tokens).render, (Template.ofTokens T m.tokens).tokens T⟩,
    ?_, rfl, ?_, fun tx => ?_⟩
  · rw [hsrc, newMacro, if_neg (by simpa using hrender), compile_render hwf hrender]
  · rw [source_tokens hK hwf, hsrc]
  · rw [expand_eq, expand_eq]
    exact Prod.ext (flatMap_ofTokens (by simp [expandToken, VariableTable.literal]) _ hc)
      (flatMap_ofTokens (by simp [expandToken, VariableTable.literal]) _ hc)

/-- `a%{b%{tx.foo}` slips at the second `%{`: its tokens `a`, `b`, `%{tx.foo}` stand for
`ab%{tx.foo}`, which compiles to `ab`, `%{tx.foo}`. -/
theorem newMacro_normalForm_slip :
    KnownScopes txTable (bytes "a%\x7bb%\x7btx.foo\x7d") ∧
    ∃ m, newMacro txTable (bytes "a%\x7bb%\x7btx.foo\x7d") = .ok m ∧ m.tokens ≠ [] ∧
      (m.tokens = [] ↔ ∃ n, bytes "a%\x7bb%\x7btx.foo\x7d" =
        (List.replicate (n + 1) ['%'.toUInt8, '{'.toUInt8]).flatten) ∧
      (m.tokens ≠ [] →
        ∃ m', newMacro txTable (m.tokens.flatMap (MacroToken.source txTable)) = .ok m' ∧
          m'.tokens = (Template.ofTokens txTable m.tokens).tokens txTable ∧
          m'.tokens.flatMap (MacroToken.source txTable) =
            m.tokens.flatMap (MacroToken.source txTable) ∧
          ∀ tx, m'.expand txTable tx = m.expand txTable tx) :=
  ⟨.of_ne_unknown txTable_parse_ne_unknown _, _, rfl, by decide,
    newMacro_normalForm (s := bytes "a%\x7bb%\x7btx.foo\x7d") rfl rfl
      (.of_ne_unknown txTable_parse_ne_unknown _)⟩

/-- `IsExpandable` counts tokens, so it tells `a%{b%{` (two literal tokens) from its normal form
`ab` (one). -/
example :
    Macro.isExpandable <$> newMacro txTable (bytes "a%\x7bb%\x7b") = .ok true ∧
      Macro.isExpandable <$> newMacro txTable (bytes "ab") = .ok false :=
  ⟨rfl, rfl⟩

end SecLang
