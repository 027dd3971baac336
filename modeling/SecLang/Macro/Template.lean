import SecLang.Macro.Scan

/-!
# The macro language, and what `compile` makes of it

A template of the macro language is literal text with references `%{body}` between.  A
`Template` is that shape: references each after a literal, then a final literal, where a
literal may be empty.  It is well formed when

* no literal contains `%{`;
* every body is one or more bytes that `isValidMacroChar` admits, does not end in `.`, and its
  part before the first `.` is a name `Parse` accepts.

The canonical tokens of a template leave the empty literals out and turn a body into the token
with the variable its scope name parses to and the lowered key.

## Main statements

* `scan_literal`, `scan_body`, `scan_reference`: what the scan does with one piece of a
  template, stated on `piece ++ rest`;
* `compile_render`: **every well-formed template compiles to its canonical tokens**;
* `flatMap_tokens`: the canonical tokens read token by token, which `source_tokens` here and
  `expand_render` in `Macro.Expand` both use;
* `source_tokens`: the tokens of a well-formed template give the template back, when no scope
  name of its references parses to `Unknown` (`KnownScopes`, assumed of the template only);
* `not_inLanguage_of_compile`: so a compiled template whose tokens do not give it back is not
  in the language.

The converse of `compile_render` fails: `newMacro_accepts_outside_language` exhibits two
templates outside the language that `NewMacro` accepts, a `%{` left open at the end and a `%{`
inside an open reference.  It holds for templates whose tokens give them back
(`inLanguage_iff_newMacro`, in `Macro.Roundtrip`).
-/

namespace SecLang

variable {V : Type}

/-- `%{body}`: a reference as it stands in a template. -/
def reference (body : List UInt8) : List UInt8 :=
  '%'.toUInt8 :: '{'.toUInt8 :: (body ++ ['}'.toUInt8])

/-- A literal span of the language: no `%{` in it. -/
def IsLiteral (l : List UInt8) : Prop := ¬ ['%'.toUInt8, '{'.toUInt8] <:+: l

/-- A reference body: valid bytes, at least one, not ending in `.`, and a scope name (the part
before the first `.`) that `Parse` accepts. -/
def IsBody (T : VariableTable V) (b : List UInt8) : Prop :=
  b ≠ [] ∧ (∀ c ∈ b, isValidMacroChar c = true) ∧ b.getLast? ≠ some '.'.toUInt8 ∧
    (T.parse (cut b).1).isSome

instance : DecidablePred IsLiteral := fun l => inferInstanceAs (Decidable (¬ _ <:+: l))

instance (T : VariableTable V) : DecidablePred (IsBody T) := fun _ =>
  inferInstanceAs (Decidable (_ ∧ _ ∧ _ ∧ _))

/-- A template: references, each with the literal before it, then the final literal. -/
structure Template where
  /-- The references, each as the literal before it and its body. -/
  refs : List (List UInt8 × List UInt8)
  /-- The literal after the last reference. -/
  last : List UInt8

/-- The bytes of the references of a template, each after its literal. -/
def renderRefs (refs : List (List UInt8 × List UInt8)) : List UInt8 :=
  refs.flatMap fun r => r.1 ++ reference r.2

@[simp] theorem renderRefs_nil : renderRefs [] = [] := rfl

@[simp] theorem renderRefs_cons (r : List UInt8 × List UInt8) (refs) :
    renderRefs (r :: refs) = r.1 ++ reference r.2 ++ renderRefs refs := rfl

/-- The template as text. -/
def Template.render (t : Template) : List UInt8 := renderRefs t.refs ++ t.last

/-- Every literal is a literal span and every body a reference body. -/
def Template.WellFormed (T : VariableTable V) (t : Template) : Prop :=
  (∀ r ∈ t.refs, IsLiteral r.1 ∧ IsBody T r.2) ∧ IsLiteral t.last

instance (T : VariableTable V) : DecidablePred (Template.WellFormed T) := fun t =>
  inferInstanceAs (Decidable ((∀ r ∈ t.refs, IsLiteral r.1 ∧ IsBody T r.2) ∧ IsLiteral t.last))

/-- The literal token of a span, none for the empty span. -/
def literalTokens (T : VariableTable V) (l : List UInt8) : List (MacroToken V) :=
  if 0 < l.length then [T.literal l] else []

/-- Reading a token as its text reads the literal tokens of a span as the span. -/
theorem flatMap_literalTokens {T : VariableTable V} {f : MacroToken V → List UInt8}
    (hf : ∀ l, f (T.literal l) = l) (l : List UInt8) : (literalTokens T l).flatMap f = l := by
  by_cases h : 0 < l.length
  · simp [literalTokens, h, hf]
  · simp_all [literalTokens]

/-- The token of a body: the variable its scope name parses to and the lowered key. -/
def referenceTokens (T : VariableTable V) (b : List UInt8) : List (MacroToken V) :=
  (T.parse (cut b).1).toList.map fun v => ⟨b, v, toLower (cut b).2⟩

/-- The tokens of the references of a template, each after the token of its literal. -/
def refsTokens (T : VariableTable V) (refs : List (List UInt8 × List UInt8)) :
    List (MacroToken V) :=
  refs.flatMap fun r => literalTokens T r.1 ++ referenceTokens T r.2

@[simp] theorem refsTokens_nil (T : VariableTable V) : refsTokens T [] = [] := rfl

@[simp] theorem refsTokens_cons (T : VariableTable V) (r : List UInt8 × List UInt8) (refs) :
    refsTokens T (r :: refs) =
      literalTokens T r.1 ++ referenceTokens T r.2 ++ refsTokens T refs := rfl

/-- The canonical tokens of a template. -/
def Template.tokens (T : VariableTable V) (t : Template) : List (MacroToken V) :=
  refsTokens T t.refs ++ literalTokens T t.last

theorem flatMap_refsTokens {T : VariableTable V} {f : MacroToken V → List UInt8}
    {g : List UInt8 → List UInt8} (hf : ∀ l, f (T.literal l) = l) :
    ∀ refs : List (List UInt8 × List UInt8),
    (∀ r ∈ refs, (referenceTokens T r.2).flatMap f = g r.2) →
    (refsTokens T refs).flatMap f = refs.flatMap fun r => r.1 ++ g r.2
  | [], _ => rfl
  | r :: refs, h => by
    rw [refsTokens_cons, List.flatMap_append, List.flatMap_append, flatMap_literalTokens hf,
      h r (List.mem_cons_self _ _),
      flatMap_refsTokens hf refs fun r' h' => h r' (List.mem_cons_of_mem _ h'),
      List.flatMap_cons, List.append_assoc]

/-- **Reading the canonical tokens of a template**: when a literal token reads as its span and
the token of each body as `g` of the body, the tokens read as the template with every reference
replaced by `g` of its body. -/
theorem flatMap_tokens {T : VariableTable V} {f : MacroToken V → List UInt8}
    {g : List UInt8 → List UInt8} (hf : ∀ l, f (T.literal l) = l) (t : Template)
    (hg : ∀ r ∈ t.refs, (referenceTokens T r.2).flatMap f = g r.2) :
    (t.tokens T).flatMap f = t.refs.flatMap (fun r => r.1 ++ g r.2) ++ t.last := by
  rw [Template.tokens, List.flatMap_append, flatMap_refsTokens hf t.refs hg,
    flatMap_literalTokens hf]

/-- A template is in the language when a well-formed template renders to it. -/
def InLanguage (T : VariableTable V) (s : List UInt8) : Prop :=
  ∃ t : Template, t.WellFormed T ∧ t.render = s

/-! ## The scope names a template uses

A token is told from a literal only by its variable, so reading tokens back needs the scope
names of the references not to parse to `Unknown`.  A variable table may well hold a name that
does (the placeholder has a name of its own), so this is assumed only of the references that
stand in the template at hand. -/

/-- The scope name of a body does not parse to `Unknown`. -/
def KnownScope (T : VariableTable V) (b : List UInt8) : Prop :=
  ∀ v, T.parse (cut b).1 = some v → v ≠ T.unknown

/-- No scope name the template uses parses to `Unknown`: the scope name of every reference
`%{body}` with valid bytes that stands in it. -/
def KnownScopes (T : VariableTable V) (s : List UInt8) : Prop :=
  ∀ b, reference b <:+: s → (∀ c ∈ b, isValidMacroChar c = true) → KnownScope T b

/-- A table that parses no name to `Unknown` knows the scopes of every template. -/
theorem KnownScopes.of_ne_unknown {T : VariableTable V}
    (hT : ∀ name v, T.parse name = some v → v ≠ T.unknown) (s : List UInt8) : KnownScopes T s :=
  fun _ _ _ v hv => hT _ v hv

theorem KnownScopes.of_infix {T : VariableTable V} {s s' : List UInt8} (h : KnownScopes T s')
    (hs : s <:+: s') : KnownScopes T s :=
  fun b hb => h b (hb.trans hs)

/-- The references of a well-formed template stand in its text. -/
theorem KnownScopes.refs {T : VariableTable V} {t : Template} (h : KnownScopes T t.render)
    (ht : t.WellFormed T) : ∀ r ∈ t.refs, KnownScope T r.2 := fun r hr => by
  have hin : r.1 ++ reference r.2 <:+: renderRefs t.refs :=
    List.infix_of_mem_flatten (List.mem_map_of_mem (fun r => r.1 ++ reference r.2) hr)
  exact h r.2 (((List.suffix_append _ _).isInfix.trans hin).trans
    (List.prefix_append _ _).isInfix) (ht.1 r hr).2.2.1

/-! ## The scan, one piece of a template at a time -/

variable {T : VariableTable V}

theorem IsLiteral.of_cons {c : UInt8} {l : List UInt8} (h : IsLiteral (c :: l)) : IsLiteral l :=
  fun h' => h (h'.trans (List.suffix_cons c l).isInfix)

theorem IsLiteral.nil : IsLiteral [] := fun h => by simpa using h.length_le

/-- A literal stays one with a byte appended, unless the byte is a `{` after a final `%`. -/
theorem IsLiteral.append_singleton {l : List UInt8} {c : UInt8} (hl : IsLiteral l)
    (hc : l.getLast? = some '%'.toUInt8 → c ≠ '{'.toUInt8) : IsLiteral (l ++ [c]) := by
  intro h
  rw [← List.reverse_infix, List.reverse_append, List.reverse_singleton, List.singleton_append,
    List.infix_cons_iff] at h
  rcases h with ⟨t, ht⟩ | h
  · -- the `%{` ends the literal: `c` is the `{`, and the `%` is the last byte of `l`
    simp only [List.reverse_cons, List.reverse_nil, List.nil_append, List.cons_append,
      List.singleton_append, List.cons.injEq] at ht
    refine hc ?_ ht.1.symm
    rw [← List.head?_reverse, ← ht.2]
    rfl
  · exact hl (List.reverse_infix.mp h)

theorem IsLiteral.not_open {c d : UInt8} {l : List UInt8} (h : IsLiteral (c :: d :: l)) :
    ¬ (c = '%'.toUInt8 ∧ d = '{'.toUInt8) := by
  rintro ⟨rfl, rfl⟩
  exact h ⟨[], l, rfl⟩

@[simp] theorem next_literal {prev : Except MacroError UInt8} {c : UInt8} {last : Bool}
    {cur : List UInt8} {toks : List (MacroToken V)} :
    Scanner.next T prev c last ⟨false, cur, toks⟩ = .ok ⟨false, cur ++ [c], toks⟩ := rfl

theorem next_body {prev : Except MacroError UInt8} {c : UInt8} {cur : List UInt8}
    {toks : List (MacroToken V)} (hc : isValidMacroChar c = true) :
    Scanner.next T prev c false ⟨true, cur, toks⟩ = .ok ⟨true, cur ++ [c], toks⟩ := by
  have : c ≠ '}'.toUInt8 := by rintro rfl; simp at hc
  simp [Scanner.next, this, hc, pure, Except.pure]

theorem next_close {p : UInt8} {last : Bool} {cur : List UInt8} {toks : List (MacroToken V)}
    {v : V} (hp : p ≠ '.'.toUInt8) (hv : T.parse (cut cur).1 = some v) :
    Scanner.next T (.ok p) '}'.toUInt8 last ⟨true, cur, toks⟩ =
      .ok ⟨false, [], toks ++ [⟨cur, v, toLower (cut cur).2⟩]⟩ := by
  simp [Scanner.next, hp, hv, bind, Except.bind, pure, Except.pure]

/-- **A literal run is read into the current token.**  The byte after the run must not be a
`{` that a final `%` of the run would open. -/
theorem scan_literal : ∀ (l rest : List UInt8) (prev : Except MacroError UInt8)
    (cur : List UInt8) (toks : List (MacroToken V)), IsLiteral l →
    rest.head? ≠ some '{'.toUInt8 →
    ∃ p, scan T prev (l ++ rest) ⟨false, cur, toks⟩ = scan T p rest ⟨false, cur ++ l, toks⟩
  | [], _, prev, cur, toks, _, _ => ⟨prev, by simp⟩
  | c :: l, rest, prev, cur, toks, hl, hr => by
    have hno : ¬ (c = '%'.toUInt8 ∧ (l ++ rest).head? = some '{'.toUInt8) := by
      cases l with
      | nil => simpa using fun _ => hr
      | cons d l => simpa using hl.not_open
    obtain ⟨p, hp⟩ := scan_literal l rest (.ok c) (cur ++ [c]) toks hl.of_cons hr
    exact ⟨p, by rw [List.cons_append, scan_cons hno, next_literal]; simpa using hp⟩

/-- **A body is read into the current token**, up to the closing brace. -/
theorem scan_body : ∀ (b rest : List UInt8) (prev : Except MacroError UInt8)
    (cur : List UInt8) (toks : List (MacroToken V)), (∀ c ∈ b, isValidMacroChar c = true) →
    scan T prev (b ++ '}'.toUInt8 :: rest) ⟨true, cur, toks⟩ =
      scan T ((b.getLast?.map .ok).getD prev) ('}'.toUInt8 :: rest) ⟨true, cur ++ b, toks⟩
  | [], _, _, _, _, _ => by simp
  | c :: b, rest, prev, cur, toks, hb => by
    have hc := hb c (List.mem_cons_self c b)
    have hno : ¬ (c = '%'.toUInt8 ∧ (b ++ '}'.toUInt8 :: rest).head? = some '{'.toUInt8) := by
      rintro ⟨rfl, -⟩; simp at hc
    rw [List.cons_append, scan_cons hno, (by simp : (b ++ '}'.toUInt8 :: rest).isEmpty = false),
      next_body hc, ok_bind,
      scan_body b rest _ _ _ (fun c hc => hb c (List.mem_cons_of_mem _ hc))]
    cases b <;> simp [List.getLast?_cons]

/-- **A reference is read into its token**: the literal before it is flushed, and the scan
goes on after the closing brace with no token open. -/
theorem scan_reference {b : List UInt8} (rest : List UInt8) (prev : Except MacroError UInt8)
    (s : Scanner V) (hb : IsBody T b) :
    scan T prev (reference b ++ rest) s =
      scan T (.ok '}'.toUInt8) rest ⟨false, [], s.flush T ++ referenceTokens T b⟩ := by
  obtain ⟨hne, hvalid, hlast, hparse⟩ := hb
  obtain ⟨v, hv⟩ := Option.isSome_iff_exists.mp hparse
  obtain ⟨p, hp⟩ : ∃ p, b.getLast? = some p := by
    cases h : b.getLast? with
    | none => exact absurd (List.getLast?_eq_none_iff.mp h) hne
    | some p => exact ⟨p, rfl⟩
  have hp' : p ≠ '.'.toUInt8 := fun h => hlast (h ▸ hp)
  have hno : ¬ ('}'.toUInt8 = '%'.toUInt8 ∧ rest.head? = some '{'.toUInt8) := by
    rintro ⟨h, -⟩; exact absurd h (by decide)
  rw [reference, List.cons_append, List.cons_append, scan_open, List.append_assoc,
    List.singleton_append, Scanner.openReference, scan_body b rest _ _ _ hvalid, hp,
    Option.map_some', Option.getD_some, List.nil_append, scan_cons hno, next_close hp' hv]
  simp [referenceTokens, hv, Scanner.flush, bind, Except.bind]

/-! ## Every template of the language compiles to its canonical tokens -/

@[simp] theorem flush_literal (l : List UInt8) (toks : List (MacroToken V)) :
    Scanner.flush T ⟨false, l, toks⟩ = toks ++ literalTokens T l := by
  by_cases h : 0 < l.length <;> simp [Scanner.flush, literalTokens, h]

/-- The references of a well-formed template, each after its literal, are read into their
tokens. -/
theorem scan_renderRefs : ∀ (refs : List (List UInt8 × List UInt8)) (rest : List UInt8)
    (prev : Except MacroError UInt8) (toks : List (MacroToken V)),
    (∀ r ∈ refs, IsLiteral r.1 ∧ IsBody T r.2) →
    ∃ p, scan T prev (renderRefs refs ++ rest) ⟨false, [], toks⟩ =
      scan T p rest ⟨false, [], toks ++ refsTokens T refs⟩
  | [], rest, prev, toks, _ => ⟨prev, by simp⟩
  | r :: refs, rest, prev, toks, hr => by
    obtain ⟨hl, hb⟩ := hr r (List.mem_cons_self _ _)
    obtain ⟨p, hp⟩ := scan_literal (T := T) r.1 (reference r.2 ++ (renderRefs refs ++ rest)) prev
      [] toks hl (by simp [reference]; decide)
    obtain ⟨q, hq⟩ := scan_renderRefs refs rest (.ok '}'.toUInt8)
      (toks ++ (literalTokens T r.1 ++ referenceTokens T r.2))
      fun r' h' => hr r' (List.mem_cons_of_mem _ h')
    refine ⟨q, ?_⟩
    rw [renderRefs_cons, List.append_assoc, List.append_assoc, hp, scan_reference _ _ _ hb,
      List.nil_append, flush_literal, List.append_assoc, hq, refsTokens_cons]
    simp

/-- **Every well-formed template compiles to its canonical tokens.** -/
theorem compile_render {t : Template} (ht : t.WellFormed T) (hne : t.render ≠ []) :
    Macro.compile T t.render = .ok ⟨t.render, t.tokens T⟩ := by
  obtain ⟨p, hp⟩ := scan_renderRefs t.refs t.last (.error .indexOutOfRange) [] ht.1
  obtain ⟨q, hq⟩ := scan_literal (T := T) t.last [] p [] (refsTokens T t.refs) ht.2 (by simp)
  rw [compile_eq_scan T hne, Template.render, hp, List.nil_append, ← List.append_nil t.last, hq]
  simp [Template.tokens, pure, Except.pure, Functor.map, Except.map]

/-! ## The tokens give the template back -/

section Source

variable [DecidableEq V]

/-- The text a token stands for in its template: the span of a literal, `%{text}` for a
reference. -/
def MacroToken.source (T : VariableTable V) (tok : MacroToken V) : List UInt8 :=
  if tok.var = T.unknown then tok.text else reference tok.text

@[simp] theorem source_literal (l : List UInt8) : (T.literal l).source T = l := by
  simp [MacroToken.source, VariableTable.literal]

/-- Reading the canonical tokens back gives the template, when the scope names of its references
do not parse to `Unknown` (so that a reference token is told from a literal one). -/
theorem source_tokens {t : Template} (hT : ∀ r ∈ t.refs, KnownScope T r.2)
    (ht : t.WellFormed T) : (t.tokens T).flatMap (MacroToken.source T) = t.render := by
  refine flatMap_tokens source_literal t fun r h => ?_
  obtain ⟨v, hv⟩ := Option.isSome_iff_exists.mp (ht.1 r h).2.2.2.2
  simp [referenceTokens, hv, MacroToken.source, hT r h v hv]

/-- **A compiled template whose tokens do not give it back is outside the language**: a
template of the language compiles to its canonical tokens, and those give it back. -/
theorem not_inLanguage_of_compile {s : List UInt8} (hT : KnownScopes T s) {m : Macro V}
    (h : Macro.compile T s = .ok m) (hs : m.tokens.flatMap (MacroToken.source T) ≠ s) :
    ¬ InLanguage T s := by
  rintro ⟨t, ht, rfl⟩
  have hne : t.render ≠ [] := by rintro hr; rw [hr] at h; cases h
  rw [compile_render ht hne] at h
  cases h
  exact hs (source_tokens (hT.refs ht) ht)

end Source

/-! ## Templates outside the language that `NewMacro` accepts -/

/-- A variable table holding the one variable the source names, `TX` (number `1`, with
`Unknown` the number `0`); `Parse` ignores case. -/
def txTable : VariableTable Nat where
  unknown := 0
  parse name := if toLower name = bytes "tx" then some 1 else none

theorem txTable_parse_ne_unknown (name : List UInt8) (v : Nat) (h : txTable.parse name = some v) :
    v ≠ txTable.unknown := by
  simp only [txTable] at h
  split_ifs at h
  cases h
  decide

/-- `NewMacro` accepts a `%{` left open at the end, dropping it, and a `%{` inside an open
reference, turning the body read so far into a literal.  Neither template is in the
language. -/
theorem newMacro_accepts_outside_language :
    newMacro txTable (bytes "a%\x7b") = .ok ⟨bytes "a%\x7b", [txTable.literal (bytes "a")]⟩ ∧
      ¬ InLanguage txTable (bytes "a%\x7b") ∧
    newMacro txTable (bytes "%\x7ba%\x7btx.b\x7d") = .ok ⟨bytes "%\x7ba%\x7btx.b\x7d",
      [txTable.literal (bytes "a"), ⟨bytes "tx.b", 1, bytes "b"⟩]⟩ ∧
      ¬ InLanguage txTable (bytes "%\x7ba%\x7btx.b\x7d") :=
  ⟨rfl, not_inLanguage_of_compile (.of_ne_unknown txTable_parse_ne_unknown _) rfl (by decide),
    rfl, not_inLanguage_of_compile (.of_ne_unknown txTable_parse_ne_unknown _) rfl (by decide)⟩

end SecLang
