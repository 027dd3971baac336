import SecLang.Macro.Template

/-!
# The templates `NewMacro` accepts

`compile` accepts more than the language of `Macro.Template`.  A `%{` read inside an open
reference does not fail: it flushes the body read so far as a literal and opens a new reference.
A `%{` that ends the template opens a reference that the end flushes, empty.  Call the part cut
short a slip.  A *draft* is a template of the language in which each reference may come after
slips, `%{` and valid bytes that the next `%{` cuts short, and which may end in slips and a last
`%{`.  This module proves that the drafts are exactly what `NewMacro` accepts, and that each
compiles to its tokens: the literals, the bodies of the slips as literals, and the references,
in turn.

Both directions follow the scan.  A draft is read piece by piece (`scan_slips`,
`scan_draftRefs`), as `compile_render` reads a template.  Conversely, the scan keeps the
invariant `Drafts`: what it has read is a draft, followed by the body read so far when a
reference is open.  Closing a reference needs `Parse` to reject the empty name, so that `%{}`
fails.

## Main statements

* `scan_slips`, `scan_draftRefs`, `compile_draft`: **every draft compiles to its tokens**;
* `Drafts.next`, `Drafts.openReference`: the step lemmas of the invariant;
* `scan_drafts`, `draft_of_newMacro`: **every template `NewMacro` accepts is a draft**;
* `newMacro_draft`: the two together.
-/

namespace SecLang

variable {V : Type} {T : VariableTable V}

/-! ## Drafts -/

/-- A run of slips: `%{` and the body read before the next `%{` cut it short, for each body. -/
def slipsText (ps : List (List UInt8)) : List UInt8 :=
  ps.flatMap fun b => '%'.toUInt8 :: '{'.toUInt8 :: b

@[simp] theorem slipsText_nil : slipsText [] = [] := rfl

@[simp] theorem slipsText_cons (b : List UInt8) (ps : List (List UInt8)) :
    slipsText (b :: ps) = '%'.toUInt8 :: '{'.toUInt8 :: (b ++ slipsText ps) := rfl

@[simp] theorem slipsText_append (ps qs : List (List UInt8)) :
    slipsText (ps ++ qs) = slipsText ps ++ slipsText qs := List.flatMap_append _ _ _

/-- A template as `compile` accepts it: references, each after a literal and a run of slips,
then a literal, then possibly a run of slips and a last `%{`. -/
structure Draft where
  /-- The references, each as the literal before it, the slips before it, and its body. -/
  refs : List (List UInt8 × List (List UInt8) × List UInt8)
  /-- The literal after the last reference. -/
  last : List UInt8
  /-- The slips before the last `%{`, when the draft ends in one. -/
  tail : Option (List (List UInt8))

/-- The bytes of the references of a draft, each after its literal and its slips. -/
def renderDraftRefs (refs : List (List UInt8 × List (List UInt8) × List UInt8)) : List UInt8 :=
  refs.flatMap fun r => r.1 ++ slipsText r.2.1 ++ reference r.2.2

@[simp] theorem renderDraftRefs_nil : renderDraftRefs [] = [] := rfl

@[simp] theorem renderDraftRefs_cons (r : List UInt8 × List (List UInt8) × List UInt8) (refs) :
    renderDraftRefs (r :: refs) =
      r.1 ++ slipsText r.2.1 ++ reference r.2.2 ++ renderDraftRefs refs := rfl

@[simp] theorem renderDraftRefs_append (refs refs') :
    renderDraftRefs (refs ++ refs') = renderDraftRefs refs ++ renderDraftRefs refs' :=
  List.flatMap_append _ _ _

/-- The text of the slips and the last `%{` that end a draft, if any. -/
def tailText : Option (List (List UInt8)) → List UInt8
  | none => []
  | some ps => slipsText ps ++ ['%'.toUInt8, '{'.toUInt8]

/-- The draft as text. -/
def Draft.render (k : Draft) : List UInt8 := renderDraftRefs k.refs ++ k.last ++ tailText k.tail

/-- Every literal is a literal span, every slip made of valid bytes, every body a reference
body. -/
def Draft.WellFormed (T : VariableTable V) (k : Draft) : Prop :=
  (∀ r ∈ k.refs, IsLiteral r.1 ∧ (∀ b ∈ r.2.1, ∀ c ∈ b, isValidMacroChar c = true) ∧
    IsBody T r.2.2) ∧
  IsLiteral k.last ∧ ∀ b ∈ k.tail.getD [], ∀ c ∈ b, isValidMacroChar c = true

instance (T : VariableTable V) : DecidablePred (Draft.WellFormed T) := fun k =>
  inferInstanceAs
    (Decidable ((∀ r ∈ k.refs, _ ∧ _ ∧ _) ∧ _ ∧ ∀ b ∈ k.tail.getD [], _))

/-- The tokens of the references of a draft: the literal, the slips' bodies as literals, and the
reference, for each, empty literals dropped. -/
def draftRefsTokens (T : VariableTable V)
    (refs : List (List UInt8 × List (List UInt8) × List UInt8)) : List (MacroToken V) :=
  refs.flatMap fun r =>
    literalTokens T r.1 ++ r.2.1.flatMap (literalTokens T) ++ referenceTokens T r.2.2

@[simp] theorem draftRefsTokens_cons (r : List UInt8 × List (List UInt8) × List UInt8) (refs) :
    draftRefsTokens T (r :: refs) = literalTokens T r.1 ++ r.2.1.flatMap (literalTokens T) ++
      referenceTokens T r.2.2 ++ draftRefsTokens T refs := rfl

/-- The tokens `compile` gives a draft. -/
def Draft.tokens (T : VariableTable V) (k : Draft) : List (MacroToken V) :=
  draftRefsTokens T k.refs ++ literalTokens T k.last ++ (k.tail.getD []).flatMap (literalTokens T)

/-! ## Every draft compiles to its tokens -/

/-- The flush appends the literal token of the token being read, in either mode. -/
theorem flush_eq (s : Scanner V) :
    s.flush T = s.tokens ++ literalTokens T s.currentToken := by
  by_cases h : 0 < s.currentToken.length <;> simp [Scanner.flush, literalTokens, h]

@[simp] theorem openReference_isMacro (s : Scanner V) : (s.openReference T).isMacro = true := rfl

@[simp] theorem openReference_currentToken (s : Scanner V) :
    (s.openReference T).currentToken = [] := rfl

@[simp] theorem flush_openReference (s : Scanner V) : (s.openReference T).flush T = s.flush T := by
  simp [Scanner.openReference, Scanner.flush]

/-- **Valid bytes are read into the body** while the input goes on after them. -/
theorem scan_valid : ∀ (b rest : List UInt8) (prev : Except MacroError UInt8)
    (cur : List UInt8) (toks : List (MacroToken V)), (∀ c ∈ b, isValidMacroChar c = true) →
    rest ≠ [] →
    scan T prev (b ++ rest) ⟨true, cur, toks⟩ =
      scan T ((b.getLast?.map .ok).getD prev) rest ⟨true, cur ++ b, toks⟩
  | [], _, _, _, _, _, _ => by simp
  | c :: b, rest, prev, cur, toks, hb, hr => by
    have hc := hb c (List.mem_cons_self c b)
    have hno : ¬ (c = '%'.toUInt8 ∧ (b ++ rest).head? = some '{'.toUInt8) := by
      rintro ⟨rfl, -⟩; simp at hc
    rw [List.cons_append, scan_cons hno, (by simp [hr] : (b ++ rest).isEmpty = false),
      next_body hc, ok_bind,
      scan_valid b rest _ _ _ (fun c hc => hb c (List.mem_cons_of_mem _ hc)) hr]
    cases b <;> simp [List.getLast?_cons]

/-- **A run of slips is read into literal tokens**: each `%{` flushes what was read, and each body
is read up to the next `%{`. -/
theorem scan_slips : ∀ (ps : List (List UInt8)) (rest : List UInt8)
    (prev : Except MacroError UInt8) (s : Scanner V),
    (∀ b ∈ ps, ∀ c ∈ b, isValidMacroChar c = true) →
    ∃ p s', s'.flush T = s.flush T ++ ps.flatMap (literalTokens T) ∧
      scan T prev (slipsText ps ++ '%'.toUInt8 :: '{'.toUInt8 :: rest) s =
        scan T p ('%'.toUInt8 :: '{'.toUInt8 :: rest) s'
  | [], _, prev, s, _ => ⟨prev, s, by simp, by simp⟩
  | b :: ps, rest, prev, s, hps => by
    have hrest : slipsText ps ++ '%'.toUInt8 :: '{'.toUInt8 :: rest ≠ [] := by simp
    obtain ⟨p, s', hs', h⟩ := scan_slips ps rest _ ⟨true, b, s.flush T⟩
      fun b' hb' => hps b' (List.mem_cons_of_mem _ hb')
    refine ⟨p, s', by rw [hs', flush_eq]; simp, ?_⟩
    rw [slipsText_cons, List.cons_append, List.cons_append, scan_open, Scanner.openReference,
      List.append_assoc, scan_valid b _ _ _ _ (hps b (List.mem_cons_self _ _)) hrest,
      List.nil_append, h]

/-- The byte after a literal of a draft is never `{`. -/
theorem head_slipsText_ne (ps : List (List UInt8)) (rest : List UInt8) :
    (slipsText ps ++ '%'.toUInt8 :: rest).head? ≠ some '{'.toUInt8 := by
  cases ps <;> simp <;> decide

/-- **The references of a draft are read into their tokens**, each literal and slip flushed. -/
theorem scan_draftRefs : ∀ (refs : List (List UInt8 × List (List UInt8) × List UInt8))
    (rest : List UInt8) (prev : Except MacroError UInt8) (toks : List (MacroToken V)),
    (∀ r ∈ refs, IsLiteral r.1 ∧ (∀ b ∈ r.2.1, ∀ c ∈ b, isValidMacroChar c = true) ∧
      IsBody T r.2.2) →
    ∃ p, scan T prev (renderDraftRefs refs ++ rest) ⟨false, [], toks⟩ =
      scan T p rest ⟨false, [], toks ++ draftRefsTokens T refs⟩
  | [], rest, prev, toks, _ => ⟨prev, by simp [draftRefsTokens]⟩
  | r :: refs, rest, prev, toks, hr => by
    obtain ⟨hl, hps, hb⟩ := hr r (List.mem_cons_self _ _)
    have href : reference r.2.2 ++ (renderDraftRefs refs ++ rest) =
        '%'.toUInt8 :: '{'.toUInt8 :: (r.2.2 ++ '}'.toUInt8 :: (renderDraftRefs refs ++ rest)) := by
      simp [reference]
    obtain ⟨p, hp⟩ := scan_literal (T := T) r.1
      (slipsText r.2.1 ++ (reference r.2.2 ++ (renderDraftRefs refs ++ rest))) prev [] toks hl
      (by rw [href]; exact head_slipsText_ne _ _)
    obtain ⟨p', s', hs', hsl⟩ := scan_slips (T := T) r.2.1
      (r.2.2 ++ '}'.toUInt8 :: (renderDraftRefs refs ++ rest)) p ⟨false, [] ++ r.1, toks⟩ hps
    obtain ⟨q, hq⟩ := scan_draftRefs refs rest (.ok '}'.toUInt8)
      (s'.flush T ++ referenceTokens T r.2.2) fun r' h' => hr r' (List.mem_cons_of_mem _ h')
    refine ⟨q, ?_⟩
    rw [renderDraftRefs_cons, List.append_assoc, List.append_assoc, List.append_assoc, hp, href,
      hsl, ← href, scan_reference _ _ _ hb, hq, hs', flush_literal]
    simp [draftRefsTokens]

/-- **Every draft compiles to its tokens.** -/
theorem compile_draft {k : Draft} (hk : k.WellFormed T) (hne : k.render ≠ []) :
    Macro.compile T k.render = .ok ⟨k.render, k.tokens T⟩ := by
  obtain ⟨refs, last, tail⟩ := k
  obtain ⟨p, hp⟩ :=
    scan_draftRefs refs (last ++ tailText tail) (.error .indexOutOfRange) [] hk.1
  have htail : (tailText tail).head? ≠ some '{'.toUInt8 := by
    cases tail with
    | none => simp [tailText]
    | some ps => exact head_slipsText_ne ps ['{'.toUInt8]
  obtain ⟨q, hq⟩ :=
    scan_literal (T := T) last (tailText tail) p [] (draftRefsTokens T refs) hk.2.1 htail
  rw [compile_eq_scan T hne, Draft.render, List.append_assoc, hp, List.nil_append, hq]
  cases tail with
  | none =>
    simp [tailText, Draft.tokens, Functor.map, Except.map, pure, Except.pure]
  | some ps =>
    obtain ⟨p', s', hs', h⟩ :=
      scan_slips (T := T) ps [] q ⟨false, [] ++ last, draftRefsTokens T refs⟩ hk.2.2
    rw [tailText, h, scan_open, scan_nil]
    simp [Draft.tokens, Functor.map, Except.map, pure, Except.pure, hs']

/-! ## Every template `NewMacro` accepts is a draft -/

/-- The scan has read `u`: a draft `k`, then the body read so far when a reference is open, which
is exactly when `k` ends in a `%{`; it stands before `r`. -/
structure Drafts (T : VariableTable V) (k : Draft) (u : List UInt8)
    (prev : Except MacroError UInt8) (r : List UInt8) (s : Scanner V) : Prop where
  /-- What has been read is well formed. -/
  wellFormed : k.WellFormed T
  /-- The bytes read are the draft, then the body read so far. -/
  read_eq : u = k.render ++ if s.isMacro then s.currentToken else []
  /-- The draft ends in a `%{` exactly when a reference is open. -/
  tail_isSome : k.tail.isSome = s.isMacro
  /-- The body read so far is made of valid bytes. -/
  valid : s.isMacro = true → ∀ c ∈ s.currentToken, isValidMacroChar c = true
  /-- The byte before the rest is the last of the body, or the `{` that opened it. -/
  prev_eq : s.isMacro = true → prev = .ok (s.currentToken.getLast?.getD '{'.toUInt8)
  /-- Outside a reference, a final `%` of the literal is not followed by `{`. -/
  last_ne_open : s.isMacro = false →
    k.last.getLast? = some '%'.toUInt8 → r.head? ≠ some '{'.toUInt8
  /-- A reference open at the end of the input has an empty body. -/
  end_open : s.isMacro = true → r = [] → s.currentToken = []

theorem Drafts.init (prev : Except MacroError UInt8) (r : List UInt8) :
    Drafts T ⟨[], [], none⟩ [] prev r ⟨false, [], []⟩ :=
  ⟨⟨by simp, IsLiteral.nil, by simp⟩, by simp [Draft.render, tailText], rfl, by simp, by simp,
    by simp, by simp⟩

/-- A draft that does not end in `%{` renders as its references and its literal. -/
theorem render_none (refs : List (List UInt8 × List (List UInt8) × List UInt8))
    (last : List UInt8) : Draft.render ⟨refs, last, none⟩ = renderDraftRefs refs ++ last := by
  simp [Draft.render, tailText]

/-- The body of a reference that a `}` closes is a reference body, when `Parse` rejects the
empty name. -/
theorem isBody_of_close (hE : T.parse [] = none) {cur : List UInt8} {p : UInt8} {v : V}
    (hvalid : ∀ c ∈ cur, isValidMacroChar c = true) (hprev : cur.getLast?.getD '{'.toUInt8 = p)
    (hp : p ≠ '.'.toUInt8) (hv : T.parse (cut cur).1 = some v) : IsBody T cur := by
  have hne : cur ≠ [] := by
    rintro rfl
    exact absurd (hE ▸ hv : none = some v) (by simp)
  refine ⟨hne, hvalid, fun hl => hp ?_, by simp [hv]⟩
  rw [← hprev, hl]
  rfl

/-- **`next` keeps the invariant**: a literal byte extends the last literal, a body byte the
body, and a closing brace adds the reference, with the slips before it. -/
theorem Drafts.next (hE : T.parse [] = none) {k : Draft} {u : List UInt8}
    {prev : Except MacroError UInt8} {c : UInt8} {r : List UInt8} {s s' : Scanner V}
    (hd : Drafts T k u prev (c :: r) s) (ho : ¬ (c = '%'.toUInt8 ∧ r.head? = some '{'.toUInt8))
    (h : s.next T prev c r.isEmpty = .ok s') : ∃ k', Drafts T k' (u ++ [c]) (.ok c) r s' := by
  obtain ⟨⟨hrefs, hlast, htail⟩, hu, hk, hvalid, hprev, hopen, -⟩ := hd
  obtain ⟨refs, last, tail⟩ := k
  rcases Scanner.next_eq_ok h with
    ⟨hm, rfl⟩ | ⟨hm, hc, hl, rfl⟩ | ⟨hm, rfl, p, v, hp, hpd, hv, rfl⟩
  · -- a literal byte
    obtain rfl : tail = none := by simpa [hm] using hk
    have hlc : last.getLast? = some '%'.toUInt8 → c ≠ '{'.toUInt8 := fun hl hc =>
      hopen hm hl (by rw [hc]; rfl)
    refine ⟨⟨refs, last ++ [c], none⟩, ⟨hrefs, hlast.append_singleton hlc, by simp⟩, ?_,
      by simp [hm], by simp [hm], by simp [hm], fun _ hl => ?_, by simp [hm]⟩
    · simp only [hm, if_false, Bool.false_eq_true, List.append_nil, render_none] at hu ⊢
      rw [hu, List.append_assoc]
    · have hc : c = '%'.toUInt8 := by simpa using hl
      exact fun hd => ho ⟨hc, hd⟩
  · -- a byte of the body, which is not the last of the input
    refine ⟨⟨refs, last, tail⟩, ⟨hrefs, hlast, htail⟩, ?_, by simpa using hk,
      fun _ => List.forall_mem_append.mpr ⟨hvalid hm, List.forall_mem_singleton.mpr hc⟩,
      fun _ => by simp, by simp [hm], fun _ hr => ?_⟩
    · simp only [hm, if_true] at hu ⊢
      rw [hu, List.append_assoc]
    · rw [hr] at hl
      cases hl
  · -- the closing brace adds the reference, after the slips of the draft's end
    obtain ⟨ps, rfl⟩ : ∃ ps, tail = some ps :=
      Option.isSome_iff_exists.mp (by simpa [hm] using hk)
    have hbody := isBody_of_close hE (hvalid hm) (by simpa [hp] using (hprev hm).symm) hpd hv
    refine ⟨⟨refs ++ [(last, ps, s.currentToken)], [], none⟩,
      ⟨fun x hx => ?_, IsLiteral.nil, by simp⟩, ?_, rfl, by simp, by simp, by simp, by simp⟩
    · rcases List.mem_append.mp hx with hx | hx
      · exact hrefs x hx
      · rw [List.mem_singleton.mp hx]
        exact ⟨hlast, htail, hbody⟩
    · simp only [hm, if_true] at hu
      simp [hu, Draft.render, tailText, reference]

/-- **`%{` keeps the invariant**: in a literal it opens a reference; inside an open reference the
body read so far becomes a slip. -/
theorem Drafts.openReference {k : Draft} {u : List UInt8} {prev : Except MacroError UInt8}
    {r : List UInt8} {s : Scanner V}
    (hd : Drafts T k u prev ('%'.toUInt8 :: '{'.toUInt8 :: r) s) :
    ∃ k', Drafts T k' (u ++ ['%'.toUInt8, '{'.toUInt8]) (.ok '{'.toUInt8) r
      (s.openReference T) := by
  obtain ⟨⟨hrefs, hlast, htail⟩, hu, hk, hvalid, -, -, -⟩ := hd
  obtain ⟨refs, last, tail⟩ := k
  cases hm : s.isMacro
  · -- a reference opens after the literal
    obtain rfl : tail = none := by simpa [hm] using hk
    refine ⟨⟨refs, last, some []⟩, ⟨hrefs, hlast, by simp⟩, ?_, rfl, by simp, by simp, by simp,
      by simp⟩
    simp only [hm, if_false, Bool.false_eq_true, List.append_nil, render_none] at hu
    simp [hu, Draft.render, tailText]
  · -- a slip: the body read so far is cut short
    obtain ⟨ps, rfl⟩ : ∃ ps, tail = some ps :=
      Option.isSome_iff_exists.mp (by simpa [hm] using hk)
    refine ⟨⟨refs, last, some (ps ++ [s.currentToken])⟩, ⟨hrefs, hlast, ?_⟩, ?_, rfl, by simp,
      by simp, by simp, by simp⟩
    · intro b hb
      simp only [Option.getD_some, List.mem_append, List.mem_singleton] at hb
      rcases hb with hb | rfl
      exacts [htail b hb, hvalid hm]
    · simp only [hm, if_true] at hu
      simp [hu, Draft.render, tailText]

/-- **At the end of the input** the bytes read are a draft: a reference still open has an
empty body. -/
theorem Drafts.render_eq {k : Draft} {u : List UInt8} {prev : Except MacroError UInt8}
    {s : Scanner V} (hd : Drafts T k u prev [] s) : k.render = u := by
  rw [hd.read_eq]
  cases hm : s.isMacro
  · simp
  · simp [hd.end_open hm rfl]

/-- **The run lemma**: a scan from a state that keeps the invariant has read a draft when it
ends. -/
theorem scan_drafts (hE : T.parse [] = none) {k : Draft} {u : List UInt8}
    {prev : Except MacroError UInt8} {r : List UInt8} {s s' : Scanner V}
    (hd : Drafts T k u prev r s) (h : scan T prev r s = .ok s') :
    ∃ k' : Draft, k'.WellFormed T ∧ k'.render = u ++ r := by
  induction prev, r, s using scan_induction generalizing k u s' with
  | nil prev s => exact ⟨k, hd.wellFormed, by rw [hd.render_eq, List.append_nil]⟩
  | opens prev rest s ih =>
    rw [scan_open] at h
    obtain ⟨k', hd'⟩ := hd.openReference
    simpa using ih _ hd' h
  | next prev c rest s ho ih =>
    rw [scan_cons ho] at h
    obtain ⟨s₁, h₁, h₂⟩ := bind_eq_ok h
    obtain ⟨k', hd'⟩ := hd.next hE ho h₁
    simpa using ih _ hd' h₂

/-- Every template `NewMacro` accepts is a draft. -/
theorem draft_of_newMacro (hE : T.parse [] = none) {s : List UInt8} {m : Macro V}
    (h : newMacro T s = .ok m) : ∃ k : Draft, k.WellFormed T ∧ k.render = s := by
  have hne : s ≠ [] := by
    rintro rfl
    cases h
  rw [newMacro, if_neg (by simpa using hne), compile_eq_scan T hne] at h
  obtain ⟨s', hs', -⟩ := map_eq_ok h
  simpa using scan_drafts hE (Drafts.init _ _) hs'

/-- **`NewMacro` accepts exactly the drafts.**  Every draft that is not empty compiles to its
tokens, and, when `Parse` rejects the empty name, every template `NewMacro` accepts is a
draft. -/
theorem newMacro_draft (hE : T.parse [] = none) :
    (∀ k : Draft, k.WellFormed T → k.render ≠ [] →
      newMacro T k.render = .ok ⟨k.render, k.tokens T⟩) ∧
    ∀ (s : List UInt8) (m : Macro V), newMacro T s = .ok m →
      ∃ k : Draft, k.WellFormed T ∧ k.render = s :=
  ⟨fun _ hk hne => by rw [newMacro, if_neg (by simpa using hne), compile_draft hk hne],
    fun _ _ => draft_of_newMacro hE⟩

theorem newMacro_draft_txTable :
    txTable.parse [] = none ∧
      (∀ k : Draft, k.WellFormed txTable → k.render ≠ [] →
        newMacro txTable k.render = .ok ⟨k.render, k.tokens txTable⟩) ∧
      ∀ (s : List UInt8) (m : Macro Nat), newMacro txTable s = .ok m →
        ∃ k : Draft, k.WellFormed txTable ∧ k.render = s :=
  ⟨rfl, newMacro_draft rfl⟩

end SecLang
