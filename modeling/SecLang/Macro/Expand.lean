import SecLang.Macro.Template

/-!
# Expanding a macro against a transaction

`expandToken` reads a token against the transaction's collection for its variable.  A literal
token (variable `Unknown`) is its text.  A reference goes by the kind of collection, as the
type switch of the code does: a keyed collection gives its first value under the key, a
single-valued one its value, any other the value of its first `FindAll` record.  When that
finds nothing the token's text comes back, and a warning is logged.

The text of a reference token is its body, `tx.foo` for `%{tx.foo}`, and not the reference.
So a reference that finds nothing expands to its body, with the braces gone: the template does
not come back when no key is set (`expand_unset_key`).

## Main statements

* `expand_eq`: the single-token path and the loop of `Expand` both concatenate the expansions
  of the tokens, text and warnings;
* `expand_render`: for a template of the language, the expansion is the template with every
  reference replaced by its collection's value, or by its body when there is none;
* `expand_warnings`: one warning for each reference token that finds nothing, in order;
* `expand_unset_key`: `prefix %{tx.foo} suffix` expands to `prefix tx.foo suffix` when
  `tx.foo` is unset, and to `prefix bar suffix` when it is `bar`;
* `isExpandable_reference`: a macro that is one reference is never expandable, though its one
  token is a reference; `isExpandable_single_reference` is the case of `%{tx.foo}`.
-/

namespace SecLang

variable {V : Type}

/-- A collection as the type switch of `expandToken` sees it. -/
inductive Collection where
  /-- `collection.Keyed`, with its `Get(key)`. -/
  | keyed (get : List UInt8 → List (List UInt8))
  /-- `collection.Single`, with its `Get()`. -/
  | single (get : List UInt8)
  /-- Any other collection, with the `Value()`s of its `FindAll()` records. -/
  | other (findAll : List (List UInt8))

/-- What `expandToken` reads of a transaction: `Collection(variable)`. -/
structure TransactionState (V : Type) where
  collection : V → Collection

/-- The warning `expandToken` logs when a reference finds nothing: the variable and the key,
with the message "key not found in collection, returning the original text". -/
structure KeyNotFound (V : Type) where
  var : V
  key : List UInt8
  deriving DecidableEq, Repr

/-- The value a collection holds for a key, as `expandToken` looks it up; none when the lookup
finds nothing. -/
def Collection.lookup : Collection → List UInt8 → Option (List UInt8)
  | .keyed get, key => (get key).head?
  | .single get, _ => some get
  | .other findAll, _ => findAll.head?

/-- A transaction whose every variable is a keyed collection with `values` under each key. -/
def keyedTx (values : List UInt8 → List (List UInt8)) : TransactionState Nat :=
  ⟨fun _ => .keyed values⟩

/-- `String`: the template the macro was compiled from. -/
def Macro.string (m : Macro V) : List UInt8 := m.original

/-- `IsExpandable`: whether the macro has more than one token. -/
def Macro.isExpandable (m : Macro V) : Bool := 1 < m.tokens.length

/-- `String` gives back the template `NewMacro` compiled. -/
theorem string_newMacro {T : VariableTable V} {s : List UInt8} {m : Macro V}
    (h : newMacro T s = .ok m) : m.string = s := by
  unfold newMacro Macro.compile at h
  split_ifs at h
  cases hl : loop T s s.length ⟨⟨false, [], []⟩, 0⟩ <;> rw [hl] at h <;> cases h
  rfl

section Expand

variable [DecidableEq V]

/-- `expandToken`: the expansion of one token, with the warnings it logs. -/
def expandToken (T : VariableTable V) (tx : TransactionState V) (token : MacroToken V) :
    List UInt8 × List (KeyNotFound V) :=
  if token.var = T.unknown then (token.text, [])
  else
    match tx.collection token.var with
    | .keyed get =>
      match get token.key with
      | c :: _ => (c, [])
      | [] => (token.text, [⟨token.var, token.key⟩])
    | .single get => (get, [])
    | .other findAll =>
      match findAll with
      | c :: _ => (c, [])
      | [] => (token.text, [⟨token.var, token.key⟩])

/-- `Expand`: one token is expanded directly, several are expanded in order into a
`strings.Builder`. -/
def Macro.expand (T : VariableTable V) (m : Macro V) (tx : TransactionState V) :
    List UInt8 × List (KeyNotFound V) :=
  match m.tokens with
  | [token] => expandToken T tx token
  | tokens => tokens.foldl (fun res token =>
      (res.1 ++ (expandToken T tx token).1, res.2 ++ (expandToken T tx token).2)) ([], [])

variable {T : VariableTable V} {tx : TransactionState V}

/-- A token expands to its collection's value, or to its own text with a warning; a literal
token to its text. -/
theorem expandToken_eq (token : MacroToken V) :
    expandToken T tx token =
      if token.var = T.unknown then (token.text, [])
      else match (tx.collection token.var).lookup token.key with
        | some c => (c, [])
        | none => (token.text, [⟨token.var, token.key⟩]) := by
  unfold expandToken
  split_ifs
  · rfl
  · cases tx.collection token.var with
    | keyed get => cases hg : get token.key <;> simp [Collection.lookup, hg]
    | single get => rfl
    | other findAll => cases findAll <;> rfl

theorem foldl_expand (tokens : List (MacroToken V)) (acc : List UInt8 × List (KeyNotFound V)) :
    tokens.foldl (fun res token =>
      (res.1 ++ (expandToken T tx token).1, res.2 ++ (expandToken T tx token).2)) acc =
      (acc.1 ++ tokens.flatMap fun t => (expandToken T tx t).1,
        acc.2 ++ tokens.flatMap fun t => (expandToken T tx t).2) := by
  induction tokens generalizing acc with
  | nil => simp
  | cons t ts ih => simp [ih]

/-- **Both paths of `Expand` concatenate the token expansions.** -/
theorem expand_eq (m : Macro V) :
    m.expand T tx = (m.tokens.flatMap fun t => (expandToken T tx t).1,
      m.tokens.flatMap fun t => (expandToken T tx t).2) := by
  unfold Macro.expand
  split
  · next h => simp [h]
  · exact foldl_expand _ _

/-! ## Expanding a template of the language -/

/-- The value a reference body finds: its scope's collection looked up under the lowered key;
none for a scope that parses to `Unknown`, whose token is taken for a literal. -/
def referenceValue (T : VariableTable V) (tx : TransactionState V) (b : List UInt8) :
    Option (List UInt8) :=
  (T.parse (cut b).1).bind fun v =>
    if v = T.unknown then none else (tx.collection v).lookup (toLower (cut b).2)

/-- A template with every reference replaced by `value` of its body, or by `fallback` of its
body when that is none. -/
def Template.fill (value : List UInt8 → Option (List UInt8))
    (fallback : List UInt8 → List UInt8) (t : Template) : List UInt8 :=
  t.refs.flatMap (fun r => r.1 ++ (value r.2).getD (fallback r.2)) ++ t.last

theorem expandToken_reference {b : List UInt8} (hb : IsBody T b) :
    (referenceTokens T b).flatMap (fun t => (expandToken T tx t).1) =
      (referenceValue T tx b).getD b := by
  obtain ⟨v, hv⟩ := Option.isSome_iff_exists.mp hb.2.2.2
  by_cases hu : v = T.unknown
  · simp [referenceTokens, referenceValue, hv, hu, expandToken]
  · simp only [referenceTokens, referenceValue, hv, Option.toList_some, List.map_cons,
      List.map_nil, List.flatMap_cons, List.flatMap_nil, List.append_nil, Option.some_bind, hu,
      if_false, expandToken_eq]
    cases (tx.collection v).lookup (toLower (cut b).2) <;> rfl

/-- **Expansion of a template of the language**: every literal is kept and every reference is
replaced by what its collection holds, or by its body when that is nothing. -/
theorem expand_render {t : Template} (ht : t.WellFormed T) :
    (Macro.expand T ⟨t.render, t.tokens T⟩ tx).1 = t.fill (referenceValue T tx) id := by
  rw [expand_eq]
  exact flatMap_tokens (g := fun b => (referenceValue T tx b).getD b)
    (fun _ => by simp [expandToken, VariableTable.literal]) t
    fun r h => expandToken_reference (ht.1 r h).2

/-- The template `prefix %{tx.foo} suffix`. -/
def prefixSuffix : Template := ⟨[(bytes "prefix ", bytes "tx.foo")], bytes " suffix"⟩

theorem expand_render_prefixSuffix :
    prefixSuffix.WellFormed txTable ∧
      (Macro.expand txTable ⟨prefixSuffix.render, prefixSuffix.tokens txTable⟩
        (keyedTx fun _ => [])).1 =
        prefixSuffix.fill (referenceValue txTable (keyedTx fun _ => [])) id :=
  ⟨by decide, expand_render (by decide)⟩

/-- **One warning for each reference token that finds nothing**, in the order of the tokens. -/
theorem expand_warnings (m : Macro V) :
    (m.expand T tx).2 = m.tokens.filterMap fun tok =>
      if tok.var ≠ T.unknown ∧ (tx.collection tok.var).lookup tok.key = none then
        some ⟨tok.var, tok.key⟩ else none := by
  rw [expand_eq]
  dsimp only
  induction m.tokens with
  | nil => rfl
  | cons tok toks ih =>
    rw [List.flatMap_cons, ih, List.filterMap_cons, expandToken_eq]
    by_cases hu : tok.var = T.unknown
    · simp [hu]
    · cases (tx.collection tok.var).lookup tok.key <;> simp [hu]

end Expand

/-! ## The fallback loses the braces -/

/-- `prefix %{tx.foo} suffix` expands to `prefix tx.foo suffix`, with a warning, when `tx.foo`
is unset, and to `prefix bar suffix` when it is `bar`. -/
theorem expand_unset_key :
    (fun m => m.expand txTable (keyedTx fun _ => [])) <$>
        newMacro txTable (bytes "prefix %\x7btx.foo\x7d suffix") =
      .ok (bytes "prefix tx.foo suffix", [⟨1, bytes "foo"⟩]) ∧
    (fun m => (m.expand txTable (keyedTx fun k => if k = bytes "foo" then [bytes "bar"] else [])).1)
        <$> newMacro txTable (bytes "prefix %\x7btx.foo\x7d suffix") =
      .ok (bytes "prefix bar suffix") :=
  ⟨rfl, rfl⟩

/-- The macro of the template `%{tx.foo}` is one reference to `TX`, and it is not
expandable. -/
theorem isExpandable_single_reference :
    (fun m => (m.isExpandable, m.tokens.map (·.var))) <$>
        newMacro txTable (bytes "%\x7btx.foo\x7d") =
      .ok (false, [1]) :=
  rfl

/-- **A macro that is one reference is never expandable**, although its one token is a reference
to a variable, when the reference's scope name does not parse to `Unknown`. -/
theorem isExpandable_reference {T : VariableTable V} {b : List UInt8} (hb : IsBody T b)
    (hT : KnownScopes T (reference b)) :
    ∃ m, newMacro T (reference b) = .ok m ∧ m.isExpandable = false ∧
      ∃ tok, m.tokens = [tok] ∧ tok.var ≠ T.unknown := by
  obtain ⟨v, hv⟩ := Option.isSome_iff_exists.mp hb.2.2.2
  have ht : Template.WellFormed T ⟨[([], b)], []⟩ := ⟨by simp [IsLiteral.nil, hb], IsLiteral.nil⟩
  have hr : Template.render ⟨[([], b)], []⟩ = reference b := by simp [Template.render]
  have htok : Template.tokens T ⟨[([], b)], []⟩ = [⟨b, v, toLower (cut b).2⟩] := by
    simp [Template.tokens, referenceTokens, hv, literalTokens]
  refine ⟨⟨reference b, [⟨b, v, toLower (cut b).2⟩]⟩, ?_, rfl, _, rfl,
    hT b (List.infix_refl _) hb.2.1 v hv⟩
  rw [newMacro, if_neg (by simp [reference]), ← hr, compile_render ht (by simp [hr, reference]),
    htok]

theorem isExpandable_reference_txFoo :
    IsBody txTable (bytes "tx.foo") ∧ KnownScopes txTable (reference (bytes "tx.foo")) ∧
      ∃ m, newMacro txTable (reference (bytes "tx.foo")) = .ok m ∧ m.isExpandable = false ∧
        ∃ tok, m.tokens = [tok] ∧ tok.var ≠ txTable.unknown :=
  ⟨by decide, .of_ne_unknown txTable_parse_ne_unknown _,
    isExpandable_reference (by decide) (.of_ne_unknown txTable_parse_ne_unknown _)⟩

end SecLang
