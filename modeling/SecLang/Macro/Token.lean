import SecLang.Go

/-!
# Macro tokens and the byte strings they are read from

`macro.compile` reads a Go `string`, a `List UInt8` here.  A compiled macro is a list of
`macroToken`s: a literal span carries the variable `variables.Unknown` and an empty key, a
reference carries the variable its scope name parses to and the lowered key.

The `variables` package is not part of the repository.  What the compiler uses of it is the
placeholder `Unknown` and `Parse`, and both are a parameter here: a `VariableTable`.

This file also holds the Go primitives the compiler calls on bytes:

* `byteAt`: indexing `input[j]`, with Go's runtime panic outside `[0, len)`;
* `cut`: `strings.Cut(s, ".")`;
* `toLower`: `strings.ToLower` on the ASCII bytes a reference may hold;
* `isValidMacroChar`: the bytes allowed inside `%{...}`.
-/

namespace SecLang

/-- What the compiler reads of the `variables` package, over a type `V` of rule variables:
the placeholder `Unknown` that literal tokens carry, and `Parse`, which looks a scope name up
in the variable table. -/
structure VariableTable (V : Type) where
  unknown : V
  parse : List UInt8 → Option V

variable {V : Type}

/-- `macroToken`: the token's text, its variable, and the key looked up in the variable's
collection. -/
structure MacroToken (V : Type) where
  text : List UInt8
  var : V
  key : List UInt8
  deriving DecidableEq, Repr

/-- The errors `NewMacro` and `compile` return, and the runtime panic of a read outside the
input. -/
inductive MacroError where
  /-- `errEmptyData`, "empty data". -/
  | emptyData
  /-- "empty macro". -/
  | emptyMacro
  /-- "empty variable name": the reference ends in `.`. -/
  | emptyVariableName
  /-- "unknown variable %q", with the scope name. -/
  | unknownVariable (varName : List UInt8)
  /-- "malformed variable starting with %q", with `%{` and the body read so far. -/
  | malformedVariable (start : List UInt8)
  /-- "malformed variable: no closing braces". -/
  | noClosingBraces
  /-- Go's panic `index out of range`, raised rather than returned. -/
  | indexOutOfRange
  deriving DecidableEq, Repr

/-- `macro`: the template it was compiled from and its tokens. -/
structure Macro (V : Type) where
  original : List UInt8
  tokens : List (MacroToken V)
  deriving DecidableEq, Repr

/-- The literal token of a span: `variables.Unknown` and no key. -/
def VariableTable.literal (T : VariableTable V) (text : List UInt8) : MacroToken V :=
  ⟨text, T.unknown, []⟩

/-! ## Go primitives on bytes -/

/-- Go's `input[j]`: the byte at `j`, and a panic when `j` is outside `[0, len(input))`. -/
def byteAt (input : List UInt8) (j : Int) : Except MacroError UInt8 :=
  if 0 ≤ j then (input[j.toNat]?).elim (.error .indexOutOfRange) .ok
  else .error .indexOutOfRange

theorem byteAt_of_lt {input : List UInt8} {i : Nat} (h : i < input.length) :
    byteAt input i = .ok input[i] := by
  simp [byteAt, h, Int.ofNat_nonneg]

theorem byteAt_sub_one_of_pos {input : List UInt8} {i : Nat} (h0 : 0 < i)
    (h : i ≤ input.length) : byteAt input (i - 1 : Int) = .ok input[i - 1] := by
  have : ((i : Int) - 1).toNat = i - 1 := by omega
  simp only [byteAt, this, List.getElem?_eq_getElem (by omega : i - 1 < input.length)]
  simp; omega

theorem byteAt_zero_sub_one (input : List UInt8) :
    byteAt input ((0 : Nat) - 1 : Int) = .error .indexOutOfRange := rfl

/-- `strings.Cut(s, ".")`: the bytes before the first `.` and the bytes after it; the second
part is empty when there is no `.`. -/
def cut : List UInt8 → List UInt8 × List UInt8
  | [] => ([], [])
  | c :: s => if c = '.'.toUInt8 then ([], s) else ((c :: (cut s).1), (cut s).2)

/-- `strings.ToLower` on ASCII bytes, the only bytes a key can hold: `A`–`Z` are lowered and
every other byte is kept. -/
def toLower (s : List UInt8) : List UInt8 :=
  s.map fun c => if 'A'.toUInt8 ≤ c ∧ c ≤ 'Z'.toUInt8 then c + 32 else c

/-- `isValidMacroChar`: `[`, `]`, `.`, `_`, `-`, digits and ASCII letters. -/
def isValidMacroChar (c : UInt8) : Bool :=
  c = '['.toUInt8 || c = ']'.toUInt8 || c = '.'.toUInt8 || c = '_'.toUInt8 || c = '-'.toUInt8 ||
    ('0'.toUInt8 ≤ c && c ≤ '9'.toUInt8) || ('A'.toUInt8 ≤ c && c ≤ 'Z'.toUInt8) ||
    ('a'.toUInt8 ≤ c && c ≤ 'z'.toUInt8)

/-- The bytes that delimit a reference are not valid inside one. -/
@[simp] theorem isValidMacroChar_percent : isValidMacroChar '%'.toUInt8 = false := by decide

@[simp] theorem isValidMacroChar_lbrace : isValidMacroChar '{'.toUInt8 = false := by decide

@[simp] theorem isValidMacroChar_rbrace : isValidMacroChar '}'.toUInt8 = false := by decide

end SecLang
