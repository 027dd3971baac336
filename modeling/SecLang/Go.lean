import Mathlib.Data.List.Infix

/-!
# Go values in the model

A Go `string` is a sequence of bytes that need not be UTF-8, and it is a `List UInt8` here;
`bytes` writes an ASCII literal as one.  A Go function that returns `(value, error)` is a
function into `Except`.  `ok_bind` and `error_bind` are the `if err != nil { return err }` of a
caller, read for a call that succeeded and for one that failed; `bind_eq_ok`, `map_eq_ok` and
`map_eq_error` read a caller's result back to the call it made.
-/

namespace SecLang

/-- An ASCII string literal as the bytes of a Go `string`. -/
def bytes (s : String) : List UInt8 := s.toList.map Char.toUInt8

/-- A call that returned no error hands its value on. -/
@[simp] theorem ok_bind {ε α β : Type} (x : α) (f : α → Except ε β) :
    (Except.ok x >>= f) = f x := rfl

/-- A call that returned an error returns it. -/
@[simp] theorem error_bind {ε α β : Type} (e : ε) (f : α → Except ε β) :
    (Except.error e >>= f) = .error e := rfl

/-- A call chain that returned a value had its first call return one. -/
theorem bind_eq_ok {ε α β : Type} {x : Except ε α} {f : α → Except ε β} {b : β}
    (h : x >>= f = .ok b) : ∃ a, x = .ok a ∧ f a = .ok b := by
  cases x with
  | error e => cases h
  | ok a => exact ⟨a, rfl, h⟩

theorem map_eq_ok {ε α β : Type} {x : Except ε α} {f : α → β} {b : β}
    (h : f <$> x = .ok b) : ∃ a, x = .ok a ∧ f a = b := by
  cases x with
  | error e => cases h
  | ok a => cases h; exact ⟨a, rfl, rfl⟩

theorem map_eq_error {ε α β : Type} {x : Except ε α} {f : α → β} {e : ε}
    (h : f <$> x = .error e) : x = .error e := by
  cases x with
  | error e' => cases h; rfl
  | ok a => cases h

end SecLang
