import Mathlib.Tactic

/-!
Copying cell by cell between places that are given one after the other, in whatever order
and however far apart.
-/

namespace Punix.Lib

variable {α β : Type*} [DecidableEq α]

/-- Stores to `dst 0`, `dst 1`, … what is then in `src 0`, `src 1`, …. -/
def transfer (dst src : Nat → α) (f : α → β) : Nat → α → β
  | 0 => f
  | n + 1 =>
      let f := transfer dst src f n
      Function.update f (dst n) (f (src n))

variable {dst src : Nat → α} {f : α → β} {n : Nat} {a : α}

end Punix.Lib
