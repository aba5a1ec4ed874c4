import Mathlib.Tactic

/-!
Loops that count down to zero, with the test before the body or behind it. The body sees
the counter. An invariant is a property of the number of rounds that are left and of the
state.
-/

namespace Punix.Lib

variable {σ τ : Type*} {body : Nat → σ → σ} {n : Nat} {s : σ}

/-- `for (i = n - 1; i >= 0; i--)`. -/
def countDown (body : Nat → σ → σ) : Nat → σ → σ
  | 0, s => s
  | n + 1, s => countDown body n (body n s)

/-- `i = n; do … while (i--)`. -/
def doCountDown (body : Nat → σ → σ) : Nat → σ → σ
  | 0, s => body 0 s
  | n + 1, s => doCountDown body n (body (n + 1) s)

/-- With the test behind the body there is one round more. -/
theorem doCountDown_eq (body : Nat → σ → σ) (n : Nat) (s : σ) :
    doCountDown body n s = countDown body (n + 1) s := by
  induction n generalizing s with
  | zero => rfl
  | succ n ih =>
      rw [doCountDown, ih]
      rfl

theorem countDown_rule (inv : Nat → σ → Prop) (hinit : inv n s)
    (hstep : ∀ i s, i < n → inv (i + 1) s → inv i (body i s)) : inv 0 (countDown body n s) := by
  induction n generalizing s with
  | zero => exact hinit
  | succ n ih =>
      apply ih
      · exact hstep n s n.lt_succ_self hinit
      · intro i s hi
        exact hstep i s (hi.trans n.lt_succ_self)

/-- A loop that keeps only a part of the state of another one. -/
theorem countDown_map {body' : Nat → τ → τ} (f : σ → τ)
    (h : ∀ i s, f (body i s) = body' i (f s)) (n : Nat) (s : σ) :
    f (countDown body n s) = countDown body' n (f s) := by
  induction n generalizing s with
  | zero => rfl
  | succ n ih => rw [countDown, ih, h, countDown]

end Punix.Lib
