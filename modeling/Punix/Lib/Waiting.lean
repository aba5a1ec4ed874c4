import Punix.Lib.Machine

/-!
Waiting in a queue that is served from its front. While something waits, the holders
that follow each other are those that were before it in the queue, in their order, so
that there are no more of them than places before it.
-/

namespace Punix.Lib.Machine

variable {σ ε α : Type*} {m : Machine σ ε} {guard : σ → ε → Prop} {holder : σ → Option α}
  {queue : σ → List α} {x : α}

section Handed

variable [DecidableEq α]

/-- The new holder, if there is one. -/
def handed (old new : Option α) : List (Option α) := if new = old then [] else [new]

theorem handed_same (old : Option α) : handed old old = [] := if_pos rfl

/-- At most the new holder is handed to. -/
theorem handed_sublist (old new : Option α) : (handed old new).Sublist [new] := by
  unfold handed
  split
  · exact List.nil_sublist _
  · exact List.Sublist.refl _

/-- A run in which `x` does not become the holder, with the holders that follow the first one. -/
inductive Waits (m : Machine σ ε) (guard : σ → ε → Prop) (holder : σ → Option α) (x : α) :
    σ → List (Option α) → σ → Prop
  | refl (s : σ) : Waits m guard holder x s [] s
  | tail {s s' s'' : σ} {e : ε} {served : List (Option α)} :
      Waits m guard holder x s served s' → guard s' e → m.step s' e s'' → holder s'' ≠ some x →
        Waits m guard holder x s (served ++ handed (holder s') (holder s'')) s''

/-- From `s` to `s'` the queue loses what is at its front, in front of `x`, and gets more at its
end. Who becomes the holder has been at the front. -/
def Serves (holder : σ → Option α) (queue : σ → List α) (x : α) (s s' : σ) : Prop :=
  ∀ before behind, queue s = before ++ x :: behind → holder s' ≠ some x →
    ∃ taken rest new, before = taken ++ rest ∧ queue s' = rest ++ x :: (behind ++ new) ∧
      (handed (holder s) (holder s')).Sublist (taken.map some)

/-- Nobody is served before `x` that was not in front of it. -/
theorem Waits.served (inv : σ → Prop) {s s' : σ} {before behind : List α}
    {served : List (Option α)} (hrun : Waits m guard holder x s served s') (hinv : inv s)
    (hstep : ∀ s e s', inv s → guard s e → m.step s e s' → inv s' ∧ Serves holder queue x s s')
    (hqueue : queue s = before ++ x :: behind) :
    inv s' ∧ ∃ taken rest new, before = taken ++ rest ∧
      queue s' = rest ++ x :: (behind ++ new) ∧ served.Sublist (taken.map some) := by
  induction hrun with
  | refl => exact ⟨hinv, [], before, [], rfl, by rw [List.append_nil, hqueue], List.nil_sublist _⟩
  | tail _ hguard hs hholder ih =>
      obtain ⟨hinv', taken, rest, new, hbefore, hqueue', hserved⟩ := ih
      obtain ⟨hinv'', hserves⟩ := hstep _ _ _ hinv' hguard hs
      obtain ⟨taken', rest', new', hrest, hqueue'', hhanded⟩ := hserves _ _ hqueue' hholder
      refine ⟨hinv'', taken ++ taken', rest', new ++ new', ?_, ?_, ?_⟩
      · rw [hbefore, hrest, List.append_assoc]
      · rw [hqueue'', List.append_assoc]
      · rw [List.map_append]
        exact hserved.append hhanded

end Handed

end Punix.Lib.Machine
