import Mathlib.Tactic

/-!
Transition systems whose steps carry a label. A run may be restricted by a
guard on the state before a step and its label: the invariant rule below then
asks for preservation under guarded steps only. Nothing here refers to a
particular system.
-/

namespace Punix.Lib

/-- A labelled transition system. `step s e s'` is one step from `s` to `s'`
that is labelled by the event `e`. -/
structure Machine (σ ε : Type*) where
  init : σ → Prop
  step : σ → ε → σ → Prop

namespace Machine

variable {σ ε : Type*} {m : Machine σ ε}

/-- The states of all runs whose every step satisfies `guard`, which sees the
state before the step and the label of the step. -/
inductive Reaches (m : Machine σ ε) (guard : σ → ε → Prop) : σ → Prop
  | init {s : σ} : m.init s → Reaches m guard s
  | step {s s' : σ} {e : ε} :
      Reaches m guard s → guard s e → m.step s e s' → Reaches m guard s'

/-- The states of all runs. -/
abbrev Reachable (m : Machine σ ε) : σ → Prop := m.Reaches fun _ _ => True

/-- A property of the initial states that every guarded step preserves holds
in every state of every guarded run. -/
theorem Reaches.invariant {guard : σ → ε → Prop} {inv : σ → Prop} {s : σ}
    (hreach : m.Reaches guard s) (hinit : ∀ s, m.init s → inv s)
    (hstep : ∀ s e s', inv s → guard s e → m.step s e s' → inv s') : inv s := by
  induction hreach with
  | init h => exact hinit _ h
  | step _ hguard hs ih => exact hstep _ _ _ ih hguard hs

/-- A weaker guard admits at least the same runs. -/
theorem Reaches.mono {guard guard' : σ → ε → Prop} {s : σ}
    (hreach : m.Reaches guard s) (hweak : ∀ s e, guard s e → guard' s e) :
    m.Reaches guard' s := by
  induction hreach with
  | init h => exact .init h
  | step _ hguard hs ih => exact .step ih (hweak _ _ hguard) hs

/-- A finite sequence of steps that all satisfy `guard`. -/
inductive Runs (m : Machine σ ε) (guard : σ → ε → Prop) : σ → σ → Prop
  | refl (s : σ) : Runs m guard s s
  | tail {s s' s'' : σ} {e : ε} :
      Runs m guard s s' → guard s' e → m.step s' e s'' → Runs m guard s s''

theorem Runs.single {guard : σ → ε → Prop} {s s' : σ} {e : ε} (hguard : guard s e)
    (hs : m.step s e s') : m.Runs guard s s' := .tail (.refl s) hguard hs

theorem Runs.mono {guard guard' : σ → ε → Prop} {s s' : σ} (hrun : m.Runs guard s s')
    (hweak : ∀ s e, guard s e → guard' s e) : m.Runs guard' s s' := by
  induction hrun with
  | refl => exact .refl _
  | tail _ hguard hs ih => exact .tail ih (hweak _ _ hguard) hs

theorem Runs.trans {guard : σ → ε → Prop} {s s' s'' : σ} (hfirst : m.Runs guard s s')
    (hrest : m.Runs guard s' s'') : m.Runs guard s s'' := by
  induction hrest with
  | refl => exact hfirst
  | tail _ hguard hs ih => exact .tail ih hguard hs

theorem Reaches.runs {guard : σ → ε → Prop} {s s' : σ} (hreach : m.Reaches guard s)
    (hrun : m.Runs guard s s') : m.Reaches guard s' := by
  induction hrun with
  | refl => exact hreach
  | tail _ hguard hs ih => exact .step ih hguard hs

/-- Forward simulation: when every guarded step of `m` is matched by guarded
steps of `m'`, guarded runs of `m` are related to guarded runs of `m'`. -/
theorem Reaches.simulation {τ δ : Type*} {m' : Machine τ δ} {rel : σ → τ → Prop}
    {guard : σ → ε → Prop} {guard' : τ → δ → Prop} {s : σ} (hreach : m.Reaches guard s)
    (hinit : ∀ s, m.init s → ∃ t, m'.init t ∧ rel s t)
    (hstep : ∀ s t e s', m'.Reaches guard' t → rel s t → guard s e → m.step s e s' →
      ∃ t', m'.Runs guard' t t' ∧ rel s' t') :
    ∃ t, m'.Reaches guard' t ∧ rel s t := by
  induction hreach with
  | init h =>
      obtain ⟨t, ht, hrel⟩ := hinit _ h
      exact ⟨t, .init ht, hrel⟩
  | step _ hguard hs ih =>
      obtain ⟨t, ht, hrel⟩ := ih
      obtain ⟨t', hrun, hrel'⟩ := hstep _ t _ _ ht hrel hguard hs
      exact ⟨t', ht.runs hrun, hrel'⟩

/-- Runs a list of events, each of them guarded. -/
def execAll (exec : σ → ε → Option σ) (guard : σ → ε → Prop) [∀ s e, Decidable (guard s e)] :
    List ε → σ → Option σ
  | [], s => some s
  | e :: es, s => if guard s e then (exec s e).bind (execAll exec guard es) else none

/-- What executable steps reach is reached. -/
theorem Reaches.execAll {exec : σ → ε → Option σ} {guard : σ → ε → Prop}
    [∀ s e, Decidable (guard s e)] (hexec : ∀ {s e s'}, exec s e = some s' → m.step s e s')
    {es : List ε} {s s' : σ} (hreach : m.Reaches guard s)
    (hrun : execAll exec guard es s = some s') : m.Reaches guard s' := by
  induction es generalizing s with
  | nil => exact Option.some.inj hrun ▸ hreach
  | cons e es ih =>
      rw [Machine.execAll] at hrun
      split at hrun
      · next hguard =>
          obtain ⟨s₁, hfirst, hrest⟩ := Option.bind_eq_some_iff.mp hrun
          exact ih (hreach.step hguard (hexec hfirst)) hrest
      · cases hrun

end Machine

end Punix.Lib
