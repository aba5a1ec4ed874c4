import Mathlib.Tactic

/-!
Tables of two levels that share one store of pages: the entries of a root lead to pages,
and the entries of a page to values. A key is a number whose quotient selects the entry of
the root and whose remainder that of the page. As long as no page is entered twice, a
write to one page is a write at one key.
-/

namespace Punix.Lib

/-- The root, and all pages that there are. -/
structure TwoLevel (τ β : Type*) where
  root : Nat → Option τ
  page : τ → Nat → Option β

namespace TwoLevel

variable {τ β : Type*} {t : TwoLevel τ β} {f g : τ} {i n : Nat}

/-- The value at a key, with `n` entries in a page. -/
def find (t : TwoLevel τ β) (n key : Nat) : Option β :=
  (t.root (key / n)).bind fun f => t.page f (key % n)

/-- No page is entered twice. -/
def Distinct (t : TwoLevel τ β) : Prop :=
  ∀ i j f, t.root i = some f → t.root j = some f → i = j

/-- The page is not entered. -/
def Unused (t : TwoLevel τ β) (f : τ) : Prop := ∀ i, t.root i ≠ some f

section Operations

variable [DecidableEq τ]

/-- Enters an empty page. -/
def attach (t : TwoLevel τ β) (i : Nat) (f : τ) : TwoLevel τ β where
  root := Function.update t.root i (some f)
  page := Function.update t.page f fun _ => none

/-- Writes an entry of a page. -/
def store (t : TwoLevel τ β) (f : τ) (k : Nat) (v : Option β) : TwoLevel τ β where
  root := t.root
  page := Function.update t.page f (Function.update (t.page f) k v)

theorem root_attach (t : TwoLevel τ β) (i : Nat) (f : τ) (j : Nat) :
    (t.attach i f).root j = if j = i then some f else t.root j :=
  Function.update_apply _ _ _ _

@[simp] theorem root_store (t : TwoLevel τ β) (f : τ) (k : Nat) (v : Option β) :
    (t.store f k v).root = t.root := rfl

/-- An empty page where there was none changes no value. -/
theorem find_attach (hi : t.root i = none) (hf : t.Unused f) (key : Nat) :
    (t.attach i f).find n key = t.find n key := by
  unfold find
  rw [root_attach]
  by_cases hkey : key / n = i
  · rw [if_pos hkey, hkey, hi]
    simp [attach]
  · rw [if_neg hkey]
    cases hroot : t.root (key / n) with
    | none => rfl
    | some g =>
        have hne : g ≠ f := by
          rintro rfl
          exact hf _ hroot
        simp [attach, hne]

theorem Distinct.attach (h : t.Distinct) (hf : t.Unused f) (i : Nat) : (t.attach i f).Distinct := by
  intro j l g hj hl
  rw [root_attach] at hj hl
  split at hj
  · next hji =>
      obtain rfl := Option.some.inj hj
      split at hl
      · next hli => rw [hji, hli]
      · exact absurd hl (hf l)
  · split at hl
    · obtain rfl := Option.some.inj hl
      exact absurd hj (hf j)
    · exact h j l g hj hl

theorem Unused.attach (h : t.Unused g) (hne : g ≠ f) (i : Nat) : (t.attach i f).Unused g := by
  intro j hj
  rw [root_attach] at hj
  split at hj
  · exact hne (Option.some.inj hj).symm
  · exact h j hj

/-- A write to a page that is entered once is a write at one key. -/
theorem find_store (h : t.Distinct) {key : Nat} (hf : t.root (key / n) = some f) (v : Option β) :
    (t.store f (key % n) v).find n = Function.update (t.find n) key v := by
  funext q
  rw [Function.update_apply]
  unfold find
  rw [root_store]
  by_cases hq : q = key
  · rw [if_pos hq, hq, hf]
    simp [store]
  · rw [if_neg hq]
    cases hroot : t.root (q / n) with
    | none => rfl
    | some g =>
        rw [Option.bind_some, Option.bind_some]
        by_cases hg : g = f
        · -- the same page, so another entry of it
          subst hg
          have hdiv := h _ _ _ hroot hf
          have hmod : q % n ≠ key % n := by
            intro heq
            apply hq
            rw [← Nat.div_add_mod q n, ← Nat.div_add_mod key n, hdiv, heq]
          simp [store, hmod]
        · simp [store, hg]

end Operations

/-- `n` values in a row, and outside of these what `g` has. -/
def overlay (g : Nat → Option β) (start : Nat) (v : Nat → Option β) (n key : Nat) : Option β :=
  if start ≤ key ∧ key < start + n then v (key - start) else g key

@[simp] theorem overlay_zero (g : Nat → Option β) (start : Nat) (v : Nat → Option β) :
    overlay g start v 0 = g := by
  funext key
  rw [overlay, if_neg (by omega)]

/-- The first value of a row may be written before the others. -/
theorem overlay_succ (g : Nat → Option β) (start : Nat) (v : Nat → Option β) (n : Nat) :
    overlay g start v (n + 1) =
      overlay (Function.update g start (v 0)) (start + 1) (fun i => v (i + 1)) n := by
  funext key
  unfold overlay
  rcases Nat.lt_trichotomy key start with hlt | rfl | hgt
  · rw [if_neg (by omega), if_neg (by omega), Function.update_of_ne (by omega)]
  · rw [if_pos (by omega), if_neg (by omega), Function.update_self, Nat.sub_self]
  · rw [Function.update_of_ne (by omega)]
    have hsub : key - (start + 1) + 1 = key - start := by omega
    dsimp only
    rw [hsub]
    exact if_congr (by omega) rfl rfl

end TwoLevel

end Punix.Lib
