import Mathlib.Tactic

/-!
Split ownership of a set of resources: some are on a list of free ones, the
others are held by a holder each. `Owned` says that the two halves neither
overlap nor lose a resource; taking from the list and giving back to it are the
two moves that keep it.
-/

namespace Punix.Lib

variable {α β : Type*}

/-- Every resource is either on `free`, once, or held by exactly one holder. -/
structure Owned (free : List α) (held : β → Option α) : Prop where
  nodup : free.Nodup
  mem_free_iff : ∀ a, a ∈ free ↔ ∀ b, held b ≠ some a
  holder_unique : ∀ {a b b'}, held b = some a → held b' = some a → b = b'

namespace Owned

variable {free : List α} {held : β → Option α} {a : α} {b : β}

theorem notMem_free (h : Owned free held) (hb : held b = some a) : a ∉ free :=
  fun hmem => (h.mem_free_iff a).mp hmem b hb

/-- The resources, counted: each is on the list once and held by nobody, or
not on the list and held by one holder. -/
theorem count_or [BEq α] [LawfulBEq α] (h : Owned free held) (a : α) :
    (free.count a = 1 ∧ ∀ b, held b ≠ some a) ∨ (a ∉ free ∧ ∃! b, held b = some a) := by
  by_cases hmem : a ∈ free
  · exact .inl ⟨List.count_eq_one_of_mem h.nodup hmem, (h.mem_free_iff a).mp hmem⟩
  · refine .inr ⟨hmem, ?_⟩
    rw [h.mem_free_iff] at hmem
    push Not at hmem
    obtain ⟨b, hb⟩ := hmem
    exact ⟨b, hb, fun b' hb' => h.holder_unique hb' hb⟩

theorem length_le [Fintype α] (h : Owned free held) : free.length ≤ Fintype.card α :=
  h.nodup.length_le_card

/-- While something is held the list is not full. -/
theorem length_lt [Fintype α] (h : Owned free held) (hb : held b = some a) :
    free.length < Fintype.card α := by
  have hnodup : (a :: free).Nodup := List.nodup_cons.mpr ⟨h.notMem_free hb, h.nodup⟩
  simpa using hnodup.length_le_card

/-- The length of the list is the number of resources nobody holds. -/
theorem length_eq_card [Fintype α] [DecidableEq α]
    [DecidablePred fun a => ∀ b, held b ≠ some a] (h : Owned free held) :
    free.length = (Finset.univ.filter fun a => ∀ b, held b ≠ some a).card := by
  rw [← List.toFinset_card_of_nodup h.nodup]
  congr 1
  ext a
  simp [h.mem_free_iff a]

/-- The order of the list does not matter. -/
theorem perm {free' : List α} (h : Owned free held) (hperm : free.Perm free') :
    Owned free' held where
  nodup := hperm.nodup_iff.mp h.nodup
  mem_free_iff a := (hperm.mem_iff.symm).trans (h.mem_free_iff a)
  holder_unique := h.holder_unique

/-- A free resource that nobody takes goes to the end of the list. -/
theorem rotate (h : Owned (a :: free) held) : Owned (free ++ [a]) held :=
  h.perm (List.perm_append_singleton a free).symm

section Moves

variable [DecidableEq β]

/-- The first free resource goes to a holder that holds nothing. -/
theorem take (h : Owned (a :: free) held) (hb : held b = none) :
    Owned free (Function.update held b (some a)) where
  nodup := (List.nodup_cons.mp h.nodup).2
  mem_free_iff x := by
    have hcons := h.mem_free_iff x
    have hnot : a ∉ free := (List.nodup_cons.mp h.nodup).1
    constructor
    · intro hx b'
      have hold := hcons.mp (List.mem_cons_of_mem a hx) b'
      by_cases hb' : b' = b
      · subst hb'
        have hne : a ≠ x := fun heq => hnot (heq ▸ hx)
        simpa using hne
      · simpa [hb'] using hold
    · intro hx
      have hne : x ≠ a := by
        rintro rfl
        simpa using hx b
      have hold : ∀ b', held b' ≠ some x := by
        intro b'
        by_cases hb' : b' = b
        · simp [hb', hb]
        · simpa [hb'] using hx b'
      simpa [hne] using hcons.mpr hold
  holder_unique := by
    intro x b₁ b₂ h₁ h₂
    have ha : ∀ b', held b' ≠ some a := (h.mem_free_iff a).mp (by simp)
    by_cases hb₁ : b₁ = b <;> by_cases hb₂ : b₂ = b
    · rw [hb₁, hb₂]
    · subst hb₁
      obtain rfl : a = x := by simpa using h₁
      exact absurd (by simpa [hb₂] using h₂) (ha b₂)
    · subst hb₂
      obtain rfl : a = x := by simpa using h₂
      exact absurd (by simpa [hb₁] using h₁) (ha b₁)
    · exact h.holder_unique (by simpa [hb₁] using h₁) (by simpa [hb₂] using h₂)

/-- A holder gives its resource back. -/
theorem give (h : Owned free held) (hb : held b = some a) :
    Owned (free ++ [a]) (Function.update held b none) where
  nodup := by
    rw [List.nodup_append]
    refine ⟨h.nodup, List.nodup_singleton a, ?_⟩
    intro x hx y hy hxy
    rw [List.mem_singleton] at hy
    exact h.notMem_free hb (hy ▸ hxy ▸ hx)
  mem_free_iff x := by
    rw [List.mem_append, List.mem_singleton, h.mem_free_iff]
    constructor
    · rintro (hx | rfl) b'
      · by_cases hb' : b' = b
        · simp [hb']
        · simpa [hb'] using hx b'
      · by_cases hb' : b' = b
        · simp [hb']
        · simpa [hb'] using fun h' => hb' (h.holder_unique h' hb)
    · intro hx
      by_cases hxa : x = a
      · exact .inr hxa
      · refine .inl fun b' => ?_
        by_cases hb' : b' = b
        · simpa [hb', hb] using Ne.symm hxa
        · simpa [hb'] using hx b'
  holder_unique := by
    intro x b₁ b₂ h₁ h₂
    have hne₁ : b₁ ≠ b := by
      rintro rfl
      simp at h₁
    have hne₂ : b₂ ≠ b := by
      rintro rfl
      simp at h₂
    exact h.holder_unique (by simpa [hne₁] using h₁) (by simpa [hne₂] using h₂)

end Moves

end Owned

end Punix.Lib
