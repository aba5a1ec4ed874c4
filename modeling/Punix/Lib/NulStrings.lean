import Punix.Lib.Cells
import Punix.Lib.Memory

/-!
Strings in arrays of bytes, up to the first NUL. An access outside of an array
fails, and so does a loop that finds no NUL inside.
-/

namespace Punix.Lib.NulStrings

open Cells

/-- An array begins with these bytes. -/
def Begins (f : Nat → UInt8) (s : List UInt8) : Prop := ∀ i, (h : i < s.length) → f i = s[i]

/-- An array of `n` bytes begins with the text and a NUL. -/
structure Holds (n : Nat) (f : Nat → UInt8) (s : List UInt8) : Prop where
  char : Begins f s
  nul : f s.length = 0
  noNul : 0 ∉ s
  fits : s.length < n

/-- The number of bytes before the NUL. -/
def strlenIn (n : Nat) (f : Nat → UInt8) : Option Nat := scan (fun i => f i = 0) n 0

/-- The bytes before the NUL. -/
def textIn (n : Nat) (f : Nat → UInt8) : Option (List UInt8) :=
  (strlenIn n f).map fun k => (List.range k).map f

/-- Copies bytes from the `i`-th on, up to a NUL that is copied too. -/
def strcpyFrom (m n : Nat) (src : Nat → UInt8) : Nat → Nat → (Nat → UInt8) → Option (Nat → UInt8)
  | 0, _, _ => none
  | fuel + 1, i, dst => do
      let c ← loadIn n src i
      let dst ← storeIn m dst i c
      if c = 0 then some dst else strcpyFrom m n src fuel (i + 1) dst

/-- Copies a string from an array of `n` bytes to one of `m` bytes. -/
def strcpyIn (m : Nat) (dst : Nat → UInt8) (n : Nat) (src : Nat → UInt8) : Option (Nat → UInt8) :=
  strcpyFrom m n src n 0 dst

/-- Copies bytes to the places from `pos` on, as long as these are below `limit`. -/
def copyBelow (n limit : Nat) : List UInt8 → (Nat → UInt8) → Nat → Option ((Nat → UInt8) × Nat)
  | [], f, pos => some (f, pos)
  | c :: s, f, pos =>
      if pos < limit then do
        let f ← storeIn n f pos c
        copyBelow n limit s f (pos + 1)
      else some (f, pos)

section Holds

variable {m n limit : Nat} {f dst src : Nat → UInt8} {s written : List UInt8}

theorem Holds.ne_zero (h : Holds n f s) {i : Nat} (hi : i < s.length) : f i ≠ 0 := by
  intro hzero
  have hchar := h.char i hi
  exact h.noNul (by rw [← hzero, hchar]; exact List.getElem_mem hi)

theorem Holds.strlenIn (h : Holds n f s) : strlenIn n f = some s.length := by
  apply scan_eq_some (Nat.zero_le _)
  · simpa using h.fits
  · intro i _ hi
    exact decide_eq_false (h.ne_zero hi)
  · exact decide_eq_true h.nul

theorem Holds.textIn (h : Holds n f s) : textIn n f = some s := by
  rw [NulStrings.textIn, h.strlenIn, Option.map_some]
  congr 1
  apply List.ext_getElem
  · simp
  · intro i _ hi
    rw [List.getElem_map, List.getElem_range, h.char i hi]

/-- The string of an array is determined. -/
theorem Holds.unique {s' : List UInt8} (h : Holds n f s) (h' : Holds n f s') : s = s' :=
  Option.some.inj (h.textIn.symm.trans h'.textIn)

/-- Where there is a NUL there is a string, which does not go beyond it. -/
theorem exists_holds {k : Nat} (hk : k < n) (hnul : f k = 0) :
    ∃ s, Holds n f s ∧ s.length ≤ k := by
  induction k using Nat.strong_induction_on with
  | _ k ih =>
      rcases Classical.em (∃ j < k, f j = 0) with ⟨j, hj, hzero⟩ | hfirst
      · obtain ⟨s, hs, hle⟩ := ih j hj (hj.trans hk) hzero
        exact ⟨s, hs, hle.trans hj.le⟩
      · refine ⟨(List.range k).map f, ⟨?_, ?_, ?_, ?_⟩, ?_⟩
        · intro i hi
          simp
        · simpa using hnul
        · intro hmem
          obtain ⟨j, hj, hzero⟩ := List.mem_map.mp hmem
          exact hfirst ⟨j, List.mem_range.mp hj, hzero⟩
        · simpa using hk
        · simp

/-- Without a NUL before it, the string goes up to that NUL. -/
theorem Holds.length_eq (h : Holds n f s) {k : Nat} (hle : s.length ≤ k)
    (hbefore : ∀ i < k, f i ≠ 0) : s.length = k := by
  rcases hle.lt_or_eq with hlt | heq
  · exact absurd h.nul (hbefore _ hlt)
  · exact heq

theorem mapM_loadIn {k : Nat} (hk : k ≤ n) (f : Nat → UInt8) :
    (List.range k).mapM (loadIn n f) = some ((List.range k).map f) := by
  induction k with
  | zero => rfl
  | succ k ih =>
      have hload : loadIn n f k = some (f k) := if_pos hk
      rw [List.range_succ, List.mapM_append, ih (Nat.le_of_succ_le hk), List.map_append]
      simp [hload]

theorem Holds.strcpyFrom (h : Holds n src s) (hfits : s.length < m) {fuel i : Nat}
    (hi : i ≤ s.length) (hfuel : s.length < fuel + i) (hdone : ∀ j < i, dst j = src j) :
    ∃ dst', NulStrings.strcpyFrom m n src fuel i dst = some dst' ∧
      (∀ j ≤ s.length, dst' j = src j) ∧ ∀ j, s.length < j → dst' j = dst j := by
  induction fuel generalizing i dst with
  | zero => omega
  | succ fuel ih =>
      have hload : loadIn n src i = some (src i) := if_pos (hi.trans_lt h.fits)
      have hstore := storeIn_of_lt (f := dst) (x := src i) (hi.trans_lt hfits)
      have hnext : ∀ j < i + 1, Function.update dst i (src i) j = src j := by
        intro j hj
        rcases eq_or_ne j i with rfl | hne
        · exact Function.update_self _ _ _
        · rw [Function.update_of_ne hne, hdone j (by omega)]
      have hrest (j : Nat) (hj : s.length < j) : Function.update dst i (src i) j = dst j :=
        Function.update_of_ne (by omega) _ _
      rw [NulStrings.strcpyFrom, hload, Option.bind_eq_bind, Option.bind_some, hstore,
        Option.bind_eq_bind, Option.bind_some]
      rcases hi.lt_or_eq with hlt | rfl
      · rw [if_neg (h.ne_zero hlt)]
        obtain ⟨dst', hrun, hcopied, houtside⟩ := ih hlt (by omega) hnext
        exact ⟨dst', hrun, hcopied, fun j hj => (houtside j hj).trans (hrest j hj)⟩
      · rw [if_pos h.nul]
        exact ⟨_, rfl, fun j hj => hnext j (Nat.lt_succ_of_le hj), hrest⟩

/-- A copy holds the same string. Behind it nothing changes. -/
theorem Holds.strcpyIn (h : Holds n src s) (hfits : s.length < m) (dst : Nat → UInt8) :
    ∃ dst', strcpyIn m dst n src = some dst' ∧ Holds m dst' s ∧
      ∀ j, s.length < j → dst' j = dst j := by
  have hdone (j : Nat) (hj : j < 0) : dst j = src j := absurd hj (Nat.not_lt_zero j)
  obtain ⟨dst', hrun, hcopied, houtside⟩ := h.strcpyFrom hfits (Nat.zero_le _) h.fits hdone
  refine ⟨dst', hrun, ⟨?_, ?_, h.noNul, hfits⟩, houtside⟩
  · intro i hi
    rw [hcopied i hi.le, h.char i hi]
  · rw [hcopied _ le_rfl, h.nul]

theorem Begins.nil (f : Nat → UInt8) : Begins f [] := fun _ hi => absurd hi (Nat.not_lt_zero _)

/-- One byte more is stored. -/
theorem Begins.snoc (h : Begins f s) (c : UInt8) :
    Begins (Function.update f s.length c) (s ++ [c]) := by
  intro i hi
  rw [List.getElem_append]
  split
  · next hlt => rw [Function.update_of_ne hlt.ne, h i hlt]
  · next hge =>
      have heq : i = s.length := by
        rw [List.length_append, List.length_singleton] at hi
        omega
      subst heq
      simp

/-- What does not fit below the limit is cut off. -/
theorem Begins.copyBelow (h : Begins f written) (hlen : written.length ≤ limit)
    (hlimit : limit ≤ n) :
    ∃ f', copyBelow n limit s f written.length = some (f', ((written ++ s).take limit).length) ∧
      Begins f' ((written ++ s).take limit) := by
  induction s generalizing f written with
  | nil =>
      rw [List.append_nil, List.take_of_length_le hlen]
      exact ⟨f, rfl, h⟩
  | cons c s ih =>
      rw [NulStrings.copyBelow]
      split
      · next hlt =>
          obtain ⟨f', hrun, hbegins⟩ := ih (h.snoc c) (by simpa using hlt)
          rw [List.append_assoc, List.singleton_append, List.length_append,
            List.length_singleton] at hrun
          rw [List.append_assoc, List.singleton_append] at hbegins
          refine ⟨f', ?_, hbegins⟩
          rw [storeIn_of_lt (hlt.trans_le hlimit), Option.bind_eq_bind, Option.bind_some]
          exact hrun
      · next hge =>
          have hfull : (written ++ c :: s).take limit = written := by
            rw [← Nat.le_antisymm hlen (Nat.not_lt.mp hge), List.take_left]
          rw [hfull]
          exact ⟨f, rfl, h⟩

/-- A NUL is stored behind the bytes. -/
theorem Begins.holds (h : Begins f s) (hnul : 0 ∉ s) (hfits : s.length < n) :
    Holds n (Function.update f s.length 0) s where
  char i hi := by rw [Function.update_of_ne hi.ne, h i hi]
  nul := Function.update_self _ _ _
  noNul := hnul
  fits := hfits

end Holds

end Punix.Lib.NulStrings
