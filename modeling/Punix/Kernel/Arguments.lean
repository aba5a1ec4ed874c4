import Punix.Kernel.Exec

/-!
The arguments and the environment on the heap of a program that is started. Both
vectors, their pointers and their strings, take one block from the end of the image on,
and no byte outside of the block is written.
-/

namespace Punix

open Lib

theorem testBit_fifteen : ∀ i : Fin 32, (!(16 - 1 : BitVec 32)[i.1]) = !decide (i.1 < 4) := by
  decide

theorem alignUp_eq (x : BitVec 32) : alignUp x 16 = ((x + 15) >>> 4) <<< 4 := by
  have hsum : x + 16 - 1 = x + 15 := by bv_omega
  rw [alignUp, hsum]
  generalize x + 15 = y
  ext i hi
  rw [BitVec.getElem_and, BitVec.getElem_not, testBit_fifteen ⟨i, hi⟩, BitVec.getElem_shiftLeft]
  rcases Nat.lt_or_ge i 4 with hlow | hhigh
  · simp [hlow]
  · have hbit : 4 + (i - 4) = i := by omega
    simp [Nat.not_lt.mpr hhigh, hbit, BitVec.getLsbD_eq_getElem hi]

/-- The heap begins at the next multiple of 16. -/
theorem toNat_alignUp {x : BitVec 32} (h : x.toNat + 15 < 2 ^ 32) :
    (alignUp x 16).toNat = (x.toNat + 15) / 16 * 16 := by
  have hfifteen : (15 : BitVec 32).toNat = 15 := rfl
  rw [alignUp_eq, BitVec.toNat_shiftLeft, BitVec.toNat_ushiftRight, BitVec.toNat_add, hfifteen,
    Nat.shiftLeft_eq, Nat.shiftRight_eq_div_pow, Nat.mod_eq_of_lt h]
  omega

section Frame

variable {m m' : Mem} {argv envp brk x : BitVec 32}

theorem setWord_pointerAt {i used : Nat} (y : BitVec 32) (hi : 4 * (i + 1) ≤ used)
    (hx : used ≤ (x - brk).toNat) : m.setWord (pointerAt brk i) y x = m x := by
  apply Memory.fill_outside
  rw [pointerAt, Memory.toNat_sub_add (by omega)]
  omega

/-- The strings are copied behind the bytes that are taken. -/
theorem copyStrings_outside {n i used used' : Nat}
    (h : copyStrings argv brk n i used m = some (used', m')) (hroom : 4 * (i + n + 1) ≤ used) :
    used ≤ used' ∧ ∀ x, used' ≤ (x - brk).toNat → m' x = m x := by
  induction n generalizing i used m with
  | zero =>
      obtain ⟨rfl, rfl⟩ := Prod.mk.inj (Option.some.inj h)
      exact ⟨le_rfl, fun _ _ => rfl⟩
  | succ n ih =>
      obtain ⟨len, _, h⟩ := Option.bind_eq_some_iff.mp h
      obtain ⟨hle, hrest⟩ := ih h (by omega)
      refine ⟨by omega, fun x hx => ?_⟩
      rw [hrest x hx, setWord_pointerAt _ (show 4 * (i + 1) ≤ used by omega) (by omega)]
      apply Memory.copy_outside
      rw [Memory.toNat_sub_add (by omega)]
      omega

theorem initVector_outside {v : HeapVector} (h : initVector m brk argv = some v) :
    4 * (v.count + 1) ≤ v.used ∧ ∀ x, v.used ≤ (x - brk).toNat → v.mem x = m x := by
  obtain ⟨n, _, h⟩ := Option.bind_eq_some_iff.mp h
  obtain ⟨⟨used, m'⟩, hcopy, h⟩ := Option.bind_eq_some_iff.mp h
  obtain rfl := Option.some.inj h
  obtain ⟨hle, houtside⟩ := copyStrings_outside hcopy (by omega)
  refine ⟨hle, fun x hx => ?_⟩
  change m'.setWord (pointerAt brk n) 0 x = m x
  rw [setWord_pointerAt _ hle hx, houtside x hx]

/-- The loader finds neither `environ` nor `__curbrk`. -/
theorem elfLoad_offsets {image : List UInt8} {info : ElfInfo}
    (h : (elfLoad image m).2 = some info) : info.environOff = 0 ∧ info.curbrkOff = 0 := by
  unfold elfLoad at h
  split at h
  · cases h
  split at h
  · cases h
  · exact Option.some.inj h ▸ ⟨rfl, rfl⟩

theorem initHeap_outside {info : ElfInfo} {loaded : Loaded} (henviron : info.environOff = 0)
    (hcurbrk : info.curbrkOff = 0) (h : initHeap info m argv envp = some loaded) :
    ∀ x, loaded.used ≤ (x - loaded.programEnd).toNat → loaded.mem x = m x := by
  obtain ⟨args, hargs, h⟩ := Option.bind_eq_some_iff.mp h
  obtain ⟨env, henv, h⟩ := Option.bind_eq_some_iff.mp h
  obtain ⟨v, hv, henv⟩ := Option.bind_eq_some_iff.mp henv
  obtain rfl := Option.some.inj henv
  obtain rfl := Option.some.inj h
  rw [if_neg (not_not.mpr hcurbrk)] at hargs
  intro x hx
  change args.used + v.used ≤ (x - info.programEnd).toNat at hx
  change (if info.environOff ≠ 0 then _ else v.mem) x = m x
  rw [if_neg (not_not.mpr henviron), (initVector_outside hv).2 x, (initVector_outside hargs).2 x]
  · omega
  · rw [Memory.toNat_sub_add (by omega)]
    omega

end Frame

end Punix
