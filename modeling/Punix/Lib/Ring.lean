import Mathlib.Tactic

/-!
Rings addressed through a mask. Producer and consumer keep free-running 32-bit
counters and reduce them only when they index the storage, so `tail - head` is
the fill level even after either counter has wrapped modulo `2 ^ 32`. The
window of a ring is the list of the elements between its two counters; pushing
and popping are then appending to the list and removing its head.
-/

namespace Punix.Lib.Ring

variable {α : Type*} {size : Nat}

/-- Sizes that a counter of 32 bits can be masked to. -/
class PowTwo (size : Nat) : Prop where
  exists_pow : ∃ k < 32, size = 2 ^ k

instance [h : PowTwo size] : NeZero size where
  out := by
    obtain ⟨k, _, rfl⟩ := h.exists_pow
    positivity

theorem PowTwo.lt (size : Nat) [h : PowTwo size] : size < 2 ^ 32 := by
  obtain ⟨k, hk, rfl⟩ := h.exists_pow
  exact Nat.pow_lt_pow_right (by omega) hk

theorem PowTwo.dvd (size : Nat) [h : PowTwo size] : size ∣ 2 ^ 32 := by
  obtain ⟨k, hk, rfl⟩ := h.exists_pow
  exact pow_dvd_pow 2 hk.le

/-- `counter & (size - 1)`, the storage index that a counter stands for. -/
def maskIndex (size : Nat) [NeZero size] (counter : BitVec 32) : Fin size :=
  Fin.ofNat size (counter &&& BitVec.ofNat 32 (size - 1)).toNat

/-- Masking with a power of two less one is reduction modulo that power, so
the `Fin` in the result of `maskIndex` cuts nothing off. -/
theorem toNat_mask (size : Nat) [h : PowTwo size] (counter : BitVec 32) :
    (counter &&& BitVec.ofNat 32 (size - 1)).toNat = counter.toNat % size := by
  obtain ⟨k, hk, rfl⟩ := h.exists_pow
  have hpow : 2 ^ k < 2 ^ 32 := Nat.pow_lt_pow_right (by omega) hk
  rw [BitVec.toNat_and, BitVec.toNat_ofNat, Nat.mod_eq_of_lt (by omega),
    Nat.and_two_pow_sub_one_eq_mod]

@[simp] theorem maskIndex_val (size : Nat) [PowTwo size] (counter : BitVec 32) :
    (maskIndex size counter).val = counter.toNat % size := by
  change (counter &&& BitVec.ofNat 32 (size - 1)).toNat % size = _
  rw [toNat_mask, Nat.mod_mod]

/-- Counters less than a whole ring apart are masked to different indices. -/
theorem maskIndex_add_injective [PowTwo size] (head : BitVec 32) {i j : Nat}
    (hi : i < size) (hj : j < size)
    (h : maskIndex size (head + BitVec.ofNat 32 i) =
      maskIndex size (head + BitVec.ofNat 32 j)) : i = j := by
  have hlt := PowTwo.lt size
  have hval := congrArg Fin.val h
  have hstrip (n : Nat) (hn : n < size) :
      (head + BitVec.ofNat 32 n).toNat % size = (head.toNat + n) % size := by
    rw [BitVec.toNat_add, BitVec.toNat_ofNat, Nat.mod_eq_of_lt (a := n) (by omega),
      Nat.mod_mod_of_dvd _ (PowTwo.dvd size)]
  rw [maskIndex_val, maskIndex_val, hstrip i hi, hstrip j hj] at hval
  have hmod : i % size = j % size := Nat.ModEq.add_left_cancel' head.toNat hval
  rwa [Nat.mod_eq_of_lt hi, Nat.mod_eq_of_lt hj] at hmod

/-- The elements between the two counters, oldest first. -/
def window [NeZero size] (ring : Fin size → α) (head tail : BitVec 32) : List α :=
  (List.range (tail - head).toNat).map fun i =>
    ring (maskIndex size (head + BitVec.ofNat 32 i))

@[simp] theorem length_window [NeZero size] (ring : Fin size → α) (head tail : BitVec 32) :
    (window ring head tail).length = (tail - head).toNat := by
  simp [window]

@[simp] theorem window_self [NeZero size] (ring : Fin size → α) (head : BitVec 32) :
    window ring head head = [] := by
  simp [window]

/-- The fill level grows by one with the tail counter, also across its wrap. -/
theorem level_push {head tail : BitVec 32} (h : (tail - head).toNat < 2 ^ 32 - 1) :
    (tail + 1 - head).toNat = (tail - head).toNat + 1 := by
  bv_omega

/-- The fill level shrinks by one with the head counter, also across its wrap. -/
theorem level_pop {head tail : BitVec 32} (h : head ≠ tail) :
    (tail - (head + 1)).toNat + 1 = (tail - head).toNat := by
  bv_omega

private theorem tail_eq_head_add (head tail : BitVec 32) :
    tail = head + BitVec.ofNat 32 (tail - head).toNat := by
  rw [BitVec.ofNat_toNat, BitVec.setWidth_eq]
  bv_omega

/-- Storing at the tail index and advancing the tail appends to the window.
No element of the window is overwritten because the ring is not full. -/
theorem window_push [PowTwo size] (ring : Fin size → α) (head tail : BitVec 32) (x : α)
    (h : (tail - head).toNat < size) :
    window (Function.update ring (maskIndex size tail) x) head (tail + 1) =
      window ring head tail ++ [x] := by
  have hlt := PowTwo.lt size
  have htail := tail_eq_head_add head tail
  rw [window, level_push (by omega), List.range_succ, List.map_append, window]
  congr 1
  · apply List.map_congr_left
    intro i hi
    have hi' : i < (tail - head).toNat := List.mem_range.mp hi
    apply Function.update_of_ne
    intro heq
    rw [htail] at heq
    have := maskIndex_add_injective head (by omega) h heq
    omega
  · rw [List.map_singleton, ← htail, Function.update_self]

/-- Advancing the head removes the oldest element of the window. -/
theorem window_pop [NeZero size] (ring : Fin size → α) {head tail : BitVec 32}
    (h : head ≠ tail) :
    window ring head tail = ring (maskIndex size head) :: window ring (head + 1) tail := by
  rw [window, ← level_pop h, List.range_succ_eq_map, List.map_cons, List.map_map, window]
  congr 1
  · simp
  · apply List.map_congr_left
    intro i _
    have hadd : head + BitVec.ofNat 32 (i + 1) = head + 1 + BitVec.ofNat 32 i := by
      rw [BitVec.ofNat_add]
      bv_omega
    simp [hadd]

theorem getElem?_window [NeZero size] (ring : Fin size → α) {head tail : BitVec 32} {i : Nat}
    (h : i < (tail - head).toNat) :
    (window ring head tail)[i]? = some (ring (maskIndex size (head + BitVec.ofNat 32 i))) := by
  rw [window, List.getElem?_map, List.getElem?_range h]
  rfl

/-- Advancing the head by `n` removes the oldest `n` elements of the window. -/
theorem window_advance [NeZero size] (ring : Fin size → α) {head tail : BitVec 32} {n : Nat}
    (h : n ≤ (tail - head).toNat) :
    window ring (head + BitVec.ofNat 32 n) tail = (window ring head tail).drop n := by
  induction n generalizing head with
  | zero => simp
  | succ n ih =>
      have hne : head ≠ tail := by
        rintro rfl
        simp at h
      have hpop := level_pop hne
      have hadd : head + BitVec.ofNat 32 (n + 1) = head + 1 + BitVec.ofNat 32 n := by
        rw [BitVec.ofNat_add]
        bv_omega
      rw [hadd, ih (by omega), window_pop ring hne, List.drop_succ_cons]

/-- A full ring that gives up its oldest element takes one more. -/
theorem window_overwrite [PowTwo size] (ring : Fin size → α) {head tail : BitVec 32} (x : α)
    (hpos : 0 < (tail - head).toNat) (hle : (tail - head).toNat ≤ size) :
    window (Function.update ring (maskIndex size tail) x) (head + 1) (tail + 1) =
      (window ring head tail).tail ++ [x] := by
  have hne : head ≠ tail := by
    rintro rfl
    simp at hpos
  have hlevel := level_pop hne
  rw [window_push ring (head + 1) tail x (by omega), window_pop ring hne]
  rfl

/-- A ring that was filled in index order, read from counter zero. -/
theorem window_zero [PowTwo size] (ring : Fin size → α) :
    window ring 0 (BitVec.ofNat 32 size) = List.ofFn ring := by
  have hlt := PowTwo.lt size
  have hlen : (BitVec.ofNat 32 size - 0).toNat = size := by
    simpa using hlt
  apply List.ext_getElem
  · simpa using hlen
  · intro i hi _
    have hi' : i < size := by
      rw [length_window, hlen] at hi
      exact hi
    have hidx : maskIndex size (0 + BitVec.ofNat 32 i) = ⟨i, hi'⟩ := by
      apply Fin.ext
      rw [maskIndex_val]
      simp [Nat.mod_eq_of_lt (show i < 4294967296 by omega), Nat.mod_eq_of_lt hi']
    simp only [window, List.getElem_map, List.getElem_range, List.getElem_ofFn, hidx]

end Punix.Lib.Ring
