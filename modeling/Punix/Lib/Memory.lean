import Mathlib.Tactic

/-!
Byte-addressed memories over a fixed address width, and the byte loops that
write to them upwards: filling a range with bytes from elsewhere, copying inside
the memory, and looking for the first hit of a predicate. Addresses wrap around.
-/

namespace Punix.Lib

/-- The first `i` from `start` on with `p i`, among `fuel` candidates. -/
def scan (p : Nat → Bool) : Nat → Nat → Option Nat
  | 0, _ => none
  | fuel + 1, i => if p i then some i else scan p fuel (i + 1)

theorem scan_eq_some {p : Nat → Bool} {fuel start n : Nat} (hle : start ≤ n)
    (hfuel : n < start + fuel) (hbefore : ∀ i, start ≤ i → i < n → p i = false) (hn : p n = true) :
    scan p fuel start = some n := by
  induction fuel generalizing start with
  | zero => omega
  | succ fuel ih =>
      rw [scan]
      rcases Nat.lt_or_ge start n with hlt | hge
      · rw [hbefore start le_rfl hlt, if_neg Bool.false_ne_true]
        exact ih hlt (by omega) fun i hi => hbefore i (Nat.le_of_succ_le hi)
      · obtain rfl : start = n := Nat.le_antisymm hle hge
        rw [if_pos hn]

/-- What is found is the first hit. -/
theorem of_scan_eq_some {p : Nat → Bool} {fuel start n : Nat} (h : scan p fuel start = some n) :
    start ≤ n ∧ p n = true ∧ ∀ i, start ≤ i → i < n → p i = false := by
  induction fuel generalizing start with
  | zero => cases h
  | succ fuel ih =>
      rw [scan] at h
      split at h
      · next hstart =>
          obtain rfl := Option.some.inj h
          exact ⟨le_rfl, hstart, fun i hle hlt => absurd hlt (Nat.not_lt.mpr hle)⟩
      · next hstart =>
          obtain ⟨hle, hhit, hbefore⟩ := ih h
          refine ⟨Nat.le_of_succ_le hle, hhit, fun i hi hlt => ?_⟩
          rcases hi.lt_or_eq with hafter | rfl
          · exact hbefore i hafter hlt
          · exact Bool.eq_false_iff.mpr hstart

/-- A byte for every address. -/
abbrev Memory (w : Nat) := BitVec w → UInt8

namespace Memory

variable {w : Nat}

/-- Stores `data 0`, `data 1`, … from `a` on. -/
def fill (m : Memory w) (a : BitVec w) (data : Nat → UInt8) : Nat → Memory w
  | 0 => m
  | n + 1 => Function.update (m.fill a data n) (a + BitVec.ofNat w n) (data n)

/-- Copies inside the memory, byte by byte upwards: a byte that has been written
is read as it is then. -/
def copy (m : Memory w) (dst src : BitVec w) : Nat → Memory w
  | 0 => m
  | n + 1 =>
      let m := m.copy dst src n
      Function.update m (dst + BitVec.ofNat w n) (m (src + BitVec.ofNat w n))

/-- The number of bytes before the first zero byte from `a` on. -/
def strlen (m : Memory w) (a : BitVec w) : Option Nat :=
  scan (fun i => m (a + BitVec.ofNat w i) = 0) (2 ^ w) 0

/-- The little-endian 32-bit word at `a`. -/
def word (m : Memory w) (a : BitVec w) : BitVec 32 :=
  BitVec.ofNat 32 ((m a).toNat + 256 * (m (a + 1)).toNat + 65536 * (m (a + 2)).toNat +
    16777216 * (m (a + 3)).toNat)

/-- The `i`-th byte of a word. -/
def byteOf (x : BitVec 32) (i : Nat) : UInt8 := UInt8.ofNat (x.toNat / 256 ^ i)

def setWord (m : Memory w) (a : BitVec w) (x : BitVec 32) : Memory w := m.fill a (byteOf x) 4

-- Whether an address is one of the `n` bytes from `a` on is a question about its distance
-- from `a`, also where the range wraps around.
section Range

variable (m : Memory w) {a b x : BitVec w} {n : Nat}

theorem add_ofNat_sub (a : BitVec w) (n : Nat) : a + BitVec.ofNat w n - a = BitVec.ofNat w n := by
  rw [BitVec.add_comm, BitVec.add_sub_cancel]

/-- An address of the range is that far from its begin. -/
theorem toNat_add_ofNat_sub (hn : n < 2 ^ w) (a : BitVec w) :
    (a + BitVec.ofNat w n - a).toNat = n := by
  rw [add_ofNat_sub, BitVec.toNat_ofNat, Nat.mod_eq_of_lt hn]

/-- The distance from an address further on. -/
theorem toNat_sub_add {i : Nat} (h : i ≤ (x - a).toNat) :
    (x - (a + BitVec.ofNat w i)).toNat = (x - a).toNat - i := by
  have hlt := (x - a).isLt
  have hi : (BitVec.ofNat w i).toNat = i := by
    rw [BitVec.toNat_ofNat, Nat.mod_eq_of_lt (by omega)]
  rw [← BitVec.sub_sub, BitVec.toNat_sub_of_le (by rw [BitVec.le_def, hi]; exact h), hi]

/-- The distance from behind a part of a block, for an address that is not in the part. -/
theorem le_toNat_sub_add {off : Nat} (hfit : off + n ≤ 2 ^ w)
    (h : (x - a).toNat < off ∨ off + n ≤ (x - a).toNat) :
    n ≤ (x - (a + BitVec.ofNat w off)).toNat := by
  rcases h with hbelow | habove
  · rcases Nat.eq_zero_or_pos n with rfl | hpos
    · exact Nat.zero_le _
    · have hoff : (BitVec.ofNat w off).toNat = off := by
        rw [BitVec.toNat_ofNat, Nat.mod_eq_of_lt (by omega)]
      rw [← BitVec.sub_sub, BitVec.toNat_sub, hoff, Nat.mod_eq_of_lt (by omega)]
      omega
  · rw [toNat_sub_add (by omega)]
    omega

theorem add_ofNat_add (a : BitVec w) (i j : Nat) :
    a + BitVec.ofNat w i + BitVec.ofNat w j = a + BitVec.ofNat w (i + j) := by
  rw [BitVec.add_assoc, ← BitVec.ofNat_add]

theorem eq_add_ofNat (h : (x - a).toNat = n) : x = a + BitVec.ofNat w n := by
  rw [← h, BitVec.ofNat_toNat, BitVec.setWidth_eq, BitVec.add_comm, BitVec.sub_add_cancel]

theorem ne_add_ofNat (h : n < (x - a).toNat) : x ≠ a + BitVec.ofNat w n := by
  rintro rfl
  have hle := Nat.mod_le n (2 ^ w)
  rw [add_ofNat_sub, BitVec.toNat_ofNat] at h
  omega

theorem fill_outside (data : Nat → UInt8) (h : n ≤ (x - a).toNat) : m.fill a data n x = m x := by
  induction n with
  | zero => rfl
  | succ n ih => rw [fill, Function.update_of_ne (ne_add_ofNat h), ih (by omega)]

theorem fill_inside (data : Nat → UInt8) (h : (x - a).toNat < n) (hn : n ≤ 2 ^ w) :
    m.fill a data n x = data (x - a).toNat := by
  induction n with
  | zero => omega
  | succ n ih =>
      rcases Nat.lt_succ_iff_lt_or_eq.mp h with hlt | heq
      · have hne : x ≠ a + BitVec.ofNat w n := by
          rintro rfl
          rw [toNat_add_ofNat_sub (by omega)] at hlt
          exact Nat.lt_irrefl n hlt
        rw [fill, Function.update_of_ne hne, ih hlt (by omega)]
      · rw [fill, heq, eq_add_ofNat heq, Function.update_self]

theorem copy_outside (src : BitVec w) (h : n ≤ (x - a).toNat) : m.copy a src n x = m x := by
  induction n with
  | zero => rfl
  | succ n ih => rw [copy, Function.update_of_ne (ne_add_ofNat h), ih (by omega)]

/-- Bytes that are copied before they are overwritten are those that were there before. -/
theorem copy_eq_fill {src : BitVec w} (h : ∀ i < n, i ≤ (src + BitVec.ofNat w i - a).toNat) :
    m.copy a src n = m.fill a (fun i => m (src + BitVec.ofNat w i)) n := by
  induction n with
  | zero => rfl
  | succ n ih =>
      rw [copy, fill, ← ih fun i hi => h i (hi.trans n.lt_succ_self),
        copy_outside m src (h n n.lt_succ_self)]

theorem fill_congr {data data' : Nat → UInt8} (h : ∀ i < n, data i = data' i) :
    m.fill a data n = m.fill a data' n := by
  induction n with
  | zero => rfl
  | succ n ih => rw [fill, fill, ih (fun i hi => h i (by omega)), h n n.lt_succ_self]

/-- A word is made of the four bytes from its address on. -/
theorem word_eq_bytes : m.word a =
    BitVec.ofNat 32 ((m (a + BitVec.ofNat w 0)).toNat + 256 * (m (a + BitVec.ofNat w 1)).toNat +
      65536 * (m (a + BitVec.ofNat w 2)).toNat + 16777216 * (m (a + BitVec.ofNat w 3)).toNat) := by
  rw [BitVec.add_zero]
  rfl

theorem word_congr {m m' : Memory w}
    (h : ∀ i < 4, m' (a + BitVec.ofNat w i) = m (a + BitVec.ofNat w i)) : m'.word a = m.word a := by
  rw [word_eq_bytes, word_eq_bytes, h 0 (by decide), h 1 (by decide), h 2 (by decide),
    h 3 (by decide)]

theorem byteOf_sum (x : BitVec 32) : (byteOf x 0).toNat + 256 * (byteOf x 1).toNat +
    65536 * (byteOf x 2).toNat + 16777216 * (byteOf x 3).toNat = x.toNat := by
  have hx := x.isLt
  simp only [byteOf, UInt8.toNat_ofNat']
  omega

/-- A word that has been stored is read again. -/
theorem word_setWord (hw : 4 ≤ 2 ^ w) (x : BitVec 32) : (m.setWord a x).word a = x := by
  have hbyte (i : Nat) (hi : i < 4) : m.setWord a x (a + BitVec.ofNat w i) = byteOf x i := by
    have hdist : (a + BitVec.ofNat w i - a).toNat = i := toNat_add_ofNat_sub (by omega) a
    rw [setWord, fill_inside m _ (by omega) hw, hdist]
  rw [word_eq_bytes, hbyte 0 (by decide), hbyte 1 (by decide), hbyte 2 (by decide),
    hbyte 3 (by decide), byteOf_sum, BitVec.ofNat_toNat, BitVec.setWidth_eq]

end Range

end Memory

/-- The numbers of these ranges, of which there are as many as they are long. -/
theorem exists_finset_ranges {ranges : List (Nat × Nat)}
    (hdisjoint : ranges.Pairwise fun r s =>
      ∀ x, r.1 ≤ x → x < r.1 + r.2 → ¬ (s.1 ≤ x ∧ x < s.1 + s.2)) :
    ∃ covered : Finset Nat, covered.card = (ranges.map Prod.snd).sum ∧
      ∀ x, x ∈ covered ↔ ∃ r ∈ ranges, r.1 ≤ x ∧ x < r.1 + r.2 := by
  induction ranges with
  | nil => exact ⟨∅, rfl, fun x => by simp⟩
  | cons r ranges ih =>
      obtain ⟨hfirst, hrest⟩ := List.pairwise_cons.mp hdisjoint
      obtain ⟨covered, hcard, hmem⟩ := ih hrest
      refine ⟨Finset.Ico r.1 (r.1 + r.2) ∪ covered, ?_, ?_⟩
      · have hapart : Disjoint (Finset.Ico r.1 (r.1 + r.2)) covered := by
          rw [Finset.disjoint_left]
          intro x hx hcovered
          obtain ⟨hlow, hhigh⟩ := Finset.mem_Ico.mp hx
          obtain ⟨s, hs, hinside⟩ := (hmem x).mp hcovered
          exact hfirst s hs x hlow hhigh hinside
        rw [Finset.card_union_of_disjoint hapart, Nat.card_Ico, hcard, List.map_cons,
          List.sum_cons, Nat.add_sub_cancel_left]
      · intro x
        rw [Finset.mem_union, Finset.mem_Ico, hmem, List.exists_mem_cons_iff]

/-- Ranges below `n` that leave out a number are shorter than `n` together. -/
theorem sum_ranges_lt {n y : Nat} {ranges : List (Nat × Nat)}
    (hdisjoint : ranges.Pairwise fun r s =>
      ∀ x, r.1 ≤ x → x < r.1 + r.2 → ¬ (s.1 ≤ x ∧ x < s.1 + s.2))
    (hbound : ∀ r ∈ ranges, r.1 + r.2 ≤ n) (hy : y < n)
    (hout : ∀ r ∈ ranges, ¬ (r.1 ≤ y ∧ y < r.1 + r.2)) : (ranges.map Prod.snd).sum < n := by
  obtain ⟨covered, hcard, hmem⟩ := exists_finset_ranges hdisjoint
  have hsubset : covered ⊂ Finset.range n := by
    apply Finset.ssubset_iff_subset_ne.mpr
    constructor
    · intro x hx
      obtain ⟨r, hr, -, hhigh⟩ := (hmem x).mp hx
      exact Finset.mem_range.mpr (hhigh.trans_le (hbound r hr))
    · rintro rfl
      obtain ⟨r, hr, hinside⟩ := (hmem y).mp (Finset.mem_range.mpr hy)
      exact hout r hr hinside
  rw [← hcard, ← Finset.card_range n]
  exact Finset.card_lt_card hsubset

end Punix.Lib
