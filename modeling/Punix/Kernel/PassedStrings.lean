import Punix.Kernel.Arguments

/-!
The strings of the vectors that a program is started with. `task_init_args` and
`task_init_env` read them one after the other while they write the block at the beginning
of the heap. What is copied are the strings as they are when they are read, and the size
of the block is that of these strings and of the pointers to them.
-/

namespace Punix

open Lib

/-- A string without its NUL. -/
structure StringAt (m : Mem) (a : BitVec 32) (s : List UInt8) : Prop where
  noNul : 0 ∉ s
  chars : ∀ i, (h : i < s.length) → m (a + BitVec.ofNat 32 i) = s[i]
  nul : m (a + BitVec.ofNat 32 s.length) = 0

section Strings

variable {m m' : Mem} {a : BitVec 32} {s : List UInt8}

theorem StringAt.congr (h : StringAt m a s)
    (hsame : ∀ i ≤ s.length, m' (a + BitVec.ofNat 32 i) = m (a + BitVec.ofNat 32 i)) :
    StringAt m' a s := by
  constructor
  · exact h.noNul
  · intro i hi
    rw [hsame i hi.le]
    exact h.chars i hi
  · rw [hsame s.length le_rfl]
    exact h.nul

theorem StringAt.char_ne_zero (h : StringAt m a s) {i : Nat} (hi : i < s.length) :
    m (a + BitVec.ofNat 32 i) ≠ 0 := by
  rw [h.chars i hi]
  intro hzero
  exact h.noNul (hzero ▸ List.getElem_mem hi)

/-- A longer string would wrap around to one of its own bytes. -/
theorem StringAt.length_lt (h : StringAt m a s) : s.length < 2 ^ 32 := by
  by_contra hge
  have hwrap : BitVec.ofNat 32 (s.length % 2 ^ 32) = BitVec.ofNat 32 s.length := by
    apply BitVec.eq_of_toNat_eq
    rw [BitVec.toNat_ofNat, BitVec.toNat_ofNat, Nat.mod_mod]
  have hchar := h.char_ne_zero (show s.length % 2 ^ 32 < s.length by omega)
  rw [hwrap] at hchar
  exact hchar h.nul

theorem StringAt.strlen (h : StringAt m a s) : m.strlen a = some s.length := by
  apply scan_eq_some (Nat.zero_le _)
  · rw [Nat.zero_add]
    exact h.length_lt
  · intro i _ hi
    exact decide_eq_false (h.char_ne_zero hi)
  · exact decide_eq_true h.nul

/-- Where the length is found there is a string. -/
theorem exists_stringAt {n : Nat} (h : m.strlen a = some n) : ∃ s, StringAt m a s ∧ s.length = n := by
  obtain ⟨_, hnul, hbefore⟩ := of_scan_eq_some h
  refine ⟨(List.range n).map fun i => m (a + BitVec.ofNat 32 i), ⟨?_, ?_, ?_⟩, by simp⟩
  · intro hmem
    obtain ⟨i, hi, hzero⟩ := List.mem_map.mp hmem
    exact of_decide_eq_false (hbefore i (Nat.zero_le i) (List.mem_range.mp hi)) hzero
  · intro i hi
    simp
  · simpa using hnul

end Strings

/-- Where the `i`-th string is in the block. The pointers come first. -/
def stringOffset (entries : List (List UInt8)) (i : Nat) : Nat :=
  4 * (entries.length + 1) + ((entries.take i).map fun s => s.length + 1).sum

/-- The bytes that the pointers and the strings take. -/
def blockSize (entries : List (List UInt8)) : Nat := stringOffset entries entries.length

section Offsets

variable {entries : List (List UInt8)} {i k : Nat}

theorem stringOffset_succ (h : i < entries.length) :
    stringOffset entries (i + 1) = stringOffset entries i + (entries[i].length + 1) := by
  rw [stringOffset, List.take_succ_eq_append_getElem h, List.map_append, List.sum_append,
    ← Nat.add_assoc]
  rfl

theorem stringOffset_le (h : i ≤ k) (hk : k ≤ entries.length) :
    stringOffset entries i ≤ stringOffset entries k := by
  induction k, h using Nat.le_induction with
  | base => rfl
  | succ k _ ih =>
      rw [stringOffset_succ hk]
      exact (ih (Nat.le_of_succ_le hk)).trans (Nat.le_add_right _ _)

/-- A string ends before the next one begins. -/
theorem stringOffset_add_le (hk : k ≤ entries.length) (h : i < k) :
    stringOffset entries i + (entries[i].length + 1) ≤ stringOffset entries k := by
  rw [← stringOffset_succ]
  exact stringOffset_le h hk

theorem le_stringOffset (entries : List (List UInt8)) (i : Nat) :
    4 * (entries.length + 1) ≤ stringOffset entries i := Nat.le_add_right _ _

theorem le_blockSize (entries : List (List UInt8)) :
    4 * (entries.length + 1) ≤ blockSize entries := le_stringOffset entries entries.length

theorem stringOffset_add_le_blockSize (h : i < entries.length) :
    stringOffset entries i + (entries[i].length + 1) ≤ blockSize entries :=
  stringOffset_add_le le_rfl h

/-- The bytes of the pointers in the block. -/
theorem pointerAt_add (brk : BitVec 32) (k b : Nat) :
    pointerAt brk k + BitVec.ofNat 32 b = brk + BitVec.ofNat 32 (4 * k + b) :=
  Memory.add_ofNat_add brk (4 * k) b

theorem blockSize_eq (entries : List (List UInt8)) :
    blockSize entries = 4 * (entries.length + 1) + (entries.map fun s => s.length + 1).sum := by
  rw [blockSize, stringOffset, List.take_length]

end Offsets

/-- The pointers of the vector at `p` are those in front of the first null pointer. There are
none if `p` is one itself. -/
def Pointers (m : Mem) (p : BitVec 32) (n : Nat) : Prop :=
  if p = 0 then n = 0
  else (∀ i < n, m.word (pointerAt p i) ≠ 0) ∧ m.word (pointerAt p n) = 0

/-- The strings behind the pointers of the vector at `p`, from the `i`-th on. Each is the
string in memory when those in front of it are in the block at `brk`, where `off` bytes are
taken. The second memory is the one with all of them. -/
inductive StringsRead (p brk : BitVec 32) : Nat → Nat → Mem → List (List UInt8) → Mem → Prop
  | nil {i off : Nat} {m : Mem} : StringsRead p brk i off m [] m
  | cons {i off : Nat} {m m' : Mem} {s : List UInt8} {entries : List (List UInt8)}
      (hstring : StringAt m (m.word (pointerAt p i)) s)
      (hrest : StringsRead p brk (i + 1) (off + (s.length + 1))
        ((m.copy (brk + BitVec.ofNat 32 off) (m.word (pointerAt p i)) (s.length + 1)).setWord
          (pointerAt brk i) (brk + BitVec.ofNat 32 off)) entries m') :
      StringsRead p brk i off m (s :: entries) m'

/-- The strings of the vector at `p` as they are read when they are copied to the block at
`brk`, and the memory with the block. -/
structure VectorRead (m : Mem) (p brk : BitVec 32) (entries : List (List UInt8)) (m' : Mem) :
    Prop where
  pointers : Pointers m p entries.length
  strings : ∃ copied, StringsRead p brk 0 (stringOffset entries 0) m entries copied ∧
    m' = copied.setWord (pointerAt brk entries.length) 0

/-- The strings of the two vectors and the pointers to them take no more than the heap. -/
def VectorsFit (m : Mem) (brk argv envp : BitVec 32) : Prop :=
  ∀ args m₁ envs m₂, VectorRead m argv brk args m₁ →
    VectorRead m₁ envp (brk + BitVec.ofNat 32 (blockSize args)) envs m₂ →
    blockSize args + blockSize envs ≤ processHeapSize

section Read

variable {m m' : Mem} {p brk argv envp : BitVec 32} {entries : List (List UInt8)}

theorem Pointers.lt {n : Nat} (h : Pointers m p n) : n < 2 ^ 30 := by
  unfold Pointers at h
  split at h
  · omega
  obtain ⟨hentry, hlast⟩ := h
  by_contra hge
  have hwrap : pointerAt p (n % 2 ^ 30) = pointerAt p n := by
    unfold pointerAt
    congr 1
    apply BitVec.eq_of_toNat_eq
    rw [BitVec.toNat_ofNat, BitVec.toNat_ofNat]
    omega
  have hnonNull := hentry _ (show n % 2 ^ 30 < n by omega)
  rw [hwrap] at hnonNull
  exact hnonNull hlast

theorem countPointers_iff {n : Nat} : countPointers m p = some n ↔ Pointers m p n := by
  constructor
  · intro h
    rw [countPointers] at h
    unfold Pointers
    split at h
    · next hnull =>
        rw [if_pos hnull]
        exact (Option.some.inj h).symm
    · next hnull =>
        rw [if_neg hnull]
        obtain ⟨_, hlast, hbefore⟩ := of_scan_eq_some h
        exact ⟨fun i hi => of_decide_eq_false (hbefore i (Nat.zero_le i) hi), of_decide_eq_true hlast⟩
  · intro h
    have hlt := h.lt
    rw [countPointers]
    unfold Pointers at h
    split at h
    · next hnull => rw [if_pos hnull, h]
    · next hnull =>
        rw [if_neg hnull]
        apply scan_eq_some (Nat.zero_le n)
        · rwa [Nat.zero_add]
        · exact fun i _ hi => decide_eq_false (h.1 i hi)
        · exact decide_eq_true h.2

/-- The loop copies the strings that it reads. -/
theorem copyStrings_iff {n i off used : Nat} :
    copyStrings p brk n i off m = some (used, m') ↔
      ∃ entries, entries.length = n ∧ used = off + (entries.map fun s => s.length + 1).sum ∧
        StringsRead p brk i off m entries m' := by
  constructor
  · intro h
    induction n generalizing i off m with
    | zero =>
        obtain ⟨rfl, rfl⟩ := Prod.mk.inj (Option.some.inj h)
        exact ⟨[], rfl, rfl, .nil⟩
    | succ n ih =>
        obtain ⟨len, hlen, h⟩ := Option.bind_eq_some_iff.mp h
        obtain ⟨s, hs, rfl⟩ := exists_stringAt hlen
        obtain ⟨entries, rfl, rfl, hread⟩ := ih h
        refine ⟨s :: entries, rfl, ?_, .cons hs hread⟩
        rw [List.map_cons, List.sum_cons, Nat.add_assoc]
  · rintro ⟨entries, rfl, rfl, hread⟩
    induction hread with
    | nil => rfl
    | cons hstring _ ih =>
        rw [List.length_cons, copyStrings, hstring.strlen, List.map_cons, List.sum_cons,
          ← Nat.add_assoc]
        exact ih

/-- A vector takes the bytes of the strings that are read and of the pointers to them. -/
theorem initVector_iff {v : HeapVector} :
    initVector m brk p = some v ↔ ∃ entries, v.count = entries.length ∧
      v.used = blockSize entries ∧ VectorRead m p brk entries v.mem := by
  constructor
  · intro h
    obtain ⟨n, hcount, h⟩ := Option.bind_eq_some_iff.mp h
    obtain ⟨⟨used, copied⟩, hcopy, h⟩ := Option.bind_eq_some_iff.mp h
    obtain rfl := Option.some.inj h
    obtain ⟨entries, rfl, rfl, hread⟩ := copyStrings_iff.mp hcopy
    exact ⟨entries, rfl, (blockSize_eq entries).symm,
      ⟨countPointers_iff.mp hcount, copied, hread, rfl⟩⟩
  · obtain ⟨count, used, mem⟩ := v
    rintro ⟨entries, hcount, hused, hpointers, copied, hread, hmem⟩
    dsimp only at hcount hused hmem
    subst hcount hused hmem
    have hcopy : copyStrings p brk entries.length 0 (4 * (entries.length + 1)) m =
        some (blockSize entries, copied) :=
      copyStrings_iff.mpr ⟨entries, rfl, blockSize_eq entries, hread⟩
    rw [initVector, countPointers_iff.mpr hpointers]
    change (copyStrings p brk entries.length 0 (4 * (entries.length + 1)) m).bind _ = _
    rw [hcopy]
    rfl

theorem vectorsFit_iff :
    VectorsFit m brk argv envp ↔ ∀ v ∈ initVector m brk argv,
      ∀ w ∈ initVector v.mem (brk + BitVec.ofNat 32 v.used) envp,
        v.used + w.used ≤ processHeapSize := by
  constructor
  · intro h v hv w hw
    obtain ⟨args, _, hargs, hreadArgs⟩ := initVector_iff.mp hv
    obtain ⟨envs, _, henvs, hreadEnvs⟩ := initVector_iff.mp hw
    rw [hargs] at hreadEnvs
    rw [hargs, henvs]
    exact h args v.mem envs w.mem hreadArgs hreadEnvs
  · intro h args m₁ envs m₂ hargs henvs
    exact h ⟨args.length, blockSize args, m₁⟩ (initVector_iff.mpr ⟨args, rfl, rfl, hargs⟩)
      ⟨envs.length, blockSize envs, m₂⟩ (initVector_iff.mpr ⟨envs, rfl, rfl, henvs⟩)

instance (m : Mem) (brk argv envp : BitVec 32) : Decidable (VectorsFit m brk argv envp) :=
  decidable_of_iff' _ vectorsFit_iff

/-- The bytes that a new program finds taken on its heap are those of the two blocks. -/
theorem VectorsFit.used_le {info : ElfInfo} {loaded : Loaded} (hcurbrk : info.curbrkOff = 0)
    (h : VectorsFit m info.programEnd argv envp)
    (hinit : initHeap info m argv envp = some loaded) : loaded.used ≤ processHeapSize := by
  obtain ⟨args, hargs, hinit⟩ := Option.bind_eq_some_iff.mp hinit
  obtain ⟨env, henv, hinit⟩ := Option.bind_eq_some_iff.mp hinit
  obtain ⟨v, hv, henv⟩ := Option.bind_eq_some_iff.mp henv
  obtain rfl := Option.some.inj henv
  obtain rfl := Option.some.inj hinit
  rw [if_neg (not_not.mpr hcurbrk)] at hargs
  exact vectorsFit_iff.mp h args hargs v hv

end Read

end Punix
