import Punix.Kernel.ElfSegments
import Punix.Libs.Environ

/-!
The vectors that a program is started with. `sched_execve` loads the new image over the old
one before it copies the arguments and the environment, and copies them to the heap behind
the image while it reads them. They arrive as they were if no byte of them is overwritten
before it is read.
-/

namespace Punix

open Lib

section Source

variable {m m' : Mem} {p : BitVec 32} {entries : List (List UInt8)}

/-- The pointers are those of the vector as long as none of them changes. -/
theorem VectorAt.pointers (h : VectorAt m p entries)
    (hsame : ∀ i ≤ entries.length, m'.word (pointerAt p i) = m.word (pointerAt p i)) :
    Pointers m' p entries.length := by
  rw [Pointers, if_neg h.nonNull]
  constructor
  · intro i hi
    rw [hsame i hi.le]
    exact (h.entry i hi).1
  · rw [hsame _ le_rfl]
    exact h.last

end Source

/-- What is written in the block at `brk` when `j` bytes of the `i`-th string are copied. -/
def Written (brk : BitVec 32) (entries : List (List UInt8)) (i j : Nat) (x : BitVec 32) : Prop :=
  (x - brk).toNat < 4 * i ∨
    (4 * (entries.length + 1) ≤ (x - brk).toNat ∧
      (x - brk).toNat < stringOffset entries i + j)

/-- The vector at `p` can be copied to `brk`: each byte is read before it is overwritten,
and `lost` are those that are overwritten before the copying begins. -/
structure ReadInTime (m : Mem) (p brk : BitVec 32) (entries : List (List UInt8))
    (lost : BitVec 32 → Prop) : Prop where
  counted : ∀ i ≤ entries.length, ∀ b < 4, ¬ lost (pointerAt p i + BitVec.ofNat 32 b)
  pointer : ∀ i < entries.length, ∀ b < 4,
    ¬ Written brk entries i 0 (pointerAt p i + BitVec.ofNat 32 b)
  string : ∀ i, (h : i < entries.length) → ∀ j ≤ entries[i].length,
    ¬ lost (m.word (pointerAt p i) + BitVec.ofNat 32 j) ∧
      ¬ Written brk entries i j (m.word (pointerAt p i) + BitVec.ofNat 32 j)

/-- A vector that lies outside of the block is read in time. -/
theorem readInTime_of_apart {m : Mem} {p brk : BitVec 32} {entries : List (List UInt8)}
    {lost : BitVec 32 → Prop}
    (hpointers : ∀ d < 4 * (entries.length + 1), ¬ lost (p + BitVec.ofNat 32 d) ∧
      blockSize entries ≤ (p + BitVec.ofNat 32 d - brk).toNat)
    (hstrings : ∀ i, (h : i < entries.length) → ∀ j ≤ entries[i].length,
      ¬ lost (m.word (pointerAt p i) + BitVec.ofNat 32 j) ∧
        blockSize entries ≤ (m.word (pointerAt p i) + BitVec.ofNat 32 j - brk).toNat) :
    ReadInTime m p brk entries lost := by
  have hunwritten (i j : Nat) (hi : i < entries.length) (hj : j ≤ entries[i].length)
      (x : BitVec 32) (hx : blockSize entries ≤ (x - brk).toNat) : ¬ Written brk entries i j x := by
    have hlow := le_stringOffset entries i
    have hend := stringOffset_add_le_blockSize hi
    rintro (hlt | ⟨-, hlt⟩)
    · omega
    · omega
  constructor
  · intro i hi b hb
    rw [pointerAt_add]
    exact (hpointers _ (by omega)).1
  · intro i hi b hb
    rw [pointerAt_add]
    exact hunwritten i 0 hi (Nat.zero_le _) _ (hpointers _ (by omega)).2
  · intro i hi j hj
    obtain ⟨hlost, hapart⟩ := hstrings i hi j hj
    exact ⟨hlost, hunwritten i j hi hj _ hapart⟩

/-- The first `i` strings are in the block. -/
structure Copied (m₀ m : Mem) (brk : BitVec 32) (entries : List (List UInt8)) (i : Nat) :
    Prop where
  pointer : ∀ k < i, m.word (pointerAt brk k) = brk + BitVec.ofNat 32 (stringOffset entries k)
  string : ∀ k, (h : k < entries.length) → k < i →
    StringAt m (brk + BitVec.ofNat 32 (stringOffset entries k)) entries[k]
  rest : ∀ x, ¬ Written brk entries i 0 x → m x = m₀ x

section Copy

variable {m m₀ mo : Mem} {p brk src v x : BitVec 32} {entries : List (List UInt8)}
  {lost : BitVec 32 → Prop}

/-- A string and the pointer to it are written, and nothing else. -/
theorem copyString_frame {i off len : Nat} (hfit : off + len ≤ 2 ^ 32) (hi : 4 * (i + 1) ≤ off)
    (hpointer : (x - brk).toNat < 4 * i ∨ 4 * (i + 1) ≤ (x - brk).toNat)
    (hstring : (x - brk).toNat < off ∨ off + len ≤ (x - brk).toNat) :
    (m.copy (brk + BitVec.ofNat 32 off) src len).setWord (pointerAt brk i) v x = m x := by
  have hfirst : m.copy (brk + BitVec.ofNat 32 off) src len x = m x := by
    apply Memory.copy_outside
    exact Memory.le_toNat_sub_add hfit hstring
  rw [← hfirst]
  apply Memory.fill_outside
  exact Memory.le_toNat_sub_add (by omega) hpointer

/-- What the block holds in front of the string is kept, but for the pointer. -/
theorem copyString_below {i off len d : Nat} (hfit : off + len ≤ 2 ^ 32) (hi : 4 * (i + 1) ≤ off)
    (hd : d < off) (hlen : 0 < len) (hpointer : d < 4 * i ∨ 4 * (i + 1) ≤ d) :
    (m.copy (brk + BitVec.ofNat 32 off) src len).setWord (pointerAt brk i) v
      (brk + BitVec.ofNat 32 d) = m (brk + BitVec.ofNat 32 d) := by
  have hdist : (brk + BitVec.ofNat 32 d - brk).toNat = d :=
    Memory.toNat_add_ofNat_sub (by omega) brk
  apply copyString_frame hfit hi
  · rw [hdist]
    exact hpointer
  · rw [hdist]
    exact .inl hd

/-- The bytes of the string. -/
theorem copyString_inside {i off len j : Nat} (hfit : off + len ≤ 2 ^ 32) (hi : 4 * (i + 1) ≤ off)
    (hread : ∀ j < len, j ≤ (src + BitVec.ofNat 32 j - (brk + BitVec.ofNat 32 off)).toNat)
    (hj : j < len) :
    (m.copy (brk + BitVec.ofNat 32 off) src len).setWord (pointerAt brk i) v
      (brk + BitVec.ofNat 32 off + BitVec.ofNat 32 j) = m (src + BitVec.ofNat 32 j) := by
  have hstring : (brk + BitVec.ofNat 32 off + BitVec.ofNat 32 j -
      (brk + BitVec.ofNat 32 off)).toNat = j := Memory.toNat_add_ofNat_sub (by omega) _
  have hblock : (brk + BitVec.ofNat 32 off + BitVec.ofNat 32 j - brk).toNat = off + j := by
    rw [Memory.add_ofNat_add]
    exact Memory.toNat_add_ofNat_sub (by omega) brk
  rw [Memory.setWord, Memory.fill_outside, Memory.copy_eq_fill m hread,
    Memory.fill_inside m _ (by omega) (by omega), hstring]
  apply Memory.le_toNat_sub_add (by omega)
  omega

theorem word_eq_of_bytes {m m' : Mem} {a : BitVec 32} {lost : BitVec 32 → Prop}
    (hsame : ∀ x, ¬ lost x → m' x = m x) (h : ∀ b < 4, ¬ lost (a + BitVec.ofNat 32 b)) :
    m'.word a = m.word a := by
  apply Memory.word_congr
  intro b hb
  exact hsame _ (h b hb)

/-- What the body of the loop reads are the pointer and the string that the vector had. -/
theorem Copied.source {i : Nat} (h : Copied m₀ m brk entries i)
    (hsame : ∀ x, ¬ lost x → m₀ x = mo x) (hvector : VectorAt mo p entries)
    (hread : ReadInTime mo p brk entries lost) (hi : i < entries.length) :
    m.word (pointerAt p i) = mo.word (pointerAt p i) ∧
      StringAt m (mo.word (pointerAt p i)) entries[i] := by
  constructor
  · rw [word_eq_of_bytes h.rest (hread.pointer i hi), word_eq_of_bytes hsame]
    exact hread.counted i hi.le
  · apply (hvector.entry i hi).2.congr
    intro j hj
    obtain ⟨hlost, hwritten⟩ := hread.string i hi j hj
    rw [h.rest, hsame _ hlost]
    rintro (hpointers | ⟨hlow, hhigh⟩)
    · exact hwritten (.inl hpointers)
    · exact hwritten (.inr ⟨hlow, hhigh.trans_le (Nat.le_add_right _ _)⟩)

/-- The body of the loop. -/
theorem Copied.step {i : Nat} (h : Copied m₀ m brk entries i) (hi : i < entries.length)
    (hroom : blockSize entries ≤ 2 ^ 32) (hstring : StringAt m src entries[i])
    (hread : ∀ j ≤ entries[i].length, ¬ Written brk entries i j (src + BitVec.ofNat 32 j)) :
    Copied m₀
      ((m.copy (brk + BitVec.ofNat 32 (stringOffset entries i)) src (entries[i].length + 1)).setWord
        (pointerAt brk i) (brk + BitVec.ofNat 32 (stringOffset entries i)))
      brk entries (i + 1) := by
  have hfit : stringOffset entries i + (entries[i].length + 1) ≤ 2 ^ 32 :=
    (stringOffset_add_le_blockSize hi).trans hroom
  have hlow := le_stringOffset entries i
  have hafter : 4 * (i + 1) ≤ stringOffset entries i := by omega
  have hbefore (k : Nat) (hk : k < i) :
      stringOffset entries k + (entries[k].length + 1) ≤ stringOffset entries i :=
    stringOffset_add_le hi.le hk
  constructor
  · intro k hk
    rcases Nat.lt_succ_iff_lt_or_eq.mp hk with hlt | rfl
    · rw [← h.pointer k hlt]
      apply Memory.word_congr
      intro b hb
      rw [pointerAt_add]
      exact copyString_below hfit hafter (by omega) (Nat.succ_pos _) (by omega)
    · exact Memory.word_setWord _ (by decide) _
  · intro k hlen hk
    rcases Nat.lt_succ_iff_lt_or_eq.mp hk with hlt | rfl
    · have hend := hbefore k hlt
      have hpointers := le_stringOffset entries k
      apply (h.string k hlen hlt).congr
      intro j hj
      rw [Memory.add_ofNat_add]
      exact copyString_below hfit hafter (by omega) (Nat.succ_pos _) (by omega)
    · have hcopy : ∀ j < entries[k].length + 1, j ≤ (src + BitVec.ofNat 32 j -
          (brk + BitVec.ofNat 32 (stringOffset entries k))).toNat := by
        intro j hj
        have hnot := not_or.mp (hread j (Nat.le_of_lt_succ hj))
        apply Memory.le_toNat_sub_add (by omega)
        omega
      constructor
      · exact hstring.noNul
      · intro j hj
        rw [copyString_inside hfit hafter hcopy (Nat.lt_succ_of_lt hj)]
        exact hstring.chars j hj
      · rw [copyString_inside hfit hafter hcopy (Nat.lt_succ_self _)]
        exact hstring.nul
  · intro x hx
    obtain ⟨hpointers, hstrings⟩ := not_or.mp hx
    rw [stringOffset_succ hi] at hstrings
    rw [← h.rest x]
    · apply copyString_frame hfit hafter
      · omega
      · omega
    · rintro (hlt | ⟨hge, hlt⟩)
      · omega
      · omega

/-- The strings that are read are those of the vector, and all of them are copied. -/
theorem Copied.stringsRead {n i : Nat} (hn : i + n = entries.length)
    (hsame : ∀ x, ¬ lost x → m₀ x = mo x) (hvector : VectorAt mo p entries)
    (hread : ReadInTime mo p brk entries lost) (hroom : blockSize entries ≤ 2 ^ 32)
    (h : Copied m₀ m brk entries i) :
    ∃ m', StringsRead p brk i (stringOffset entries i) m (entries.drop i) m' ∧
      Copied m₀ m' brk entries entries.length := by
  induction n generalizing i m with
  | zero =>
      obtain rfl : i = entries.length := hn
      rw [List.drop_length]
      exact ⟨m, .nil, h⟩
  | succ n ih =>
      have hi : i < entries.length := by omega
      obtain ⟨hword, hstring⟩ := h.source hsame hvector hread hi
      have hnext := h.step hi hroom hstring fun j hj => (hread.string i hi j hj).2
      obtain ⟨m', hstrings, hall⟩ := ih (by omega) hnext
      refine ⟨m', ?_, hall⟩
      rw [List.drop_eq_getElem_cons hi]
      rw [stringOffset_succ hi, ← hword] at hstrings
      rw [← hword] at hstring
      exact .cons hstring hstrings

end Copy

/-- The vector is the block at `brk`. -/
structure BlockAt (m : Mem) (brk : BitVec 32) (entries : List (List UInt8)) : Prop where
  pointer : ∀ k < entries.length,
    m.word (pointerAt brk k) = brk + BitVec.ofNat 32 (stringOffset entries k)
  string : ∀ k, (h : k < entries.length) →
    StringAt m (brk + BitVec.ofNat 32 (stringOffset entries k)) entries[k]
  last : m.word (pointerAt brk entries.length) = 0

/-- What a program is told about a vector: the number of its strings, and an array of
pointers to them with a null pointer behind. -/
structure PassedAt (m : Mem) (count : Nat) (base : BitVec 32) (entries : List (List UInt8)) :
    Prop where
  count : count = entries.length
  entry : ∀ i, (h : i < entries.length) → m.word (pointerAt base i) ≠ 0 ∧
    StringAt m (m.word (pointerAt base i)) entries[i]
  last : m.word (pointerAt base entries.length) = 0

section Block

variable {m m' m₀ mo : Mem} {p brk : BitVec 32} {entries : List (List UInt8)}
  {lost : BitVec 32 → Prop}

theorem BlockAt.congr (h : BlockAt m brk entries)
    (hsame : ∀ d < blockSize entries,
      m' (brk + BitVec.ofNat 32 d) = m (brk + BitVec.ofNat 32 d)) :
    BlockAt m' brk entries := by
  have hlow := le_blockSize entries
  have hword (k : Nat) (hk : k ≤ entries.length) :
      m'.word (pointerAt brk k) = m.word (pointerAt brk k) := by
    apply Memory.word_congr
    intro b hb
    rw [pointerAt_add]
    exact hsame _ (by omega)
  constructor
  · intro k hk
    rw [hword k hk.le]
    exact h.pointer k hk
  · intro k hk
    have hend := stringOffset_add_le_blockSize hk
    apply (h.string k hk).congr
    intro j hj
    rw [Memory.add_ofNat_add]
    exact hsame _ (by omega)
  · rw [hword _ le_rfl]
    exact h.last

/-- No pointer into the block is null if the block does not wrap around. -/
theorem BlockAt.passed (h : BlockAt m brk entries)
    (hroom : brk.toNat + blockSize entries ≤ 2 ^ 32) :
    PassedAt m entries.length brk entries := by
  constructor
  · rfl
  · intro i hi
    have hend := stringOffset_add_le_blockSize hi
    have hlow := le_stringOffset entries i
    rw [h.pointer i hi]
    constructor
    · intro hzero
      have hnat : (brk + BitVec.ofNat 32 (stringOffset entries i)).toNat = 0 :=
        congrArg BitVec.toNat hzero
      rw [BitVec.toNat_add, BitVec.toNat_ofNat] at hnat
      omega
    · exact h.string i hi
  · exact h.last

/-- The null pointer behind the pointers is written last. -/
theorem Copied.block (h : Copied m₀ m brk entries entries.length)
    (hroom : blockSize entries ≤ 2 ^ 32) :
    BlockAt (m.setWord (pointerAt brk entries.length) 0) brk entries := by
  have hlow := le_blockSize entries
  have hdist {d : Nat} (hd : d < 2 ^ 32) : (brk + BitVec.ofNat 32 d - brk).toNat = d :=
    Memory.toNat_add_ofNat_sub hd brk
  have hframe {d : Nat} (hd : d < 2 ^ 32)
      (hout : d < 4 * entries.length ∨ 4 * (entries.length + 1) ≤ d) :
      m.setWord (pointerAt brk entries.length) 0 (brk + BitVec.ofNat 32 d) =
        m (brk + BitVec.ofNat 32 d) := by
    apply Memory.fill_outside
    apply Memory.le_toNat_sub_add (by omega)
    rw [hdist hd]
    omega
  constructor
  · intro k hk
    rw [← h.pointer k hk]
    apply Memory.word_congr
    intro b hb
    rw [pointerAt_add]
    exact hframe (by omega) (by omega)
  · intro k hk
    have hend := stringOffset_add_le_blockSize hk
    have hpointers := le_stringOffset entries k
    apply (h.string k hk hk).congr
    intro j hj
    rw [Memory.add_ofNat_add]
    exact hframe (by omega) (by omega)
  · exact Memory.word_setWord _ (by decide) _

/-- A vector that is read in time is read as it was, and copied. -/
theorem vectorRead_of_inTime (hsame : ∀ x, ¬ lost x → m₀ x = mo x)
    (hvector : VectorAt mo p entries) (hread : ReadInTime mo p brk entries lost)
    (hroom : blockSize entries ≤ 2 ^ 32) :
    ∃ m', VectorRead m₀ p brk entries m' ∧ BlockAt m' brk entries := by
  have hpointers : Pointers m₀ p entries.length := by
    apply hvector.pointers
    intro i hi
    exact word_eq_of_bytes hsame (hread.counted i hi)
  have hstart : Copied m₀ m₀ brk entries 0 := by
    constructor
    · exact fun k hk => absurd hk (Nat.not_lt_zero k)
    · exact fun k _ hk => absurd hk (Nat.not_lt_zero k)
    · exact fun _ _ => rfl
  obtain ⟨copied, hstrings, hall⟩ :=
    hstart.stringsRead (Nat.zero_add _) hsame hvector hread hroom
  exact ⟨copied.setWord (pointerAt brk entries.length) 0,
    ⟨hpointers, copied, hstrings, rfl⟩, hall.block hroom⟩

end Block

/-- The end of the last segment. -/
def imageEnd (image : List UInt8) : BitVec 32 :=
  (elfProgramHeaders image).foldl
    (fun maxEnd phdr =>
      if phdr.pType ≠ ptLoad then maxEnd
      else if phdr.pVaddr + phdr.pMemsz > maxEnd then phdr.pVaddr + phdr.pMemsz else maxEnd) 0

/-- Where the heap of the program begins. -/
def heapStart (image : List UInt8) : BitVec 32 := alignUp (imageEnd image) 16

/-- A segment of the image is loaded to this address. -/
def OverwrittenBy (image : List UInt8) (x : BitVec 32) : Prop :=
  ∃ phdr ∈ elfProgramHeaders image, phdr.Covers x

section Image

variable {image : List UInt8} {m : Mem} {info : ElfInfo} {x : BitVec 32}

theorem loadSegment_outside {phdr : Elf32Phdr} (hload : phdr.pType = ptLoad)
    (hx : ¬ phdr.Covers x) : loadSegment image phdr m x = m x := by
  have hextent : phdr.extent ≤ (x - phdr.pVaddr).toNat := by
    by_contra hlt
    exact hx ⟨hload, Nat.not_le.mp hlt⟩
  have hfile : m.fill phdr.pVaddr (fun i => imageByte image (phdr.pOffset.toNat + i))
      phdr.pFilesz.toNat x = m x := by
    apply Memory.fill_outside
    exact (le_max_left _ _).trans hextent
  unfold loadSegment
  split
  · next hlarger =>
      rw [← hfile]
      have hzero (run : ElfRun) :
          (run.zero (phdr.pVaddr + phdr.pFilesz) (phdr.pMemsz - phdr.pFilesz).toNat).mem x =
            run.mem x := mem_zero_outside rfl hlarger hextent
      exact hzero ⟨_, [], 0, 0⟩
  · exact hfile

theorem foldl_elfLoadStep_outside {headers : List Elf32Phdr} {load : ElfLoad}
    (hx : ∀ phdr ∈ headers, ¬ phdr.Covers x) :
    (headers.foldl (elfLoadStep image) load).mem x = load.mem x := by
  induction headers generalizing load with
  | nil => rfl
  | cons phdr headers ih =>
      rw [List.foldl_cons, ih fun phdr' hmem => hx phdr' (List.mem_cons_of_mem _ hmem),
        elfLoadStep]
      split
      · rfl
      · next hload =>
          exact loadSegment_outside (not_not.mp hload) (hx phdr List.mem_cons_self)

theorem maxEnd_foldl (headers : List Elf32Phdr) (load : ElfLoad) :
    (headers.foldl (elfLoadStep image) load).maxEnd =
      headers.foldl
        (fun maxEnd phdr =>
          if phdr.pType ≠ ptLoad then maxEnd
          else if phdr.pVaddr + phdr.pMemsz > maxEnd then phdr.pVaddr + phdr.pMemsz else maxEnd)
        load.maxEnd := by
  induction headers generalizing load with
  | nil => rfl
  | cons phdr headers ih =>
      rw [List.foldl_cons, List.foldl_cons, ih, elfLoadStep]
      congr 1
      split <;> rfl

/-- What is outside of the segments is not touched, and the end is that of the image. -/
theorem elfLoad_spec (h : (elfLoad image m).2 = some info) :
    info.programEnd = heapStart image ∧
      ∀ x, ¬ OverwrittenBy image x → (elfLoad image m).1 x = m x := by
  unfold elfLoad at h ⊢
  split at h
  · cases h
  next helf =>
  split at h
  · cases h
  next htype =>
  obtain rfl := Option.some.inj h
  rw [if_neg helf, if_neg htype]
  constructor
  · exact congrArg (alignUp · 16) (maxEnd_foldl (elfProgramHeaders image) ⟨m, 0, 0⟩)
  · intro x hx
    apply foldl_elfLoadStep_outside
    exact fun phdr hmem hcovers => hx ⟨phdr, hmem, hcovers⟩

end Image

/-- No byte of the vectors is overwritten before it is read, neither by the image nor by what
is copied of them, and what is copied ends below the end of the address space. -/
structure VectorsInTime (image : List UInt8) (m : Mem) (argv envp : BitVec 32)
    (args envs : List (List UInt8)) : Prop where
  argv : ReadInTime m argv (heapStart image) args (OverwrittenBy image)
  envp : ReadInTime m envp (heapStart image + BitVec.ofNat 32 (blockSize args)) envs
    fun x => OverwrittenBy image x ∨ (x - heapStart image).toNat < blockSize args
  room : (heapStart image).toNat + blockSize args + blockSize envs ≤ 2 ^ 32

section Start

variable {k k' : Kernel} {m m' : Mem} {pathname image : List UInt8} {argv envp : BitVec 32}
  {tr : Trampoline} {args envs : List (List UInt8)}

theorem initHeap_eq {info : ElfInfo} {v w : HeapVector} (henviron : info.environOff = 0)
    (hcurbrk : info.curbrkOff = 0) (hargs : initVector m info.programEnd argv = some v)
    (henv : initVector v.mem (info.programEnd + BitVec.ofNat 32 v.used) envp = some w) :
    initHeap info m argv envp = some
      { programEnd := info.programEnd
        used := v.used + w.used
        mem := w.mem
        trampoline :=
          { mainAddr := info.entryVa
            argc := v.count
            heapArgv := info.programEnd
            envc := w.count
            heapEnvp := info.programEnd + BitVec.ofNat 32 v.used } } := by
  simp [initHeap, taskInitArgs, taskInitEnv, henviron, hcurbrk, hargs, henv]

/-- Vectors that are read in time are copied to two blocks, one behind the other. -/
theorem VectorsInTime.initHeap {info : ElfInfo} (h : VectorsInTime image m argv envp args envs)
    (hload : (elfLoad image m).2 = some info) (hargs : VectorAt m argv args)
    (henvs : VectorAt m envp envs) :
    ∃ v w, initVector (elfLoad image m).1 info.programEnd argv = some v ∧
      initVector v.mem (info.programEnd + BitVec.ofNat 32 v.used) envp = some w ∧
      (v.count = args.length ∧ v.used = blockSize args) ∧
      (w.count = envs.length ∧ w.used = blockSize envs) ∧
      BlockAt w.mem info.programEnd args ∧
      BlockAt w.mem (info.programEnd + BitVec.ofNat 32 v.used) envs := by
  obtain ⟨hend, hsame⟩ := elfLoad_spec hload
  have hroom := h.room
  have hpositive := le_blockSize envs
  rw [hend]
  obtain ⟨m₁, hreadArgs, hblockArgs⟩ := vectorRead_of_inTime hsame hargs h.argv (by omega)
  have hv := initVector_iff (v := ⟨args.length, blockSize args, m₁⟩).mpr
    ⟨args, rfl, rfl, hreadArgs⟩
  have hkept : ∀ x, ¬ (OverwrittenBy image x ∨ (x - heapStart image).toNat < blockSize args) →
      m₁ x = m x := by
    intro x hx
    obtain ⟨himage, hblock⟩ := not_or.mp hx
    rw [← hsame x himage]
    exact (initVector_outside hv).2 x (Nat.not_lt.mp hblock)
  obtain ⟨m₂, hreadEnvs, hblockEnvs⟩ := vectorRead_of_inTime hkept henvs h.envp (by omega)
  have hw := initVector_iff (v := ⟨envs.length, blockSize envs, m₂⟩).mpr
    ⟨envs, rfl, rfl, hreadEnvs⟩
  refine ⟨_, _, hv, hw, ⟨rfl, rfl⟩, ⟨rfl, rfl⟩, ?_, hblockEnvs⟩
  apply hblockArgs.congr
  intro d hd
  apply (initVector_outside hw).2
  change blockSize envs ≤
    (heapStart image + BitVec.ofNat 32 d - (heapStart image + BitVec.ofNat 32 (blockSize args))).toNat
  apply Memory.le_toNat_sub_add (by omega)
  left
  rw [Memory.toNat_add_ofNat_sub (by omega)]
  exact hd

/-- The condition on the heap is one on the strings of the caller. -/
theorem VectorsInTime.fit_iff {info : ElfInfo} (h : VectorsInTime image m argv envp args envs)
    (hload : (elfLoad image m).2 = some info) (hargs : VectorAt m argv args)
    (henvs : VectorAt m envp envs) :
    VectorsFit (elfLoad image m).1 info.programEnd argv envp ↔
      blockSize args + blockSize envs ≤ processHeapSize := by
  obtain ⟨v, w, hv, hw, ⟨_, hused⟩, ⟨_, hused'⟩, _, _⟩ := h.initHeap hload hargs henvs
  rw [vectorsFit_iff, hv, ← hused, ← hused']
  constructor
  · intro hfit
    exact hfit v rfl w hw
  · intro hle v' hv' w' hw'
    obtain rfl := Option.some.inj hv'
    obtain rfl := Option.some.inj (hw.symm.trans hw')
    exact hle

/-- The program gets the strings of its caller. -/
theorem schedExecve_passes (himage : findImage k.embeddedBins pathname = some image)
    (h : schedExecve k m pathname argv envp = some (k', m', .started tr))
    (hargs : VectorAt m argv args) (henvs : VectorAt m envp envs)
    (hintime : VectorsInTime image m argv envp args envs) :
    PassedAt m' tr.argc tr.heapArgv args ∧ PassedAt m' tr.envc tr.heapEnvp envs := by
  obtain ⟨info, loaded, hload, hinit, rfl, rfl⟩ := loaded_of_started himage h
  obtain ⟨hend, _⟩ := elfLoad_spec hload
  obtain ⟨henviron, hcurbrk⟩ := elfLoad_offsets hload
  have hroom := hintime.room
  obtain ⟨v, w, hv, hw, ⟨hargc, husedArgs⟩, ⟨henvc, _⟩, hblockArgs, hblockEnvs⟩ :=
    hintime.initHeap hload hargs henvs
  obtain rfl := Option.some.inj ((initHeap_eq henviron hcurbrk hv hw).symm.trans hinit)
  have hbase : (info.programEnd + BitVec.ofNat 32 v.used).toNat + blockSize envs ≤ 2 ^ 32 := by
    have hpositive := le_blockSize envs
    rw [husedArgs, hend, BitVec.toNat_add, BitVec.toNat_ofNat]
    omega
  constructor
  · have hpassed := hblockArgs.passed (by rw [hend]; omega)
    rw [← hargc] at hpassed
    exact hpassed
  · have hpassed := hblockEnvs.passed hbase
    rw [← henvc] at hpassed
    exact hpassed

end Start

/-- The shell starts itself anew with these vectors. -/
theorem execve_shell {m : Mem} {argv envp : BitVec 32} {loaded : Loaded}
    (hinit : initHeap ⟨0x400000, 0, 0x400010, 0, 0, 0⟩ (elfLoad zerosElf m).1 argv envp =
      some loaded) :
    ∃ k ends k', breakMachine.Reachable (k, ends) ∧
      findImage k.embeddedBins (cstr "/bin/sh") = some zerosElf ∧
      schedExecve k m (cstr "/bin/sh") argv envp =
        some (k', loaded.mem, .started loaded.trampoline) := by
  obtain ⟨k, ends, hreach, hcur, hbins⟩ := shell_reachable
  have himage : findImage k.embeddedBins (cstr "/bin/sh") = some zerosElf := by
    rw [hbins]
    decide +kernel
  have hload : (elfLoad zerosElf m).2 = some ⟨0x400000, 0, 0x400010, 0, 0, 0⟩ := by
    rw [elfLoad_zerosElf]
  exact ⟨k, ends, _, hreach, himage, schedExecve_eq hcur himage hload (by decide) hinit⟩

theorem overwrittenBy_zerosElf (x : BitVec 32) :
    OverwrittenBy zerosElf x ↔ (x - 0x400000).toNat < 16 := by
  have hheaders : elfProgramHeaders zerosElf = [⟨1, 84, 0x400000, 0, 16⟩] := rfl
  rw [OverwrittenBy, hheaders]
  simp [Elf32Phdr.Covers, Elf32Phdr.extent, ptLoad]

theorem oneEntry_vectorsInTime :
    VectorsInTime zerosElf oneEntry 0x4E0000 0x4E0000 [cstr "A=1"] [cstr "A=1"] := by
  have hstart : heapStart zerosElf = 0x400010 := by decide +kernel
  have hsize : blockSize [cstr "A=1"] = 12 := by decide
  have hlength : (cstr "A=1").length = 3 := by decide
  have hpointer : oneEntry.word (pointerAt 0x4E0000 0) = 0x4E0008 := by decide +kernel
  constructor
  · apply readInTime_of_apart
    · intro d hd
      rw [List.length_singleton] at hd
      rw [hstart, hsize, overwrittenBy_zerosElf]
      constructor
      · bv_omega
      · bv_omega
    · intro i hi j hj
      obtain rfl : i = 0 := by simpa using hi
      have hj : j ≤ 3 := hlength ▸ hj
      rw [hpointer, hstart, hsize, overwrittenBy_zerosElf]
      constructor
      · bv_omega
      · bv_omega
  · rw [hstart, hsize]
    apply readInTime_of_apart
    · intro d hd
      rw [List.length_singleton] at hd
      rw [hsize, overwrittenBy_zerosElf, not_or]
      constructor
      · constructor <;> bv_omega
      · bv_omega
    · intro i hi j hj
      obtain rfl : i = 0 := by simpa using hi
      have hj : j ≤ 3 := hlength ▸ hj
      rw [hpointer, hsize, overwrittenBy_zerosElf, not_or]
      constructor
      · constructor <;> bv_omega
      · bv_omega
  · rw [hstart, hsize]
    decide

/-- The shell passes its vector as the arguments and as the environment. -/
theorem schedExecve_passes_shell : ∃ k k' m' tr,
    findImage k.embeddedBins (cstr "/bin/sh") = some zerosElf ∧
      schedExecve k oneEntry (cstr "/bin/sh") 0x4E0000 0x4E0000 = some (k', m', .started tr) ∧
      PassedAt m' tr.argc tr.heapArgv [cstr "A=1"] ∧
      PassedAt m' tr.envc tr.heapEnvp [cstr "A=1"] := by
  obtain ⟨loaded, hinit⟩ := Option.isSome_iff_exists.mp
    (show (initHeap ⟨0x400000, 0, 0x400010, 0, 0, 0⟩ (elfLoad zerosElf oneEntry).1 0x4E0000
      0x4E0000).isSome by decide +kernel)
  obtain ⟨k, _, k', _, himage, hexec⟩ := execve_shell hinit
  exact ⟨k, k', _, _, himage, hexec, schedExecve_passes himage hexec oneEntry_vectorAt
    oneEntry_vectorAt oneEntry_vectorsInTime⟩

/-- The string `A=1` in the data of the old program, and a pointer to it on its stack. -/
def stringInData : Mem :=
  (Memory.fill (fun _ => 0) 0x4E0000 (fun i => [0, 0, 0x40, 0].getD i 0) 4).fill 0x400000
    (fun i => (cstr "A=1").getD i 0) 3

theorem stringInData_vectorAt : VectorAt stringInData 0x4E0000 [cstr "A=1"] := by
  have hpointer : stringInData.word (pointerAt 0x4E0000 0) = 0x400000 := by decide +kernel
  have hstring : StringAt stringInData 0x400000 (cstr "A=1") := by
    have hchars : ∀ i : Fin 3, stringInData (0x400000 + BitVec.ofNat 32 i) = (cstr "A=1")[i] := by
      decide +kernel
    exact ⟨by decide, fun i hi => hchars ⟨i, hi⟩, by decide +kernel⟩
  constructor
  · decide
  · intro i hi
    obtain rfl : i = 0 := by simpa using hi
    rw [hpointer]
    exact ⟨by decide, hstring⟩
  · decide +kernel

theorem stringInData_empty : VectorAt stringInData 0x4E0004 [] :=
  ⟨by decide, fun _ hi => absurd hi (Nat.not_lt_zero _), by decide +kernel⟩

/-- The new image zeros the string before it is copied. -/
theorem schedExecve_loses : ∃ k ends k' m' tr, breakMachine.Reachable (k, ends) ∧
    findImage k.embeddedBins (cstr "/bin/sh") = some zerosElf ∧
    VectorAt stringInData 0x4E0000 [cstr "A=1"] ∧ VectorAt stringInData 0x4E0004 [] ∧
    InWindow 0x4E0000 ∧ InWindow (stringInData.word (pointerAt 0x4E0000 0)) ∧
    schedExecve k stringInData (cstr "/bin/sh") 0x4E0000 0x4E0004 = some (k', m', .started tr) ∧
    ¬ (PassedAt m' tr.argc tr.heapArgv [cstr "A=1"] ∧ PassedAt m' tr.envc tr.heapEnvp []) := by
  obtain ⟨loaded, hinit, hloaded⟩ := (Option.any_eq_true _ _).mp
    (show (initHeap ⟨0x400000, 0, 0x400010, 0, 0, 0⟩ (elfLoad zerosElf stringInData).1 0x4E0000
      0x4E0004).any (fun loaded => loaded.mem.word (pointerAt loaded.trampoline.heapArgv 0) =
        0x400018 ∧ loaded.mem 0x400018 = 0) by decide +kernel)
  obtain ⟨hpointer, hzero⟩ := of_decide_eq_true hloaded
  obtain ⟨k, ends, k', hreach, himage, hexec⟩ := execve_shell hinit
  have hstack : InWindow 0x4E0000 := by
    constructor <;> decide
  have hdata : InWindow (stringInData.word (pointerAt 0x4E0000 0)) := by
    constructor <;> decide +kernel
  refine ⟨k, ends, k', _, _, hreach, himage, stringInData_vectorAt, stringInData_empty, hstack,
    hdata, hexec, fun h => ?_⟩
  have hstring := (h.1.entry 0 (by decide)).2
  rw [hpointer] at hstring
  exact hstring.char_ne_zero (show 0 < (cstr "A=1").length by decide) hzero

end Punix
