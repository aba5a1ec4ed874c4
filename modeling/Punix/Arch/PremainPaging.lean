import Punix.Arch.Premain
import Punix.Arch.Translation

/-!
What the processor makes of the page tables in memory, and the tables of `kpremain.asm`: they
show what the model of the memory manager starts from.
-/

namespace Punix

open Lib Lib.Memory Lib.X86

/-- An entry, as the processor reads it. -/
def PageEntry.ofWord (x : BitVec 32) : PageEntry where
  present := x.getLsbD 0
  writable := x.getLsbD 1
  user := x.getLsbD 2
  frame := x.toNat / pageSize

namespace Premain

/-- The address of an entry of a page of entries. -/
def entryAddr (f k : Nat) : BitVec 32 := BitVec.ofNat 32 (pageSize * f + 4 * k)

section Words

variable {f g k j : Nat} {x va : BitVec 32} {mem : Memory 32}

theorem toNat_entryAddr (hf : f < 2 ^ 20) (hk : k < 1024) :
    (entryAddr f k).toNat = pageSize * f + 4 * k := by
  rw [entryAddr, BitVec.toNat_ofNat]
  simp only [pageSize]
  omega

theorem word_setWord_entry (hf : f < 2 ^ 20) (hg : g < 2 ^ 20) (hk : k < 1024) (hj : j < 1024) :
    (mem.setWord (entryAddr f k) x).word (entryAddr g j) =
      if g = f ∧ j = k then x else mem.word (entryAddr g j) := by
  split
  · next heq =>
      rw [heq.1, heq.2, word_setWord mem (by decide)]
  · next hne =>
      have ha := toNat_entryAddr hf hk
      have hb := toNat_entryAddr hg hj
      simp only [pageSize] at ha hb
      apply word_setWord_of_apart
      · omega
      · omega
      · omega

theorem vaToPa_symbolVa (f : Nat) : vaToPa (symbolVa f) = entryAddr f 0 := by
  unfold vaToPa symbolVa entryAddr kernelVaBaseSym kernelPaStartSym
  rw [Nat.mul_zero, Nat.add_zero]
  generalize BitVec.ofNat 32 (pageSize * f) = x
  bv_omega

theorem toNat_pteField (va : BitVec 32) :
    (((va >>> 12) &&& 0x3FF#32) <<< 2).toNat = 4 * pteIndex va.toNat := by
  have hindex : ((va >>> 12) &&& 0x3FF#32).toNat = pteIndex va.toNat := Bits.pteIndex_eq va
  have hlt : pteIndex va.toNat < 1024 := Nat.mod_lt _ (by decide)
  rw [BitVec.toNat_shiftLeft, hindex, Nat.shiftLeft_eq]
  omega

theorem toNat_pdeField (va : BitVec 32) : ((va >>> 22) <<< 2).toNat = 4 * pdeIndex va.toNat := by
  have hindex := Bits.pdeIndex_eq va
  have hlt := Bits.pdeIndex_lt va
  rw [Bits.pdeIndex] at hindex hlt
  rw [BitVec.toNat_shiftLeft, hindex, Nat.shiftLeft_eq]
  omega

theorem entryAddr_add (f : Nat) {y : BitVec 32} (h : y.toNat = 4 * k) :
    entryAddr f 0 + y = entryAddr f k := by
  rw [entryAddr, entryAddr, Nat.mul_zero, Nat.add_zero, BitVec.ofNat_add, ← h, BitVec.ofNat_toNat,
    BitVec.setWidth_eq]

theorem getLsbD_page {i : Nat} (f : Nat) (hi : i < 12) : (entryAddr f 0).getLsbD i = false := by
  have hmul : pageSize * f + 4 * 0 = 2 ^ 12 * f := rfl
  rw [entryAddr, BitVec.getLsbD_ofNat, hmul, Nat.testBit_two_pow_mul,
    decide_eq_false (Nat.not_le.mpr hi), Bool.false_and, Bool.and_false]

theorem ofWord_page (f : Nat) : (PageEntry.ofWord (entryAddr f 0)).present = false :=
  getLsbD_page f (by decide)

theorem ofWord_flags (hf : f < 2 ^ 20) :
    PageEntry.ofWord (entryAddr f 0 ||| pteFlags) =
      { present := true, writable := true, user := false, frame := f } := by
  have hor : (entryAddr f 0 ||| pteFlags).toNat = pageSize * f + 3 := by
    rw [BitVec.toNat_or, toNat_entryAddr hf (by decide)]
    exact (Nat.two_pow_add_eq_or_of_lt (show 3 < 2 ^ 12 by decide) f).symm
  have hbit (i : Nat) (hi : i < 12) :
      (entryAddr f 0 ||| pteFlags).getLsbD i = pteFlags.getLsbD i := by
    rw [BitVec.getLsbD_or, getLsbD_page f hi, Bool.false_or]
  unfold PageEntry.ofWord
  rw [hbit 0 (by decide), hbit 1 (by decide), hbit 2 (by decide), hor]
  congr 1
  simp only [pageSize]
  omega

theorem and_one_eq_zero (x : BitVec 32) : x &&& 1#32 = 0 ↔ ¬ (PageEntry.ofWord x).present := by
  have hpresent : (PageEntry.ofWord x).present = x.getLsbD 0 := rfl
  rw [hpresent, Bool.not_eq_true]
  constructor
  · intro h
    have hbit := congrArg (BitVec.getLsbD · 0) h
    simpa using hbit
  · intro h
    apply BitVec.eq_of_getLsbD_eq
    intro i hi
    rw [BitVec.getLsbD_and]
    rcases Nat.eq_zero_or_pos i with rfl | hpos
    · rw [h, Bool.false_and]
      rfl
    · simp
      omega

/-- The offset is masked off. -/
theorem and_pageMask (x : BitVec 32) :
    x &&& pageMask = entryAddr (PageEntry.ofWord x).frame 0 := by
  have hbits : ∀ i < 32, pageMask.getLsbD i = decide (12 ≤ i) := by decide
  have hshift : x &&& pageMask = (x >>> 12) <<< 12 := by
    apply BitVec.eq_of_getLsbD_eq
    intro i hi
    rw [BitVec.getLsbD_and, hbits i hi, BitVec.getLsbD_shiftLeft, BitVec.getLsbD_ushiftRight]
    rcases Nat.lt_or_ge i 12 with hlow | hhigh
    · simp [hlow]
    · simp [hhigh, hi, Nat.not_lt.mpr hhigh]
  have hlt := x.isLt
  apply BitVec.eq_of_toNat_eq
  rw [hshift, PageEntry.ofWord, toNat_entryAddr (by simp only [pageSize]; omega) (by decide),
    BitVec.toNat_shiftLeft, BitVec.toNat_ushiftRight, Nat.shiftLeft_eq, Nat.shiftRight_eq_div_pow]
  simp only [pageSize]
  omega

theorem frameToPa_frame (x : BitVec 32) :
    Bits.frameToPa (BitVec.ofNat 20 (PageEntry.ofWord x).frame) =
      entryAddr (PageEntry.ofWord x).frame 0 := by
  have hlt := x.isLt
  have hframe : (PageEntry.ofWord x).frame < 2 ^ 20 := by
    simp only [PageEntry.ofWord, pageSize]
    omega
  apply BitVec.eq_of_toNat_eq
  rw [toNat_entryAddr hframe (by decide), Bits.frameToPa, BitVec.toNat_shiftLeft,
    BitVec.toNat_setWidth, BitVec.toNat_ofNat, Nat.shiftLeft_eq]
  simp only [pageSize]
  omega

end Words

/-- The page tables that are in the memory. -/
def pagingOf (mem : Memory 32) : Paging where
  tables f k := PageEntry.ofWord (mem.word (entryAddr f k))
  pagingNext := 0
  vmaNext := 0
  mmNext := 0
  implNext := 0
  copyPt := none

theorem walk_eq (mem : Memory 32) {f : Nat} (va : BitVec 32) (vmas : List Vma) (hf : f < 2 ^ 20) :
    walk mem (entryAddr f 0) va =
      (mmVaToPa (pagingOf mem) { pd := f, vmas } va.toNat).map (BitVec.ofNat 32) := by
  have hcr3 : entryAddr f 0 &&& pageMask = entryAddr f 0 := by
    have hframe : (PageEntry.ofWord (entryAddr f 0)).frame = f := by
      rw [PageEntry.ofWord, toNat_entryAddr hf (by decide), Nat.mul_zero, Nat.add_zero]
      exact Nat.mul_div_cancel_left f (by decide)
    rw [and_pageMask, hframe]
  have hpde : entryAddr f 0 + ((va >>> 22) <<< 2) = entryAddr f (pdeIndex va.toNat) :=
    entryAddr_add f (toNat_pdeField va)
  unfold walk mmVaToPa pagingOf
  rw [hcr3, hpde]
  simp only [and_one_eq_zero, and_pageMask, entryAddr_add _ (toNat_pteField va)]
  split
  · rfl
  split
  · rfl
  · rw [Option.map_some]
    rw [← Bits.frameToPa_or]
    congr 2
    exact (frameToPa_frame _).symm

section Shows

variable {cfg : MemConfig} {img : KernelImage cfg} {mem : Memory 32} {st : Paging}

/-- The linker puts the paging structures into the megabytes of the kernel. -/
structure Placed (img : KernelImage cfg) : Prop where
  directory : 257 ≤ img.pageDirectory ∧ img.pageDirectory < 257 + 1024
  low : 257 ≤ img.lowPageTable ∧ img.lowPageTable < 257 + 1024
  high : 257 ≤ img.highPageTable ∧ img.highPageTable < 257 + 1024

/-- One of the pages with the paging structures. -/
def IsTable (img : KernelImage cfg) (f : Nat) : Prop :=
  f = img.pageDirectory ∨ f = img.lowPageTable ∨ f = img.highPageTable

theorem IsTable.bounds {f : Nat} (himg : Placed img) (hf : IsTable img f) :
    257 ≤ f ∧ f < 2 ^ 20 := by
  obtain ⟨hd, hl, hh⟩ := himg
  rcases hf with rfl | rfl | rfl
  · omega
  · omega
  · omega

/-- Of an entry that is not present nothing else counts. -/
def SameEntry (a b : PageEntry) : Prop := a.present = b.present ∧ (b.present → a = b)

/-- The paging structures in the memory. -/
def Shows (img : KernelImage cfg) (mem : Memory 32) (st : Paging) : Prop :=
  ∀ f, IsTable img f → ∀ k < 1024, SameEntry ((pagingOf mem).tables f k) (st.tables f k)

theorem Shows.store (himg : Placed img) (h : Shows img mem st) {f k : Nat} (hf : IsTable img f)
    (hk : k < 1024) {x : BitVec 32} {entry : PageEntry} (hx : PageEntry.ofWord x = entry) :
    Shows img (mem.setWord (entryAddr f k) x) (st.setEntry f k entry) := by
  intro g hg j hj
  have hword : (mem.setWord (entryAddr f k) x).word (entryAddr g j) =
      if g = f ∧ j = k then x else mem.word (entryAddr g j) :=
    word_setWord_entry (hf.bounds himg).2 (hg.bounds himg).2 hk hj
  rw [Paging.tables_setEntry, pagingOf]
  dsimp only
  rw [hword]
  split
  · rw [hx]
    exact ⟨rfl, fun _ => rfl⟩
  · exact h g hg j hj

theorem entryAddr_succ (f k : Nat) : entryAddr f k + 4 = entryAddr f (k + 1) := by
  rw [entryAddr, entryAddr, Nat.mul_succ, ← Nat.add_assoc, BitVec.ofNat_add _ 4]
  rfl

/-- `rep stosd` over entries of a page. -/
theorem repStosd_word {f g i j n : Nat} (x : BitVec 32) (hf : f < 2 ^ 20) (hg : g < 2 ^ 20)
    (hn : i + n ≤ 1024) (hj : j < 1024) :
    (repStosd x n (entryAddr f i) mem).word (entryAddr g j) =
      if g = f ∧ i ≤ j ∧ j < i + n then x else mem.word (entryAddr g j) := by
  induction n generalizing i mem with
  | zero => rw [repStosd, if_neg (by omega)]
  | succ n ih =>
      rw [repStosd, entryAddr_succ, ih (by omega),
        word_setWord_entry hf hg (by omega) hj]
      by_cases hlast : g = f ∧ j = i
      · rw [if_neg (by omega), if_pos hlast, if_pos (by omega)]
      · rw [if_neg hlast]
        by_cases hrest : g = f ∧ i + 1 ≤ j ∧ j < i + 1 + n
        · rw [if_pos hrest, if_pos (by omega)]
        · rw [if_neg hrest, if_neg (by omega)]

/-- The addresses that are stored into the entries say that they are not present. -/
theorem shows_clear (himg : Placed img) (mem : Memory 32) (st : Paging) :
    Shows img (clearPagingStructs img mem)
      (((st.ptClear img.lowPageTable).ptClear img.highPageTable).ptClear img.pageDirectory) := by
  have hlow := (IsTable.bounds himg (Or.inr (Or.inl rfl) : IsTable img img.lowPageTable)).2
  have hhigh := (IsTable.bounds himg (Or.inr (Or.inr rfl) : IsTable img img.highPageTable)).2
  have hdir := (IsTable.bounds himg (Or.inl rfl : IsTable img img.pageDirectory)).2
  intro f hf k hk
  have hbound := (hf.bounds himg).2
  have hcleared : ((((st.ptClear img.lowPageTable).ptClear img.highPageTable).ptClear
      img.pageDirectory).tables f k) = PageEntry.clear := by
    simp only [Paging.tables_ptClear]
    rcases hf with rfl | rfl | rfl
    · simp
    · simp
    · simp
  have hword : ∃ g, (clearPagingStructs img mem).word (entryAddr f k) = entryAddr g 0 := by
    unfold clearPagingStructs getLowPtPa getHighPtPa getPdPa
    simp only [vaToPa_symbolVa]
    rw [repStosd_word _ hdir hbound (by decide) hk, repStosd_word _ hhigh hbound (by decide) hk,
      repStosd_word _ hlow hbound (by decide) hk]
    split
    · exact ⟨_, rfl⟩
    split
    · exact ⟨_, rfl⟩
    split
    · exact ⟨_, rfl⟩
    · next hd hh hl =>
        rcases hf with rfl | rfl | rfl
        · exact absurd ⟨rfl, by omega⟩ hd
        · exact absurd ⟨rfl, by omega⟩ hl
        · exact absurd ⟨rfl, by omega⟩ hh
  obtain ⟨g, hg⟩ := hword
  rw [hcleared, pagingOf]
  dsimp only
  rw [hg]
  exact ⟨ofWord_page g, fun h => absurd h (by decide)⟩

/-- `map_page_pt`. -/
theorem Shows.mapPagePt (himg : Placed img) (h : Shows img mem st) {f pt : Nat}
    (hpt : IsTable img pt) (hf : f < 2 ^ 20) (va : BitVec 32) :
    Shows img (mapPagePt va (entryAddr f 0) pteFlags (entryAddr pt 0) mem)
      (Punix.mapPagePt st pt va.toNat (pageSize * f)) := by
  have hindex : pteIndex va.toNat < 1024 := Nat.mod_lt _ (by decide)
  rw [Premain.mapPagePt, Punix.mapPagePt, entryAddr_add pt (toNat_pteField va),
    Nat.mul_div_cancel_left f (by decide)]
  exact h.store himg hpt hindex (ofWord_flags hf)

theorem Shows.installPtAtPdePa (himg : Placed img) (h : Shows img mem st) {pt i : Nat}
    (hpt : IsTable img pt) (hi : i < 1024) {eax : BitVec 32} (heax : eax.toNat = i) :
    Shows img (installPtAtPdePa img eax (entryAddr pt 0) mem)
      (Punix.installPtAtPdePa st img.pageDirectory i pt) := by
  have hfield : (eax <<< 2).toNat = 4 * i := by
    rw [BitVec.toNat_shiftLeft, heax, Nat.shiftLeft_eq]
    omega
  unfold Premain.installPtAtPdePa Punix.installPtAtPdePa getPdPa
  dsimp only
  rw [vaToPa_symbolVa, entryAddr_add _ hfield]
  exact h.store himg (Or.inl rfl) hi (ofWord_flags (hpt.bounds himg).2)

/-- The loop of `map_kernel_high`. -/
theorem Shows.mapKernelHigh (himg : Placed img) (h : Shows img mem st) {va f n pt : Nat}
    (hpt : IsTable img pt) (hva : va + pageSize * n ≤ 2 ^ 32) (hf : f + n ≤ 2 ^ 20) :
    Shows img
      (mapKernelHighLoop pteFlags (entryAddr pt 0) n (BitVec.ofNat 32 va) (entryAddr f 0) mem)
      (Punix.mapKernelHigh st pt va (pageSize * f) n) := by
  induction n generalizing va f mem st with
  | zero => exact h
  | succ n ih =>
      have hnat : (BitVec.ofNat 32 va).toNat = va := by
        rw [BitVec.toNat_ofNat]
        simp only [pageSize] at hva
        omega
      have hstep := h.mapPagePt himg hpt (f := f) (by omega) (BitVec.ofNat 32 va)
      rw [hnat] at hstep
      have hnextVa : BitVec.ofNat 32 va + 4096 = BitVec.ofNat 32 (va + pageSize) := by
        rw [BitVec.ofNat_add]
        rfl
      have hnextPa : entryAddr f 0 + 4096 = entryAddr (f + 1) 0 := by
        rw [entryAddr, entryAddr, Nat.mul_succ, Nat.add_right_comm, BitVec.ofNat_add _ pageSize]
        rfl
      rw [mapKernelHighLoop, Punix.mapKernelHigh, hnextVa, hnextPa, ← Nat.mul_succ]
      apply ih hstep
      · rw [Nat.mul_succ] at hva
        omega
      · omega

/-- The stack is apart from the paging structures. -/
theorem Shows.leaveOnStack (himg : Placed img) (h : Shows img mem st) (left : Nat → UInt8) :
    Shows img (leaveOnStack left mem) st := by
  intro f hf k hk
  have hbound := hf.bounds himg
  have haddr := toNat_entryAddr hbound.2 hk
  have hbottom : (earlyStackTop - 24).toNat = 589800 := rfl
  have hword : (Premain.leaveOnStack left mem).word (entryAddr f k) = mem.word (entryAddr f k) := by
    rw [pageSize] at haddr
    apply word_fill_of_apart
    · omega
    · omega
    · omega
  have hsame := h f hf k hk
  rw [pagingOf] at hsame ⊢
  dsimp only at hsame ⊢
  rwa [hword]

theorem shows_kpremain (himg : Placed img) (left : Nat → Nat → UInt8) (mem : Memory 32)
    (tables : Nat → Nat → PageEntry) :
    Shows img (kpremain img left mem) (bootPaging img tables) := by
  have hlow : IsTable img img.lowPageTable := Or.inr (Or.inl rfl)
  have hhigh : IsTable img img.highPageTable := Or.inr (Or.inr rfl)
  have hpremain : (0x100000 : BitVec 32) = entryAddr 256 0 := rfl
  have hvga : (0xB8000 : BitVec 32) = entryAddr 0xB8 0 := rfl
  have hgdt : gdtAddr &&& pageMask = entryAddr 0xB9 0 := by decide
  have hgdtr : gdtrAddr &&& pageMask = entryAddr 0xB9 0 := by decide
  have hpages : (0x400000#32 >>> 12).toNat = kernelVaSize / pageSize := by decide
  have hstart : kernelPaStartSym = entryAddr 257 0 := rfl
  have hhighEnd : kernelVaBase + pageSize * (kernelVaSize / pageSize) ≤ 2 ^ 32 := by decide
  unfold kpremain mapIdentityPremain mapIdentityVga mapIdentityGdt Premain.mapKernelHigh
    getLowPtPa getHighPtPa bootPaging
  dsimp only
  rw [vaToPa_symbolVa, vaToPa_symbolVa, hgdt, hgdtr, if_pos rfl, hpages, hstart]
  refine Shows.leaveOnStack himg ?_ (left 7)
  apply Shows.installPtAtPdePa himg _ hhigh (by decide) (by decide)
  refine Shows.leaveOnStack himg ?_ (left 6)
  apply Shows.installPtAtPdePa himg _ hlow (by decide) (by decide)
  refine Shows.leaveOnStack himg ?_ (left 5)
  refine Shows.mapKernelHigh (f := 257) himg ?_ hhigh hhighEnd (by decide)
  refine Shows.leaveOnStack himg ?_ (left 4)
  apply Shows.mapPagePt himg _ hlow (f := 0xB9) (by decide) (entryAddr 0xB9 0)
  refine Shows.leaveOnStack himg ?_ (left 3)
  apply Shows.mapPagePt himg _ hlow (f := 0xB8) (by decide) (0xB8000)
  refine Shows.leaveOnStack himg ?_ (left 2)
  apply Shows.mapPagePt himg _ hlow (f := 256) (by decide) (0x100000)
  exact Shows.leaveOnStack himg (shows_clear himg _ _) (left 1)

/-- The low page table maps three pages to themselves. -/
theorem bootPaging_low (tables : Nat → Nat → PageEntry) (x : Nat) :
    (bootPaging img tables).tables img.lowPageTable x =
      if x = 256 ∨ x = 0xB8 ∨ x = 0xB9 then
        { present := true, writable := true, user := false, frame := x }
      else PageEntry.clear := by
  have hpremain : pteIndex premainPa = 256 ∧ premainPa / pageSize = 256 := ⟨rfl, rfl⟩
  have hvga : pteIndex vgaTextBufferVa = 0xB8 ∧ vgaTextBufferVa / pageSize = 0xB8 := ⟨rfl, rfl⟩
  have hgdt : pteIndex gdtPa = 0xB9 ∧ gdtPa / pageSize = 0xB9 := ⟨rfl, rfl⟩
  simp only [bootPaging, Punix.installPtAtPdePa, Paging.tables_setEntry, tables_mapKernel,
    tables_mapPagePt, Paging.tables_ptClear, Ne.symm img.pd_ne_low, img.low_ne_high, true_and,
    false_and, if_false, if_true, hpremain, hvga, hgdt]
  by_cases hg : x = 0xB9
  · simp [hg]
  by_cases hv : x = 0xB8
  · simp [hv]
  by_cases hp : x = 256
  · simp [hp]
  · simp [hg, hv, hp]

/-- Where the premain page, the VGA text buffer and the GDT are. -/
def IdentityMapped (va : Nat) : Prop :=
  va / pageSize = 256 ∨ va / pageSize = 0xB8 ∨ va / pageSize = 0xB9

instance (va : Nat) : Decidable (IdentityMapped va) := by
  unfold IdentityMapped
  infer_instance

theorem mmVaToPa_bootPaging (tables : Nat → Nat → PageEntry) (vmas : List Vma) {va : Nat}
    (hva : va < 2 ^ 32) :
    mmVaToPa (bootPaging img tables) { pd := img.pageDirectory, vmas } va =
      if IdentityMapped va then some va
      else if kernelVaBase ≤ va ∧ va < kernelVaBase + kernelVaSize then
        some (va - kernelVaBase + kernelPaStart)
      else none := by
  have hbase : kernelVaBase = 2147483648 := rfl
  have hsize : kernelVaSize = 4194304 := rfl
  have hstart : kernelPaStart = 1052672 := rfl
  have hpde : pdeIndex va = va / 4194304 := rfl
  have hpte : pteIndex va = va / 4096 % 1024 := rfl
  have hdiv : va / 4194304 = va / 4096 / 1024 := by omega
  have hid : IdentityMapped va ↔ va / 4096 = 256 ∨ va / 4096 = 0xB8 ∨ va / 4096 = 0xB9 := Iff.rfl
  rw [hbase, hsize, hstart]
  unfold mmVaToPa
  dsimp only
  rw [bootPaging_directory]
  by_cases hkernel : pdeIndex va = 512
  · have hnot : ¬ IdentityMapped va := by
      rw [hid]
      omega
    have hin : 2147483648 ≤ va ∧ va < 2147483648 + 4194304 := by omega
    rw [if_pos hkernel, if_neg (by simp), bootPaging_high img tables _ (by omega), if_neg (by simp),
      if_neg hnot, if_pos hin]
    refine congrArg some ?_
    simp only [pageSize]
    omega
  rw [if_neg hkernel]
  have hout : ¬ (2147483648 ≤ va ∧ va < 2147483648 + 4194304) := by omega
  by_cases hfirst : pdeIndex va = 0
  · rw [if_pos hfirst, if_neg (by simp), bootPaging_low]
    by_cases hmapped : pteIndex va = 256 ∨ pteIndex va = 0xB8 ∨ pteIndex va = 0xB9
    · have hyes : IdentityMapped va := by
        rw [hid]
        omega
      rw [if_pos hmapped, if_neg (by simp), if_pos hyes]
      refine congrArg some ?_
      simp only [pageSize]
      omega
    · have hnot : ¬ IdentityMapped va := by
        rw [hid]
        omega
      rw [if_neg hmapped, if_pos (by decide), if_neg hnot, if_neg hout]
  · have hnot : ¬ IdentityMapped va := by
      rw [hid]
      omega
    rw [if_neg hfirst, if_pos (by decide), if_neg hnot, if_neg hout]

/-- Entries that are not present do not count for a translation. -/
theorem Shows.mmVaToPa (tables : Nat → Nat → PageEntry) (h : Shows img mem (bootPaging img tables))
    (vmas : List Vma) {va : Nat} (hva : va < 2 ^ 32) :
    mmVaToPa (pagingOf mem) { pd := img.pageDirectory, vmas } va =
      mmVaToPa (bootPaging img tables) { pd := img.pageDirectory, vmas } va := by
  have hindex : pdeIndex va < 1024 := by
    have hcovers : pdeIndex va = va / 4194304 := rfl
    omega
  obtain ⟨hsame, hentry⟩ := h _ (Or.inl rfl) _ hindex
  unfold Punix.mmVaToPa
  dsimp only
  by_cases hpde : ((bootPaging img tables).tables img.pageDirectory (pdeIndex va)).present
  · have htable : IsTable img
        ((bootPaging img tables).tables img.pageDirectory (pdeIndex va)).frame := by
      rw [bootPaging_directory] at hpde ⊢
      split at hpde
      · next hi =>
          rw [if_pos hi]
          exact Or.inr (Or.inr rfl)
      · split at hpde
        · next hne hi =>
            rw [if_neg hne, if_pos hi]
            exact Or.inr (Or.inl rfl)
        · exact absurd hpde (by decide)
    obtain ⟨hsame', hentry'⟩ := h _ htable (pteIndex va) (Nat.mod_lt _ (by decide))
    rw [hentry hpde, hsame']
    by_cases hpte : ((bootPaging img tables).tables
        ((bootPaging img tables).tables img.pageDirectory (pdeIndex va)).frame (pteIndex va)).present
    · rw [hentry' hpte]
    · rw [if_pos hpte, if_pos hpte]
  · rw [hsame, if_pos hpde, if_pos hpde]

end Shows

section Outside

variable {cfg : MemConfig} {img : KernelImage cfg} {mem : Memory 32} {a : BitVec 32}

theorem setWord_entry_outside {f k : Nat} (x : BitVec 32) (hf : f < 2 ^ 20) (hk : k < 1024)
    (ha : a.toNat / pageSize ≠ f) : mem.setWord (entryAddr f k) x a = mem a := by
  have haddr := toNat_entryAddr hf hk
  simp only [pageSize] at haddr ha
  apply setWord_apart
  · omega
  · omega

theorem repStosd_outside {f i n : Nat} (x : BitVec 32) (hf : f < 2 ^ 20) (hn : i + n ≤ 1024)
    (ha : a.toNat / pageSize ≠ f) : repStosd x n (entryAddr f i) mem a = mem a := by
  induction n generalizing i mem with
  | zero => rfl
  | succ n ih =>
      rw [repStosd, entryAddr_succ, ih (by omega), setWord_entry_outside x hf (by omega) ha]

theorem mapPagePt_outside {pt : Nat} (va pa flags : BitVec 32) (hpt : pt < 2 ^ 20)
    (ha : a.toNat / pageSize ≠ pt) : mapPagePt va pa flags (entryAddr pt 0) mem a = mem a := by
  rw [mapPagePt, entryAddr_add pt (toNat_pteField va)]
  exact setWord_entry_outside _ hpt (Nat.mod_lt _ (by decide)) ha

theorem mapKernelHighLoop_outside {pt : Nat} (n : Nat) (va pa flags : BitVec 32) (hpt : pt < 2 ^ 20)
    (ha : a.toNat / pageSize ≠ pt) :
    mapKernelHighLoop flags (entryAddr pt 0) n va pa mem a = mem a := by
  induction n generalizing va pa mem with
  | zero => rfl
  | succ n ih => rw [mapKernelHighLoop, ih, mapPagePt_outside _ _ _ hpt ha]

theorem installPtAtPdePa_outside {eax : BitVec 32} (ebx : BitVec 32) (himg : Placed img)
    (heax : eax.toNat < 1024) (ha : a.toNat / pageSize ≠ img.pageDirectory) :
    installPtAtPdePa img eax ebx mem a = mem a := by
  have hfield : (eax <<< 2).toNat = 4 * eax.toNat := by
    rw [BitVec.toNat_shiftLeft, Nat.shiftLeft_eq]
    omega
  have hdir := (IsTable.bounds himg (Or.inl rfl)).2
  unfold installPtAtPdePa getPdPa
  rw [vaToPa_symbolVa, entryAddr_add _ hfield]
  exact setWord_entry_outside _ hdir heax ha

/-- The words that calls push. -/
def OnStack (a : BitVec 32) : Prop :=
  (earlyStackTop - 24).toNat ≤ a.toNat ∧ a.toNat < earlyStackTop.toNat

theorem leaveOnStack_outside (left : Nat → UInt8) (ha : ¬ OnStack a) :
    leaveOnStack left mem a = mem a := by
  have hbottom : (earlyStackTop - 24).toNat = 589800 := rfl
  have htop : earlyStackTop.toNat = 589824 := rfl
  rw [OnStack, hbottom, htop] at ha
  apply fill_outside
  rw [BitVec.toNat_sub, hbottom]
  have hlt := a.isLt
  omega

/-- Apart from the paging structures and the stack only the GDT is written. -/
theorem kpremain_outside (himg : Placed img) (left : Nat → Nat → UInt8) (mem : Memory 32)
    (ha : ¬ IsTable img (a.toNat / pageSize)) (hstack : ¬ OnStack a) :
    kpremain img left mem a = buildMinGdtLow mem a := by
  have hdir := (IsTable.bounds himg (Or.inl rfl)).2
  have hlow := (IsTable.bounds himg (Or.inr (Or.inl rfl))).2
  have hhigh := (IsTable.bounds himg (Or.inr (Or.inr rfl))).2
  simp only [IsTable, not_or] at ha
  obtain ⟨had, hal, hah⟩ := ha
  unfold kpremain mapIdentityPremain mapIdentityVga mapIdentityGdt mapKernelHigh
    clearPagingStructs getLowPtPa getHighPtPa getPdPa
  simp only [vaToPa_symbolVa]
  rw [leaveOnStack_outside _ hstack, installPtAtPdePa_outside _ himg (by decide) had,
    leaveOnStack_outside _ hstack, installPtAtPdePa_outside _ himg (by decide) had,
    leaveOnStack_outside _ hstack, mapKernelHighLoop_outside _ _ _ _ hhigh hah,
    leaveOnStack_outside _ hstack, if_pos (by decide), mapPagePt_outside _ _ _ hlow hal,
    leaveOnStack_outside _ hstack, mapPagePt_outside _ _ _ hlow hal,
    leaveOnStack_outside _ hstack, mapPagePt_outside _ _ _ hlow hal,
    leaveOnStack_outside _ hstack, repStosd_outside _ hdir (by decide) had,
    repStosd_outside _ hhigh (by decide) hah, repStosd_outside _ hlow (by decide) hal,
    leaveOnStack_outside _ hstack]

end Outside

section Gdt

variable (mem : Memory 32)

theorem buildMinGdtLow_words :
    (buildMinGdtLow mem).WordsAt (gdtAddr + 8) [gdtLodword 0 gdtLimit,
      gdtHidword 0 0x9A gdtFlags gdtLimit, gdtLodword 0 gdtLimit,
      gdtHidword 0 0x92 gdtFlags gdtLimit] := by
  have hself (m : Memory 32) (a x : BitVec 32) : (m.setWord a x).word a = x :=
    word_setWord m (by decide) x
  have hcode : gdtAddr + 8 + 4 = gdtAddr + 12 := by decide
  have hdata : gdtAddr + 12 + 4 = gdtAddr + 16 := by decide
  have hlast : gdtAddr + 16 + 4 = gdtAddr + 20 := by decide
  unfold buildMinGdtLow
  simp only [wordsAt_cons, hcode, hdata, hlast]
  simp (disch := decide) only [word_setWord_of_apart, word_fill_of_apart, hself, true_and]
  trivial

theorem buildMinGdtLow_lgdt : lgdt (buildMinGdtLow mem) gdtrAddr = (23, gdtAddr) := by
  have hlow : buildMinGdtLow mem gdtrAddr = 23 := by
    unfold buildMinGdtLow
    rw [setWord_apart (by decide) (by decide), fill_inside _ _ (by decide) (by decide)]
    rfl
  have hhigh : buildMinGdtLow mem (gdtrAddr + 1) = 0 := by
    unfold buildMinGdtLow
    rw [setWord_apart (by decide) (by decide), fill_inside _ _ (by decide) (by decide)]
    rfl
  have hbase : (buildMinGdtLow mem).word (gdtrAddr + 2) = gdtAddr :=
    word_setWord _ (by decide) gdtAddr
  rw [lgdt, word_setWidth, hlow, hhigh, hbase]
  rfl

/-- What a selector for the table of `build_min_gdt_low` stands for: all of the memory. -/
theorem buildMinGdtLow_descriptor :
    descriptor (buildMinGdtLow mem) gdtAddr 8 = ⟨0, 0xFFFFFFFF, 0x9A, true⟩ ∧
      descriptor (buildMinGdtLow mem) gdtAddr 16 = ⟨0, 0xFFFFFFFF, 0x92, true⟩ := by
  obtain ⟨hcodeLow, hcodeHigh, hdataLow, hdataHigh, -⟩ := buildMinGdtLow_words mem
  have hdata : gdtAddr + 16 = gdtAddr + 8 + 4 + 4 := by decide
  constructor
  · rw [descriptor, hcodeLow, hcodeHigh]
    decide
  · rw [descriptor, hdata, hdataLow, hdataHigh]
    decide

variable {mem} {cfg : MemConfig} {img : KernelImage cfg}

/-- The words of the GDT, which is behind the stack and in front of the kernel. -/
theorem kpremain_word (himg : Placed img) (left : Nat → Nat → UInt8) {a : BitVec 32}
    (hlow : earlyStackTop.toNat ≤ a.toNat) (hhigh : a.toNat + 4 ≤ 257 * pageSize) :
    (kpremain img left mem).word a = (buildMinGdtLow mem).word a := by
  apply word_congr
  intro i hi
  rw [pageSize] at hhigh
  have haddr : (a + BitVec.ofNat 32 i).toNat = a.toNat + i := by
    rw [BitVec.toNat_add, BitVec.toNat_ofNat]
    omega
  apply kpremain_outside himg left
  · intro htable
    have hbound := (htable.bounds himg).1
    rw [haddr, pageSize] at hbound
    omega
  · rintro ⟨_, habove⟩
    rw [haddr] at habove
    omega

theorem buildMinGdtLow_outside {a : BitVec 32}
    (ha : a.toNat < gdtAddr.toNat ∨ gdtAddr.toNat + 30 ≤ a.toNat) :
    buildMinGdtLow mem a = mem a := by
  have hgdt : gdtAddr.toNat = 757760 := rfl
  rw [hgdt] at ha
  have hapart (m : Memory 32) (x : BitVec 32) {b : BitVec 32} (hlow : 757760 ≤ b.toNat)
      (hhigh : b.toNat + 4 ≤ 757790) : m.setWord b x a = m a := by
    apply setWord_apart
    · omega
    · omega
  unfold buildMinGdtLow
  rw [hapart _ _ (by decide) (by decide), fill_outside, hapart _ _ (by decide) (by decide),
    hapart _ _ (by decide) (by decide), hapart _ _ (by decide) (by decide),
    hapart _ _ (by decide) (by decide), hapart _ _ (by decide) (by decide),
    hapart _ _ (by decide) (by decide)]
  have hlimit : gdtrAddr.toNat = 757784 := rfl
  rw [BitVec.toNat_sub, hlimit]
  have hlt := a.isLt
  omega

/-- With paging switched on the processor goes on: the pages of the code that switches it on, of
the VGA text and of the GDT are at their own addresses, the megabytes of the kernel are where
they have been loaded to, and there is nothing else. The segments are the whole memory, and what
is neither the GDT nor a paging structure nor on the stack is as it was loaded. -/
theorem kpremain_boots (himg : Placed img) (left : Nat → Nat → UInt8) (mem : Memory 32) :
    (∀ va, walk (kpremain img left mem) (getPdPa img) va =
      if IdentityMapped va.toNat then some va
      else if kernelVaBase ≤ va.toNat ∧ va.toNat < kernelVaBase + kernelVaSize then
        some (vaToPa va)
      else none) ∧
    (lgdt (kpremain img left mem) gdtrAddr = (23, gdtAddr) ∧
      descriptor (kpremain img left mem) gdtAddr 8 = ⟨0, 0xFFFFFFFF, 0x9A, true⟩ ∧
      descriptor (kpremain img left mem) gdtAddr 16 = ⟨0, 0xFFFFFFFF, 0x92, true⟩) ∧
    ∀ a, ¬ IsTable img (a.toNat / pageSize) →
      a.toNat < gdtAddr.toNat ∨ gdtAddr.toNat + 30 ≤ a.toNat → ¬ OnStack a →
        kpremain img left mem a = mem a := by
  refine ⟨?_, ⟨?_, ?_, ?_⟩, ?_⟩
  · intro va
    have hdir := (IsTable.bounds himg (Or.inl rfl)).2
    have hshows := shows_kpremain himg left mem fun _ _ => PageEntry.clear
    rw [getPdPa, vaToPa_symbolVa, walk_eq _ va [] hdir, hshows.mmVaToPa _ [] va.isLt,
      mmVaToPa_bootPaging _ [] va.isLt]
    have hstart : kernelPaStart = 1052672 := rfl
    split
    · rw [Option.map_some, BitVec.ofNat_toNat, BitVec.setWidth_eq]
    split
    · next hin =>
        refine congrArg some ?_
        apply BitVec.eq_of_toNat_eq
        have hbase : kernelVaBase = 2147483648 := rfl
        have hsize : kernelVaSize = 4194304 := rfl
        rw [hbase, hsize] at hin
        rw [vaToPa, hbase, hstart, BitVec.toNat_ofNat, BitVec.toNat_add, BitVec.toNat_sub]
        have hbaseSym : kernelVaBaseSym.toNat = 2147483648 := rfl
        have hstartSym : kernelPaStartSym.toNat = 1052672 := rfl
        rw [hbaseSym, hstartSym]
        omega
    · rfl
  · rw [lgdt, kpremain_word himg left (by decide) (by decide),
      kpremain_word himg left (by decide) (by decide)]
    exact buildMinGdtLow_lgdt mem
  · rw [descriptor, kpremain_word himg left (by decide) (by decide),
      kpremain_word himg left (by decide) (by decide)]
    exact (buildMinGdtLow_descriptor mem).1
  · rw [descriptor, kpremain_word himg left (by decide) (by decide),
      kpremain_word himg left (by decide) (by decide)]
    exact (buildMinGdtLow_descriptor mem).2
  · intro a htable hgdt hstack
    rw [kpremain_outside himg left mem htable hstack, buildMinGdtLow_outside hgdt]

/-- A byte of the kernel and one that is not mapped; in the memory, one in front of the kernel. -/
theorem kpremain_boots_example :
    walk (kpremain exampleImage (fun _ _ => 0xAA) fun _ => 1) (getPdPa exampleImage) 0x80000010 =
        some 0x101010 ∧
      walk (kpremain exampleImage (fun _ _ => 0xAA) fun _ => 1) (getPdPa exampleImage) 0x400000 =
        none ∧
      kpremain exampleImage (fun _ _ => 0xAA) (fun _ => 1) 0x100000 = 1 := by
  have himg : Placed exampleImage := ⟨by decide, by decide, by decide⟩
  obtain ⟨hwalk, -, hsame⟩ := kpremain_boots himg (fun _ _ => 0xAA) fun _ => 1
  rw [hwalk, hwalk]
  refine ⟨by decide, by decide, hsame 0x100000 ?_ (.inr (by decide)) ?_⟩
  · rintro (h | h | h)
    · exact absurd h (by decide)
    · exact absurd h (by decide)
    · exact absurd h (by decide)
  · exact fun h => absurd h.2 (by decide)

end Gdt

end Premain

end Punix
