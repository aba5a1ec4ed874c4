import Punix.Lib.TwoLevel
import Punix.Arch.MemoryMap

/-!
Mapping and unmapping of ranges in any address space whose page directory enters each page
table once. The page directory and its page tables are a table of two levels: a mapping
sets the translation of the pages of its range, unmapping clears it, and neither touches
another page. `Bits` has the functions of `mm.c` on machine words, with the loops on the
size that is left.
-/

namespace Punix

open Lib

namespace Bits

/-- `PTE_INDEX`. -/
def pteIndex (va : BitVec 32) : Nat := ((va >>> 12) &&& 0x3FF#32).toNat

/-- `PDE_INDEX`. -/
def pdeIndex (va : BitVec 32) : Nat := (va >>> 22).toNat

/-- What `pte_set` stores in the field for the frame, which has 20 bits. -/
def frameField (pa : BitVec 32) : BitVec 20 := (pa >>> 12).setWidth 20

/-- `FRAME_TO_PA`. -/
def frameToPa (frame : BitVec 20) : BitVec 32 := frame.setWidth 32 <<< 12

section Loops

variable {cfg : MemConfig} (img : KernelImage cfg)

/-- The beginning of the loop of `vm_map_impl`. -/
def vmEnsurePt (st : Paging) (pd : Nat) (va : BitVec 32) : Option Paging :=
  if (st.tables pd (pdeIndex va)).present then some st
  else do
    let (pt, st) ← mmAllocPagePa img st
    some ((st.ptClear pt).setEntry pd (pdeIndex va)
      { present := true, writable := true, user := false, frame := pt })

/-- The rest of the body. -/
def vmSetPte (st : Paging) (pd : Nat) (va pa : BitVec 32) : Paging :=
  let pde := st.tables pd (pdeIndex va)
  let user := decide (va < BitVec.ofNat 32 kernelVaBase)
  let st := if user then st.setEntry pd (pdeIndex va) { pde with user := true } else st
  st.setEntry pde.frame (pteIndex va)
    { present := true, writable := true, user, frame := (frameField pa).toNat }

/-- `vm_map_impl`; `none` while the loop is running after so many rounds. -/
def vmMapImpl (pd : Nat) : Nat → BitVec 32 → BitVec 32 → BitVec 32 → Paging → Option Paging
  | 0, _, _, _, _ => none
  | fuel + 1, va, pa, size, st =>
      if size = 0 then some st
      else
        match vmEnsurePt img st pd va with
        | none => some st
        | some st =>
            vmMapImpl pd fuel (va + 4096) (pa + 4096) (size - 4096) (vmSetPte st pd va pa)

/-- `vm_unmap_impl`; `none` while the loop is running after so many rounds. -/
def vmUnmapImpl (pd : Nat) : Nat → BitVec 32 → BitVec 32 → Paging → Option Paging
  | 0, _, _, _ => none
  | fuel + 1, va, size, st =>
      if size = 0 then some st
      else
        let pde := st.tables pd (pdeIndex va)
        let st := if pde.present then st.pteClear pde.frame (pteIndex va) else st
        vmUnmapImpl pd fuel (va + 4096) (size - 4096) st

/-- `mm_add_vma`, with the area that it returns. -/
def mmAddVma (fuel : Nat) (st : Paging) (mm : AddressSpace) (type va size flags pa : BitVec 32) :
    Option (Option Vma × AddressSpace × Paging) :=
  if st.vmaNext ≥ cfg.maxVmasTotal then some (none, mm, st)
  else
    let vma : Vma :=
      { type := type.toNat, baseVa := va.toNat, basePa := pa.toNat, length := size.toNat,
        flags := flags.toNat }
    (vmMapImpl img mm.pd fuel va pa size { st with vmaNext := st.vmaNext + 1 }).map fun st =>
      (some vma, { mm with vmas := vma :: mm.vmas }, st)

end Loops

/-- `mm_va_to_pa`. -/
def mmVaToPa (st : Paging) (mm : AddressSpace) (va : BitVec 32) : Option (BitVec 32) :=
  let pde := st.tables mm.pd (pdeIndex va)
  if ¬ pde.present then none
  else
    let pte := st.tables pde.frame (pteIndex va)
    if ¬ pte.present then none
    else some (frameToPa (BitVec.ofNat 20 pte.frame) ||| (va &&& 4095))

theorem pteIndex_eq (va : BitVec 32) : pteIndex va = Punix.pteIndex va.toNat := by
  have hmask : (0x3FF : Nat) = 2 ^ 10 - 1 := rfl
  rw [pteIndex, Punix.pteIndex, BitVec.toNat_and, BitVec.toNat_ushiftRight, Nat.shiftRight_eq_div_pow]
  change va.toNat / 2 ^ 12 &&& 0x3FF = _
  rw [hmask, Nat.and_two_pow_sub_one_eq_mod]
  rfl

theorem pdeIndex_eq (va : BitVec 32) : pdeIndex va = Punix.pdeIndex va.toNat := by
  rw [pdeIndex, Punix.pdeIndex, BitVec.toNat_ushiftRight, Nat.shiftRight_eq_div_pow]
  rfl

theorem pdeIndex_lt (va : BitVec 32) : pdeIndex va < 1024 := by
  have hlt := va.isLt
  rw [pdeIndex_eq]
  simp only [Punix.pdeIndex, vmPtCoversBytes, mb]
  omega

theorem frameField_toNat (pa : BitVec 32) : (frameField pa).toNat = pa.toNat / pageSize := by
  have hlt := pa.isLt
  rw [frameField, BitVec.toNat_setWidth, BitVec.toNat_ushiftRight, Nat.shiftRight_eq_div_pow]
  simp only [pageSize]
  omega

/-- The offset does not reach into the frame. -/
theorem frameToPa_or (frame : Nat) (va : BitVec 32) :
    frameToPa (BitVec.ofNat 20 frame) ||| (va &&& 4095) =
      BitVec.ofNat 32 (frame * pageSize + va.toNat % pageSize) := by
  have hoffset : va.toNat % 2 ^ 12 < 2 ^ 12 := Nat.mod_lt _ (by decide)
  have hmask : (4095 : Nat) = 2 ^ 12 - 1 := rfl
  apply BitVec.eq_of_toNat_eq
  rw [BitVec.toNat_or, BitVec.toNat_and, frameToPa, BitVec.toNat_shiftLeft, BitVec.toNat_setWidth,
    BitVec.toNat_ofNat, BitVec.toNat_ofNat]
  change (frame % 2 ^ 20 % 2 ^ 32) <<< 12 % 2 ^ 32 ||| (va.toNat &&& 4095) = _
  have hframe : (frame % 2 ^ 20 % 2 ^ 32) <<< 12 % 2 ^ 32 = 2 ^ 12 * (frame % 2 ^ 20) := by
    rw [Nat.shiftLeft_eq]
    omega
  rw [hmask, Nat.and_two_pow_sub_one_eq_mod, hframe, ← Nat.two_pow_add_eq_or_of_lt hoffset]
  simp only [pageSize]
  omega

theorem mmVaToPa_eq (st : Paging) (mm : AddressSpace) (va : BitVec 32) :
    mmVaToPa st mm va = (Punix.mmVaToPa st mm va.toNat).map (BitVec.ofNat 32) := by
  unfold mmVaToPa Punix.mmVaToPa
  rw [pdeIndex_eq, pteIndex_eq]
  dsimp only
  split
  · rfl
  split
  · rfl
  · rw [frameToPa_or]
    rfl

section Loops

variable {cfg : MemConfig} {img : KernelImage cfg} {st : Paging} {pd fuel n : Nat}
  {va pa size : BitVec 32}

theorem vmEnsurePt_eq : vmEnsurePt img st pd va = Punix.vmEnsurePt img st pd va.toNat := by
  unfold vmEnsurePt Punix.vmEnsurePt
  rw [pdeIndex_eq]

theorem vmSetPte_eq : vmSetPte st pd va pa = Punix.vmSetPte st pd va.toNat pa.toNat := by
  have hbelow : va < BitVec.ofNat 32 kernelVaBase ↔ va.toNat < kernelVaBase := Iff.rfl
  unfold vmSetPte Punix.vmSetPte
  simp only [pdeIndex_eq, pteIndex_eq, frameField_toNat, hbelow]

theorem size_eq_zero (h : size.toNat = pageSize * 0) : size = 0 := by
  rw [Nat.mul_zero] at h
  exact BitVec.eq_of_toNat_eq h

/-- One page less is left. -/
theorem size_sub_page (h : size.toNat = pageSize * (n + 1)) :
    size ≠ 0 ∧ (size - 4096).toNat = pageSize * n := by
  have hlt := size.isLt
  have hpage : (4096 : BitVec 32).toNat = 4096 := rfl
  simp only [pageSize] at h ⊢
  constructor
  · rintro rfl
    have hzero : (0 : BitVec 32).toNat = 0 := rfl
    omega
  · rw [BitVec.toNat_sub, hpage]
    omega

/-- An address wraps around only behind the last page. -/
theorem add_page {a : BitVec 32} (h : a.toNat + pageSize * (n + 1) ≤ 2 ^ 32) :
    (a + 4096).toNat + pageSize * n ≤ 2 ^ 32 ∧
      (n ≠ 0 → (a + 4096).toNat = a.toNat + pageSize) := by
  have hpage : (4096 : BitVec 32).toNat = 4096 := rfl
  rw [BitVec.toNat_add, hpage]
  simp only [pageSize] at h ⊢
  omega

/-- The loop of `vm_map_impl` ends after the pages of the range. -/
theorem vmMapImpl_eq (hsize : size.toNat = pageSize * n) (hva : va.toNat + size.toNat ≤ 2 ^ 32)
    (hpa : pa.toNat + size.toNat ≤ 2 ^ 32) (hfuel : n < fuel) :
    vmMapImpl img pd fuel va pa size st =
      some (Punix.vmMapImpl img pd n va.toNat pa.toNat st) := by
  induction n generalizing fuel va pa size st with
  | zero =>
      obtain ⟨fuel, rfl⟩ := Nat.exists_eq_succ_of_ne_zero (Nat.ne_zero_of_lt hfuel)
      have hzero := size_eq_zero hsize
      rw [vmMapImpl, if_pos hzero]
      rfl
  | succ n ih =>
      obtain ⟨fuel, rfl⟩ := Nat.exists_eq_succ_of_ne_zero (Nat.ne_zero_of_lt hfuel)
      obtain ⟨hne, hrest⟩ := size_sub_page hsize
      rw [hsize] at hva hpa
      obtain ⟨hva', hnextVa⟩ := add_page hva
      obtain ⟨hpa', hnextPa⟩ := add_page hpa
      rw [← hrest] at hva' hpa'
      rw [vmMapImpl, if_neg hne, Punix.vmMapImpl, vmEnsurePt_eq]
      cases Punix.vmEnsurePt img st pd va.toNat with
      | none => rfl
      | some st' =>
          dsimp only
          rw [ih hrest hva' hpa' (Nat.lt_of_succ_lt_succ hfuel), vmSetPte_eq]
          rcases Nat.eq_zero_or_pos n with rfl | hpos
          · rw [Punix.vmMapImpl, Punix.vmMapImpl]
          · rw [hnextVa (by omega), hnextPa (by omega)]

/-- So does the loop of `vm_unmap_impl`. -/
theorem vmUnmapImpl_eq (hsize : size.toNat = pageSize * n)
    (hva : va.toNat + size.toNat ≤ 2 ^ 32) (hfuel : n < fuel) :
    vmUnmapImpl pd fuel va size st = some (Punix.vmUnmapImpl pd n va.toNat st) := by
  induction n generalizing fuel va size st with
  | zero =>
      obtain ⟨fuel, rfl⟩ := Nat.exists_eq_succ_of_ne_zero (Nat.ne_zero_of_lt hfuel)
      have hzero := size_eq_zero hsize
      rw [vmUnmapImpl, if_pos hzero]
      rfl
  | succ n ih =>
      obtain ⟨fuel, rfl⟩ := Nat.exists_eq_succ_of_ne_zero (Nat.ne_zero_of_lt hfuel)
      obtain ⟨hne, hrest⟩ := size_sub_page hsize
      rw [hsize] at hva
      obtain ⟨hva', hnext⟩ := add_page hva
      rw [← hrest] at hva'
      rw [vmUnmapImpl, if_neg hne, Punix.vmUnmapImpl, pdeIndex_eq, pteIndex_eq]
      dsimp only
      rw [ih hrest hva' (Nat.lt_of_succ_lt_succ hfuel)]
      rcases Nat.eq_zero_or_pos n with rfl | hpos
      · rw [Punix.vmUnmapImpl, Punix.vmUnmapImpl]
      · rw [hnext (by omega)]

end Loops

end Bits

/-- What the page directory enters, and all page tables; the page of the directory itself is
none of them. -/
def Paging.view (st : Paging) (pd : Nat) : TwoLevel Nat Nat where
  root i := if i < 1024 ∧ (st.tables pd i).present then some (st.tables pd i).frame else none
  page f k := if f ≠ pd ∧ (st.tables f k).present then some (st.tables f k).frame else none

/-- The page directory enters each page table once, and neither it nor any of its page tables
is a page that the pool still has to give. -/
structure Separate {cfg : MemConfig} (img : KernelImage cfg) (st : Paging) (pd : Nat) : Prop where
  distinct : (st.view pd).Distinct
  directory : (st.view pd).Unused pd
  pool : ∀ x, st.pagingNext ≤ x → x < cfg.pagingPagesTotal →
    pd ≠ img.pagingPool + x ∧ (st.view pd).Unused (img.pagingPool + x)

section View

variable {st : Paging} {pd f i k : Nat}

theorem Paging.root_view_eq_some (hi : i < 1024) (h : (st.tables pd i).present) :
    (st.view pd).root i = some (st.tables pd i).frame := if_pos ⟨hi, h⟩

theorem Paging.root_view_eq_none (h : ¬ (st.tables pd i).present) : (st.view pd).root i = none :=
  if_neg fun hboth => h hboth.2

/-- Writing an entry of a page table. -/
theorem Paging.view_setEntry (hf : f ≠ pd) (entry : PageEntry) :
    (st.setEntry f k entry).view pd =
      (st.view pd).store f k (if entry.present then some entry.frame else none) := by
  have hroot (j : Nat) : ((st.setEntry f k entry).view pd).root j = (st.view pd).root j := by
    simp only [view, tables_setEntry, Ne.symm hf, false_and, if_false]
  have hpage (g j : Nat) : ((st.setEntry f k entry).view pd).page g j =
      ((st.view pd).store f k (if entry.present then some entry.frame else none)).page g j := by
    simp only [view, TwoLevel.store, tables_setEntry, Function.update_apply]
    by_cases hg : g = f
    · subst hg
      by_cases hj : j = k
      · simp [hj, hf]
      · simp [hj]
    · simp [hg]
  unfold view TwoLevel.store at *
  congr 1
  · exact funext hroot
  · funext g j
    exact hpage g j

/-- The user bit of an entry of the page directory. -/
theorem Paging.view_setUser (user : Bool) :
    (st.setEntry pd i { st.tables pd i with user }).view pd = st.view pd := by
  unfold view
  congr 1
  · funext j
    rw [tables_setEntry]
    by_cases hj : j = i
    · simp [hj]
    · simp [hj]
  · funext g j
    rw [tables_setEntry]
    by_cases hg : g = pd
    · simp [hg]
    · simp [hg]

/-- A new page table. -/
theorem Paging.view_attach (hi : i < 1024) (hf : f ≠ pd) (writable user : Bool) :
    ((st.ptClear f).setEntry pd i { present := true, writable, user, frame := f }).view pd =
      (st.view pd).attach i f := by
  unfold view TwoLevel.attach
  congr 1
  · funext j
    simp only [tables_setEntry, tables_ptClear, Function.update_apply, true_and, Ne.symm hf,
      if_false]
    by_cases hj : j = i
    · subst hj
      simp [hi]
    · simp [hj]
  · funext g j
    simp only [tables_setEntry, tables_ptClear, Function.update_apply]
    by_cases hg : g = pd
    · simp [hg, Ne.symm hf]
    · by_cases hgf : g = f
      · simp [hgf, hf, PageEntry.clear]
      · simp [hg, hgf]

end View

end Punix
