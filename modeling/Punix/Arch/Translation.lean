import Punix.Arch.PageTables
import Punix.Arch.ProcessWindows

/-!
What `mm_va_to_pa` says after a range has been mapped or unmapped. Every round of the two
loops changes the frame of one page; a round of the first one may take a page of the pool
for a page table that is missing, and never a second one for the same entry.
-/

namespace Punix

open Lib

section Pages

variable {cfg : MemConfig} {img : KernelImage cfg} {st st' : Paging} {pd va pa : Nat}

theorem pdeIndex_eq_div (va : Nat) : pdeIndex va = va / pageSize / 1024 := by
  simp only [pdeIndex, vmPtCoversBytes, mb, pageSize]
  omega

theorem pdeIndex_lt (h : va < 2 ^ 32) : pdeIndex va < 1024 := by
  simp only [pdeIndex, vmPtCoversBytes, mb]
  omega

/-- The frames that a page directory leads to, page by page. -/
def Paging.frameAt (st : Paging) (pd : Nat) : Nat → Option Nat := (st.view pd).find 1024

theorem Paging.mmVaToPa_eq {mm : AddressSpace} (h : (st.view mm.pd).Unused mm.pd)
    (hva : va < 2 ^ 32) :
    mmVaToPa st mm va =
      (st.frameAt mm.pd (va / pageSize)).map fun f => f * pageSize + va % pageSize := by
  have hindex : va / pageSize % 1024 = pteIndex va := rfl
  unfold mmVaToPa frameAt TwoLevel.find
  rw [← pdeIndex_eq_div, hindex]
  by_cases hpde : (st.tables mm.pd (pdeIndex va)).present
  · have hroot := Paging.root_view_eq_some (pdeIndex_lt hva) hpde
    have hne : (st.tables mm.pd (pdeIndex va)).frame ≠ mm.pd := by
      intro heq
      rw [heq] at hroot
      exact h _ hroot
    rw [hroot, Option.bind_some]
    by_cases hpte : (st.tables (st.tables mm.pd (pdeIndex va)).frame (pteIndex va)).present
    · simp [hpde, hpte, hne, view]
    · simp [hpde, hpte, view]
  · rw [Paging.root_view_eq_none hpde]
    simp [hpde]

/-- Nothing but the root of the table and the pool is asked about. -/
theorem Separate.of_root (h : Separate img st pd) (hroot : (st'.view pd).root = (st.view pd).root)
    (hnext : st'.pagingNext = st.pagingNext) : Separate img st' pd where
  distinct i j f hi hj := h.distinct i j f (hroot ▸ hi) (hroot ▸ hj)
  directory i hi := h.directory i (hroot ▸ hi)
  pool x hx hlt := by
    rw [hnext] at hx
    obtain ⟨hne, hunused⟩ := h.pool x hx hlt
    exact ⟨hne, fun i hi => hunused i (hroot ▸ hi)⟩

theorem Separate.frame_ne (h : Separate img st pd) (hva : va < 2 ^ 32)
    (hpde : (st.tables pd (pdeIndex va)).present) : (st.tables pd (pdeIndex va)).frame ≠ pd := by
  have hroot := Paging.root_view_eq_some (pdeIndex_lt hva) hpde
  intro heq
  rw [heq] at hroot
  exact h.directory _ hroot

/-- A new page table changes no translation. -/
theorem Separate.attach (h : Separate img st pd) {i : Nat}
    (hpde : ¬ (st.tables pd i).present) (hpool : st.pagingNext < cfg.pagingPagesTotal)
    (hnext : st'.pagingNext = st.pagingNext + 1)
    (hview : st'.view pd = (st.view pd).attach i (img.pagingPool + st.pagingNext)) :
    Separate img st' pd ∧ st'.frameAt pd = st.frameAt pd := by
  obtain ⟨hne, hunused⟩ := h.pool st.pagingNext (Nat.le_refl _) hpool
  constructor
  · constructor
    · rw [hview]
      exact h.distinct.attach hunused i
    · rw [hview]
      exact h.directory.attach hne i
    · intro x hx hlt
      rw [hnext] at hx
      obtain ⟨hother, hfree⟩ := h.pool x (by omega) hlt
      refine ⟨hother, ?_⟩
      rw [hview]
      exact hfree.attach (by omega) i
  · funext page
    unfold Paging.frameAt
    rw [hview]
    exact TwoLevel.find_attach (Paging.root_view_eq_none hpde) hunused page

/-- After the beginning of a round there is a page table, and the translations are the
same. -/
theorem Separate.ensurePt (h : Separate img st pd) (hva : va < 2 ^ 32)
    (hroom : (st.tables pd (pdeIndex va)).present ∨ st.pagingNext < cfg.pagingPagesTotal) :
    ∃ st', vmEnsurePt img st pd va = some st' ∧ Separate img st' pd ∧
      st'.frameAt pd = st.frameAt pd ∧ (st'.tables pd (pdeIndex va)).present ∧
      (∀ j, j ≠ pdeIndex va → (st'.tables pd j).present = (st.tables pd j).present) ∧
      st'.pagingNext =
        st.pagingNext + if (st.tables pd (pdeIndex va)).present then 0 else 1 := by
  unfold vmEnsurePt
  by_cases hpde : (st.tables pd (pdeIndex va)).present
  · rw [if_pos hpde, if_pos hpde]
    exact ⟨st, rfl, h, rfl, hpde, fun _ _ => rfl, rfl⟩
  · have hpool := hroom.resolve_left hpde
    obtain ⟨hne, -⟩ := h.pool st.pagingNext (Nat.le_refl _) hpool
    have hindex := pdeIndex_lt hva
    rw [if_neg hpde, if_neg hpde, mmAllocPagePa, if_neg (by omega)]
    have hview : ((({ st with pagingNext := st.pagingNext + 1 } : Paging).ptClear
        (img.pagingPool + st.pagingNext)).setEntry pd (pdeIndex va)
          { present := true, writable := true, user := false,
            frame := img.pagingPool + st.pagingNext }).view pd =
        (st.view pd).attach (pdeIndex va) (img.pagingPool + st.pagingNext) :=
      Paging.view_attach hindex hne.symm true false
    obtain ⟨hseparate, hframes⟩ := h.attach hpde hpool rfl hview
    refine ⟨_, rfl, hseparate, hframes, ?_, ?_, rfl⟩
    · rw [Paging.tables_setEntry, if_pos ⟨rfl, rfl⟩]
    · intro j hj
      rw [Paging.tables_setEntry, if_neg (fun heq => hj heq.2), Paging.tables_ptClear, if_neg hne]

theorem vmSetPte_pagingNext : (vmSetPte st pd va pa).pagingNext = st.pagingNext := by
  unfold vmSetPte
  dsimp only
  split
  · rfl
  · rfl

theorem Separate.present_setPte (h : Separate img st pd) (hva : va < 2 ^ 32)
    (hpde : (st.tables pd (pdeIndex va)).present) (pa j : Nat) :
    ((vmSetPte st pd va pa).tables pd j).present = (st.tables pd j).present := by
  have hne := h.frame_ne hva hpde
  unfold vmSetPte
  dsimp only
  rw [Paging.tables_setEntry, if_neg (fun heq => hne heq.1.symm)]
  split
  · rw [Paging.tables_setEntry]
    split
    · next heq => rw [heq.2]
    · rfl
  · rfl

theorem Separate.view_setPte (h : Separate img st pd) (hva : va < 2 ^ 32)
    (hpde : (st.tables pd (pdeIndex va)).present) (pa : Nat) :
    (vmSetPte st pd va pa).view pd = (st.view pd).store (st.tables pd (pdeIndex va)).frame
      (va / pageSize % 1024) (some (pa / pageSize)) := by
  have hne := h.frame_ne hva hpde
  unfold vmSetPte
  dsimp only
  rw [Paging.view_setEntry hne]
  split
  · rw [Paging.view_setUser]
    rfl
  · rfl

/-- The rest of a round sets the frame of one page. -/
theorem Separate.setPte (h : Separate img st pd) (hva : va < 2 ^ 32)
    (hpde : (st.tables pd (pdeIndex va)).present) (pa : Nat) :
    Separate img (vmSetPte st pd va pa) pd ∧
      (vmSetPte st pd va pa).frameAt pd =
        Function.update (st.frameAt pd) (va / pageSize) (some (pa / pageSize)) := by
  have hview := h.view_setPte hva hpde pa
  have hroot := Paging.root_view_eq_some (pdeIndex_lt hva) hpde
  rw [pdeIndex_eq_div] at hroot hview
  constructor
  · apply h.of_root
    · rw [hview, TwoLevel.root_store]
    · exact vmSetPte_pagingNext
  · unfold Paging.frameAt
    rw [hview]
    exact TwoLevel.find_store h.distinct hroot _

/-- A round of `vm_unmap_impl` clears the frame of one page. -/
theorem Separate.clearPte (h : Separate img st pd) (hva : va < 2 ^ 32) :
    Separate img (if (st.tables pd (pdeIndex va)).present then
        st.pteClear (st.tables pd (pdeIndex va)).frame (pteIndex va) else st) pd ∧
      (if (st.tables pd (pdeIndex va)).present then
        st.pteClear (st.tables pd (pdeIndex va)).frame (pteIndex va) else st).frameAt pd =
        Function.update (st.frameAt pd) (va / pageSize) none := by
  by_cases hpde : (st.tables pd (pdeIndex va)).present
  · have hview : (st.pteClear (st.tables pd (pdeIndex va)).frame (pteIndex va)).view pd =
        (st.view pd).store (st.tables pd (pdeIndex va)).frame (va / pageSize % 1024) none :=
      Paging.view_setEntry (h.frame_ne hva hpde) _
    have hroot := Paging.root_view_eq_some (pdeIndex_lt hva) hpde
    rw [if_pos hpde]
    constructor
    · apply h.of_root
      · rw [hview, TwoLevel.root_store]
      · rfl
    · unfold Paging.frameAt
      rw [hview]
      rw [pdeIndex_eq_div] at hroot ⊢
      exact TwoLevel.find_store h.distinct hroot _
  · have habsent : st.frameAt pd (va / pageSize) = none := by
      have hroot := Paging.root_view_eq_none hpde
      rw [pdeIndex_eq_div] at hroot
      rw [Paging.frameAt, TwoLevel.find, hroot]
      rfl
    rw [if_neg hpde, ← habsent, Function.update_eq_self]
    exact ⟨h, rfl⟩

/-- The entries of the page directory that a range needs and that have no page table. -/
def missingTables (st : Paging) (pd va size : Nat) : Finset Nat :=
  (Finset.range 1024).filter fun i => ¬ (st.tables pd i).present ∧
    0 < size ∧ va < (i + 1) * vmPtCoversBytes ∧ i * vmPtCoversBytes < va + size

theorem mem_missingTables {size i : Nat} :
    i ∈ missingTables st pd va size ↔ i < 1024 ∧ ¬ (st.tables pd i).present ∧ 0 < size ∧
      va < (i + 1) * vmPtCoversBytes ∧ i * vmPtCoversBytes < va + size := by
  rw [missingTables, Finset.mem_filter, Finset.mem_range]

/-- Mapping the first page of a range leaves the page tables of the rest to be found, and
has taken at most one for the first. -/
theorem missingTables_next {size : Nat} (hend : va < 2 ^ 32)
    (hroom : (missingTables st pd va (pageSize + size)).card ≤
      cfg.pagingPagesTotal - st.pagingNext)
    (hpde : (st'.tables pd (pdeIndex va)).present)
    (hother : ∀ j, j ≠ pdeIndex va → (st'.tables pd j).present = (st.tables pd j).present)
    (hnext : st'.pagingNext =
      st.pagingNext + if (st.tables pd (pdeIndex va)).present then 0 else 1) :
    (missingTables st' pd (va + pageSize) size).card ≤ cfg.pagingPagesTotal - st'.pagingNext := by
  have hsubset : missingTables st' pd (va + pageSize) size ⊆
      (missingTables st pd va (pageSize + size)).erase (pdeIndex va) := by
    intro i hi
    rw [mem_missingTables] at hi
    rw [Finset.mem_erase, mem_missingTables]
    obtain ⟨hlt, habsent, hsize, hafter, hbefore⟩ := hi
    have hne : i ≠ pdeIndex va := by
      rintro rfl
      exact habsent hpde
    rw [hother i hne] at habsent
    refine ⟨hne, hlt, habsent, by omega, ?_, by omega⟩
    omega
  have hcard := Finset.card_le_card hsubset
  rw [hnext]
  by_cases hold : (st.tables pd (pdeIndex va)).present
  · rw [if_pos hold]
    exact (hcard.trans (Finset.card_erase_le)).trans hroom
  · have hmem : pdeIndex va ∈ missingTables st pd va (pageSize + size) := by
      rw [mem_missingTables]
      refine ⟨pdeIndex_lt hend, hold, ?_⟩
      simp only [pdeIndex, vmPtCoversBytes, mb, pageSize]
      omega
    rw [Finset.card_erase_of_mem hmem] at hcard
    rw [if_neg hold]
    omega

/-- While page tables are missing the pool has one. -/
theorem room_of_missingTables {size : Nat} (hend : va < 2 ^ 32)
    (hroom : (missingTables st pd va (pageSize + size)).card ≤
      cfg.pagingPagesTotal - st.pagingNext) :
    (st.tables pd (pdeIndex va)).present ∨ st.pagingNext < cfg.pagingPagesTotal := by
  by_cases hpde : (st.tables pd (pdeIndex va)).present
  · exact .inl hpde
  · right
    have hmem : pdeIndex va ∈ missingTables st pd va (pageSize + size) := by
      rw [mem_missingTables]
      refine ⟨pdeIndex_lt hend, hpde, ?_⟩
      simp only [pdeIndex, vmPtCoversBytes, mb, pageSize]
      omega
    have hpos := Finset.card_pos.mpr ⟨_, hmem⟩
    omega

/-- `vm_map_impl` sets the frames of the range in order. -/
theorem Separate.map (va pa n : Nat) (h : Separate img st pd) (hend : va + pageSize * n ≤ 2 ^ 32)
    (hroom : (missingTables st pd va (pageSize * n)).card ≤
      cfg.pagingPagesTotal - st.pagingNext) :
    Separate img (vmMapImpl img pd n va pa st) pd ∧
      (vmMapImpl img pd n va pa st).frameAt pd = TwoLevel.overlay (st.frameAt pd)
        (va / pageSize) (fun i => some (pa / pageSize + i)) n := by
  induction n generalizing st va pa with
  | zero =>
      rw [TwoLevel.overlay_zero]
      exact ⟨h, rfl⟩
  | succ n ih =>
      have hpage : 0 < pageSize := by decide
      have hlt : va < 2 ^ 32 := by
        rw [Nat.mul_succ] at hend
        omega
      rw [Nat.mul_succ, Nat.add_comm] at hroom
      obtain ⟨st₁, hensure, h₁, hframes₁, hpde, hother, hnext⟩ :=
        h.ensurePt hlt (room_of_missingTables hlt hroom)
      obtain ⟨h₂, hframes₂⟩ := h₁.setPte hlt hpde pa
      rw [vmMapImpl, hensure]
      dsimp only
      have hpresent := h₁.present_setPte hlt hpde pa
      have hpde' := (hpresent _).trans hpde
      have hroom' := missingTables_next hlt hroom hpde'
        (fun j hj => (hpresent j).trans (hother j hj)) (vmSetPte_pagingNext.trans hnext)
      have hend' : va + pageSize + pageSize * n ≤ 2 ^ 32 := by
        rw [Nat.mul_succ] at hend
        omega
      obtain ⟨hlast, hframes⟩ := ih (va + pageSize) (pa + pageSize) h₂ hend' hroom'
      have hrow : (fun i => some ((pa + pageSize) / pageSize + i)) =
          fun i => some (pa / pageSize + (i + 1)) := by
        funext i
        rw [Nat.add_div_right _ hpage, Nat.succ_add, Nat.add_succ]
      refine ⟨hlast, ?_⟩
      rw [hframes, TwoLevel.overlay_succ, hframes₂, hframes₁, Nat.add_div_right _ hpage, hrow,
        Nat.add_zero (pa / pageSize)]

/-- `vm_unmap_impl` clears the frames of the range. -/
theorem Separate.unmap (va n : Nat) (h : Separate img st pd) (hend : va + pageSize * n ≤ 2 ^ 32) :
    Separate img (vmUnmapImpl pd n va st) pd ∧
      (vmUnmapImpl pd n va st).frameAt pd =
        TwoLevel.overlay (st.frameAt pd) (va / pageSize) (fun _ => none) n := by
  induction n generalizing st va with
  | zero =>
      rw [TwoLevel.overlay_zero]
      exact ⟨h, rfl⟩
  | succ n ih =>
      have hpage : 0 < pageSize := by decide
      rw [Nat.mul_succ] at hend
      have hlt : va < 2 ^ 32 := by omega
      obtain ⟨h₁, hframes₁⟩ := h.clearPte hlt
      obtain ⟨hlast, hframes⟩ := ih (va + pageSize) h₁ (by omega)
      rw [vmUnmapImpl]
      refine ⟨hlast, ?_⟩
      rw [hframes, TwoLevel.overlay_succ, hframes₁, Nat.add_div_right _ hpage]

end Pages

/-- Whole pages, from whole pages on, in 32 bits. -/
structure PageRange (va pa size : BitVec 32) : Prop where
  va_aligned : va.toNat % pageSize = 0
  pa_aligned : pa.toNat % pageSize = 0
  size_aligned : size.toNat % pageSize = 0
  va_end : va.toNat + size.toNat ≤ 2 ^ 32
  pa_end : pa.toNat + size.toNat ≤ 2 ^ 32

/-- The addresses of a range. -/
def InRange (va size a : BitVec 32) : Prop :=
  va.toNat ≤ a.toNat ∧ a.toNat < va.toNat + size.toNat

section Addresses

variable {cfg : MemConfig} {img : KernelImage cfg} {st st' : Paging} {mm : AddressSpace}
  {va pa size a : BitVec 32}

theorem Separate.mmVaToPa (h : Separate img st mm.pd) (a : BitVec 32) :
    Bits.mmVaToPa st mm a = (st.frameAt mm.pd (a.toNat / pageSize)).map fun f =>
      BitVec.ofNat 32 (f * pageSize + a.toNat % pageSize) := by
  rw [Bits.mmVaToPa_eq, Paging.mmVaToPa_eq h.directory a.isLt, Option.map_map]
  rfl

/-- An address is in the range if its page is. -/
theorem inRange_iff (hva : va.toNat % pageSize = 0) (hsize : size.toNat % pageSize = 0) :
    InRange va size a ↔ va.toNat / pageSize ≤ a.toNat / pageSize ∧
      a.toNat / pageSize < va.toNat / pageSize + size.toNat / pageSize := by
  simp only [InRange, pageSize] at hva hsize ⊢
  omega

/-- The translation where the frames of a range have been replaced. -/
theorem Separate.mmVaToPa_overlay {v : Nat → Option Nat} (h : Separate img st mm.pd)
    (h' : Separate img st' mm.pd) (hva : va.toNat % pageSize = 0)
    (hsize : size.toNat % pageSize = 0)
    (hframes : st'.frameAt mm.pd = TwoLevel.overlay (st.frameAt mm.pd) (va.toNat / pageSize) v
      (size.toNat / pageSize)) :
    (InRange va size a → Bits.mmVaToPa st' mm a =
      (v (a.toNat / pageSize - va.toNat / pageSize)).map fun f =>
        BitVec.ofNat 32 (f * pageSize + a.toNat % pageSize)) ∧
    (¬ InRange va size a → Bits.mmVaToPa st' mm a = Bits.mmVaToPa st mm a) := by
  rw [h.mmVaToPa, h'.mmVaToPa, hframes, TwoLevel.overlay, inRange_iff hva hsize]
  constructor
  · intro hin
    rw [if_pos hin]
  · intro hout
    rw [if_neg hout]

/-- `vm_unmap_impl` comes to its end, and the addresses of the range are not translated any
more. -/
theorem Separate.vmUnmapImpl (h : Separate img st mm.pd) (hva : va.toNat % pageSize = 0)
    (hsize : size.toNat % pageSize = 0) (hend : va.toNat + size.toNat ≤ 2 ^ 32) {fuel : Nat}
    (hfuel : size.toNat / pageSize < fuel) :
    ∃ st', Bits.vmUnmapImpl mm.pd fuel va size st = some st' ∧ Separate img st' mm.pd ∧
      (∀ a, InRange va size a → Bits.mmVaToPa st' mm a = none) ∧
      ∀ a, ¬ InRange va size a → Bits.mmVaToPa st' mm a = Bits.mmVaToPa st mm a := by
  have hpages : size.toNat = pageSize * (size.toNat / pageSize) :=
    (Nat.mul_div_cancel' (Nat.dvd_of_mod_eq_zero hsize)).symm
  obtain ⟨h', hframes⟩ := h.unmap va.toNat (size.toNat / pageSize) (hpages ▸ hend)
  refine ⟨_, Bits.vmUnmapImpl_eq hpages hend hfuel, h', ?_, ?_⟩
  · intro a hin
    exact (h.mmVaToPa_overlay h' hva hsize hframes).1 hin
  · intro a hout
    exact (h.mmVaToPa_overlay h' hva hsize hframes).2 hout

/-- `vm_map_impl` comes to its end, and the addresses of the range are translated in a row. -/
theorem Separate.vmMapImpl (h : Separate img st mm.pd) (hrange : PageRange va pa size)
    (hroom : (missingTables st mm.pd va.toNat size.toNat).card ≤
      cfg.pagingPagesTotal - st.pagingNext) {fuel : Nat} (hfuel : size.toNat / pageSize < fuel) :
    ∃ st', Bits.vmMapImpl img mm.pd fuel va pa size st = some st' ∧ Separate img st' mm.pd ∧
      (∀ o : BitVec 32, o.toNat < size.toNat → Bits.mmVaToPa st' mm (va + o) = some (pa + o)) ∧
      ∀ a, ¬ InRange va size a → Bits.mmVaToPa st' mm a = Bits.mmVaToPa st mm a := by
  have hpages : size.toNat = pageSize * (size.toNat / pageSize) :=
    (Nat.mul_div_cancel' (Nat.dvd_of_mod_eq_zero hrange.size_aligned)).symm
  have hend := hrange.va_end
  obtain ⟨h', hframes⟩ := h.map va.toNat pa.toNat (size.toNat / pageSize)
    (hpages ▸ hend) (hpages ▸ hroom)
  refine ⟨_, Bits.vmMapImpl_eq hpages hend hrange.pa_end hfuel, h', ?_, ?_⟩
  · intro o ho
    have hva := hrange.va_aligned
    have hpa := hrange.pa_aligned
    have hsum : (va + o).toNat = va.toNat + o.toNat := by
      rw [BitVec.toNat_add, Nat.mod_eq_of_lt (by omega)]
    have hin : InRange va size (va + o) := by
      rw [InRange, hsum]
      omega
    rw [(h.mmVaToPa_overlay h' hva hrange.size_aligned hframes).1 hin, Option.map_some, hsum]
    congr 1
    apply BitVec.eq_of_toNat_eq
    rw [BitVec.toNat_ofNat, BitVec.toNat_add]
    congr 1
    simp only [pageSize] at hva hpa ⊢
    omega
  · intro a hout
    exact (h.mmVaToPa_overlay h' hrange.va_aligned hrange.size_aligned hframes).2 hout

/-- With enough pages and an area left, `mm_add_vma` comes to its end and maps its range and
nothing else, and `vm_unmap_impl` of the range, before or after it, ends with just the
addresses of the range without a translation. -/
theorem mmAddVma_translates (h : Separate img st mm.pd) (hrange : PageRange va pa size)
    (hvma : st.vmaNext < cfg.maxVmasTotal)
    (hroom : (missingTables st mm.pd va.toNat size.toNat).card ≤
      cfg.pagingPagesTotal - st.pagingNext)
    (type flags : BitVec 32) {fuel : Nat} (hfuel : size.toNat / pageSize < fuel) :
    ∃ vma mm' st', Bits.mmAddVma img fuel st mm type va size flags pa =
        some (some vma, mm', st') ∧ mm'.pd = mm.pd ∧
      (∀ o : BitVec 32, o.toNat < size.toNat → Bits.mmVaToPa st' mm' (va + o) = some (pa + o)) ∧
      (∀ a, ¬ InRange va size a → Bits.mmVaToPa st' mm' a = Bits.mmVaToPa st mm a) ∧
      ∀ s, s = st ∨ s = st' → ∃ s', Bits.vmUnmapImpl mm.pd fuel va size s = some s' ∧
        (∀ a, InRange va size a → Bits.mmVaToPa s' mm a = none) ∧
        ∀ a, ¬ InRange va size a → Bits.mmVaToPa s' mm a = Bits.mmVaToPa s mm a := by
  have hcounted : Separate img { st with vmaNext := st.vmaNext + 1 } mm.pd :=
    ⟨h.distinct, h.directory, h.pool⟩
  obtain ⟨st', hmap, h', hinside, houtside⟩ := hcounted.vmMapImpl hrange hroom hfuel
  let vma : Vma :=
    { type := type.toNat, baseVa := va.toNat, basePa := pa.toNat, length := size.toNat,
      flags := flags.toNat }
  refine ⟨vma, { mm with vmas := vma :: mm.vmas }, st', ?_, rfl, hinside, houtside, ?_⟩
  · rw [Bits.mmAddVma, if_neg (by omega)]
    dsimp only
    rw [hmap]
    rfl
  · rintro s hs
    have hseparate : Separate img s mm.pd := by
      rcases hs with rfl | rfl
      · exact h
      · exact h'
    obtain ⟨s', hunmap, -, hclear, hsame⟩ :=
      hseparate.vmUnmapImpl hrange.va_aligned hrange.size_aligned hrange.va_end hfuel
    exact ⟨s', hunmap, hclear, hsame⟩

end Addresses

theorem bootPaging_root {cfg : MemConfig} (img : KernelImage cfg) (tables : Nat → Nat → PageEntry)
    (i f : Nat) :
    ((bootPaging img tables).view img.pageDirectory).root i = some f ↔
      (i = 512 ∧ f = img.highPageTable) ∨ (i = 0 ∧ f = img.lowPageTable) := by
  simp only [Paging.view, bootPaging_directory]
  by_cases hhigh : i = 512
  · simp [hhigh, eq_comm]
  · by_cases hlow : i = 0
    · simp [hlow, eq_comm]
    · simp [hhigh, hlow, PageEntry.clear]

/-- The page directory of `_kpremain` enters its two page tables once. -/
theorem bootPaging_separate {cfg : MemConfig} (img : KernelImage cfg)
    (tables : Nat → Nat → PageEntry) :
    Separate img (bootPaging img tables) img.pageDirectory := by
  have hlow := img.low_ne_high
  have hpdLow := img.pd_ne_low
  have hpdHigh := img.pd_ne_high
  constructor
  · intro i j f hi hj
    rw [bootPaging_root] at hi hj
    omega
  · intro i hi
    rw [bootPaging_root] at hi
    omega
  · intro x _ hx
    have hpool := img.pool x hx
    refine ⟨hpool.1.symm, ?_⟩
    intro i hi
    rw [bootPaging_root] at hi
    omega

/-- The last page of the first 4 MiB and the first one behind them. -/
theorem mmAddVma_translates_crossing :
    ∃ vma mm' st', Bits.mmAddVma exampleImage 3 (bootPaging exampleImage fun _ _ => .clear)
          { pd := exampleImage.pageDirectory, vmas := [] } 2 0x3FF000 0x2000 15 0x800000 =
        some (some vma, mm', st') ∧ mm'.pd = exampleImage.pageDirectory ∧
      (∀ o : BitVec 32, o.toNat < (0x2000 : BitVec 32).toNat →
        Bits.mmVaToPa st' mm' (0x3FF000 + o) = some (0x800000 + o)) ∧
      (∀ a, ¬ InRange 0x3FF000 0x2000 a → Bits.mmVaToPa st' mm' a =
        Bits.mmVaToPa (bootPaging exampleImage fun _ _ => .clear)
          { pd := exampleImage.pageDirectory, vmas := [] } a) ∧
      ∀ s, s = (bootPaging exampleImage fun _ _ => .clear) ∨ s = st' →
        ∃ s', Bits.vmUnmapImpl exampleImage.pageDirectory 3 0x3FF000 0x2000 s = some s' ∧
        (∀ a, InRange 0x3FF000 0x2000 a → Bits.mmVaToPa s'
          { pd := exampleImage.pageDirectory, vmas := [] } a = none) ∧
        ∀ a, ¬ InRange 0x3FF000 0x2000 a → Bits.mmVaToPa s'
            { pd := exampleImage.pageDirectory, vmas := [] } a =
          Bits.mmVaToPa s { pd := exampleImage.pageDirectory, vmas := [] } a := by
  have hboot := bootPaging_untouched exampleImage fun _ _ => PageEntry.clear
  have hroom : (missingTables (bootPaging exampleImage fun _ _ => .clear)
      exampleImage.pageDirectory (0x3FF000 : BitVec 32).toNat (0x2000 : BitVec 32).toNat).card ≤
      MemConfig.default.pagingPagesTotal -
        (bootPaging exampleImage fun _ _ => PageEntry.clear).pagingNext := by
    have hsubset : missingTables (bootPaging exampleImage fun _ _ => .clear)
        exampleImage.pageDirectory (0x3FF000 : BitVec 32).toNat (0x2000 : BitVec 32).toNat ⊆
        Finset.range 2 := by
      intro i hi
      obtain ⟨-, -, -, -, hbefore⟩ := mem_missingTables.mp hi
      have hend : (0x3FF000 : BitVec 32).toNat + (0x2000 : BitVec 32).toNat = 4198400 := by decide
      rw [hend] at hbefore
      simp only [vmPtCoversBytes, mb] at hbefore
      rw [Finset.mem_range]
      omega
    have htotal : 2 ≤ MemConfig.default.pagingPagesTotal := by decide
    have hcard := Finset.card_le_card hsubset
    rw [Finset.card_range] at hcard
    rw [hboot.1]
    omega
  have hrange : PageRange 0x3FF000 0x800000 0x2000 := by
    constructor <;> decide
  have hvma : (bootPaging exampleImage fun _ _ => PageEntry.clear).vmaNext <
      MemConfig.default.maxVmasTotal := by
    rw [hboot.2.1]
    decide
  have hseparate : Separate exampleImage (bootPaging exampleImage fun _ _ => .clear)
      ({ pd := exampleImage.pageDirectory, vmas := [] } : AddressSpace).pd :=
    bootPaging_separate exampleImage fun _ _ => .clear
  exact mmAddVma_translates hseparate hrange hvma hroom 2 15 (by decide)

end Punix
