import Punix.Arch.CopyWindow

/-!
What a task reaches through its window. The address spaces of all tasks are made
at boot, and `sched_fork` copies from one window to another.
-/

namespace Punix

variable {cfg : MemConfig} {img : KernelImage cfg} {kernel : AddressSpace}
  {mms : List AddressSpace} {st st' : Paging} {k : Nat} {mm : AddressSpace}

/-- The paging structures after any number of copies of `sched_fork`. -/
inductive AfterForks (mms : List AddressSpace) (st : Paging) : Paging → Prop
  | boot : AfterForks mms st st
  | fork {st₁ st₂ : Paging} {mem mem' : PhysMem} {c p : Nat} {child parent : AddressSpace}
      (h : AfterForks mms st st₁) (hc : mms[c]? = some child) (hp : mms[p]? = some parent)
      (hcopy : forkCopy st₁ mem child parent = .ok (st₂, mem')) : AfterForks mms st st₂

/-- The address spaces as the system uses them. -/
structure Booted (img : KernelImage cfg) (kernel : AddressSpace) (mms : List AddressSpace)
    (st : Paging) : Prop where
  ready : KernelReady img kernel st
  length : mms.length = cfg.processCnt
  task : ∀ k mm, mms[k]? = some mm → TaskMm img k mm st
  copyPt : st.copyPt = some img.pagingPool
  copyOff : CopyWindowOff img.pagingPool st

theorem Slots.booted (h : Slots img kernel cfg.processCnt mms st) : Booted img kernel mms st :=
  ⟨h.ready, h.length, h.task, h.copyPt, h.copyOff⟩

theorem forkCopy_sameOff {copyPt : Nat} {child parent : AddressSpace} {mem mem' : PhysMem}
    (hpt : st.copyPt = some copyPt) (hoff : CopyWindowOff copyPt st)
    (h : forkCopy st mem child parent = .ok (st', mem')) :
    Paging.SameOff copyPt st st' ∧ CopyWindowOff copyPt st' := by
  unfold forkCopy mmCopyVma at h
  rw [hpt] at h
  dsimp only at h
  split at h
  · split_ifs at h
    exact mmCopyPages_sameOff hoff h
  · cases h
    exact ⟨.refl _, hoff⟩

theorem TaskMm.of_sameOff (h : TaskMm img k mm st)
    (hsame : Paging.SameOff img.pagingPool st st') : TaskMm img k mm st' := by
  apply h.of_frame
  intro x hx _
  apply hsame.tables_eq
  simp only [MemConfig.slotPage] at hx
  omega

/-- No copy changes what the address spaces map. -/
theorem Booted.afterForks (h : Booted img kernel mms st) (hrun : AfterForks mms st st') :
    Booted img kernel mms st' := by
  induction hrun with
  | boot => exact h
  | fork _ _ _ hcopy ih =>
      obtain ⟨hsame, hoff⟩ := forkCopy_sameOff ih.copyPt ih.copyOff hcopy
      have hpool := img.pool 0 (pagingPagesTotal_pos cfg)
      rw [Nat.add_zero] at hpool
      exact
        { ready := ih.ready.of_frame (hsame.tables_eq hpool.1.symm) (hsame.tables_eq hpool.2.2.symm)
          length := ih.length
          task := fun k mm hk => (ih.task k mm hk).of_sameOff hsame
          copyPt := hsame.2.trans ih.copyPt
          copyOff := hoff }

/-- The mapped part of the window of the `k`-th task. -/
def WindowMapped (cfg : MemConfig) (k o : Nat) : Prop :=
  k + 1 < cfg.processCnt ∨ o < vmPtCoversBytes * (cfg.userPts - 1)

theorem windowStart_mod (cfg : MemConfig) (k : Nat) :
    (processPaStart + k * cfg.vaSize) % pageSize = 0 := by
  rw [Nat.add_mod, Nat.mul_mod, cfg.pages]
  rfl

theorem TaskMm.mmVaToPa_mapped {o : Nat} (h : TaskMm img k mm st) (hk : k < cfg.processCnt)
    (ho : o < cfg.vaSize) (hmap : WindowMapped cfg k o) :
    mmVaToPa st mm (processVaBase + o) = some (processPaStart + k * cfg.vaSize + o) := by
  apply h.window.mmVaToPa (windowStart_mod cfg k)
  have hpages := cfg.pages
  rcases Nat.lt_or_ge (k + 1) cfg.processCnt with hlt | hge
  · rw [cfg.slotPages_of_lt hlt]
    simp only [pageSize] at hpages ⊢
    omega
  · have hlast : o < vmPtCoversBytes * (cfg.userPts - 1) := hmap.resolve_left (by omega)
    rw [cfg.slotPages_last (by omega)]
    simp only [pageSize, vmPtCoversBytes, mb] at hlast ⊢
    omega

theorem TaskMm.mmVaToPa_unmapped {o : Nat} (h : TaskMm img k mm st) (hk : k < cfg.processCnt)
    (ho : o < cfg.vaSize) (hmap : ¬ WindowMapped cfg k o) :
    mmVaToPa st mm (processVaBase + o) = none := by
  have hlast : k + 1 = cfg.processCnt := by
    have hge : ¬ k + 1 < cfg.processCnt := fun hlt => hmap (Or.inl hlt)
    omega
  have hout : ¬ o < vmPtCoversBytes * (cfg.userPts - 1) := fun hlt => hmap (Or.inr hlt)
  have hbelow := cfg.below_kernel
  apply h.window.mmVaToPa_none
  · simp only [pageSize, processVaBase, kernelVaBase, mb, gb] at hbelow ⊢
    omega
  · rw [cfg.slotPages_last hlast]
    simp only [pageSize, vmPtCoversBytes, mb] at hout ⊢
    omega

/-- The kernel window. -/
theorem KernelReady.mmVaToPa {x : Nat} (h : KernelReady img kernel st) (hx : x < kernelVaSize) :
    mmVaToPa st kernel (kernelVaBase + x) = some (kernelPaStart + x) := by
  have hpde : pdeIndex (kernelVaBase + x) = 512 := by
    simp only [pdeIndex, kernelVaBase, kernelVaSize, vmPtCoversBytes, mb, gb] at hx ⊢
    omega
  have hpte : pteIndex (kernelVaBase + x) = x / pageSize := by
    simp only [pteIndex, kernelVaBase, kernelVaSize, pageSize, mb, gb] at hx ⊢
    omega
  have hlt : x / pageSize < 1024 := by
    simp only [kernelVaSize, pageSize, mb] at hx ⊢
    omega
  have hoff : (257 + x / pageSize) * pageSize + (kernelVaBase + x) % pageSize = kernelPaStart + x := by
    simp only [kernelVaBase, kernelPaStart, premainPa, pageSize, mb, gb]
    omega
  unfold Punix.mmVaToPa
  simp only [h.pd, hpde, h.highPde, hpte, h.high _ hlt, hoff, not_true, if_false]

theorem mmFindVmaByType_process (h : TaskMm img k mm st) :
    mmFindVmaByType mm vmaTypeProcess = some (cfg.processVma k) := by
  obtain ⟨vmas, hvmas⟩ := h.vma
  rw [mmFindVmaByType, hvmas]
  rfl

theorem vmaPa_process (st : Paging) (cfg : MemConfig) (k : Nat) (mm : AddressSpace) {o : Nat}
    (ho : o < cfg.vaSize) :
    vmaPa st mm (cfg.processVma k) o = mmVaToPa st mm (processVaBase + o) := by
  have hbelow := cfg.below_kernel
  have hva : (processVaBase + o) % 2 ^ 32 = processVaBase + o := by
    simp only [kernelVaBase, gb] at hbelow
    omega
  change mmVaToPa st mm ((processVaBase + o) % 2 ^ 32) = _
  rw [hva]

section Copy

variable {c p : Nat} {child parent : AddressSpace}

/-- Between windows with all their page tables every page is copied. -/
theorem mmCopyPages_ok (hchild : TaskMm img c child st) (hparent : TaskMm img p parent st)
    (hc : c + 1 < cfg.processCnt) (hp : p + 1 < cfg.processCnt) (offset : Nat) (mem : PhysMem) :
    ∃ r, mmCopyPages img.pagingPool child parent (cfg.processVma c) (cfg.processVma p) cfg.vaSize
      offset st mem = .ok r := by
  induction hleft : cfg.vaSize - offset using Nat.strong_induction_on generalizing offset st mem with
  | _ left ih =>
      rcases Nat.lt_or_ge offset cfg.vaSize with hlt | hge
      · have hsrc := hparent.mmVaToPa_mapped (by omega) hlt (Or.inl hp)
        have hdst := hchild.mmVaToPa_mapped (by omega) hlt (Or.inl hc)
        rw [← vmaPa_process st cfg p parent hlt] at hsrc
        rw [← vmaPa_process st cfg c child hlt] at hdst
        obtain ⟨n, st₁, hpos, -, -, -, hsame, -, hround⟩ :=
          mmCopyPages_chunk img.pagingPool mem hlt hsrc hdst
        rw [hround]
        exact ih _ (by omega) (hchild.of_sameOff hsame) (hparent.of_sameOff hsame) _ _ rfl
      · rw [mmCopyPages_end (by omega)]
        exact ⟨_, rfl⟩

/-- `sched_fork` stops at a page of the child that is not mapped: the first one. -/
theorem Booted.forkCopy_iff (h : Booted img kernel mms st) (hchild : mms[c]? = some child)
    (hparent : mms[p]? = some parent) (hne : p ≠ c) (mem : PhysMem) :
    forkCopy st mem child parent = .error "mm_copy_vma: dest VA not mapped" ↔
      c + 1 = cfg.processCnt ∧ cfg.vaSize ≤ vmPtCoversBytes := by
  have hc : c < cfg.processCnt := h.length ▸ (List.getElem?_eq_some_iff.mp hchild).1
  have hp : p < cfg.processCnt := h.length ▸ (List.getElem?_eq_some_iff.mp hparent).1
  have hdst := h.task c child hchild
  have hsrc := h.task p parent hparent
  have hpos := cfg.size_pos
  have hlength (q : Nat) : (cfg.processVma q).length = cfg.vaSize := rfl
  simp only [forkCopy, mmFindVmaByType_process hdst, mmFindVmaByType_process hsrc, mmCopyVma,
    h.copyPt, hlength, copyWindowMaxBytes]
  rcases Nat.lt_or_ge vmPtCoversBytes cfg.vaSize with hlarge | hsmall
  · rw [if_pos hlarge]
    simp [Nat.not_le_of_lt hlarge]
  · rw [if_neg (by omega), if_neg (by omega)]
    -- one page table for each task, and none for the last
    have hone : vmPtCoversBytes * (cfg.userPts - 1) = 0 := by
      simp only [MemConfig.userPts, vmPtCoversBytes, mb] at hsmall ⊢
      omega
    have hfirst (k : Nat) (mm : AddressSpace) := vmaPa_process st cfg k mm hpos
    rcases Nat.lt_or_ge (p + 1) cfg.processCnt with hpmap | hplast
    · rcases Nat.lt_or_ge (c + 1) cfg.processCnt with hcmap | hclast
      · obtain ⟨r, hr⟩ := mmCopyPages_ok hdst hsrc hcmap hpmap 0 mem
        rw [hr]
        constructor
        · intro hpanic
          cases hpanic
        · intro hlast
          omega
      · have hsrcmap := hsrc.mmVaToPa_mapped hp hpos (Or.inl hpmap)
        have hdstmap := hdst.mmVaToPa_unmapped hc hpos (by unfold WindowMapped; omega)
        rw [← hfirst p] at hsrcmap
        rw [← hfirst c] at hdstmap
        rw [mmCopyPages_dest hpos hsrcmap hdstmap]
        constructor
        · intro _
          exact ⟨by omega, hsmall⟩
        · intro _
          rfl
    · have hsrcmap := hsrc.mmVaToPa_unmapped hp hpos (by unfold WindowMapped; omega)
      rw [← hfirst p] at hsrcmap
      rw [mmCopyPages_source hpos hsrcmap]
      constructor
      · intro hpanic
        simp at hpanic
      · intro hlast
        omega

end Copy

theorem Booted.lt (h : Booted img kernel mms st) (hk : mms[k]? = some mm) : k < cfg.processCnt :=
  h.length ▸ (List.getElem?_eq_some_iff.mp hk).1

theorem Booted.mmVaToPa_iff {o : Nat} (h : Booted img kernel mms st) (hk : mms[k]? = some mm)
    (ho : o < cfg.vaSize) :
    mmVaToPa st mm (processVaBase + o) = some (processPaStart + k * cfg.vaSize + o) ↔
      WindowMapped cfg k o := by
  have htask := h.task k mm hk
  constructor
  · intro hmapped
    apply by_contra
    intro hout
    rw [htask.mmVaToPa_unmapped (h.lt hk) ho hout] at hmapped
    cases hmapped
  · exact htask.mmVaToPa_mapped (h.lt hk) ho

/-- An address of a window is mapped to the memory of its task, but for the last page
table of the last task: there nothing is mapped, and a fork stops when the window
has no other. -/
theorem processWindow_iff (img : KernelImage cfg) (tables : Nat → Nat → PageEntry) :
    ∃ kernel mms st, bootMemory img tables = some (kernel, mms, st) ∧
      mms.length = cfg.processCnt ∧
      ∀ st', AfterForks mms st st' → ∀ k mm, mms[k]? = some mm →
        (∀ o, o < cfg.vaSize →
          (mmVaToPa st' mm (processVaBase + o) = some (processPaStart + k * cfg.vaSize + o) ↔
            k + 1 < cfg.processCnt ∨ o < vmPtCoversBytes * (cfg.userPts - 1))) ∧
        ∀ p parent mem, mms[p]? = some parent → p ≠ k →
          (forkCopy st' mem mm parent = .error "mm_copy_vma: dest VA not mapped" ↔
            k + 1 = cfg.processCnt ∧ cfg.vaSize ≤ vmPtCoversBytes) := by
  obtain ⟨kernel, mms, st, hboot, hslots⟩ := bootMemory_slots img tables
  refine ⟨kernel, mms, st, hboot, hslots.length, ?_⟩
  intro st' hrun k mm hk
  have hbooted := hslots.booted.afterForks hrun
  constructor
  · intro o ho
    exact hbooted.mmVaToPa_iff hk ho
  · intro p parent mem hp hne
    exact hbooted.forkCopy_iff hk hp hne mem

/-- Some place for the paging structures. -/
def exampleImage : KernelImage MemConfig.default where
  pageDirectory := 258
  lowPageTable := 259
  highPageTable := 260
  pagingPool := 261
  pd_ne_low := by decide
  pd_ne_high := by decide
  low_ne_high := by decide
  pool := by
    intro i _
    omega

theorem exampleImage_booted : ∃ kernel mms st,
    bootMemory exampleImage (fun _ _ => PageEntry.clear) = some (kernel, mms, st) ∧
      Booted exampleImage kernel mms st := by
  obtain ⟨kernel, mms, st, hboot, hslots⟩ := bootMemory_slots exampleImage fun _ _ => .clear
  exact ⟨kernel, mms, st, hboot, hslots.booted⟩

theorem exampleImage_task {mms : List AddressSpace} {st : Paging} {kernel : AddressSpace}
    (h : Booted exampleImage kernel mms st) (k : Nat) (hk : k < 64) :
    ∃ mm, mms[k]? = some mm := by
  have hlt : k < mms.length := h.length ▸ hk
  exact ⟨mms[k], List.getElem?_eq_getElem hlt⟩

/-- The window of the last task is empty. -/
theorem lastWindow_unmapped : ∃ kernel mms st first last,
    bootMemory exampleImage (fun _ _ => PageEntry.clear) = some (kernel, mms, st) ∧
      mms[0]? = some first ∧ mms[63]? = some last ∧
      mmVaToPa st last processVaBase = none ∧
      forkCopy st (fun _ => 0) last first = .error "mm_copy_vma: dest VA not mapped" := by
  obtain ⟨kernel, mms, st, hboot, hbooted⟩ := exampleImage_booted
  obtain ⟨first, hfirst⟩ := exampleImage_task hbooted 0 (by decide)
  obtain ⟨last, hlast⟩ := exampleImage_task hbooted 63 (by decide)
  refine ⟨kernel, mms, st, first, last, hboot, hfirst, hlast, ?_, ?_⟩
  · exact (hbooted.task 63 last hlast).mmVaToPa_unmapped (o := 0) (by decide) (by decide)
      (by unfold WindowMapped; decide)
  · exact (hbooted.forkCopy_iff hlast hfirst (by decide) _).mpr (by decide)

/-- No other task has this frame in its window. -/
def FrameUnshared (cfg : MemConfig) (mms : List AddressSpace) (st : Paging) (k pa : Nat) : Prop :=
  ∀ k' mm' o' pa', k' ≠ k → mms[k']? = some mm' → o' < cfg.vaSize →
    mmVaToPa st mm' (processVaBase + o') = some pa' → pa' / pageSize ≠ pa / pageSize

/-- The frame is not in the kernel window. -/
def FrameOutsideKernel (kernel : AddressSpace) (st : Paging) (pa : Nat) : Prop :=
  ∀ x pa', x < kernelVaSize → mmVaToPa st kernel (kernelVaBase + x) = some pa' →
    pa' / pageSize ≠ pa / pageSize

theorem Booted.mmVaToPa_eq {o pa : Nat} (h : Booted img kernel mms st) (hk : mms[k]? = some mm)
    (ho : o < cfg.vaSize) (hpa : mmVaToPa st mm (processVaBase + o) = some pa) :
    pa = processPaStart + k * cfg.vaSize + o := by
  have htask := h.task k mm hk
  rcases em (WindowMapped cfg k o) with hmap | hout
  · rw [htask.mmVaToPa_mapped (h.lt hk) ho hmap] at hpa
    exact (Option.some.inj hpa).symm
  · rw [htask.mmVaToPa_unmapped (h.lt hk) ho hout] at hpa
    cases hpa

/-- The windows lie behind one another in whole pages. -/
theorem windowFrame_lt (cfg : MemConfig) {k k' o o' : Nat} (hk : k < k') (ho : o < cfg.vaSize) :
    (processPaStart + k * cfg.vaSize + o) / pageSize <
      (processPaStart + k' * cfg.vaSize + o') / pageSize := by
  have hmul := Nat.mul_le_mul_right cfg.vaSize (Nat.succ_le_of_lt hk)
  have hmod := windowStart_mod cfg k'
  rw [Nat.succ_mul] at hmul
  simp only [pageSize] at hmod ⊢
  omega

theorem Booted.frameUnshared {o : Nat} (h : Booted img kernel mms st) (ho : o < cfg.vaSize) :
    FrameUnshared cfg mms st k (processPaStart + k * cfg.vaSize + o) := by
  intro k' mm' o' pa' hne hk' ho' hpa'
  rw [h.mmVaToPa_eq hk' ho' hpa']
  rcases Nat.lt_or_gt_of_ne hne with hlt | hgt
  · exact Nat.ne_of_lt (windowFrame_lt cfg hlt ho')
  · exact Nat.ne_of_gt (windowFrame_lt cfg hgt ho)

/-- The last page of the kernel window is the first one of the first task. -/
theorem Booted.frameOutsideKernel_iff {o : Nat} (h : Booted img kernel mms st) :
    FrameOutsideKernel kernel st (processPaStart + k * cfg.vaSize + o) ↔
      ¬ (k = 0 ∧ o < pageSize) := by
  have hmod := windowStart_mod cfg k
  constructor
  · rintro hout ⟨rfl, ho⟩
    apply hout (kernelVaSize - pageSize) _ (by decide) (h.ready.mmVaToPa (by decide))
    simp only [kernelPaStart, premainPa, kernelVaSize, processPaStart, kernelPaBase, pageSize,
      mb] at ho ⊢
    omega
  · intro hnot x pa' hx hpa' heq
    rw [h.ready.mmVaToPa hx] at hpa'
    cases hpa'
    apply hnot
    have hbelow : k * cfg.vaSize + o < pageSize := by
      simp only [kernelPaStart, premainPa, kernelVaSize, processPaStart, kernelPaBase, pageSize,
        mb] at hx heq ⊢
      omega
    have hpages := cfg.pages
    have hpos := cfg.size_pos
    rcases Nat.eq_zero_or_pos k with hzero | hkpos
    · exact ⟨hzero, by omega⟩
    · have hmul := Nat.mul_le_mul_right cfg.vaSize hkpos
      simp only [pageSize] at hpages hbelow
      omega

/-- A frame of a window is neither in another window nor in the kernel's, unless it is the
first of the first task. -/
theorem windowFrame_private_iff (img : KernelImage cfg) (tables : Nat → Nat → PageEntry) :
    ∃ kernel mms st, bootMemory img tables = some (kernel, mms, st) ∧
      ∀ st', AfterForks mms st st' → ∀ k mm o pa, mms[k]? = some mm → o < cfg.vaSize →
        mmVaToPa st' mm (processVaBase + o) = some pa →
        (FrameUnshared cfg mms st' k pa ∧ FrameOutsideKernel kernel st' pa ↔
          ¬ (k = 0 ∧ o < pageSize)) := by
  obtain ⟨kernel, mms, st, hboot, hslots⟩ := bootMemory_slots img tables
  refine ⟨kernel, mms, st, hboot, ?_⟩
  intro st' hrun k mm o pa hk ho hpa
  have hbooted := hslots.booted.afterForks hrun
  rw [hbooted.mmVaToPa_eq hk ho hpa]
  constructor
  · intro hprivate
    exact hbooted.frameOutsideKernel_iff.mp hprivate.2
  · intro hnot
    exact ⟨hbooted.frameUnshared ho, hbooted.frameOutsideKernel_iff.mpr hnot⟩

/-- What the first task writes to the first address of its window is in the kernel window. -/
theorem firstFrame_shared : ∃ kernel mms st mm,
    bootMemory exampleImage (fun _ _ => PageEntry.clear) = some (kernel, mms, st) ∧
      mms[0]? = some mm ∧ mmVaToPa st mm processVaBase = some processPaStart ∧
      mmVaToPa st kernel (kernelVaBase + (kernelVaSize - pageSize)) = some processPaStart := by
  obtain ⟨kernel, mms, st, hboot, hbooted⟩ := exampleImage_booted
  obtain ⟨mm, hmm⟩ := exampleImage_task hbooted 0 (by decide)
  refine ⟨kernel, mms, st, mm, hboot, hmm, ?_, ?_⟩
  · exact (hbooted.mmVaToPa_iff (o := 0) hmm (by decide)).mpr (by unfold WindowMapped; decide)
  · exact hbooted.ready.mmVaToPa (by decide)

end Punix
