import Punix.Arch.Mm

/-!
What the page tables map when `task_table_init` is done. Each window takes one
page of the pool for its page directory and one for every 4 MiB, and the copy
window has taken one before them that the size of the pool does not count: the
last page table of the last task is missing. Windows of different tasks share no
frame, but the first page of the first window is the last page of the kernel's.
-/

namespace Punix

namespace Paging

variable (st : Paging) (f i : Nat) (entry : PageEntry)

theorem tables_setEntry (g j : Nat) : (st.setEntry f i entry).tables g j =
    if g = f ∧ j = i then entry else st.tables g j := by
  unfold setEntry
  dsimp only
  rw [Function.update_apply]
  split
  · next heq =>
      rw [Function.update_apply]
      simp [heq]
  · next hne => simp [hne]

theorem tables_ptClear (g j : Nat) : (st.ptClear f).tables g j =
    if g = f then PageEntry.clear else st.tables g j := by
  unfold ptClear
  dsimp only
  rw [Function.update_apply]
  split <;> rfl

end Paging

theorem pdeIndex_window (i : Nat) : pdeIndex (processVaBase + pageSize * i) = 1 + i / 1024 := by
  simp only [pdeIndex, processVaBase, vmPtCoversBytes, mb, pageSize]
  omega

theorem pteIndex_window (i : Nat) : pteIndex (processVaBase + pageSize * i) = i % 1024 := by
  simp only [pteIndex, processVaBase, mb, pageSize]
  omega

section Window

variable {cfg : MemConfig} {img : KernelImage cfg} {old st : Paging} {pd start pa i : Nat}

/-- The first `i` pages of the window in the page directory `pd` are mapped, with page
tables from the `start`-th page of the pool on. -/
structure Window (img : KernelImage cfg) (pd start pa i : Nat) (st : Paging) : Prop where
  pde : ∀ c, c * 1024 < i → st.tables pd (1 + c) =
    { present := true, writable := true, user := true, frame := img.pagingPool + start + c }
  absent : ∀ c, c < 511 → i ≤ c * 1024 → (st.tables pd (1 + c)).present = false
  pte : ∀ j, j < i → st.tables (img.pagingPool + start + j / 1024) (j % 1024) =
    { present := true, writable := true, user := true, frame := pa / pageSize + j }

/-- The areas, the address spaces and the copy window. -/
def Paging.SameAreas (old st : Paging) : Prop :=
  st.vmaNext = old.vmaNext ∧ st.mmNext = old.mmNext ∧ st.implNext = old.implNext ∧
    st.copyPt = old.copyPt

theorem Paging.SameAreas.trans {a b c : Paging} (hab : SameAreas a b) (hbc : SameAreas b c) :
    SameAreas a c :=
  ⟨hbc.1.trans hab.1, hbc.2.1.trans hab.2.1, hbc.2.2.1.trans hab.2.2.1,
    hbc.2.2.2.trans hab.2.2.2⟩

/-- The pool is used up to these page tables, and nothing else has been written. -/
structure Mapped (img : KernelImage cfg) (old : Paging) (pd start pa i : Nat) (st : Paging) : Prop
    extends Window img pd start pa i st where
  next : st.pagingNext = start + (i + 1023) / 1024
  frame : ∀ f, f ≠ pd → (∀ c, c * 1024 < i → f ≠ img.pagingPool + start + c) →
    st.tables f = old.tables f
  areas : Paging.SameAreas old st

/-- A page table is there for the next page unless the pool is empty. -/
theorem Mapped.ensurePt (h : Mapped img old pd start pa i st)
    (hpd : ∀ c, pd ≠ img.pagingPool + start + c) (hi : i < 1024 * (cfg.pagingPagesTotal - start))
    (hwin : i < 511 * 1024) :
    ∃ st', vmEnsurePt img st pd (processVaBase + pageSize * i) = some st' ∧
      st'.pagingNext = start + i / 1024 + 1 ∧
      (∃ user, st'.tables pd (1 + i / 1024) =
        { present := true, writable := true, user, frame := img.pagingPool + start + i / 1024 }) ∧
      (∀ x, x ≠ 1 + i / 1024 → st'.tables pd x = st.tables pd x) ∧
      (∀ f, f ≠ pd → (i % 1024 = 0 → f ≠ img.pagingPool + start + i / 1024) →
        st'.tables f = st.tables f) ∧
      Paging.SameAreas st st' := by
  unfold vmEnsurePt
  rw [pdeIndex_window]
  rcases Nat.eq_zero_or_pos (i % 1024) with hzero | hpos
  · -- the page begins a new page table
    have habsent := h.absent (i / 1024) (by omega) (by omega)
    have hnext := h.next
    rw [if_neg (by simp [habsent]), mmAllocPagePa, if_neg (by omega)]
    refine ⟨_, rfl, ?_, ⟨false, ?_⟩, ?_, ?_, rfl, rfl, rfl, rfl⟩
    · change st.pagingNext + 1 = _
      omega
    · rw [Paging.tables_setEntry, if_pos ⟨rfl, rfl⟩]
      congr 1
      omega
    · intro x hx
      rw [Paging.tables_setEntry, if_neg (by simp [hx]), Paging.tables_ptClear, if_neg]
      have hne := hpd (i / 1024)
      omega
    · intro f hf hfresh
      funext j
      have hne := hfresh hzero
      rw [Paging.tables_setEntry, if_neg (by simp [hf]), Paging.tables_ptClear, if_neg]
      omega
  · have hpde := h.pde (i / 1024) (by omega)
    have hnext := h.next
    rw [hpde, if_pos rfl]
    exact ⟨st, rfl, by omega, ⟨true, hpde⟩, fun _ _ => rfl, fun _ _ _ => rfl, rfl, rfl, rfl, rfl⟩

/-- The next page is mapped. -/
theorem Mapped.step (h : Mapped img old pd start pa i st)
    (hpd : ∀ c, pd ≠ img.pagingPool + start + c) (hi : i < 1024 * (cfg.pagingPagesTotal - start))
    (hwin : i < 511 * 1024) :
    ∃ st', vmEnsurePt img st pd (processVaBase + pageSize * i) = some st' ∧
      Mapped img old pd start pa (i + 1)
        (vmSetPte st' pd (processVaBase + pageSize * i) (pa + pageSize * i)) := by
  obtain ⟨st', hensure, hnext, ⟨user, hpde⟩, hother, hframe, hareas⟩ := h.ensurePt hpd hi hwin
  refine ⟨st', hensure, ?_⟩
  have hbelow : processVaBase + pageSize * i < kernelVaBase := by
    simp only [processVaBase, kernelVaBase, pageSize, mb, gb]
    omega
  have huser := decide_eq_true hbelow
  have htables (f x : Nat) : (vmSetPte st' pd (processVaBase + pageSize * i)
      (pa + pageSize * i)).tables f x =
      if f = img.pagingPool + start + i / 1024 ∧ x = i % 1024 then
        { present := true, writable := true, user := true, frame := pa / pageSize + i }
      else if f = pd ∧ x = 1 + i / 1024 then
        { present := true, writable := true, user := true,
          frame := img.pagingPool + start + i / 1024 }
      else st'.tables f x := by
    have hdiv : (pa + pageSize * i) / pageSize = pa / pageSize + i := by
      simp only [pageSize]
      omega
    simp only [vmSetPte, pdeIndex_window, pteIndex_window, hpde, huser, if_true,
      Paging.tables_setEntry, hdiv]
  have hcount : (vmSetPte st' pd (processVaBase + pageSize * i) (pa + pageSize * i)).pagingNext =
      st'.pagingNext := by
    simp only [vmSetPte, huser, if_true]
    rfl
  have hrest : Paging.SameAreas st'
      (vmSetPte st' pd (processVaBase + pageSize * i) (pa + pageSize * i)) := by
    simp only [vmSetPte, huser, if_true]
    exact ⟨rfl, rfl, rfl, rfl⟩
  refine ⟨⟨?_, ?_, ?_⟩, ?_, ?_, ?_⟩
  · intro c hc
    have hne := hpd (i / 1024)
    rw [htables, if_neg (fun heq => hne heq.1)]
    rcases eq_or_ne c (i / 1024) with rfl | hlt
    · rw [if_pos ⟨rfl, rfl⟩]
    · rw [if_neg (by omega), hother (1 + c) (by omega)]
      exact h.pde c (by omega)
  · intro c hmax hc
    have hne := hpd (i / 1024)
    rw [htables, if_neg (fun heq => hne heq.1), if_neg (by omega), hother (1 + c) (by omega)]
    exact h.absent c hmax (by omega)
  · intro j hj
    have hne := hpd (j / 1024)
    rw [htables]
    rcases eq_or_ne j i with rfl | hlt
    · rw [if_pos ⟨rfl, rfl⟩]
    · rw [if_neg (by omega), if_neg (fun heq => hne heq.1.symm)]
      rw [hframe _ (Ne.symm hne) (by omega)]
      exact h.pte j (by omega)
  · rw [hcount, hnext]
    omega
  · intro f hf hout
    funext x
    have hne := hout (i / 1024) (by omega)
    rw [htables, if_neg (fun heq => hne heq.1), if_neg (fun heq => hf heq.1),
      hframe f hf (fun _ => hne)]
    exact congrFun (h.frame f hf fun c hc => hout c (by omega)) x
  · exact h.areas.trans (hareas.trans hrest)

/-- The pool is empty. -/
theorem Mapped.exhausted (h : Mapped img old pd start pa i st)
    (hi : i = 1024 * (cfg.pagingPagesTotal - start)) (hstart : start ≤ cfg.pagingPagesTotal)
    (hwin : i < 511 * 1024) : vmEnsurePt img st pd (processVaBase + pageSize * i) = none := by
  have habsent := h.absent (i / 1024) (by omega) (by omega)
  have hnext := h.next
  unfold vmEnsurePt
  rw [pdeIndex_window, if_neg (by simp [habsent]), mmAllocPagePa, if_pos (by omega)]
  rfl

/-- The loop of `vm_map_impl` maps as many pages as the pool allows. -/
theorem Mapped.map (hpd : ∀ c, pd ≠ img.pagingPool + start + c)
    (hstart : start ≤ cfg.pagingPagesTotal) (n : Nat) (h : Mapped img old pd start pa i st)
    (hi : i ≤ 1024 * (cfg.pagingPagesTotal - start)) (hwin : i + n ≤ 511 * 1024) :
    Mapped img old pd start pa (min (i + n) (1024 * (cfg.pagingPagesTotal - start)))
      (vmMapImpl img pd n (processVaBase + pageSize * i) (pa + pageSize * i) st) := by
  induction n generalizing i st with
  | zero =>
      rw [Nat.add_zero, Nat.min_eq_left hi]
      exact h
  | succ n ih =>
      rw [vmMapImpl]
      rcases Nat.lt_or_eq_of_le hi with hlt | heq
      · obtain ⟨st', hensure, hmapped⟩ := h.step hpd hlt (by omega)
        rw [hensure]
        have hrest := ih hmapped hlt (by omega)
        have hva : processVaBase + pageSize * i + pageSize = processVaBase + pageSize * (i + 1) := by
          rw [Nat.mul_succ, Nat.add_assoc]
        have hpa : pa + pageSize * i + pageSize = pa + pageSize * (i + 1) := by
          rw [Nat.mul_succ, Nat.add_assoc]
        rw [hva, hpa]
        rwa [show i + (n + 1) = i + 1 + n by omega]
      · rw [h.exhausted heq hstart (by omega), Nat.min_eq_right (by omega), ← heq]
        exact h

theorem Window.mmVaToPa {mm : AddressSpace} {o : Nat} (h : Window img mm.pd start pa i st)
    (hpa : pa % pageSize = 0) (ho : o / pageSize < i) :
    Punix.mmVaToPa st mm (processVaBase + o) = some (pa + o) := by
  have hpde : pdeIndex (processVaBase + o) = 1 + o / pageSize / 1024 := by
    simp only [pdeIndex, processVaBase, vmPtCoversBytes, mb, pageSize]
    omega
  have hpte : pteIndex (processVaBase + o) = o / pageSize % 1024 := by
    simp only [pteIndex, processVaBase, mb, pageSize]
    omega
  have hoff : (pa / pageSize + o / pageSize) * pageSize + (processVaBase + o) % pageSize = pa + o := by
    simp only [processVaBase, mb, pageSize] at hpa ⊢
    omega
  unfold Punix.mmVaToPa
  simp only [hpde, hpte, h.pde _ (show o / pageSize / 1024 * 1024 < i by omega), h.pte _ ho, hoff,
    not_true, if_false]

/-- There is no page table for this part of the window. -/
theorem Window.mmVaToPa_none {mm : AddressSpace} {o : Nat} (h : Window img mm.pd start pa i st)
    (hc : o / pageSize / 1024 < 511) (ho : i ≤ o / pageSize / 1024 * 1024) :
    Punix.mmVaToPa st mm (processVaBase + o) = none := by
  have hpde : pdeIndex (processVaBase + o) = 1 + o / pageSize / 1024 := by
    simp only [pdeIndex, processVaBase, vmPtCoversBytes, mb, pageSize]
    omega
  unfold Punix.mmVaToPa
  simp [hpde, h.absent _ hc ho]

/-- Writes to other pages leave a window alone. -/
theorem Window.of_frame {st' : Paging} (h : Window img pd start pa i st)
    (hpd : st'.tables pd = st.tables pd)
    (hpt : ∀ c, c * 1024 < i →
      st'.tables (img.pagingPool + start + c) = st.tables (img.pagingPool + start + c)) :
    Window img pd start pa i st' where
  pde c hc := by rw [hpd, h.pde c hc]
  absent c hmax hc := by rw [hpd, h.absent c hmax hc]
  pte j hj := by rw [hpt (j / 1024) (by omega), h.pte j hj]

end Window

section Boot

variable {cfg : MemConfig} (img : KernelImage cfg)

theorem tables_mapPagePt (st : Paging) (pt va pa f x : Nat) : (mapPagePt st pt va pa).tables f x =
    if f = pt ∧ x = pteIndex va then
      { present := true, writable := true, user := false, frame := pa / pageSize }
    else st.tables f x := by
  rw [mapPagePt, Paging.tables_setEntry]

theorem tables_mapKernelHigh (st : Paging) (pt i p n f x : Nat) (hi : i + n ≤ 1024) :
    (mapKernelHigh st pt (kernelVaBase + pageSize * i) (pageSize * p) n).tables f x =
      if f = pt ∧ i ≤ x ∧ x < i + n then
        { present := true, writable := true, user := false, frame := p + (x - i) }
      else st.tables f x := by
  induction n generalizing st i p with
  | zero =>
      rw [mapKernelHigh, if_neg]
      omega
  | succ n ih =>
      have hva : kernelVaBase + pageSize * i + pageSize = kernelVaBase + pageSize * (i + 1) := by
        rw [Nat.mul_succ, Nat.add_assoc]
      have hindex : pteIndex (kernelVaBase + pageSize * i) = i := by
        simp only [pteIndex, kernelVaBase, gb, pageSize]
        omega
      have hframe : pageSize * p / pageSize = p := by
        simp only [pageSize]
        omega
      rw [mapKernelHigh, hva, ← Nat.mul_succ, ih _ _ _ (by omega), tables_mapPagePt, hindex, hframe]
      by_cases hf : f = pt
      · rcases Nat.lt_trichotomy x i with hlt | rfl | hgt
        · rw [if_neg (by omega), if_neg (by omega), if_neg (by omega)]
        · rw [if_neg (by omega), if_pos ⟨hf, rfl⟩, if_pos (by omega)]
          simp
        · rw [if_neg (show ¬ (f = pt ∧ x = i) by omega)]
          split_ifs <;> first | omega | rfl | skip
          congr 1
          omega
      · simp [hf]

theorem tables_mapKernel (st : Paging) (pt f x : Nat) :
    (mapKernelHigh st pt kernelVaBase kernelPaStart (kernelVaSize / pageSize)).tables f x =
      if f = pt ∧ x < 1024 then
        { present := true, writable := true, user := false, frame := 257 + x }
      else st.tables f x := by
  have h := tables_mapKernelHigh st pt 0 257 1024 f x (Nat.le_refl _)
  have hpages : kernelVaSize / pageSize = 1024 := by decide
  have hstart : kernelPaStart = pageSize * 257 := by decide
  rw [hpages, hstart]
  simpa only [Nat.mul_zero, Nat.add_zero, Nat.zero_le, true_and, Nat.zero_add, Nat.sub_zero] using h

/-- Entry 0 and the entry of the kernel are the only ones of the page directory. -/
theorem bootPaging_directory (tables : Nat → Nat → PageEntry) (x : Nat) :
    (bootPaging img tables).tables img.pageDirectory x =
      if x = 512 then
        { present := true, writable := true, user := false, frame := img.highPageTable }
      else if x = 0 then
        { present := true, writable := true, user := false, frame := img.lowPageTable }
      else PageEntry.clear := by
  have hindex : pdeIndex kernelVaBase = 512 := rfl
  simp only [bootPaging, installPtAtPdePa, Paging.tables_setEntry, tables_mapKernel,
    tables_mapPagePt, Paging.tables_ptClear, hindex, img.pd_ne_low, img.pd_ne_high, true_and,
    false_and, if_false, if_true]

/-- The high page table maps the megabytes behind the premain page. -/
theorem bootPaging_high (tables : Nat → Nat → PageEntry) (x : Nat) (hx : x < 1024) :
    (bootPaging img tables).tables img.highPageTable x =
      { present := true, writable := true, user := false, frame := 257 + x } := by
  simp only [bootPaging, installPtAtPdePa, Paging.tables_setEntry, tables_mapKernel,
    Ne.symm img.pd_ne_high, true_and, false_and, if_false, hx, if_true]

/-- The kernel maps its own megabytes, and nothing below them but entry 0. -/
structure KernelReady (kernel : AddressSpace) (st : Paging) : Prop where
  pd : kernel.pd = img.pageDirectory
  vmas : ∃ vma : Vma, kernel.vmas = [vma] ∧ vma.type = vmaTypeVga
  absent : ∀ x, 0 < x → x < 512 → (st.tables img.pageDirectory x).present = false
  highPde : st.tables img.pageDirectory 512 =
    { present := true, writable := true, user := false, frame := img.highPageTable }
  high : ∀ x, x < 1024 → st.tables img.highPageTable x =
    { present := true, writable := true, user := false, frame := 257 + x }

variable {img} in
theorem KernelReady.of_frame {kernel : AddressSpace} {st st' : Paging}
    (h : KernelReady img kernel st)
    (hpd : st'.tables img.pageDirectory = st.tables img.pageDirectory)
    (hhigh : st'.tables img.highPageTable = st.tables img.highPageTable) :
    KernelReady img kernel st' where
  pd := h.pd
  vmas := h.vmas
  absent := by rw [hpd]; exact h.absent
  highPde := by rw [hpd]; exact h.highPde
  high := by rw [hhigh]; exact h.high

theorem pagingPagesTotal_pos (cfg : MemConfig) : 0 < cfg.pagingPagesTotal :=
  Nat.mul_pos cfg.cnt_pos (by omega)

/-- One of the two entries of the copy window. -/
def IsCopyEntry (copyPt f i : Nat) : Prop :=
  f = copyPt ∧ (i = pteIndex copySrcVa ∨ i = pteIndex copyDstVa)

/-- Both entries of the copy window are not present. -/
def CopyWindowOff (copyPt : Nat) (st : Paging) : Prop :=
  ∀ f i, IsCopyEntry copyPt f i → (st.tables f i).present = false

/-- The directory entry 0 leads to the low page table. -/
def LowPde (st : Paging) : Prop :=
  (st.tables img.pageDirectory 0).present = true ∧
    (st.tables img.pageDirectory 0).frame = img.lowPageTable

/-- Nothing but entry 0 of the page directory and the low page table differs. -/
structure LowChange (st st' : Paging) : Prop where
  pde : LowPde img st'
  directory : ∀ x, x ≠ 0 → st'.tables img.pageDirectory x = st.tables img.pageDirectory x
  high : st'.tables img.highPageTable = st.tables img.highPageTable
  pagingNext : st'.pagingNext = st.pagingNext
  areas : Paging.SameAreas st st'

/-- The pools are untouched. -/
def Untouched (st : Paging) : Prop :=
  st.pagingNext = 0 ∧ st.vmaNext = 0 ∧ st.mmNext = 0 ∧ st.implNext = 0

theorem Untouched.setEntry {st : Paging} (h : Untouched st) (f i : Nat) (entry : PageEntry) :
    Untouched (st.setEntry f i entry) := h

theorem Untouched.mapKernelHigh {st : Paging} (h : Untouched st) (pt va pa n : Nat) :
    Untouched (mapKernelHigh st pt va pa n) := by
  induction n generalizing st va pa with
  | zero => exact h
  | succ n ih =>
      have hpage : Untouched (mapPagePt st pt va pa) := h
      exact ih hpage (va + pageSize) (pa + pageSize)

theorem bootPaging_untouched (tables : Nat → Nat → PageEntry) :
    Untouched (bootPaging img tables) := by
  simp only [bootPaging, installPtAtPdePa]
  apply Untouched.setEntry
  apply Untouched.setEntry
  apply Untouched.mapKernelHigh
  exact ⟨rfl, rfl, rfl, rfl⟩

variable {img} in
theorem LowChange.unmapPremain {st : Paging} (h : LowPde img st) :
    LowChange img st (vmUnmapImpl img.pageDirectory 1 premainPa st) := by
  have hindex : pdeIndex premainPa = 0 := rfl
  simp only [vmUnmapImpl, hindex, h.1, h.2, if_true, Paging.pteClear]
  refine ⟨⟨?_, ?_⟩, ?_, ?_, rfl, rfl, rfl, rfl, rfl⟩
  · rw [Paging.tables_setEntry, if_neg (fun heq => img.pd_ne_low heq.1)]
    exact h.1
  · rw [Paging.tables_setEntry, if_neg (fun heq => img.pd_ne_low heq.1)]
    exact h.2
  · intro x _
    rw [Paging.tables_setEntry, if_neg (fun heq => img.pd_ne_low heq.1)]
  · funext x
    rw [Paging.tables_setEntry, if_neg (fun heq => img.low_ne_high heq.1.symm)]

def vgaVma : Vma where
  type := vmaTypeVga
  baseVa := vgaTextBufferVa
  basePa := vgaTextBufferVa
  length := vgaTextBufferSize
  flags := 3

variable {img} in
theorem LowChange.mapVga {st : Paging} (h : LowPde img st) :
    LowChange img st (vmMapImpl img img.pageDirectory 1 vgaTextBufferVa vgaTextBufferVa st) := by
  have hindex : pdeIndex vgaTextBufferVa = 0 := rfl
  have huser : decide (vgaTextBufferVa < kernelVaBase) = true := by decide
  have hensure : vmEnsurePt img st img.pageDirectory vgaTextBufferVa = some st := by
    rw [vmEnsurePt, hindex, h.1, if_pos rfl]
  simp only [vmMapImpl, hensure, vmSetPte, hindex, huser, h.1, h.2, if_true]
  refine ⟨⟨?_, ?_⟩, ?_, ?_, rfl, rfl, rfl, rfl, rfl⟩
  · rw [Paging.tables_setEntry, if_neg (fun heq => img.pd_ne_low heq.1), Paging.tables_setEntry,
      if_pos ⟨rfl, rfl⟩]
  · rw [Paging.tables_setEntry, if_neg (fun heq => img.pd_ne_low heq.1), Paging.tables_setEntry,
      if_pos ⟨rfl, rfl⟩]
  · intro x hx
    rw [Paging.tables_setEntry, if_neg (fun heq => img.pd_ne_low heq.1), Paging.tables_setEntry,
      if_neg (fun heq => hx heq.2)]
  · funext x
    rw [Paging.tables_setEntry, if_neg (fun heq => img.low_ne_high heq.1.symm),
      Paging.tables_setEntry, if_neg (fun heq => img.pd_ne_high heq.1.symm)]

/-- `mm_init` takes the first page of the pool for the copy window. -/
theorem mmInit_spec (tables : Nat → Nat → PageEntry) :
    ∃ kernel st, mmInit img (bootPaging img tables) = some (kernel, st) ∧
      KernelReady img kernel st ∧ st.pagingNext = 1 ∧ st.vmaNext = 1 ∧ st.mmNext = 0 ∧
      st.implNext = 0 ∧ st.copyPt = some img.pagingPool ∧ CopyWindowOff img.pagingPool st := by
  have hdir := bootPaging_directory img tables
  have hlow : LowPde img (bootPaging img tables) := by
    unfold LowPde
    rw [hdir]
    exact ⟨rfl, rfl⟩
  have hboot := bootPaging_untouched img tables
  have hpool := img.pool 0 (pagingPagesTotal_pos cfg)
  rw [Nat.add_zero] at hpool
  have hpremain := LowChange.unmapPremain hlow
  unfold mmInit
  generalize vmUnmapImpl img.pageDirectory 1 premainPa (bootPaging img tables) = st₁ at hpremain
  have hmax : ¬ st₁.vmaNext ≥ cfg.maxVmasTotal := by
    have hcnt := cfg.cnt_pos
    rw [hpremain.areas.1, hboot.2.1, MemConfig.maxVmasTotal]
    omega
  have hadd : mmAddVma img st₁ { pd := img.pageDirectory, vmas := [] } vmaTypeVga vgaTextBufferVa
        vgaTextBufferSize 3 vgaTextBufferVa =
      ({ pd := img.pageDirectory, vmas := [vgaVma] },
        vmMapImpl img img.pageDirectory 1 vgaTextBufferVa vgaTextBufferVa
          { st₁ with vmaNext := st₁.vmaNext + 1 }) := by
    have hpages : vgaTextBufferSize / pageSize = 1 := rfl
    rw [mmAddVma, if_neg hmax, hpages, vgaVma]
  have hlow' : LowPde img { st₁ with vmaNext := st₁.vmaNext + 1 } := hpremain.pde
  have hvga := LowChange.mapVga hlow'
  dsimp only
  rw [hadd]
  dsimp only
  generalize vmMapImpl img img.pageDirectory 1 vgaTextBufferVa vgaTextBufferVa
    { st₁ with vmaNext := st₁.vmaNext + 1 } = st₂ at hvga
  have hnext : st₂.pagingNext = 0 := hvga.pagingNext.trans (hpremain.pagingNext.trans hboot.1)
  have halloc : mmAllocPagePa img st₂ = some (img.pagingPool, { st₂ with pagingNext := 1 }) := by
    have hpos := pagingPagesTotal_pos cfg
    rw [mmAllocPagePa, hnext, if_neg (by omega), Nat.add_zero]
  have hcopy : pdeIndex copySrcVa = 1020 := rfl
  rw [halloc, hcopy]
  have hdirectory (x : Nat) (hx : x ≠ 0) :=
    (hvga.directory x hx).trans (hpremain.directory x hx)
  refine ⟨_, _, rfl, ⟨rfl, ⟨vgaVma, rfl, rfl⟩, ?_, ?_, ?_⟩, rfl, ?_, ?_, ?_, rfl, ?_⟩
  · intro x hpos hlt
    rw [Paging.tables_setEntry, if_neg (by omega), Paging.tables_ptClear, if_neg hpool.1.symm]
    rw [hdirectory x (by omega), hdir, if_neg (by omega), if_neg (by omega)]
    rfl
  · rw [Paging.tables_setEntry, if_neg (by omega), Paging.tables_ptClear, if_neg hpool.1.symm]
    rw [hdirectory 512 (by omega), hdir, if_pos rfl]
  · intro x hx
    rw [Paging.tables_setEntry, if_neg (fun heq => img.pd_ne_high heq.1.symm),
      Paging.tables_ptClear, if_neg hpool.2.2.symm]
    exact (congrFun (hvga.high.trans hpremain.high) x).trans (bootPaging_high img tables x hx)
  · exact hvga.areas.1.trans (congrArg (· + 1) (hpremain.areas.1.trans hboot.2.1))
  · exact hvga.areas.2.1.trans (hpremain.areas.2.1.trans hboot.2.2.1)
  · exact hvga.areas.2.2.1.trans (hpremain.areas.2.2.1.trans hboot.2.2.2)
  · rintro f x ⟨rfl, -⟩
    change ((((st₂.ptClear img.pagingPool).setEntry _ _ _).tables img.pagingPool x).present) = false
    rw [Paging.tables_setEntry, if_neg (fun heq => hpool.1 heq.1), Paging.tables_ptClear, if_pos rfl]
    rfl

end Boot

namespace MemConfig

variable (cfg : MemConfig)

/-- The first page of the pool that the `k`-th task takes. -/
def slotPage (k : Nat) : Nat := 1 + k * (1 + cfg.userPts)

/-- The pages of its window that get mapped. -/
def slotPages (k : Nat) : Nat :=
  min (cfg.vaSize / pageSize) (1024 * (cfg.pagingPagesTotal - (cfg.slotPage k + 1)))

theorem slotPage_succ (k : Nat) : cfg.slotPage (k + 1) = cfg.slotPage k + 1 + cfg.userPts := by
  simp only [slotPage, Nat.succ_mul]
  omega

theorem userPts_pos : 0 < cfg.userPts := by
  have hpos := cfg.size_pos
  simp only [userPts, vmPtCoversBytes, mb]
  omega

theorem slotPage_lt {k n : Nat} (h : k < n) :
    cfg.slotPage k + 1 + cfg.userPts ≤ cfg.slotPage n := by
  have hmul := Nat.mul_le_mul_right (1 + cfg.userPts) (Nat.succ_le_of_lt h)
  simp only [slotPage, Nat.succ_mul] at hmul ⊢
  omega

theorem slotPage_le {k : Nat} (h : k < cfg.processCnt) :
    cfg.slotPage k + cfg.userPts ≤ cfg.pagingPagesTotal := by
  have hmul := Nat.mul_le_mul_right (1 + cfg.userPts) (Nat.succ_le_of_lt h)
  simp only [slotPage, pagingPagesTotal, Nat.succ_mul] at hmul ⊢
  omega

/-- Every task but the last gets all of its page tables. -/
theorem slotPages_of_lt {k : Nat} (h : k + 1 < cfg.processCnt) :
    cfg.slotPages k = cfg.vaSize / pageSize := by
  have hle := cfg.slotPage_le h
  have hpos := cfg.userPts_pos
  rw [slotPage_succ] at hle
  apply Nat.min_eq_left
  simp only [userPts, vmPtCoversBytes, pageSize, mb] at hle hpos ⊢
  omega

/-- The last task misses one. -/
theorem slotPages_last {k : Nat} (h : k + 1 = cfg.processCnt) :
    cfg.slotPages k = 1024 * (cfg.userPts - 1) := by
  have hsize := cfg.size_pos
  have hpages := cfg.pages
  have htotal : cfg.pagingPagesTotal = cfg.slotPage k + cfg.userPts := by
    rw [pagingPagesTotal, ← h, Nat.succ_mul, slotPage]
    omega
  have hrest : cfg.pagingPagesTotal - (cfg.slotPage k + 1) = cfg.userPts - 1 := by omega
  rw [slotPages, hrest]
  apply Nat.min_eq_right
  simp only [userPts, vmPtCoversBytes, pageSize, mb] at hpages ⊢
  omega

/-- What `task_table_init` adds for the `k`-th task. -/
def processVma (k : Nat) : Vma where
  type := vmaTypeProcess
  baseVa := processVaBase
  basePa := processPaStart + k * cfg.vaSize
  length := cfg.vaSize
  flags := 15

end MemConfig

section Slots

variable {cfg : MemConfig} {img : KernelImage cfg} {kernel : AddressSpace}
  {mms : List AddressSpace} {st : Paging} {n : Nat}

/-- The address space of the `k`-th task. -/
structure TaskMm (img : KernelImage cfg) (k : Nat) (mm : AddressSpace) (st : Paging) : Prop where
  pd : mm.pd = img.pagingPool + cfg.slotPage k
  window : Window img mm.pd (cfg.slotPage k + 1) (processPaStart + k * cfg.vaSize)
    (cfg.slotPages k) st
  vma : ∃ vmas, mm.vmas = cfg.processVma k :: vmas

/-- `n` tasks have got their address spaces. -/
structure Slots (img : KernelImage cfg) (kernel : AddressSpace) (n : Nat)
    (mms : List AddressSpace) (st : Paging) : Prop where
  ready : KernelReady img kernel st
  length : mms.length = n
  task : ∀ k mm, mms[k]? = some mm → TaskMm img k mm st
  pagingNext : n < cfg.processCnt → st.pagingNext = cfg.slotPage n
  vmaNext : st.vmaNext = 1 + 2 * n
  mmNext : st.mmNext = n ∧ st.implNext = n
  copyPt : st.copyPt = some img.pagingPool
  copyOff : CopyWindowOff img.pagingPool st

/-- The page tables of the window of the `k`-th task come before those of the next. -/
theorem slotPages_lt {k c : Nat} (hc : c * 1024 < cfg.slotPages k) :
    c < cfg.userPts ∧ cfg.slotPage k + 1 + c < cfg.pagingPagesTotal := by
  have hle : cfg.slotPages k ≤ cfg.vaSize / pageSize := Nat.min_le_left _ _
  have hpool : cfg.slotPages k ≤ 1024 * (cfg.pagingPagesTotal - (cfg.slotPage k + 1)) :=
    Nat.min_le_right _ _
  simp only [MemConfig.userPts, vmPtCoversBytes, pageSize, mb] at hle ⊢
  omega

/-- All pages that the `k`-th task uses come before `limit`. -/
theorem TaskMm.of_frame {k : Nat} {mm : AddressSpace} {st' : Paging} (h : TaskMm img k mm st)
    (hframe : ∀ x, cfg.slotPage k ≤ x → x < cfg.slotPage (k + 1) →
      st'.tables (img.pagingPool + x) = st.tables (img.pagingPool + x)) : TaskMm img k mm st' where
  pd := h.pd
  vma := h.vma
  window := by
    have hsucc := cfg.slotPage_succ k
    apply h.window.of_frame
    · rw [h.pd]
      exact hframe _ (Nat.le_refl _) (by omega)
    · intro c hc
      have hlt := (slotPages_lt hc).1
      rw [Nat.add_assoc]
      exact hframe _ (by omega) (by omega)

/-- `mm_fork_kernel` makes a page directory without a window. -/
theorem Slots.forkKernel (h : Slots img kernel n mms st) (hn : n < cfg.processCnt) :
    ∃ mm st', mmForkKernel img st kernel = some (mm, st') ∧
      mm.pd = img.pagingPool + cfg.slotPage n ∧
      (∀ f, f ≠ mm.pd → st'.tables f = st.tables f) ∧
      (∀ x, 0 < x → x < 512 → (st'.tables mm.pd x).present = false) ∧
      st'.pagingNext = cfg.slotPage n + 1 ∧ st'.vmaNext = 2 + 2 * n ∧
      st'.mmNext = n + 1 ∧ st'.implNext = n + 1 ∧ st'.copyPt = some img.pagingPool := by
  have hle := cfg.slotPage_le hn
  have hpos := cfg.userPts_pos
  have hpool := img.pool (cfg.slotPage n) (by omega)
  obtain ⟨vga, hvmas, -⟩ := h.ready.vmas
  have hmax : ¬ st.vmaNext + kernel.vmas.length > cfg.maxVmasTotal := by
    rw [h.vmaNext, hvmas, MemConfig.maxVmasTotal, List.length_singleton]
    omega
  have halloc : mmAllocPagePa img { st with mmNext := st.mmNext + 1, implNext := st.implNext + 1 } =
      some (img.pagingPool + cfg.slotPage n,
        { st with
          mmNext := st.mmNext + 1
          implNext := st.implNext + 1
          pagingNext := cfg.slotPage n + 1 }) := by
    rw [mmAllocPagePa, h.pagingNext hn, if_neg (by omega)]
  unfold mmForkKernel
  rw [if_neg (by rw [h.mmNext.1]; omega), if_neg (by rw [h.mmNext.2]; omega)]
  dsimp only
  rw [halloc]
  simp only [Option.bind_eq_bind, Option.bind_some]
  refine ⟨_, _, if_neg hmax, rfl, ?_, ?_, rfl, ?_, ?_, ?_, h.copyPt⟩
  · intro f hf
    dsimp only at hf ⊢
    rw [Function.update_of_ne hf]
    funext x
    rw [Paging.tables_ptClear, if_neg hf]
  · intro x hx hlt
    have habsent := h.ready.absent x hx hlt
    dsimp only
    rw [Function.update_self, h.ready.pd, Paging.tables_ptClear, if_neg hpool.1.symm]
    rw [if_neg (by simp [habsent]), Paging.tables_ptClear, if_pos rfl]
    rfl
  · change st.vmaNext + kernel.vmas.length = _
    rw [h.vmaNext, hvmas, List.length_singleton]
    omega
  · change st.mmNext + 1 = _
    rw [h.mmNext.1]
  · change st.implNext + 1 = _
    rw [h.mmNext.2]

/-- The window of the `n`-th task, in a page directory without one. -/
theorem mapped_processWindow {pd : Nat} (hn : n < cfg.processCnt)
    (hpd : pd = img.pagingPool + cfg.slotPage n) (hnext : st.pagingNext = cfg.slotPage n + 1)
    (habsent : ∀ x, 0 < x → x < 512 → (st.tables pd x).present = false) :
    Mapped img st pd (cfg.slotPage n + 1) (processPaStart + n * cfg.vaSize) (cfg.slotPages n)
      (vmMapImpl img pd (cfg.vaSize / pageSize) processVaBase
        (processPaStart + n * cfg.vaSize) st) := by
  have hle := cfg.slotPage_le hn
  have hpos := cfg.userPts_pos
  have hempty : Mapped img st pd (cfg.slotPage n + 1) (processPaStart + n * cfg.vaSize) 0 st := by
    refine ⟨⟨?_, ?_, ?_⟩, hnext, fun _ _ _ => rfl, rfl, rfl, rfl, rfl⟩
    · intro c hc
      omega
    · intro c hc _
      exact habsent (1 + c) (by omega) (by omega)
    · intro j hj
      omega
  have hwin : 0 + cfg.vaSize / pageSize ≤ 511 * 1024 := by
    have hbelow := cfg.below_kernel
    simp only [processVaBase, kernelVaBase, pageSize, mb, gb] at hbelow ⊢
    omega
  have hmapped := hempty.map (by intro c; omega) (by omega) (cfg.vaSize / pageSize)
    (Nat.zero_le _) hwin
  simp only [Nat.mul_zero, Nat.add_zero, Nat.zero_add] at hmapped
  rwa [← MemConfig.slotPages] at hmapped

/-- The tasks that are there keep their windows, and the new one has its own. -/
theorem Slots.snoc_task {mm : AddressSpace} {st' : Paging} (h : Slots img kernel n mms st)
    (hold : ∀ x, x < cfg.slotPage n →
      st'.tables (img.pagingPool + x) = st.tables (img.pagingPool + x))
    (hnew : TaskMm img n mm st') {k : Nat} {mm' : AddressSpace}
    (hk : (mms ++ [mm])[k]? = some mm') : TaskMm img k mm' st' := by
  rcases Nat.lt_or_ge k mms.length with hlt | hge
  · rw [List.getElem?_append_left hlt] at hk
    have hkn := cfg.slotPage_lt (h.length ▸ hlt)
    have hksucc := cfg.slotPage_succ k
    apply (h.task k mm' hk).of_frame
    intro x hx hxlt
    exact hold x (by omega)
  · have hlast := (List.getElem?_eq_some_iff.mp hk).1
    rw [List.length_append, List.length_singleton] at hlast
    obtain rfl : k = mms.length := by omega
    rw [List.getElem?_concat_length] at hk
    obtain rfl := Option.some.inj hk
    rw [h.length]
    exact hnew

/-- One round of `task_table_init`. -/
theorem Slots.step (h : Slots img kernel n mms st) (hn : n < cfg.processCnt) :
    ∃ mm st', mmForkKernel img st kernel = some (mm, st') ∧
      Slots img kernel (n + 1)
        (mms ++ [(mmAddVma img st' mm vmaTypeProcess processVaBase cfg.vaSize 15
          (processPaStart + n * cfg.vaSize)).1])
        (mmAddVma img st' mm vmaTypeProcess processVaBase cfg.vaSize 15
          (processPaStart + n * cfg.vaSize)).2 := by
  obtain ⟨mm, st', hfork, hpd, hframe, habsent, hnext, hvma, hmm, himpl, hcopy⟩ := h.forkKernel hn
  refine ⟨mm, st', hfork, ?_⟩
  have hle := cfg.slotPage_le hn
  have hpos := cfg.userPts_pos
  have hsucc := cfg.slotPage_succ n
  have hadd : mmAddVma img st' mm vmaTypeProcess processVaBase cfg.vaSize 15
        (processPaStart + n * cfg.vaSize) =
      ({ mm with vmas := cfg.processVma n :: mm.vmas },
        vmMapImpl img mm.pd (cfg.vaSize / pageSize) processVaBase
          (processPaStart + n * cfg.vaSize) { st' with vmaNext := st'.vmaNext + 1 }) := by
    rw [mmAddVma, if_neg]
    · rfl
    · rw [hvma, MemConfig.maxVmasTotal]
      omega
  rw [hadd]
  have hmapped := @mapped_processWindow _ img { st' with vmaNext := st'.vmaNext + 1 } _ _ hn hpd
    hnext habsent
  have hout (f : Nat) (hf : f ≠ mm.pd)
      (hpt : ∀ c, cfg.slotPage n + 1 + c < cfg.pagingPagesTotal →
        f ≠ img.pagingPool + (cfg.slotPage n + 1) + c) :
      (vmMapImpl img mm.pd (cfg.vaSize / pageSize) processVaBase
        (processPaStart + n * cfg.vaSize) { st' with vmaNext := st'.vmaNext + 1 }).tables f =
      st.tables f := by
    rw [hmapped.frame f hf fun c hc => hpt c (slotPages_lt hc).2]
    exact hframe f hf
  refine ⟨h.ready.of_frame ?_ ?_, ?_, ?_, ?_, ?_, ?_, ?_, ?_⟩
  · have hpool := img.pool (cfg.slotPage n) (by omega)
    apply hout
    · rw [hpd]
      exact hpool.1.symm
    · intro c hc
      have hpt := img.pool (cfg.slotPage n + 1 + c) hc
      rw [Nat.add_assoc]
      exact hpt.1.symm
  · have hpool := img.pool (cfg.slotPage n) (by omega)
    apply hout
    · rw [hpd]
      exact hpool.2.2.symm
    · intro c hc
      have hpt := img.pool (cfg.slotPage n + 1 + c) hc
      rw [Nat.add_assoc]
      exact hpt.2.2.symm
  · rw [List.length_append, h.length]
    rfl
  · intro k mm' hk
    have hnew : TaskMm img n { mm with vmas := cfg.processVma n :: mm.vmas } _ :=
      ⟨hpd, hmapped.toWindow, ⟨_, rfl⟩⟩
    apply h.snoc_task _ hnew hk
    intro x hx
    apply hout
    · omega
    · intro c _
      omega
  · intro hlt
    have hpages := cfg.pages
    have hall := cfg.slotPages_of_lt hlt
    have hnext' := hmapped.next
    rw [hall] at hnext'
    rw [hnext', hsucc]
    simp only [MemConfig.userPts, vmPtCoversBytes, pageSize, mb] at hpages ⊢
    omega
  · rw [hmapped.areas.1]
    change st'.vmaNext + 1 = _
    omega
  · rw [hmapped.areas.2.1, hmapped.areas.2.2.1]
    exact ⟨hmm, himpl⟩
  · rw [hmapped.areas.2.2.2]
    exact hcopy
  · rintro f i ⟨rfl, hi⟩
    have hslot : 0 < cfg.slotPage n := by
      rw [MemConfig.slotPage]
      omega
    rw [hout _ (by omega) (fun c _ => by omega)]
    exact h.copyOff _ i ⟨rfl, hi⟩

/-- Every round of `task_table_init` succeeds. -/
theorem Slots.taskTableMms (h : Slots img kernel 0 [] st) (hn : n ≤ cfg.processCnt) :
    ∃ mms st', taskTableMms img kernel st n = some (mms, st') ∧ Slots img kernel n mms st' := by
  induction n with
  | zero => exact ⟨[], st, rfl, h⟩
  | succ n ih =>
      obtain ⟨mms, st', hrounds, hslots⟩ := ih (by omega)
      obtain ⟨mm, st'', hfork, hnext⟩ := hslots.step (by omega)
      refine ⟨_, _, ?_, hnext⟩
      rw [Punix.taskTableMms, hrounds]
      simp only [Option.bind_eq_bind, Option.bind_some, hfork]

/-- The address spaces that the system starts with. -/
theorem bootMemory_slots (img : KernelImage cfg) (tables : Nat → Nat → PageEntry) :
    ∃ kernel mms st, bootMemory img tables = some (kernel, mms, st) ∧
      Slots img kernel cfg.processCnt mms st := by
  obtain ⟨kernel, st, hinit, hready, hnext, hvma, hmm, himpl, hcopy, hoff⟩ := mmInit_spec img tables
  have hempty : Slots img kernel 0 [] st := by
    refine ⟨hready, rfl, ?_, ?_, hvma, ⟨hmm, himpl⟩, hcopy, hoff⟩
    · intro k mm hk
      simp at hk
    · intro _
      rw [hnext, MemConfig.slotPage, Nat.zero_mul]
  obtain ⟨mms, st', hmms, hslots⟩ := hempty.taskTableMms (Nat.le_refl _)
  refine ⟨kernel, mms, st', ?_, hslots⟩
  simp only [bootMemory, hinit, hmms, Option.bind_eq_bind, Option.bind_some]

end Slots

end Punix
