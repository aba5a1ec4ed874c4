import Punix.Kernel.Constants

/-!
The page tables of `mm.c`, from the mappings of `kpremain.asm` on. A page of a
page directory or page table is addressed by its frame. Pages for these come from
a pool that is never refilled, and a mapping that finds the pool empty stops
without a word. The number of processes and the size of their windows are
parameters here.
-/

namespace Punix

def pageSize : Nat := 4096
/-- `VM_PT_COVERS_BYTES`. -/
def vmPtCoversBytes : Nat := mb 4
def vgaTextBufferVa : Nat := 0xB8000
def vgaTextBufferSize : Nat := 0x1000
def copySrcVa : Nat := 0xFF000000
/-- `GDT_PA`, the page behind the VGA text buffer. -/
def gdtPa : Nat := vgaTextBufferVa + vgaTextBufferSize
/-- `PREMAIN_PA` of the linker script, one page. -/
def premainPa : Nat := mb 1
/-- `__kernel_pa_start`, which the linker script sets to `KERNEL_HDR_PA`. -/
def kernelPaStart : Nat := premainPa + pageSize

def pteIndex (va : Nat) : Nat := va / pageSize % 1024
def pdeIndex (va : Nat) : Nat := va / vmPtCoversBytes

/-- `MAX_PROCESS_CNT` and `PROCESS_VA_SIZE`: whole pages, below the kernel, with all
physical addresses in 32 bits. -/
structure MemConfig where
  processCnt : Nat
  vaSize : Nat
  cnt_pos : 0 < processCnt
  size_pos : 0 < vaSize
  pages : vaSize % pageSize = 0
  below_kernel : processVaBase + vaSize ≤ kernelVaBase
  fits : processPaStart + processCnt * vaSize ≤ 2 ^ 32

/-- The values of `constants.h`. -/
def MemConfig.default : MemConfig where
  processCnt := maxProcessCnt
  vaSize := processVaSize
  cnt_pos := by decide
  size_pos := by decide
  pages := by decide
  below_kernel := by decide
  fits := by decide

namespace MemConfig

variable (cfg : MemConfig)

/-- `VM_USER_PTS_PER_PROC`. -/
def userPts : Nat := (cfg.vaSize + vmPtCoversBytes - 1) / vmPtCoversBytes

/-- `MM_PAGING_PAGES_TOTAL`. -/
def pagingPagesTotal : Nat := cfg.processCnt * (1 + cfg.userPts)

/-- `MAX_VMAS_TOTAL`. -/
def maxVmasTotal : Nat := cfg.processCnt * 16

end MemConfig

/-- Where the linker has put the paging structures: different pages, given by their
frames. -/
structure KernelImage (cfg : MemConfig) where
  pageDirectory : Nat
  lowPageTable : Nat
  highPageTable : Nat
  pagingPool : Nat
  pd_ne_low : pageDirectory ≠ lowPageTable
  pd_ne_high : pageDirectory ≠ highPageTable
  low_ne_high : lowPageTable ≠ highPageTable
  pool : ∀ i < cfg.pagingPagesTotal, pagingPool + i ≠ pageDirectory ∧
    pagingPool + i ≠ lowPageTable ∧ pagingPool + i ≠ highPageTable

/-- A `struct pde` or a `struct pte`. -/
structure PageEntry where
  present : Bool
  writable : Bool
  user : Bool
  frame : Nat
deriving DecidableEq

def PageEntry.clear : PageEntry := { present := false, writable := false, user := false, frame := 0 }

structure Vma where
  type : Nat
  baseVa : Nat
  basePa : Nat
  length : Nat
  flags : Nat
deriving DecidableEq

/-- A `struct mm` with its `mm_impl`: the frame of its page directory, and its areas. -/
structure AddressSpace where
  pd : Nat
  vmas : List Vma

/-- All pages of entries, and the counters of the pools. -/
structure Paging where
  tables : Nat → Nat → PageEntry
  pagingNext : Nat
  vmaNext : Nat
  mmNext : Nat
  implNext : Nat
  copyPt : Option Nat

namespace Paging

def setEntry (st : Paging) (frame idx : Nat) (entry : PageEntry) : Paging :=
  { st with
    tables := Function.update st.tables frame (Function.update (st.tables frame) idx entry) }

/-- `pte_clear`. -/
def pteClear (st : Paging) (pt idx : Nat) : Paging :=
  st.setEntry pt idx { st.tables pt idx with present := false }

/-- `pt_clear`, and the loop that clears a page directory. -/
def ptClear (st : Paging) (frame : Nat) : Paging :=
  { st with tables := Function.update st.tables frame fun _ => PageEntry.clear }

end Paging

/-- `map_page_pt`. -/
def mapPagePt (st : Paging) (pt va pa : Nat) : Paging :=
  st.setEntry pt (pteIndex va)
    { present := true, writable := true, user := false, frame := pa / pageSize }

/-- The loop of `map_kernel_high`: `n` pages from `va` on. -/
def mapKernelHigh (st : Paging) (pt va pa : Nat) : Nat → Paging
  | 0 => st
  | n + 1 => mapKernelHigh (mapPagePt st pt va pa) pt (va + pageSize) (pa + pageSize) n

/-- `install_pt_at_pde_pa`. -/
def installPtAtPdePa (st : Paging) (pd idx pt : Nat) : Paging :=
  st.setEntry pd idx { present := true, writable := true, user := false, frame := pt }

/-- The page directory that `_kpremain` installs. The page of the GDT holds the GDTR, too. -/
def bootPaging {cfg : MemConfig} (img : KernelImage cfg) (tables : Nat → Nat → PageEntry) : Paging :=
  let st : Paging :=
    { tables, pagingNext := 0, vmaNext := 0, mmNext := 0, implNext := 0, copyPt := none }
  let st := ((st.ptClear img.lowPageTable).ptClear img.highPageTable).ptClear img.pageDirectory
  let st := mapPagePt st img.lowPageTable premainPa premainPa
  let st := mapPagePt st img.lowPageTable vgaTextBufferVa vgaTextBufferVa
  let st := mapPagePt st img.lowPageTable gdtPa gdtPa
  let st := mapKernelHigh st img.highPageTable kernelVaBase kernelPaStart (kernelVaSize / pageSize)
  let st := installPtAtPdePa st img.pageDirectory 0 img.lowPageTable
  installPtAtPdePa st img.pageDirectory (pdeIndex kernelVaBase) img.highPageTable

section Mm

variable {cfg : MemConfig} (img : KernelImage cfg)

/-- `mm_alloc_page_pa`: the frame of the next page of the pool. -/
def mmAllocPagePa (st : Paging) : Option (Nat × Paging) :=
  if st.pagingNext ≥ cfg.pagingPagesTotal then none
  else some (img.pagingPool + st.pagingNext, { st with pagingNext := st.pagingNext + 1 })

/-- The beginning of the loop of `vm_map_impl`: a page table for `va` if there is none. -/
def vmEnsurePt (st : Paging) (pd va : Nat) : Option Paging :=
  if (st.tables pd (pdeIndex va)).present then some st
  else do
    let (pt, st) ← mmAllocPagePa img st
    some ((st.ptClear pt).setEntry pd (pdeIndex va)
      { present := true, writable := true, user := false, frame := pt })

/-- The rest of the body: the page at `va` is mapped to `pa`. -/
def vmSetPte (st : Paging) (pd va pa : Nat) : Paging :=
  let pde := st.tables pd (pdeIndex va)
  let user := decide (va < kernelVaBase)
  let st := if user then st.setEntry pd (pdeIndex va) { pde with user := true } else st
  st.setEntry pde.frame (pteIndex va) { present := true, writable := true, user, frame := pa / pageSize }

/-- `vm_map_impl` for `n` pages. -/
def vmMapImpl (pd : Nat) : Nat → Nat → Nat → Paging → Paging
  | 0, _, _, st => st
  | n + 1, va, pa, st =>
      match vmEnsurePt img st pd va with
      | none => st
      | some st => vmMapImpl pd n (va + pageSize) (pa + pageSize) (vmSetPte st pd va pa)

/-- `vm_unmap_impl` for `n` pages. -/
def vmUnmapImpl (pd : Nat) : Nat → Nat → Paging → Paging
  | 0, _, st => st
  | n + 1, va, st =>
      let pde := st.tables pd (pdeIndex va)
      let st := if pde.present then st.pteClear pde.frame (pteIndex va) else st
      vmUnmapImpl pd n (va + pageSize) st

/-- `mm_add_vma`. -/
def mmAddVma (st : Paging) (mm : AddressSpace) (type va size flags pa : Nat) :
    AddressSpace × Paging :=
  if st.vmaNext ≥ cfg.maxVmasTotal then (mm, st)
  else
    let vma : Vma := { type, baseVa := va, basePa := pa, length := size, flags }
    ({ mm with vmas := vma :: mm.vmas },
      vmMapImpl img mm.pd (size / pageSize) va pa { st with vmaNext := st.vmaNext + 1 })

def vmaTypeVga : Nat := 1
def vmaTypeProcess : Nat := 2

/-- `mm_init`; `none` is its panic. -/
def mmInit (st : Paging) : Option (AddressSpace × Paging) := do
  let st := vmUnmapImpl img.pageDirectory 1 premainPa st
  let (mm, st) := mmAddVma img st { pd := img.pageDirectory, vmas := [] } vmaTypeVga
    vgaTextBufferVa vgaTextBufferSize 3 vgaTextBufferVa
  let (pt, st) ← mmAllocPagePa img st
  let st := st.ptClear pt
  let st := st.setEntry img.pageDirectory (pdeIndex copySrcVa)
    { present := true, writable := true, user := false, frame := pt }
  some (mm, { st with copyPt := some pt })

/-- `mm_fork_kernel`; `none` is a null pointer. -/
def mmForkKernel (st : Paging) (kernel : AddressSpace) : Option (AddressSpace × Paging) :=
  if st.mmNext ≥ cfg.processCnt then none
  else if st.implNext ≥ cfg.processCnt then none
  else do
    let st := { st with mmNext := st.mmNext + 1, implNext := st.implNext + 1 }
    let (pd, st) ← mmAllocPagePa img st
    let st := st.ptClear pd
    let st := { st with tables := Function.update st.tables pd fun i =>
      if (st.tables kernel.pd i).present then st.tables kernel.pd i else st.tables pd i }
    if st.vmaNext + kernel.vmas.length > cfg.maxVmasTotal then none
    else
      some ({ pd, vmas := kernel.vmas.reverse },
        { st with vmaNext := st.vmaNext + kernel.vmas.length })

/-- The address spaces that the loop of `task_table_init` has made after `n` rounds. A
null pointer would be followed by `mm_add_vma`. -/
def taskTableMms (kernel : AddressSpace) (st : Paging) : Nat → Option (List AddressSpace × Paging)
  | 0 => some ([], st)
  | n + 1 => do
      let (mms, st) ← taskTableMms kernel st n
      let (mm, st) ← mmForkKernel img st kernel
      let (mm, st) := mmAddVma img st mm vmaTypeProcess processVaBase cfg.vaSize 15
        (processPaStart + n * cfg.vaSize)
      some (mms ++ [mm], st)

/-- The kernel's address space and those of the tasks, after `mm_init` and `task_table_init`. -/
def bootMemory (tables : Nat → Nat → PageEntry) :
    Option (AddressSpace × List AddressSpace × Paging) := do
  let (kernel, st) ← mmInit img (bootPaging img tables)
  let (mms, st) ← taskTableMms img kernel st cfg.processCnt
  some (kernel, mms, st)

end Mm

/-- `mm_va_to_pa`. -/
def mmVaToPa (st : Paging) (mm : AddressSpace) (va : Nat) : Option Nat :=
  let pde := st.tables mm.pd (pdeIndex va)
  if ¬ pde.present then none
  else
    let pte := st.tables pde.frame (pteIndex va)
    if ¬ pte.present then none else some (pte.frame * pageSize + va % pageSize)

/-- The bytes of the physical memory, without the pages of entries. -/
abbrev PhysMem := Nat → UInt8

/-- `COPY_WINDOW_MAX_BYTES`. -/
def copyWindowMaxBytes : Nat := vmPtCoversBytes
def copyDstVa : Nat := 0xFF001000

/-- Where an address of the copy window leads, by the page table that all page directories
share there; `none` is a page fault. -/
def windowPa (st : Paging) (copyPt va : Nat) : Option Nat :=
  let pte := st.tables copyPt (pteIndex va)
  if pte.present then some (pte.frame * pageSize + va % pageSize) else none

/-- `k_memcpy` from one address of the copy window to another one. -/
def windowMemcpy (st : Paging) (copyPt dst src : Nat) (mem : PhysMem) : Nat → Option PhysMem
  | 0 => some mem
  | n + 1 => do
      let mem ← windowMemcpy st copyPt dst src mem n
      let srcPa ← windowPa st copyPt (src + n)
      let dstPa ← windowPa st copyPt (dst + n)
      some (Function.update mem dstPa (mem srcPa))

/-- `pte_set` for the copy window. -/
def copyPteSet (st : Paging) (pt va pa : Nat) (writable : Bool) : Paging :=
  st.setEntry pt (pteIndex va) { present := true, writable, user := false, frame := pa / pageSize }

/-- The loop of `mm_copy_vma`; an error is a panic. Addresses wrap around. -/
def mmCopyPages (copyPt : Nat) (destMm srcMm : AddressSpace) (destVma srcVma : Vma) (length : Nat)
    (offset : Nat) (st : Paging) (mem : PhysMem) : Except String (Paging × PhysMem) :=
  if offset < length then
    let srcVa := (srcVma.baseVa + offset) % 2 ^ 32
    let dstVa := (destVma.baseVa + offset) % 2 ^ 32
    let srcOff := srcVa % pageSize
    let dstOff := dstVa % pageSize
    match mmVaToPa st srcMm (srcVa - srcOff), mmVaToPa st destMm (dstVa - dstOff) with
    | none, _ => .error "mm_copy_vma: source VA not mapped"
    | some _, none => .error "mm_copy_vma: dest VA not mapped"
    | some srcPa, some dstPa =>
        let st := copyPteSet st copyPt copySrcVa srcPa false
        let st := copyPteSet st copyPt copyDstVa dstPa true
        let chunk := min (min (pageSize - srcOff) (pageSize - dstOff)) (length - offset)
        match windowMemcpy st copyPt (copyDstVa + dstOff) (copySrcVa + srcOff) mem chunk with
        | none => .error "page fault"
        | some mem =>
            let st := (st.pteClear copyPt (pteIndex copySrcVa)).pteClear copyPt (pteIndex copyDstVa)
            mmCopyPages copyPt destMm srcMm destVma srcVma length (offset + chunk) st mem
  else .ok (st, mem)
termination_by length - offset
decreasing_by
  have hsrc := Nat.mod_lt ((srcVma.baseVa + offset) % 2 ^ 32) (show pageSize > 0 by decide)
  have hdst := Nat.mod_lt ((destVma.baseVa + offset) % 2 ^ 32) (show pageSize > 0 by decide)
  omega

/-- `mm_copy_vma`. -/
def mmCopyVma (st : Paging) (mem : PhysMem) (destMm : AddressSpace) (destVma : Vma)
    (srcMm : AddressSpace) (srcVma : Vma) (length : Nat) : Except String (Paging × PhysMem) :=
  match st.copyPt with
  | none => .error "mm_copy_vma: copy window not initialized"
  | some copyPt =>
      if length > copyWindowMaxBytes then
        .error "mm_copy_vma: length exceeds 1-PT copy window"
      else if length > srcVma.length ∨ length > destVma.length then
        .error "mm_copy_vma: length exceeds VMA bounds"
      else mmCopyPages copyPt destMm srcMm destVma srcVma length 0 st mem

/-- `mm_find_vma_by_type`. -/
def mmFindVmaByType (mm : AddressSpace) (type : Nat) : Option Vma :=
  mm.vmas.find? fun v => v.type = type

/-- The copy of the address space in `sched_fork`. -/
def forkCopy (st : Paging) (mem : PhysMem) (child parent : AddressSpace) :
    Except String (Paging × PhysMem) :=
  match mmFindVmaByType parent vmaTypeProcess, mmFindVmaByType child vmaTypeProcess with
  | some parentVma, some childVma =>
      mmCopyVma st mem child childVma parent parentVma parentVma.length
  | _, _ => .ok (st, mem)

end Punix
