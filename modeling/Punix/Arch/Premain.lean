import Punix.Arch.PageTables
import Punix.Lib.X86

/-!
The beginning of the kernel (`kpremain.asm`), on the physical memory: the GDT, the page tables
that paging is switched on with, and what the processor makes of them. Of the stack, which is
in low memory then, only this is kept: each call may leave anything in the words below its top.
-/

namespace Punix

open Lib Lib.Memory Lib.X86

namespace Premain

/-- `PTE_FLAGS`. -/
def pteFlags : BitVec 32 := 3

/-- `__kernel_va_base` and `__kernel_pa_start`, of the linker script. -/
def kernelVaBaseSym : BitVec 32 := 0x80000000
def kernelPaStartSym : BitVec 32 := 0x101000

/-- The symbol for a page of the image that is loaded to the frame. -/
def symbolVa (frame : Nat) : BitVec 32 :=
  kernelVaBaseSym + BitVec.ofNat 32 (pageSize * frame) - kernelPaStartSym

/-- `va_to_pa`. -/
def vaToPa (eax : BitVec 32) : BitVec 32 := eax - kernelVaBaseSym + kernelPaStartSym

/-- `GDT_LODWORD` and `GDT_HIDWORD`. -/
def gdtLodword (base limit : BitVec 32) : BitVec 32 :=
  (limit &&& 0xFFFF#32) ||| ((base &&& 0xFFFF#32) <<< 16)

def gdtHidword (base access flags limit : BitVec 32) : BitVec 32 :=
  ((base >>> 16) &&& 0xFF#32) ||| ((access &&& 0xFF#32) <<< 8) ||| (((limit >>> 16) &&& 0x0F#32) <<< 16) |||
    ((flags &&& 0xF0#32) <<< 16) ||| ((base >>> 24) <<< 24)

def gdtFlags : BitVec 32 := 0x80 ||| 0x40 ||| 0x0F
def gdtLimit : BitVec 32 := 0xFFFFF
def gdtAddr : BitVec 32 := 0xB9000
/-- `GDTR_PA`, behind three entries. -/
def gdtrAddr : BitVec 32 := gdtAddr + 24

/-- `build_min_gdt_low`. -/
def buildMinGdtLow (mem : Memory 32) : Memory 32 :=
  let mem := mem.setWord gdtAddr 0
  let mem := mem.setWord (gdtAddr + 4) 0
  let mem := mem.setWord (gdtAddr + 8) (gdtLodword 0 gdtLimit)
  let mem := mem.setWord (gdtAddr + 12) (gdtHidword 0 0x9A gdtFlags gdtLimit)
  let mem := mem.setWord (gdtAddr + 16) (gdtLodword 0 gdtLimit)
  let mem := mem.setWord (gdtAddr + 20) (gdtHidword 0 0x92 gdtFlags gdtLimit)
  let mem := mem.fill gdtrAddr (byteOf 23) 2
  mem.setWord (gdtrAddr + 2) gdtAddr

/-- Where the stack begins. -/
def earlyStackTop : BitVec 32 := 589824

/-- What is left of a call: return addresses and saved registers. The deepest stack is that of
`install_pt_at_pde_pa`, with `ecx` and `edi`, in `get_pd_pa` and in `va_to_pa`, with `ebx`. -/
def leaveOnStack (left : Nat → UInt8) (mem : Memory 32) : Memory 32 :=
  mem.fill (earlyStackTop - 24) left 24

/-- `rep stosd`, with `ecx`. -/
def repStosd (eax : BitVec 32) : Nat → BitVec 32 → Memory 32 → Memory 32
  | 0, _, mem => mem
  | ecx + 1, edi, mem => repStosd eax ecx (edi + 4) (mem.setWord edi eax)

/-- `map_page_pt`. -/
def mapPagePt (eax ebx ecx edi : BitVec 32) (mem : Memory 32) : Memory 32 :=
  let edx := ((eax >>> 12) &&& 0x3FF#32) <<< 2
  mem.setWord (edi + edx) (ebx ||| ecx)

/-- The loop of `map_kernel_high`, with `ebp`. -/
def mapKernelHighLoop (ecx edi : BitVec 32) : Nat → BitVec 32 → BitVec 32 → Memory 32 → Memory 32
  | 0, _, _, mem => mem
  | ebp + 1, esi, ebx, mem =>
      mapKernelHighLoop ecx edi ebp (esi + 4096) (ebx + 4096) (mapPagePt esi ebx ecx edi mem)

section Image

variable {cfg : MemConfig} (img : KernelImage cfg)

def getLowPtPa : BitVec 32 := vaToPa (symbolVa img.lowPageTable)
def getHighPtPa : BitVec 32 := vaToPa (symbolVa img.highPageTable)
def getPdPa : BitVec 32 := vaToPa (symbolVa img.pageDirectory)

/-- `clear_paging_structs`. What `rep stosd` stores is the address, which is in `eax`. -/
def clearPagingStructs (mem : Memory 32) : Memory 32 :=
  let eax := getLowPtPa img
  let mem := repStosd eax (4096 / 4) eax mem
  let eax := getHighPtPa img
  let mem := repStosd eax (4096 / 4) eax mem
  let eax := getPdPa img
  repStosd eax (4096 / 4) eax mem

/-- `install_pt_at_pde_pa`. -/
def installPtAtPdePa (eax ebx : BitVec 32) (mem : Memory 32) : Memory 32 :=
  let ecx := eax
  let edi := getPdPa img
  mem.setWord (edi + (ecx <<< 2)) (ebx ||| pteFlags)

def mapIdentityPremain (mem : Memory 32) : Memory 32 :=
  mapPagePt 0x100000 0x100000 pteFlags (getLowPtPa img) mem

def mapIdentityVga (mem : Memory 32) : Memory 32 :=
  mapPagePt 0xB8000 0xB8000 pteFlags (getLowPtPa img) mem

def mapIdentityGdt (mem : Memory 32) : Memory 32 :=
  let edi := getLowPtPa img
  let eax := gdtAddr &&& pageMask
  let mem := mapPagePt eax eax pteFlags edi mem
  let eax := gdtrAddr &&& pageMask
  if eax = gdtAddr &&& pageMask then mem else mapPagePt eax eax pteFlags edi mem

def mapKernelHigh (mem : Memory 32) : Memory 32 :=
  let ebp := 0x400000#32 >>> 12
  mapKernelHighLoop pteFlags (getHighPtPa img) ebp.toNat 0x80000000 kernelPaStartSym mem

/-- `_kpremain` up to the switch to paging, with what each call leaves on the stack. -/
def kpremain (left : Nat → Nat → UInt8) (mem : Memory 32) : Memory 32 :=
  let mem := leaveOnStack (left 0) (buildMinGdtLow mem)
  let mem := leaveOnStack (left 1) (clearPagingStructs img mem)
  let mem := leaveOnStack (left 2) (mapIdentityPremain img mem)
  let mem := leaveOnStack (left 3) (mapIdentityVga img mem)
  let mem := leaveOnStack (left 4) (mapIdentityGdt img mem)
  let mem := leaveOnStack (left 5) (mapKernelHigh img mem)
  let mem := leaveOnStack (left 6) (installPtAtPdePa img 0 (getLowPtPa img) mem)
  leaveOnStack (left 7) (installPtAtPdePa img (0x80000000#32 >>> 22) (getHighPtPa img) mem)

end Image

end Premain

end Punix
