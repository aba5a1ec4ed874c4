import Punix.Lib.Memory
import Punix.Kernel.Process

/-!
Starting programs: the ELF loader (`elf_loader.c`), the copies of the arguments
and the environment on the heap, `task_kernel_exec` and `sched_execve` of
`sched.c`, and `mm_brk` of `mm.c`. The memory is what the task sees at each
address while its address space is active. A loop over strings that would never
end has no result.
-/

namespace Punix

open Lib

/-- What the current task sees at each address. -/
abbrev Mem := Memory 32

/-- The byte at an offset of an image. -/
def imageByte (image : List UInt8) (off : Nat) : UInt8 := image.getD off 0

def imageWord (image : List UInt8) (off : Nat) : BitVec 32 :=
  Memory.word (w := 32) (fun a => imageByte image (off + a.toNat)) 0

def imageHalf (image : List UInt8) (off : Nat) : BitVec 16 := (imageWord image off).setWidth 16

structure Elf32Ehdr where
  eType : BitVec 16
  eEntry : BitVec 32
  ePhoff : BitVec 32
  ePhnum : BitVec 16

structure Elf32Phdr where
  pType : BitVec 32
  pOffset : BitVec 32
  pVaddr : BitVec 32
  pFilesz : BitVec 32
  pMemsz : BitVec 32

structure ElfInfo where
  entryVa : BitVec 32
  baseVa : BitVec 32
  maxOffset : BitVec 32
  size : BitVec 32
  environOff : BitVec 32
  curbrkOff : BitVec 32

/-- `ET_EXEC`. -/
def etExec : BitVec 16 := 2
/-- `PT_LOAD`. -/
def ptLoad : BitVec 32 := 1

def elfHeader (image : List UInt8) : Elf32Ehdr where
  eType := imageHalf image 16
  eEntry := imageWord image 24
  ePhoff := imageWord image 28
  ePhnum := imageHalf image 44

/-- The `i`-th program header. -/
def elfProgramHeader (image : List UInt8) (ehdr : Elf32Ehdr) (i : Nat) : Elf32Phdr :=
  let off := ehdr.ePhoff.toNat + 32 * i
  { pType := imageWord image off
    pOffset := imageWord image (off + 4)
    pVaddr := imageWord image (off + 8)
    pFilesz := imageWord image (off + 16)
    pMemsz := imageWord image (off + 20) }

/-- One byte of the magic number is enough. -/
def isElf (image : List UInt8) : Bool :=
  imageByte image 0 = 0x7F ∨ imageByte image 1 = 69 ∨ imageByte image 2 = 76 ∨
    imageByte image 3 = 70

/-- The bytes of a segment from the file, and the zeros behind them. -/
def loadSegment (image : List UInt8) (phdr : Elf32Phdr) (m : Mem) : Mem :=
  let m := m.fill phdr.pVaddr (fun i => imageByte image (phdr.pOffset.toNat + i)) phdr.pFilesz.toNat
  if phdr.pMemsz > phdr.pFilesz then
    m.fill (phdr.pVaddr + phdr.pFilesz) (fun _ => 0) (phdr.pMemsz - phdr.pFilesz).toNat
  else m

/-- What the loop of `elf_load` carries: the memory, `max_end` and `size`. -/
structure ElfLoad where
  mem : Mem
  maxEnd : BitVec 32
  size : BitVec 32

/-- The body of the loop over the program headers. -/
def elfLoadStep (image : List UInt8) (load : ElfLoad) (phdr : Elf32Phdr) : ElfLoad :=
  if phdr.pType ≠ ptLoad then load
  else
    let fin := phdr.pVaddr + phdr.pMemsz
    { mem := loadSegment image phdr load.mem
      maxEnd := if fin > load.maxEnd then fin else load.maxEnd
      size := load.size + phdr.pFilesz }

def elfProgramHeaders (image : List UInt8) : List Elf32Phdr :=
  let ehdr := elfHeader image
  (List.range ehdr.ePhnum.toNat).map (elfProgramHeader image ehdr)

/-- `elf_load`: the memory behind it, and the info when the image is a program.
The offsets of `environ` and of `__curbrk` are never filled in. -/
def elfLoad (image : List UInt8) (m : Mem) : Mem × Option ElfInfo :=
  if ¬ isElf image then (m, none)
  else if (elfHeader image).eType ≠ etExec then (m, none)
  else
    let load := (elfProgramHeaders image).foldl (elfLoadStep image)
      { mem := m, maxEnd := 0, size := 0 }
    (load.mem, some
      { entryVa := (elfHeader image).eEntry
        baseVa := 0
        maxOffset := load.maxEnd
        size := load.size
        environOff := 0
        curbrkOff := 0 })

structure Trampoline where
  mainAddr : BitVec 32
  argc : Nat
  heapArgv : BitVec 32
  envc : Nat
  heapEnvp : BitVec 32
deriving DecidableEq

/-- The address of the `i`-th pointer of an array. -/
def pointerAt (base : BitVec 32) (i : Nat) : BitVec 32 := base + BitVec.ofNat 32 (4 * i)

/-- `while (argv && argv[argc] != NULL)`. There are no more than 2^30 pointers. -/
def countPointers (m : Mem) (argv : BitVec 32) : Option Nat :=
  if argv = 0 then some 0
  else scan (fun i => m.word (pointerAt argv i) = 0) (2 ^ 30) 0

/-- The loop that copies `n` strings, from the `i`-th of `argv` on. `used` bytes of
the heap from `brk` on are taken. -/
def copyStrings (argv brk : BitVec 32) : Nat → Nat → Nat → Mem → Option (Nat × Mem)
  | 0, _, used, m => some (used, m)
  | n + 1, i, used, m => do
      let src := m.word (pointerAt argv i)
      let len := (← m.strlen src) + 1
      let dst := brk + BitVec.ofNat 32 used
      let m := m.copy dst src len
      let m := m.setWord (pointerAt brk i) dst
      copyStrings argv brk n (i + 1) (used + len) m

/-- The vector that has been copied to the heap: the number of its strings, the
bytes that it takes, and the memory with it. -/
structure HeapVector where
  count : Nat
  used : Nat
  mem : Mem

/-- The pointers first, then the strings. -/
def initVector (m : Mem) (brk argv : BitVec 32) : Option HeapVector := do
  let n ← countPointers m argv
  let (used, m) ← copyStrings argv brk n 0 (4 * (n + 1)) m
  some { count := n, used, mem := m.setWord (pointerAt brk n) 0 }

def taskInitArgs (m : Mem) (brk argv : BitVec 32) : Option HeapVector := initVector m brk argv

def taskInitEnv (m : Mem) (brk envp environOff : BitVec 32) : Option HeapVector := do
  let env ← initVector m brk envp
  some { env with
    mem := if environOff ≠ 0 then
        env.mem.setWord (BitVec.ofNat 32 processVaBase + environOff) brk
      else env.mem }

def alignUp (value align : BitVec 32) : BitVec 32 := (value + align - 1) &&& ~~~(align - 1)

/-- Where the heap begins. -/
def ElfInfo.programEnd (info : ElfInfo) : BitVec 32 := alignUp info.maxOffset 16

def heapLimit (programEnd : BitVec 32) : BitVec 32 := programEnd + BitVec.ofNat 32 processHeapSize

/-- A program with its arguments: the beginning of its heap, the bytes that the
arguments and the environment take there, and what it starts with. -/
structure Loaded where
  programEnd : BitVec 32
  used : Nat
  mem : Mem
  trampoline : Trampoline

def Loaded.brk (loaded : Loaded) : BitVec 32 := loaded.programEnd + BitVec.ofNat 32 loaded.used

/-- What `task_kernel_exec` and `sched_execve` do once the heap is set. -/
def initHeap (info : ElfInfo) (m : Mem) (argv envp : BitVec 32) : Option Loaded := do
  let brk := info.programEnd
  let m := if info.curbrkOff ≠ 0 then
      m.setWord (BitVec.ofNat 32 processVaBase + info.curbrkOff) brk
    else m
  let args ← taskInitArgs m brk argv
  let heapEnvp := brk + BitVec.ofNat 32 args.used
  let env ← taskInitEnv args.mem heapEnvp envp info.environOff
  some
    { programEnd := brk
      used := args.used + env.used
      mem := env.mem
      trampoline :=
        { mainAddr := info.entryVa
          argc := args.count
          heapArgv := brk
          envc := env.count
          heapEnvp := heapEnvp } }

/-- The image of a program. -/
def findImage (bins : List EmbeddedBin) (name : List UInt8) : Option (List UInt8) :=
  (findBin bins name).bind fun i => bins[i]?.map EmbeddedBin.image

/-- What loading comes to in `task_kernel_exec`, which gives up when the image is no
program, or when there is no room for its heap. -/
def kernelLoad (bins : List EmbeddedBin) (filename : List UInt8) (m : Mem) (argv envp : BitVec 32) :
    Option (Option Loaded) :=
  match (findImage bins filename).map (elfLoad · m) with
  | some (m, some info) =>
      if info.programEnd > heapLimit info.programEnd then some none
      else (initHeap info m argv envp).map some
  | _ => some none

/-- `task_kernel_exec`, with the arguments at `argv` and `envp`. -/
def execTask (k : Kernel) (filename : List UInt8) (ttyId : Int) (m : Mem) (argv envp : BitVec 32) :
    Option (Kernel × Option Slot) := do
  let load ← kernelLoad k.embeddedBins filename m argv envp
  taskKernelExec k filename ttyId (load.map fun loaded => (loaded.brk, heapLimit loaded.programEnd))

inductive ExecResult where
  | failed (errno : Int)
  | exited
  | started (trampoline : Trampoline)
deriving DecidableEq

/-- `sched_execve`. A program that cannot be loaded, or whose heap does not fit,
costs the task its life: the old program is gone. -/
def schedExecve (k : Kernel) (m : Mem) (pathname : List UInt8) (argv envp : BitVec 32) :
    Option (Kernel × Mem × ExecResult) :=
  match k.sched.current with
  | none => some (k, m, .failed (-esrch))
  | some t =>
      match findImage k.embeddedBins pathname with
      | none => some (k, m, .failed (-enoent))
      | some image =>
          let k := k.modifyTask t fun task =>
            { task with name := CharArray.ofBytes maxFilenameLen pathname }
          match elfLoad image m with
          | (m, none) => (schedExit k (-1)).map fun k => (k, m, .exited)
          | (m, some info) =>
              let brk := info.programEnd
              let brkLimit := heapLimit brk
              let k := k.modifyTask t fun task => { task with brk, brkLimit }
              if brk > brkLimit then (schedExit k (-1)).map fun k => (k, m, .exited)
              else do
                let loaded ← initHeap info m argv envp
                let k := k.modifyTask t fun task => { task with brk := loaded.brk, pending := 0 }
                some (k, loaded.mem, .started loaded.trampoline)

/-- `mm_brk`. -/
def mmBrk (k : Kernel) (addr : BitVec 32) : Kernel × Int :=
  match k.sched.current with
  | none => (k, -1)
  | some t =>
      if addr > (k.sched.task t).brkLimit then (k, -1)
      else (k.modifyTask t fun task => { task with brk := addr }, 0)

end Punix
