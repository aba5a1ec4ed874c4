import Punix.Fs.Path
import Punix.Fs.Filesystems
import Punix.Fs.ProcFs

/-!
The open files of `vfs.c` and `files.c`: the ring of free `struct file`s, the
descriptor tables of the tasks, and `vfs_open` and `vfs_close` on top of both.
A call that may panic returns an `Option`, with `none` for the panic.
-/

namespace Punix

open Lib

namespace Kernel

def setFiles (k : Kernel) (t : Slot) (files : Files) : Kernel :=
  { k with files := Function.update k.files t files }

def setFile (k : Kernel) (i : FileRef) (file : File) : Kernel :=
  { k with vfs := { k.vfs with files := Function.update k.vfs.files i file } }

end Kernel

def FileOps.empty : FileOps where
  close := none
  read := none
  write := none
  getdents := none
  fstat := none

def vfsInit : Vfs where
  freeRing := id
  freeHead := 0
  freeTail := BitVec.ofNat 32 maxFileCnt
  files i :=
    { idx := i, pathname := CharArray.ofBytes maxFilenameLen [], flags := 0, mode := 0, pos := 0,
      fd := 0, driverData := .null, fileOps := FileOps.empty }
  mounts _ := { path := CharArray.ofBytes maxFilenameLen [], fs := none, active := false }

/-- `vfs_mount`. -/
def vfsMount (vfs : Vfs) (path : List UInt8) (fs : Fs) : Vfs × Int :=
  let normalized := vfsNormalizePath
    (copyTerminated (List.replicate maxFilenameLen 0) path) maxFilenameLen
  match (List.finRange maxMounts).find? fun i => ¬ (vfs.mounts i).active with
  | some i =>
      let mount : MountPoint :=
        { path := CharArray.ofBytes maxFilenameLen normalized, fs := some fs, active := true }
      ({ vfs with mounts := Function.update vfs.mounts i mount }, 0)
  | none => (vfs, -1)

/-- `path_to_fs`: the filesystem of the longest mount point that is a prefix. -/
def pathToFs (vfs : Vfs) (pathname : List UInt8) : Option Fs :=
  if pathname.headD 0 ≠ slash then none
  else
    ((List.finRange maxMounts).foldl (fun (best : Option Fs × Nat) i =>
      let mount := vfs.mounts i
      let path := mount.path.bytes
      let len := path.length
      if mount.active ∧ kStrncmp len pathname path = 0 ∧
          (pathname.getD len 0 = 0 ∨ pathname.getD len 0 = slash ∨ len = 1) ∧ len > best.2
      then (mount.fs, len) else best) (none, 0)).1

def vfsAllocFile (vfs : Vfs) : Option (Vfs × FileRef) :=
  if vfs.freeHead = vfs.freeTail then none
  else
    let file := vfs.freeRing (Ring.maskIndex maxFileCnt vfs.freeHead)
    some ({ vfs with freeHead := vfs.freeHead + 1 }, file)

def vfsFreeFile (vfs : Vfs) (file : FileRef) : Option Vfs :=
  if vfs.freeTail - vfs.freeHead = BitVec.ofNat 32 maxFileCnt then none
  else
    let idx := (vfs.files file).idx
    some { vfs with
      files := Function.update vfs.files file { vfs.files file with fd := -1 }
      freeRing := Function.update vfs.freeRing (Ring.maskIndex maxFileCnt vfs.freeTail) idx
      freeTail := vfs.freeTail + 1 }

def filesInit : Files where
  slots _ := none

def filesFindByFd (files : Files) (fd : Int) : Option FileRef :=
  if h : 0 ≤ fd ∧ fd < rlimitNofile then files.slots ⟨fd.toNat, toNat_lt_rlimitNofile h⟩ else none

/-- `files_alloc_fd`: the lowest free descriptor. -/
def filesAllocFd (files : Files) (file : FileRef) : Option (Files × Fin rlimitNofile) :=
  ((List.finRange rlimitNofile).find? fun fd => (files.slots fd).isNone).map fun fd =>
    ({ slots := Function.update files.slots fd (some file) }, fd)

def filesFreeFd (files : Files) (fd : Int) : Files :=
  if h : 0 ≤ fd ∧ fd < rlimitNofile then
    { slots := Function.update files.slots ⟨fd.toNat, toNat_lt_rlimitNofile h⟩ none }
  else files

/-- `fs->open`. -/
def Fs.openFile (k : Kernel) (file : File) : Fs → Int × File
  | .root => rootOpen file
  | .sys => sysOpen file
  | .proc => procOpen k file
  | .dev => devOpen k file
  | .bin => binOpen k file

/-- `resolved_path` in `vfs_open`. What the array holds before it is written is
never read. -/
def resolvedPath (k : Kernel) (task : Slot) (pathname : List UInt8) : CharArray maxFilenameLen :=
  CharArray.ofBytes maxFilenameLen <|
    vfsResolvePath (k.sched.task task).cwd.bytes pathname (List.replicate maxFilenameLen 0)

/-- What `vfs_open` stores in a `struct file` before it calls `fs->open`. -/
def openedFile (file : File) (fd : Int) (path : CharArray maxFilenameLen) (flags mode : Int) :
    File :=
  { file with
    driverData := .null, fd, pos := 0, flags, mode, fileOps := FileOps.empty, pathname := path }

/-- `vfs_open` once it has the file `i` and the descriptor `fd` for it: if the
filesystem refuses the file, both are given back. -/
def vfsOpenAt (k : Kernel) (task : Slot) (i : FileRef) (fd : Fin rlimitNofile) (fs : Fs)
    (path : CharArray maxFilenameLen) (flags mode : Int) : Option (Kernel × Int) :=
  let (res, file) := fs.openFile k (openedFile (k.vfs.files i) fd path flags mode)
  let k := k.setFile i file
  if res < 0 then
    let k := k.setFiles task (filesFreeFd (k.files task) fd)
    (vfsFreeFile k.vfs i).map fun vfs => ({ k with vfs }, -1)
  else some (k, fd)

def vfsOpen (k : Kernel) (task : Slot) (pathname : List UInt8) (flags mode : Int) :
    Option (Kernel × Int) :=
  let path := resolvedPath k task pathname
  match pathToFs k.vfs path.bytes with
  | none => some (k, -1)
  | some fs =>
      match vfsAllocFile k.vfs with
      | none => some (k, -1)
      | some (vfs, i) =>
          match filesAllocFd (k.files task) i with
          | none => (vfsFreeFile vfs i).map fun vfs => ({ k with vfs }, -1)
          | some (files, fd) =>
              vfsOpenAt (({ k with vfs } : Kernel).setFiles task files) task i fd fs path flags mode

/-- `file_ops.close`. -/
def CloseFn.call (file : File) : CloseFn → File
  | .tty => file

/-- `if (file->file_ops.close != NULL) file->file_ops.close(file)`. -/
def callClose (k : Kernel) (i : FileRef) : Kernel :=
  match (k.vfs.files i).fileOps.close with
  | some close => k.setFile i (close.call (k.vfs.files i))
  | none => k

def vfsClose (k : Kernel) (task : Slot) (fd : Int) : Option (Kernel × Int) :=
  match filesFindByFd (k.files task) fd with
  | none => some (k, -1)
  | some i =>
      let k := callClose k i
      let k := k.setFiles task (filesFreeFd (k.files task) fd)
      (vfsFreeFile k.vfs i).map fun vfs => ({ k with vfs }, 0)

/-- The loop of `sched_exit` over the descriptors of the task. -/
def closeAllFiles (k : Kernel) (task : Slot) : Option Kernel :=
  (List.finRange rlimitNofile).foldlM (fun k fd =>
    if ((k.files task).slots fd).isSome then (vfsClose k task fd).map Prod.fst else some k) k

/-- `file_ops.getdents`. -/
def GetdentsFn.call (k : Kernel) (file : File) (hasBuf : Bool) (count : BitVec 32) :
    GetdentsFn → GetdentsResult
  | .root => rootGetdents k file hasBuf count
  | .sys => sysGetdents file hasBuf count
  | .proc => procGetdents k file hasBuf count
  | .dev => devGetdents k file hasBuf count
  | .bin => binGetdents k file hasBuf count

/-- The open file that a descriptor of the current task refers to. -/
def currentFile (k : Kernel) (fd : Int) : Option FileRef :=
  k.sched.current.bind fun t => filesFindByFd (k.files t) fd

/-- `vfs_getdents`: the result, what is stored in the buffer, and the kernel. -/
def vfsGetdents (k : Kernel) (fd : Int) (hasBuf : Bool) (count : BitVec 32) :
    Int × Writes × Kernel :=
  match currentFile k fd with
  | none => (-1, [], k)
  | some i =>
      match (k.vfs.files i).fileOps.getdents with
      | none => (-1, [], k)
      | some getdents =>
          let res := getdents.call k (k.vfs.files i) hasBuf count
          (res.ret, direntWrites res.entries, k.setFile i res.file)

/-- `file_ops.read`; `none` for a terminal, where a reader may have to wait. -/
def ReadFn.call (k : Kernel) (file : File) (hasBuf : Bool) (count : BitVec 32) :
    ReadFn → Option ReadResult
  | .proc => some (procRead k file hasBuf count)
  | .bin => some (binRead k file hasBuf count)
  | .tty => none

/-- `vfs_read` behind its call of `sched_schedule`: the result, what is stored in the
buffer, and the kernel. -/
def vfsRead (k : Kernel) (fd : Int) (hasBuf : Bool) (count : BitVec 32) :
    Option (Int × Writes × Kernel) :=
  if ¬ hasBuf ∨ count = 0 then some (0, [], k)
  else
    match currentFile k fd with
    | none => some (-1, [], k)
    | some i =>
        match (k.vfs.files i).fileOps.read with
        | none => some (-1, [], k)
        | some read =>
            (read.call k (k.vfs.files i) hasBuf count).map fun res =>
              (res.ret, res.writes, k.setFile i res.file)

/-- `vfs_chdir`; `none` as the path is the null pointer. -/
def vfsChdir (k : Kernel) (path : Option (List UInt8)) : Option (Kernel × Int) :=
  match path with
  | none => some (k, -einval)
  | some path =>
      match k.sched.current with
      | none => some (k, -esrch)
      | some t => do
          let resolved := resolvedPath k t path
          let (k, fd) ← vfsOpen k t resolved.bytes 0 0
          if fd < 0 then some (k, fd)
          else
            let (result, _, k) := vfsGetdents k fd true (BitVec.ofNat 32 sizeofDirent)
            let (k, _) ← vfsClose k t fd
            if result = -enotdir then some (k, -enotdir)
            else if result < 0 then some (k, result)
            else
              let sched := k.sched.modifyTask t fun task => { task with cwd := resolved }
              some ({ k with sched }, 0)

end Punix
