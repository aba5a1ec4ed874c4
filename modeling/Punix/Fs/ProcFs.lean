import Punix.Fs.FsUtil
import Punix.Kernel.TaskTable

/-!
The filesystem mounted at `/proc` (`proc_fs.c`). The paths of open files are
absolute and normalized; a reader gets the file, the size of the buffer and the
task that the path names. The local arrays in which the source composes a text
hold any text it can compose (`length_procStatText`, `length_procStatusText`),
so that a text is simply the list of its bytes.
-/

namespace Punix

def fillDirentFromTask (task : Task) : Dirent where
  dIno := BitVec.ofInt 32 task.pid
  dType := dtDir
  dName := direntName (kItoa (BitVec.ofInt 32 task.pid))

/-- The slots that are in use, in the order of the table. -/
def liveSlots (s : Scheduler) : List Slot :=
  (List.finRange maxProcessCnt).filter fun t => (s.task t).state ≠ .pooled

/-- `sched_fill_proc_dirents`. -/
def schedFillProcDirents (s : Scheduler) (maxEntries : Nat) : List Dirent :=
  if maxEntries = 0 then []
  else (liveSlots s).map fun t => fillDirentFromTask (s.task t)

/-- The rest of a path below `/proc/` behind the digits of a pid. -/
def skipPid (pathname : List UInt8) : List UInt8 := (pathname.drop 6).dropWhile isDigit

def procPathToPid (pathname : List UInt8) : Int :=
  if pathname.headD 0 ≠ slash then pidNone
  else if kStrncmp 6 pathname (cstr "/proc/") ≠ 0 then pidNone
  else
    let p := pathname.drop 6
    if ¬ isDigit (p.headD 0) then pidNone
    else
      let pid := kAtoi p
      let rest := skipPid pathname
      if rest.headD 0 ≠ 0 ∧ rest.headD 0 ≠ slash then pidNone else pid

def procIsRoot (pathname : List UInt8) : Bool :=
  kStrcmp pathname (cstr "/proc") = 0 ∨ kStrcmp pathname (cstr "/proc/") = 0

def procIsPidDir (pathname : List UInt8) : Option Int :=
  let pid := procPathToPid pathname
  if pid = pidNone then none
  else
    let p := skipPid pathname
    if p.headD 0 = 0 ∨ p.headD 0 = slash ∧ p.getD 1 0 = 0 then some pid else none

def procIsFdDir (pathname : List UInt8) : Option Int :=
  let pid := procPathToPid pathname
  if pid = pidNone then none
  else
    let p := skipPid pathname
    if p.headD 0 ≠ slash then none
    else if kStrcmp p.tail (cstr "fd") = 0 ∨ kStrcmp p.tail (cstr "fd/") = 0 then some pid
    else none

def procExtractFdNum (pathname : List UInt8) : Int :=
  match kStrstr pathname (cstr "/fd/") with
  | some fd => kAtoi (fd.drop 4)
  | none => -1

def taskStateToChar : SchedState → UInt8
  | .running => 82
  | .queued => 82
  | .interruptible => 83
  | .uninterruptible => 68
  | .zombie => 90
  | .pooled => 88

def taskStateToStr : SchedState → List UInt8
  | .running => cstr "running"
  | .queued => cstr "runnable"
  | .interruptible => cstr "sleeping"
  | .uninterruptible => cstr "disk sleep"
  | .zombie => cstr "zombie"
  | .pooled => cstr "dead"

/-- The readers that put a text into the buffer as far as it fits. -/
def readText (file : File) (count : BitVec 32) (text : List UInt8) : ReadResult :=
  let len := if text.length > count.toNat then count.toNat else text.length
  readDone file len (kMemcpyOut 0 text len)

/-- The readers that put a text into the buffer and a newline behind it, for
which they reserve a byte. -/
def readLine (file : File) (count : BitVec 32) (text : List UInt8) : ReadResult :=
  let len := if text.length + 1 > count.toNat then count.toNat - 1 else text.length
  readDone file (len + 1) (kMemcpyOut 0 text len ++ [(len, newline)])

/-- `task->parent ? task->parent->pid : 0`. -/
def parentPid (s : Scheduler) (task : Task) : Int :=
  match task.parent with
  | some p => (s.task p).pid
  | none => 0

def pidStr (pid : Int) : List UInt8 := kItoa (BitVec.ofInt 32 pid)

def u64Str (value : BitVec 64) (bufSize : Nat) : List UInt8 := (u64ToStr value bufSize).getD []

/-- The text that `read_proc_pid_stat` composes in `output`. -/
def procStatText (s : Scheduler) (task : Task) : List UInt8 :=
  pidStr task.pid ++ cstr " (" ++ task.name.bytes ++ cstr ") " ++
    [taskStateToChar task.state] ++ cstr " " ++ pidStr (parentPid s task) ++ cstr " 0 0 " ++
    u64Str task.ctxt 32 ++ cstr " " ++ u64Str task.sysCallCnt 32 ++ cstr " " ++
    kItoa task.brk ++ cstr " " ++ kItoa task.brkLimit ++ cstr "\n"

/-- The text that `read_proc_pid_status` composes in `output`. -/
def procStatusText (s : Scheduler) (task : Task) : List UInt8 :=
  cstr "Name:\t" ++ task.name.bytes ++ cstr "\n" ++
    cstr "State:\t" ++ [taskStateToChar task.state] ++ cstr " (" ++
    taskStateToStr task.state ++ cstr ")\n" ++
    cstr "Pid:\t" ++ pidStr task.pid ++ cstr "\n" ++
    cstr "PPid:\t" ++ pidStr (parentPid s task) ++ cstr "\n" ++
    cstr "Ctxt:\t" ++ u64Str task.ctxt 256 ++ cstr "\n" ++
    cstr "Syscalls:\t" ++ u64Str task.sysCallCnt 256 ++ cstr "\n" ++
    cstr "Brk:\t0x" ++ kItoaHex task.brk ++ cstr "\n" ++
    cstr "BrkLimit:\t0x" ++ kItoaHex task.brkLimit ++ cstr "\n"

def readProcPidCmdline (file : File) (count : BitVec 32) (task : Task) : ReadResult :=
  readText file count task.name.bytes

def readProcPidComm (file : File) (count : BitVec 32) (task : Task) : ReadResult :=
  readLine file count task.name.bytes

def readProcPidStat (s : Scheduler) (file : File) (count : BitVec 32) (task : Task) : ReadResult :=
  readText file count (procStatText s task)

def readProcPidStatus (s : Scheduler) (file : File) (count : BitVec 32) (task : Task) :
    ReadResult :=
  readText file count (procStatusText s task)

def readProcPidCwd (file : File) (count : BitVec 32) (task : Task) : ReadResult :=
  readLine file count task.cwd.bytes

def readProcPidExe (file : File) (count : BitVec 32) (task : Task) : ReadResult :=
  readLine file count task.name.bytes

def readProcPidFdLink (k : Kernel) (file : File) (count : BitVec 32) (t : Slot) (fd : Int) :
    ReadResult :=
  if h : 0 ≤ fd ∧ fd < rlimitNofile then
    match (k.files t).slots ⟨fd.toNat, toNat_lt_rlimitNofile h⟩ with
    | none => { ret := -1, writes := [], file }
    | some target => readLine file count (k.vfs.files target).pathname.bytes
  else { ret := -1, writes := [], file }

/-- The text of `/proc/stat` without its newline. -/
def procStatNum (s : Scheduler) : List UInt8 := u64Str s.ctxt 64

/-- `read_proc_stat`: the returned length is limited, the copies are not. -/
def readProcStat (s : Scheduler) (file : File) (count : BitVec 32) : ReadResult :=
  let num := procStatNum s
  let pre := cstr "ctxt "
  let len := pre.length + num.length + 1
  let len := if len > count.toNat then count.toNat else len
  readDone file len
    (kMemcpyOut 0 pre pre.length ++ kMemcpyOut pre.length num num.length ++
      [(pre.length + num.length, newline)])

/-- The reader that `proc_read` chooses by the last component of the path. -/
def procReadLeaf (s : Scheduler) (file : File) (count : BitVec 32) (task : Task)
    (leaf : List UInt8) : ReadResult :=
  if kStrcmp leaf (cstr "comm") = 0 then readProcPidComm file count task
  else if kStrcmp leaf (cstr "cmdline") = 0 then readProcPidCmdline file count task
  else if kStrcmp leaf (cstr "stat") = 0 then readProcPidStat s file count task
  else if kStrcmp leaf (cstr "status") = 0 then readProcPidStatus s file count task
  else if kStrcmp leaf (cstr "cwd") = 0 then readProcPidCwd file count task
  else if kStrcmp leaf (cstr "exe") = 0 then readProcPidExe file count task
  else { ret := -1, writes := [], file }

def procRead (k : Kernel) (file : File) (hasBuf : Bool) (count : BitVec 32) : ReadResult :=
  let path := file.pathname.bytes
  if file.pos > 0 ∨ ¬ hasBuf ∨ count = 0 then { ret := 0, writes := [], file }
  else if kStrcmp path (cstr "/proc/stat") = 0 then readProcStat k.sched file count
  else
    let pid := procPathToPid path
    if pid = pidNone then { ret := -1, writes := [], file }
    else
      match taskTableFindTaskByPid k.sched pid with
      | none => { ret := -1, writes := [], file }
      | some t =>
          let fd := procExtractFdNum path
          if fd ≥ 0 then readProcPidFdLink k file count t fd
          else
            match kStrrchr path slash with
            | none => { ret := -1, writes := [], file }
            | some leaf => procReadLeaf k.sched file count (k.sched.task t) leaf.tail

/-- The entries every listing starts with. -/
def procDotDirents (maxEntries : Nat) : List Dirent :=
  fsAddEntry maxEntries 1 dtDir (cstr "..") (fsAddEntry maxEntries 1 dtDir (cstr ".") [])

/-- The listing of `/proc`. -/
def procRootDirents (s : Scheduler) (maxEntries : Nat) : List Dirent :=
  let entries := fsAddEntry maxEntries 1 dtReg (cstr "stat") (procDotDirents maxEntries)
  if entries.length < maxEntries then
    entries ++ schedFillProcDirents s (maxEntries - entries.length)
  else entries

/-- The listing of `/proc/<pid>/fd`. -/
def procFdDirents (files : Files) (maxEntries : Nat) : List Dirent :=
  (List.finRange rlimitNofile).foldl (fun entries i =>
    if entries.length < maxEntries ∧ (files.slots i).isSome then
      fsAddEntry maxEntries (i + 10) dtLnk (kItoa (BitVec.ofNat 32 i)) entries
    else entries) (procDotDirents maxEntries)

/-- The listing of `/proc/<pid>`. -/
def procPidDirents (maxEntries : Nat) : List Dirent :=
  [(dtReg, cstr "cmdline"), (dtReg, cstr "comm"), (dtReg, cstr "cwd"), (dtReg, cstr "exe"),
    (dtDir, cstr "fd"), (dtReg, cstr "stat"), (dtReg, cstr "status")].foldl
    (fun entries (dType, name) => fsAddEntry maxEntries 1 dType name entries)
    (procDotDirents maxEntries)

def procGetdents (k : Kernel) (file : File) (hasBuf : Bool) (count : BitVec 32) : GetdentsResult :=
  getdentsOnce file hasBuf count fun maxEntries =>
    let path := file.pathname.bytes
    if procIsRoot path then getdentsDone file (procRootDirents k.sched maxEntries)
    else
      match procIsFdDir path with
      | some pid =>
          match taskTableFindTaskByPid k.sched pid with
          | none => { ret := -1, entries := [], file }
          | some t => getdentsDone file (procFdDirents (k.files t) maxEntries)
      | none =>
          match procIsPidDir path with
          | some pid =>
              match taskTableFindTaskByPid k.sched pid with
              | none => { ret := -1, entries := [], file }
              | some _ => getdentsDone file (procPidDirents maxEntries)
          | none => { ret := -enotdir, entries := [], file }

def procOpen (k : Kernel) (file : File) : Int × File :=
  let path := file.pathname.bytes
  let file := { file with fileOps := { file.fileOps with
    read := some .proc, getdents := some .proc } }
  if procIsRoot path ∨ kStrcmp path (cstr "/proc/stat") = 0 then (0, file)
  else
    let pid := procPathToPid path
    if pid = pidNone then (-1, file)
    else
      match taskTableFindTaskByPid k.sched pid with
      | none => (-1, file)
      | some t =>
          let p := skipPid path
          if p.headD 0 = 0 ∨ p.headD 0 = slash ∧ p.getD 1 0 = 0 then (0, file)
          else if p.headD 0 ≠ slash then (-1, file)
          else
            let leaf := p.tail
            if ["comm", "cmdline", "stat", "status", "cwd", "exe", "fd", "fd/"].any fun name =>
                kStrcmp leaf (cstr name) = 0 then (0, file)
            else if kStrncmp 3 leaf (cstr "fd/") = 0 then
              let fd := procExtractFdNum path
              if h : 0 ≤ fd ∧ fd < rlimitNofile then
                if ((k.files t).slots ⟨fd.toNat, toNat_lt_rlimitNofile h⟩).isSome then
                  (0, { file with pos := 0 })
                else (-1, file)
              else (-1, file)
            else (-1, file)

end Punix
