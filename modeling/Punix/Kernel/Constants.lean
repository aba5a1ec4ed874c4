import Punix.Lib.Ring

/-!
The compile-time limits of `constants.h`, and the index types that stand for
addresses of objects with static storage: a `struct task *` is a slot of the
task table, a `struct file *` an entry of `vfs.files`, a `struct tty *` an
entry of `ctx.ttys`.
-/

namespace Punix

def kb (x : Nat) : Nat := x * 1024
def mb (x : Nat) : Nat := x * 1024 * 1024
def gb (x : Nat) : Nat := x * 1024 * 1024 * 1024

def kernelVaBase : Nat := gb 2
def kernelPaBase : Nat := mb 1
def kernelVaSize : Nat := mb 4

def processVaBase : Nat := mb 4
def processPaStart : Nat := kernelPaBase + kernelVaSize
def processVaSize : Nat := mb 1
def processHeapSize : Nat := kb 512
def processStackTop : Nat := processVaBase + processVaSize - kb 4

/-- `MAX_PROCESS_CNT`. -/
abbrev maxProcessCnt : Nat := 64
def pidNone : Int := -1
def maxSignals : Int := 32

/-- `MAX_FILE_CNT`, the kernel-wide open file table. -/
abbrev maxFileCnt : Nat := 1024
/-- `RLIMIT_NOFILE`, the file limit of one process. -/
abbrev rlimitNofile : Nat := 16
abbrev maxFilenameLen : Nat := 64

abbrev ttyCount : Nat := 12
abbrev ttyInputBufSize : Nat := 256
abbrev ttyOutputBufSize : Nat := 4096

def wnohang : BitVec 32 := 0x01

/-- `MAX_MOUNTS` of `vfs.c`. -/
abbrev maxMounts : Nat := 16
/-- `MAX_DEVICES` of `dev_fs.c`. -/
abbrev maxDevices : Nat := 32

def eintr : Int := 4
def echild : Int := 10
def enomem : Int := 12
def enotdir : Int := 20
def einval : Int := 22
def enoent : Int := 2
def esrch : Int := 3

/-- The address of a task: its slot in the task table. -/
abbrev Slot := Fin maxProcessCnt
/-- The address of a `struct file`: its index in `vfs.files`. -/
abbrev FileRef := Fin maxFileCnt
/-- The address of a `struct tty`: its index in `ctx.ttys`. -/
abbrev TtyRef := Fin ttyCount

instance : NeZero ttyCount := ⟨by decide⟩

instance : Lib.Ring.PowTwo maxProcessCnt := ⟨6, by omega, rfl⟩
instance : Lib.Ring.PowTwo maxFileCnt := ⟨10, by omega, rfl⟩
instance : Lib.Ring.PowTwo ttyInputBufSize := ⟨8, by omega, rfl⟩
instance : Lib.Ring.PowTwo ttyOutputBufSize := ⟨12, by omega, rfl⟩

theorem toNat_lt_rlimitNofile {fd : Int} (h : 0 ≤ fd ∧ fd < rlimitNofile) :
    fd.toNat < rlimitNofile := by
  omega

end Punix
