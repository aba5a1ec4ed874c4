import Punix.Kernel.Exec

/-!
From the kernel to `main`: `task_trampoline` of `sched.asm` builds the initial stack of
a program and jumps to its `_start` in `crt0_i386.asm`, which passes the vectors on the
stack to `main`.
-/

namespace Punix

open Lib

/-- The user memory and `esp`. -/
structure Stack where
  mem : Mem
  esp : BitVec 32

namespace Stack

/-- `push dword x`. -/
def push (s : Stack) (x : BitVec 32) : Stack where
  mem := s.mem.setWord (s.esp - 4) x
  esp := s.esp - 4

/-- The loops `.push_envp_loop` and `.push_argv_loop`: the last pointer is pushed first. -/
def pushVector (base : BitVec 32) : Nat → Stack → Stack
  | 0, s => s
  | n + 1, s => pushVector base n (s.push (s.mem.word (pointerAt base n)))

end Stack

/-- The auxiliary vector in the order in which it is pushed, as pairs of a type
(`AT_NULL`, `AT_SECURE`, `AT_EGID`, `AT_GID`, `AT_EUID`, `AT_UID`, `AT_PAGESZ`) and a value. -/
def auxv : List (BitVec 32 × BitVec 32) :=
  [(0, 0), (23, 0), (14, 0), (13, 0), (12, 0), (11, 0), (6, 4096)]

/-- `task_trampoline`, from the switch to the user stack on. -/
def taskTrampoline (m : Mem) (uSp : BitVec 32) (tr : Trampoline) : Stack :=
  let s : Stack := { mem := m, esp := uSp &&& 0xFFFFFFF0 }
  let s := auxv.foldl (fun s (key, value) => (s.push value).push key) s
  let s := (s.push 0).pushVector tr.heapEnvp tr.envc
  let s := (s.push 0).pushVector tr.heapArgv tr.argc
  s.push (BitVec.ofNat 32 tr.argc)

/-- `_start`, up to the first instruction of `main`; `hang` is the return address of the
call. -/
def start (s : Stack) (hang : BitVec 32) : Stack :=
  let argc := s.mem.word s.esp
  let argv := s.esp + 4
  let envp := s.esp + 8 + argc * 4
  (((s.push envp).push argv).push argc).push hang

/-- What a program finds in memory when its `main` starts. -/
def mainMemory (m : Mem) (tr : Trampoline) (hang : BitVec 32) : Mem :=
  (start (taskTrampoline m (BitVec.ofNat 32 processStackTop) tr) hang).mem

/-- The number of words below the top of the stack when `main` starts. -/
def initialWords (tr : Trampoline) : Nat := tr.envc + tr.argc + 21

/-- `n` words have been pushed, and nothing else is changed. -/
structure Pushed (n : Nat) (s s' : Stack) : Prop where
  esp : s.esp = s'.esp + BitVec.ofNat 32 (4 * n)
  outside : ∀ x, 4 * n ≤ (x - s'.esp).toNat → s'.mem x = s.mem x

namespace Pushed

variable {s s₁ s₂ : Stack} {n n' : Nat}

theorem refl (s : Stack) : Pushed 0 s s := ⟨(BitVec.add_zero s.esp).symm, fun _ _ => rfl⟩

theorem push (h : Pushed n s s₁) (x : BitVec 32) : Pushed (n + 1) s (s₁.push x) where
  esp := by
    have hesp : s₁.esp = (s₁.push x).esp + 4 := (BitVec.sub_add_cancel s₁.esp 4).symm
    rw [h.esp, hesp, BitVec.add_assoc, Nat.mul_succ, Nat.add_comm, BitVec.ofNat_add]
    rfl
  outside y hy := by
    have hesp : s₁.esp = (s₁.push x).esp + BitVec.ofNat 32 4 := (BitVec.sub_add_cancel s₁.esp 4).symm
    have hfar : 4 * n ≤ (y - s₁.esp).toNat := by
      rw [hesp, Memory.toNat_sub_add (by omega)]
      omega
    rw [← h.outside y hfar]
    apply Memory.fill_outside
    change 4 ≤ (y - (s₁.push x).esp).toNat
    omega

theorem pushVector (base : BitVec 32) (h : Pushed n s s₁) (k : Nat) :
    Pushed (n + k) s (s₁.pushVector base k) := by
  induction k generalizing n s₁ with
  | zero => exact h
  | succ k ih =>
      have hstep := ih (h.push (s₁.mem.word (pointerAt base k)))
      rwa [Nat.add_assoc, Nat.add_comm 1 k] at hstep

theorem auxv (h : Pushed n s s₁) (pairs : List (BitVec 32 × BitVec 32)) :
    Pushed (n + 2 * pairs.length) s
      (pairs.foldl (fun s (key, value) => (s.push value).push key) s₁) := by
  induction pairs generalizing n s₁ with
  | nil => exact h
  | cons pair pairs ih =>
      have hstep := ih ((h.push pair.2).push pair.1)
      rw [List.length_cons]
      rwa [show n + 1 + 1 + 2 * pairs.length = n + 2 * (pairs.length + 1) by omega] at hstep

theorem start (h : Pushed n s s₁) (hang : BitVec 32) : Pushed (n + 4) s (start s₁ hang) := by
  unfold Punix.start
  exact (((h.push _).push _).push _).push hang

end Pushed

theorem pushed_taskTrampoline (m : Mem) (uSp : BitVec 32) (tr : Trampoline) :
    Pushed (tr.envc + tr.argc + 17) { mem := m, esp := uSp &&& 0xFFFFFFF0 }
      (taskTrampoline m uSp tr) := by
  have haux := (Pushed.refl { mem := m, esp := uSp &&& 0xFFFFFFF0 }).auxv auxv
  have hvectors := (((haux.push 0).pushVector tr.heapEnvp tr.envc).push 0).pushVector
    tr.heapArgv tr.argc
  have hall := hvectors.push (BitVec.ofNat 32 tr.argc)
  have hcount : 0 + 2 * auxv.length + 1 + tr.envc + 1 + tr.argc + 1 = tr.envc + tr.argc + 17 := by
    rw [show auxv.length = 7 from rfl]
    omega
  rwa [hcount] at hall

/-- The top of the stack is aligned already. -/
theorem processStackTop_aligned : BitVec.ofNat 32 processStackTop &&& 0xFFFFFFF0 =
    BitVec.ofNat 32 processStackTop := by decide

/-- Outside of the initial stack nothing is written. -/
theorem mainMemory_outside {m : Mem} {tr : Trampoline} {hang x : BitVec 32}
    (hx : x.toNat + 4 * initialWords tr < processStackTop) : mainMemory m tr hang x = m x := by
  have hstack := (pushed_taskTrampoline m (BitVec.ofNat 32 processStackTop) tr).start hang
  apply hstack.outside
  have hesp := hstack.esp
  rw [processStackTop_aligned] at hesp
  have htop : processStackTop = 5238784 := by decide
  have hnat := congrArg BitVec.toNat hesp
  rw [BitVec.toNat_add, BitVec.toNat_ofNat, BitVec.toNat_ofNat] at hnat
  rw [initialWords] at hx
  rw [BitVec.toNat_sub]
  omega

end Punix
