import Punix.Lib.X86
import Punix.Kernel.Constants

/-!
The routines of `sched.asm` and `syscall.asm` that leave a kernel stack for another one,
that build the first stack of a task, and that enter and leave the kernel. The call in
the middle of `sys_enter` splits it into two routines.
-/

namespace Punix

open Lib Lib.X86

/-- The stack of `prev` is left. -/
def ctxSave : List Instr :=
  [.cli, .load .eax .esp 4, .load .edx .esp 8, .load .ecx .esp 12,
    .push .ebx, .push .esi, .push .edi, .push .ebp, .pushfd,
    .store .eax 4 .esp]

/-- The address space `mm` gets active. -/
def ctxLoadMm : List Instr := [.load .ecx .ecx 0, .load .ecx .ecx 4, .movCr3 .ecx]

/-- Going on with the stack of `next`. -/
def ctxRestore : List Instr :=
  [.load .esp .edx 4,
    .popfd, .pop .ebp, .pop .edi, .pop .esi, .pop .ebx,
    .sti, .xor .eax .eax, .ret]

/-- `void ctx_switch(struct cpu_ctx *prev, struct cpu_ctx *next, struct mm *mm)`. -/
def ctxSwitch : List Instr := ctxSave ++ ctxLoadMm ++ ctxRestore

/-- `sub edi, 4`, and `mov dword [edi], x`. -/
def storeBelow (x : BitVec 32) : List Instr := [.sub .edi 4, .storeImm .edi 0 x]

/-- `sub edi, 4`, `mov edx, [eax + disp]` and `mov [edi], edx`. -/
def storeField (disp : BitVec 32) : List Instr :=
  [.sub .edi 4, .load .edx .eax disp, .store .edi 0 .edx]

/-- `sub edi, 4`, `mov edx, x` and `mov [edi], edx`. -/
def storeAddress (x : BitVec 32) : List Instr :=
  [.sub .edi 4, .movImm .edx x, .store .edi 0 .edx]

/-- `void ctx_setup_trampoline(struct cpu_ctx *cpu_ctx, const struct trampoline *tr)`. The
values for the registers stand in the opposite order to that in which `ctx_switch` pops
them. -/
def ctxSetupTrampoline (taskTrampoline : BitVec 32) : List Instr :=
  [.push .ebp, .mov .ebp .esp, .load .esi .ebp 8, .load .edi .esi 4, .load .eax .ebp 12] ++
  storeField 12 ++ storeField 16 ++ storeField 8 ++ storeField 4 ++ storeField 0 ++
  storeBelow 0 ++ storeAddress taskTrampoline ++
  storeBelow 0x202 ++ storeBelow 0 ++ storeBelow 0 ++ storeBelow 0 ++ storeBelow 0 ++
  [.store .esi 4 .edi, .pop .ebp, .ret]

/-- `void ctx_setup_fork_return(struct cpu_ctx *cpu_ctx)`. -/
def ctxSetupForkReturn (sysReturn : BitVec 32) : List Instr :=
  [.push .ebp, .mov .ebp .esp, .load .eax .ebp 8, .load .edi .eax 4] ++
  storeAddress sysReturn ++
  storeBelow 0 ++ storeBelow 0 ++ storeBelow 0 ++ storeBelow 0 ++ storeBelow 0x202 ++
  [.store .eax 4 .edi, .pop .ebp, .ret]

/-- `mov eax, [esp + from]` and `mov [edi - to], eax`. -/
def passArgument (source dest : BitVec 32) : List Instr :=
  [.load .eax .esp source, .store .edi (-dest) .eax]

/-- `sys_enter`, up to the call of `sys_enter_dispatch_c`. `sched` is the address of the
pointer to the current task. -/
def sysEnter (sched : BitVec 32) : List Instr :=
  [.push .esi, .push .edx, .push .ecx, .push .ebx, .push .eax] ++
  [.pushfd, .push .ebp, .push .edi] ++
  [.loadAt .edi sched, .store .edi 0 .esp, .load .edi .edi 4] ++
  passArgument 28 4 ++ passArgument 24 8 ++ passArgument 20 12 ++ passArgument 16 16 ++
  passArgument 12 20 ++
  [.lea .esp .edi (-20)]

/-- `sys_return`. -/
def sysReturn (sched : BitVec 32) : List Instr :=
  [.loadAt .edi sched, .store .edi 4 .esp, .load .esp .edi 0] ++
  [.pop .edi, .pop .ebp, .popfd, .add .esp 20, .ret]

/-- `sys_enter` behind the call. -/
def sysEnterReturn (sched : BitVec 32) : List Instr := .add .esp 20 :: sysReturn sched

section CtxSwitch

variable {cfg : Config} {s : State}

/-- What `ctx_switch` leaves on the stack of the task that calls it, above the address of the
return. -/
def switchFrame (s : State) : List (BitVec 32) :=
  [s.reg .ebx, s.reg .esi, s.reg .edi, s.reg .ebp, pushFlags (s.eflags &&& ~~~interruptFlag)]

def savedMem (s : State) (prev : BitVec 32) : Memory 32 :=
  (s.mem.pushes (s.reg .esp) (switchFrame s)).setWord (prev + 4) (s.reg .esp - 20)

theorem run_ctxSave (cfg : Config) {ret prev next mm : BitVec 32} {rest : List (BitVec 32)}
    (hcall : s.mem.WordsAt (s.reg .esp) (ret :: prev :: next :: mm :: rest)) :
    run cfg ctxSave s =
      { s with
        mem := savedMem s prev
        eflags := s.eflags &&& ~~~interruptFlag
        reg := Function.update (Function.update (Function.update (Function.update s.reg .eax prev)
          .edx next) .ecx mm) .esp (s.reg .esp - 20) } := by
  obtain ⟨_, rfl, rfl, rfl, _⟩ := hcall
  simp [ctxSave, savedMem, switchFrame, exec, State.setWord, State.setReg, Memory.pushes,
    BitVec.sub_sub, BitVec.add_assoc]

theorem run_ctxLoadMm {impl pd : BitVec 32}
    (himpl : s.mem.word (s.reg .ecx) = impl) (hpd : s.mem.word (impl + 4) = pd) :
    run cfg ctxLoadMm s = (s.setReg .ecx pd).setCr3 cfg.split pd := by
  subst himpl hpd
  simp [ctxLoadMm, exec, State.setReg]

theorem run_ctxRestore (cfg : Config) {sp flags bp di si bx ip : BitVec 32}
    (hsp : s.mem.word (s.reg .edx + 4) = sp)
    (hframe : s.mem.WordsAt sp [flags, bp, di, si, bx, ip]) :
    ∃ status, run cfg ctxRestore s =
      { s with
        reg := Function.update (Function.update (Function.update (Function.update (Function.update
          (Function.update s.reg .ebp bp) .edi di) .esi si) .ebx bx) .eax 0) .esp (sp + 24)
        eip := ip
        eflags := setStatus (popFlags flags ||| interruptFlag) status } := by
  obtain ⟨rfl, rfl, rfl, rfl, rfl, rfl, _⟩ := hframe
  subst hsp
  refine ⟨cfg.status (.xor .eax .eax) (run cfg (ctxRestore.take 7) s), ?_⟩
  simp [ctxRestore, exec, State.setReg, BitVec.add_assoc]
  funext r
  cases r <;> simp

/-- The address is below the stack pointer, in the 20 bytes that `ctx_switch` pushes, or in the
field `k_sp` of `prev`. -/
def SwitchWrites (s : State) (prev : BitVec 32) (b : Nat) : Prop :=
  (s.reg .esp).toNat ≤ b + 20 ∧ b < (s.reg .esp).toNat ∨
    (prev + 4).toNat ≤ b ∧ b < (prev + 4).toNat + 4

/-- In `m`, the stack of the caller has been left with a frame on it, and `prev` points at it. -/
structure LeftStack (cfg : Config) (s : State) (stack : List (BitVec 32)) (prev : BitVec 32)
    (m : Memory 32) : Prop where
  saved : m.word (prev + 4) = s.reg .esp - 20
  stack : m.WordsAt (s.reg .esp - 20) ((switchFrame s).reverse ++ stack)
  mem : ∀ b : BitVec 32, cfg.split.toNat ≤ b.toNat → ¬ SwitchWrites s prev b.toNat → m b = s.mem b

/-- What `ctx_switch` comes to: the stack of the caller is left, and `s'` goes on where the
frame at `sp` has been left. -/
structure Switched (cfg : Config) (s s' : State) (stack : List (BitVec 32))
    (prev pd sp : BitVec 32) (frame : List (BitVec 32)) : Prop where
  ebp : frame[1]? = some (s'.reg .ebp)
  edi : frame[2]? = some (s'.reg .edi)
  esi : frame[3]? = some (s'.reg .esi)
  ebx : frame[4]? = some (s'.reg .ebx)
  eip : frame[5]? = some s'.eip
  esp : s'.reg .esp = sp + 24
  eax : s'.reg .eax = 0
  flags : ∃ flags status, frame[0]? = some flags ∧
    s'.eflags = setStatus (popFlags flags ||| interruptFlag) status
  cr3 : s'.cr3 = pd
  left : LeftStack cfg s stack prev s'.mem
  space : ∀ (q b : BitVec 32), b.toNat < cfg.split.toNat → s'.space q b = s.space q b

theorem savedMem_apart {prev b : BitVec 32} (hlow : 20 ≤ (s.reg .esp).toNat)
    (hprev : (prev + 4).toNat + 4 ≤ 2 ^ 32) (hb : ¬ SwitchWrites s prev b.toNat) :
    savedMem s prev b = s.mem b := by
  unfold SwitchWrites at hb
  have hlength : 4 * (switchFrame s).length = 20 := rfl
  rw [savedMem, Memory.setWord_apart (by omega) hprev]
  exact Memory.pushes_apart (by omega) (by omega)

/-- The stack behind the pushes, and the pointer to it in `prev`. -/
theorem savedMem_stack {prev : BitVec 32} {stack : List (BitVec 32)}
    (hstack : s.mem.WordsAt (s.reg .esp) stack)
    (hlow : 20 ≤ (s.reg .esp).toNat) (hhigh : (s.reg .esp).toNat + 4 * stack.length ≤ 2 ^ 32)
    (hprev : (prev + 4).toNat + 4 ≤ 2 ^ 32)
    (hapart : (prev + 4).toNat + 24 ≤ (s.reg .esp).toNat ∨
      (s.reg .esp).toNat + 4 * stack.length ≤ (prev + 4).toNat) :
    (savedMem s prev).WordsAt (s.reg .esp - 20) ((switchFrame s).reverse ++ stack) := by
  have hlength : 4 * (switchFrame s).length = 20 := rfl
  have hpushed : (s.mem.pushes (s.reg .esp) (switchFrame s)).WordsAt (s.reg .esp - 20)
      ((switchFrame s).reverse ++ stack) := by
    apply hstack.pushes hhigh
    omega
  have hesp : (s.reg .esp - 20).toNat = (s.reg .esp).toNat - 20 := by bv_omega
  have hwords : ((switchFrame s).reverse ++ stack).length = 5 + stack.length := by
    rw [List.length_append, List.length_reverse]
    rfl
  apply hpushed.setWord _ hprev
  · omega
  · omega

theorem length_switchFrame_append (s : State) (stack : List (BitVec 32)) :
    ((switchFrame s).reverse ++ stack).length = 5 + stack.length := by
  rw [List.length_append, List.length_reverse]
  rfl

/-- What has been stored stays in the memory that all address spaces share. -/
theorem leftStack_of_saved {prev : BitVec 32} {stack : List (BitVec 32)} {m : Memory 32}
    (hstack : s.mem.WordsAt (s.reg .esp) stack)
    (hlow : cfg.split.toNat + 20 ≤ (s.reg .esp).toNat)
    (hhigh : (s.reg .esp).toNat + 4 * stack.length ≤ 2 ^ 32)
    (hprev : cfg.split.toNat ≤ (prev + 4).toNat ∧ (prev + 4).toNat + 4 ≤ 2 ^ 32)
    (hapart : (prev + 4).toNat + 24 ≤ (s.reg .esp).toNat ∨
      (s.reg .esp).toNat + 4 * stack.length ≤ (prev + 4).toNat)
    (hm : ∀ b : BitVec 32, cfg.split.toNat ≤ b.toNat → m b = savedMem s prev b) :
    LeftStack cfg s stack prev m where
  saved := by
    have hword : (savedMem s prev).word (prev + 4) = s.reg .esp - 20 :=
      Memory.word_setWord _ (by decide) _
    rw [← hword]
    apply Memory.word_congr
    intro i hi
    apply hm
    rw [BitVec.toNat_add, BitVec.toNat_ofNat]
    omega
  stack := by
    have hsaved := savedMem_stack hstack (by omega) hhigh hprev.2 hapart
    have hfar : (s.reg .esp - 20).toNat = (s.reg .esp).toNat - 20 := by bv_omega
    have hwords := length_switchFrame_append s stack
    apply hsaved.congr (by omega)
    exact fun b hb _ => hm b (by omega)
  mem b hb hout := (hm b hb).trans (savedMem_apart (by omega) hprev.2 hout)

/-- The frame and the address space of `next` have to be there when the stack of the caller has
been left, also where `next` is the caller. -/
theorem run_ctxSwitch {ret prev next mm impl pd sp flags bp di si bx ip : BitVec 32}
    {stack rest behind : List (BitVec 32)}
    (hcall : s.mem.WordsAt (s.reg .esp) stack) (hargs : stack = ret :: prev :: next :: mm :: behind)
    (hlow : cfg.split.toNat + 20 ≤ (s.reg .esp).toNat)
    (hhigh : (s.reg .esp).toNat + 4 * stack.length ≤ 2 ^ 32)
    (hprev : cfg.split.toNat ≤ (prev + 4).toNat ∧ (prev + 4).toNat + 4 ≤ 2 ^ 32)
    (hapart : (prev + 4).toNat + 24 ≤ (s.reg .esp).toNat ∨
      (s.reg .esp).toNat + 4 * stack.length ≤ (prev + 4).toNat)
    (hkept : ∀ m : Memory 32, LeftStack cfg s stack prev m →
      m.word mm = impl ∧ m.word (impl + 4) = pd ∧ m.word (next + 4) = sp ∧
        m.WordsAt sp [flags, bp, di, si, bx, ip]) :
    Switched cfg s (run cfg ctxSwitch s) stack prev pd sp
      (flags :: bp :: di :: si :: bx :: ip :: rest) := by
  have hsave := run_ctxSave cfg (hargs ▸ hcall)
  let s₁ := run cfg ctxSave s
  have hmem₁ : s₁.mem = savedMem s prev := by rw [show s₁ = _ from hsave]
  have hleft (m : Memory 32) (hm : ∀ b : BitVec 32, cfg.split.toNat ≤ b.toNat → m b = s₁.mem b) :
      LeftStack cfg s stack prev m :=
    leftStack_of_saved hcall hlow hhigh hprev hapart (hmem₁ ▸ hm)
  obtain ⟨himpl, hpd, _, _⟩ := hkept s₁.mem (hleft s₁.mem fun _ _ => rfl)
  have hecx : s₁.reg .ecx = mm := by
    rw [show s₁ = _ from hsave]
    simp
  let s₂ := (s₁.setReg .ecx pd).setCr3 cfg.split pd
  have hload : run cfg ctxLoadMm s₁ = s₂ := run_ctxLoadMm (by rw [hecx]; exact himpl) hpd
  have hleft₂ : LeftStack cfg s stack prev s₂.mem := hleft s₂.mem fun b hb => mem_setCr3_of_le hb
  obtain ⟨_, _, hsp, hframe⟩ := hkept s₂.mem hleft₂
  have hedx : s₂.reg .edx = next := by
    change (s₁.setReg .ecx pd).reg .edx = next
    rw [show s₁ = _ from hsave]
    simp [State.setReg]
  obtain ⟨status, hrestore⟩ := run_ctxRestore cfg (by rw [hedx]; exact hsp) hframe
  have hall : run cfg ctxSwitch s = run cfg ctxRestore s₂ := by
    rw [ctxSwitch, run_append, run_append]
    exact congrArg _ hload
  rw [hall, hrestore]
  refine ⟨by simp, by simp, by simp, by simp, by simp, by simp, by simp, ⟨flags, status, rfl, rfl⟩,
    rfl, hleft₂, ?_⟩
  intro q b hb
  have hsame : s₂.space q b = s₁.space q b := space_setCr3 (s := s₁.setReg .ecx pd) hb
  change s₂.space q b = s.space q b
  rw [hsame]
  unfold State.space
  rw [hmem₁, show s₁.cr3 = s.cr3 by rw [show s₁ = _ from hsave],
    show s₁.spaces = s.spaces by rw [show s₁ = _ from hsave]]
  split
  · apply savedMem_apart (by omega) hprev.2
    unfold SwitchWrites
    omega
  · rfl

end CtxSwitch

section Setup

variable {cfg : Config} {s s₀ : State} {m : Memory 32} {top : BitVec 32} {xs : List (BitVec 32)}

/-- `xs` have been stored below `top`, and `edi` points at the last one. -/
structure Filling (m : Memory 32) (top : BitVec 32) (s₀ : State) (xs : List (BitVec 32))
    (s : State) : Prop where
  mem : s.mem = m.pushes top xs
  edi : s.reg .edi = top - BitVec.ofNat 32 (4 * xs.length)
  others : ∀ r, r ≠ .edi → r ≠ .edx → s.reg r = s₀.reg r
  cr3 : s.cr3 = s₀.cr3
  spaces : s.spaces = s₀.spaces

theorem Filling.next {x : BitVec 32} {s' : State} (h : Filling m top s₀ xs s)
    (hmem : s'.mem = s.mem.setWord (s.reg .edi - 4) x) (hedi : s'.reg .edi = s.reg .edi - 4)
    (hothers : ∀ r, r ≠ .edi → r ≠ .edx → s'.reg r = s.reg r) (hcr3 : s'.cr3 = s.cr3)
    (hspaces : s'.spaces = s.spaces) : Filling m top s₀ (xs ++ [x]) s' where
  mem := by rw [hmem, h.mem, h.edi, Memory.pushes_concat]
  edi := by
    rw [hedi, h.edi, List.length_append, List.length_singleton, Nat.mul_succ, BitVec.ofNat_add,
      BitVec.sub_sub]
    rfl
  others r hedi hedx := (hothers r hedi hedx).trans (h.others r hedi hedx)
  cr3 := hcr3.trans h.cr3
  spaces := hspaces.trans h.spaces

theorem Filling.below (cfg : Config) (h : Filling m top s₀ xs s) (x : BitVec 32) :
    Filling m top s₀ (xs ++ [x]) (run cfg (storeBelow x) s) := by
  apply h.next
  · simp [storeBelow, exec, State.setReg, State.setWord]
  · simp [storeBelow, exec, State.setReg, State.setWord]
  · intro r hedi _
    simp [storeBelow, exec, State.setReg, State.setWord, hedi]
  · rfl
  · rfl

theorem Filling.address (cfg : Config) (h : Filling m top s₀ xs s) (x : BitVec 32) :
    Filling m top s₀ (xs ++ [x]) (run cfg (storeAddress x) s) := by
  apply h.next
  · simp [storeAddress, exec, State.setReg, State.setWord]
  · simp [storeAddress, exec, State.setReg, State.setWord]
  · intro r hedi hedx
    simp [storeAddress, exec, State.setReg, State.setWord, hedi, hedx]
  · rfl
  · rfl

theorem Filling.field (cfg : Config) {disp x : BitVec 32} (h : Filling m top s₀ xs s)
    (hx : (m.pushes top xs).word (s₀.reg .eax + disp) = x) :
    Filling m top s₀ (xs ++ [x]) (run cfg (storeField disp) s) := by
  rw [← h.mem, ← h.others .eax (by decide) (by decide)] at hx
  apply h.next
  · simp [storeField, exec, State.setReg, State.setWord, hx]
  · simp [storeField, exec, State.setReg, State.setWord]
  · intro r hedi hedx
    simp [storeField, exec, State.setReg, State.setWord, hedi, hedx]
  · rfl
  · rfl

/-- The end of both routines: the pointer to the stack is stored. -/
theorem Filling.finish (cfg : Config) (h : Filling m top s₀ xs s) {r : Reg} (hedi : r ≠ .edi) (hedx : r ≠ .edx) :
    let s' := run cfg [.store r 4 .edi, .pop .ebp, .ret] s
    s'.cr3 = s₀.cr3 ∧ s'.spaces = s₀.spaces ∧
      s'.mem = (m.pushes top xs).setWord (s₀.reg r + 4) (top - BitVec.ofNat 32 (4 * xs.length)) := by
  refine ⟨h.cr3, h.spaces, ?_⟩
  simp only [run_cons, run_nil, exec, State.setReg, State.setWord]
  rw [h.mem, h.edi, h.others r hedi hedx]

/-- The memory when `ebp` has been pushed. -/
def pushedEbp (s : State) : Memory 32 := s.mem.setWord (s.reg .esp - 4) (s.reg .ebp)

/-- What `ctx_setup_fork_return` comes to for the memory. -/
theorem run_ctxSetupForkReturn {ctx sysReturn : BitVec 32}
    (hctx : (pushedEbp s).word (s.reg .esp + 4) = ctx)
    (htop : (pushedEbp s).word (ctx + 4) = top) :
    let s' := run cfg (ctxSetupForkReturn sysReturn) s
    s'.cr3 = s.cr3 ∧ s'.spaces = s.spaces ∧
      s'.mem = ((pushedEbp s).pushes top [sysReturn, 0, 0, 0, 0, 0x202]).setWord (ctx + 4)
        (top - 24) := by
  intro s'
  let s₁ := run cfg [.push .ebp, .mov .ebp .esp, .load .eax .ebp 8, .load .edi .eax 4] s
  have haddr : s.reg .esp - 4 + 8 = s.reg .esp + 4 := by bv_omega
  have heax : s₁.reg .eax = ctx := by
    rw [← haddr] at hctx
    simpa [s₁, exec, State.setReg, State.setWord, pushedEbp] using hctx
  have hedi : s₁.reg .edi = top := by
    have hload : s₁.reg .edi = (pushedEbp s).word (s₁.reg .eax + 4) := by
      simp [s₁, exec, State.setReg, State.setWord, pushedEbp]
    rw [hload, heax, htop]
  have hstart : Filling (pushedEbp s) top s₁ [] s₁ :=
    ⟨rfl, by simpa using hedi, fun _ _ _ => rfl, rfl, rfl⟩
  have hfilled := (((((hstart.address cfg sysReturn).below cfg 0).below
    cfg 0).below cfg 0).below cfg 0).below cfg 0x202
  simp only [← run_append] at hfilled
  have hrun : s' = run cfg [.store .eax 4 .edi, .pop .ebp, .ret]
      (run cfg (storeAddress sysReturn ++ storeBelow 0 ++ storeBelow 0 ++ storeBelow 0 ++
        storeBelow 0 ++ storeBelow 0x202) s₁) := by
    simp only [s', s₁, ctxSetupForkReturn, ← run_append, List.append_assoc]
  have hend := hfilled.finish cfg (r := .eax) (by decide) (by decide)
  rw [← hrun, heax] at hend
  exact hend

/-- What `ctx_setup_trampoline` comes to for the memory. The structure `tr` is not overwritten
while it is read. -/
theorem run_ctxSetupTrampoline {ctx tr entry argc argv envc envp taskTrampoline : BitVec 32}
    (hctx : (pushedEbp s).word (s.reg .esp + 4) = ctx)
    (htr : (pushedEbp s).word (s.reg .esp + 8) = tr)
    (htop : (pushedEbp s).word (ctx + 4) = top)
    (hfields : ∀ xs : List (BitVec 32), xs.length ≤ 12 →
      ((pushedEbp s).pushes top xs).WordsAt tr [entry, argc, argv, envc, envp]) :
    let s' := run cfg (ctxSetupTrampoline taskTrampoline) s
    s'.cr3 = s.cr3 ∧ s'.spaces = s.spaces ∧
      s'.mem = ((pushedEbp s).pushes top [envc, envp, argv, argc, entry, 0, taskTrampoline,
        0x202, 0, 0, 0, 0]).setWord (ctx + 4) (top - 48) := by
  intro s'
  let s₁ := run cfg
    [.push .ebp, .mov .ebp .esp, .load .esi .ebp 8, .load .edi .esi 4, .load .eax .ebp 12] s
  have haddr : s.reg .esp - 4 + 8 = s.reg .esp + 4 := by bv_omega
  have haddr' : s.reg .esp - 4 + 12 = s.reg .esp + 8 := by bv_omega
  have hesi : s₁.reg .esi = ctx := by
    rw [← haddr] at hctx
    simpa [s₁, exec, State.setReg, State.setWord, pushedEbp] using hctx
  have heax : s₁.reg .eax = tr := by
    rw [← haddr'] at htr
    simpa [s₁, exec, State.setReg, State.setWord, pushedEbp] using htr
  have hedi : s₁.reg .edi = top := by
    have hload : s₁.reg .edi = (pushedEbp s).word (s₁.reg .esi + 4) := by
      simp [s₁, exec, State.setReg, State.setWord, pushedEbp]
    rw [hload, hesi, htop]
  have hstart : Filling (pushedEbp s) top s₁ [] s₁ :=
    ⟨rfl, by simpa using hedi, fun _ _ _ => rfl, rfl, rfl⟩
  -- the fields of `tr`, at any time before the last store
  have hword (xs : List (BitVec 32)) (hxs : xs.length ≤ 12) :
      ((pushedEbp s).pushes top xs).word (s₁.reg .eax + 0) = entry ∧
        ((pushedEbp s).pushes top xs).word (s₁.reg .eax + 4) = argc ∧
        ((pushedEbp s).pushes top xs).word (s₁.reg .eax + 8) = argv ∧
        ((pushedEbp s).pushes top xs).word (s₁.reg .eax + 12) = envc ∧
        ((pushedEbp s).pushes top xs).word (s₁.reg .eax + 16) = envp := by
    simpa [Memory.WordsAt, BitVec.add_assoc, heax] using hfields xs hxs
  have henvc := hstart.field cfg (hword [] (by simp)).2.2.2.1
  have henvp := henvc.field cfg (hword [envc] (by simp)).2.2.2.2
  have hargv := henvp.field cfg (hword [envc, envp] (by simp)).2.2.1
  have hargc := hargv.field cfg (hword [envc, envp, argv] (by simp)).2.1
  have hargs := hargc.field cfg (hword [envc, envp, argv, argc] (by simp)).1
  have hfilled := ((((((hargs.below cfg 0).address cfg taskTrampoline).below
    cfg 0x202).below cfg 0).below cfg 0).below cfg 0).below
    cfg 0
  simp only [← run_append] at hfilled
  have hrun : s' = run cfg [.store .esi 4 .edi, .pop .ebp, .ret]
      (run cfg (storeField 12 ++ storeField 16 ++ storeField 8 ++ storeField 4 ++ storeField 0 ++
        storeBelow 0 ++ storeAddress taskTrampoline ++ storeBelow 0x202 ++ storeBelow 0 ++
        storeBelow 0 ++ storeBelow 0 ++ storeBelow 0) s₁) := by
    simp only [s', s₁, ctxSetupTrampoline, ← run_append, List.append_assoc]
  have hend := hfilled.finish cfg (r := .esi) (by decide) (by decide)
  rw [← hrun, hesi] at hend
  exact hend

end Setup

section Syscall

variable {cfg : Config} {s : State} {sched ctx : BitVec 32}

/-- What `sys_enter` pushes onto the stack of the program. -/
def enterFrame (s : State) : List (BitVec 32) :=
  [s.reg .esi, s.reg .edx, s.reg .ecx, s.reg .ebx, s.reg .eax, pushFlags s.eflags, s.reg .ebp,
    s.reg .edi]

/-- The memory when the stack of the program is left. -/
def enteredMem (s : State) (ctx : BitVec 32) : Memory 32 :=
  (s.mem.pushes (s.reg .esp) (enterFrame s)).setWord ctx (s.reg .esp - 32)

/-- `xs` have been passed below `ksp`. -/
structure Passing (m : Memory 32) (ksp : BitVec 32) (s₀ : State) (xs : List (BitVec 32))
    (s : State) : Prop where
  mem : s.mem = m.pushes ksp xs
  edi : s.reg .edi = ksp
  others : ∀ r, r ≠ .eax → s.reg r = s₀.reg r
  cr3 : s.cr3 = s₀.cr3
  spaces : s.spaces = s₀.spaces

theorem Passing.next (cfg : Config) {m : Memory 32} {ksp source x : BitVec 32} {s₀ : State}
    {xs : List (BitVec 32)} (h : Passing m ksp s₀ xs s) (dest : BitVec 32)
    (hdest : dest = BitVec.ofNat 32 (4 * (xs.length + 1)))
    (hx : (m.pushes ksp xs).word (s₀.reg .esp + source) = x) :
    Passing m ksp s₀ (xs ++ [x]) (run cfg (passArgument source dest) s) := by
  rw [← h.mem, ← h.others .esp (by decide)] at hx
  have haddr : ksp + -dest = ksp - BitVec.ofNat 32 (4 * xs.length) - 4 := by
    rw [← BitVec.sub_eq_add_neg, hdest, Nat.mul_succ, BitVec.ofNat_add, BitVec.sub_sub]
    rfl
  refine ⟨?_, ?_, ?_, h.cr3, h.spaces⟩
  · rw [Memory.pushes_concat, ← haddr, ← h.mem, ← h.edi]
    simp [passArgument, exec, State.setReg, State.setWord, hx]
  · rw [← h.edi]
    simp [passArgument, exec, State.setReg, State.setWord]
  · intro r hr
    rw [← h.others r hr]
    simp [passArgument, exec, State.setReg, State.setWord, hr]

/-- The stack pointer gets to the arguments. -/
theorem Passing.finish (cfg : Config) {m : Memory 32} {ksp : BitVec 32} {s₀ : State} {xs : List (BitVec 32)}
    (h : Passing m ksp s₀ xs s) :
    let s' := run cfg [.lea .esp .edi (-20)] s
    s'.cr3 = s₀.cr3 ∧ s'.spaces = s₀.spaces ∧ s'.reg .esp = ksp - 20 ∧ s'.mem = m.pushes ksp xs := by
  refine ⟨h.cr3, h.spaces, ?_, h.mem⟩
  simp only [run_cons, run_nil, exec, State.setReg, Function.update_self]
  rw [h.edi, BitVec.sub_eq_add_neg]

/-- The stack of the program holds what `sys_enter` has pushed, until the end. -/
theorem run_sysEnter {ksp : BitVec 32} {ret : List (BitVec 32)}
    (hsched : (s.mem.pushes (s.reg .esp) (enterFrame s)).word sched = ctx)
    (hksp : (enteredMem s ctx).word (ctx + 4) = ksp)
    (hframe : ∀ xs : List (BitVec 32), xs.length ≤ 5 → ((enteredMem s ctx).pushes ksp xs).WordsAt
      (s.reg .esp - 32) ((enterFrame s).reverse ++ ret)) :
    let s' := run cfg (sysEnter sched) s
    s'.cr3 = s.cr3 ∧ s'.spaces = s.spaces ∧ s'.reg .esp = ksp - 20 ∧
      s'.mem = (enteredMem s ctx).pushes ksp
        [s.reg .esi, s.reg .edx, s.reg .ecx, s.reg .ebx, s.reg .eax] := by
  intro s'
  let pushed := run cfg ([.push .esi, .push .edx, .push .ecx, .push .ebx, .push .eax] ++
    [.pushfd, .push .ebp, .push .edi]) s
  have hpushed : pushed.mem = s.mem.pushes (s.reg .esp) (enterFrame s) ∧
      pushed.reg .esp = s.reg .esp - 32 := by
    simp [pushed, enterFrame, exec, State.setReg, State.setWord, Memory.pushes, BitVec.sub_sub]
  let s₁ := run cfg [.loadAt .edi sched, .store .edi 0 .esp, .load .edi .edi 4] pushed
  have hmem : s₁.mem = enteredMem s ctx := by
    simp [s₁, exec, State.setReg, State.setWord, hpushed.1, hpushed.2, hsched, enteredMem]
  have hesp : s₁.reg .esp = s.reg .esp - 32 := by
    simp [s₁, exec, State.setReg, State.setWord, hpushed.2]
  have hedi : s₁.reg .edi = ksp := by
    have hload : s₁.reg .edi = s₁.mem.word (ctx + 4) := by
      simp [s₁, exec, State.setReg, State.setWord, hpushed.1, hsched]
    rw [hload, hmem, hksp]
  have hstart : Passing (enteredMem s ctx) ksp s₁ [] s₁ := ⟨hmem, hedi, fun _ _ => rfl, rfl, rfl⟩
  have hword (xs : List (BitVec 32)) (hxs : xs.length ≤ 5) :
      ((enteredMem s ctx).pushes ksp xs).word (s₁.reg .esp + 12) = s.reg .eax ∧
        ((enteredMem s ctx).pushes ksp xs).word (s₁.reg .esp + 16) = s.reg .ebx ∧
        ((enteredMem s ctx).pushes ksp xs).word (s₁.reg .esp + 20) = s.reg .ecx ∧
        ((enteredMem s ctx).pushes ksp xs).word (s₁.reg .esp + 24) = s.reg .edx ∧
        ((enteredMem s ctx).pushes ksp xs).word (s₁.reg .esp + 28) = s.reg .esi := by
    have hsaved := (Memory.WordsAt.append (hframe xs hxs)).1
    rw [← hesp] at hsaved
    simp only [enterFrame, List.reverse_cons, List.reverse_nil, List.nil_append, List.cons_append,
      Memory.WordsAt, BitVec.add_assoc] at hsaved
    exact ⟨hsaved.2.2.2.1, hsaved.2.2.2.2.1, hsaved.2.2.2.2.2.1, hsaved.2.2.2.2.2.2.1,
      hsaved.2.2.2.2.2.2.2.1⟩
  have hesi := hstart.next cfg 4 rfl (hword [] (by simp)).2.2.2.2
  have hedx := hesi.next cfg 8 rfl (hword [s.reg .esi] (by simp)).2.2.2.1
  have hecx := hedx.next cfg 12 rfl
    (hword [s.reg .esi, s.reg .edx] (by simp)).2.2.1
  have hebx := hecx.next cfg 16 rfl
    (hword [s.reg .esi, s.reg .edx, s.reg .ecx] (by simp)).2.1
  have hall := hebx.next cfg 20 rfl
    (hword [s.reg .esi, s.reg .edx, s.reg .ecx, s.reg .ebx] (by simp)).1
  simp only [← run_append] at hall
  have hrun : s' = run cfg [.lea .esp .edi (-20)]
      (run cfg (passArgument 28 4 ++ passArgument 24 8 ++ passArgument 20 12 ++
        passArgument 16 16 ++ passArgument 12 20) s₁) := by
    simp only [s', s₁, pushed, sysEnter, ← run_append, List.append_assoc]
  have hsame : s₁.cr3 = s.cr3 ∧ s₁.spaces = s.spaces := by
    simp [s₁, pushed, exec, State.setReg, State.setWord]
  have hend := hall.finish cfg
  rw [← hrun, hsame.1, hsame.2] at hend
  exact hend

theorem run_sysReturn {usp di bp flags ax bx cx dx si ip : BitVec 32} {rest : List (BitVec 32)}
    (hsched : s.mem.word sched = ctx)
    (husp : (s.mem.setWord (ctx + 4) (s.reg .esp)).word ctx = usp)
    (hframe : (s.mem.setWord (ctx + 4) (s.reg .esp)).WordsAt usp
      (di :: bp :: flags :: ax :: bx :: cx :: dx :: si :: ip :: rest)) :
    ∃ status, run cfg (sysReturn sched) s =
      { s with
        reg := Function.update (Function.update (Function.update s.reg .edi di) .ebp bp) .esp
          (usp + 36)
        eip := ip
        eflags := setStatus (popFlags flags) status
        mem := s.mem.setWord (ctx + 4) (s.reg .esp) } := by
  obtain ⟨rfl, rfl, rfl, _, _, _, _, _, rfl, _⟩ := hframe
  subst hsched husp
  refine ⟨cfg.status (.add .esp 20) (run cfg ((sysReturn sched).take 6) s), ?_⟩
  simp [sysReturn, exec, State.setReg, State.setWord, BitVec.add_assoc]
  funext r
  cases r <;> simp

theorem run_sysEnterReturn (cfg : Config) (sched : BitVec 32) (s : State) :
    run cfg (sysEnterReturn sched) s = run cfg (sysReturn sched) (exec cfg (.add .esp 20) s) :=
  run_cons ..

end Syscall

end Punix
