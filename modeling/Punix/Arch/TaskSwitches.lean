import Punix.Arch.TaskStacks

/-!
Runs of the processor: switches between tasks, first stacks, and system calls, with any
code in between that keeps what the other tasks have put away. A task that gets the
processor back finds its registers as it left them, and so does a program whose system call
returns, in the task that made it as well as in a child that was forked in it.
-/

namespace Punix

open Lib Lib.X86

inductive CtxEvent where
  /-- Code of the kernel, of an interrupt or of a program. -/
  | work
  /-- `ctx_switch`, called by `sched_schedule`; there is no task to come back to when it has
  ended, or at boot. A task that sleeps has a `wait_entry`; when it has been woken before
  `sched_schedule` looks at the queue, it may be `next` itself. -/
  | switch (prev : Option Slot) (next : Slot) (entry : Option (BitVec 32))
  /-- `ctx_setup_fork_return`. -/
  | forkReturn (child : Slot)
  /-- `ctx_setup_trampoline`. -/
  | trampoline (t : Slot)
  | sysEnter (t : Slot)
  /-- `sys_enter_dispatch_c` returns to `sys_enter`. -/
  | sysEnterReturn (t : Slot)
  /-- `sys_return`, that a child which has been forked gets to. -/
  | sysReturn (t : Slot)
  /-- What `sched_fork` copies: `u_sp` and the memory of the program. -/
  | inherit (parent child : Slot)
  /-- `t` ends, or its program is replaced: what it has put away is not needed any more. -/
  | drop (t : Slot)

/-- What `ctx_switch` parks: its frame, on what has been on the stack. -/
def parkedBySwitch (cpu : State) (stack : List (BitVec 32)) (entry : Option (BitVec 32)) :
    ParkedStack where
  sp := cpu.reg .esp - 20
  words := (switchFrame cpu).reverse ++ stack
  entry := entry

/-- `prev`, if there is one, does not run any more. -/
def leaveStack (parked : Slot → Option ParkedStack) (prev : Option Slot) (f : ParkedStack) :
    Slot → Option ParkedStack :=
  match prev with
  | none => parked
  | some t => Function.update parked t (some f)

theorem leaveStack_prev (parked : Slot → Option ParkedStack) (t : Slot) (f : ParkedStack) :
    leaveStack parked (some t) f t = some f :=
  Function.update_self ..

/-- What `ctx_setup_fork_return` parks, below `top`. -/
def parkedByFork (top sysReturnAddr : BitVec 32) : ParkedStack where
  sp := top - 24
  words := [0x202, 0, 0, 0, 0, sysReturnAddr]
  entry := none

/-- What `ctx_setup_trampoline` parks, below `top`: `ctx_switch` takes the first word for the
flags and the fifth one for `ebx`. -/
def parkedByTrampoline (top trampolineAddr entry argc argv envp envc : BitVec 32) :
    ParkedStack where
  sp := top - 48
  words := [0, 0, 0, 0, 0x202, trampolineAddr, 0, entry, argc, argv, envp, envc]
  entry := none

/-- What `sys_enter` leaves on the stack of the program. -/
def enteredBy (cpu : State) (ret : BitVec 32) : StackWords where
  sp := cpu.reg .esp - 32
  words := (enterFrame cpu).reverse ++ [ret]

namespace KernelLayout

variable {cfg : Config} (lay : KernelLayout cfg)

/-- `ctx_switch(prevCtx, next, next->mm)` is called on the kernel stack of `prev`, all of which
is in `stack`. A `wait_entry` is on it behind the arguments. Without a `prev` it is called on a
stack that nothing is parked on, with the address of a variable, `dummy_cpu_ctx`. -/
structure SwitchCall (s : CtxState) (prev : Option Slot) (next : Slot)
    (entry : Option (BitVec 32)) (stack : List (BitVec 32)) (prevCtx : BitVec 32) : Prop where
  words : s.cpu.mem.WordsAt (s.cpu.reg .esp) stack
  args : ∃ ret behind, stack = ret :: prevCtx :: lay.ctxAddr next :: lay.mm next :: behind
  low : 20 ≤ (s.cpu.reg .esp).toNat
  task : ∀ t, prev = some t → prevCtx = lay.ctxAddr t ∧ s.parked t = none ∧
    lay.stackBase t + 20 ≤ (s.cpu.reg .esp).toNat ∧
    (s.cpu.reg .esp).toNat + 4 * stack.length = lay.stackTop t
  entry : ∀ e, entry = some e → (s.cpu.reg .esp).toNat + 16 ≤ e.toNat ∧
    e.toNat + 16 ≤ (s.cpu.reg .esp).toNat + 4 * stack.length
  dummy : prev = none →
    lay.Free s ((s.cpu.reg .esp).toNat - 20) (20 + 4 * stack.length) ∧
    lay.Free s (prevCtx + 4).toNat 4 ∧ ((prevCtx + 4).toNat + 24 ≤ (s.cpu.reg .esp).toNat ∨
      (s.cpu.reg .esp).toNat + 4 * stack.length ≤ (prevCtx + 4).toNat)

/-- `ctx_setup_fork_return(child)` is called for a task whose stack is empty. -/
structure ForkReturnCall (s : CtxState) (child : Slot) (ret : BitVec 32) : Prop where
  call : s.cpu.mem.WordsAt (s.cpu.reg .esp) [ret, lay.ctxAddr child]
  low : 4 ≤ (s.cpu.reg .esp).toNat
  stack : lay.Free s ((s.cpu.reg .esp).toNat - 4) 12
  other : (s.cpu.reg .esp).toNat + 8 ≤ lay.ctx child ∨
    lay.ctx child + lay.slotSize ≤ (s.cpu.reg .esp).toNat - 4
  fresh : s.parked child = none
  top : (s.cpu.mem.word (lay.ctxAddr child + 4)).toNat = lay.stackTop child

/-- `ctx_setup_trampoline(t, tr)` is called; the twelve words below `k_sp` are not in use. -/
structure TrampolineCall (s : CtxState) (t : Slot)
    (ret tr entry argc argv envc envp : BitVec 32) : Prop where
  call : s.cpu.mem.WordsAt (s.cpu.reg .esp) [ret, lay.ctxAddr t, tr]
  fields : s.cpu.mem.WordsAt tr [entry, argc, argv, envc, envp]
  low : 4 ≤ (s.cpu.reg .esp).toNat
  stack : lay.Free s ((s.cpu.reg .esp).toNat - 4) 16
  fresh : s.parked t = none
  room : 48 ≤ (s.cpu.mem.word (lay.ctxAddr t + 4)).toNat ∧
    lay.InStack t ((s.cpu.mem.word (lay.ctxAddr t + 4)).toNat - 48) 48
  deeper : ((s.cpu.reg .esp).toNat + 12 ≤ lay.ctx t + 4 ∨
      lay.ctx t + 8 ≤ (s.cpu.reg .esp).toNat - 4) ∧
    ((s.cpu.reg .esp).toNat + 60 ≤ (s.cpu.mem.word (lay.ctxAddr t + 4)).toNat ∨
      (s.cpu.mem.word (lay.ctxAddr t + 4)).toNat ≤ (s.cpu.reg .esp).toNat - 4)
  tr_fits : tr.toNat + 20 ≤ 2 ^ 32
  tr_apart : (tr.toNat + 20 ≤ (s.cpu.reg .esp).toNat - 4 ∨ (s.cpu.reg .esp).toNat ≤ tr.toNat) ∧
    (tr.toNat + 68 ≤ (s.cpu.mem.word (lay.ctxAddr t + 4)).toNat ∨
      (s.cpu.mem.word (lay.ctxAddr t + 4)).toNat ≤ tr.toNat)

/-- The program of the current task `t` calls `sys_enter`. -/
structure EnterCall (s : CtxState) (t : Slot) (ret : BitVec 32) : Prop where
  call : s.cpu.mem.WordsAt (s.cpu.reg .esp) [ret]
  low : 32 ≤ (s.cpu.reg .esp).toNat
  high : (s.cpu.reg .esp).toNat + 4 ≤ cfg.split.toNat
  current : s.cpu.mem.word lay.sched = lay.ctxAddr t
  active : s.cpu.cr3 = lay.pd t
  running : s.parked t = none
  outside : s.entered t = none
  room : 20 ≤ (s.cpu.mem.word (lay.ctxAddr t + 4)).toNat ∧
    lay.InStack t ((s.cpu.mem.word (lay.ctxAddr t + 4)).toNat - 20) 20

/-- `sys_return` is reached by the current task `t`, or the end of the call in front of it. -/
structure ReturnCall (s : CtxState) (t : Slot) : Prop where
  current : s.cpu.mem.word lay.sched = lay.ctxAddr t
  active : s.cpu.cr3 = lay.pd t
  running : s.parked t = none

/-- The child gets what `sched_fork` copies for it: the memory of the process window, and the
user stack pointer, which is in it. -/
structure Inherits (s : CtxState) (cpu : State) (p c : Slot) (f : StackWords) : Prop where
  inside : s.entered p = some f
  keeps : lay.Keeps { s with entered := Function.update s.entered c none } cpu
  cr3 : cpu.cr3 = s.cpu.cr3
  userSp : cpu.mem.word (lay.ctxAddr c) = s.cpu.mem.word (lay.ctxAddr p)
  window : processVaBase ≤ f.sp.toNat ∧
    f.sp.toNat + 4 * f.words.length ≤ processVaBase + processVaSize
  memory : ∀ b : BitVec 32, processVaBase ≤ b.toNat → b.toNat < processVaBase + processVaSize →
    cpu.space (lay.pd c) b = s.cpu.space (lay.pd p) b

end KernelLayout

open KernelLayout

/-- One step of the processor. -/
def CtxEvent.Step {cfg : Config} (lay : KernelLayout cfg) (s : CtxState) (e : CtxEvent)
    (s' : CtxState) : Prop :=
  match e with
  | .work => s'.parked = s.parked ∧ s'.entered = s.entered ∧ s'.cpu.cr3 = s.cpu.cr3 ∧
      lay.Keeps s s'.cpu
  | .switch prev next entry => ∃ stack prevCtx f,
      lay.SwitchCall s prev next entry stack prevCtx ∧
      leaveStack s.parked prev (parkedBySwitch s.cpu stack entry) next = some f ∧
      6 ≤ f.words.length ∧
      s' = { s with
        cpu := run cfg ctxSwitch s.cpu
        parked := Function.update
          (leaveStack s.parked prev (parkedBySwitch s.cpu stack entry)) next none }
  | .forkReturn child => ∃ ret, lay.ForkReturnCall s child ret ∧
      s' = { s with
        cpu := run cfg (ctxSetupForkReturn lay.sysReturnAddr) s.cpu
        parked := Function.update s.parked child (some
          (parkedByFork (s.cpu.mem.word (lay.ctxAddr child + 4)) lay.sysReturnAddr)) }
  | .trampoline t => ∃ ret tr entry argc argv envc envp,
      lay.TrampolineCall s t ret tr entry argc argv envc envp ∧
      s' =
        { cpu := run cfg (ctxSetupTrampoline lay.trampolineAddr) s.cpu
          parked := Function.update s.parked t (some
            (parkedByTrampoline (s.cpu.mem.word (lay.ctxAddr t + 4)) lay.trampolineAddr
              entry argc argv envp envc))
          entered := Function.update s.entered t none }
  | .sysEnter t => ∃ ret, lay.EnterCall s t ret ∧
      s' = { s with
        cpu := run cfg (Punix.sysEnter lay.sched) s.cpu
        entered := Function.update s.entered t (some (enteredBy s.cpu ret)) }
  | .sysEnterReturn t => lay.ReturnCall s t ∧ (∃ f, s.entered t = some f ∧ f.words.length = 9) ∧
      s' = { s with
        cpu := run cfg (Punix.sysEnterReturn lay.sched) s.cpu
        entered := Function.update s.entered t none }
  | .sysReturn t => lay.ReturnCall s t ∧ (∃ f, s.entered t = some f ∧ f.words.length = 9) ∧
      s' = { s with
        cpu := run cfg (Punix.sysReturn lay.sched) s.cpu
        entered := Function.update s.entered t none }
  | .inherit p c => ∃ f, lay.Inherits s s'.cpu p c f ∧ s'.parked = s.parked ∧
      s'.entered = Function.update s.entered c (some f)
  | .drop t => s' = { s with
      parked := Function.update s.parked t none
      entered := Function.update s.entered t none }

/-- The machine from a state on in which nothing has been put away yet. -/
def ctxMachine {cfg : Config} (lay : KernelLayout cfg) : Machine CtxState CtxEvent where
  init s := s.parked = (fun _ => none) ∧ s.entered = (fun _ => none) ∧
    ∀ t, s.cpu.mem.word (lay.mm t) = lay.impl t ∧ s.cpu.mem.word (lay.impl t + 4) = lay.pd t
  step := CtxEvent.Step lay

namespace KernelLayout

variable {cfg : Config} {lay : KernelLayout cfg} {s s' : CtxState} {t p c next : Slot}
  {prev : Option Slot} {entry : Option (BitVec 32)} {prevCtx : BitVec 32}
  {stack : List (BitVec 32)} {f : ParkedStack} {g : StackWords} {m : Memory 32}

/-- What `ctx_switch` writes is free. -/
theorem SwitchCall.free (h : lay.SwitchCall s prev next entry stack prevCtx) (hs : lay.Ok s) :
    lay.Free s ((s.cpu.reg .esp).toNat - 20) (20 + 4 * stack.length) ∧
      lay.Free s (prevCtx + 4).toNat 4 ∧ ((prevCtx + 4).toNat + 24 ≤ (s.cpu.reg .esp).toNat ∨
        (s.cpu.reg .esp).toNat + 4 * stack.length ≤ (prevCtx + 4).toNat) := by
  cases prev with
  | none => exact h.dummy rfl
  | some t =>
      obtain ⟨rfl, hrun, hbase, htop⟩ := h.task t rfl
      have hinside := lay.stack_inside t
      have hlow := h.low
      rw [lay.toNat_ctxAddr_add t]
      have hin : lay.InStack t ((s.cpu.reg .esp).toNat - 20) (20 + 4 * stack.length) :=
        ⟨by omega, by omega⟩
      exact ⟨free_stack hs hrun hin, free_kSp hs hrun, Or.inl (by omega)⟩

/-- What `ctx_switch` leaves is what the tasks have put away. -/
theorem SwitchCall.keeps (h : lay.SwitchCall s prev next entry stack prevCtx) (hs : lay.Ok s)
    (hm : LeftStack cfg s.cpu stack prevCtx m) : lay.KeepsShared s m := by
  obtain ⟨hstack, hprev, -⟩ := h.free hs
  have hlow := h.low
  apply KeepsShared.of_free hs [((s.cpu.reg .esp).toNat - 20, 20), ((prevCtx + 4).toNat, 4)]
  · intro r hr
    rcases List.mem_pair.mp hr with rfl | rfl
    · exact hstack.part le_rfl (by omega)
    · exact hprev
  · intro b hb hout
    apply hm.mem b hb
    have hpushed := hout _ List.mem_cons_self
    have hfield := hout _ (List.mem_cons_of_mem _ List.mem_cons_self)
    unfold SwitchWrites
    omega

/-- The stack that is left can be gone on with. -/
theorem SwitchCall.saved (h : lay.SwitchCall s (some t) next entry stack prevCtx)
    (hm : LeftStack cfg s.cpu stack prevCtx m) :
    lay.Saved m t (parkedBySwitch s.cpu stack entry) := by
  obtain ⟨rfl, -, hbase, htop⟩ := h.task t rfl
  have hlength : (parkedBySwitch s.cpu stack entry).words.length = 5 + stack.length :=
    length_switchFrame_append s.cpu stack
  have hesp : (parkedBySwitch s.cpu stack entry).sp.toNat = (s.cpu.reg .esp).toNat - 20 := by
    have hlow := h.low
    rw [parkedBySwitch]
    bv_omega
  refine ⟨hm.saved, ?_, fun e he => ?_, m, hm.stack, fun _ _ => rfl⟩
  · rw [hesp, hlength]
    exact ⟨by omega, by omega⟩
  · have hentry := h.entry e he
    rw [hesp, hlength]
    omega

/-- The stack of `next` can be gone on with, whether it has been parked before or just now. -/
theorem SwitchCall.saved_next (h : lay.SwitchCall s prev next entry stack prevCtx) (hs : lay.Ok s)
    (hnext : leaveStack s.parked prev (parkedBySwitch s.cpu stack entry) next = some f)
    (hm : LeftStack cfg s.cpu stack prevCtx m) : lay.Saved m next f := by
  have hkeeps := h.keeps hs hm
  cases prev with
  | none => exact hkeeps.saved hs hnext
  | some t =>
      rcases eq_or_ne next t with rfl | hne
      · have hparked : parkedBySwitch s.cpu stack entry = f :=
          Option.some.inj ((leaveStack_prev ..).symm.trans hnext)
        rw [← hparked]
        exact h.saved hm
      · exact hkeeps.saved hs ((Function.update_of_ne hne _ _).symm.trans hnext)

/-- The words of `next` are popped into the registers. -/
theorem SwitchCall.switched (h : lay.SwitchCall s prev next entry stack prevCtx) (hs : lay.Ok s)
    (hnext : leaveStack s.parked prev (parkedBySwitch s.cpu stack entry) next = some f)
    (hwords : 6 ≤ f.words.length) :
    Switched cfg s.cpu (run cfg ctxSwitch s.cpu) stack prevCtx (lay.pd next) f.sp f.words := by
  obtain ⟨hstack, hprev, hapart⟩ := h.free hs
  obtain ⟨ret, behind, hargs⟩ := h.args
  have hlow := h.low
  have hshared := hstack.shared
  have hfits := hstack.fits
  obtain ⟨flags, bp, di, si, bx, ip, rest, hf⟩ : ∃ flags bp di si bx ip rest,
      f.words = flags :: bp :: di :: si :: bx :: ip :: rest := by
    generalize f.words = words at hwords ⊢
    rcases words with - | ⟨flags, - | ⟨bp, - | ⟨di, - | ⟨si, - | ⟨bx, - | ⟨ip, rest⟩⟩⟩⟩⟩⟩ <;>
      simp only [List.length_cons, List.length_nil] at hwords
    iterate 6 exact absurd hwords (by omega)
    exact ⟨flags, bp, di, si, bx, ip, rest, rfl⟩
  have hkept (m : Memory 32) (hm : LeftStack cfg s.cpu stack prevCtx m) :
      m.word (lay.mm next) = lay.impl next ∧ m.word (lay.impl next + 4) = lay.pd next ∧
        m.word (lay.ctxAddr next + 4) = f.sp ∧ m.WordsAt f.sp [flags, bp, di, si, bx, ip] := by
    obtain ⟨himpl, hpd⟩ := (h.keeps hs hm).space hs next
    have hsaved := h.saved_next hs hnext hm
    exact ⟨himpl, hpd, hsaved.sp, hsaved.frame hf rfl⟩
  rw [hf]
  exact run_ctxSwitch h.words hargs (by omega) (by omega) ⟨hprev.shared, hprev.fits⟩ hapart hkept

/-- The memory that `ctx_switch` leaves is as the tasks need it. -/
theorem SwitchCall.keeps_run (h : lay.SwitchCall s prev next entry stack prevCtx) (hs : lay.Ok s)
    (hnext : leaveStack s.parked prev (parkedBySwitch s.cpu stack entry) next = some f)
    (hwords : 6 ≤ f.words.length) : lay.Keeps s (run cfg ctxSwitch s.cpu) := by
  have hsw := h.switched hs hnext hwords
  exact Keeps.of_shared hs (h.keeps hs hsw.left) fun t _ b hb => hsw.space (lay.pd t) b hb

theorem SwitchCall.ok (h : lay.SwitchCall s prev next entry stack prevCtx) (hs : lay.Ok s)
    (hnext : leaveStack s.parked prev (parkedBySwitch s.cpu stack entry) next = some f)
    (hwords : 6 ≤ f.words.length) :
    lay.Ok { s with
      cpu := run cfg ctxSwitch s.cpu
      parked := Function.update
        (leaveStack s.parked prev (parkedBySwitch s.cpu stack entry)) next none } := by
  have hsw := h.switched hs hnext hwords
  have hkept := (h.keeps_run hs hnext hwords).ok hs
  cases prev with
  | none => exact hkept.unpark next
  | some t => exact (hkept.park (h.saved hsw.left)).unpark next

section FirstStack

variable {child : Slot} {ret tr entry argc argv envc envp : BitVec 32} {ranges : List (Nat × Nat)}

theorem ForkReturnCall.run (h : lay.ForkReturnCall s child ret) :
    let cpu := run cfg (ctxSetupForkReturn lay.sysReturnAddr) s.cpu
    cpu.cr3 = s.cpu.cr3 ∧ cpu.spaces = s.cpu.spaces ∧
      cpu.mem = ((pushedEbp s.cpu).pushes (s.cpu.mem.word (lay.ctxAddr child + 4))
        [lay.sysReturnAddr, 0, 0, 0, 0, 0x202]).setWord (lay.ctxAddr child + 4)
          (s.cpu.mem.word (lay.ctxAddr child + 4) - 24) := by
  have hlow := h.low
  have hfits := h.stack.fits
  have hctx := lay.toNat_ctxAddr_add child
  have hinside := lay.stack_inside child
  have hother := h.other
  have hesp : (s.cpu.reg .esp - 4).toNat = (s.cpu.reg .esp).toNat - 4 := by bv_omega
  have harg : (s.cpu.reg .esp + 4).toNat = (s.cpu.reg .esp).toNat + 4 := by bv_omega
  apply run_ctxSetupForkReturn
  · have hword : s.cpu.mem.word (s.cpu.reg .esp + 4) = lay.ctxAddr child := h.call.2.1
    rw [← hword]
    apply Memory.word_setWord_of_apart (Or.inr (by omega)) (by omega) (by omega)
  · apply Memory.word_setWord_of_apart (by omega) (by omega) (by omega)

theorem TrampolineCall.run (h : lay.TrampolineCall s t ret tr entry argc argv envc envp) :
    let cpu := run cfg (ctxSetupTrampoline lay.trampolineAddr) s.cpu
    cpu.cr3 = s.cpu.cr3 ∧ cpu.spaces = s.cpu.spaces ∧
      cpu.mem = ((pushedEbp s.cpu).pushes (s.cpu.mem.word (lay.ctxAddr t + 4))
        [envc, envp, argv, argc, entry, 0, lay.trampolineAddr, 0x202, 0, 0, 0, 0]).setWord
          (lay.ctxAddr t + 4) (s.cpu.mem.word (lay.ctxAddr t + 4) - 48) := by
  have hlow := h.low
  have hfits := h.stack.fits
  have hctx := lay.toNat_ctxAddr_add t
  have hend := lay.ctx_lt t
  have hinside := lay.stack_inside t
  have hdeeper := h.deeper
  have hroom := h.room
  have hesp : (s.cpu.reg .esp - 4).toNat = (s.cpu.reg .esp).toNat - 4 := by bv_omega
  have harg : (s.cpu.reg .esp + 4).toNat = (s.cpu.reg .esp).toNat + 4 := by bv_omega
  have harg' : (s.cpu.reg .esp + 8).toNat = (s.cpu.reg .esp).toNat + 8 := by bv_omega
  have htr := h.tr_fits
  have hapart := h.tr_apart
  have hpointer : (pushedEbp s.cpu).word (s.cpu.reg .esp + 8) = tr := by
    have hword : s.cpu.mem.word (s.cpu.reg .esp + 8) = tr := by
      have hthird := h.call.2.2.1
      rwa [BitVec.add_assoc] at hthird
    rw [← hword]
    apply Memory.word_setWord_of_apart (Or.inr (by omega)) (by omega) (by omega)
  refine run_ctxSetupTrampoline ?_ hpointer ?_ ?_
  · have hword : s.cpu.mem.word (s.cpu.reg .esp + 4) = lay.ctxAddr t := h.call.2.1
    rw [← hword]
    apply Memory.word_setWord_of_apart (Or.inr (by omega)) (by omega) (by omega)
  · apply Memory.word_setWord_of_apart (by omega) (by omega) (by omega)
  · intro xs hxs
    apply h.fields.congr htr
    intro b hb hb'
    simp only [List.length_cons, List.length_nil] at hb'
    rw [Memory.pushes_apart (by omega) (by omega)]
    exact Memory.setWord_apart (by omega) (by omega)

/-- The words that are stored below `k_sp` of a task that does not run are parked. -/
theorem Ok.fill {cpu : State} {top : BitVec 32} {xs : List (BitVec 32)} (hs : lay.Ok s)
    (hrun : s.parked t = none) (hlow : 4 ≤ (s.cpu.reg .esp).toNat)
    (hpush : lay.Free s ((s.cpu.reg .esp).toNat - 4) 4)
    (hroom : 4 * xs.length ≤ top.toNat)
    (hin : lay.InStack t (top.toNat - 4 * xs.length) (4 * xs.length))
    (hcr3 : cpu.cr3 = s.cpu.cr3) (hspaces : cpu.spaces = s.cpu.spaces)
    (hmem : cpu.mem = ((pushedEbp s.cpu).pushes top xs).setWord (lay.ctxAddr t + 4)
      (top - BitVec.ofNat 32 (4 * xs.length))) :
    lay.Ok { s with
      cpu
      parked := Function.update s.parked t
        (some ⟨⟨top - BitVec.ofNat 32 (4 * xs.length), xs.reverse⟩, none⟩) } := by
  have hctx := lay.toNat_ctxAddr_add t
  have hinside := lay.stack_inside t
  have hsplit := lay.split_le_ctx t
  have hend := lay.ctx_lt t
  have hfits := hpush.fits
  have hshared := hpush.shared
  have htop := top.isLt
  have hesp : (s.cpu.reg .esp - 4).toNat = (s.cpu.reg .esp).toNat - 4 := by bv_omega
  have hsp : (top - BitVec.ofNat 32 (4 * xs.length)).toNat = top.toNat - 4 * xs.length :=
    Memory.toNat_sub_words hroom
  have hbase := hin.1
  have hbytes (b : BitVec 32) (hpushed : b.toNat + 4 < (s.cpu.reg .esp).toNat ∨
      (s.cpu.reg .esp).toNat ≤ b.toNat)
      (hfilled : b.toNat + 4 * xs.length < top.toNat ∨ top.toNat ≤ b.toNat)
      (hfield : b.toNat < lay.ctx t + 4 ∨ lay.ctx t + 8 ≤ b.toNat) : cpu.mem b = s.cpu.mem b := by
    rw [hmem, Memory.setWord_apart (by omega) (by omega), Memory.pushes_apart hfilled hroom]
    exact Memory.setWord_apart (by omega) (by omega)
  have hkeeps : lay.KeepsShared s cpu.mem := by
    apply KeepsShared.of_free hs [((s.cpu.reg .esp).toNat - 4, 4),
      (top.toNat - 4 * xs.length, 4 * xs.length), (lay.ctx t + 4, 4)]
    · intro r hr
      simp only [List.mem_cons, List.not_mem_nil, or_false] at hr
      rcases hr with rfl | rfl | rfl
      · exact hpush
      · exact free_stack hs hrun hin
      · exact free_kSp hs hrun
    · intro b _ hout
      simp only [List.mem_cons, List.not_mem_nil, or_false, forall_eq_or_imp, forall_eq] at hout
      apply hbytes b <;> omega
  have hspace (u : Slot) (b : BitVec 32) (hb : b.toNat < cfg.split.toNat) :
      cpu.space (lay.pd u) b = s.cpu.space (lay.pd u) b := by
    unfold State.space
    rw [hcr3, hspaces]
    split
    · apply hbytes b <;> omega
    · rfl
  have hok := (Keeps.of_shared hs hkeeps fun u _ => hspace u).ok hs
  apply hok.park
  have hword : cpu.mem.word (lay.ctxAddr t + 4) = top - BitVec.ofNat 32 (4 * xs.length) := by
    rw [hmem]
    exact Memory.word_setWord _ (by decide) _
  refine ⟨hword, ?_, (fun _ h => nomatch h), cpu.mem, ?_, fun _ _ => rfl⟩
  · rw [hsp, List.length_reverse]
    exact hin
  · rw [hmem]
    apply (Memory.wordsAt_pushes (pushedEbp s.cpu) hroom).setWord
    · rw [hsp, List.length_reverse]
      omega
    · omega
    · rw [hsp, List.length_reverse]
      omega

theorem ForkReturnCall.ok (h : lay.ForkReturnCall s child ret) (hs : lay.Ok s) :
    lay.Ok { s with
      cpu := Lib.X86.run cfg (ctxSetupForkReturn lay.sysReturnAddr) s.cpu
      parked := Function.update s.parked child (some
        (parkedByFork (s.cpu.mem.word (lay.ctxAddr child + 4)) lay.sysReturnAddr)) } := by
  obtain ⟨hcr3, hspaces, hmem⟩ := h.run
  have hinside := lay.stack_inside child
  have htop := h.top
  have hsize : lay.stackTop child = lay.stackBase child + 16384 := rfl
  have hpush := h.stack.part (k := 4) le_rfl (by omega)
  apply Ok.fill hs h.fresh h.low hpush _ _ hcr3 hspaces hmem
  · change 24 ≤ _
    omega
  · change lay.InStack child (_ - 24) 24
    exact ⟨by omega, by omega⟩

theorem TrampolineCall.ok (h : lay.TrampolineCall s t ret tr entry argc argv envc envp)
    (hs : lay.Ok s) :
    lay.Ok
      { cpu := Lib.X86.run cfg (ctxSetupTrampoline lay.trampolineAddr) s.cpu
        parked := Function.update s.parked t (some
          (parkedByTrampoline (s.cpu.mem.word (lay.ctxAddr t + 4)) lay.trampolineAddr
            entry argc argv envp envc))
        entered := Function.update s.entered t none } := by
  obtain ⟨hcr3, hspaces, hmem⟩ := h.run
  have hpush := h.stack.part (k := 4) le_rfl (by omega)
  apply (Ok.fill hs h.fresh h.low hpush _ _ hcr3 hspaces hmem).leave t
  · exact h.room.1
  · exact h.room.2

end FirstStack

section Call

variable {ret : BitVec 32}

/-- What `sys_enter` has pushed stays there while it passes the arguments. -/
theorem EnterCall.frame (h : lay.EnterCall s t ret) (xs : List (BitVec 32)) (hxs : xs.length ≤ 5) :
    ((enteredMem s.cpu (lay.ctxAddr t)).pushes (s.cpu.mem.word (lay.ctxAddr t + 4)) xs).WordsAt
      (s.cpu.reg .esp - 32) ((enterFrame s.cpu).reverse ++ [ret]) := by
  have hlow := h.low
  have hhigh := h.high
  have hsplit := lay.split_le_ctx t
  have hctx := lay.toNat_ctxAddr t
  have hend := lay.ctx_lt t
  have hinside := lay.stack_inside t
  obtain ⟨hroom, hbase, -⟩ := h.room
  have hesp : (s.cpu.reg .esp - 32).toNat = (s.cpu.reg .esp).toNat - 32 := by bv_omega
  have hlength : ((enterFrame s.cpu).reverse ++ [ret]).length = 9 := rfl
  have hpushed : (s.cpu.mem.pushes (s.cpu.reg .esp) (enterFrame s.cpu)).WordsAt
      (s.cpu.reg .esp - 32) ((enterFrame s.cpu).reverse ++ [ret]) := by
    apply h.call.pushes
    · change _ + 4 ≤ _
      omega
    · exact hlow
  apply hpushed.congr (by omega)
  intro b hb hb'
  rw [Memory.pushes_apart (by omega) (by omega)]
  exact Memory.setWord_apart (by omega) (by omega)

theorem EnterCall.run (h : lay.EnterCall s t ret) :
    let cpu := Lib.X86.run cfg (Punix.sysEnter lay.sched) s.cpu
    cpu.cr3 = s.cpu.cr3 ∧ cpu.spaces = s.cpu.spaces ∧
      cpu.reg .esp = s.cpu.mem.word (lay.ctxAddr t + 4) - 20 ∧
      cpu.mem = (enteredMem s.cpu (lay.ctxAddr t)).pushes (s.cpu.mem.word (lay.ctxAddr t + 4))
        [s.cpu.reg .esi, s.cpu.reg .edx, s.cpu.reg .ecx, s.cpu.reg .ebx, s.cpu.reg .eax] := by
  have hlow := h.low
  have hhigh := h.high
  have hsplit := lay.split_le_ctx t
  have hctx := lay.toNat_ctxAddr t
  have hctx' := lay.toNat_ctxAddr_add t
  have hend := lay.ctx_lt t
  have hsched := lay.sched_outside
  have hlength : (enterFrame s.cpu).length = 8 := rfl
  refine run_sysEnter ?_ ?_ h.frame
  · rw [← h.current]
    apply word_congr_toNat (by omega)
    intro b hb _
    exact Memory.pushes_apart (by omega) (by omega)
  · apply word_congr_toNat (by omega)
    intro b hb _
    rw [enteredMem, Memory.setWord_apart (by omega) (by omega)]
    exact Memory.pushes_apart (by omega) (by omega)

theorem EnterCall.ok (h : lay.EnterCall s t ret) (hs : lay.Ok s) :
    lay.Ok { s with
      cpu := Lib.X86.run cfg (Punix.sysEnter lay.sched) s.cpu
      entered := Function.update s.entered t (some (enteredBy s.cpu ret)) } := by
  obtain ⟨hcr3, hspaces, -, hmem⟩ := h.run
  let cpu := Lib.X86.run cfg (Punix.sysEnter lay.sched) s.cpu
  have hframe := h.frame [s.cpu.reg .esi, s.cpu.reg .edx, s.cpu.reg .ecx, s.cpu.reg .ebx,
    s.cpu.reg .eax] le_rfl
  have hlow := h.low
  have hhigh := h.high
  have hsplit := lay.split_le_ctx t
  have hctx := lay.toNat_ctxAddr t
  have hend := lay.ctx_lt t
  have hinside := lay.stack_inside t
  obtain ⟨hroom, hbase, htop⟩ := h.room
  have hlength : (enterFrame s.cpu).length = 8 := rfl
  have hesp : (s.cpu.reg .esp - 32).toNat = (s.cpu.reg .esp).toNat - 32 := by bv_omega
  have hbytes (b : BitVec 32) (hpushed : b.toNat + 32 < (s.cpu.reg .esp).toNat ∨
      (s.cpu.reg .esp).toNat ≤ b.toNat)
      (hfield : b.toNat < lay.ctx t ∨ lay.ctx t + 4 ≤ b.toNat)
      (hpassed : b.toNat + 20 < (s.cpu.mem.word (lay.ctxAddr t + 4)).toNat ∨
        (s.cpu.mem.word (lay.ctxAddr t + 4)).toNat ≤ b.toNat) : cpu.mem b = s.cpu.mem b := by
    rw [show cpu.mem = _ from hmem]
    refine (Memory.pushes_apart ?_ ?_).trans ?_
    · exact hpassed
    · exact hroom
    · rw [enteredMem, Memory.setWord_apart (by omega) (by omega)]
      exact Memory.pushes_apart (by omega) (by omega)
  have hkeeps : lay.KeepsShared s cpu.mem := by
    apply KeepsShared.of_free hs [(lay.ctx t, 4),
      ((s.cpu.mem.word (lay.ctxAddr t + 4)).toNat - 20, 20)]
    · intro r hr
      rcases List.mem_pair.mp hr with rfl | rfl
      · exact free_uSp hs h.outside
      · exact free_stack hs h.running ⟨hbase, htop⟩
    · intro b hb hout
      have hfield := hout _ List.mem_cons_self
      have hpassed := hout _ (List.mem_cons_of_mem _ List.mem_cons_self)
      apply hbytes b <;> omega
  have hspace (u : Slot) (hu : s.entered u ≠ none) (b : BitVec 32) (_ : b.toNat < cfg.split.toNat) :
      cpu.space (lay.pd u) b = s.cpu.space (lay.pd u) b := by
    -- what changes is the address space of `t`, which has been outside of the kernel
    have hne : lay.pd u ≠ s.cpu.cr3 := by
      rw [h.active]
      intro heq
      rw [lay.pd_injective heq] at hu
      exact hu h.outside
    unfold State.space
    rw [if_neg hne, if_neg (by rw [show cpu.cr3 = _ from hcr3]; exact hne)]
    exact congrFun (congrFun hspaces _) _
  have hok := (Keeps.of_shared hs hkeeps hspace).ok hs
  apply hok.enter
  have husp : cpu.mem.word (lay.ctxAddr t) = s.cpu.reg .esp - 32 := by
    have hword : (enteredMem s.cpu (lay.ctxAddr t)).word (lay.ctxAddr t) = s.cpu.reg .esp - 32 :=
      Memory.word_setWord _ (by decide) _
    rw [← hword]
    apply word_congr_toNat (by omega)
    intro b _ _
    rw [show cpu.mem = _ from hmem]
    exact Memory.pushes_apart (by change b.toNat + 20 < _ ∨ _; omega) hroom
  have hactive : cpu.space (lay.pd t) = cpu.mem := by
    apply if_pos
    rw [show cpu.cr3 = _ from hcr3, h.active]
  refine ⟨husp, ?_, ?_⟩
  · change (s.cpu.reg .esp - 32).toNat + 36 ≤ _
    rw [hesp]
    omega
  · change (cpu.space _).WordsAt _ _
    rw [hactive, show cpu.mem = _ from hmem]
    exact hframe

/-- `sys_return` takes the registers from the stack of the program. -/
theorem ReturnCall.run (h : lay.ReturnCall s t) (hs : lay.Ok s) (ht : s.entered t = some g)
    (hwords : g.words.length = 9) :
    ∃ status, Lib.X86.run cfg (Punix.sysReturn lay.sched) s.cpu =
      { s.cpu with
        reg := Function.update (Function.update (Function.update s.cpu.reg .edi g.words[0]) .ebp
          g.words[1]) .esp (g.sp + 36)
        eip := g.words[8]
        eflags := setStatus (popFlags g.words[2]) status
        mem := s.cpu.mem.setWord (lay.ctxAddr t + 4) (s.cpu.reg .esp) } := by
  have hsplit := lay.split_le_ctx t
  have hctx := lay.toNat_ctxAddr t
  have hctx' := lay.toNat_ctxAddr_add t
  have hend := lay.ctx_lt t
  obtain ⟨hsp, hbelow, hframe⟩ := hs.entered t g ht
  have hactive : s.cpu.space (lay.pd t) = s.cpu.mem := if_pos h.active.symm
  rw [hactive] at hframe
  have husp : (s.cpu.mem.setWord (lay.ctxAddr t + 4) (s.cpu.reg .esp)).word (lay.ctxAddr t) =
      g.sp := by
    rw [← hsp]
    apply Memory.word_setWord_of_apart (by omega) (by omega) (by omega)
  have hkept := hframe.setWord (b := lay.ctxAddr t + 4) (x := s.cpu.reg .esp) (by omega) (by omega)
    (by omega)
  obtain ⟨sp, words⟩ := g
  obtain ⟨di, bp, flags, ax, bx, cx, dx, si, ip, rfl⟩ : ∃ di bp flags ax bx cx dx si ip,
      words = [di, bp, flags, ax, bx, cx, dx, si, ip] := by
    rcases words with - | ⟨di, - | ⟨bp, - | ⟨flags, - | ⟨ax, - | ⟨bx, - | ⟨cx, - | ⟨dx, - |
      ⟨si, - | ⟨ip, - | ⟨x, rest⟩⟩⟩⟩⟩⟩⟩⟩⟩⟩ <;>
      simp only [List.length_cons, List.length_nil] at hwords
    iterate 9 exact absurd hwords (by omega)
    · exact ⟨di, bp, flags, ax, bx, cx, dx, si, ip, rfl⟩
    · exact absurd hwords (by omega)
  exact run_sysReturn h.current husp hkept

theorem ReturnCall.ok (h : lay.ReturnCall s t) (hs : lay.Ok s) (ht : s.entered t = some g)
    (hwords : g.words.length = 9) :
    lay.Ok { s with
      cpu := Lib.X86.run cfg (Punix.sysReturn lay.sched) s.cpu
      entered := Function.update s.entered t none } := by
  obtain ⟨status, hrun⟩ := h.run hs ht hwords
  rw [hrun]
  have hsplit := lay.split_le_ctx t
  have hctx := lay.toNat_ctxAddr_add t
  have hend := lay.ctx_lt t
  have hbytes (b : BitVec 32) (hb : b.toNat < lay.ctx t + 4 ∨ lay.ctx t + 8 ≤ b.toNat) :
      s.cpu.mem.setWord (lay.ctxAddr t + 4) (s.cpu.reg .esp) b = s.cpu.mem b :=
    Memory.setWord_apart (by omega) (by omega)
  refine Ok.leave (s := { s with cpu := _ }) ?_ t
  apply Keeps.ok _ hs
  apply Keeps.of_shared hs
  · apply KeepsShared.of_free hs [(lay.ctx t + 4, 4)]
    · intro r hr
      obtain rfl := List.mem_singleton.mp hr
      exact free_kSp hs h.running
    · intro b _ hout
      have hfield := hout _ List.mem_cons_self
      exact hbytes b hfield
  · intro u _ b hb
    unfold State.space
    split
    · exact hbytes b (by omega)
    · rfl

/-- The end of the call takes the arguments off the stack first. -/
theorem ReturnCall.dropArguments (h : lay.ReturnCall s t) (hs : lay.Ok s) :
    lay.Ok { s with cpu := exec cfg (.add .esp 20) s.cpu } ∧
      lay.ReturnCall { s with cpu := exec cfg (.add .esp 20) s.cpu } t := by
  have hkeeps : lay.Keeps s (exec cfg (.add .esp 20) s.cpu) :=
    ⟨⟨fun _ _ _ _ _ => rfl, fun _ _ _ _ _ => rfl, fun _ => ⟨rfl, rfl⟩⟩, fun _ _ _ _ _ _ => rfl⟩
  exact ⟨hkeeps.ok hs, h.current, h.active, h.running⟩

end Call

/-- The child gets the words of its parent. -/
theorem Inherits.ok {cpu : State} (h : lay.Inherits s cpu p c g) (hs : lay.Ok s) :
    lay.Ok { s with cpu, entered := Function.update s.entered c (some g) } := by
  have hok := h.keeps.ok (hs.leave c)
  have hentered := hs.entered p g h.inside
  have henter := hok.enter (t := c) (g := g) ?_
  · rwa [Function.update_idem] at henter
  · obtain ⟨hlow, hhigh⟩ := h.window
    have hfits := hentered.below
    have hsplit := cfg.split.isLt
    refine ⟨h.userSp.trans hentered.sp, hfits, ?_⟩
    apply hentered.words.congr (by omega)
    intro b hb hb'
    exact h.memory b (by omega) (by omega)

/-- Every step keeps what has been put away. -/
theorem step_ok {e : CtxEvent} (hs : lay.Ok s) (hstep : e.Step lay s s') : lay.Ok s' := by
  cases e with
  | work =>
      obtain ⟨hparked, hentered, -, hkeeps⟩ := hstep
      have hok := hkeeps.ok hs
      rwa [← hparked, ← hentered] at hok
  | switch prev next entry =>
      obtain ⟨stack, prevCtx, f, hcall, hnext, hwords, rfl⟩ := hstep
      exact hcall.ok hs hnext hwords
  | forkReturn child =>
      obtain ⟨ret, hcall, rfl⟩ := hstep
      exact hcall.ok hs
  | trampoline t =>
      obtain ⟨ret, tr, entry, argc, argv, envc, envp, hcall, rfl⟩ := hstep
      exact hcall.ok hs
  | sysEnter t =>
      obtain ⟨ret, hcall, rfl⟩ := hstep
      exact hcall.ok hs
  | sysEnterReturn t =>
      obtain ⟨hcall, ⟨g, hg, hlength⟩, rfl⟩ := hstep
      obtain ⟨hok, hreturn⟩ := hcall.dropArguments hs
      rw [run_sysEnterReturn]
      exact hreturn.ok hok hg hlength
  | sysReturn t =>
      obtain ⟨hcall, ⟨g, hg, hlength⟩, rfl⟩ := hstep
      exact hcall.ok hs hg hlength
  | inherit p c =>
      obtain ⟨f, hinherits, hparked, hentered⟩ := hstep
      have hok := hinherits.ok hs
      rwa [← hparked, ← hentered] at hok
  | drop t =>
      obtain rfl := hstep
      exact (hs.unpark t).leave t

theorem ok_of_reaches {guard : CtxState → CtxEvent → Prop}
    (hreach : (ctxMachine lay).Reaches guard s) : lay.Ok s := by
  apply hreach.invariant
  · rintro s ⟨hparked, hentered, hmm⟩
    refine ⟨fun t f ht => ?_, fun t f ht => ?_, hmm⟩
    · rw [hparked] at ht
      cases ht
    · rw [hentered] at ht
      cases ht
  · exact fun s e s' hs _ hstep => step_ok hs hstep

end KernelLayout

end Punix
