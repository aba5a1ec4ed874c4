import Punix.Arch.ContextSwitch
import Punix.Lib.Machine

/-!
The processor under many tasks. Between two routines of `sched.asm` and `syscall.asm` any
code may run, of the kernel or of a program; it leaves alone what the tasks that do not run
have put away: the words at the top of their kernel stacks, and, for a task that is inside
of a system call, the words that `sys_enter` has pushed onto its user stack. What it may
write on the stack of a sleeper are the links of the `struct wait_queue_entry` there, as
`wakeup`, `wait_queue_add` and `wait_queue_remove` do.
-/

namespace Punix

open Lib Lib.X86

/-- `KERNEL_STACK_SIZE`. -/
def kernelStackSize : Nat := kb 16

/-- Where the linker and the compiler put what the routines use: the slots of the task
table with the kernel stack of each task, the address space of each task, the pointer to the
current task and the addresses of two routines. -/
structure KernelLayout (cfg : Config) where
  slots : Nat
  slotSize : Nat
  kstackOff : Nat
  mm : Slot → BitVec 32
  impl : Slot → BitVec 32
  pd : Slot → BitVec 32
  sched : BitVec 32
  sysReturnAddr : BitVec 32
  trampolineAddr : BitVec 32
  /-- `cpu_ctx` comes before `kstack`. -/
  ctx_fits : 8 ≤ kstackOff
  kstack_fits : kstackOff + kernelStackSize ≤ slotSize
  shared : cfg.split.toNat ≤ slots
  slots_fit : slots + slotSize * maxProcessCnt ≤ 2 ^ 32
  pd_injective : Function.Injective pd
  /-- The structures of the address spaces are in the kernel, outside of the task table. -/
  mm_outside : ∀ t, cfg.split.toNat ≤ (mm t).toNat ∧ (mm t).toNat + 4 ≤ 2 ^ 32 ∧
    ((mm t).toNat + 4 ≤ slots ∨ slots + slotSize * maxProcessCnt ≤ (mm t).toNat)
  impl_outside : ∀ t, cfg.split.toNat ≤ (impl t + 4).toNat ∧ (impl t + 4).toNat + 4 ≤ 2 ^ 32 ∧
    ((impl t + 4).toNat + 4 ≤ slots ∨ slots + slotSize * maxProcessCnt ≤ (impl t + 4).toNat)
  sched_outside : cfg.split.toNat ≤ sched.toNat ∧ sched.toNat + 4 ≤ 2 ^ 32 ∧
    (sched.toNat + 4 ≤ slots ∨ slots + slotSize * maxProcessCnt ≤ sched.toNat)

namespace KernelLayout

variable {cfg : Config} (lay : KernelLayout cfg)

/-- The address of a task, which is that of its `cpu_ctx`: `u_sp` first, then `k_sp`. -/
def ctx (t : Slot) : Nat := lay.slots + lay.slotSize * t.val

def ctxAddr (t : Slot) : BitVec 32 := BitVec.ofNat 32 (lay.ctx t)

def stackBase (t : Slot) : Nat := lay.ctx t + lay.kstackOff

def stackTop (t : Slot) : Nat := lay.stackBase t + kernelStackSize

/-- The `n` bytes from `a` on are a part of the kernel stack of `t`. -/
def InStack (t : Slot) (a n : Nat) : Prop := lay.stackBase t ≤ a ∧ a + n ≤ lay.stackTop t

variable {lay} {t u : Slot}

theorem ctx_add_slotSize_le (t : Slot) :
    lay.ctx t + lay.slotSize ≤ lay.slots + lay.slotSize * maxProcessCnt := by
  have hle : lay.slotSize * (t.val + 1) ≤ lay.slotSize * maxProcessCnt := Nat.mul_le_mul_left _ t.isLt
  rw [Nat.mul_succ] at hle
  unfold ctx
  omega

theorem ctx_lt (t : Slot) : lay.ctx t + 8 ≤ 2 ^ 32 := by
  have hend := lay.ctx_add_slotSize_le t
  have hfit := lay.slots_fit
  have hctx := lay.ctx_fits
  have hstack := lay.kstack_fits
  omega

theorem toNat_ctxAddr (t : Slot) : (lay.ctxAddr t).toNat = lay.ctx t := by
  have hlt := lay.ctx_lt t
  rw [ctxAddr, BitVec.toNat_ofNat, Nat.mod_eq_of_lt (by omega)]

theorem split_le_ctx (t : Slot) : cfg.split.toNat ≤ lay.ctx t := by
  have hshared := lay.shared
  unfold ctx
  omega

/-- The slots of two tasks do not overlap. -/
theorem ctx_apart (hne : t ≠ u) :
    lay.ctx t + lay.slotSize ≤ lay.ctx u ∨ lay.ctx u + lay.slotSize ≤ lay.ctx t := by
  rcases Nat.lt_or_gt_of_ne (Fin.val_ne_of_ne hne) with hlt | hgt
  · have hle : lay.slotSize * (t.val + 1) ≤ lay.slotSize * u.val := Nat.mul_le_mul_left _ hlt
    rw [Nat.mul_succ] at hle
    unfold ctx
    omega
  · have hle : lay.slotSize * (u.val + 1) ≤ lay.slotSize * t.val := Nat.mul_le_mul_left _ hgt
    rw [Nat.mul_succ] at hle
    unfold ctx
    omega

/-- A kernel stack is inside of the slot of its task, behind the `cpu_ctx`. -/
theorem stack_inside (t : Slot) : lay.ctx t + 8 ≤ lay.stackBase t ∧
    lay.stackBase t ≤ lay.stackTop t ∧ lay.stackTop t ≤ lay.ctx t + lay.slotSize ∧
    lay.stackTop t ≤ 2 ^ 32 := by
  have hctx := lay.ctx_fits
  have hfits := lay.kstack_fits
  have hend := lay.ctx_add_slotSize_le t
  have htable := lay.slots_fit
  unfold stackTop stackBase
  omega

theorem slots_le_ctx (t : Slot) : lay.slots ≤ lay.ctx t := by
  unfold ctx
  omega

theorem toNat_ctxAddr_add (t : Slot) : (lay.ctxAddr t + 4).toNat = lay.ctx t + 4 := by
  have hlt := lay.ctx_lt t
  rw [BitVec.toNat_add, toNat_ctxAddr]
  change (lay.ctx t + 4) % 2 ^ 32 = _
  omega

end KernelLayout

/-- Words on a stack, from the stack pointer on. -/
structure StackWords where
  sp : BitVec 32
  words : List (BitVec 32)

/-- The fields `prev`, `next` and `queue` of a `struct wait_queue_entry`, behind `task`. -/
def InLinks (entry : Option (BitVec 32)) (b : Nat) : Prop :=
  ∃ e, entry = some e ∧ e.toNat + 4 ≤ b ∧ b < e.toNat + 16

/-- A kernel stack that has been left, and the `wait_entry` of `wait_event` on it, if there is
one. -/
structure ParkedStack extends StackWords where
  entry : Option (BitVec 32)

/-- The bytes that nobody else writes. -/
def ParkedStack.Holds (f : ParkedStack) (b : Nat) : Prop :=
  f.sp.toNat ≤ b ∧ b < f.sp.toNat + 4 * f.words.length ∧ ¬ InLinks f.entry b

/-- The processor, and what the tasks have put away: words on their kernel stacks, while they do
not run, and words on the stacks of their programs, while they are inside of a system call. -/
structure CtxState where
  cpu : State
  parked : Slot → Option ParkedStack
  entered : Slot → Option StackWords

namespace KernelLayout

variable {cfg : Config} (lay : KernelLayout cfg)

/-- `k_sp` points at the words, which are on the kernel stack, but for the links in them. These
are behind what `ctx_switch` pops. -/
structure Saved (m : Memory 32) (t : Slot) (f : ParkedStack) : Prop where
  sp : m.word (lay.ctxAddr t + 4) = f.sp
  inside : lay.InStack t f.sp.toNat (4 * f.words.length)
  entry : ∀ e, f.entry = some e →
    f.sp.toNat + 24 ≤ e.toNat ∧ e.toNat + 16 ≤ f.sp.toNat + 4 * f.words.length
  words : ∃ m₀ : Memory 32, m₀.WordsAt f.sp f.words ∧ ∀ b : BitVec 32, f.Holds b.toNat → m b = m₀ b

/-- `u_sp` points at the words in the address space of the task. -/
structure Entered (cpu : State) (t : Slot) (f : StackWords) : Prop where
  sp : cpu.mem.word (lay.ctxAddr t) = f.sp
  below : f.sp.toNat + 4 * f.words.length ≤ cfg.split.toNat
  words : (cpu.space (lay.pd t)).WordsAt f.sp f.words

/-- What has been put away is where it is looked for, and so are the page directories. -/
structure Ok (s : CtxState) : Prop where
  parked : ∀ t f, s.parked t = some f → lay.Saved s.cpu.mem t f
  entered : ∀ t f, s.entered t = some f → lay.Entered s.cpu t f
  mm : ∀ t, s.cpu.mem.word (lay.mm t) = lay.impl t ∧
    s.cpu.mem.word (lay.impl t + 4) = lay.pd t

/-- In `m` as in `s`, the tasks find the bytes of the shared memory that they have put away, or
that lead to what they have put away. -/
structure KeepsShared (s : CtxState) (m : Memory 32) : Prop where
  stack : ∀ t f, s.parked t = some f → ∀ b : BitVec 32,
    lay.ctx t + 4 ≤ b.toNat ∧ b.toNat < lay.ctx t + 8 ∨ f.Holds b.toNat → m b = s.cpu.mem b
  userSp : ∀ t, s.entered t ≠ none → ∀ b : BitVec 32,
    lay.ctx t ≤ b.toNat → b.toNat < lay.ctx t + 4 → m b = s.cpu.mem b
  mm : ∀ t, m.word (lay.mm t) = s.cpu.mem.word (lay.mm t) ∧
    m.word (lay.impl t + 4) = s.cpu.mem.word (lay.impl t + 4)

/-- From `s` to `cpu`, no byte changes that the tasks have put away, or that leads to them. -/
structure Keeps (s : CtxState) (cpu : State) : Prop where
  shared : lay.KeepsShared s cpu.mem
  user : ∀ t f, s.entered t = some f → ∀ b : BitVec 32,
    f.sp.toNat ≤ b.toNat → b.toNat < f.sp.toNat + 4 * f.words.length →
    cpu.space (lay.pd t) b = s.cpu.space (lay.pd t) b

/-- The `n` bytes from `a` on belong to the shared memory and to nothing that has been put
away. -/
structure Free (s : CtxState) (a n : Nat) : Prop where
  shared : cfg.split.toNat ≤ a
  fits : a + n ≤ 2 ^ 32
  kSp : ∀ t, s.parked t ≠ none → a + n ≤ lay.ctx t + 4 ∨ lay.ctx t + 8 ≤ a
  stack : ∀ t f, s.parked t = some f → ∀ b, a ≤ b → b < a + n → ¬ f.Holds b
  userSp : ∀ t, s.entered t ≠ none → a + n ≤ lay.ctx t ∨ lay.ctx t + 4 ≤ a
  mm : ∀ t, a + n ≤ (lay.mm t).toNat ∨ (lay.mm t).toNat + 4 ≤ a
  impl : ∀ t, a + n ≤ (lay.impl t + 4).toNat ∨ (lay.impl t + 4).toNat + 4 ≤ a

variable {lay} {s : CtxState} {cpu : State} {t u : Slot} {f : ParkedStack} {g : StackWords}
  {m m' : Memory 32}

/-- The bytes of a word. -/
theorem word_congr_toNat {a : BitVec 32} (hfit : a.toNat + 4 ≤ 2 ^ 32)
    (h : ∀ b : BitVec 32, a.toNat ≤ b.toNat → b.toNat < a.toNat + 4 → m' b = m b) :
    m'.word a = m.word a := by
  apply Memory.word_congr
  intro i hi
  apply h
  · rw [BitVec.toNat_add, BitVec.toNat_ofNat]
    omega
  · rw [BitVec.toNat_add, BitVec.toNat_ofNat]
    omega

theorem Saved.congr (h : lay.Saved m t f)
    (hsame : ∀ b : BitVec 32, lay.ctx t + 4 ≤ b.toNat ∧ b.toNat < lay.ctx t + 8 ∨
      f.Holds b.toNat → m' b = m b) :
    lay.Saved m' t f := by
  have haddr := lay.toNat_ctxAddr_add t
  have hlt := lay.ctx_lt t
  have hsp : m'.word (lay.ctxAddr t + 4) = m.word (lay.ctxAddr t + 4) :=
    word_congr_toNat (by omega) fun b hlow hhigh => hsame b (Or.inl (by omega))
  obtain ⟨m₀, hwords, hm⟩ := h.words
  refine ⟨hsp.trans h.sp, h.inside, h.entry, m₀, hwords, fun b hb => ?_⟩
  exact (hsame b (Or.inr hb)).trans (hm b hb)

/-- The words of a stack without a `wait_entry` are all there. -/
theorem Saved.wordsAt (h : lay.Saved m t f) (hentry : f.entry = none) : m.WordsAt f.sp f.words := by
  have hinside := lay.stack_inside t
  have hin := h.inside
  obtain ⟨m₀, hwords, hm⟩ := h.words
  apply hwords.congr (hin.2.trans hinside.2.2.2)
  intro b hlow hhigh
  apply hm b
  refine ⟨hlow, hhigh, ?_⟩
  rintro ⟨e, he, -⟩
  rw [hentry] at he
  cases he

/-- The words that `ctx_switch` pops are there. -/
theorem Saved.frame (h : lay.Saved m t f) {frame rest : List (BitVec 32)}
    (hf : f.words = frame ++ rest) (hframe : frame.length = 6) : m.WordsAt f.sp frame := by
  have hinside := lay.stack_inside t
  have hin := h.inside.2
  have hlength : f.words.length = 6 + rest.length := by rw [hf, List.length_append, hframe]
  obtain ⟨m₀, hwords, hm⟩ := h.words
  rw [hf] at hwords
  apply hwords.append.1.congr (by omega)
  intro b hlow hhigh
  apply hm b
  refine ⟨hlow, by omega, ?_⟩
  rintro ⟨e, he, hbehind, -⟩
  have hentry := h.entry e he
  omega

theorem Entered.congr (h : lay.Entered s.cpu t g)
    (hsp : ∀ b : BitVec 32, lay.ctx t ≤ b.toNat → b.toNat < lay.ctx t + 4 → cpu.mem b = s.cpu.mem b)
    (hsame : ∀ b : BitVec 32, g.sp.toNat ≤ b.toNat → b.toNat < g.sp.toNat + 4 * g.words.length →
      cpu.space (lay.pd t) b = s.cpu.space (lay.pd t) b) : lay.Entered cpu t g := by
  have haddr := lay.toNat_ctxAddr t
  have hlt := lay.ctx_lt t
  have husp : cpu.mem.word (lay.ctxAddr t) = s.cpu.mem.word (lay.ctxAddr t) :=
    word_congr_toNat (by omega) fun b hlow hhigh => hsp b (by omega) (by omega)
  have hbelow := h.below
  have hsplit := cfg.split.isLt
  exact ⟨husp.trans h.sp, h.below, h.words.congr (by omega) hsame⟩

theorem KeepsShared.saved (h : lay.KeepsShared s m) (hs : lay.Ok s) (ht : s.parked t = some f) :
    lay.Saved m t f :=
  (hs.parked t f ht).congr (h.stack t f ht)

theorem KeepsShared.space (h : lay.KeepsShared s m) (hs : lay.Ok s) (t : Slot) :
    m.word (lay.mm t) = lay.impl t ∧ m.word (lay.impl t + 4) = lay.pd t :=
  ⟨(h.mm t).1.trans (hs.mm t).1, (h.mm t).2.trans (hs.mm t).2⟩

theorem Keeps.entered (h : lay.Keeps s cpu) (hs : lay.Ok s) (ht : s.entered t = some g) :
    lay.Entered cpu t g := by
  have hsp := h.shared.userSp t (ht ▸ Option.some_ne_none _)
  exact (hs.entered t g ht).congr hsp (h.user t g ht)

/-- What is kept stays where it is looked for. -/
theorem Keeps.ok (h : lay.Keeps s cpu) (hs : lay.Ok s) : lay.Ok { s with cpu } where
  parked _ _ ht := h.shared.saved hs ht
  entered _ _ ht := h.entered hs ht
  mm t := h.shared.space hs t

theorem Ok.park (h : lay.Ok s) (ht : lay.Saved s.cpu.mem t f) :
    lay.Ok { s with parked := Function.update s.parked t (some f) } where
  parked u f' hu := by
    rcases eq_or_ne u t with rfl | hne
    · change Function.update s.parked u (some f) u = _ at hu
      rw [Function.update_self] at hu
      exact Option.some.inj hu ▸ ht
    · exact h.parked u f' (by rwa [← Function.update_of_ne hne (some f) s.parked])
  entered := h.entered
  mm := h.mm

theorem Ok.enter (h : lay.Ok s) (ht : lay.Entered s.cpu t g) :
    lay.Ok { s with entered := Function.update s.entered t (some g) } where
  parked := h.parked
  entered u g' hu := by
    rcases eq_or_ne u t with rfl | hne
    · change Function.update s.entered u (some g) u = _ at hu
      rw [Function.update_self] at hu
      exact Option.some.inj hu ▸ ht
    · exact h.entered u g' (by rwa [← Function.update_of_ne hne (some g) s.entered])
  mm := h.mm

theorem Ok.unpark (h : lay.Ok s) (t : Slot) :
    lay.Ok { s with parked := Function.update s.parked t none } where
  parked u f hu := by
    rcases eq_or_ne u t with rfl | hne
    · change Function.update s.parked u none u = _ at hu
      rw [Function.update_self] at hu
      cases hu
    · exact h.parked u f (by rwa [← Function.update_of_ne hne none s.parked])
  entered := h.entered
  mm := h.mm

theorem Ok.leave (h : lay.Ok s) (t : Slot) :
    lay.Ok { s with entered := Function.update s.entered t none } where
  parked := h.parked
  entered u f hu := by
    rcases eq_or_ne u t with rfl | hne
    · change Function.update s.entered u none u = _ at hu
      rw [Function.update_self] at hu
      cases hu
    · exact h.entered u f (by rwa [← Function.update_of_ne hne none s.entered])
  mm := h.mm

/-- Within the slot of a task. -/
theorem free_inside {a n : Nat} (hs : lay.Ok s) (hlow : lay.ctx t ≤ a)
    (hhigh : a + n ≤ lay.ctx t + lay.slotSize)
    (hkSp : s.parked t ≠ none → a + n ≤ lay.ctx t + 4 ∨ lay.ctx t + 8 ≤ a)
    (hheld : ∀ f, s.parked t = some f → ∀ b, a ≤ b → b < a + n → ¬ f.Holds b)
    (huserSp : s.entered t ≠ none → lay.ctx t + 4 ≤ a) : lay.Free s a n := by
  have hsplit := lay.split_le_ctx t
  have hslots := lay.slots_le_ctx t
  have hend := lay.ctx_add_slotSize_le t
  have htable := lay.slots_fit
  refine ⟨by omega, by omega, fun u hu => ?_, fun u f hu b hb hb' hheldb => ?_, fun u hu => ?_,
    fun u => ?_, fun u => ?_⟩
  · rcases eq_or_ne t u with rfl | hne
    · exact hkSp hu
    · have hapart := lay.ctx_apart hne
      have hother := lay.stack_inside u
      omega
  · have hinside := lay.stack_inside u
    obtain ⟨hbase, htop⟩ := (hs.parked u f hu).inside
    rcases eq_or_ne t u with rfl | hne
    · exact hheld f hu b hb hb' hheldb
    · have hapart := lay.ctx_apart hne
      obtain ⟨hfirst, hlast, -⟩ := hheldb
      omega
  · rcases eq_or_ne t u with rfl | hne
    · exact Or.inr (huserSp hu)
    · have hapart := lay.ctx_apart hne
      have hother := lay.stack_inside u
      omega
  · have hout := lay.mm_outside u
    omega
  · have hout := lay.impl_outside u
    omega

/-- The kernel stack of a task that runs. -/
theorem free_stack {a n : Nat} (hs : lay.Ok s) (ht : s.parked t = none) (hin : lay.InStack t a n) :
    lay.Free s a n := by
  have hinside := lay.stack_inside t
  obtain ⟨hlow, hhigh⟩ := hin
  apply free_inside hs (t := t) (by omega) (by omega)
  · exact fun hparked => absurd ht hparked
  · intro f hf
    rw [ht] at hf
    cases hf
  · omega

/-- `k_sp` of a task that runs. -/
theorem free_kSp (hs : lay.Ok s) (ht : s.parked t = none) : lay.Free s (lay.ctx t + 4) 4 := by
  have hinside := lay.stack_inside t
  apply free_inside hs (t := t) (by omega) (by omega)
  · exact fun hparked => absurd ht hparked
  · intro f hf
    rw [ht] at hf
    cases hf
  · omega

/-- `u_sp` of a task that is outside of the kernel. -/
theorem free_uSp (hs : lay.Ok s) (ht : s.entered t = none) : lay.Free s (lay.ctx t) 4 := by
  have hinside := lay.stack_inside t
  apply free_inside hs (t := t) le_rfl (by omega)
  · exact fun _ => Or.inl le_rfl
  · intro f hf b hb hb' hheld
    have hbase := (hs.parked t f hf).inside.1
    obtain ⟨hfirst, -⟩ := hheld
    omega
  · exact fun hentered => absurd ht hentered

/-- The links of the `wait_entry` of a task that sleeps. -/
theorem free_links {a n : Nat} {e : BitVec 32} (hs : lay.Ok s) (ht : s.parked t = some f)
    (he : f.entry = some e) (hlow : e.toNat + 4 ≤ a) (hhigh : a + n ≤ e.toNat + 16) :
    lay.Free s a n := by
  have hsaved := hs.parked t f ht
  have hinside := lay.stack_inside t
  have hentry := hsaved.entry e he
  obtain ⟨hbase, htop⟩ := hsaved.inside
  apply free_inside hs (t := t) (by omega) (by omega)
  · exact fun _ => Or.inr (by omega)
  · intro f' hf' b hb hb' hheld
    obtain rfl := Option.some.inj (hf'.symm.trans ht)
    exact hheld.2.2 ⟨e, he, by omega, by omega⟩
  · omega

/-- A part of a free range. -/
theorem Free.part {a n b k : Nat} (h : lay.Free s a n) (hlow : a ≤ b) (hhigh : b + k ≤ a + n) :
    lay.Free s b k where
  shared := h.shared.trans hlow
  fits := hhigh.trans h.fits
  kSp t ht := by
    have hapart := h.kSp t ht
    omega
  stack t f ht c hc hc' := h.stack t f ht c (by omega) (by omega)
  userSp t ht := by
    have hapart := h.userSp t ht
    omega
  mm t := by
    have hapart := h.mm t
    omega
  impl t := by
    have hapart := h.impl t
    omega

/-- Writing to free ranges only keeps everything that is shared. -/
theorem KeepsShared.of_free (hs : lay.Ok s) (ranges : List (Nat × Nat))
    (hfree : ∀ r ∈ ranges, lay.Free s r.1 r.2)
    (hmem : ∀ b : BitVec 32, cfg.split.toNat ≤ b.toNat →
      (∀ r ∈ ranges, b.toNat < r.1 ∨ r.1 + r.2 ≤ b.toNat) → m b = s.cpu.mem b) :
    lay.KeepsShared s m where
  stack t f ht b hb := by
    have hsplit := lay.split_le_ctx t
    have hinside := lay.stack_inside t
    obtain ⟨hlow, hhigh⟩ := (hs.parked t f ht).inside
    rcases hb with hfield | hheld
    · apply hmem b (by omega)
      intro r hr
      have hapart := (hfree r hr).kSp t (ht ▸ Option.some_ne_none _)
      omega
    · have hfirst := hheld.1
      apply hmem b (by omega)
      intro r hr
      have hapart := (hfree r hr).stack t f ht b.toNat
      by_contra hout
      exact hapart (by omega) (by omega) hheld
  userSp t ht b hlow hhigh := by
    have hsplit := lay.split_le_ctx t
    apply hmem b (by omega)
    intro r hr
    have hapart := (hfree r hr).userSp t ht
    omega
  mm t := by
    have hmm := lay.mm_outside t
    have himpl := lay.impl_outside t
    constructor
    · apply word_congr_toNat (by omega)
      intro b hlow hhigh
      apply hmem b (by omega)
      intro r hr
      have hapart := (hfree r hr).mm t
      omega
    · apply word_congr_toNat (by omega)
      intro b hlow hhigh
      apply hmem b (by omega)
      intro r hr
      have hapart := (hfree r hr).impl t
      omega

/-- Below the shared memory, only the address spaces of tasks that are outside of the kernel
may change. -/
theorem Keeps.of_shared (hs : lay.Ok s) (h : lay.KeepsShared s cpu.mem)
    (hspace : ∀ t, s.entered t ≠ none → ∀ b : BitVec 32, b.toNat < cfg.split.toNat →
      cpu.space (lay.pd t) b = s.cpu.space (lay.pd t) b) : lay.Keeps s cpu where
  shared := h
  user t f ht b hlow hhigh := by
    have hbelow := (hs.entered t f ht).below
    exact hspace t (ht ▸ Option.some_ne_none _) b (by omega)

end KernelLayout

end Punix
