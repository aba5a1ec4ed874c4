import Punix.Kernel.Arguments
import Punix.Kernel.Break

/-!
`brk` and `sbrk` of `libc.c` over `mm_brk`. The break of a program is kept twice,
in `__curbrk` of its libc and in its task. The loader leaves `curbrk_off` zero, so
that `__curbrk` still has its initializer when the program starts, and `brk` does
not set it either.
-/

namespace Punix

open Lib

/-- A program on its task, and the ranges that `sbrk` has returned and that have
not been given back. -/
structure Program where
  kernel : Kernel
  curbrk : BitVec 32
  given : List (Nat × Nat)

/-- What `__curbrk` holds when the program starts: the break if the loader has found
the symbol, else its initializer. -/
def curbrkAtStart (info : ElfInfo) : BitVec 32 :=
  if info.curbrkOff ≠ 0 then info.programEnd else 0

namespace Program

/-- `brk`. -/
def brk (p : Program) (addr : BitVec 32) : Program × Int :=
  let (k, rc) := mmBrk p.kernel addr
  ({ p with kernel := k }, rc)

/-- `sbrk`, which returns -1 when it fails. -/
def sbrk (p : Program) (increment : BitVec 32) : Program × BitVec 32 :=
  let oldBrk := p.curbrk
  if increment ≠ 0 then
    let newBrk := oldBrk + increment
    let (k, rc) := mmBrk p.kernel newBrk
    if rc = 0 then ({ p with kernel := k, curbrk := newBrk }, oldBrk)
    else ({ p with kernel := k }, -1)
  else (p, oldBrk)

/-- Everything from `addr` on is given back. -/
def giveBack (p : Program) (addr : BitVec 32) : Program :=
  { p with given := (p.given.map fun r => (r.1, min r.2 addr.toNat)).filter fun r => r.1 < r.2 }

end Program

inductive BreakCall where
  | brk (addr : BitVec 32)
  | sbrk (increment : BitVec 32)

namespace BreakCall

/-- The program behind the call, with the record of its ranges. -/
def run (p : Program) : BreakCall → Program
  | .brk addr =>
      let (p, rc) := p.brk addr
      if rc = 0 then p.giveBack addr else p
  | .sbrk increment =>
      let (p', ret) := p.sbrk increment
      if ret = -1 then p'
      else if 0 < increment.toInt then
        { p' with given := (ret.toNat, ret.toNat + increment.toNat) :: p'.given }
      else p'.giveBack p'.curbrk

/-- A range that `sbrk` returns lies between the break at the start of the program,
below which are the image and the arguments, and the limit, and is disjoint from
the ranges that are in use. -/
def RangeOk (start limit : BitVec 32) (p : Program) (increment : BitVec 32) : Prop :=
  let ret := (p.sbrk increment).2
  0 < increment.toInt → ret ≠ -1 →
    start.toNat ≤ ret.toNat ∧ ret.toNat + increment.toNat ≤ limit.toNat ∧
      ∀ r ∈ p.given, ret.toNat + increment.toNat ≤ r.1 ∨ r.2 ≤ ret.toNat

/-- Both breaks are equal after the call, and what it returns is a fresh range. -/
def Ok (t : Slot) (start : BitVec 32) (p : Program) (call : BreakCall) : Prop :=
  (call.run p).curbrk = ((call.run p).kernel.sched.task t).brk ∧
    ∀ increment, call = .sbrk increment →
      RangeOk start (p.kernel.sched.task t).brkLimit p increment

/-- Every call of the sequence is fine. -/
def AllOk (t : Slot) (start : BitVec 32) (p : Program) : List BreakCall → Prop
  | [] => True
  | call :: calls => call.Ok t start p ∧ AllOk t start (call.run p) calls

/-- A call that does not move a break of 0: it asks for nothing, or is refused. -/
def Idle (limit : BitVec 32) : BreakCall → Prop
  | .brk addr => addr = 0 ∨ limit < addr
  | .sbrk increment => increment = 0 ∨ limit < increment

end BreakCall

/-- `sched_execve` has started the program on the task `t`. As `bin.ld` has it, the
image lies in the window of the process. -/
structure Starts (t : Slot) (loaded : Loaded) (p : Program) : Prop where
  exec : ∃ k m pathname argv envp image info,
    k.sched.current = some t ∧ findImage k.embeddedBins pathname = some image ∧
    (elfLoad image m).2 = some info ∧ info.maxOffset.toNat ≤ processVaBase + processVaSize ∧
    initHeap info (elfLoad image m).1 argv envp = some loaded ∧
    schedExecve k m pathname argv envp = some (p.kernel, loaded.mem, .started loaded.trampoline) ∧
    p.curbrk = curbrkAtStart info
  fresh : p.given = []

/-- The program runs on `t`, with this break and this limit. -/
structure Program.On (p : Program) (t : Slot) (brk limit : BitVec 32) : Prop where
  current : p.kernel.sched.current = some t
  brk : (p.kernel.sched.task t).brk = brk
  limit : (p.kernel.sched.task t).brkLimit = limit

section Calls

variable {p : Program} {t : Slot} {b limit addr : BitVec 32}

theorem lt_or_le (x y : BitVec 32) : x < y ∨ y ≤ x := Nat.lt_or_ge x.toNat y.toNat

theorem zero_le (x : BitVec 32) : (0 : BitVec 32) ≤ x := Nat.zero_le x.toNat

theorem ne_zero_of_lt (haddr : limit < addr) : addr ≠ 0 := by
  rintro rfl
  exact absurd haddr (BitVec.not_lt.mpr (zero_le limit))

theorem mmBrk_refused (h : p.On t b limit) (haddr : limit < addr) :
    mmBrk p.kernel addr = (p.kernel, -1) := by
  have hgt : addr > (p.kernel.sched.task t).brkLimit := h.limit.symm ▸ haddr
  simp only [mmBrk, h.current, if_pos hgt]

theorem mmBrk_ok (h : p.On t b limit) (haddr : addr ≤ limit) :
    mmBrk p.kernel addr = (p.kernel.modifyTask t fun task => { task with brk := addr }, 0) := by
  have hle : ¬ addr > (p.kernel.sched.task t).brkLimit := h.limit.symm ▸ BitVec.not_lt.mpr haddr
  simp only [mmBrk, h.current, if_neg hle]

/-- The program with another break. -/
theorem Program.On.setBrk (h : p.On t b limit) (addr curbrk : BitVec 32) (given : List (Nat × Nat)) :
    (Program.mk (p.kernel.modifyTask t fun task => { task with brk := addr }) curbrk given).On t
      addr limit where
  current := h.current
  brk := by simp [Kernel.modifyTask]
  limit := by simpa [Kernel.modifyTask] using h.limit

theorem run_brk_refused (h : p.On t b limit) (haddr : limit < addr) :
    (BreakCall.brk addr).run p = p := by
  simp [BreakCall.run, Program.brk, mmBrk_refused h haddr]

theorem run_brk_ok (h : p.On t b limit) (haddr : addr ≤ limit) (hgiven : p.given = []) :
    (BreakCall.brk addr).run p =
      { kernel := p.kernel.modifyTask t fun task => { task with brk := addr }
        curbrk := p.curbrk
        given := [] } := by
  simp [BreakCall.run, Program.brk, mmBrk_ok h haddr, Program.giveBack, hgiven]

/-- From a `__curbrk` of 0, `sbrk` asks for the break at the increment itself. -/
theorem sbrk_refused (h : p.On t b limit) (hcur : p.curbrk = 0) (haddr : limit < addr) :
    p.sbrk addr = (p, -1) := by
  have hne : addr ≠ 0 := ne_zero_of_lt haddr
  obtain ⟨k, curbrk, given⟩ := p
  obtain rfl : curbrk = 0 := hcur
  rw [Program.sbrk, if_pos hne]
  simp [mmBrk_refused h haddr]

theorem sbrk_ok (h : p.On t b limit) (hcur : p.curbrk = 0) (hne : addr ≠ 0) (haddr : addr ≤ limit) :
    p.sbrk addr = ({ p with
      kernel := p.kernel.modifyTask t fun task => { task with brk := addr }, curbrk := addr }, 0) := by
  rw [Program.sbrk, if_pos hne]
  simp [hcur, mmBrk_ok h haddr]

theorem run_sbrk_refused (h : p.On t b limit) (hcur : p.curbrk = 0) (haddr : limit < addr) :
    (BreakCall.sbrk addr).run p = p := by
  simp [BreakCall.run, sbrk_refused h hcur haddr]

/-- `sbrk(0)` from a `__curbrk` of 0 tells nothing. -/
theorem run_sbrk_zero (hcur : p.curbrk = 0) (hgiven : p.given = []) :
    (BreakCall.sbrk 0).run p = p := by
  obtain ⟨k, curbrk, given⟩ := p
  obtain rfl : given = [] := hgiven
  obtain rfl : curbrk = 0 := hcur
  simp [BreakCall.run, Program.sbrk, Program.giveBack]

end Calls

section Sequences

open BreakCall

variable {p : Program} {t : Slot} {start b limit : BitVec 32}

/-- A range at 0 is below the program. -/
theorem not_ok_sbrk {increment : BitVec 32} (h : p.On t b limit) (hcur : p.curbrk = 0)
    (hstart : start ≠ 0) (hlimit : limit.toNat < 2 ^ 31) (hne : increment ≠ 0)
    (hle : increment ≤ limit) : ¬ (BreakCall.sbrk increment).Ok t start p := by
  rintro ⟨_, hrange⟩
  have hret := sbrk_ok h hcur hne hle
  have hle' : increment.toNat ≤ limit.toNat := hle
  have hpos : 0 < increment.toInt := by
    have hne' : increment.toNat ≠ 0 := fun hz => hne (BitVec.eq_of_toNat_eq hz)
    rw [BitVec.toInt_eq_toNat_of_lt (by omega)]
    omega
  have hfound : (p.sbrk increment).2 ≠ -1 := by
    rw [hret]
    exact (by decide : (0 : BitVec 32) ≠ -1)
  obtain ⟨hlow, _⟩ := hrange increment rfl hpos hfound
  rw [hret] at hlow
  exact hstart (BitVec.eq_of_toNat_eq (Nat.le_zero.mp hlow))

/-- The first call: only `brk(0)` makes both breaks equal without returning a range at 0. -/
theorem first_ok_iff {call : BreakCall} (h : p.On t start limit) (hcur : p.curbrk = 0)
    (hgiven : p.given = []) (hstart : start ≠ 0) (hlimit : limit.toNat < 2 ^ 31) :
    call.Ok t start p ↔ call = .brk 0 := by
  have hunmoved (hrun : call.run p = p) : ¬ call.Ok t start p := by
    rintro ⟨heq, _⟩
    rw [hrun, hcur, h.brk] at heq
    exact hstart heq.symm
  cases call with
  | brk addr =>
      rcases lt_or_le limit addr with hlt | hle
      · have hne : addr ≠ 0 := ne_zero_of_lt hlt
        exact iff_of_false (hunmoved (run_brk_refused h hlt)) fun heq => hne (brk.inj heq)
      · have hbrk := (h.setBrk addr p.curbrk []).brk
        simp only [Ok, run_brk_ok h hle hgiven, hbrk, hcur, reduceCtorEq, false_imp_iff,
          implies_true, and_true, BreakCall.brk.injEq]
        exact eq_comm
  | sbrk increment =>
      simp only [reduceCtorEq, iff_false]
      rcases eq_or_ne increment 0 with rfl | hne
      · exact hunmoved (run_sbrk_zero hcur hgiven)
      rcases lt_or_le limit increment with hlt | hle
      · exact hunmoved (run_sbrk_refused h hcur hlt)
      · exact not_ok_sbrk h hcur hstart hlimit hne hle

/-- A later call, when both breaks are 0. -/
theorem later_ok_iff {call : BreakCall} (h : p.On t 0 limit) (hcur : p.curbrk = 0)
    (hgiven : p.given = []) (hstart : start ≠ 0) (hlimit : limit.toNat < 2 ^ 31) :
    call.Ok t start p ↔ call.Idle limit := by
  have hequal : p.curbrk = (p.kernel.sched.task t).brk := hcur.trans h.brk.symm
  cases call with
  | brk addr =>
      rcases lt_or_le limit addr with hlt | hle
      · have hok : (BreakCall.brk addr).Ok t start p := by
          refine ⟨?_, nofun⟩
          rwa [run_brk_refused h hlt]
        exact iff_of_true hok (.inr hlt)
      · have hbrk := (h.setBrk addr p.curbrk []).brk
        have hnot : ¬ limit < addr := BitVec.not_lt.mpr hle
        simp only [Ok, Idle, run_brk_ok h hle hgiven, hbrk, hcur, hnot, or_false, reduceCtorEq,
          false_imp_iff, implies_true, and_true]
        exact eq_comm
  | sbrk increment =>
      have hsame (hrun : (BreakCall.sbrk increment).run p = p)
          (hret : 0 < increment.toInt → (p.sbrk increment).2 = -1) :
          (BreakCall.sbrk increment).Ok t start p := by
        refine ⟨by rwa [hrun], fun n hn => ?_⟩
        obtain rfl := BreakCall.sbrk.inj hn
        exact fun hpos hfound => absurd (hret hpos) hfound
      rcases eq_or_ne increment 0 with rfl | hne
      · exact iff_of_true (hsame (run_sbrk_zero hcur hgiven) nofun) (.inl rfl)
      rcases lt_or_le limit increment with hlt | hle
      · refine iff_of_true (hsame (run_sbrk_refused h hcur hlt) fun _ => ?_) (.inr hlt)
        rw [sbrk_refused h hcur hlt]
      · refine iff_of_false (not_ok_sbrk h hcur hstart hlimit hne hle) ?_
        exact not_or.mpr ⟨hne, BitVec.not_lt.mpr hle⟩

/-- An idle call leaves both breaks at 0. -/
theorem run_idle {call : BreakCall} (h : p.On t 0 limit) (hcur : p.curbrk = 0)
    (hgiven : p.given = []) (hidle : call.Idle limit) :
    (call.run p).On t 0 limit ∧ (call.run p).curbrk = 0 ∧ (call.run p).given = [] := by
  cases call with
  | brk addr =>
      rcases hidle with rfl | hlt
      · rw [run_brk_ok h (zero_le limit) hgiven]
        exact ⟨h.setBrk 0 p.curbrk [], hcur, rfl⟩
      · rw [run_brk_refused h hlt]
        exact ⟨h, hcur, hgiven⟩
  | sbrk increment =>
      have hrun : (BreakCall.sbrk increment).run p = p := by
        rcases hidle with rfl | hlt
        · exact run_sbrk_zero hcur hgiven
        · exact run_sbrk_refused h hcur hlt
      rw [hrun]
      exact ⟨h, hcur, hgiven⟩

theorem allOk_later_iff (h : p.On t 0 limit) (hcur : p.curbrk = 0) (hgiven : p.given = [])
    (hstart : start ≠ 0) (hlimit : limit.toNat < 2 ^ 31) (calls : List BreakCall) :
    AllOk t start p calls ↔ ∀ call ∈ calls, call.Idle limit := by
  induction calls generalizing p with
  | nil => simp [AllOk]
  | cons call calls ih =>
      rw [AllOk, later_ok_iff h hcur hgiven hstart hlimit, List.forall_mem_cons]
      apply and_congr_right
      intro hidle
      obtain ⟨h', hcur', hgiven'⟩ := run_idle h hcur hgiven hidle
      exact ih h' hcur' hgiven'

theorem allOk_first_iff (h : p.On t start limit) (hcur : p.curbrk = 0) (hgiven : p.given = [])
    (hstart : start ≠ 0) (hlimit : limit.toNat < 2 ^ 31) (calls : List BreakCall) :
    AllOk t start p calls ↔
      calls = [] ∨ ∃ rest, calls = .brk 0 :: rest ∧ ∀ call ∈ rest, call.Idle limit := by
  cases calls with
  | nil => simp [AllOk]
  | cons call calls =>
      rw [AllOk, first_ok_iff h hcur hgiven hstart hlimit]
      have hrest (hcall : call = .brk 0) :
          AllOk t start (call.run p) calls ↔ ∀ call ∈ calls, call.Idle limit := by
        subst hcall
        rw [run_brk_ok h (zero_le limit) hgiven]
        exact allOk_later_iff (h.setBrk 0 p.curbrk []) hcur rfl hstart hlimit calls
      constructor
      · rintro ⟨hcall, hok⟩
        exact .inr ⟨calls, by rw [hcall], (hrest hcall).mp hok⟩
      · rintro (hnil | ⟨rest, hcons, hidle⟩)
        · cases hnil
        · obtain ⟨rfl, rfl⟩ := List.cons.inj hcons
          exact ⟨rfl, (hrest rfl).mpr hidle⟩

end Sequences

section Start

variable {k : Kernel} {m : Mem} {pathname image : List UInt8} {argv envp : BitVec 32} {t : Slot}
variable {info : ElfInfo} {loaded : Loaded}

/-- The kernel behind a `sched_execve` that returns. -/
def startedKernel (k : Kernel) (t : Slot) (pathname : List UInt8) (info : ElfInfo) (loaded : Loaded) :
    Kernel :=
  ((k.modifyTask t fun task =>
    { task with name := CharArray.ofBytes maxFilenameLen pathname }).modifyTask t fun task =>
    { task with brk := info.programEnd, brkLimit := heapLimit info.programEnd }).modifyTask t
    fun task => { task with brk := loaded.brk, pending := 0 }

theorem schedExecve_eq (hcur : k.sched.current = some t)
    (himage : findImage k.embeddedBins pathname = some image)
    (hload : (elfLoad image m).2 = some info) (hroom : info.programEnd ≤ heapLimit info.programEnd)
    (hinit : initHeap info (elfLoad image m).1 argv envp = some loaded) :
    schedExecve k m pathname argv envp =
      some (startedKernel k t pathname info loaded, loaded.mem, .started loaded.trampoline) := by
  have hpair : elfLoad image m = ((elfLoad image m).1, some info) := Prod.ext rfl hload
  simp only [schedExecve, hcur, himage]
  rw [hpair]
  simp only [if_neg (BitVec.not_lt.mpr hroom), hinit]
  rfl

/-- There is no way to return with a heap that leaves the address space. -/
theorem room_of_started {k' : Kernel} {m' : Mem} {trampoline : Trampoline}
    (hcur : k.sched.current = some t) (himage : findImage k.embeddedBins pathname = some image)
    (hload : (elfLoad image m).2 = some info)
    (h : schedExecve k m pathname argv envp = some (k', m', .started trampoline)) :
    info.programEnd ≤ heapLimit info.programEnd := by
  by_contra hroom
  have hpair : elfLoad image m = ((elfLoad image m).1, some info) := Prod.ext rfl hload
  simp only [schedExecve, hcur, himage] at h
  rw [hpair] at h
  simp only [if_pos (BitVec.not_le.mp hroom)] at h
  obtain ⟨_, _, heq⟩ := Option.map_eq_some_iff.mp h
  cases (Prod.mk.inj (Prod.mk.inj heq).2).2

theorem startedKernel_on (hcur : k.sched.current = some t) (curbrk : BitVec 32)
    (given : List (Nat × Nat)) :
    (Program.mk (startedKernel k t pathname info loaded) curbrk given).On t loaded.brk
      (heapLimit info.programEnd) where
  current := hcur
  brk := by simp [startedKernel, Kernel.modifyTask]
  limit := by simp [startedKernel, Kernel.modifyTask]

theorem le_copyStrings {brk : BitVec 32} {n i used used' : Nat} {m' : Mem}
    (h : copyStrings argv brk n i used m = some (used', m')) : used ≤ used' := by
  induction n generalizing i used m with
  | zero => exact (Prod.mk.inj (Option.some.inj h)).1.le
  | succ n ih =>
      obtain ⟨len, _, h⟩ := Option.bind_eq_some_iff.mp h
      have hrest := ih h
      omega

theorem initVector_used {brk : BitVec 32} {vec : HeapVector}
    (h : initVector m brk argv = some vec) : 4 * (vec.count + 1) ≤ vec.used := by
  obtain ⟨n, _, h⟩ := Option.bind_eq_some_iff.mp h
  obtain ⟨⟨used, m'⟩, hcopy, h⟩ := Option.bind_eq_some_iff.mp h
  exact Option.some.inj h ▸ le_copyStrings hcopy

theorem initHeap_used (h : initHeap info m argv envp = some loaded) : 0 < loaded.used := by
  obtain ⟨args, hargs, h⟩ := Option.bind_eq_some_iff.mp h
  obtain ⟨env, _, h⟩ := Option.bind_eq_some_iff.mp h
  have hused := initVector_used hargs
  obtain rfl := Option.some.inj h
  change 0 < args.used + env.used
  omega

end Start

theorem Starts.on {t : Slot} {loaded : Loaded} {p : Program} (h : Starts t loaded p) :
    p.On t loaded.brk (heapLimit loaded.programEnd) ∧ p.curbrk = 0 ∧
      (heapLimit loaded.programEnd).toNat < 2 ^ 31 ∧ 0 < loaded.used := by
  obtain ⟨⟨k, m, pathname, argv, envp, image, info, hcur, himage, hload, hwindow, hinit, hexec,
    hcurbrk⟩, _⟩ := h
  have hroom := room_of_started hcur himage hload hexec
  have heq := schedExecve_eq hcur himage hload hroom hinit
  have hkernel := (Prod.mk.inj (Option.some.inj (hexec.symm.trans heq))).1
  rw [initHeap_programEnd hinit]
  refine ⟨?_, ?_, ?_, initHeap_used hinit⟩
  · obtain ⟨kernel, curbrk, given⟩ := p
    obtain rfl : kernel = _ := hkernel
    exact startedKernel_on hcur curbrk given
  · rw [hcurbrk, curbrkAtStart, (elfLoad_offsets hload).2]
    rfl
  · have hva : processVaBase = 4194304 := by decide
    have hsize : processVaSize = 1048576 := by decide
    have hend : (alignUp info.maxOffset 16).toNat = _ := toNat_alignUp (by omega)
    have hheap : processHeapSize = 524288 := by decide
    rw [heapLimit, ElfInfo.programEnd, BitVec.toNat_add, BitVec.toNat_ofNat]
    omega

/-- The two breaks agree after every call, and the ranges are fresh ranges of the heap,
exactly when the first call, if there is one, is `brk(0)` and no later one moves the
break. -/
theorem allOk_iff {t : Slot} {loaded : Loaded} {p : Program} (hs : Starts t loaded p)
    (hblock : loaded.programEnd.toNat + loaded.used < 2 ^ 32) (calls : List BreakCall) :
    BreakCall.AllOk t loaded.brk p calls ↔ calls = [] ∨ ∃ rest, calls = .brk 0 :: rest ∧
      ∀ call ∈ rest, call.Idle (heapLimit loaded.programEnd) := by
  obtain ⟨hon, hcur, hlimit, hused⟩ := hs.on
  have hstart : loaded.brk ≠ 0 := by
    intro hzero
    have hval : loaded.brk.toNat = 0 := by rw [hzero]; rfl
    rw [Loaded.brk, BitVec.toNat_add, BitVec.toNat_ofNat] at hval
    omega
  exact allOk_first_iff hon hcur hs.fresh hstart hlimit calls

/-- The shell, started anew by itself: its image ends at 0x400010, and two empty
vectors lie behind it. -/
theorem exists_starts :
    ∃ loaded p, Starts 1 loaded p ∧ loaded.programEnd = 0x400010 ∧ loaded.used = 8 := by
  obtain ⟨k, _, _, hcur, hbins⟩ := shell_reachable
  have himage : findImage k.embeddedBins (cstr "/bin/sh") = some zerosElf := by
    rw [show k.embeddedBins = zerosBins from hbins]
    decide +kernel
  obtain ⟨info, hload, hend⟩ := (Option.any_eq_true _ _).mp
    (show (elfLoad zerosElf fun _ => 0).2.any (fun info => info.maxOffset = 0x400010) by
      decide +kernel)
  have hend : info.maxOffset = 0x400010 := of_decide_eq_true hend
  have hinfo : info.programEnd = 0x400010 := by rw [ElfInfo.programEnd, hend]; decide
  have hinit : ((elfLoad zerosElf fun _ => 0).2.bind fun info =>
      initHeap info (elfLoad zerosElf fun _ => 0).1 0 0).any fun loaded => loaded.used = 8 := by
    decide +kernel
  obtain ⟨loaded, hloaded, hused⟩ := (Option.any_eq_true _ _).mp hinit
  rw [hload, Option.bind_some] at hloaded
  have hexec := schedExecve_eq hcur himage hload (by rw [hinfo]; decide) hloaded
  refine ⟨loaded, { kernel := _, curbrk := curbrkAtStart info, given := [] }, ⟨⟨k, _, _, _, _, _,
    info, hcur, himage, hload, ?_, hloaded, hexec, rfl⟩, rfl⟩, ?_, of_decide_eq_true hused⟩
  · rw [hend]
    decide
  · rw [initHeap_programEnd hloaded, hinfo]

/-- The shell gives up its whole heap, and then asks for nothing. -/
theorem allOk_shell :
    ∃ loaded p, Starts 1 loaded p ∧ (BreakCall.AllOk 1 loaded.brk p [.brk 0, .sbrk 0] ↔
      [BreakCall.brk 0, .sbrk 0] = [] ∨ ∃ rest, [.brk 0, .sbrk 0] = BreakCall.brk 0 :: rest ∧
        ∀ call ∈ rest, call.Idle (heapLimit loaded.programEnd)) := by
  obtain ⟨loaded, p, hs, hend, hused⟩ := exists_starts
  have hblock : loaded.programEnd.toNat + loaded.used < 2 ^ 32 := by
    rw [hend, hused]
    decide
  exact ⟨loaded, p, hs, allOk_iff hs hblock [.brk 0, .sbrk 0]⟩

/-- The first `sbrk(16)` of the shell returns the null pointer, and the break of its
task is 16 then. -/
theorem sbrk_null :
    ∃ loaded p, Starts 1 loaded p ∧ loaded.programEnd.toNat + loaded.used < 2 ^ 32 ∧
      (p.sbrk 16).2 = 0 ∧ ((p.sbrk 16).1.kernel.sched.task 1).brk = 16 ∧
      ¬ BreakCall.AllOk 1 loaded.brk p [.sbrk 16] := by
  obtain ⟨loaded, p, hs, hend, hused⟩ := exists_starts
  obtain ⟨hon, hcur, hlimit, _⟩ := hs.on
  have hle : (16 : BitVec 32) ≤ heapLimit loaded.programEnd := by
    rw [hend]
    decide
  have hne : (16 : BitVec 32) ≠ 0 := by decide
  have hstart : loaded.brk ≠ 0 := by
    rw [Loaded.brk, hend, hused]
    decide
  have hret := sbrk_ok hon hcur hne hle
  refine ⟨loaded, p, hs, ?_, ?_, ?_, fun h => not_ok_sbrk hon hcur hstart hlimit hne hle h.1⟩
  · rw [hend, hused]
    decide
  · rw [hret]
  · rw [hret]
    exact (hon.setBrk 16 16 p.given).brk

end Punix
