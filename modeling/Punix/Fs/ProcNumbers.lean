import Punix.Fs.ProcPaths
import Punix.Fs.ProcRead

/-!
Which task and which descriptor the numbers in a path of `/proc` stand for. The
lookups are made with the numbers modulo `2 ^ 32`, so that a number that does not
fit can name a task or a descriptor all the same; all other numbers name what
they say.
-/

namespace Punix

/-- The task that `proc_open`, `proc_read` and `proc_getdents` take a path to belong to. -/
def ProcTask (k : Kernel) (path : List UInt8) (t : Slot) : Prop :=
  taskTableFindTaskByPid k.sched (procPathToPid path) = some t

/-- The descriptor of that task that they take a path to name. -/
def ProcFd (k : Kernel) (path : List UInt8) (t : Slot) (fd : Fin rlimitNofile) : Prop :=
  procExtractFdNum path = fd ∧ ((k.files t).slots fd).isSome

/-- A path below `/proc/<digits>/fd/<number>`. -/
structure FdNumber (rest number more : List UInt8) : Prop where
  eq : rest = cstr "/fd/" ++ (number ++ more)
  digits : Digits number
  ends : ¬ isDigit (more.headD 0)

section Numbers

variable {k : Kernel} {file : File} {digits rest : List UInt8}

theorem procTask_iff (h : PidsOfSlots k.sched) (hdigits : Digits digits)
    (hrest : ¬ isDigit (rest.headD 0)) (t : Slot) :
    ProcTask k (digitsPath digits rest) t ↔
      ComponentEnds rest ∧ (k.sched.task t).pid = (decimalValue digits % 2 ^ 32 : ℕ) := by
  rw [ProcTask, procPathToPid_digitsPath hdigits hrest]
  split
  · next hends => rw [h.find_iff, and_iff_right hends]
  · next hends => exact iff_of_false nofun fun h => hends h.1

theorem procFd_iff {number more : List UInt8} (hdigits : Digits digits)
    (hnumber : FdNumber rest number more) (hnul : 0 ∉ number ++ more) (t : Slot)
    (fd : Fin rlimitNofile) :
    ProcFd k (digitsPath digits rest) t fd ↔
      decimalValue number % 2 ^ 32 = fd ∧ ((k.files t).slots fd).isSome := by
  have hlt : (fd : Nat) < 16 := fd.isLt
  rw [ProcFd, hnumber.eq, procExtractFdNum_digitsPath hdigits hnul,
    kAtoi_digits hnumber.digits.all hnumber.ends, asInt_eq_natCast (by omega)]

theorem procNamed_digits (hpath : file.pathname.bytes = digitsPath digits rest)
    (hdigits : Digits digits) (hrest : ¬ isDigit (rest.headD 0)) :
    0 ≤ (procOpen k file).1 ↔
      ∃ t, ProcTask k (digitsPath digits rest) t ∧ ProcLeaf k t (digitsPath digits rest) rest := by
  have hne {name : List UInt8} (hname : ¬ isDigit ((name.drop 6).headD 0)) :
      digitsPath digits rest ≠ name := digitsPath_ne hdigits hname
  have hnul := file.pathname.noNul
  rw [hpath] at hnul
  have hroot : ¬ procIsRoot (digitsPath digits rest) := by
    rw [procIsRoot, decide_eq_true_eq, kStrcmp_eq_zero hnul (by decide),
      kStrcmp_eq_zero hnul (by decide), not_or]
    exact ⟨hne (by decide), hne (by decide)⟩
  rw [procOpen_nonneg_iff, ProcNamed, hpath, or_iff_right hroot,
    or_iff_right (hne (by decide)), skipPid_digitsPath hdigits hrest]
  rfl

/-- Without a task nothing is read. -/
theorem procRead_noTask (hpath : file.pathname.bytes = digitsPath digits rest)
    (hdigits : Digits digits) (h : ∀ t, ¬ ProcTask k (digitsPath digits rest) t) (hasBuf : Bool)
    (count : BitVec 32) : (procRead k file hasBuf count).ret ≤ 0 := by
  have hnul := file.pathname.noNul
  rw [hpath] at hnul
  have hstat : ¬ kStrcmp (digitsPath digits rest) (cstr "/proc/stat") = 0 := by
    rw [kStrcmp_eq_zero hnul (by decide)]
    exact digitsPath_ne hdigits (by decide)
  have hnone : taskTableFindTaskByPid k.sched (procPathToPid (digitsPath digits rest)) = none :=
    Option.eq_none_iff_forall_ne_some.mpr h
  unfold procRead
  simp only [hpath, if_neg hstat, hnone]
  split_ifs
  · exact le_rfl
  · exact (by decide : (-1 : Int) ≤ 0)
  · exact (by decide : (-1 : Int) ≤ 0)

/-- The numbers in a path stand for what they say: the task has the pid, the descriptor is
the one of that number, and a number that is no `int` is refused. -/
structure NumbersMeant (k : Kernel) (file : File) (digits rest : List UInt8) : Prop where
  task : ∀ t, ProcTask k file.pathname.bytes t → (k.sched.task t).pid = decimalValue digits
  task_refused : 2 ^ 31 ≤ decimalValue digits → (procOpen k file).1 < 0 ∧
    ∀ hasBuf count, (procRead k file hasBuf count).ret ≤ 0
  fd : ∀ number more, FdNumber rest number more → ∀ t fd, ProcTask k file.pathname.bytes t →
    ProcFd k file.pathname.bytes t fd → (fd : Nat) = decimalValue number
  fd_refused : ∀ number more, FdNumber rest number more → 2 ^ 31 ≤ decimalValue number →
    (procOpen k file).1 < 0

/-- The number does not fit into 32 bits, and what is left of it is the pid of a task. -/
def PidWraps (k : Kernel) (digits rest : List UInt8) : Prop :=
  2 ^ 32 ≤ decimalValue digits ∧ ComponentEnds rest ∧
    ∃ t, (k.sched.task t).pid = (decimalValue digits % 2 ^ 32 : ℕ)

/-- The number of the descriptor does not fit, and what is left of it is an open descriptor
of the task. -/
def FdWraps (k : Kernel) (digits rest : List UInt8) : Prop :=
  ∃ number more, FdNumber rest number more ∧ 2 ^ 32 ≤ decimalValue number ∧
    ∃ t, ∃ fd : Fin rlimitNofile, (k.sched.task t).pid = (decimalValue digits % 2 ^ 32 : ℕ) ∧
      decimalValue number % 2 ^ 32 = fd ∧ ((k.files t).slots fd).isSome

theorem FdNumber.componentEnds {number more : List UInt8} (h : FdNumber rest number more) :
    ComponentEnds rest := by
  rw [h.eq]
  exact .inr rfl

theorem FdNumber.noNul {number more : List UInt8} (h : FdNumber rest number more)
    (hnul : 0 ∉ digitsPath digits rest) : 0 ∉ number ++ more := fun hmem =>
  hnul (List.mem_append_right _ (by rw [h.eq]; exact List.mem_append_right _ hmem))

/-- No name that `proc_open` knows begins like this, so that it looks for a descriptor. -/
theorem FdNumber.procFdOpen {number more path : List UInt8} {t : Slot}
    (h : FdNumber rest number more) (hleaf : ProcLeaf k t path rest) :
    ProcFdOpen (k.files t) path := by
  rw [h.eq] at hleaf
  rcases hleaf with hnil | hslash | ⟨leaf, hleaf, hknown | ⟨_, hopen⟩⟩
  · cases hnil
  · cases hslash
  · have hshort : ∀ leaf ∈ procLeaves.map cstr, leaf.headD 0 = 102 → leaf.length ≤ 3 := by decide
    have hlen := congrArg List.length hleaf
    have hfour : (cstr "/fd/").length = 4 := rfl
    rw [List.length_append, List.length_append, List.length_cons, hfour] at hlen
    obtain rfl := (List.cons.inj hleaf).2
    have hle := hshort _ hknown rfl
    have hpos := List.length_pos_of_ne_nil h.digits.ne_nil
    omega
  · exact hopen

/-- The numbers in a path of `/proc` stand for what they say if and only if none of them
wraps around onto a task or a descriptor. -/
theorem numbersMeant_iff (h : PidsOfSlots k.sched)
    (hpath : file.pathname.bytes = digitsPath digits rest) (hdigits : Digits digits)
    (hrest : ¬ isDigit (rest.headD 0)) :
    NumbersMeant k file digits rest ↔ ¬ PidWraps k digits rest ∧ ¬ FdWraps k digits rest := by
  have hnul := file.pathname.noNul
  rw [hpath] at hnul
  constructor
  · intro hmeant
    have htask := hmeant.task
    have hfd := hmeant.fd
    rw [hpath] at htask hfd
    constructor
    · rintro ⟨hbig, hends, t, hpid⟩
      have hvalue := htask t ((procTask_iff h hdigits hrest t).mpr ⟨hends, hpid⟩)
      have hlt := Nat.mod_lt (decimalValue digits) (show 2 ^ 32 > 0 by decide)
      omega
    · rintro ⟨number, more, hnumber, hbig, t, fd, hpid, hslot, hopen⟩
      have hvalue := hfd number more hnumber t fd
        ((procTask_iff h hdigits hrest t).mpr ⟨hnumber.componentEnds, hpid⟩)
        ((procFd_iff hdigits hnumber (hnumber.noNul hnul) t fd).mpr ⟨hslot, hopen⟩)
      have hlt := Nat.mod_lt (decimalValue number) (show 2 ^ 32 > 0 by decide)
      omega
  · rintro ⟨hpidOk, hfdOk⟩
    have htask (t : Slot) (ht : ProcTask k (digitsPath digits rest) t) :
        (k.sched.task t).pid = decimalValue digits := by
      obtain ⟨hends, hpid⟩ := (procTask_iff h hdigits hrest t).mp ht
      rcases Nat.lt_or_ge (decimalValue digits) (2 ^ 32) with hsmall | hbig
      · rw [hpid, Nat.mod_eq_of_lt hsmall]
      · exact absurd ⟨hbig, hends, t, hpid⟩ hpidOk
    have hfd (number more : List UInt8) (hnumber : FdNumber rest number more) (t : Slot)
        (fd : Fin rlimitNofile) (ht : ProcTask k (digitsPath digits rest) t)
        (hf : ProcFd k (digitsPath digits rest) t fd) : (fd : Nat) = decimalValue number := by
      obtain ⟨_, hpid⟩ := (procTask_iff h hdigits hrest t).mp ht
      obtain ⟨hslot, hopen⟩ :=
        (procFd_iff hdigits hnumber (hnumber.noNul hnul) t fd).mp hf
      rcases Nat.lt_or_ge (decimalValue number) (2 ^ 32) with hsmall | hbig
      · rw [← hslot, Nat.mod_eq_of_lt hsmall]
      · exact absurd ⟨number, more, hnumber, hbig, t, fd, hpid, hslot, hopen⟩ hfdOk
    refine ⟨by rwa [hpath], ?_, by rwa [hpath], ?_⟩
    · intro hbig
      have hnone (t : Slot) : ¬ ProcTask k (digitsPath digits rest) t := by
        intro ht
        have hpid := htask t ht
        have hnone : pidNone = -1 := rfl
        rcases h t with hfree | ⟨_, hmax, _⟩ <;> omega
      refine ⟨?_, procRead_noTask hpath hdigits hnone⟩
      rw [← not_le, procNamed_digits hpath hdigits hrest]
      rintro ⟨t, ht, _⟩
      exact hnone t ht
    · intro number more hnumber hbig
      rw [← not_le, procNamed_digits hpath hdigits hrest]
      rintro ⟨t, ht, hleaf⟩
      obtain ⟨fd, hextract, hopen⟩ := hnumber.procFdOpen hleaf
      have hvalue := hfd number more hnumber t fd ht ⟨hextract, hopen⟩
      have hlt : (fd : Nat) < 16 := fd.isLt
      omega

end Numbers

theorem pidsOfSlots_twoTask : PidsOfSlots twoTaskKernel.sched := by
  unfold PidsOfSlots
  decide +kernel

def pathFile (path : List UInt8) : File :=
  { vfsInit.files 0 with pathname := CharArray.ofBytes maxFilenameLen path }

/-- A pid with leading zeros. -/
theorem numbersMeant_iff_zeros :
    ¬ PidWraps twoTaskKernel (cstr "0001") [] ∧ ¬ FdWraps twoTaskKernel (cstr "0001") [] ∧
      NumbersMeant twoTaskKernel (pathFile (cstr "/proc/0001")) (cstr "0001") [] := by
  have hpid : ¬ PidWraps twoTaskKernel (cstr "0001") [] := fun h => absurd h.1 (by decide)
  have hfd : ¬ FdWraps twoTaskKernel (cstr "0001") [] := by
    rintro ⟨number, more, hnumber, _⟩
    exact absurd hnumber.eq (by simp [cstr])
  refine ⟨hpid, hfd, ?_⟩
  exact (numbersMeant_iff pidsOfSlots_twoTask rfl (by decide) (by decide)).mpr ⟨hpid, hfd⟩

/-- `2 ^ 32 + 1` names the task with the pid 1. -/
theorem numbers_wrap :
    0 ≤ (procOpen twoTaskKernel (pathFile (cstr "/proc/4294967297"))).1 ∧
      ProcTask twoTaskKernel (cstr "/proc/4294967297") 1 ∧
      (twoTaskKernel.sched.task 1).pid = 1 ∧ decimalValue (cstr "4294967297") = 4294967297 ∧
      ¬ NumbersMeant twoTaskKernel (pathFile (cstr "/proc/4294967297")) (cstr "4294967297") [] := by
  have htask : ProcTask twoTaskKernel (cstr "/proc/4294967297") 1 := by
    unfold ProcTask
    decide
  refine ⟨by decide, htask, by decide, by decide, fun hmeant => ?_⟩
  exact absurd (hmeant.task 1 htask) (by decide)

end Punix
