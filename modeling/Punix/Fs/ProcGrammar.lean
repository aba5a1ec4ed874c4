import Punix.Fs.ProcNumbers

/-!
The paths that `proc_open` is meant to accept, and those that it accepts. It takes
the pid and the descriptor modulo `2 ^ 32`, and of the name of a descriptor it only
looks at the digits in front.
-/

namespace Punix

open Lib

/-- The names below the directory of a task. -/
def taskNames : List String := ["comm", "cmdline", "stat", "status", "cwd", "exe", "fd"]

/-- The paths of `/proc`: the root, its statistics, and for every task its directory, the
names below it, and the descriptors that are open. -/
inductive ProcGrammar (k : Kernel) : List UInt8 → Prop
  | root : ProcGrammar k (cstr "/proc")
  | stat : ProcGrammar k (cstr "/proc/stat")
  | task {digits : List UInt8} {t : Slot} (hdigits : Digits digits)
      (hpid : (k.sched.task t).pid = decimalValue digits) : ProcGrammar k (digitsPath digits [])
  | leaf {digits : List UInt8} {t : Slot} {name : String} (hdigits : Digits digits)
      (hpid : (k.sched.task t).pid = decimalValue digits) (hname : name ∈ taskNames) :
      ProcGrammar k (digitsPath digits (slash :: cstr name))
  | fd {digits number : List UInt8} {t : Slot} {fd : Fin rlimitNofile} (hdigits : Digits digits)
      (hpid : (k.sched.task t).pid = decimalValue digits) (hnumber : Digits number)
      (hfd : decimalValue number = fd) (hopen : ((k.files t).slots fd).isSome) :
      ProcGrammar k (digitsPath digits (cstr "/fd/" ++ number))

/-- What is accepted behind the pid of a task. -/
def TaskRest (k : Kernel) (t : Slot) (rest : List UInt8) : Prop :=
  rest = [] ∨ (∃ name ∈ taskNames, rest = slash :: cstr name) ∨
    ∃ number, number ≠ [] ∧ rest = cstr "/fd/" ++ number ∧
      ∃ fd : Fin rlimitNofile, kAtoi number = fd ∧ ((k.files t).slots fd).isSome

/-- A path that names a task or a descriptor only because its number is cut down to what
fits into an `int`, or because the rest of the name is not looked at. -/
def ProcLenient (k : Kernel) (path : List UInt8) : Prop :=
  ∃ digits rest t, path = digitsPath digits rest ∧ Digits digits ∧
    (k.sched.task t).pid = (decimalValue digits % 2 ^ 32 : ℕ) ∧ TaskRest k t rest ∧
      (2 ^ 32 ≤ decimalValue digits ∨ ∃ number, number ≠ [] ∧ rest = cstr "/fd/" ++ number ∧
        ¬ (Digits number ∧ decimalValue number < 2 ^ 32))

section Grammar

variable {k : Kernel} {file : File} {digits rest : List UInt8} {t : Slot}

theorem TaskRest.componentEnds (h : TaskRest k t rest) : ComponentEnds rest := by
  rcases h with rfl | ⟨name, _, rfl⟩ | ⟨number, _, rfl, _⟩
  · exact .inl rfl
  · exact .inr rfl
  · exact .inr rfl

/-- A canonical path does not end in a separator. -/
theorem canonicalPath_ne_snoc (s : List UInt8) :
    canonicalPath (slash :: s ++ [slash]) ≠ slash :: s ++ [slash] := by
  intro heq
  have hlast : canonicalPath (slash :: s ++ [slash]) = canonicalPath (slash :: s) := by
    rw [canonicalPath, PathName.canonical, PathName.resolveAll_append_sep,
      PathName.resolveAll_nil]
    rfl
  have hle : (canonicalPath (slash :: s)).length ≤ s.length + 1 := PathName.length_canonical_le s
  rw [← hlast, heq, List.length_append, List.length_cons] at hle
  have hone : [slash].length = 1 := rfl
  omega

theorem procLeaf_iff (hcanonical : canonicalPath (digitsPath digits rest) = digitsPath digits rest)
    (hdigits : Digits digits) (hnul : 0 ∉ digitsPath digits rest) :
    ProcLeaf k t (digitsPath digits rest) rest ↔ TaskRest k t rest := by
  have hsnoc (s : List UInt8) : rest ≠ s ++ [slash] := by
    rintro rfl
    apply canonicalPath_ne_snoc (cstr "proc/" ++ digits ++ s)
    have hpath : digitsPath digits (s ++ [slash]) =
        slash :: (cstr "proc/" ++ digits ++ s) ++ [slash] := by
      rw [digitsPath, ← List.append_assoc]
      rfl
    rw [← hpath]
    exact hcanonical
  have hnames (leaf : List UInt8) : leaf ∈ procLeaves.map cstr ↔
      (∃ name ∈ taskNames, leaf = cstr name) ∨ leaf = cstr "fd/" := by
    simp only [procLeaves, taskNames, List.map_cons, List.map_nil, List.mem_cons,
      List.not_mem_nil, or_false, exists_eq_or_imp, exists_eq_left, or_assoc]
  have hfd (number : List UInt8) (heq : rest = cstr "/fd/" ++ number) :
      ProcFdOpen (k.files t) (digitsPath digits rest) ↔
        ∃ fd : Fin rlimitNofile, kAtoi number = fd ∧ ((k.files t).slots fd).isSome := by
    have hnumber : 0 ∉ number := fun hmem =>
      hnul (List.mem_append_right _ (by rw [heq]; exact List.mem_append_right _ hmem))
    rw [ProcFdOpen, heq, procExtractFdNum_digitsPath hdigits hnumber]
  constructor
  · rintro (hnil | hslash | ⟨leaf, hleaf, hknown | ⟨⟨number, hnumber⟩, hopen⟩⟩)
    · exact .inl hnil
    · exact absurd hslash (hsnoc [])
    · rcases (hnames leaf).mp hknown with ⟨name, hname, rfl⟩ | rfl
      · exact .inr (.inl ⟨name, hname, hleaf⟩)
      · exact absurd hleaf (hsnoc (cstr "/fd"))
    · have heq : rest = cstr "/fd/" ++ number := by
        rw [hleaf, ← hnumber]
        rfl
      refine .inr (.inr ⟨number, ?_, heq, (hfd number heq).mp hopen⟩)
      rintro rfl
      exact hsnoc (cstr "/fd") heq
  · rintro (hnil | ⟨name, hname, heq⟩ | ⟨number, _, heq, hopen⟩)
    · exact .inl hnil
    · exact .inr (.inr ⟨cstr name, heq, .inl ((hnames _).mpr (.inl ⟨name, hname, rfl⟩))⟩)
    · exact .inr (.inr ⟨cstr "fd/" ++ number, heq, .inr ⟨⟨number, rfl⟩, (hfd number heq).mpr hopen⟩⟩)

/-- The paths that `proc_open` accepts. -/
theorem procOpen_iff (h : PidsOfSlots k.sched)
    (hcanonical : canonicalPath file.pathname.bytes = file.pathname.bytes) :
    0 ≤ (procOpen k file).1 ↔
      file.pathname.bytes = cstr "/proc" ∨ file.pathname.bytes = cstr "/proc/stat" ∨
        ∃ digits rest t, file.pathname.bytes = digitsPath digits rest ∧ Digits digits ∧
          (k.sched.task t).pid = (decimalValue digits % 2 ^ 32 : ℕ) ∧ TaskRest k t rest := by
  have hnul := file.pathname.noNul
  constructor
  · intro hopen
    rcases (procOpen_nonneg_iff k file).mp hopen with hroot | hstat | ⟨t, hfind, _⟩
    · rw [procIsRoot, decide_eq_true_eq, kStrcmp_eq_zero hnul (by decide),
        kStrcmp_eq_zero hnul (by decide)] at hroot
      rcases hroot with hroot | hroot
      · exact .inl hroot
      · rw [hroot] at hcanonical
        exact absurd hcanonical (canonicalPath_ne_snoc (cstr "proc"))
    · exact .inr (.inl hstat)
    · have hpid : procPathToPid file.pathname.bytes ≠ pidNone := by
        intro hnone
        rw [hnone] at hfind
        cases hfind
      obtain ⟨digits, rest, hpath, hdigits, hends⟩ := exists_digitsPath hpid
      obtain ⟨u, htask, hleaf⟩ := (procNamed_digits hpath hdigits hends.not_isDigit).mp hopen
      rw [hpath] at hcanonical hnul
      refine .inr (.inr ⟨digits, rest, u, hpath, hdigits, ?_, ?_⟩)
      · exact ((procTask_iff h hdigits hends.not_isDigit u).mp htask).2
      · exact (procLeaf_iff hcanonical hdigits hnul).mp hleaf
  · rintro (hroot | hstat | ⟨digits, rest, t, hpath, hdigits, hpid, hrest⟩)
    · rw [procOpen_nonneg_iff, hroot]
      exact .inl (by decide)
    · rw [procOpen_nonneg_iff]
      exact .inr (.inl hstat)
    · have hends := hrest.componentEnds
      rw [procNamed_digits hpath hdigits hends.not_isDigit]
      rw [hpath] at hcanonical hnul
      exact ⟨t, (procTask_iff h hdigits hends.not_isDigit t).mpr ⟨hends, hpid⟩,
        (procLeaf_iff hcanonical hdigits hnul).mpr hrest⟩

/-- What the grammar says about a path with a pid. -/
theorem ProcGrammar.pid {path : List UInt8} (hg : ProcGrammar k path)
    (hpath : path = digitsPath digits rest) (hdigits : Digits digits) (hends : ComponentEnds rest) :
    ∃ t, (k.sched.task t).pid = decimalValue digits ∧
      ∀ number, number ≠ [] → rest = cstr "/fd/" ++ number →
        Digits number ∧ decimalValue number < rlimitNofile := by
  have hrest := hends.not_isDigit
  cases hg with
  | root => exact absurd hpath.symm (digitsPath_ne hdigits (by decide))
  | stat => exact absurd hpath.symm (digitsPath_ne hdigits (by decide))
  | @task digits' t hdigits' hpid =>
      obtain ⟨rfl, rfl⟩ := digitsPath_inj hdigits' hdigits (by decide) hrest hpath
      refine ⟨t, hpid, fun number _ heq => ?_⟩
      cases heq
  | @leaf digits' t name hdigits' hpid hname =>
      have hslash : ¬ isDigit ((slash :: cstr name).headD 0) := show ¬ isDigit slash by decide
      obtain ⟨rfl, rfl⟩ := digitsPath_inj hdigits' hdigits hslash hrest hpath
      refine ⟨t, hpid, fun number hne heq => ?_⟩
      have hshort : ∀ name ∈ taskNames, (cstr name).headD 0 = 102 → (cstr name).length ≤ 2 := by
        decide
      have hlen := congrArg List.length heq
      have hfour : (cstr "/fd/").length = 4 := rfl
      have hpos := List.length_pos_of_ne_nil hne
      rw [List.length_append, List.length_cons, hfour] at hlen
      have hle := hshort name hname (by rw [(List.cons.inj heq).2]; rfl)
      omega
  | @fd digits' number' t fd hdigits' hpid hnumber hfd hopen =>
      have hslash : ¬ isDigit ((cstr "/fd/" ++ number').headD 0) := show ¬ isDigit slash by decide
      obtain ⟨rfl, rfl⟩ := digitsPath_inj hdigits' hdigits hslash hrest hpath
      refine ⟨t, hpid, fun number _ heq => ?_⟩
      obtain rfl := List.append_cancel_left heq
      exact ⟨hnumber, hfd ▸ fd.isLt⟩

theorem kAtoi_number {number : List UInt8} (h : Digits number) :
    kAtoi number = asInt (decimalValue number) := by
  have hend : ¬ isDigit (([] : List UInt8).headD 0) := by decide
  have hread := kAtoi_digits h.all hend
  rwa [List.append_nil] at hread

/-- On a canonical path `proc_open` accepts what it is meant to accept if and only if it is
not such a path. -/
theorem procOpen_grammar_iff (h : PidsOfSlots k.sched)
    (hcanonical : canonicalPath file.pathname.bytes = file.pathname.bytes) :
    (0 ≤ (procOpen k file).1 ↔ ProcGrammar k file.pathname.bytes) ↔
      ¬ ProcLenient k file.pathname.bytes := by
  have hfits {digits : List UInt8} {t : Slot} (hpid : (k.sched.task t).pid = decimalValue digits) :
      decimalValue digits < 2 ^ 31 := by
    have hnone : pidNone = -1 := rfl
    rcases h t with hfree | ⟨_, hmax, _⟩ <;> omega
  rw [procOpen_iff h hcanonical]
  constructor
  · rintro hiff ⟨digits, rest, t, hpath, hdigits, hpid, hrest, hbad⟩
    obtain ⟨u, hvalue, hnumber⟩ := (hiff.mp (.inr (.inr ⟨digits, rest, t, hpath, hdigits, hpid,
      hrest⟩))).pid hpath hdigits hrest.componentEnds
    have hsmall := hfits hvalue
    rcases hbad with hbig | ⟨number, hne, heq, hbad⟩
    · omega
    · obtain ⟨hdigits', hlt⟩ := hnumber number hne heq
      have hmax : rlimitNofile = 16 := rfl
      exact hbad ⟨hdigits', by omega⟩
  · intro hstrict
    constructor
    · rintro (hroot | hstat | ⟨digits, rest, t, hpath, hdigits, hpid, hrest⟩)
      · rw [hroot]
        exact .root
      · rw [hstat]
        exact .stat
      · have hgood := fun hbad => hstrict ⟨digits, rest, t, hpath, hdigits, hpid, hrest, hbad⟩
        obtain ⟨hsmall, hnumbers⟩ := not_or.mp hgood
        rw [not_le] at hsmall
        rw [Nat.mod_eq_of_lt hsmall] at hpid
        rw [hpath]
        rcases hrest with rfl | ⟨name, hname, rfl⟩ | ⟨number, hne, rfl, fd, hfd, hopen⟩
        · exact .task hdigits hpid
        · exact .leaf hdigits hpid hname
        · have hnumber : Digits number ∧ decimalValue number < 2 ^ 32 := by
            by_contra hbad
            exact hnumbers ⟨number, hne, rfl, hbad⟩
          obtain ⟨hdigits', hlt⟩ := hnumber
          have hmax : (fd : Nat) < 16 := fd.isLt
          have hvalue := kAtoi_number hdigits'
          rw [hfd, eq_comm, asInt_eq_natCast (by omega), Nat.mod_eq_of_lt hlt] at hvalue
          exact .fd hdigits hpid hdigits' hvalue hopen
    · intro hg
      have hresidue {digits : List UInt8} {t : Slot}
          (hpid : (k.sched.task t).pid = decimalValue digits) :
          (k.sched.task t).pid = (decimalValue digits % 2 ^ 32 : ℕ) := by
        have hsmall := hfits hpid
        rw [hpid, Nat.mod_eq_of_lt (by omega)]
      generalize file.pathname.bytes = path at hg ⊢
      cases hg with
      | root => exact .inl rfl
      | stat => exact .inr (.inl rfl)
      | task hdigits hpid =>
          exact .inr (.inr ⟨_, _, _, rfl, hdigits, hresidue hpid, .inl rfl⟩)
      | leaf hdigits hpid hname =>
          exact .inr (.inr ⟨_, _, _, rfl, hdigits, hresidue hpid, .inr (.inl ⟨_, hname, rfl⟩)⟩)
      | @fd digits number t fd hdigits hpid hnumber hfd hopen =>
          have hmax : (fd : Nat) < 16 := fd.isLt
          have hvalue := kAtoi_number hnumber
          rw [hfd, asInt_of_lt (by omega)] at hvalue
          exact .inr (.inr ⟨_, _, _, rfl, hdigits, hresidue hpid,
            .inr (.inr ⟨_, hnumber.ne_nil, rfl, fd, hvalue, hopen⟩)⟩)

end Grammar

theorem procOpen_grammar_iff_comm :
    ¬ ProcLenient twoTaskKernel (cstr "/proc/1/comm") ∧
      (0 ≤ (procOpen twoTaskKernel (pathFile (cstr "/proc/1/comm"))).1 ↔
        ProcGrammar twoTaskKernel (cstr "/proc/1/comm")) := by
  have hstrict : ¬ ProcLenient twoTaskKernel (cstr "/proc/1/comm") := by
    rintro ⟨digits, rest, t, hpath, hdigits, hpid, hrest, hbad⟩
    have hsplit : cstr "/proc/1/comm" = digitsPath (cstr "1") (cstr "/comm") := rfl
    obtain ⟨rfl, rfl⟩ := digitsPath_inj (by decide) hdigits (by decide)
      hrest.componentEnds.not_isDigit (hsplit.symm.trans hpath)
    rcases hbad with hbig | ⟨number, _, heq, _⟩
    · exact absurd hbig (by decide)
    · have hsecond : some (99 : UInt8) = some 102 := congrArg (·[1]?) heq
      exact absurd hsecond (by decide)
  have hcanonical : canonicalPath (pathFile (cstr "/proc/1/comm")).pathname.bytes =
      (pathFile (cstr "/proc/1/comm")).pathname.bytes := by decide
  exact ⟨hstrict, (procOpen_grammar_iff pidsOfSlots_twoTask hcanonical).mpr hstrict⟩

/-- The descriptor 0 is open, and `0x` is taken for its number. -/
theorem procOpen_lenient :
    ∃ k, vfsOpen twoTaskKernel 0 (cstr "/proc") 0 0 = some (k, 0) ∧
      0 ≤ (procOpen k (pathFile (cstr "/proc/0/fd/0x"))).1 ∧
      ¬ ProcGrammar k (cstr "/proc/0/fd/0x") := by
  refine ⟨_, rfl, by decide, fun hg => ?_⟩
  have hsplit : cstr "/proc/0/fd/0x" = digitsPath (cstr "0") (cstr "/fd/0x") := rfl
  obtain ⟨_, _, hnumber⟩ := hg.pid hsplit (by decide) (.inr rfl)
  exact absurd ((hnumber (cstr "0x") (by decide) rfl).1.all 120 (by decide)) (by decide)

end Punix
