import Punix.Arch.Trampoline
import Punix.Libs.Sbrk

/-!
The environment of a program: `environ` and `getenv` of `libc.c`. The kernel copies the
environment to the heap and passes it on the stack, but `elf_load` leaves `environ_off`
zero, so that `task_init_env` does not set `environ`, and `_start` does not either.
-/

namespace Punix

open Lib

/-- `=`. -/
def equalsSign : UInt8 := 61

/-- A vector of pointers to these strings, with a null pointer behind them. -/
structure VectorAt (m : Mem) (p : BitVec 32) (entries : List (List UInt8)) : Prop where
  nonNull : p ≠ 0
  entry : ∀ i, (h : i < entries.length) → m.word (pointerAt p i) ≠ 0 ∧
    StringAt m (m.word (pointerAt p i)) entries[i]
  last : m.word (pointerAt p entries.length) = 0

/-- `strncmp(a, name, strlen(name)) == 0`. -/
def startsWith (m : Mem) (a : BitVec 32) : List UInt8 → Bool
  | [] => true
  | c :: name => m a = c ∧ startsWith m (a + 1) name

/-- The loop of `getenv` from the `i`-th pointer on; 0 is `NULL`. -/
def getenvFrom (m : Mem) (environ : BitVec 32) (name : List UInt8) : Nat → Nat → Option (BitVec 32)
  | 0, _ => none
  | fuel + 1, i =>
      let env := m.word (pointerAt environ i)
      if env = 0 then some 0
      else if startsWith m env name ∧ m (env + BitVec.ofNat 32 name.length) = equalsSign then
        some (env + BitVec.ofNat 32 name.length + 1)
      else getenvFrom m environ name fuel (i + 1)

/-- `getenv`, which reads `environ`. There are no more than 2^30 pointers. -/
def getenv (m : Mem) (environ : BitVec 32) (name : List UInt8) : Option (BitVec 32) :=
  if name = [] ∨ equalsSign ∈ name then some 0
  else getenvFrom m environ name (2 ^ 30) 0

section Getenv

variable {m : Mem} {environ a : BitVec 32} {name s : List UInt8} {entries : List (List UInt8)}

theorem StringAt.tail {c : UInt8} (h : StringAt m a (c :: s)) : m a = c ∧ StringAt m (a + 1) s := by
  have hnext (i : Nat) : a + 1 + BitVec.ofNat 32 i = a + BitVec.ofNat 32 (i + 1) := by
    rw [BitVec.add_assoc, Nat.add_comm, BitVec.ofNat_add]
    rfl
  refine ⟨?_, fun hmem => h.noNul (List.mem_cons_of_mem _ hmem), fun i hi => ?_, ?_⟩
  · have hfirst := h.chars 0 (Nat.succ_pos _)
    rwa [BitVec.add_zero] at hfirst
  · rw [hnext]
    exact h.chars (i + 1) (Nat.succ_lt_succ hi)
  · rw [hnext]
    exact h.nul

/-- An entry is the one that is looked for if it begins with the name and an equals sign. -/
theorem startsWith_iff (h : StringAt m a s) (hnul : 0 ∉ name) :
    (startsWith m a name ∧ m (a + BitVec.ofNat 32 name.length) = equalsSign) ↔
      name ++ [equalsSign] <+: s := by
  induction name generalizing a s with
  | nil =>
      have hend : m (a + BitVec.ofNat 32 ([] : List UInt8).length) = m a := by rw [List.length_nil, BitVec.add_zero]
      rw [hend, startsWith, and_iff_right rfl, List.nil_append]
      cases s with
      | nil =>
          have hzero : m a = 0 := by simpa using h.nul
          rw [hzero]
          exact iff_of_false (by decide) (by simp)
      | cons c s =>
          rw [h.tail.1, List.cons_prefix_cons, and_iff_left (List.nil_prefix), eq_comm]
  | cons x name ih =>
      have hnext : a + BitVec.ofNat 32 (x :: name).length =
          a + 1 + BitVec.ofNat 32 name.length := by
        rw [List.length_cons, BitVec.add_assoc, Nat.add_comm, BitVec.ofNat_add]
        rfl
      have hx : x ≠ 0 := fun hzero => hnul (hzero ▸ List.mem_cons_self)
      rw [hnext, startsWith, decide_eq_true_eq, and_assoc, List.cons_append]
      cases s with
      | nil =>
          have hzero : m a = 0 := by simpa using h.nul
          rw [hzero]
          exact iff_of_false (fun hall => hx hall.1.symm) (by simp)
      | cons c s =>
          rw [h.tail.1, List.cons_prefix_cons,
            ih h.tail.2 fun hmem => hnul (List.mem_cons_of_mem _ hmem), eq_comm]

/-- Where `getenv` finds the value if the entry has the index `i`. -/
def valueAt (m : Mem) (environ : BitVec 32) (name : List UInt8) : Option Nat → BitVec 32
  | some i => m.word (pointerAt environ i) + BitVec.ofNat 32 name.length + 1
  | none => 0

theorem getenvFrom_of_vectorAt (h : VectorAt m environ entries) (hnul : 0 ∉ name) {fuel i : Nat}
    (hi : i ≤ entries.length) (hfuel : entries.length < fuel + i) :
    getenvFrom m environ name fuel i = some (valueAt m environ name
      (((entries.drop i).findIdx? fun entry => name ++ [equalsSign] <+: entry).map (· + i))) := by
  induction fuel generalizing i with
  | zero => omega
  | succ fuel ih =>
      rw [getenvFrom]
      rcases Nat.lt_or_ge i entries.length with hlt | hge
      · obtain ⟨hpointer, hstring⟩ := h.entry i hlt
        rw [if_neg hpointer, List.drop_eq_getElem_cons hlt, List.findIdx?_cons]
        simp only [startsWith_iff hstring hnul, decide_eq_true_eq]
        split
        · rw [Option.map_some, Nat.zero_add]
          rfl
        · rw [ih hlt (by omega), Option.map_map]
          congr 3
          funext j
          change j + (i + 1) = j + 1 + i
          omega
      · obtain rfl : i = entries.length := by omega
        rw [if_pos h.last, List.drop_length]
        rfl

/-- `getenv` finds the first entry of the name if `environ` is the vector. -/
theorem getenv_of_vectorAt (h : VectorAt m environ entries) (hlen : entries.length < 2 ^ 30)
    (hname : name ≠ []) (heq : equalsSign ∉ name) (hnul : 0 ∉ name) :
    getenv m environ name = some (valueAt m environ name
      (entries.findIdx? fun entry => name ++ [equalsSign] <+: entry)) := by
  have hall := getenvFrom_of_vectorAt h hnul (Nat.zero_le _) (show entries.length < 2 ^ 30 + 0 from hlen)
  rw [List.drop_zero] at hall
  simp only [Nat.add_zero, Option.map_id'] at hall
  rw [getenv, if_neg (not_or.mpr ⟨hname, heq⟩), hall]

end Getenv

/-- `environ` is the vector of these strings, and `getenv` finds their values. -/
structure EnvironOk (m : Mem) (environ : BitVec 32) (entries : List (List UInt8)) : Prop where
  vector : VectorAt m environ entries
  getenv : ∀ name, name ≠ [] → equalsSign ∉ name → 0 ∉ name →
    getenv m environ name = some (valueAt m environ name
      (entries.findIdx? fun entry => name ++ [equalsSign] <+: entry))

/-- The scan of `getenv` is right, whatever the strings are. -/
theorem environOk_iff {m : Mem} {environ : BitVec 32} {entries : List (List UInt8)}
    (hlen : entries.length < 2 ^ 30) : EnvironOk m environ entries ↔ VectorAt m environ entries := by
  constructor
  · exact EnvironOk.vector
  · exact fun h => ⟨h, fun _ hname heq hnul => getenv_of_vectorAt h hlen hname heq hnul⟩

/-- The variable `environ` of the program is at `va`, inside of its image, and has the
initializer `NULL`. -/
structure EnvironSymbol (image : List UInt8) (va : BitVec 32) : Prop where
  inside : ∀ m, ∀ info ∈ (elfLoad image m).2, va.toNat + 4 ≤ info.maxOffset.toNat
  null : ∀ m, ∀ info ∈ (elfLoad image m).2, (elfLoad image m).1.word va = 0

/-- The image lies in the window of the process, and the arguments fit between the image
and the top of the stack. -/
def ArgumentsFit (image : List UInt8) (m : Mem) (argv envp : BitVec 32) : Prop :=
  ∀ info ∈ (elfLoad image m).2, info.maxOffset.toNat ≤ processVaBase + processVaSize ∧
    ∀ loaded ∈ initHeap info (elfLoad image m).1 argv envp,
      loaded.programEnd.toNat + loaded.used + 4 * initialWords loaded.trampoline ≤ processStackTop

section Start

variable {k k' : Kernel} {m m' : Mem} {pathname image : List UInt8} {argv envp va hang : BitVec 32}
  {tr : Trampoline} {entries : List (List UInt8)}

/-- The heap that a `sched_execve` which returns has set up. -/
theorem loaded_of_started (himage : findImage k.embeddedBins pathname = some image)
    (h : schedExecve k m pathname argv envp = some (k', m', .started tr)) :
    ∃ info loaded, (elfLoad image m).2 = some info ∧
      initHeap info (elfLoad image m).1 argv envp = some loaded ∧ loaded.mem = m' ∧
      loaded.trampoline = tr := by
  unfold schedExecve at h
  split at h
  · cases (Prod.mk.inj (Prod.mk.inj (Option.some.inj h)).2).2
  rw [himage] at h
  dsimp only at h
  split at h
  · obtain ⟨_, _, heq⟩ := Option.map_eq_some_iff.mp h
    cases (Prod.mk.inj (Prod.mk.inj heq).2).2
  next m₁ info hload =>
  split at h
  · obtain ⟨_, _, heq⟩ := Option.map_eq_some_iff.mp h
    cases (Prod.mk.inj (Prod.mk.inj heq).2).2
  obtain ⟨loaded, hinit, heq⟩ := Option.bind_eq_some_iff.mp h
  obtain ⟨hmem, hres⟩ := Prod.mk.inj (Prod.mk.inj (Option.some.inj heq)).2
  refine ⟨info, loaded, by rw [hload], by rw [hload]; exact hinit, hmem, ?_⟩
  exact ExecResult.started.inj hres

/-- When `main` starts `environ` still is the null pointer. -/
theorem environ_null (himage : findImage k.embeddedBins pathname = some image)
    (h : schedExecve k m pathname argv envp = some (k', m', .started tr))
    (hsym : EnvironSymbol image va) (hfit : ArgumentsFit image m argv envp) :
    (mainMemory m' tr hang).word va = 0 := by
  obtain ⟨info, loaded, hload, hinit, rfl, rfl⟩ := loaded_of_started himage h
  obtain ⟨hwindow, hroom⟩ := hfit info hload
  have hblock := hroom loaded hinit
  have hinside := hsym.inside m info hload
  have htop : processStackTop = 5238784 := by decide
  have hva : processVaBase = 4194304 := by decide
  have hsize : processVaSize = 1048576 := by decide
  have hend : loaded.programEnd.toNat = _ :=
    (congrArg BitVec.toNat (initHeap_programEnd hinit)).trans (toNat_alignUp (by omega))
  have hbelow (x : BitVec 32) (hx : x.toNat < info.maxOffset.toNat) :
      mainMemory loaded.mem loaded.trampoline hang x = (elfLoad image m).1 x := by
    obtain ⟨henviron, hcurbrk⟩ := elfLoad_offsets hload
    rw [mainMemory_outside (by omega)]
    apply initHeap_outside henviron hcurbrk hinit
    rw [BitVec.toNat_sub]
    omega
  rw [← hsym.null m info hload]
  have hone : (va + 1).toNat = va.toNat + 1 := by bv_omega
  have htwo : (va + 2).toNat = va.toNat + 2 := by bv_omega
  have hthree : (va + 3).toNat = va.toNat + 3 := by bv_omega
  simp only [Memory.word, hbelow va (by omega), hbelow (va + 1) (by omega),
    hbelow (va + 2) (by omega), hbelow (va + 3) (by omega)]

/-- No program sees its environment. -/
theorem environ_never (himage : findImage k.embeddedBins pathname = some image)
    (h : schedExecve k m pathname argv envp = some (k', m', .started tr))
    (hsym : EnvironSymbol image va) (hfit : ArgumentsFit image m argv envp)
    (entries : List (List UInt8)) :
    ¬ EnvironOk (mainMemory m' tr hang) ((mainMemory m' tr hang).word va) entries := by
  intro hok
  exact hok.vector.nonNull (environ_null himage h hsym hfit)

end Start

/-- The environment of one string, `A=1`. -/
def oneEntry : Mem :=
  Memory.fill (fun _ => 0) 0x4E0000
    (fun i => ([8, 0, 0x4E, 0, 0, 0, 0, 0] ++ cstr "A=1").getD i 0) 12

theorem oneEntry_stringAt : StringAt oneEntry 0x4E0008 (cstr "A=1") := by
  have hchars : ∀ i : Fin 3, oneEntry (0x4E0008 + BitVec.ofNat 32 i) = (cstr "A=1")[i] := by
    decide +kernel
  exact ⟨by decide, fun i hi => hchars ⟨i, hi⟩, by decide +kernel⟩

theorem oneEntry_vectorAt : VectorAt oneEntry 0x4E0000 [cstr "A=1"] := by
  refine ⟨by decide, fun i hi => ?_, by decide +kernel⟩
  obtain rfl : i = 0 := by simpa using hi
  have hpointer : oneEntry.word (pointerAt 0x4E0000 0) = 0x4E0008 := by decide +kernel
  rw [hpointer]
  exact ⟨by decide, oneEntry_stringAt⟩

theorem elfLoad_zerosElf (m : Mem) : elfLoad zerosElf m =
    (m.fill 0x400000 (fun _ => 0) 16, some ⟨0x400000, 0, 0x400010, 0, 0, 0⟩) := by
  have hheaders : elfProgramHeaders zerosElf = [⟨1, 84, 0x400000, 0, 16⟩] := rfl
  rw [elfLoad, if_neg (by decide), if_neg (by decide), hheaders]
  rfl

/-- `environ` of a program of zeros is its first word. -/
theorem zerosElf_environSymbol : EnvironSymbol zerosElf 0x400000 := by
  constructor
  · intro m info hinfo
    rw [elfLoad_zerosElf] at hinfo
    obtain rfl := Option.some.inj hinfo
    decide
  · intro m info _
    rw [elfLoad_zerosElf]
    have hzero (x : BitVec 32) (hx : (x - 0x400000).toNat < 16) :
        m.fill 0x400000 (fun _ => 0) 16 x = 0 := Memory.fill_inside m _ hx (by decide)
    simp only [Memory.word, hzero 0x400000 (by decide), hzero (0x400000 + 1) (by decide),
      hzero (0x400000 + 2) (by decide), hzero (0x400000 + 3) (by decide)]
    decide

/-- The shell starts itself anew with that environment. -/
theorem execve_oneEntry : ∃ k k' m' tr, findImage k.embeddedBins (cstr "/bin/sh") = some zerosElf ∧
    schedExecve k oneEntry (cstr "/bin/sh") 0 0x4E0000 = some (k', m', .started tr) ∧
    tr.envc = 1 ∧ ArgumentsFit zerosElf oneEntry 0 0x4E0000 := by
  obtain ⟨k, _, _, hcur, hbins⟩ := shell_reachable
  have himage : findImage k.embeddedBins (cstr "/bin/sh") = some zerosElf := by
    rw [hbins]
    decide +kernel
  obtain ⟨info, hload, hinfo⟩ := (Option.any_eq_true _ _).mp
    (show (elfLoad zerosElf oneEntry).2.any (fun info => info.maxOffset = 0x400010 ∧
      (initHeap info (elfLoad zerosElf oneEntry).1 0 0x4E0000).any fun loaded =>
        loaded.used = 16 ∧ loaded.trampoline.argc = 0 ∧ loaded.trampoline.envc = 1) by
      decide +kernel)
  obtain ⟨hend, hinit⟩ := of_decide_eq_true hinfo
  obtain ⟨loaded, hinit, hloaded⟩ := (Option.any_eq_true _ _).mp hinit
  obtain ⟨hused, hargc, henvc⟩ := of_decide_eq_true hloaded
  have hprogram : info.programEnd = 0x400010 := by
    rw [ElfInfo.programEnd, hend]
    decide
  have hexec := schedExecve_eq hcur himage hload (by rw [hprogram]; decide) hinit
  refine ⟨k, _, _, _, himage, hexec, henvc, ?_⟩
  intro info' hinfo'
  obtain rfl := Option.some.inj (hload.symm.trans hinfo')
  refine ⟨by rw [hend]; decide, fun loaded' hloaded' => ?_⟩
  obtain rfl := Option.some.inj (hinit.symm.trans hloaded')
  rw [initHeap_programEnd hinit, hprogram, hused, initialWords, hargc, henvc]
  decide

/-- `environ` is the null pointer in that program. -/
theorem environ_never_shell : ∃ k k' m' tr, findImage k.embeddedBins (cstr "/bin/sh") = some zerosElf ∧
    schedExecve k oneEntry (cstr "/bin/sh") 0 0x4E0000 = some (k', m', .started tr) ∧
    ¬ EnvironOk (mainMemory m' tr 0) ((mainMemory m' tr 0).word 0x400000) [cstr "A=1"] := by
  obtain ⟨k, k', m', tr, himage, hexec, _, hfit⟩ := execve_oneEntry
  exact ⟨k, k', m', tr, himage, hexec, environ_never himage hexec zerosElf_environSymbol hfit _⟩

/-- One string is passed, and the vector that `environ` stands for is not found. -/
theorem environ_unset : ∃ k k' m' tr, findImage k.embeddedBins (cstr "/bin/sh") = some zerosElf ∧
    EnvironSymbol zerosElf 0x400000 ∧ VectorAt oneEntry 0x4E0000 [cstr "A=1"] ∧
    schedExecve k oneEntry (cstr "/bin/sh") 0 0x4E0000 = some (k', m', .started tr) ∧
    tr.envc = 1 ∧ (mainMemory m' tr 0).word 0x400000 = 0 ∧
    ¬ EnvironOk (mainMemory m' tr 0) ((mainMemory m' tr 0).word 0x400000) [cstr "A=1"] := by
  obtain ⟨k, k', m', tr, himage, hexec, henvc, hfit⟩ := execve_oneEntry
  have hnull : (mainMemory m' tr 0).word 0x400000 = 0 :=
    environ_null himage hexec zerosElf_environSymbol hfit
  refine ⟨k, k', m', tr, himage, zerosElf_environSymbol, oneEntry_vectorAt, hexec, henvc, hnull, ?_⟩
  exact fun hok => hok.vector.nonNull hnull

end Punix
