import Punix.Fs.ProcPaths
import Punix.Fs.ProcRead

/-!
The tree of directories: the root, the mount points below it, and what the
listing of a directory names as a directory. Every directory has the path under
which it is listed, and opening that path comes back to it.
-/

namespace Punix

open Lib

theorem bytes_direntName {name : List UInt8} (hnul : 0 ∉ name)
    (hfits : name.length < maxFilenameLen) : (direntName name).bytes = name := by
  rw [direntName, CharArray.bytes_ofBytes (by rwa [strBytes_eq_self hnul]), strBytes_eq_self hnul]

theorem notMem_kItoa (value : BitVec 32) {c : UInt8} (h : ¬ (isDigit c ∨ c = minus)) :
    c ∉ kItoa value := fun hmem => h (mem_kItoa hmem)

/-- A number is a name. -/
theorem plainName_kItoa (value : BitVec 32) : PlainName (kItoa value) := by
  have hdot : dot ∉ kItoa value := notMem_kItoa value (by decide)
  refine ⟨kItoa_ne_nil value, fun h => hdot ?_, fun h => hdot ?_, notMem_kItoa value (by decide)⟩
  · rw [h]
    exact List.mem_singleton_self dot
  · rw [h]
    exact List.mem_cons_self

theorem bytes_direntName_kItoa (value : BitVec 32) :
    (direntName (kItoa value)).bytes = kItoa value := by
  have hlen := length_kItoa_le value
  exact bytes_direntName (notMem_kItoa value (by decide)) (by simp only [maxFilenameLen]; omega)

namespace Directory

/-- The names that lead to a directory. -/
def components (k : Kernel) : Directory → List (List UInt8)
  | .root => []
  | .sys => [cstr "sys"]
  | .dev => [cstr "dev"]
  | .bin => [cstr "bin"]
  | .proc => [cstr "proc"]
  | .pid t => [cstr "proc", pidStr (k.sched.task t).pid]
  | .fd t => [cstr "proc", pidStr (k.sched.task t).pid, cstr "fd"]

/-- The path under which a directory is listed. -/
def path (k : Kernel) (d : Directory) : List UInt8 := pathOf (d.components k)

/-- The directory is listed: `/proc` lists the tasks that are in use. -/
def Listed (k : Kernel) : Directory → Prop
  | .pid t => (k.sched.task t).state ≠ .pooled
  | .fd t => (k.sched.task t).state ≠ .pooled
  | _ => True

theorem plain_components (k : Kernel) (d : Directory) : ∀ c ∈ d.components k, PlainName c := by
  have hfixed : ∀ c ∈ [cstr "sys", cstr "dev", cstr "bin", cstr "proc", cstr "fd"],
      c ≠ [] ∧ c ≠ [dot] ∧ c ≠ [dot, dot] ∧ slash ∉ c := by
    decide
  have hname (c : List UInt8) (hc : c ∈ [cstr "sys", cstr "dev", cstr "bin", cstr "proc",
      cstr "fd"]) : PlainName c := by
    obtain ⟨h1, h2, h3, h4⟩ := hfixed c hc
    exact ⟨h1, h2, h3, h4⟩
  cases d with
  | root => exact List.forall_mem_nil _
  | sys => exact List.forall_mem_singleton.mpr (hname _ (by decide))
  | dev => exact List.forall_mem_singleton.mpr (hname _ (by decide))
  | bin => exact List.forall_mem_singleton.mpr (hname _ (by decide))
  | proc => exact List.forall_mem_singleton.mpr (hname _ (by decide))
  | pid t =>
      exact List.forall_mem_cons.mpr ⟨hname _ (by decide),
        List.forall_mem_singleton.mpr (plainName_kItoa _)⟩
  | fd t =>
      exact List.forall_mem_cons.mpr ⟨hname _ (by decide), List.forall_mem_cons.mpr
        ⟨plainName_kItoa _, List.forall_mem_singleton.mpr (hname _ (by decide))⟩⟩

end Directory

/-- The paths of directories: the root, the mount points below it, and the entries of
type `DT_DIR` of directories. -/
inductive DirectoryPath (k : Kernel) : List UInt8 → Prop
  | root : DirectoryPath k [slash]
  | mounted {i : Fin maxMounts} {name : List UInt8}
      (hname : mountName (k.vfs.mounts i) = some name) : DirectoryPath k (slash :: name)
  | entry {d : Directory} {e : Dirent} (hparent : DirectoryPath k (d.path k))
      (hentry : e ∈ d.entries k) (htype : e.dType = dtDir) (hdot : e.dName.bytes ≠ cstr ".")
      (hdots : e.dName.bytes ≠ cstr "..") :
      DirectoryPath k (pathOf (d.components k ++ [e.dName.bytes]))

section Tree

variable {k : Kernel} {path : List UInt8}

theorem mountName_boot (hboot : BootMounts k.vfs) {i : Fin maxMounts} {name : List UInt8}
    (h : mountName (k.vfs.mounts i) = some name) :
    name ∈ [cstr "sys", cstr "proc", cstr "dev", cstr "bin"] := by
  have hmem : k.vfs.mounts i ∈ (List.finRange maxMounts).map (kernelInit []).vfs.mounts := by
    rw [← hboot]
    exact List.mem_map_of_mem (List.mem_finRange i)
  have hnames : ∀ mount ∈ (List.finRange maxMounts).map (kernelInit []).vfs.mounts,
      ∀ name ∈ mountName mount, name ∈ [cstr "sys", cstr "proc", cstr "dev", cstr "bin"] := by
    rw [boot_mounts]
    decide +kernel
  exact hnames _ hmem name h

theorem mounted_boot (hboot : BootMounts k.vfs) {name : List UInt8}
    (h : name ∈ [cstr "sys", cstr "proc", cstr "dev", cstr "bin"]) :
    ∃ i, mountName (k.vfs.mounts i) = some name := by
  have hnames : ∀ name ∈ [cstr "sys", cstr "proc", cstr "dev", cstr "bin"],
      ∃ mount ∈ (List.finRange maxMounts).map (kernelInit []).vfs.mounts,
        mountName mount = some name := by
    rw [boot_mounts]
    decide +kernel
  obtain ⟨mount, hmem, hname⟩ := hnames name h
  obtain ⟨i, _, rfl⟩ := List.mem_map.mp hmem
  exact ⟨i, by rw [hboot, hname]⟩

theorem dName_of_mem_dotEntries {parentIno : Nat} {e : Dirent} (h : e ∈ dotEntries parentIno) :
    e.dName.bytes = cstr "." ∨ e.dName.bytes = cstr ".." := by
  have hdot : (direntName (cstr ".")).bytes = cstr "." := by decide
  have hdots : (direntName (cstr "..")).bytes = cstr ".." := by decide
  rcases List.mem_cons.mp h with rfl | h
  · exact .inl hdot
  · rw [List.mem_singleton.mp h]
    exact .inr hdots

theorem dName_of_mem_mountEntries (hboot : BootMounts k.vfs) {e : Dirent}
    (h : e ∈ mountEntries k.vfs) :
    e.dName.bytes ∈ [cstr "sys", cstr "proc", cstr "dev", cstr "bin"] := by
  obtain ⟨i, _, hi⟩ := List.mem_filterMap.mp h
  obtain ⟨name, hname, rfl⟩ := Option.map_eq_some_iff.mp hi
  have hmem := mountName_boot hboot hname
  have hbytes : ∀ name ∈ [cstr "sys", cstr "proc", cstr "dev", cstr "bin"],
      (direntName name).bytes = name := by
    decide
  rw [fsEntry, hbytes name hmem]
  exact hmem

theorem exists_mount_directory {name : List UInt8}
    (h : name ∈ [cstr "sys", cstr "proc", cstr "dev", cstr "bin"]) :
    ∃ d : Directory, d.Listed k ∧ d.components k = [name] := by
  simp only [List.mem_cons, List.not_mem_nil, or_false] at h
  rcases h with rfl | rfl | rfl | rfl
  · exact ⟨.sys, trivial, rfl⟩
  · exact ⟨.proc, trivial, rfl⟩
  · exact ⟨.dev, trivial, rfl⟩
  · exact ⟨.bin, trivial, rfl⟩

/-- What a directory lists as a directory is one. -/
theorem exists_subdirectory (hboot : BootMounts k.vfs) {d : Directory} {e : Dirent}
    (hlive : ∀ t, d = .pid t → (k.sched.task t).state ≠ .pooled) (hentry : e ∈ d.entries k)
    (htype : e.dType = dtDir) (hdot : e.dName.bytes ≠ cstr ".")
    (hdots : e.dName.bytes ≠ cstr "..") :
    ∃ d' : Directory, d'.Listed k ∧ d'.components k = d.components k ++ [e.dName.bytes] := by
  have hnotDot : ∀ parentIno, e ∉ dotEntries parentIno := fun _ hmem =>
    (dName_of_mem_dotEntries hmem).elim hdot hdots
  cases d with
  | root =>
      have hmount := (List.mem_append.mp hentry).resolve_left (hnotDot 1)
      exact exists_mount_directory (dName_of_mem_mountEntries hboot hmount)
  | sys => exact absurd hentry (hnotDot 2)
  | dev =>
      have hdevice := (List.mem_append.mp hentry).resolve_left (hnotDot 2)
      obtain ⟨i, _, hi⟩ := List.mem_filterMap.mp hdevice
      obtain ⟨_, heq⟩ := Option.ite_none_right_eq_some.mp hi
      obtain rfl := Option.some.inj heq
      exact absurd htype (show dtChr ≠ dtDir by decide)
  | bin =>
      have hbin := (List.mem_append.mp hentry).resolve_left (hnotDot 1)
      obtain ⟨⟨bin, i⟩, _, rfl⟩ := List.mem_map.mp hbin
      exact absurd htype (show dtReg ≠ dtDir by decide)
  | proc =>
      have hrest := (List.mem_append.mp hentry).resolve_left (hnotDot 1)
      rcases List.mem_cons.mp hrest with rfl | htask
      · exact absurd htype (by decide)
      · obtain ⟨t, ht, rfl⟩ := List.mem_map.mp htask
        have hstate : (k.sched.task t).state ≠ .pooled := by
          simpa using (List.mem_filter.mp ht).2
        refine ⟨.pid t, hstate, ?_⟩
        rw [fillDirentFromTask, bytes_direntName_kItoa]
        rfl
  | pid t =>
      have hleaf := (List.mem_append.mp hentry).resolve_left (hnotDot 1)
      have honly : ∀ e ∈ pidEntries, e.dType = dtDir → e.dName.bytes = cstr "fd" := by decide
      refine ⟨.fd t, hlive t rfl, ?_⟩
      rw [honly e hleaf htype]
      rfl
  | fd t =>
      have hlink := (List.mem_append.mp hentry).resolve_left (hnotDot 1)
      obtain ⟨i, _, hi⟩ := List.mem_filterMap.mp hlink
      obtain ⟨_, heq⟩ := Option.ite_none_right_eq_some.mp hi
      obtain rfl := Option.some.inj heq
      exact absurd htype (show dtLnk ≠ dtDir by decide)

theorem path_eq_iff {d d' : Directory} : d.path k = d'.path k ↔ d.components k = d'.components k :=
  ⟨pathOf_inj (d.plain_components k) (d'.plain_components k), fun h => by
    rw [Directory.path, h, Directory.path]⟩

/-- The paths of directories are the paths under which directories are listed. -/
theorem directoryPath_iff (hboot : BootMounts k.vfs) :
    DirectoryPath k path ↔ ∃ d : Directory, d.Listed k ∧ path = d.path k := by
  constructor
  · intro h
    induction h with
    | root => exact ⟨.root, trivial, rfl⟩
    | mounted hname =>
        obtain ⟨d, hlisted, hcomps⟩ := exists_mount_directory (mountName_boot hboot hname)
        exact ⟨d, hlisted, by rw [Directory.path, hcomps, pathOf_singleton]⟩
    | @entry d e _ hentry htype hdot hdots ih =>
        obtain ⟨d₀, hlisted, hsame⟩ := ih
        rw [path_eq_iff] at hsame
        have hsub : ∃ d' : Directory, d'.Listed k ∧
            d'.components k = d.components k ++ [e.dName.bytes] := by
          cases d with
          | pid t =>
              -- the directory of the same path that is listed has the same entries
              cases d₀ with
              | pid u =>
                  have hentry' : e ∈ (Directory.pid u).entries k := hentry
                  rw [hsame]
                  apply exists_subdirectory hboot _ hentry' htype hdot hdots
                  rintro _ ⟨⟩
                  exact hlisted
              | _ => exact absurd (congrArg List.length hsame) (by simp [Directory.components])
          | _ => exact exists_subdirectory hboot nofun hentry htype hdot hdots
        obtain ⟨d', hlisted', hcomps⟩ := hsub
        exact ⟨d', hlisted', by rw [Directory.path, hcomps]⟩
  · rintro ⟨d, hlisted, rfl⟩
    have hmount (name : List UInt8) (h : name ∈ [cstr "sys", cstr "proc", cstr "dev",
        cstr "bin"]) : DirectoryPath k (pathOf [name]) := by
      obtain ⟨i, hname⟩ := mounted_boot hboot h
      rw [pathOf_singleton]
      exact .mounted hname
    have htask (t : Slot) (h : (k.sched.task t).state ≠ .pooled) :
        DirectoryPath k ((Directory.pid t).path k) := by
      have hentry : fillDirentFromTask (k.sched.task t) ∈ Directory.proc.entries k := by
        refine List.mem_append_right _ (List.mem_cons_of_mem _ (List.mem_map_of_mem ?_))
        exact List.mem_filter.mpr ⟨List.mem_finRange t, by simpa using h⟩
      have hname : (fillDirentFromTask (k.sched.task t)).dName.bytes =
          pidStr (k.sched.task t).pid := bytes_direntName_kItoa _
      have hplain := plainName_kItoa (BitVec.ofInt 32 (k.sched.task t).pid)
      have hsub := DirectoryPath.entry (d := .proc) (hmount (cstr "proc") (by decide)) hentry rfl
        (by rw [hname]; exact hplain.ne_dot) (by rw [hname]; exact hplain.ne_dots)
      rw [hname] at hsub
      exact hsub
    cases d with
    | root => exact .root
    | sys => exact hmount _ (by decide)
    | dev => exact hmount _ (by decide)
    | bin => exact hmount _ (by decide)
    | proc => exact hmount _ (by decide)
    | pid t => exact htask t hlisted
    | fd t =>
        have hentry : fsEntry 1 dtDir (cstr "fd") ∈ (Directory.pid t).entries k :=
          List.mem_append_right _ (by decide)
        exact .entry (htask t hlisted) hentry rfl (by decide) (by decide)

end Tree

section Proc

variable {pid : Int}

/-- A path below the directory of a task. -/
def taskPath (pid : Int) (rest : List UInt8) : List UInt8 := cstr "/proc/" ++ pidStr pid ++ rest

theorem pidStr_natCast (n : Nat) : pidStr n = kItoa (BitVec.ofNat 32 n) := by
  rw [pidStr, BitVec.ofInt_natCast]

theorem notMem_taskPath {rest : List UInt8} (h : 0 ∉ rest) : 0 ∉ taskPath pid rest := by
  intro hmem
  rcases List.mem_append.mp hmem with hmem | hmem
  · rcases List.mem_append.mp hmem with hmem | hmem
    · exact absurd hmem (by decide)
    · exact notMem_kItoa _ (by decide) hmem
  · exact h hmem

/-- The path is that of the task, and what stands behind the pid is left. -/
theorem taskPath_spec {rest : List UInt8} (hpid : 0 ≤ pid) (hmax : pid ≤ 2147483647)
    (hrest : rest = [] ∨ rest.headD 0 = slash) :
    procPathToPid (taskPath pid rest) = pid ∧ skipPid (taskPath pid rest) = rest := by
  obtain ⟨n, rfl⟩ := Int.eq_ofNat_of_zero_le hpid
  have hn : n < 2 ^ 31 := by omega
  have hdigits : Digits (pidStr n) := by
    rw [pidStr_natCast]
    exact ⟨kItoa_ne_nil _, fun c => isDigit_kItoa hn⟩
  have hends : ComponentEnds rest := hrest.imp_left fun hnil => by rw [hnil]; rfl
  have hvalue : asInt (decimalValue (pidStr n)) = n := by
    rw [pidStr_natCast, decimalValue_kItoa hn]
    exact asInt_of_lt hn
  constructor
  · have hread := procPathToPid_digitsPath hdigits hends.not_isDigit
    rwa [if_pos hends, hvalue] at hread
  · exact skipPid_digitsPath hdigits hends.not_isDigit

theorem procIsRoot_taskPath {rest : List UInt8} (h : 0 ∉ rest) :
    procIsRoot (taskPath pid rest) = false := by
  have hnul : 0 ∉ taskPath pid rest := notMem_taskPath h
  have hlen : 6 < (taskPath pid rest).length := by
    have hdigits := List.length_pos_of_ne_nil (kItoa_ne_nil (BitVec.ofInt 32 pid))
    have hmount : (cstr "/proc/").length = 6 := rfl
    rw [taskPath, List.length_append, List.length_append, hmount, pidStr]
    omega
  have hne (name : List UInt8) (hname : name.length ≤ 6) : taskPath pid rest ≠ name := by
    rintro heq
    rw [heq] at hlen
    omega
  simp only [procIsRoot, kStrcmp_eq_zero hnul (show 0 ∉ cstr "/proc" by decide),
    kStrcmp_eq_zero hnul (show 0 ∉ cstr "/proc/" by decide), hne (cstr "/proc") (by decide),
    hne (cstr "/proc/") (by decide), or_self, decide_false]

variable (s : Scheduler)

theorem procDirectory_pid (hpid : 0 ≤ pid) (hmax : pid ≤ 2147483647) :
    procDirectory s (taskPath pid []) = (taskTableFindTaskByPid s pid).map .pid := by
  obtain ⟨hnum, hrest⟩ := taskPath_spec hpid hmax (.inl rfl)
  have hsome : pid ≠ pidNone := by
    rw [pidNone]
    omega
  have hfd : procIsFdDir (taskPath pid []) = none := by
    simp only [procIsFdDir, hnum, if_neg hsome, hrest]
    rfl
  have hdir : procIsPidDir (taskPath pid []) = some pid := by
    simp only [procIsPidDir, hnum, if_neg hsome, hrest]
    rfl
  rw [procDirectory, procIsRoot_taskPath (by simp), hfd, hdir]
  rfl

theorem procDirectory_fd (hpid : 0 ≤ pid) (hmax : pid ≤ 2147483647) :
    procDirectory s (taskPath pid (cstr "/fd")) = (taskTableFindTaskByPid s pid).map .fd := by
  obtain ⟨hnum, hrest⟩ := taskPath_spec hpid hmax (show _ ∨ (cstr "/fd").headD 0 = slash from .inr rfl)
  have hsome : pid ≠ pidNone := by
    rw [pidNone]
    omega
  have hfd : procIsFdDir (taskPath pid (cstr "/fd")) = some pid := by
    simp only [procIsFdDir, hnum, if_neg hsome, hrest]
    rfl
  rw [procDirectory, procIsRoot_taskPath (by decide), hfd]
  rfl

/-- A task without a pid has no directory that can be opened. -/
theorem procDirectory_pidNone {rest : List UInt8} (h : rest ∈ [[], cstr "/fd"]) :
    procDirectory s (taskPath pidNone rest) = none := by
  have hpath : ∀ rest ∈ [[], cstr "/fd"], procIsRoot (taskPath pidNone rest) = false ∧
      procIsFdDir (taskPath pidNone rest) = none ∧
        procIsPidDir (taskPath pidNone rest) = none := by
    decide
  obtain ⟨hroot, hfd, hpid⟩ := hpath rest h
  rw [procDirectory, hroot, hfd, hpid]
  rfl

end Proc

namespace Directory

variable {k : Kernel} {log : List TableEvent}

/-- The directory is not that of a slot without a pid. -/
def Allocated (log : List TableEvent) : Directory → Prop
  | .pid t => heldPid log t ≠ none
  | .fd t => heldPid log t ≠ none
  | _ => True

theorem path_pid (t : Slot) : (pid t).path k = taskPath (k.sched.task t).pid [] := by
  rw [path, components, pathOf_cons, pathOf_singleton, taskPath, List.append_nil]
  rfl

theorem path_fd (t : Slot) : (fd t).path k = taskPath (k.sched.task t).pid (cstr "/fd") := by
  rw [path, components, pathOf_cons, pathOf_cons, pathOf_singleton, taskPath]
  simp only [List.cons_append, List.append_assoc]
  rfl

/-- Opening the path of a directory comes to the directory. -/
theorem opened_path (hinv : TableInv k.sched log) {d : Directory} (h : d.Allocated log) :
    (topFs ((d.components k).headD [])).opened k (d.path k) = some d := by
  have hfound (t : Slot) (ht : heldPid log t ≠ none) : 0 ≤ (k.sched.task t).pid ∧
      (k.sched.task t).pid ≤ 2147483647 ∧
      taskTableFindTaskByPid k.sched (k.sched.task t).pid = some t := by
    obtain ⟨p, hp⟩ := Option.ne_none_iff_exists'.mp ht
    obtain ⟨hpid, hpos, hmax⟩ := hinv.ok.pid_eq t p hp
    rw [hpid]
    exact ⟨hpos, hmax, (hinv.ok.find_iff p t).mpr hp⟩
  cases d with
  | root => rfl
  | sys => rfl
  | dev =>
      have hself : Fs.dev.opened k (cstr "/dev") = some dev := by
        rw [Fs.opened, if_pos (Or.inl rfl)]
      exact hself
  | bin =>
      have hself : Fs.bin.opened k (cstr "/bin") = some bin := by
        rw [Fs.opened, if_pos (Or.inl rfl)]
      exact hself
  | proc => rfl
  | pid t =>
      obtain ⟨hpos, hmax, hfind⟩ := hfound t h
      have hopened := procDirectory_pid k.sched hpos hmax
      rw [hfind, ← path_pid] at hopened
      exact hopened
  | fd t =>
      obtain ⟨hpos, hmax, hfind⟩ := hfound t h
      have hopened := procDirectory_fd k.sched hpos hmax
      rw [hfind, ← path_fd] at hopened
      exact hopened

theorem opened_path_none (hinv : TableInv k.sched log) {d : Directory} (h : ¬ d.Allocated log) :
    (topFs ((d.components k).headD [])).opened k (d.path k) = none := by
  have hnone (t : Slot) (ht : ¬ heldPid log t ≠ none) : (k.sched.task t).pid = pidNone := by
    rw [hinv.pid t, not_not.mp ht, Option.getD_none]
  cases d with
  | pid t =>
      have hopened := procDirectory_pidNone k.sched (show [] ∈ [[], cstr "/fd"] by decide)
      rw [← hnone t h, ← path_pid] at hopened
      exact hopened
  | fd t =>
      have hopened := procDirectory_pidNone k.sched (show cstr "/fd" ∈ [[], cstr "/fd"] by decide)
      rw [← hnone t h, ← path_fd] at hopened
      exact hopened
  | _ => exact absurd trivial h

/-- What a path of a directory opens is that directory. -/
theorem eq_of_opened_path (hinv : TableInv k.sched log) {d d' : Directory}
    (h : (topFs ((d.components k).headD [])).opened k (d.path k) = some d') : d' = d := by
  by_cases halloc : d.Allocated log
  · rw [opened_path hinv halloc] at h
    exact (Option.some.inj h).symm
  · rw [opened_path_none hinv halloc] at h
    cases h

end Directory

end Punix
