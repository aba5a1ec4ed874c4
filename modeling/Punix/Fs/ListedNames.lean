import Punix.Fs.Tree
import Punix.Fs.TreeMachine
import Punix.Fs.Chdir

/-!
Whether what a directory lists can be opened. Listing and opening are separate in every
filesystem. They agree but for `/bin`, which lists the last components of the names of all
programs and looks up whole names: what is not directly below `/bin` is listed there and
not found.
-/

namespace Punix

open Lib

/-- The kernel from its initialization on, with the history of the task table. Open files,
descriptors, directories and the other fields of tasks may change in any way. -/
def namesMachine : Machine (Kernel × List TableEvent) TableEvent where
  init x := ∃ bins, x = (kernelInit bins, [])
  step x e y := y.2 = e :: x.2 ∧ e.Step x.1.sched x.2 y.1.sched ∧
    y.1.vfs.mounts = x.1.vfs.mounts ∧ y.1.devices = x.1.devices ∧
    y.1.embeddedBins = x.1.embeddedBins

structure NamesInv (k : Kernel) (log : List TableEvent) : Prop where
  table : TableInv k.sched log
  mounts : BootMounts k.vfs
  devices : k.devices = (kernelInit []).devices

theorem NamesInv.of_reachable {x : Kernel × List TableEvent} (h : namesMachine.Reachable x) :
    NamesInv x.1 x.2 := by
  apply h.invariant
  · rintro _ ⟨bins, rfl⟩
    have hinit := TreeInv.init bins
    exact ⟨hinit.table, hinit.mounts, hinit.devices⟩
  · rintro ⟨k, log⟩ e ⟨k', log'⟩ hinv _ ⟨rfl, htable, hmounts, hdevices, _⟩
    exact ⟨hinv.table.step htable, hmounts.trans hinv.mounts, hdevices.trans hinv.devices⟩

section Paths

variable {k : Kernel} {t : Slot} {components : List (List UInt8)}

/-- A path of names that fits is resolved to itself. -/
theorem resolvedPath_pathOf (hplain : ∀ c ∈ components, PlainName c) (hnul : 0 ∉ pathOf components)
    (hlen : (pathOf components).length ≤ maxFilenameLen - 2) :
    (resolvedPath k t (pathOf components)).bytes = pathOf components := by
  have hstr := strBytes_eq_self hnul
  have hcanonical : canonicalPath (pathOf components) = pathOf components :=
    PathName.canonical_join hplain
  have hwhole : (pathOf components).take (maxFilenameLen - 1) = pathOf components :=
    List.take_of_length_le (by omega)
  rw [resolvedPath_absolute k t ⟨PathName.join slash components, hstr⟩, hstr, hwhole, hcanonical,
    List.take_of_length_le hlen]

/-- With a file and a descriptor at hand the filesystem decides, by what does not depend on
them. -/
theorem vfsOpen_accepts_iff {pathname : List UInt8} {c : Prop} (hboot : BootMounts k.vfs)
    (hpath : (resolvedPath k t pathname).bytes = pathOf components)
    (hplain : ∀ c ∈ components, PlainName c)
    (haccepts : ∀ k₁ i fd, takeDescriptor k t = some (k₁, i, fd) →
      ((topFs (components.headD [])).Accepts k₁ (pathOf components) ↔ c)) (flags mode : Int) :
    (∃ k' r, vfsOpen k t pathname flags mode = some (k', r) ∧ 0 ≤ r) ↔
      takeDescriptor k t ≠ none ∧ c := by
  rw [vfsOpen_iff hboot hpath hplain]
  constructor
  · rintro ⟨k₁, i, fd, htake, hfs⟩
    refine ⟨?_, (haccepts k₁ i fd htake).mp hfs⟩
    rw [htake]
    exact nofun
  · rintro ⟨htake, hc⟩
    obtain ⟨⟨k₁, i, fd⟩, htake⟩ := Option.ne_none_iff_exists'.mp htake
    exact ⟨k₁, i, fd, htake, (haccepts k₁ i fd htake).mpr hc⟩

/-- What the filesystems look at, besides the descriptor that is added. -/
theorem takeDescriptor_frame {k₁ : Kernel} {i : FileRef} {fd : Fin rlimitNofile}
    (h : takeDescriptor k t = some (k₁, i, fd)) :
    k₁.sched = k.sched ∧ k₁.devices = k.devices ∧ k₁.embeddedBins = k.embeddedBins ∧
      ∀ u d, ((k.files u).slots d).isSome → ((k₁.files u).slots d).isSome := by
  obtain ⟨vfs, files, _, hfd, rfl⟩ := takeDescriptor_eq_some h
  obtain ⟨rfl, _⟩ := filesAllocFd_eq_some hfd
  refine ⟨rfl, rfl, rfl, ?_⟩
  intro u d hopen
  by_cases hu : u = t
  · subst hu
    by_cases hd : d = fd
    · simp [Kernel.setFiles, hd]
    · simpa [Kernel.setFiles, hd] using hopen
  · simpa [Kernel.setFiles, hu] using hopen

end Paths

/-- An absolute path name: it starts with a slash and ends in the name of the program. -/
def AbsoluteName (name : List UInt8) : Prop :=
  0 ∉ name ∧ name.length < maxFilenameLen ∧ ∃ dir base, name = dir ++ slash :: base ∧
    base ≠ [] ∧ slash ∉ base ∧ (dir = [] ∨ ∃ rest, dir = slash :: rest)

/-- The lookup finds what the directory lists under a name: in `/bin` it has to be the whole
name of a program, as much of it as `vfs_open` keeps; and a task needs a pid. -/
def NameFound (k : Kernel) (name : List UInt8) : Directory → Prop
  | .bin => (findBin k.embeddedBins
      ((pathOf [cstr "bin", name]).take (maxFilenameLen - 2))).isSome
  | .proc => name ≠ pidStr pidNone
  | _ => True

/-- The search from the end comes to the last separator first. -/
theorem find?_tails_reverse {c : UInt8} {after : List UInt8} (hafter : c ∉ after)
    (before : List UInt8) :
    (before ++ c :: after).tails.reverse.find? (fun rest => rest.head? = some c) =
      some (c :: after) := by
  induction before with
  | nil =>
      have hnone : after.tails.reverse.find? (fun rest => rest.head? = some c) = none := by
        rw [List.find?_eq_none]
        intro rest hrest
        have hsuffix := (List.mem_tails rest after).mp (List.mem_reverse.mp hrest)
        rw [decide_eq_true_eq]
        intro hhead
        exact hafter (hsuffix.subset (List.mem_of_head? hhead))
      rw [List.nil_append, List.tails_cons, List.reverse_cons, List.find?_append, hnone]
      simp
  | cons b before ih =>
      rw [List.cons_append, List.tails_cons, List.reverse_cons, List.find?_append, ih]
      rfl

theorem binBaseName_absolute {dir base : List UInt8} (hnul : 0 ∉ dir ++ slash :: base)
    (hbase : base ≠ []) (hslash : slash ∉ base) : binBaseName (dir ++ slash :: base) = base := by
  have hlast : kStrrchr (dir ++ slash :: base) slash = some (slash :: base) := by
    rw [kStrrchr, strBytes_eq_self hnul]
    exact find?_tails_reverse hslash dir
  rw [binBaseName, hlast]
  dsimp only
  rw [List.tail_cons, if_pos hbase]

section Names

variable {k : Kernel} {log : List TableEvent} {t u : Slot} {e : Dirent} {name : List UInt8}

/-- `vfs_open` of a path of names that fits. -/
theorem vfsOpen_pathOf_iff {components : List (List UInt8)} {c : Prop} (hboot : BootMounts k.vfs)
    (hplain : ∀ c ∈ components, PlainName c) (hnul : 0 ∉ pathOf components)
    (hlen : (pathOf components).length ≤ maxFilenameLen - 2)
    (haccepts : ∀ k₁ i fd, takeDescriptor k t = some (k₁, i, fd) →
      ((topFs (components.headD [])).Accepts k₁ (pathOf components) ↔ c)) (flags mode : Int) :
    (∃ k' r, vfsOpen k t (pathOf components) flags mode = some (k', r) ∧ 0 ≤ r) ↔
      takeDescriptor k t ≠ none ∧ c :=
  vfsOpen_accepts_iff hboot (resolvedPath_pathOf hplain hnul hlen) hplain haccepts flags mode

theorem plainName_of (h : name ≠ [] ∧ name ≠ [dot] ∧ name ≠ [dot, dot] ∧ slash ∉ name) :
    PlainName name := ⟨h.1, h.2.1, h.2.2.1, h.2.2.2⟩

/-- The mount points. -/
theorem open_mountName (hboot : BootMounts k.vfs)
    (h : name ∈ [cstr "sys", cstr "proc", cstr "dev", cstr "bin"]) (flags mode : Int) :
    (∃ k' r, vfsOpen k t (pathOf [name]) flags mode = some (k', r) ∧ 0 ≤ r) ↔
      takeDescriptor k t ≠ none ∧ True := by
  have hfixed : ∀ name ∈ [cstr "sys", cstr "proc", cstr "dev", cstr "bin"],
      (name ≠ [] ∧ name ≠ [dot] ∧ name ≠ [dot, dot] ∧ slash ∉ name) ∧
        0 ∉ pathOf [name] ∧ (pathOf [name]).length ≤ maxFilenameLen - 2 := by
    decide
  obtain ⟨hplain, hnul, hlen⟩ := hfixed name h
  apply vfsOpen_pathOf_iff hboot (List.forall_mem_singleton.mpr (plainName_of hplain)) hnul hlen
  intro k₁ _ _ _
  apply iff_true_intro
  simp only [List.mem_cons, List.not_mem_nil, or_false] at h
  rcases h with rfl | rfl | rfl | rfl
  · exact rfl
  · exact Or.inl (by decide)
  · exact Or.inl rfl
  · exact Or.inl rfl

/-- The devices have names that fit and that they are found under. -/
theorem bootDevices_names : ∀ i, ((kernelInit []).devices i).active →
    (direntName ((kernelInit []).devices i).name.bytes).bytes =
        ((kernelInit []).devices i).name.bytes ∧
      (((kernelInit []).devices i).name.bytes ≠ [] ∧
        ((kernelInit []).devices i).name.bytes ≠ [dot] ∧
        ((kernelInit []).devices i).name.bytes ≠ [dot, dot] ∧
        slash ∉ ((kernelInit []).devices i).name.bytes) ∧
      0 ∉ ((kernelInit []).devices i).name.bytes ∧
      ((kernelInit []).devices i).name.bytes.length ≤ 57 ∧
      (devLookup (kernelInit []).devices ((kernelInit []).devices i).name.bytes).isSome := by
  decide +kernel

theorem length_pathOf_pair (first second : List UInt8) :
    (pathOf [first, second]).length = first.length + second.length + 2 := by
  rw [pathOf_cons, pathOf_singleton, List.length_append, List.length_cons, List.length_cons]
  omega

theorem notMem_pathOf_pair {first second : List UInt8} (h : 0 ∉ first) (h' : 0 ∉ second) :
    0 ∉ pathOf [first, second] := by
  rw [pathOf_cons, pathOf_singleton, List.mem_append, List.mem_cons, List.mem_cons]
  have hslash : ¬ (0 : UInt8) = slash := by decide
  simp [h, h', hslash]

theorem plainName_fixed : PlainName (cstr "dev") ∧ PlainName (cstr "bin") ∧
    PlainName (cstr "proc") ∧ PlainName (cstr "fd") := by
  refine ⟨?_, ?_, ?_, ?_⟩
  · exact plainName_of (by decide)
  · exact plainName_of (by decide)
  · exact plainName_of (by decide)
  · exact plainName_of (by decide)

theorem open_deviceName (hinv : NamesInv k log) (h : e ∈ deviceEntries k.devices)
    (flags mode : Int) :
    (∃ k' r, vfsOpen k t (pathOf [cstr "dev", e.dName.bytes]) flags mode = some (k', r) ∧ 0 ≤ r) ↔
      takeDescriptor k t ≠ none ∧ True := by
  rw [hinv.devices] at h
  obtain ⟨i, _, hi⟩ := List.mem_filterMap.mp h
  obtain ⟨hactive, heq⟩ := Option.ite_none_right_eq_some.mp hi
  obtain rfl := Option.some.inj heq
  obtain ⟨hname, hplain, hnul, hlen, hfound⟩ := bootDevices_names i hactive
  rw [fsEntry, hname]
  generalize ((kernelInit []).devices i).name.bytes = name at hplain hnul hlen hfound
  have hthree : (cstr "dev").length = 3 := rfl
  apply vfsOpen_pathOf_iff hinv.mounts
  · exact List.forall_mem_cons.mpr ⟨plainName_fixed.1,
      List.forall_mem_singleton.mpr (plainName_of hplain)⟩
  · exact notMem_pathOf_pair (by decide) hnul
  · rw [length_pathOf_pair, hthree, maxFilenameLen]
    omega
  · intro k₁ _ _ htake
    obtain ⟨_, hdevices, _⟩ := takeDescriptor_frame htake
    apply iff_true_intro
    right
    have hdrop : (pathOf [cstr "dev", name]).drop 5 = name := by
      rw [drop_five_pathOf_cons hthree, PathName.join_singleton]
    rw [hdrop, hdevices, hinv.devices]
    exact hfound

theorem plainName_take (h : PlainName name) {n : Nat} (hn : 2 < n) : PlainName (name.take n) := by
  have hsame (short : List UInt8) (hlen : short.length ≤ 2) (heq : name.take n = short) :
      name = short := by
    have hcut := congrArg List.length heq
    rw [List.length_take] at hcut
    rwa [List.take_of_length_le (by omega)] at heq
  constructor
  · exact fun heq => h.ne_nil (hsame [] (by decide) heq)
  · exact fun heq => h.ne_dot (hsame [dot] (by decide) heq)
  · exact fun heq => h.ne_dots (hsame [dot, dot] (by decide) heq)
  · exact fun hmem => h.sep_notMem (List.mem_of_mem_take hmem)

theorem take_pathOf_bin (name : List UInt8) (n : Nat) :
    (pathOf [cstr "bin", name]).take (5 + n) = pathOf [cstr "bin", name.take n] := by
  have hmount : ∀ name, pathOf [cstr "bin", name] = cstr "/bin/" ++ name := by
    intro name
    rw [pathOf_cons, pathOf_singleton]
    rfl
  have hfive : (cstr "/bin/").length = 5 := rfl
  rw [hmount, hmount, ← hfive]
  exact List.take_length_add_append n

/-- A name in `/bin`, which may be too long for `vfs_open`. -/
theorem open_binName (hboot : BootMounts k.vfs) (hname : PlainName name) (hnul : 0 ∉ name)
    (flags mode : Int) :
    (∃ k' r, vfsOpen k t (pathOf [cstr "bin", name]) flags mode = some (k', r) ∧ 0 ≤ r) ↔
      takeDescriptor k t ≠ none ∧ (findBin k.embeddedBins
        ((pathOf [cstr "bin", name]).take (maxFilenameLen - 2))).isSome := by
  have hthree : (cstr "bin").length = 3 := rfl
  have hcut : (pathOf [cstr "bin", name]).take (maxFilenameLen - 2) =
      pathOf [cstr "bin", name.take 57] := take_pathOf_bin name 57
  have hplain (n : Nat) (hn : 2 < n) : ∀ c ∈ [cstr "bin", name.take n], PlainName c :=
    List.forall_mem_cons.mpr ⟨plainName_fixed.2.1,
      List.forall_mem_singleton.mpr (plainName_take hname hn)⟩
  have hpath : (resolvedPath k t (pathOf [cstr "bin", name])).bytes =
      pathOf [cstr "bin", name.take 57] := by
    have hstr := strBytes_eq_self (notMem_pathOf_pair (show 0 ∉ cstr "bin" by decide) hnul)
    have hfirst : (pathOf [cstr "bin", name]).take (maxFilenameLen - 1) =
        pathOf [cstr "bin", name.take 58] := take_pathOf_bin name 58
    have hcanonical : canonicalPath (pathOf [cstr "bin", name.take 58]) =
        pathOf [cstr "bin", name.take 58] := PathName.canonical_join (hplain 58 (by decide))
    have hsecond : (pathOf [cstr "bin", name.take 58]).take (maxFilenameLen - 2) =
        pathOf [cstr "bin", (name.take 58).take 57] := take_pathOf_bin (name.take 58) 57
    rw [resolvedPath_absolute k t ⟨PathName.join slash [cstr "bin", name], hstr⟩, hstr, hfirst,
      hcanonical, hsecond, List.take_take]
    rfl
  rw [hcut]
  apply vfsOpen_accepts_iff hboot hpath (hplain 57 (by decide))
  intro k₁ _ _ htake
  obtain ⟨_, _, hbins, _⟩ := takeDescriptor_frame htake
  have hnotMount : pathOf [cstr "bin", name.take 57] ≠ cstr "/bin" := by
    intro heq
    have hnil : [name.take 57] = [] := pathOf_eq_mount_iff.mp heq
    cases hnil
  have haccepts : (topFs (cstr "bin")).Accepts k₁ (pathOf [cstr "bin", name.take 57]) ↔
      pathOf [cstr "bin", name.take 57] = cstr "/bin" ∨
        (findBin k₁.embeddedBins (pathOf [cstr "bin", name.take 57])).isSome := Iff.rfl
  rw [List.headD_cons, haccepts, or_iff_right hnotMount, hbins]

/-- A program is listed under the last component of its name. -/
theorem dName_of_mem_binEntries (hnames : ∀ bin ∈ k.embeddedBins, AbsoluteName bin.name)
    (h : e ∈ binEntries k.embeddedBins) :
    e.dName.bytes ≠ [] ∧ slash ∉ e.dName.bytes ∧ 0 ∉ e.dName.bytes := by
  obtain ⟨⟨bin, i⟩, hmem, rfl⟩ := List.mem_map.mp h
  obtain ⟨hnul, hlen, dir, base, hname, hbase, hslash, -⟩ :=
    hnames bin (List.fst_mem_of_mem_zipIdx hmem)
  have hnulBase : 0 ∉ base := by
    intro hmem
    apply hnul
    rw [hname]
    exact List.mem_append_right _ (List.mem_cons_of_mem _ hmem)
  have hfits : base.length < maxFilenameLen := by
    rw [hname, List.length_append, List.length_cons] at hlen
    omega
  rw [hname] at hnul
  have hbytes : (fillDirentFromBin bin (i + 1)).dName.bytes = base := by
    rw [fillDirentFromBin, hname, binBaseName_absolute hnul hbase hslash]
    exact bytes_direntName hnulBase hfits
  dsimp only
  rw [hbytes]
  exact ⟨hbase, hslash, hnulBase⟩

/-- A task that has a pid is found under it. -/
theorem TableInv.find_self (h : TableInv k.sched log) (hpid : (k.sched.task u).pid ≠ pidNone) :
    0 ≤ (k.sched.task u).pid ∧ (k.sched.task u).pid ≤ 2147483647 ∧
      taskTableFindTaskByPid k.sched (k.sched.task u).pid = some u := by
  have hheld : heldPid log u ≠ none := by
    intro hnone
    rw [h.pid u, hnone] at hpid
    exact hpid rfl
  obtain ⟨p, hp⟩ := Option.ne_none_iff_exists'.mp hheld
  obtain ⟨heq, hpos, hmax⟩ := h.ok.pid_eq u p hp
  rw [heq]
  exact ⟨hpos, hmax, (h.ok.find_iff p u).mpr hp⟩

/-- A path below the directory of a task. -/
theorem procNamed_taskPath (h : TableInv k.sched log) (hpid : (k.sched.task u).pid ≠ pidNone)
    {k₁ : Kernel} (hsched : k₁.sched = k.sched) {rest : List UInt8}
    (hrest : rest = [] ∨ rest.headD 0 = slash)
    (hleaf : ProcLeaf k₁ u (taskPath (k.sched.task u).pid rest) rest) :
    ProcNamed k₁ (taskPath (k.sched.task u).pid rest) := by
  obtain ⟨hpos, hmax, hfind⟩ := h.find_self hpid
  obtain ⟨hnum, hskip⟩ := taskPath_spec hpos hmax hrest
  right
  right
  refine ⟨u, ?_, ?_⟩
  · rw [hnum, hsched]
    exact hfind
  · rw [hskip]
    exact hleaf

/-- The paths of tasks are short. -/
theorem taskPath_pathOf (pid : Int) {names : List (List UInt8)}
    (hplain : ∀ c ∈ names, PlainName c) (hnul : 0 ∉ PathName.join slash names)
    (hlen : (PathName.join slash names).length ≤ 20) :
    (∀ c ∈ cstr "proc" :: pidStr pid :: names, PlainName c) ∧
      0 ∉ pathOf (cstr "proc" :: pidStr pid :: names) ∧
      (pathOf (cstr "proc" :: pidStr pid :: names)).length ≤ maxFilenameLen - 2 := by
  have hdigits : (pidStr pid).length ≤ 16 := length_kItoa_le _
  have hpid : 0 ∉ pidStr pid := notMem_kItoa _ (by decide)
  have hfour : (cstr "proc").length = 4 := rfl
  refine ⟨?_, ?_, ?_⟩
  · exact List.forall_mem_cons.mpr ⟨plainName_fixed.2.2.1,
      List.forall_mem_cons.mpr ⟨plainName_kItoa _, hplain⟩⟩
  · cases names with
    | nil => exact notMem_pathOf_pair (by decide) hpid
    | cons next names =>
        rw [pathOf_cons, pathOf_cons, pathOf, List.mem_append, List.mem_append]
        have hslash : ¬ (0 : UInt8) = slash := by decide
        have hproc : 0 ∉ cstr "proc" := by decide
        simp [hproc, hpid, hnul, hslash]
  · cases names with
    | nil =>
        rw [length_pathOf_pair, hfour, maxFilenameLen]
        omega
    | cons next names =>
        rw [pathOf_cons, pathOf_cons, pathOf, List.length_append, List.length_append,
          List.length_cons, List.length_cons, List.length_cons, hfour, maxFilenameLen]
        omega

/-- The tasks in `/proc`. -/
theorem open_taskName (hinv : NamesInv k log) (u : Slot) (flags mode : Int) :
    (∃ k' r, vfsOpen k t (pathOf [cstr "proc", pidStr (k.sched.task u).pid]) flags mode =
        some (k', r) ∧ 0 ≤ r) ↔
      takeDescriptor k t ≠ none ∧ pidStr (k.sched.task u).pid ≠ pidStr pidNone := by
  have hnil : ∀ c ∈ ([] : List (List UInt8)), PlainName c := List.forall_mem_nil _
  have hnames := taskPath_pathOf (k.sched.task u).pid hnil (by decide) (by decide)
  apply vfsOpen_pathOf_iff hinv.mounts hnames.1 hnames.2.1 hnames.2.2
  intro k₁ _ _ htake
  obtain ⟨hsched, _⟩ := takeDescriptor_frame htake
  have hpath := Directory.path_pid (k := k) u
  rw [Directory.path, Directory.components] at hpath
  rw [hpath]
  by_cases hpid : (k.sched.task u).pid = pidNone
  · have habsent : ¬ procIsRoot (taskPath pidNone []) ∧ taskPath pidNone [] ≠ cstr "/proc/stat" ∧
        taskTableFindTaskByPid k₁.sched (procPathToPid (taskPath pidNone [])) = none := by
      refine ⟨by decide, by decide, ?_⟩
      have hnone : procPathToPid (taskPath pidNone []) = pidNone := by decide
      rw [hnone]
      rfl
    rw [hpid]
    refine iff_of_false ?_ (fun h => h rfl)
    rintro (hroot | hstat | ⟨v, hfind, _⟩)
    · exact habsent.1 hroot
    · exact habsent.2.1 hstat
    · rw [habsent.2.2] at hfind
      cases hfind
  · refine iff_of_true (procNamed_taskPath hinv.table hpid hsched (.inl rfl) (.inl rfl)) ?_
    obtain ⟨hpos, hmax, _⟩ := hinv.table.find_self hpid
    obtain ⟨n, hn⟩ := Int.eq_ofNat_of_zero_le hpos
    have hminus : minus ∈ pidStr pidNone := by decide
    rw [hn, pidStr_natCast]
    intro heq
    rw [← heq] at hminus
    have hdigit := isDigit_kItoa (show n < 2 ^ 31 by omega) hminus
    exact absurd hdigit (by decide)

theorem open_procStat (hboot : BootMounts k.vfs) (flags mode : Int) :
    (∃ k' r, vfsOpen k t (pathOf [cstr "proc", cstr "stat"]) flags mode = some (k', r) ∧ 0 ≤ r) ↔
      takeDescriptor k t ≠ none ∧ cstr "stat" ≠ pidStr pidNone := by
  apply vfsOpen_pathOf_iff hboot
  · exact List.forall_mem_cons.mpr ⟨plainName_fixed.2.2.1,
      List.forall_mem_singleton.mpr (plainName_of (by decide))⟩
  · decide
  · decide
  · intro k₁ _ _ _
    refine iff_of_true ?_ (by decide)
    right
    left
    decide

/-- What stands below a task. -/
theorem open_taskLeaf (hinv : NamesInv k log) (hpid : (k.sched.task u).pid ≠ pidNone)
    (h : e ∈ pidEntries) (flags mode : Int) :
    (∃ k' r, vfsOpen k t (pathOf [cstr "proc", pidStr (k.sched.task u).pid, e.dName.bytes])
        flags mode = some (k', r) ∧ 0 ≤ r) ↔ takeDescriptor k t ≠ none ∧ True := by
  have hfixed : ∀ e ∈ pidEntries, (e.dName.bytes ≠ [] ∧ e.dName.bytes ≠ [dot] ∧
      e.dName.bytes ≠ [dot, dot] ∧ slash ∉ e.dName.bytes) ∧
        0 ∉ PathName.join slash [e.dName.bytes] ∧
        (PathName.join slash [e.dName.bytes]).length ≤ 20 ∧
        e.dName.bytes ∈ procLeaves.map cstr := by
    decide
  obtain ⟨hplain, hnul, hlen, hleaf⟩ := hfixed e h
  have hnames := taskPath_pathOf (k.sched.task u).pid
    (List.forall_mem_singleton.mpr (plainName_of hplain)) hnul hlen
  apply vfsOpen_pathOf_iff hinv.mounts hnames.1 hnames.2.1 hnames.2.2
  intro k₁ _ _ htake
  obtain ⟨hsched, _⟩ := takeDescriptor_frame htake
  apply iff_true_intro
  have hpath : pathOf [cstr "proc", pidStr (k.sched.task u).pid, e.dName.bytes] =
      taskPath (k.sched.task u).pid (slash :: e.dName.bytes) := by
    rw [pathOf_cons, pathOf_cons, pathOf_singleton, taskPath]
    simp only [List.cons_append, List.append_assoc]
    rfl
  rw [hpath]
  exact procNamed_taskPath hinv.table hpid hsched (.inr rfl)
    (.inr (.inr ⟨e.dName.bytes, rfl, .inl hleaf⟩))

/-- The descriptors of a task. -/
theorem open_fdName (hinv : NamesInv k log) (hpid : (k.sched.task u).pid ≠ pidNone)
    (h : e ∈ fdEntries (k.files u)) (flags mode : Int) :
    (∃ k' r, vfsOpen k t (pathOf [cstr "proc", pidStr (k.sched.task u).pid, cstr "fd",
        e.dName.bytes]) flags mode = some (k', r) ∧ 0 ≤ r) ↔
      takeDescriptor k t ≠ none ∧ True := by
  obtain ⟨fd, _, hfd⟩ := List.mem_filterMap.mp h
  obtain ⟨hopen, heq⟩ := Option.ite_none_right_eq_some.mp hfd
  obtain rfl := Option.some.inj heq
  have hlt : (fd : Nat) < 16 := fd.isLt
  have hbytes : (fsEntry (fd + 10) dtLnk (kItoa (BitVec.ofNat 32 fd))).dName.bytes =
      kItoa (BitVec.ofNat 32 fd) := bytes_direntName_kItoa _
  rw [hbytes]
  have hnul : 0 ∉ kItoa (BitVec.ofNat 32 fd) := notMem_kItoa _ (by decide)
  have hplain : ∀ c ∈ [cstr "fd", kItoa (BitVec.ofNat 32 fd)], PlainName c :=
    List.forall_mem_cons.mpr ⟨plainName_fixed.2.2.2,
      List.forall_mem_singleton.mpr (plainName_kItoa _)⟩
  have hjoin : PathName.join slash [cstr "fd", kItoa (BitVec.ofNat 32 fd)] =
      cstr "fd/" ++ kItoa (BitVec.ofNat 32 fd) := by
    rw [PathName.join_cons_cons, PathName.join_singleton]
    rfl
  have hjoinNul : 0 ∉ PathName.join slash [cstr "fd", kItoa (BitVec.ofNat 32 fd)] := by
    rw [hjoin, List.mem_append, not_or]
    exact ⟨by decide, hnul⟩
  have hjoinLen : (PathName.join slash [cstr "fd", kItoa (BitVec.ofNat 32 fd)]).length ≤ 20 := by
    have hlen := length_kItoa_le (BitVec.ofNat 32 fd)
    have hthree : (cstr "fd/").length = 3 := rfl
    rw [hjoin, List.length_append, hthree]
    omega
  have hnames := taskPath_pathOf (k.sched.task u).pid hplain hjoinNul hjoinLen
  apply vfsOpen_pathOf_iff hinv.mounts hnames.1 hnames.2.1 hnames.2.2
  intro k₁ _ _ htake
  obtain ⟨hsched, _, _, hkept⟩ := takeDescriptor_frame htake
  apply iff_true_intro
  have hpath : pathOf [cstr "proc", pidStr (k.sched.task u).pid, cstr "fd",
      kItoa (BitVec.ofNat 32 fd)] =
      taskPath (k.sched.task u).pid (cstr "/fd/" ++ kItoa (BitVec.ofNat 32 fd)) := by
    rw [pathOf_cons, pathOf_cons, pathOf_cons, pathOf_singleton, taskPath]
    simp only [List.cons_append, List.append_assoc]
    rfl
  rw [hpath]
  apply procNamed_taskPath hinv.table hpid hsched (.inr rfl)
  right
  right
  refine ⟨cstr "fd/" ++ kItoa (BitVec.ofNat 32 fd), rfl, .inr ⟨List.prefix_append _ _, fd, ?_, ?_⟩⟩
  · obtain ⟨hpos, hmax, _⟩ := hinv.table.find_self hpid
    obtain ⟨n, hn⟩ := Int.eq_ofNat_of_zero_le hpos
    have hdigits : Digits (pidStr (k.sched.task u).pid) := by
      rw [hn, pidStr_natCast]
      exact ⟨kItoa_ne_nil _, fun c => isDigit_kItoa (show n < 2 ^ 31 by omega)⟩
    have hread : kAtoi (kItoa (BitVec.ofNat 32 fd) ++ []) = fd := kAtoi_kItoa (by omega) (by decide)
    rw [List.append_nil] at hread
    exact (procExtractFdNum_digitsPath hdigits hnul).trans hread
  · exact hkept u fd hopen

end Names

section Listing

variable {k : Kernel} {fd : Int} {i : FileRef} {d : Directory} {e : Dirent} {count : BitVec 32}

theorem call_short {file : File} {getdents : GetdentsFn} (hcount : count.toNat < sizeofDirent) :
    (getdents.call k file true count).entries = [] := by
  have hnone (fill : Nat → GetdentsResult) : (getdentsOnce file true count fill).entries = [] := by
    rw [getdentsOnce, if_pos (.inr hcount)]
  cases getdents <;>
    simp only [GetdentsFn.call, rootGetdents, sysGetdents, procGetdents, devGetdents, binGetdents,
      hnone]

/-- A call of `vfs_getdents` stores entries of the directory. -/
theorem mem_entries_of_getdents (hfile : currentFile k fd = some i)
    (hdir : (k.vfs.files i).directory k = some d) (h : e ∈ getdentsEntries k fd count) :
    e ∈ d.entries k := by
  obtain ⟨getdents, hops⟩ := File.getdents_of_directory hdir
  rw [(vfsGetdents_open count hfile hops).2] at h
  rcases Nat.lt_or_ge count.toNat sizeofDirent with hshort | hcount
  · rw [call_short hshort] at h
    cases h
  by_cases hpos : (k.vfs.files i).pos = 0
  · rw [call_first hops hdir hcount hpos] at h
    have hlisted : e ∈ d.listed k (count.toNat / sizeofDirent) := h
    unfold Directory.listed at hlisted
    split at hlisted
    · exact hlisted
    · exact List.mem_of_mem_take hlisted
  · rw [call_later true hpos] at h
    cases h

/-- The directories of tasks are found by their pids. -/
theorem pid_of_directory {file : File} {u : Slot} (hdir : file.directory k = some d)
    (hd : d = .pid u ∨ d = .fd u) : (k.sched.task u).pid ≠ pidNone := by
  unfold File.directory at hdir
  split at hdir
  · cases hdir
  · rcases hd with rfl | rfl <;> cases hdir
  · rcases hd with rfl | rfl <;> cases hdir
  · rcases hd with rfl | rfl <;> cases hdir
  · rcases hd with rfl | rfl <;> cases hdir
  · rcases procDirectory_eq_some hdir with ⟨_, rfl⟩ | ⟨_, p, t, hfind, hfound⟩
    · simp at hd
    · have hsame : t = u := by
        rcases hfound with ⟨_, rfl⟩ | ⟨_, _, rfl⟩
        · simpa using hd
        · simpa using hd
      exact hsame ▸ pid_ne_pidNone_of_find hfind

/-- In every state, what `vfs_getdents` lists of a directory can be opened if and only if
there is a file and a descriptor and the lookup finds the name. -/
theorem vfsOpen_listed_iff {x : Kernel × List TableEvent} (hx : namesMachine.Reachable x)
    (hbins : ∀ bin ∈ x.1.embeddedBins, AbsoluteName bin.name)
    (hfile : currentFile x.1 fd = some i) (hdir : (x.1.vfs.files i).directory x.1 = some d)
    (he : e ∈ getdentsEntries x.1 fd count) (hdot : e.dName.bytes ≠ cstr ".")
    (hdots : e.dName.bytes ≠ cstr "..") (t : Slot) (flags mode : Int) :
    (∃ k' r, vfsOpen x.1 t (pathOf (d.components x.1 ++ [e.dName.bytes])) flags mode =
        some (k', r) ∧ 0 ≤ r) ↔
      takeDescriptor x.1 t ≠ none ∧ NameFound x.1 e.dName.bytes d := by
  have hinv := NamesInv.of_reachable hx
  have hentry := mem_entries_of_getdents hfile hdir he
  have hnotDot : ∀ parentIno, e ∉ dotEntries parentIno := fun _ hmem =>
    (dName_of_mem_dotEntries hmem).elim hdot hdots
  cases d with
  | root =>
      have hmount := (List.mem_append.mp hentry).resolve_left (hnotDot 1)
      exact open_mountName hinv.mounts (dName_of_mem_mountEntries hinv.mounts hmount) flags mode
  | sys => exact absurd hentry (hnotDot 2)
  | dev =>
      have hdevice := (List.mem_append.mp hentry).resolve_left (hnotDot 2)
      exact open_deviceName hinv hdevice flags mode
  | bin =>
      have hbin := (List.mem_append.mp hentry).resolve_left (hnotDot 1)
      obtain ⟨hne, hslash, hnul⟩ := dName_of_mem_binEntries hbins hbin
      exact open_binName hinv.mounts ⟨hne, hdot, hdots, hslash⟩ hnul flags mode
  | proc =>
      have hrest := (List.mem_append.mp hentry).resolve_left (hnotDot 1)
      rcases List.mem_cons.mp hrest with rfl | htask
      · have hbytes : (fsEntry 1 dtReg (cstr "stat")).dName.bytes = cstr "stat" := by decide
        rw [hbytes]
        exact open_procStat hinv.mounts flags mode
      · obtain ⟨u, _, rfl⟩ := List.mem_map.mp htask
        have hbytes : (fillDirentFromTask (x.1.sched.task u)).dName.bytes =
            pidStr (x.1.sched.task u).pid := bytes_direntName_kItoa _
        rw [hbytes]
        exact open_taskName hinv u flags mode
  | pid u =>
      have hleaf := (List.mem_append.mp hentry).resolve_left (hnotDot 1)
      exact open_taskLeaf hinv (pid_of_directory hdir (.inl rfl)) hleaf flags mode
  | fd u =>
      have hlink := (List.mem_append.mp hentry).resolve_left (hnotDot 1)
      exact open_fdName hinv (pid_of_directory hdir (.inr rfl)) hlink flags mode

end Listing

/-- The states of the kernel as far as its directories are concerned are among these. -/
theorem namesMachine_of_tree {x : Kernel × List TableEvent} (h : treeMachine.Reachable x) :
    ∃ log, namesMachine.Reachable (x.1, log) ∧ heldPid log = heldPid x.2 := by
  induction h with
  | init hinit =>
      obtain ⟨bins, rfl⟩ := hinit
      exact ⟨[], .init ⟨bins, rfl⟩, rfl⟩
  | @step x y e hreach _ hs ih =>
      obtain ⟨log, hnames, hheld⟩ := ih
      have hinv := TreeInv.of_reachable hreach
      obtain ⟨k, old⟩ := x
      obtain ⟨k', new⟩ := y
      have hother (htable : SameTable k.sched k'.sched) (hmounts : k'.vfs.mounts = k.vfs.mounts)
          (hdevices : k'.devices = k.devices) (hbins : k'.embeddedBins = k.embeddedBins)
          (hlog : new = old) :
          ∃ log, namesMachine.Reachable (k', log) ∧ heldPid log = heldPid new :=
        ⟨.other :: log, hnames.step (e := .other) trivial
          ⟨rfl, htable, hmounts, hdevices, hbins⟩, hlog ▸ hheld⟩
      have hrefl (s : Scheduler) : SameTable s s := ⟨rfl, rfl, rfl, fun _ => rfl, fun _ => rfl⟩
      have hworld (hsame : SameWorld k k') (hlog : new = old) :
          ∃ log, namesMachine.Reachable (k', log) ∧ heldPid log = heldPid new :=
        hother (hsame.sched ▸ hrefl k.sched) hsame.mounts hsame.devices hsame.bins hlog
      cases e with
      | openFile t pathname flags mode =>
          obtain ⟨hlog, r, hrun⟩ := hs
          exact hworld (vfsOpen_same hrun) hlog
      | close t fd =>
          obtain ⟨hlog, r, hrun⟩ := hs
          exact hworld (vfsClose_same hrun) hlog
      | closeAll t =>
          obtain ⟨hlog, hrun⟩ := hs
          exact hworld (closeAllFiles_same hrun) hlog
      | getdents fd hasBuf count =>
          obtain ⟨hlog, hrun⟩ := hs
          obtain rfl : k' = (vfsGetdents k fd hasBuf count).2.2 := hrun
          exact hworld (vfsGetdents_same k fd hasBuf count) hlog
      | chdir path =>
          obtain ⟨hlog, r, hrun⟩ := hs
          obtain ⟨k₁, _, hsame, heq⟩ := vfsChdir_frame hinv.files hrun
          rcases heq with heq | ⟨t, path, _, heq⟩
          · obtain rfl : k' = k₁ := heq
            exact hworld hsame hlog
          · obtain rfl : k' = _ := heq
            refine hother ?_ hsame.mounts hsame.devices hsame.bins hlog
            dsimp only
            rw [hsame.sched]
            exact k.sched.sameTable_modifyTask t rfl
      | other e =>
          obtain ⟨rfl, hwork⟩ := hs
          refine ⟨e :: log, hnames.step (e := e) trivial
            ⟨rfl, ?_, hwork.mounts, hwork.devices, hwork.bins⟩, ?_⟩
          · have htable := hwork.table
            cases e with
            | free t =>
                obtain ⟨hne, hfree⟩ := htable
                exact ⟨hheld ▸ hne, hfree⟩
            | _ => exact htable
          · cases e <;> simp only [heldPid, hheld]

theorem shellBins_absolute : ∀ bin ∈ shellBins, AbsoluteName bin.name := by
  intro bin hmem
  simp only [shellBins, List.mem_cons, List.not_mem_nil, or_false] at hmem
  rcases hmem with rfl | rfl
  · exact ⟨by decide, by decide, cstr "/sbin", cstr "swapper", rfl, by decide, by decide,
      .inr ⟨_, rfl⟩⟩
  · exact ⟨by decide, by decide, cstr "/bin", cstr "sh", rfl, by decide, by decide,
      .inr ⟨_, rfl⟩⟩

/-- The swapper has opened `/bin`. -/
theorem binOpened : ∃ k log i, namesMachine.Reachable (k, log) ∧ currentFile k 0 = some i ∧
    (k.vfs.files i).directory k = some .bin ∧
    (getdentsEntries k 0 4096).map (fun e => e.dName.bytes) =
      [cstr ".", cstr "..", cstr "swapper", cstr "sh"] ∧
    takeDescriptor k 0 ≠ none ∧ k.embeddedBins = shellBins := by
  have hopened : ∃ k i, vfsOpen (runningKernel shellBins) 0 (cstr "/bin") 0 0 = some (k, 0) ∧
      currentFile k 0 = some i ∧ (k.vfs.files i).directory k = some .bin ∧
      (getdentsEntries k 0 4096).map (fun e => e.dName.bytes) =
        [cstr ".", cstr "..", cstr "swapper", cstr "sh"] ∧
      (takeDescriptor k 0).isSome ∧ k.embeddedBins = shellBins := by
    refine ⟨_, _, rfl, rfl, rfl, ?_, ?_, rfl⟩
    · decide +kernel
    · decide +kernel
  obtain ⟨k, i, hopen, hfile, hdir, hlisted, htake, hbins⟩ := hopened
  have htree : treeMachine.Reachable (k, [.other, .alloc 0 0]) :=
    (runningKernel_reachable shellBins).step (e := .openFile 0 (cstr "/bin") 0 0) trivial
      ⟨rfl, 0, hopen⟩
  obtain ⟨log, hreach, -⟩ := namesMachine_of_tree htree
  exact ⟨k, log, i, hreach, hfile, hdir, hlisted, Option.isSome_iff_ne_none.mp htake, hbins⟩

/-- The shell is found under the name that is listed. -/
theorem vfsOpen_listed_iff_shell : ∃ k e, e.dName.bytes = cstr "sh" ∧
    e ∈ getdentsEntries k 0 4096 ∧
    ∃ k' r, vfsOpen k 0 (pathOf (Directory.bin.components k ++ [e.dName.bytes])) 0 0 =
      some (k', r) ∧ 0 ≤ r := by
  obtain ⟨k, log, i, hreach, hfile, hdir, hlisted, htake, hbins⟩ := binOpened
  have hmem : cstr "sh" ∈ (getdentsEntries k 0 4096).map fun e => e.dName.bytes := by
    rw [hlisted]
    decide
  obtain ⟨e, he, hname⟩ := List.mem_map.mp hmem
  have hfound : NameFound k e.dName.bytes .bin := by
    rw [hname, NameFound, hbins]
    decide +kernel
  have habsolute : ∀ bin ∈ k.embeddedBins, AbsoluteName bin.name := by
    rw [hbins]
    exact shellBins_absolute
  refine ⟨k, e, hname, he, ?_⟩
  exact (vfsOpen_listed_iff hreach habsolute hfile hdir he (by rw [hname]; decide)
    (by rw [hname]; decide) 0 0 0).mpr ⟨htake, hfound⟩

/-- `/bin` lists `swapper`, and there is a file and a descriptor, but `/bin/swapper` cannot
be opened. -/
theorem swapper_listed : ∃ k log i e, namesMachine.Reachable (k, log) ∧
    (∀ bin ∈ k.embeddedBins, AbsoluteName bin.name) ∧ currentFile k 0 = some i ∧
    (k.vfs.files i).directory k = some .bin ∧ e ∈ getdentsEntries k 0 4096 ∧
    e.dName.bytes = cstr "swapper" ∧ takeDescriptor k 0 ≠ none ∧
    ∀ flags mode, ¬ ∃ k' r, vfsOpen k 0 (pathOf [cstr "bin", e.dName.bytes]) flags mode =
      some (k', r) ∧ 0 ≤ r := by
  obtain ⟨k, log, i, hreach, hfile, hdir, hlisted, htake, hbins⟩ := binOpened
  have hmem : cstr "swapper" ∈ (getdentsEntries k 0 4096).map fun e => e.dName.bytes := by
    rw [hlisted]
    decide
  obtain ⟨e, he, hname⟩ := List.mem_map.mp hmem
  have habsolute : ∀ bin ∈ k.embeddedBins, AbsoluteName bin.name := by
    rw [hbins]
    exact shellBins_absolute
  refine ⟨k, log, i, e, hreach, habsolute, hfile, hdir, he, hname, htake, ?_⟩
  intro flags mode
  have hmounts := (NamesInv.of_reachable hreach).mounts
  rw [hname, open_binName hmounts (plainName_of (by decide)) (by decide) flags mode, hbins]
  exact fun h => absurd h.2 (by decide +kernel)

end Punix
