import Punix.Fs.Mounts
import Punix.Fs.Listing

/-!
Which paths can be opened, and on which directory the file then is. The
filesystems decide this by the path alone: the files of `/dev` and `/bin` get
the listing of the directory they are in, and the root filesystem accepts every
path.
-/

namespace Punix

open Lib

section MountDir

variable {name next : List UInt8} {rest : List (List UInt8)}

theorem drop_pathOf_cons (h3 : name.length = 3) :
    (pathOf (name :: next :: rest)).drop 4 = pathOf (next :: rest) := by
  rw [pathOf_cons, List.drop_left' (by rw [List.length_cons, h3])]

theorem pathOf_ne_nil (rest : List (List UInt8)) (h : PlainName next) :
    ∃ b tail, PathName.join slash (next :: rest) = b :: tail ∧ b ∈ next := by
  obtain ⟨b, tail, rfl⟩ := List.exists_cons_of_ne_nil h.ne_nil
  cases rest with
  | nil => exact ⟨b, tail, PathName.join_singleton .., List.mem_cons_self⟩
  | cons _ _ =>
      rw [PathName.join_cons_cons, List.cons_append]
      exact ⟨b, _, rfl, List.mem_cons_self⟩

theorem kStrncmp_pathOf (h3 : name.length = 3) (hname : 0 ∉ name) :
    kStrncmp 4 (pathOf (name :: rest)) (slash :: name) = 0 := by
  have hnul : 0 ∉ slash :: name := by
    rw [List.mem_cons, not_or]
    exact ⟨by decide, hname⟩
  have h4 : (slash :: name).length = 4 := by rw [List.length_cons, h3]
  rw [← h4, kStrncmp_eq_zero hnul]
  cases rest with
  | nil => rw [pathOf_singleton]
  | cons next rest =>
      rw [pathOf_cons]
      exact List.prefix_append _ _

theorem getD_pathOf_cons (h3 : name.length = 3) (n : Nat) :
    (pathOf (name :: next :: rest)).getD (4 + n) 0 = (pathOf (next :: rest)).getD n 0 := by
  have hdrop : (pathOf (name :: next :: rest)).drop 4 = pathOf (next :: rest) :=
    drop_pathOf_cons h3
  rw [← hdrop, List.getD_eq_getElem?_getD, List.getD_eq_getElem?_getD, List.getElem?_drop]

theorem drop_five_pathOf_cons (h3 : name.length = 3) :
    (pathOf (name :: next :: rest)).drop 5 = PathName.join slash (next :: rest) := by
  rw [← List.drop_drop (i := 1) (j := 4), drop_pathOf_cons h3]
  rfl

/-- The mount point itself, and not a path below it. -/
theorem isMountDir_pathOf (h3 : name.length = 3) (hplain : ∀ c ∈ rest, PlainName c)
    (hnul : ∀ c ∈ rest, 0 ∉ c) : isMountDir (pathOf (name :: rest)) = true ↔ rest = [] := by
  cases rest with
  | nil =>
      have hend : (slash :: name).getD 4 0 = 0 := by
        rw [List.getD_eq_getElem?_getD, List.getElem?_eq_none (by rw [List.length_cons, h3])]
        rfl
      simp only [isMountDir, pathOf_singleton, hend, decide_eq_true_eq, true_or]
  | cons next rest =>
      obtain ⟨b, tail, hjoin, hb⟩ := pathOf_ne_nil rest (hplain next List.mem_cons_self)
      have h4 : (pathOf (name :: next :: rest)).getD 4 0 = slash := getD_pathOf_cons h3 0
      have h5 : (pathOf (name :: next :: rest)).getD 5 0 = b := by
        rw [getD_pathOf_cons h3 1, pathOf, hjoin]
        rfl
      have hb0 : b ≠ 0 := fun heq => hnul next List.mem_cons_self (heq ▸ hb)
      have hslash : slash ≠ 0 := by decide
      simp only [isMountDir, h4, h5, decide_eq_true_eq, hb0, hslash, and_false, or_false,
        reduceCtorEq]

theorem pathOf_eq_mount_iff : pathOf (name :: rest) = slash :: name ↔ rest = [] := by
  cases rest with
  | nil => simp [pathOf_singleton]
  | cons next rest =>
      rw [pathOf_cons]
      simp [pathOf]

/-- No canonical path ends in a separator. -/
theorem pathOf_ne_mount_slash (h3 : name.length = 3) (hplain : ∀ c ∈ rest, PlainName c) :
    pathOf (name :: rest) ≠ slash :: name ++ [slash] := by
  intro heq
  have hlast : (slash :: name ++ [slash]).drop 5 = [] :=
    List.drop_eq_nil_of_le (by simp [h3])
  cases rest with
  | nil =>
      rw [pathOf_singleton] at heq
      simpa using congrArg List.length heq
  | cons next rest =>
      obtain ⟨b, tail, hjoin, _⟩ := pathOf_ne_nil rest (hplain next List.mem_cons_self)
      rw [← heq, drop_five_pathOf_cons h3, hjoin] at hlast
      cases hlast

end MountDir

/-- The directory that a file opened on a path lists. -/
def Fs.opened (k : Kernel) (path : List UInt8) : Fs → Option Directory
  | .root => some .root
  | .sys => if path = cstr "/sys" then some .sys else none
  | .proc => procDirectory k.sched path
  | .dev =>
      if path = cstr "/dev" ∨ (devLookup k.devices (path.drop 5)).isSome then some .dev else none
  | .bin =>
      if path = cstr "/bin" ∨ (findBin k.embeddedBins path).isSome then some .bin else none

/-- The directory that `vfs_open` comes to on a canonical path. -/
def openedDirectory (k : Kernel) (path : List UInt8) : Option Directory :=
  (pathToFs k.vfs path).bind (Fs.opened k path)

/-- The descriptor that a path of `/proc` ends in is open. -/
def ProcFdOpen (files : Files) (path : List UInt8) : Prop :=
  ∃ fd : Fin rlimitNofile, procExtractFdNum path = fd ∧ (files.slots fd).isSome

/-- The names below a task that `proc_open` knows. -/
def procLeaves : List String := ["comm", "cmdline", "stat", "status", "cwd", "exe", "fd", "fd/"]

/-- What may stand behind the pid of a task. -/
def ProcLeaf (k : Kernel) (t : Slot) (path rest : List UInt8) : Prop :=
  rest = [] ∨ rest = [slash] ∨ ∃ leaf, rest = slash :: leaf ∧
    (leaf ∈ procLeaves.map cstr ∨
      cstr "fd/" <+: leaf ∧ ProcFdOpen (k.files t) path)

/-- The paths that `proc_open` accepts. -/
def ProcNamed (k : Kernel) (path : List UInt8) : Prop :=
  procIsRoot path ∨ path = cstr "/proc/stat" ∨
    ∃ t, taskTableFindTaskByPid k.sched (procPathToPid path) = some t ∧
      ProcLeaf k t path (skipPid path)

/-- The paths that the filesystems accept. -/
def Fs.Accepts (k : Kernel) (path : List UInt8) : Fs → Prop
  | .root => True
  | .sys => path = cstr "/sys"
  | .proc => ProcNamed k path
  | .dev => path = cstr "/dev" ∨ (devLookup k.devices (path.drop 5)).isSome
  | .bin => path = cstr "/bin" ∨ (findBin k.embeddedBins path).isSome

theorem notMem_skipPid {path : List UInt8} (h : 0 ∉ path) : 0 ∉ skipPid path := fun hmem =>
  h (List.mem_of_mem_drop ((List.dropWhile_sublist _).subset hmem))

theorem headD_eq_zero_iff {s : List UInt8} (h : 0 ∉ s) : s.headD 0 = 0 ↔ s = [] := by
  cases s with
  | nil => simp
  | cons b s => simpa using fun heq : b = 0 => h (by simp [heq])

theorem eq_cons_of_headD {α : Type} {s : List α} {b d : α} (h : s.headD d = b) (hb : b ≠ d) :
    ∃ rest, s = b :: rest := by
  cases s with
  | nil => exact absurd h.symm hb
  | cons c s => exact ⟨s, by rw [List.headD_cons] at h; rw [h]⟩

/-- The end of a path, or a separator and then the end. -/
theorem atEnd_iff {rest : List UInt8} (h : 0 ∉ rest) :
    rest.headD 0 = 0 ∨ rest.headD 0 = slash ∧ rest.getD 1 0 = 0 ↔ rest = [] ∨ rest = [slash] := by
  apply or_congr (headD_eq_zero_iff h)
  constructor
  · rintro ⟨hslash, hsecond⟩
    obtain ⟨leaf, rfl⟩ := eq_cons_of_headD hslash (by decide)
    rw [List.mem_cons, not_or] at h
    have hhead : leaf.headD 0 = (slash :: leaf).getD 1 0 := by cases leaf <;> rfl
    rw [(headD_eq_zero_iff h.2).mp (hhead.trans hsecond)]
  · rintro rfl
    exact ⟨rfl, rfl⟩

theorem any_procLeaves {leaf : List UInt8} (h : 0 ∉ leaf) :
    (procLeaves.any fun name => kStrcmp leaf (cstr name) = 0) = true ↔
      leaf ∈ procLeaves.map cstr := by
  have hnames : ∀ name ∈ procLeaves, 0 ∉ cstr name := by decide
  simp only [List.any_eq_true, decide_eq_true_eq, List.mem_map]
  constructor
  · rintro ⟨name, hmem, heq⟩
    exact ⟨name, hmem, ((kStrcmp_eq_zero h (hnames name hmem)).mp heq).symm⟩
  · rintro ⟨name, hmem, rfl⟩
    exact ⟨name, hmem, (kStrcmp_eq_zero h h).mpr rfl⟩

theorem procFdOpen_iff {files : Files} {path : List UInt8} :
    ProcFdOpen files path ↔ ∃ h : 0 ≤ procExtractFdNum path ∧ procExtractFdNum path < rlimitNofile,
      (files.slots ⟨(procExtractFdNum path).toNat, toNat_lt_rlimitNofile h⟩).isSome := by
  constructor
  · rintro ⟨fd, heq, hopen⟩
    have hlt := fd.isLt
    refine ⟨by omega, ?_⟩
    simpa [heq] using hopen
  · rintro ⟨hrange, hopen⟩
    refine ⟨_, ?_, hopen⟩
    simp only
    omega

theorem procLeaf_cons {k : Kernel} {t : Slot} {path leaf : List UInt8} (hne : leaf ≠ []) :
    ProcLeaf k t path (slash :: leaf) ↔
      leaf ∈ procLeaves.map cstr ∨ cstr "fd/" <+: leaf ∧ ProcFdOpen (k.files t) path := by
  simp [ProcLeaf, hne]

theorem headD_of_procLeaf {k : Kernel} {t : Slot} {path rest : List UInt8}
    (h : ProcLeaf k t path rest) : rest = [] ∨ rest.headD 0 = slash := by
  rcases h with hnil | hslash | ⟨leaf, hleaf, _⟩
  · exact .inl hnil
  · exact .inr (by rw [hslash]; rfl)
  · exact .inr (by rw [hleaf]; rfl)

theorem procOpen_nonneg_iff (k : Kernel) (file : File) :
    0 ≤ (procOpen k file).1 ↔ ProcNamed k file.pathname.bytes := by
  have hnul := file.pathname.noNul
  have hrest := notMem_skipPid hnul
  have hneg : ¬ (0 : Int) ≤ -1 := by decide
  unfold procOpen ProcNamed
  simp only [kStrcmp_eq_zero hnul (show 0 ∉ cstr "/proc/stat" by decide)]
  by_cases hfixed : procIsRoot file.pathname.bytes ∨ file.pathname.bytes = cstr "/proc/stat"
  · rw [if_pos hfixed]
    exact iff_of_true le_rfl (by tauto)
  rw [if_neg hfixed, ← or_assoc, or_iff_right hfixed]
  by_cases hpid : procPathToPid file.pathname.bytes = pidNone
  · rw [if_pos hpid, hpid]
    refine iff_of_false hneg ?_
    rintro ⟨t, hfind, _⟩
    cases hfind
  rw [if_neg hpid]
  cases hfind : taskTableFindTaskByPid k.sched (procPathToPid file.pathname.bytes) with
  | none => simp
  | some t =>
  simp only [Option.some.injEq, exists_eq_left']
  generalize skipPid file.pathname.bytes = rest at hrest ⊢
  split
  · next hend =>
      refine iff_of_true le_rfl ?_
      rcases (atEnd_iff hrest).mp hend with hnil | hslash
      · exact .inl hnil
      · exact .inr (.inl hslash)
  next hmore =>
  split
  · next hslash =>
      refine iff_of_false hneg fun hleaf => ?_
      rcases headD_of_procLeaf hleaf with hnil | hhead
      · exact hmore (.inl (by rw [hnil]; rfl))
      · exact hslash hhead
  next hslash =>
  obtain ⟨leaf, rfl⟩ := eq_cons_of_headD (not_not.mp hslash) (by decide)
  have hleaf : 0 ∉ leaf := fun hmem => hrest (List.mem_cons_of_mem _ hmem)
  have hne : leaf ≠ [] := by
    rintro rfl
    exact hmore (.inr ⟨rfl, rfl⟩)
  have hstarts : kStrncmp 3 leaf (cstr "fd/") = 0 ↔ cstr "fd/" <+: leaf :=
    kStrncmp_eq_zero (show 0 ∉ cstr "fd/" by decide)
  rw [procLeaf_cons hne, List.tail_cons]
  split
  · next hknown => exact iff_of_true le_rfl (.inl ((any_procLeaves hleaf).mp hknown))
  next hunknown =>
  rw [or_iff_right fun hmem => hunknown ((any_procLeaves hleaf).mpr hmem)]
  split
  · next hfd =>
      rw [and_iff_right (hstarts.mp hfd), procFdOpen_iff]
      split
      · next hrange =>
          split
          · next hopen => exact iff_of_true le_rfl ⟨hrange, hopen⟩
          · next hclosed => exact iff_of_false hneg fun h => hclosed h.2
      · next hrange => exact iff_of_false hneg fun h => hrange h.1
  · next hfd => exact iff_of_false hneg fun h => hfd (hstarts.mpr h.1)

/-- The `getdents` function of a filesystem. -/
def Fs.getdentsFn : Fs → GetdentsFn
  | .root => .root
  | .sys => .sys
  | .proc => .proc
  | .dev => .dev
  | .bin => .bin

theorem Fs.openFile_getdents (fs : Fs) {k : Kernel} {file : File}
    (h : 0 ≤ (fs.openFile k file).1) :
    (fs.openFile k file).2.fileOps.getdents = some fs.getdentsFn := by
  cases fs with
  | root => rfl
  | sys =>
      simp only [Fs.openFile, sysOpen] at h ⊢
      split_ifs at h ⊢
      · exact absurd h (by simp)
      · rfl
      · exact absurd h (by simp)
  | proc =>
      simp only [Fs.openFile, procOpen]
      repeat' split
      all_goals rfl
  | dev =>
      simp only [Fs.openFile, devOpen] at h ⊢
      split_ifs at h ⊢
      · exact absurd h (by simp)
      · rfl
      · rfl
      · rfl
      · split
        · rfl
        · split
          · simp only [ttyOpen]
            split <;> rfl
          · rfl
  | bin =>
      simp only [Fs.openFile, binOpen]
      repeat' split
      all_goals rfl

/-- A file starts at its beginning. -/
theorem Fs.openFile_pos (fs : Fs) {k : Kernel} {file : File} (h : file.pos = 0) :
    (fs.openFile k file).2.pos = 0 := by
  cases fs with
  | root => exact h
  | sys =>
      simp only [Fs.openFile, sysOpen]
      split_ifs <;> exact h
  | proc =>
      simp only [Fs.openFile, procOpen]
      repeat' split
      all_goals first | exact h | rfl
  | dev =>
      simp only [Fs.openFile, devOpen, ttyOpen]
      repeat' split
      all_goals exact h
  | bin =>
      simp only [Fs.openFile, binOpen]
      repeat' split
      all_goals exact h

/-- A file that is opened lists what the filesystem has for its path. -/
theorem Fs.openFile_directory (fs : Fs) {k : Kernel} {file : File}
    (h : 0 ≤ (fs.openFile k file).1) (haccepts : fs.Accepts k file.pathname.bytes) :
    (fs.openFile k file).2.directory k = fs.opened k file.pathname.bytes := by
  obtain ⟨driverData, fileOps, pos, hframe⟩ := fs.openFile_frame k file
  have hpath : (fs.openFile k file).2.pathname = file.pathname := by rw [hframe]
  rw [File.directory, fs.openFile_getdents h]
  cases fs with
  | root => rfl
  | sys => exact (if_pos haccepts).symm
  | proc =>
      rw [hpath]
      rfl
  | dev => exact (if_pos haccepts).symm
  | bin => exact (if_pos haccepts).symm

section Accepts

variable {k : Kernel} {file : File} {rest : List (List UInt8)}

theorem sysOpen_nonneg_iff (hpath : file.pathname.bytes = pathOf (cstr "sys" :: rest))
    (hplain : ∀ c ∈ rest, PlainName c) :
    0 ≤ (sysOpen file).1 ↔ Fs.sys.Accepts k file.pathname.bytes := by
  have hnul := notMem_of_pathOf (hpath ▸ file.pathname.noNul)
  have hdir : isMountDir (pathOf (cstr "sys" :: rest)) = true ↔ rest = [] :=
    isMountDir_pathOf rfl hplain fun c hc => hnul c (List.mem_cons_of_mem _ hc)
  have hstarts : kStrncmp 4 (pathOf (cstr "sys" :: rest)) (cstr "/sys") = 0 :=
    kStrncmp_pathOf rfl (by decide)
  have hself : pathOf (cstr "sys" :: rest) = cstr "/sys" ↔ rest = [] := pathOf_eq_mount_iff
  rw [Fs.Accepts, hpath, hself, ← hdir, sysOpen, hpath]
  simp only [hstarts, ne_eq, not_true_eq_false, if_false]
  split_ifs with hmount
  · exact iff_of_true le_rfl hmount
  · exact iff_of_false (by simp) hmount

theorem devOpen_nonneg_iff (hpath : file.pathname.bytes = pathOf (cstr "dev" :: rest))
    (hplain : ∀ c ∈ rest, PlainName c) :
    0 ≤ (devOpen k file).1 ↔ Fs.dev.Accepts k file.pathname.bytes := by
  have hnul := notMem_of_pathOf (hpath ▸ file.pathname.noNul)
  have hdir : isMountDir (pathOf (cstr "dev" :: rest)) = true ↔ rest = [] :=
    isMountDir_pathOf rfl hplain fun c hc => hnul c (List.mem_cons_of_mem _ hc)
  have hstarts : kStrncmp 4 (pathOf (cstr "dev" :: rest)) (cstr "/dev") = 0 :=
    kStrncmp_pathOf rfl (by decide)
  have hself : pathOf (cstr "dev" :: rest) = cstr "/dev" ↔ rest = [] := pathOf_eq_mount_iff
  rw [Fs.Accepts, hpath, hself, ← hdir, devOpen, hpath]
  simp only [hstarts, ne_eq, not_true_eq_false, if_false]
  by_cases hmount : isMountDir (pathOf (cstr "dev" :: rest)) = true
  · rw [if_pos hmount]
    exact iff_of_true le_rfl (.inl hmount)
  rw [if_neg hmount, or_iff_right hmount]
  obtain ⟨next, more, rfl⟩ := List.exists_cons_of_ne_nil (mt hdir.mpr hmount)
  obtain ⟨b, tail, hjoin, _⟩ := pathOf_ne_nil more (hplain next List.mem_cons_self)
  have h4 : (pathOf (cstr "dev" :: next :: more)).getD 4 0 = slash := getD_pathOf_cons rfl 0
  have hname : (pathOf (cstr "dev" :: next :: more)).drop 5 = b :: tail := by
    rw [drop_five_pathOf_cons rfl, hjoin]
  simp only [h4, hname, not_true_eq_false, if_false, reduceCtorEq]
  cases hfind : devLookup k.devices (b :: tail) with
  | none => simp
  | some i =>
      refine iff_of_true ?_ rfl
      simp only
      split
      · unfold ttyOpen
        split <;> exact le_rfl
      · exact le_rfl

theorem binOpen_nonneg_iff (hend : file.pathname.bytes ≠ cstr "/bin/")
    (hne : file.pathname.bytes ≠ []) :
    0 ≤ (binOpen k file).1 ↔ Fs.bin.Accepts k file.pathname.bytes := by
  have hnul := file.pathname.noNul
  unfold binOpen
  simp only [kStrcmp_eq_zero hnul (show 0 ∉ cstr "/bin" by decide),
    kStrcmp_eq_zero hnul (show 0 ∉ cstr "/bin/" by decide), hend, or_false, if_neg hne, Fs.Accepts]
  by_cases hmount : file.pathname.bytes = cstr "/bin"
  · rw [if_pos hmount]
    exact iff_of_true le_rfl (.inl hmount)
  rw [if_neg hmount, or_iff_right hmount]
  cases hfind : findBin k.embeddedBins file.pathname.bytes with
  | none => simp
  | some i => simp

/-- A filesystem refuses the files of paths that it does not know. -/
theorem Fs.openFile_nonneg_iff {fs : Fs} {components : List (List UInt8)}
    (hpath : file.pathname.bytes = pathOf components)
    (hplain : ∀ c ∈ components, PlainName c) (hfs : topFs (components.headD []) = fs) :
    0 ≤ (fs.openFile k file).1 ↔ fs.Accepts k file.pathname.bytes := by
  cases fs with
  | root => exact iff_of_true le_rfl trivial
  | proc => exact procOpen_nonneg_iff k file
  | sys =>
      obtain ⟨rest, rfl⟩ := eq_cons_of_headD (topFs_eq_iff.1.mp hfs) nofun
      exact sysOpen_nonneg_iff hpath fun c hc => hplain c (List.mem_cons_of_mem _ hc)
  | dev =>
      obtain ⟨rest, rfl⟩ := eq_cons_of_headD (topFs_eq_iff.2.2.1.mp hfs) nofun
      exact devOpen_nonneg_iff hpath fun c hc => hplain c (List.mem_cons_of_mem _ hc)
  | bin =>
      obtain ⟨rest, rfl⟩ := eq_cons_of_headD (topFs_eq_iff.2.2.2.mp hfs) nofun
      apply binOpen_nonneg_iff
      · rw [hpath]
        exact pathOf_ne_mount_slash rfl fun c hc => hplain c (List.mem_cons_of_mem _ hc)
      · rw [hpath]
        exact nofun

end Accepts

theorem procIsFdDir_eq_some {path : List UInt8} {pid : Int} (h : procIsFdDir path = some pid)
    (hnul : 0 ∉ path) :
    pid = procPathToPid path ∧
      (skipPid path = slash :: cstr "fd" ∨ skipPid path = slash :: cstr "fd/") := by
  have hrest := notMem_skipPid hnul
  unfold procIsFdDir at h
  dsimp only at h
  split at h
  · cases h
  split at h
  · cases h
  next hslash =>
  obtain ⟨leaf, hskip⟩ := eq_cons_of_headD (not_not.mp hslash) (by decide)
  have hleaf : 0 ∉ leaf := fun hmem => hrest (by rw [hskip]; exact List.mem_cons_of_mem _ hmem)
  rw [hskip] at h ⊢
  split at h
  · next hname =>
      refine ⟨(Option.some.inj h).symm, hname.imp (fun hfd => ?_) fun hfd => ?_⟩
      · rw [(kStrcmp_eq_zero hleaf (by decide)).mp hfd]
      · rw [(kStrcmp_eq_zero hleaf (by decide)).mp hfd]
  · cases h

theorem procIsPidDir_eq_some {path : List UInt8} {pid : Int} (h : procIsPidDir path = some pid)
    (hnul : 0 ∉ path) :
    pid = procPathToPid path ∧ (skipPid path = [] ∨ skipPid path = [slash]) := by
  have hrest := notMem_skipPid hnul
  unfold procIsPidDir at h
  dsimp only at h
  split at h
  · cases h
  split at h
  · next hend =>
      exact ⟨(Option.some.inj h).symm, (atEnd_iff hrest).mp hend⟩
  · cases h

theorem procNamed_of_directory {k : Kernel} {path : List UInt8} {d : Directory}
    (h : procDirectory k.sched path = some d) (hnul : 0 ∉ path) : ProcNamed k path := by
  rcases procDirectory_eq_some h with ⟨hroot, _⟩ | ⟨_, pid, t, hfind, ⟨hfd, _⟩ | ⟨_, hpid, _⟩⟩
  · exact .inl hroot
  · obtain ⟨rfl, hrest⟩ := procIsFdDir_eq_some hfd hnul
    refine .inr (.inr ⟨t, hfind, .inr (.inr ?_)⟩)
    rcases hrest with hrest | hrest
    · exact ⟨_, hrest, .inl (by decide)⟩
    · exact ⟨_, hrest, .inl (by decide)⟩
  · obtain ⟨rfl, hrest⟩ := procIsPidDir_eq_some hpid hnul
    refine .inr (.inr ⟨t, hfind, ?_⟩)
    rcases hrest with hrest | hrest
    · exact .inl hrest
    · exact .inr (.inl hrest)

theorem Fs.accepts_of_opened {fs : Fs} {k : Kernel} {path : List UInt8} {d : Directory}
    (h : fs.opened k path = some d) (hnul : 0 ∉ path) : fs.Accepts k path := by
  cases fs with
  | root => trivial
  | proc => exact procNamed_of_directory h hnul
  | sys => exact (Option.ite_none_right_eq_some.mp h).1
  | dev => exact (Option.ite_none_right_eq_some.mp h).1
  | bin => exact (Option.ite_none_right_eq_some.mp h).1

/-- The kernel when `vfs_open` has found a file and a descriptor. -/
def takeDescriptor (k : Kernel) (t : Slot) : Option (Kernel × FileRef × Fin rlimitNofile) := do
  let (vfs, i) ← vfsAllocFile k.vfs
  let (files, fd) ← filesAllocFd (k.files t) i
  some (({ k with vfs } : Kernel).setFiles t files, i, fd)

section Open

variable {k : Kernel} {t : Slot} {pathname : List UInt8} {components : List (List UInt8)}

theorem takeDescriptor_eq_some {k₁ : Kernel} {i : FileRef} {fd : Fin rlimitNofile}
    (h : takeDescriptor k t = some (k₁, i, fd)) :
    ∃ vfs files, vfsAllocFile k.vfs = some (vfs, i) ∧
      filesAllocFd (k.files t) i = some (files, fd) ∧
      k₁ = ({ k with vfs } : Kernel).setFiles t files := by
  obtain ⟨⟨vfs, j⟩, halloc, h⟩ := Option.bind_eq_some_iff.mp h
  obtain ⟨⟨files, fd'⟩, hfd, h⟩ := Option.bind_eq_some_iff.mp h
  obtain ⟨rfl, hrest⟩ := Prod.mk.inj (Option.some.inj h)
  obtain ⟨rfl, rfl⟩ := Prod.mk.inj hrest
  exact ⟨vfs, files, halloc, hfd, rfl⟩

theorem takeDescriptor_eq_none_iff :
    takeDescriptor k t = none ↔
      freeFiles k.vfs = [] ∨ ∀ fd, (k.files t).slots fd ≠ none := by
  unfold takeDescriptor
  cases halloc : vfsAllocFile k.vfs with
  | none => exact iff_of_true rfl (.inl (vfsAllocFile_eq_none halloc))
  | some alloc =>
      obtain ⟨vfs, i⟩ := alloc
      have hfree : freeFiles k.vfs ≠ [] := by
        rw [(vfsAllocFile_eq_some halloc).1]
        exact nofun
      rw [or_iff_right hfree]
      cases hfd : filesAllocFd (k.files t) i with
      | none =>
          refine iff_of_true ?_ (filesAllocFd_eq_none hfd)
          simp [hfd]
      | some slot =>
          obtain ⟨files, fd⟩ := slot
          refine iff_of_false ?_ fun hall => hall fd (filesAllocFd_eq_some hfd).2.1
          simp [hfd]

/-- With a file and a descriptor at hand, it is up to the filesystem. -/
theorem vfsOpen_of_takeDescriptor {k₁ : Kernel} {i : FileRef} {fd : Fin rlimitNofile} {fs : Fs}
    (htake : takeDescriptor k t = some (k₁, i, fd))
    (hfs : pathToFs k.vfs (resolvedPath k t pathname).bytes = some fs) (flags mode : Int) :
    vfsOpen k t pathname flags mode =
      vfsOpenAt k₁ t i fd fs (resolvedPath k t pathname) flags mode := by
  obtain ⟨vfs, files, halloc, hfd, rfl⟩ := takeDescriptor_eq_some htake
  simp only [vfsOpen, hfs, halloc, hfd]

/-- The file and the descriptor stay with an open that the filesystem accepts. -/
theorem vfsOpen_of_accepts {k₁ : Kernel} {i : FileRef} {fd : Fin rlimitNofile}
    (hboot : BootMounts k.vfs) (hpath : (resolvedPath k t pathname).bytes = pathOf components)
    (hplain : ∀ c ∈ components, PlainName c)
    (htake : takeDescriptor k t = some (k₁, i, fd))
    (haccepts : (topFs (components.headD [])).Accepts k₁ (pathOf components)) (flags mode : Int) :
    ∃ file, vfsOpen k t pathname flags mode = some (k₁.setFile i file, ((fd : Nat) : Int)) ∧
      file.directory k₁ = (topFs (components.headD [])).opened k₁ (pathOf components) ∧
      file.pos = 0 := by
  have hfs := pathToFs_pathOf hboot hplain (hpath ▸ (resolvedPath k t pathname).noNul)
  rw [← hpath] at hfs haccepts ⊢
  rw [vfsOpen_of_takeDescriptor htake hfs, vfsOpenAt]
  generalize hfile : openedFile (k₁.vfs.files i) fd (resolvedPath k t pathname) flags mode = file
  have hname : file.pathname = resolvedPath k t pathname := by rw [← hfile, openedFile]
  have hpos : file.pos = 0 := by rw [← hfile, openedFile]
  rw [← hname] at haccepts ⊢
  have hres := (Fs.openFile_nonneg_iff (k := k₁) (hname ▸ hpath) hplain rfl).mpr haccepts
  have hnonneg : ¬ ((topFs (components.headD [])).openFile k₁ file).1 < 0 := not_lt.mpr hres
  exact ⟨_, if_neg hnonneg, Fs.openFile_directory _ hres haccepts, Fs.openFile_pos _ hpos⟩

/-- `vfs_open` succeeds exactly when there is a file and a descriptor and the filesystem
accepts the path. -/
theorem vfsOpen_iff (hboot : BootMounts k.vfs)
    (hpath : (resolvedPath k t pathname).bytes = pathOf components)
    (hplain : ∀ c ∈ components, PlainName c) (flags mode : Int) :
    (∃ k' r, vfsOpen k t pathname flags mode = some (k', r) ∧ 0 ≤ r) ↔
      ∃ k₁ i fd, takeDescriptor k t = some (k₁, i, fd) ∧
        (topFs (components.headD [])).Accepts k₁ (pathOf components) := by
  constructor
  · rintro ⟨k', r, hopen, hr⟩
    obtain ⟨fs, vfs, i, files, fd, hfs, halloc, hfd, rfl, res, file, hfile, hres, _⟩ :=
      vfsOpen_success hopen hr
    have htop := pathToFs_pathOf hboot hplain (hpath ▸ (resolvedPath k t pathname).noNul)
    rw [hpath, htop, Option.some_inj] at hfs
    have hnonneg : 0 ≤ (fs.openFile (({ k with vfs } : Kernel).setFiles t files)
        (openedFile (vfs.files i) fd (resolvedPath k t pathname) flags mode)).1 := by
      rw [hfile]
      exact hres
    rw [Fs.openFile_nonneg_iff hpath hplain hfs] at hnonneg
    refine ⟨({ k with vfs } : Kernel).setFiles t files, i, fd, ?_, ?_⟩
    · simp only [takeDescriptor, halloc, Option.bind_eq_bind, Option.bind_some, hfd]
    · rw [hfs, ← hpath]
      exact hnonneg
  · rintro ⟨k₁, i, fd, htake, haccepts⟩
    obtain ⟨file, hopen, _⟩ :=
      vfsOpen_of_accepts hboot hpath hplain htake haccepts flags mode
    exact ⟨_, _, hopen, Int.natCast_nonneg _⟩

end Open

end Punix
