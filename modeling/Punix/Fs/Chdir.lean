import Punix.Fs.TreeMachine

/-!
What `vfs_chdir` accepts. It opens the path, asks for one entry and takes the
path for a directory if it gets one; so it depends on the listing that a file of
that path has, which for a program, a device and any path of the root filesystem
is the listing of another directory.
-/

namespace Punix

open Lib

section Getdents

variable {k : Kernel} {fd : Int} {i : FileRef} {count : BitVec 32}

/-- A file of `/proc` that is no directory has no listing. -/
theorem procGetdents_none {file : File} (h : procDirectory k.sched file.pathname.bytes = none)
    (hcount : sizeofDirent ≤ count.toNat) (hpos : file.pos = 0) :
    (procGetdents k file true count).ret < 0 := by
  unfold procDirectory at h
  unfold procGetdents
  rw [getdentsOnce_first _ hcount hpos]
  dsimp only
  split at h
  · cases h
  next hroot =>
  rw [if_neg hroot]
  generalize procIsFdDir file.pathname.bytes = fdDir at h ⊢
  cases fdDir with
  | some pid =>
      dsimp only at h ⊢
      rw [Option.map_eq_none_iff.mp h]
      exact (by decide : (-1 : Int) < 0)
  | none =>
      generalize procIsPidDir file.pathname.bytes = pidDir at h ⊢
      cases pidDir with
      | some pid =>
          dsimp only at h ⊢
          rw [Option.map_eq_none_iff.mp h]
          exact (by decide : (-1 : Int) < 0)
      | none => exact (by decide : -enotdir < 0)

/-- The result tells whether the file is one of a directory. -/
theorem vfsGetdents_ret (hfile : currentFile k fd = some i)
    (hpos : (k.vfs.files i).pos = 0) :
    0 ≤ (vfsGetdents k fd true (BitVec.ofNat 32 sizeofDirent)).1 ↔
      ((k.vfs.files i).directory k).isSome := by
  have hcount : sizeofDirent ≤ (BitVec.ofNat 32 sizeofDirent).toNat := by decide
  cases hdir : (k.vfs.files i).directory k with
  | some d =>
      refine iff_of_true ?_ rfl
      obtain ⟨file, hcall, _⟩ := vfsGetdents_first hfile hdir hpos hcount
      rw [hcall]
      have hone : (d.listed k ((BitVec.ofNat 32 sizeofDirent).toNat / sizeofDirent)).length ≤ 1 := by
        have hsize : (BitVec.ofNat 32 sizeofDirent).toNat / sizeofDirent = 1 := by decide
        rw [hsize, Directory.listed, if_neg (by omega), List.length_take]
        omega
      simp only
      rw [asInt_of_lt]
      · omega
      · simp only [sizeofDirent] at hone ⊢
        omega
  | none =>
      refine iff_of_false ?_ (by simp)
      unfold vfsGetdents
      rw [hfile]
      dsimp only
      split
      · simp
      · next getdents hops =>
          unfold File.directory at hdir
          rw [hops] at hdir
          cases getdents with
          | proc => exact not_le.mpr (procGetdents_none hdir hcount hpos)
          | _ => cases hdir

end Getdents

section Chdir

variable {k : Kernel} {t : Slot} {path : List UInt8}

/-- What `vfs_open` makes of the path that `vfs_chdir` has resolved. -/
theorem CwdOk.resolvedPath_twice (h : CwdOk (k.sched.task t)) (path : List UInt8) :
    (Punix.resolvedPath k t (Punix.resolvedPath k t path).bytes).bytes =
      canonicalPath (Punix.resolvedPath k t path).bytes := by
  obtain ⟨rest, hrest⟩ := h.resolvedPath_cons path
  have hlen : (Punix.resolvedPath k t path).bytes.length ≤ 62 := by
    obtain ⟨full, _, hfull⟩ := h.resolvedPath path
    rw [hfull]
    exact List.length_take_le _ _
  have hstr := strBytes_eq_self (Punix.resolvedPath k t path).noNul
  have hcanonical : (canonicalPath (slash :: rest)).length ≤ rest.length + 1 :=
    PathName.length_canonical_le rest
  rw [← hrest] at hcanonical
  have hwhole : (Punix.resolvedPath k t path).bytes.take (maxFilenameLen - 1) =
      (Punix.resolvedPath k t path).bytes :=
    List.take_of_length_le (by simp only [maxFilenameLen]; omega)
  rw [resolvedPath_absolute k t ⟨rest, hstr.trans hrest⟩, hstr, hwhole]
  rw [hrest, List.length_cons] at hlen
  exact List.take_of_length_le (hcanonical.trans hlen)

theorem opened_takeDescriptor {k₁ : Kernel} {i : FileRef} {fd : Fin rlimitNofile} {fs : Fs}
    (h : takeDescriptor k t = some (k₁, i, fd)) (path : List UInt8) :
    fs.opened k₁ path = fs.opened k path := by
  obtain ⟨vfs, files, _, _, rfl⟩ := takeDescriptor_eq_some h
  cases fs <;> rfl

/-- The descriptor that is taken is one of the task. -/
theorem currentFile_takeDescriptor {k₁ : Kernel} {i : FileRef} {fd : Fin rlimitNofile}
    (h : takeDescriptor k t = some (k₁, i, fd)) (hcur : k.sched.current = some t) (file : File) :
    currentFile (k₁.setFile i file) ((fd : Nat) : Int) = some i := by
  obtain ⟨vfs, files, _, hfd, rfl⟩ := takeDescriptor_eq_some h
  obtain ⟨rfl, _⟩ := filesAllocFd_eq_some hfd
  have hcurrent : currentFile ((({ k with vfs } : Kernel).setFiles t
      { slots := Function.update (k.files t).slots fd (some i) }).setFile i file) ((fd : Nat) : Int) =
      k.sched.current.bind fun u => filesFindByFd ((Function.update k.files t
        { slots := Function.update (k.files t).slots fd (some i) }) u) ((fd : Nat) : Int) := rfl
  rw [hcurrent, hcur]
  simp [filesFindByFd]

/-- `vfs_chdir` succeeds when there is a file and a descriptor and the path opens on a
listing. -/
theorem vfsChdir_iff (hk : FilesInv k) (hboot : BootMounts k.vfs) (hcwd : CwdOk (k.sched.task t))
    (hcur : k.sched.current = some t) (path : List UInt8) :
    (∃ k', vfsChdir k (some path) = some (k', 0)) ↔
      takeDescriptor k t ≠ none ∧
        (openedDirectory k (canonicalPath (resolvedPath k t path).bytes)).isSome := by
  have htwice := hcwd.resolvedPath_twice path
  obtain ⟨components, hplain, hcanonical⟩ :=
    exists_pathOf_canonical (resolvedPath k t path).bytes
  have hpath := htwice.trans hcanonical
  have hnul : 0 ∉ pathOf components := hpath ▸ (resolvedPath k t _).noNul
  have hopened : openedDirectory k (pathOf components) =
      (topFs (components.headD [])).opened k (pathOf components) := by
    rw [openedDirectory, pathToFs_pathOf hboot hplain hnul, Option.bind_some]
  rw [hcanonical, hopened]
  simp only [vfsChdir, hcur]
  by_cases hsuccess : ∃ k₁ i fd, takeDescriptor k t = some (k₁, i, fd) ∧
      (topFs (components.headD [])).Accepts k₁ (pathOf components)
  · obtain ⟨k₁, i, fd, htake, haccepts⟩ := hsuccess
    obtain ⟨file, hopen, hdir, hpos⟩ := vfsOpen_of_accepts hboot hpath hplain htake haccepts 0 0
    have hk₂ := hk.openFile hopen
    have hfile := currentFile_takeDescriptor htake hcur file
    have hret := vfsGetdents_ret hfile (by rw [Kernel.setFile_self]; exact hpos)
    have hsame : file.directory (k₁.setFile i file) = file.directory k₁ := rfl
    rw [Kernel.setFile_self, hsame, hdir, opened_takeDescriptor htake] at hret
    have hk₃ := hk₂.getdents ((fd : Nat) : Int) true (BitVec.ofNat 32 sizeofDirent)
    obtain ⟨k₄, r, hclose, _⟩ := vfsClose_spec hk₃ t ((fd : Nat) : Int)
    have hfd : ¬ ((fd : Nat) : Int) < 0 := by omega
    simp only [hopen, Option.bind_eq_bind, Option.bind_some, hfd, if_false, hclose]
    rw [← hret, htake]
    generalize (vfsGetdents (k₁.setFile i file) ((fd : Nat) : Int) true
      (BitVec.ofNat 32 sizeofDirent)).1 = ret
    split_ifs with hnotDir hneg
    · refine iff_of_false ?_ ?_
      · rintro ⟨k', heq⟩
        have hzero : -enotdir = 0 := congrArg Prod.snd (Option.some.inj heq)
        exact absurd hzero (by decide)
      · rw [hnotDir]
        exact fun h => absurd h.2 (by decide)
    · refine iff_of_false ?_ fun h => absurd h.2 (by omega)
      rintro ⟨k', heq⟩
      have hzero : ret = 0 := congrArg Prod.snd (Option.some.inj heq)
      omega
    · exact iff_of_true ⟨_, rfl⟩ ⟨nofun, by omega⟩
  · obtain ⟨k₁, r, hopen, _, hres⟩ := vfsOpen_spec hk t (resolvedPath k t path).bytes 0 0
    have hneg : r < 0 := by
      by_contra hnonneg
      exact hsuccess ((vfsOpen_iff hboot hpath hplain 0 0).mp ⟨k₁, r, hopen, by omega⟩)
    simp only [hopen, Option.bind_eq_bind, Option.bind_some, hneg, if_true]
    refine iff_of_false ?_ ?_
    · rintro ⟨k', heq⟩
      have hzero : r = 0 := congrArg Prod.snd (Option.some.inj heq)
      omega
    · rintro ⟨htake, hsome⟩
      obtain ⟨⟨k₂, i, fd⟩, htake⟩ := Option.ne_none_iff_exists'.mp htake
      obtain ⟨d, hd⟩ := Option.isSome_iff_exists.mp hsome
      rw [← opened_takeDescriptor htake] at hd
      exact hsuccess ⟨k₂, i, fd, htake, Fs.accepts_of_opened hd hnul⟩

/-- A path that opens on a listing names a directory if it is the path of the directory
whose listing that is. -/
theorem directoryPath_iff_of_opened {log : List TableEvent} (h : TreeInv k log) {d : Directory}
    (hnul : 0 ∉ canonicalPath path) (hd : openedDirectory k (canonicalPath path) = some d) :
    DirectoryPath k (canonicalPath path) ↔ d.Listed k ∧ canonicalPath path = d.path k := by
  rw [directoryPath_iff h.mounts]
  constructor
  · rintro ⟨d', hlisted, hsame⟩
    rw [hsame, openedDirectory, Directory.path, pathToFs_pathOf h.mounts
      (d'.plain_components k) (by rw [hsame] at hnul; exact hnul), Option.bind_some] at hd
    obtain rfl := Directory.eq_of_opened_path h.table hd
    exact ⟨hlisted, hsame⟩
  · rintro ⟨hlisted, hsame⟩
    exact ⟨d, hlisted, hsame⟩

/-- The path is not one that opens on the listing of another directory: of the root
filesystem only the root itself qualifies, and no program and no device does; a path that
parses as one of a directory of `/proc` has to be spelled as that directory is listed. -/
def Fs.NamesItself (k : Kernel) (path : List UInt8) : Fs → Prop
  | .root => path = [slash]
  | .sys => True
  | .dev => path = cstr "/dev" ∨ devLookup k.devices (path.drop 5) = none
  | .bin => path = cstr "/bin" ∨ findBin k.embeddedBins path = none
  | .proc => ∀ d, procDirectory k.sched path = some d → d.Listed k ∧ path = d.path k

theorem Fs.namesItself_iff (fs : Fs) (k : Kernel) (path : List UInt8) :
    fs.NamesItself k path ↔
      ∀ d, fs.opened k path = some d → d.Listed k ∧ path = d.path k := by
  have hlists {c : Prop} [Decidable c] {d : Directory} {a b : Prop} (hd : d.Listed k)
      (hpath : path = d.path k ↔ a) (hc : c ↔ a ∨ ¬ b) :
      a ∨ b ↔ ∀ d', (if c then some d else none) = some d' → d'.Listed k ∧ path = d'.path k := by
    constructor
    · intro hab d' hd'
      obtain ⟨hc', heq⟩ := Option.ite_none_right_eq_some.mp hd'
      obtain rfl := Option.some.inj heq
      refine ⟨hd, hpath.mpr ?_⟩
      rcases hc.mp hc' with ha | hb
      · exact ha
      · exact hab.resolve_right hb
    · intro hall
      by_cases hb : b
      · exact .inr hb
      · exact .inl (hpath.mp (hall d (if_pos (hc.mpr (.inr hb)))).2)
  have hnone {α : Type} (o : Option α) : o.isSome = true ↔ ¬ o = none := by
    cases o <;> simp
  cases fs with
  | root =>
      constructor
      · rintro hroot d ⟨⟩
        exact ⟨trivial, hroot⟩
      · intro hall
        exact (hall .root rfl).2
  | sys =>
      refine iff_of_true trivial ?_
      intro d hd
      obtain ⟨hself, heq⟩ := Option.ite_none_right_eq_some.mp hd
      obtain rfl := Option.some.inj heq
      exact ⟨trivial, hself⟩
  | dev => exact hlists (d := .dev) trivial Iff.rfl (or_congr Iff.rfl (hnone _))
  | bin => exact hlists (d := .bin) trivial Iff.rfl (or_congr Iff.rfl (hnone _))
  | proc => exact Iff.rfl

/-- No file or descriptor is free, or the path names itself. -/
def ChdirOk (k : Kernel) (t : Slot) (path : List UInt8) : Prop :=
  freeFiles k.vfs = [] ∨ (∀ fd, (k.files t).slots fd ≠ none) ∨
    ∀ fs, pathToFs k.vfs path = some fs → fs.NamesItself k path

theorem chdirOk_iff {path : List UInt8} :
    ChdirOk k t path ↔ takeDescriptor k t = none ∨
      ∀ d, openedDirectory k path = some d → d.Listed k ∧ path = d.path k := by
  rw [ChdirOk, ← or_assoc, ← takeDescriptor_eq_none_iff]
  apply or_congr Iff.rfl
  unfold openedDirectory
  cases pathToFs k.vfs path with
  | none => simp
  | some fs =>
      simp only [Option.some.injEq, forall_eq', Option.bind_some]
      exact fs.namesItself_iff k path

/-- In every state `vfs_chdir` succeeds on directories only if and only if the path does not
open on the listing of another directory. -/
theorem vfsChdir_directory_iff {x : Kernel × List TableEvent} (hx : treeMachine.Reachable x)
    {t : Slot} (hcur : x.1.sched.current = some t) (path : List UInt8) :
    ((∃ k', vfsChdir x.1 (some path) = some (k', 0)) →
        DirectoryPath x.1 (canonicalPath (resolvedPath x.1 t path).bytes)) ↔
      ChdirOk x.1 t (canonicalPath (resolvedPath x.1 t path).bytes) := by
  have h := TreeInv.of_reachable hx
  have htwice := (h.cwd t).resolvedPath_twice path
  have hnul : 0 ∉ canonicalPath (resolvedPath x.1 t path).bytes :=
    htwice ▸ (resolvedPath x.1 t _).noNul
  rw [vfsChdir_iff h.files h.mounts (h.cwd t) hcur, chdirOk_iff]
  constructor
  · intro hdirectory
    by_cases htake : takeDescriptor x.1 t = none
    · exact .inl htake
    · right
      intro d hd
      rw [← directoryPath_iff_of_opened h hnul hd]
      exact hdirectory ⟨htake, by rw [hd]; rfl⟩
  · rintro hok ⟨htake, hsome⟩
    obtain ⟨d, hd⟩ := Option.isSome_iff_exists.mp hsome
    rw [directoryPath_iff_of_opened h hnul hd]
    exact hok.resolve_left htake d hd

end Chdir

def Task.runningInRoot (task : Task) : Task :=
  { task with state := .running, cwd := CharArray.ofBytes maxFilenameLen (cstr "/") }

/-- The swapper has been allocated and runs in the root. -/
def runningKernel (bins : List EmbeddedBin) : Kernel :=
  let k := kernelInit bins
  match taskTableAlloc k.sched with
  | none => k
  | some (sched, t) =>
      { k with sched := { sched.modifyTask t Task.runningInRoot with current := some t } }

theorem runningKernel_reachable (bins : List EmbeddedBin) :
    treeMachine.Reachable (runningKernel bins, [.other, .alloc 0 0]) := by
  obtain ⟨s, hs⟩ : ∃ s, taskTableAlloc schedulerInit = some (s, 0) := ⟨_, rfl⟩
  have hpid : (s.task 0).pid = 0 := by
    obtain ⟨_, hpid, _⟩ := taskTableAlloc_eq_some hs
    have hzero := congrFun hpid 0
    rw [Function.update_self] at hzero
    exact hzero
  have hcwd (t : Slot) : (s.task t).cwd = (schedulerInit.task t).cwd := by
    rw [taskTableAlloc_cwd hs]
  have hsame : filesMachine.step (kernelInit bins) .other { kernelInit bins with sched := s } :=
    ⟨rfl, rfl, rfl, fun _ => rfl, rfl⟩
  have halloc : treeMachine.Reachable ({ kernelInit bins with sched := s }, [.alloc 0 0]) := by
    refine .step (.init ⟨bins, rfl⟩) (e := .other (.alloc 0 0)) trivial ⟨rfl, ?_⟩
    exact ⟨⟨hs, hpid⟩, hsame, rfl, rfl, rfl, fun t => .inr ⟨t, hcwd t⟩⟩
  have hrunning : runningKernel bins = { kernelInit bins with
      sched := { s.modifyTask 0 Task.runningInRoot with current := some 0 } } := by
    have hinit : taskTableAlloc (kernelInit bins).sched = some (s, 0) := hs
    rw [runningKernel]
    simp only [hinit]
  rw [hrunning]
  refine halloc.step (e := .other .other) trivial ⟨rfl, ?_⟩
  refine ⟨?_, ⟨rfl, rfl, rfl, fun _ => rfl, rfl⟩, rfl, rfl, rfl, fun t => ?_⟩
  · obtain ⟨hring, hhead, htail, hgeneration, hpid⟩ :
        SameTable s (s.modifyTask 0 Task.runningInRoot) := s.sameTable_modifyTask 0 rfl
    exact ⟨hring, hhead, htail, hgeneration, hpid⟩
  · have htask : (s.modifyTask 0 Task.runningInRoot).task t = _ :=
      s.task_modifyTask 0 t Task.runningInRoot
    split_ifs at htask with ht
    · left
      exact congrArg (fun task => task.cwd.bytes) htask
    · right
      exact ⟨t, congrArg Task.cwd htask⟩

/-- The swapper changes to `/bin`. -/
theorem vfsChdir_directory_iff_bin :
    ChdirOk (runningKernel shellBins) 0 (canonicalPath
        (resolvedPath (runningKernel shellBins) 0 (cstr "/bin")).bytes) ∧
      ((∃ k', vfsChdir (runningKernel shellBins) (some (cstr "/bin")) = some (k', 0)) →
        DirectoryPath (runningKernel shellBins)
          (canonicalPath (resolvedPath (runningKernel shellBins) 0 (cstr "/bin")).bytes)) := by
  have hok : ChdirOk (runningKernel shellBins) 0 (canonicalPath
      (resolvedPath (runningKernel shellBins) 0 (cstr "/bin")).bytes) := by
    right
    right
    intro fs hfs
    obtain rfl : fs = .bin := by
      have hbin : pathToFs (runningKernel shellBins).vfs (canonicalPath
          (resolvedPath (runningKernel shellBins) 0 (cstr "/bin")).bytes) = some .bin := by
        decide +kernel
      exact Option.some.inj (hfs.symm.trans hbin)
    left
    decide +kernel
  exact ⟨hok, (vfsChdir_directory_iff (runningKernel_reachable shellBins) rfl (cstr "/bin")).mpr hok⟩

/-- `vfs_chdir` enters names that no directory lists, programs and devices, and a directory
under a spelling that is not listed. -/
theorem vfsChdir_notDirectory : treeMachine.Reachable (runningKernel shellBins, [.other, .alloc 0 0]) ∧
    ∀ path ∈ [cstr "/nonexistent", cstr "/bin/sh", cstr "/dev/tty0", cstr "/proc/00"],
      (∃ k', vfsChdir (runningKernel shellBins) (some path) = some (k', 0)) ∧
        ¬ DirectoryPath (runningKernel shellBins)
          (canonicalPath (resolvedPath (runningKernel shellBins) 0 path).bytes) := by
  have hreach := runningKernel_reachable shellBins
  have h := TreeInv.of_reachable hreach
  refine ⟨hreach, ?_⟩
  have htake : (takeDescriptor (runningKernel shellBins) 0).isSome := by decide +kernel
  have hopens : ∀ path ∈ [cstr "/nonexistent", cstr "/bin/sh", cstr "/dev/tty0", cstr "/proc/00"],
      (openedDirectory (runningKernel shellBins) (canonicalPath
        (resolvedPath (runningKernel shellBins) 0 path).bytes)).isSome ∧
      ∀ d ∈ openedDirectory (runningKernel shellBins) (canonicalPath
        (resolvedPath (runningKernel shellBins) 0 path).bytes),
        canonicalPath (resolvedPath (runningKernel shellBins) 0 path).bytes ≠
          d.path (runningKernel shellBins) := by
    decide +kernel
  intro path hmem
  obtain ⟨hsome, hother⟩ := hopens path hmem
  have hnul : 0 ∉ canonicalPath (resolvedPath (runningKernel shellBins) 0 path).bytes :=
    (h.cwd 0).resolvedPath_twice path ▸ (resolvedPath (runningKernel shellBins) 0 _).noNul
  constructor
  · rw [vfsChdir_iff h.files h.mounts (h.cwd 0) rfl]
    exact ⟨Option.isSome_iff_ne_none.mp htake, hsome⟩
  · obtain ⟨d, hd⟩ := Option.isSome_iff_exists.mp hsome
    rw [directoryPath_iff_of_opened h hnul hd]
    exact fun hpath => hother d hd hpath.2

end Punix
