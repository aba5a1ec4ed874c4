import Punix.Fs.Tree

/-!
The kernel as far as its directories are concerned: files are opened, listed and
closed, tasks change their directory, and everything else may happen in between
that the rest of the kernel does. The mounts and the devices stay those of the
boot, every file is free or open once, and the task table is right.
-/

namespace Punix

open Lib

/-- What files are opened in is the same. -/
structure SameWorld (k k' : Kernel) : Prop where
  sched : k'.sched = k.sched
  mounts : k'.vfs.mounts = k.vfs.mounts
  devices : k'.devices = k.devices
  bins : k'.embeddedBins = k.embeddedBins

theorem SameWorld.refl (k : Kernel) : SameWorld k k := ⟨rfl, rfl, rfl, rfl⟩

theorem SameWorld.trans {k k' k'' : Kernel} (h : SameWorld k k') (h' : SameWorld k' k'') :
    SameWorld k k'' where
  sched := h'.sched.trans h.sched
  mounts := h'.mounts.trans h.mounts
  devices := h'.devices.trans h.devices
  bins := h'.bins.trans h.bins

section Frame

variable {k k' : Kernel} {t : Slot} {r : Int}

theorem vfsAllocFile_mounts {vfs vfs' : Vfs} {i : FileRef}
    (h : vfsAllocFile vfs = some (vfs', i)) : vfs'.mounts = vfs.mounts := by
  unfold vfsAllocFile at h
  split at h
  · cases h
  · obtain ⟨rfl, _⟩ := Prod.mk.inj (Option.some.inj h)
    rfl

theorem vfsFreeFile_mounts {vfs vfs' : Vfs} {i : FileRef} (h : vfsFreeFile vfs i = some vfs') :
    vfs'.mounts = vfs.mounts := by
  unfold vfsFreeFile at h
  split at h
  · cases h
  · obtain rfl := Option.some.inj h
    rfl

theorem vfsOpenAt_same {i : FileRef} {fd : Fin rlimitNofile} {fs : Fs}
    {path : CharArray maxFilenameLen} {flags mode : Int}
    (h : vfsOpenAt k t i fd fs path flags mode = some (k', r)) : SameWorld k k' := by
  unfold vfsOpenAt at h
  dsimp only at h
  split at h
  · obtain ⟨vfs, hfree, heq⟩ := Option.map_eq_some_iff.mp h
    have hmounts := vfsFreeFile_mounts hfree
    obtain ⟨rfl, _⟩ := Prod.mk.inj heq
    exact ⟨rfl, hmounts, rfl, rfl⟩
  · obtain ⟨rfl, _⟩ := Prod.mk.inj (Option.some.inj h)
    exact ⟨rfl, rfl, rfl, rfl⟩

theorem vfsOpen_same {pathname : List UInt8} {flags mode : Int}
    (h : vfsOpen k t pathname flags mode = some (k', r)) : SameWorld k k' := by
  unfold vfsOpen at h
  dsimp only at h
  split at h
  · obtain ⟨rfl, _⟩ := Prod.mk.inj (Option.some.inj h)
    exact .refl k
  split at h
  · obtain ⟨rfl, _⟩ := Prod.mk.inj (Option.some.inj h)
    exact .refl k
  next halloc =>
  have hmounts := vfsAllocFile_mounts halloc
  split at h
  · obtain ⟨vfs', hfree, heq⟩ := Option.map_eq_some_iff.mp h
    have hmounts' := (vfsFreeFile_mounts hfree).trans hmounts
    obtain ⟨rfl, _⟩ := Prod.mk.inj heq
    exact ⟨rfl, hmounts', rfl, rfl⟩
  · refine SameWorld.trans ?_ (vfsOpenAt_same h)
    exact ⟨rfl, hmounts, rfl, rfl⟩

theorem callClose_same (k : Kernel) (i : FileRef) : SameWorld k (callClose k i) := by
  unfold callClose
  split
  · exact ⟨rfl, rfl, rfl, rfl⟩
  · exact .refl k

theorem vfsClose_same {fd : Int} (h : vfsClose k t fd = some (k', r)) : SameWorld k k' := by
  unfold vfsClose at h
  split at h
  · obtain ⟨rfl, _⟩ := Prod.mk.inj (Option.some.inj h)
    exact .refl k
  · next i _ =>
      obtain ⟨vfs, hfree, heq⟩ := Option.map_eq_some_iff.mp h
      have hmounts := vfsFreeFile_mounts hfree
      obtain ⟨rfl, _⟩ := Prod.mk.inj heq
      refine (callClose_same k i).trans ?_
      exact ⟨rfl, hmounts, rfl, rfl⟩

theorem closeAllFiles_same (h : closeAllFiles k t = some k') : SameWorld k k' := by
  unfold closeAllFiles at h
  generalize List.finRange rlimitNofile = fds at h
  induction fds generalizing k with
  | nil =>
      obtain rfl := Option.some.inj h
      exact .refl k
  | cons fd fds ih =>
      rw [List.foldlM_cons] at h
      obtain ⟨k₁, hfirst, hrest⟩ := Option.bind_eq_some_iff.mp h
      apply SameWorld.trans _ (ih hrest)
      split at hfirst
      · obtain ⟨⟨k₂, r⟩, hclose, rfl⟩ := Option.map_eq_some_iff.mp hfirst
        exact vfsClose_same hclose
      · obtain rfl := Option.some.inj hfirst
        exact .refl k

/-- A listing moves the position of the file. -/
theorem GetdentsFn.call_file (getdents : GetdentsFn) (k : Kernel) (file : File) (hasBuf : Bool)
    (count : BitVec 32) : ∃ pos, (getdents.call k file hasBuf count).file = { file with pos } := by
  have honce (fill : Nat → GetdentsResult) (hfill : ∀ n, ∃ pos, (fill n).file = { file with pos }) :
      ∃ pos, (getdentsOnce file hasBuf count fill).file = { file with pos } := by
    unfold getdentsOnce
    split_ifs
    · exact ⟨_, rfl⟩
    · exact ⟨_, rfl⟩
    · exact hfill _
  cases getdents with
  | proc =>
      apply honce
      intro n
      dsimp only
      repeat' split
      all_goals exact ⟨_, rfl⟩
  | root => exact honce _ fun n => ⟨_, rfl⟩
  | sys => exact honce _ fun n => ⟨_, rfl⟩
  | dev => exact honce _ fun n => ⟨_, rfl⟩
  | bin => exact honce _ fun n => ⟨_, rfl⟩

theorem vfsGetdents_frame (k : Kernel) (fd : Int) (hasBuf : Bool) (count : BitVec 32) :
    (vfsGetdents k fd hasBuf count).2.2 = k ∨ ∃ i pos,
      (vfsGetdents k fd hasBuf count).2.2 = k.setFile i { k.vfs.files i with pos } := by
  unfold vfsGetdents
  split
  · exact .inl rfl
  split
  · exact .inl rfl
  · next _ i _ _ getdents _ =>
      obtain ⟨pos, hfile⟩ := getdents.call_file k (k.vfs.files i) hasBuf count
      exact .inr ⟨i, pos, by rw [← hfile]⟩

theorem vfsGetdents_same (k : Kernel) (fd : Int) (hasBuf : Bool) (count : BitVec 32) :
    SameWorld k (vfsGetdents k fd hasBuf count).2.2 := by
  rcases vfsGetdents_frame k fd hasBuf count with h | ⟨i, pos, h⟩
  · rw [h]
    exact .refl k
  · rw [h]
    exact ⟨rfl, rfl, rfl, rfl⟩

theorem FilesInv.getdents (hk : FilesInv k) (fd : Int) (hasBuf : Bool) (count : BitVec 32) :
    FilesInv (vfsGetdents k fd hasBuf count).2.2 := by
  rcases vfsGetdents_frame k fd hasBuf count with h | ⟨i, pos, h⟩
  · rw [h]
    exact hk
  · rw [h]
    exact ⟨idx_setFile hk.idx (hk.idx i), hk.owned⟩

theorem FilesInv.openFile {pathname : List UInt8} {flags mode : Int} (hk : FilesInv k)
    (h : vfsOpen k t pathname flags mode = some (k', r)) : FilesInv k' :=
  hk.step (e := .openFile t pathname flags mode) ⟨r, h⟩

theorem FilesInv.closeFd {fd : Int} (hk : FilesInv k) (h : vfsClose k t fd = some (k', r)) :
    FilesInv k' :=
  hk.step (e := .close t fd) ⟨r, h⟩

/-- `vfs_chdir` leaves everything as it is but the directory of the task. -/
theorem vfsChdir_frame {path : Option (List UInt8)} (hk : FilesInv k)
    (h : vfsChdir k path = some (k', r)) :
    ∃ k₁, FilesInv k₁ ∧ SameWorld k k₁ ∧ (k' = k₁ ∨ ∃ t path, k.sched.current = some t ∧
      k' = { k₁ with sched := k₁.sched.modifyTask t fun task =>
        { task with cwd := resolvedPath k t path } }) := by
  unfold vfsChdir at h
  split at h
  · obtain ⟨rfl, _⟩ := Prod.mk.inj (Option.some.inj h)
    exact ⟨k, hk, .refl k, .inl rfl⟩
  split at h
  · obtain ⟨rfl, _⟩ := Prod.mk.inj (Option.some.inj h)
    exact ⟨k, hk, .refl k, .inl rfl⟩
  next path _ t hcur =>
  obtain ⟨⟨k₁, fd⟩, hopen, h⟩ := Option.bind_eq_some_iff.mp h
  have hk₁ := hk.openFile hopen
  have hsame := vfsOpen_same hopen
  dsimp only at h
  split at h
  · obtain ⟨rfl, _⟩ := Prod.mk.inj (Option.some.inj h)
    exact ⟨k₁, hk₁, hsame, .inl rfl⟩
  obtain ⟨⟨k₂, r'⟩, hclose, h⟩ := Option.bind_eq_some_iff.mp h
  have hk₂ := (hk₁.getdents fd true (BitVec.ofNat 32 sizeofDirent)).closeFd hclose
  have hsame₂ := (hsame.trans (vfsGetdents_same k₁ fd true (BitVec.ofNat 32 sizeofDirent))).trans
    (vfsClose_same hclose)
  dsimp only at h
  split at h
  · obtain ⟨rfl, _⟩ := Prod.mk.inj (Option.some.inj h)
    exact ⟨k₂, hk₂, hsame₂, .inl rfl⟩
  split at h
  · obtain ⟨rfl, _⟩ := Prod.mk.inj (Option.some.inj h)
    exact ⟨k₂, hk₂, hsame₂, .inl rfl⟩
  · obtain ⟨rfl, _⟩ := Prod.mk.inj (Option.some.inj h)
    exact ⟨k₂, hk₂, hsame₂, .inr ⟨t, path, hcur, rfl⟩⟩

end Frame

inductive TreeEvent where
  | openFile (task : Slot) (pathname : List UInt8) (flags mode : Int)
  | close (task : Slot) (fd : Int)
  | closeAll (task : Slot)
  | getdents (fd : Int) (hasBuf : Bool) (count : BitVec 32)
  | chdir (path : Option (List UInt8))
  | other (e : TableEvent)

/-- What the rest of the kernel does. Tasks come and go, and a new one starts in the root
or in the directory of another; the mounts, the devices, the programs and the descriptor
tables are left alone. -/
structure OtherWork (e : TableEvent) (k : Kernel) (log : List TableEvent) (k' : Kernel) : Prop where
  table : e.Step k.sched log k'.sched
  files : filesMachine.step k .other k'
  mounts : k'.vfs.mounts = k.vfs.mounts
  devices : k'.devices = k.devices
  bins : k'.embeddedBins = k.embeddedBins
  cwd : ∀ t, (k'.sched.task t).cwd.bytes = [slash] ∨
    ∃ u, (k'.sched.task t).cwd = (k.sched.task u).cwd

/-- The kernel from its initialization on, with any table of programs, and beside it the
history of the task table. -/
def treeMachine : Machine (Kernel × List TableEvent) TreeEvent where
  init x := ∃ bins, x = (kernelInit bins, [])
  step x e y := match e with
    | .openFile t pathname flags mode =>
        y.2 = x.2 ∧ ∃ r, vfsOpen x.1 t pathname flags mode = some (y.1, r)
    | .close t fd => y.2 = x.2 ∧ ∃ r, vfsClose x.1 t fd = some (y.1, r)
    | .closeAll t => y.2 = x.2 ∧ closeAllFiles x.1 t = some y.1
    | .getdents fd hasBuf count => y.2 = x.2 ∧ y.1 = (vfsGetdents x.1 fd hasBuf count).2.2
    | .chdir path => y.2 = x.2 ∧ ∃ r, vfsChdir x.1 path = some (y.1, r)
    | .other e => y.2 = e :: x.2 ∧ OtherWork e x.1 x.2 y.1

/-- The directory of a task is a full path or has not been set. -/
def CwdOk (task : Task) : Prop := task.cwd.bytes = [] ∨ ∃ rest, task.cwd.bytes = slash :: rest

structure TreeInv (k : Kernel) (log : List TableEvent) : Prop where
  files : FilesInv k
  table : TableInv k.sched log
  mounts : BootMounts k.vfs
  devices : k.devices = (kernelInit []).devices
  cwd : ∀ t, CwdOk (k.sched.task t)

section Inv

variable {k k' : Kernel} {log : List TableEvent} {t : Slot}

/-- What is resolved is as much of the canonical form of a full path as fits. -/
theorem CwdOk.resolvedPath (h : CwdOk (k.sched.task t)) (pathname : List UInt8) :
    ∃ full, (∃ rest, full = slash :: rest) ∧
      (resolvedPath k t pathname).bytes = (canonicalPath full).take (maxFilenameLen - 2) := by
  rcases h with hempty | habs
  · let k₁ : Kernel := { k with sched := k.sched.modifyTask t fun task =>
      { task with cwd := CharArray.ofBytes maxFilenameLen (cstr "/") } }
    have hbytes : (CharArray.ofBytes maxFilenameLen (cstr "/")).bytes = [slash] := by decide
    have hroot : (k₁.sched.task t).cwd.bytes = [slash] := by
      rw [Scheduler.task_modifyTask_self]
      exact hbytes
    rw [resolvedPath_noCwd hempty hroot, resolvedPath_take pathname ⟨[], hroot⟩]
    exact ⟨_, fullPath_take_eq_cons ⟨[], hroot⟩ pathname, rfl⟩
  · rw [resolvedPath_take pathname habs]
    exact ⟨_, fullPath_take_eq_cons habs pathname, rfl⟩

theorem CwdOk.resolvedPath_cons (h : CwdOk (k.sched.task t)) (pathname : List UInt8) :
    ∃ rest, (Punix.resolvedPath k t pathname).bytes = slash :: rest := by
  obtain ⟨full, _, hfull⟩ := h.resolvedPath pathname
  rw [hfull]
  exact ⟨_, rfl⟩

theorem TableInv.same {s s' : Scheduler} (h : TableInv s log) (hsame : SameTable s s') :
    TableInv s' log := by
  have hfree : freeSlots s' = freeSlots s := by
    rw [freeSlots, hsame.ring, hsame.head, hsame.tail, freeSlots]
  refine ⟨hfree ▸ h.nodup, fun t => ?_, fun t => ?_, fun t => ?_, h.numbered⟩
  · rw [hfree, h.mem_free t]
  · rw [hsame.generation t, h.generation t]
  · rw [hsame.pid t, h.pid t]

theorem vfsMount_frame (vfs : Vfs) (path : List UInt8) (fs : Fs) :
    freeFiles (vfsMount vfs path fs).1 = freeFiles vfs ∧
      (vfsMount vfs path fs).1.files = vfs.files := by
  unfold vfsMount
  dsimp only
  split <;> exact ⟨rfl, rfl⟩

theorem TreeInv.init (bins : List EmbeddedBin) : TreeInv (kernelInit bins) [] := by
  have hmounts (mounts : List (List UInt8 × Fs)) (vfs : Vfs) :
      freeFiles (mounts.foldl (fun vfs mount => (vfsMount vfs mount.1 mount.2).1) vfs) =
          freeFiles vfs ∧
        (mounts.foldl (fun vfs mount => (vfsMount vfs mount.1 mount.2).1) vfs).files =
          vfs.files := by
    induction mounts generalizing vfs with
    | nil => exact ⟨rfl, rfl⟩
    | cons mount mounts ih =>
        obtain ⟨hfree, hfiles⟩ := ih (vfsMount vfs mount.1 mount.2).1
        obtain ⟨hfree', hfiles'⟩ := vfsMount_frame vfs mount.1 mount.2
        exact ⟨hfree.trans hfree', hfiles.trans hfiles'⟩
  have hvfs : freeFiles (kernelInit bins).vfs = freeFiles vfsInit ∧
      (kernelInit bins).vfs.files = vfsInit.files := hmounts bootMounts vfsInit
  obtain ⟨hfree, hfiles⟩ := hvfs
  have hbefore : FilesInv { kernelInit bins with vfs := vfsInit } := .init rfl fun _ => rfl
  have hempty : (CharArray.ofBytes maxFilenameLen []).bytes = [] := rfl
  refine ⟨⟨fun i => ?_, ?_⟩, .init rfl, rfl, rfl, fun t => .inl hempty⟩
  · rw [hfiles]
    exact hbefore.idx i
  · rw [hfree]
    exact hbefore.owned

theorem TreeInv.same (h : TreeInv k log) (hsame : SameWorld k k') (hfiles : FilesInv k') :
    TreeInv k' log where
  files := hfiles
  table := hsame.sched ▸ h.table
  mounts := hsame.mounts.trans h.mounts
  devices := hsame.devices.trans h.devices
  cwd t := by
    rw [hsame.sched]
    exact h.cwd t

theorem TreeInv.setCwd (h : TreeInv k log) (t : Slot) {path : CharArray maxFilenameLen}
    (habs : ∃ rest, path.bytes = slash :: rest) :
    TreeInv { k with sched := k.sched.modifyTask t fun task => { task with cwd := path } } log where
  files := ⟨h.files.idx, h.files.owned⟩
  table := by
    apply h.table.same
    dsimp only
    apply k.sched.sameTable_modifyTask t
    rfl
  mounts := h.mounts
  devices := h.devices
  cwd u := by
    rw [Scheduler.task_modifyTask]
    split_ifs
    · exact .inr habs
    · exact h.cwd u

theorem TreeInv.step {x y : Kernel × List TableEvent} {e : TreeEvent} (h : TreeInv x.1 x.2)
    (hs : treeMachine.step x e y) : TreeInv y.1 y.2 := by
  obtain ⟨k, log⟩ := x
  obtain ⟨k', log'⟩ := y
  cases e with
  | openFile t pathname flags mode =>
      obtain ⟨rfl, r, hrun⟩ := hs
      exact h.same (vfsOpen_same hrun) (h.files.openFile hrun)
  | close t fd =>
      obtain ⟨rfl, r, hrun⟩ := hs
      exact h.same (vfsClose_same hrun) (h.files.closeFd hrun)
  | closeAll t =>
      obtain ⟨rfl, hrun⟩ := hs
      exact h.same (closeAllFiles_same hrun) (h.files.step (e := .closeAll t) hrun)
  | getdents fd hasBuf count =>
      obtain ⟨hlog, hrun⟩ := hs
      obtain rfl : log' = log := hlog
      obtain rfl : k' = (vfsGetdents k fd hasBuf count).2.2 := hrun
      exact h.same (vfsGetdents_same k fd hasBuf count) (h.files.getdents fd hasBuf count)
  | chdir path =>
      obtain ⟨hlog, r, hrun⟩ := hs
      obtain rfl : log' = log := hlog
      obtain ⟨k₁, hfiles, hsame, heq⟩ := vfsChdir_frame h.files hrun
      have hk₁ : TreeInv k₁ log' := h.same hsame hfiles
      rcases heq with heq | ⟨t, path, _, heq⟩
      · obtain rfl : k' = k₁ := heq
        exact hk₁
      · obtain rfl : k' = _ := heq
        exact hk₁.setCwd t ((h.cwd t).resolvedPath_cons path)
  | other e =>
      obtain ⟨rfl, hwork⟩ := hs
      refine ⟨h.files.step (e := .other) hwork.files, h.table.step hwork.table,
        hwork.mounts.trans h.mounts, hwork.devices.trans h.devices, fun t => ?_⟩
      rcases hwork.cwd t with hroot | ⟨u, hcopy⟩
      · exact .inr ⟨[], hroot⟩
      · rw [CwdOk, hcopy]
        exact h.cwd u

theorem TreeInv.of_reachable {x : Kernel × List TableEvent} (h : treeMachine.Reachable x) :
    TreeInv x.1 x.2 := by
  apply h.invariant
  · rintro _ ⟨bins, rfl⟩
    exact .init bins
  · exact fun _ _ _ hinv _ hs => hinv.step hs

end Inv

end Punix
