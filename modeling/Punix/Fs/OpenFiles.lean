import Mathlib.Data.Fintype.Prod
import Punix.Lib.Machine
import Punix.Lib.Ownership
import Punix.Kernel.Boot

/-!
The accounting of open files over all runs. The abstract state is the list of
free files and the map from descriptor slots to files; `FilesInv` says that a
kernel represents a state in which every file is on exactly one side. Each of
`vfs_open`, `vfs_close` and the loop of `sched_exit` is shown to move files
between the two sides only, whichever path it takes.
-/

namespace Punix

open Lib

/-- The free files, in the order in which they will be handed out. -/
def freeFiles (vfs : Vfs) : List FileRef := Ring.window vfs.freeRing vfs.freeHead vfs.freeTail

/-- All descriptor slots of all tasks. -/
def heldFiles (k : Kernel) (slot : Slot × Fin rlimitNofile) : Option FileRef :=
  (k.files slot.1).slots slot.2

structure FilesInv (k : Kernel) : Prop where
  idx : ∀ i, (k.vfs.files i).idx = i
  owned : Owned (freeFiles k.vfs) (heldFiles k)

/-- `fd` is the lowest descriptor that refers to no file. -/
def LowestFree (files : Files) (fd : Fin rlimitNofile) : Prop :=
  files.slots fd = none ∧ ∀ fd' < fd, files.slots fd' ≠ none

theorem heldFiles_setFiles (k : Kernel) (t : Slot) (fd : Fin rlimitNofile)
    (f : Option FileRef) :
    heldFiles (k.setFiles t { slots := Function.update (k.files t).slots fd f }) =
      Function.update (heldFiles k) (t, fd) f := by
  funext ⟨t', fd'⟩
  by_cases ht : t' = t
  · subst ht
    by_cases hfd : fd' = fd
    · subst hfd
      simp [heldFiles, Kernel.setFiles]
    · simp [heldFiles, Kernel.setFiles, hfd]
  · simp [heldFiles, Kernel.setFiles, ht]

theorem vfsAllocFile_eq_none {vfs : Vfs} (h : vfsAllocFile vfs = none) : freeFiles vfs = [] := by
  unfold vfsAllocFile at h
  split at h
  · next heq => simp [freeFiles, heq]
  · cases h

theorem vfsAllocFile_eq_some {vfs vfs' : Vfs} {i : FileRef}
    (h : vfsAllocFile vfs = some (vfs', i)) :
    freeFiles vfs = i :: freeFiles vfs' ∧ vfs'.files = vfs.files := by
  unfold vfsAllocFile at h
  split at h
  · cases h
  · next hne =>
      obtain ⟨rfl, rfl⟩ := Prod.mk.inj (Option.some.inj h)
      exact ⟨Ring.window_pop vfs.freeRing hne, rfl⟩

/-- The ring is full only when every file is free. -/
theorem vfsFreeFile_eq {vfs : Vfs} {i : FileRef} (hidx : ∀ j, (vfs.files j).idx = j)
    (hroom : (freeFiles vfs).length < maxFileCnt) :
    ∃ vfs', vfsFreeFile vfs i = some vfs' ∧ freeFiles vfs' = freeFiles vfs ++ [i] ∧
      ∀ j, (vfs'.files j).idx = j := by
  have hlevel : (vfs.freeTail - vfs.freeHead).toNat < maxFileCnt := by
    simpa [freeFiles] using hroom
  have hnotFull : vfs.freeTail - vfs.freeHead ≠ BitVec.ofNat 32 maxFileCnt := by
    intro heq
    rw [heq] at hlevel
    exact absurd hlevel (by decide)
  rw [vfsFreeFile, if_neg hnotFull]
  refine ⟨_, rfl, ?_, ?_⟩
  · simp only [freeFiles, hidx i]
    exact Ring.window_push vfs.freeRing vfs.freeHead vfs.freeTail i hlevel
  · intro j
    by_cases hj : j = i
    · subst hj
      simpa using hidx j
    · simpa [hj] using hidx j

theorem filesAllocFd_eq_none {files : Files} {i : FileRef} (h : filesAllocFd files i = none) :
    ∀ fd, files.slots fd ≠ none := by
  simpa [filesAllocFd] using h

theorem filesAllocFd_eq_some {files files' : Files} {i : FileRef} {fd : Fin rlimitNofile}
    (h : filesAllocFd files i = some (files', fd)) :
    files' = { slots := Function.update files.slots fd (some i) } ∧ LowestFree files fd := by
  simp only [filesAllocFd, Option.map_eq_some_iff, ← Fin.find?_eq_find?_finRange,
    Fin.find?_eq_some_iff] at h
  obtain ⟨fd, ⟨hfree, hlow⟩, heq⟩ := h
  obtain ⟨rfl, rfl⟩ := Prod.mk.inj heq
  refine ⟨rfl, by simpa using hfree, fun fd' hlt hnone => ?_⟩
  simpa [hnone] using hlow fd' hlt

@[simp] theorem filesFreeFd_coe (files : Files) (fd : Fin rlimitNofile) :
    filesFreeFd files fd = { slots := Function.update files.slots fd none } := by
  simp [filesFreeFd]

theorem filesFindByFd_eq_some {files : Files} {fd : Int} {i : FileRef}
    (h : filesFindByFd files fd = some i) :
    ∃ slot : Fin rlimitNofile, fd = slot ∧ files.slots slot = some i := by
  unfold filesFindByFd at h
  split at h
  · next hfd => exact ⟨⟨fd.toNat, by omega⟩, by simp; omega, h⟩
  · cases h

/-- An open function sets the operations, the driver data and the position of the
file, and nothing else. -/
theorem Fs.openFile_frame (fs : Fs) (k : Kernel) (file : File) :
    ∃ driverData fileOps pos, (fs.openFile k file).2 = { file with driverData, fileOps, pos } := by
  cases fs with
  | root => exact ⟨_, _, _, rfl⟩
  | sys =>
      simp only [Fs.openFile, sysOpen]
      split_ifs <;> exact ⟨_, _, _, rfl⟩
  | proc =>
      simp only [Fs.openFile, procOpen]
      split
      · exact ⟨_, _, _, rfl⟩
      · split
        · exact ⟨_, _, _, rfl⟩
        · split
          · exact ⟨_, _, _, rfl⟩
          · split_ifs <;> exact ⟨_, _, _, rfl⟩
  | dev =>
      simp only [Fs.openFile, devOpen]
      split_ifs
      · exact ⟨_, _, _, rfl⟩
      · exact ⟨_, _, _, rfl⟩
      · exact ⟨_, _, _, rfl⟩
      · exact ⟨_, _, _, rfl⟩
      · split
        · exact ⟨_, _, _, rfl⟩
        · split
          · simp only [ttyOpen]
            split <;> exact ⟨_, _, _, rfl⟩
          · exact ⟨_, _, _, rfl⟩
  | bin =>
      simp only [Fs.openFile, binOpen]
      split
      · exact ⟨_, _, _, rfl⟩
      · split <;> exact ⟨_, _, _, rfl⟩

theorem Fs.openFile_idx (fs : Fs) (k : Kernel) (file : File) :
    (fs.openFile k file).2.idx = file.idx := by
  obtain ⟨driverData, fileOps, pos, hfile⟩ := fs.openFile_frame k file
  rw [hfile]

/-- A successful open has taken a file and a descriptor, and the filesystem of
the resolved path has set the file up. -/
theorem vfsOpen_success {k k' : Kernel} {t : Slot} {pathname : List UInt8} {flags mode r : Int}
    (h : vfsOpen k t pathname flags mode = some (k', r)) (hr : 0 ≤ r) :
    ∃ fs vfs i files, ∃ fd : Fin rlimitNofile,
      pathToFs k.vfs (resolvedPath k t pathname).bytes = some fs ∧
      vfsAllocFile k.vfs = some (vfs, i) ∧ filesAllocFd (k.files t) i = some (files, fd) ∧ r = fd ∧
      ∃ res file, fs.openFile (({ k with vfs } : Kernel).setFiles t files)
          (openedFile (vfs.files i) fd (resolvedPath k t pathname) flags mode) = (res, file) ∧
        0 ≤ res ∧ k' = (({ k with vfs } : Kernel).setFiles t files).setFile i file := by
  unfold vfsOpen at h
  dsimp only at h
  cases hfs : pathToFs k.vfs (resolvedPath k t pathname).bytes with
  | none =>
      simp only [hfs, Option.some_inj, Prod.mk.injEq] at h
      omega
  | some fs =>
  cases halloc : vfsAllocFile k.vfs with
  | none =>
      simp only [hfs, halloc, Option.some_inj, Prod.mk.injEq] at h
      omega
  | some alloc =>
  obtain ⟨vfs, i⟩ := alloc
  cases hslot : filesAllocFd (k.files t) i with
  | none =>
      simp only [hfs, halloc, hslot, Option.map_eq_some_iff, Prod.mk.injEq] at h
      obtain ⟨_, _, _, hneg⟩ := h
      omega
  | some slot =>
  obtain ⟨files, fd⟩ := slot
  simp only [hfs, halloc, hslot] at h
  cases hopen : fs.openFile (({ k with vfs } : Kernel).setFiles t files)
      (openedFile (vfs.files i) fd (resolvedPath k t pathname) flags mode) with
  | mk res file =>
  unfold vfsOpenAt at h
  have hopen' : fs.openFile (({ k with vfs } : Kernel).setFiles t files)
      (openedFile ((({ k with vfs } : Kernel).setFiles t files).vfs.files i) fd
        (resolvedPath k t pathname) flags mode) = (res, file) := hopen
  rw [hopen'] at h
  dsimp only at h
  split at h
  · simp only [Option.map_eq_some_iff, Prod.mk.injEq] at h
    obtain ⟨_, _, _, hneg⟩ := h
    omega
  · next hres =>
    obtain ⟨rfl, rfl⟩ := Prod.mk.inj (Option.some.inj h)
    exact ⟨fs, vfs, i, files, fd, rfl, rfl, hslot, rfl, res, file, hopen, by omega, rfl⟩

@[simp] theorem Kernel.setFile_self (k : Kernel) (i : FileRef) (file : File) :
    (k.setFile i file).vfs.files i = file := by
  simp [Kernel.setFile]

@[simp] theorem heldFiles_setFile (k : Kernel) (i : FileRef) (file : File) :
    heldFiles (k.setFile i file) = heldFiles k := rfl

@[simp] theorem freeFiles_setFile (k : Kernel) (i : FileRef) (file : File) :
    freeFiles (k.setFile i file).vfs = freeFiles k.vfs := rfl

theorem idx_setFile {k : Kernel} (hidx : ∀ j, (k.vfs.files j).idx = j) {i : FileRef} {file : File}
    (hfile : file.idx = i) : ∀ j, ((k.setFile i file).vfs.files j).idx = j := by
  intro j
  by_cases hj : j = i
  · subst hj
    simpa [Kernel.setFile] using hfile
  · simpa [Kernel.setFile, hj] using hidx j

/-- A file given back by its only holder. -/
theorem FilesInv.free {k : Kernel} (hk : FilesInv k) {t : Slot} {fd : Fin rlimitNofile}
    {i : FileRef} (hheld : (k.files t).slots fd = some i) :
    ∃ vfs, vfsFreeFile k.vfs i = some vfs ∧
      FilesInv { k.setFiles t (filesFreeFd (k.files t) fd) with vfs } := by
  have hheld' : heldFiles k (t, fd) = some i := hheld
  have hroom : (freeFiles k.vfs).length < maxFileCnt := by
    simpa using hk.owned.length_lt hheld'
  obtain ⟨vfs, hvfs, hwindow, hidx⟩ := vfsFreeFile_eq (i := i) hk.idx hroom
  refine ⟨vfs, hvfs, hidx, ?_⟩
  have hgive := hk.owned.give hheld'
  rw [← hwindow, ← heldFiles_setFiles, ← filesFreeFd_coe] at hgive
  exact hgive

/-- With a file in hand, either the file stays in its slot or the slot is
cleared and the file is free again. -/
theorem vfsOpenAt_spec {k : Kernel} (hk : FilesInv k) {t : Slot} {fd : Fin rlimitNofile}
    {i : FileRef} (hheld : (k.files t).slots fd = some i) (fs : Fs)
    (path : CharArray maxFilenameLen) (flags mode : Int) :
    ∃ k' r, vfsOpenAt k t i fd fs path flags mode = some (k', r) ∧ FilesInv k' ∧
      ((r = -1 ∧ k'.files = (k.setFiles t (filesFreeFd (k.files t) fd)).files) ∨
        (r = fd ∧ k'.files = k.files)) := by
  unfold vfsOpenAt
  cases hopen : fs.openFile k (openedFile (k.vfs.files i) fd path flags mode) with
  | mk res file =>
  have hfile : file.idx = i := by
    have hsame := fs.openFile_idx k (openedFile (k.vfs.files i) fd path flags mode)
    rw [hopen] at hsame
    exact hsame.trans (hk.idx i)
  have hk' : FilesInv (k.setFile i file) := ⟨idx_setFile hk.idx hfile, hk.owned⟩
  by_cases hres : res < 0
  · have hheld' : ((k.setFile i file).files t).slots fd = some i := hheld
    obtain ⟨vfs, hvfs, hinv⟩ := hk'.free hheld'
    refine ⟨_, -1, ?_, hinv, .inl ⟨rfl, rfl⟩⟩
    simp only [if_pos hres]
    rw [show ((k.setFile i file).setFiles t (filesFreeFd ((k.setFile i file).files t) fd)).vfs =
      (k.setFile i file).vfs from rfl, hvfs]
    rfl
  · refine ⟨_, fd, ?_, hk', .inr ⟨rfl, rfl⟩⟩
    simp only [if_neg hres]

/-- Whatever `vfs_open` runs into, it ends in a state in which every file is
accounted for, with the lowest free descriptor taken or with the tables as they
were. -/
theorem vfsOpen_spec {k : Kernel} (hk : FilesInv k) (t : Slot) (path : List UInt8)
    (flags mode : Int) :
    ∃ k' r, vfsOpen k t path flags mode = some (k', r) ∧ FilesInv k' ∧
      ((r = -1 ∧ k'.files = k.files) ∨
        ∃ fd : Fin rlimitNofile, r = fd ∧ LowestFree (k.files t) fd ∧ ∃ i,
          k'.files = Function.update k.files t
            { slots := Function.update (k.files t).slots fd (some i) }) := by
  unfold vfsOpen
  cases hfs : pathToFs k.vfs (resolvedPath k t path).bytes with
  | none => exact ⟨k, -1, by simp [hfs], hk, .inl ⟨rfl, rfl⟩⟩
  | some fs =>
  cases halloc : vfsAllocFile k.vfs with
  | none => exact ⟨k, -1, by simp [hfs], hk, .inl ⟨rfl, rfl⟩⟩
  | some alloc =>
  obtain ⟨vfs, i⟩ := alloc
  obtain ⟨hfree, hfiles⟩ := vfsAllocFile_eq_some halloc
  have hidx : ∀ j, (vfs.files j).idx = j := by
    rw [hfiles]
    exact hk.idx
  have howned : Owned (i :: freeFiles vfs) (heldFiles k) := hfree ▸ hk.owned
  cases hfd : filesAllocFd (k.files t) i with
  | none =>
      -- the file goes back to the end of the ring
      have hroom : (freeFiles vfs).length < maxFileCnt := by
        have hle := howned.length_le
        simp only [Fintype.card_fin, List.length_cons] at hle
        omega
      obtain ⟨vfs', hfreed, hwindow, hidx'⟩ := vfsFreeFile_eq (i := i) hidx hroom
      refine ⟨{ k with vfs := vfs' }, -1, ?_, ⟨hidx', ?_⟩, .inl ⟨rfl, rfl⟩⟩
      · simp [hfs, hfd, hfreed]
      · rw [hwindow]
        exact howned.rotate
  | some slot =>
      obtain ⟨files, fd⟩ := slot
      obtain ⟨rfl, hlow⟩ := filesAllocFd_eq_some hfd
      let k₁ := ({ k with vfs } : Kernel).setFiles t
        { slots := Function.update (k.files t).slots fd (some i) }
      have htaken : Owned (freeFiles vfs) (heldFiles k₁) := by
        have htake := howned.take (b := (t, fd)) hlow.1
        rwa [← heldFiles_setFiles] at htake
      have hheld : (k₁.files t).slots fd = some i := by simp [k₁, Kernel.setFiles]
      obtain ⟨k', r, hrun, hinv, hres⟩ :=
        vfsOpenAt_spec ⟨hidx, htaken⟩ hheld fs (resolvedPath k t path) flags mode
      refine ⟨k', r, by simp [hfs, hfd, hrun, k₁], hinv, ?_⟩
      rcases hres with ⟨rfl, hsame⟩ | ⟨rfl, hsame⟩
      · refine .inl ⟨rfl, ?_⟩
        rw [hsame]
        have hrestore : Function.update (k.files t).slots fd none = (k.files t).slots := by
          rw [← hlow.1, Function.update_eq_self]
        simp [k₁, Kernel.setFiles, hrestore]
      · exact .inr ⟨fd, rfl, hlow, i, hsame⟩

theorem FilesInv.callClose {k : Kernel} (hk : FilesInv k) (i : FileRef) :
    FilesInv (callClose k i) := by
  unfold Punix.callClose
  split
  · next close _ =>
      have hfile : (close.call (k.vfs.files i)).idx = i := by
        cases close
        exact hk.idx i
      exact ⟨idx_setFile hk.idx hfile, hk.owned⟩
  · exact hk

@[simp] theorem files_callClose (k : Kernel) (i : FileRef) : (callClose k i).files = k.files := by
  unfold callClose
  split <;> rfl

/-- `vfs_close` fails on a free descriptor and otherwise frees it. -/
theorem vfsClose_spec {k : Kernel} (hk : FilesInv k) (t : Slot) (fd : Int) :
    ∃ k' r, vfsClose k t fd = some (k', r) ∧ FilesInv k' ∧
      k'.files = (k.setFiles t (filesFreeFd (k.files t) fd)).files := by
  unfold vfsClose
  cases hfind : filesFindByFd (k.files t) fd with
  | none =>
      refine ⟨k, -1, rfl, hk, ?_⟩
      have hsame : filesFreeFd (k.files t) fd = k.files t := by
        unfold filesFindByFd at hfind
        unfold filesFreeFd
        split_ifs with hfd
        · rw [dif_pos hfd] at hfind
          rw [← hfind, Function.update_eq_self]
        · rfl
      simp [hsame, Kernel.setFiles]
  | some i =>
      obtain ⟨slot, rfl, hheld⟩ := filesFindByFd_eq_some hfind
      have hheld' : ((callClose k i).files t).slots slot = some i := by
        rwa [files_callClose]
      obtain ⟨vfs, hvfs, hinv⟩ := (hk.callClose i).free hheld'
      refine ⟨_, 0, ?_, hinv, ?_⟩
      · simp [Kernel.setFiles, hvfs]
      · simp [Kernel.setFiles]

/-- The loop of `sched_exit` closes the descriptors it visits; it touches no
other task. -/
private theorem closeFiles_spec {k : Kernel} (hk : FilesInv k) (t : Slot)
    (fds : List (Fin rlimitNofile)) :
    ∃ k', fds.foldlM (fun k fd =>
        if ((k.files t).slots fd).isSome then (vfsClose k t fd).map Prod.fst else some k) k =
          some k' ∧
      FilesInv k' ∧ (∀ u, u ≠ t → k'.files u = k.files u) ∧
      ∀ fd, fd ∈ fds ∨ (k.files t).slots fd = none → (k'.files t).slots fd = none := by
  induction fds generalizing k with
  | nil => exact ⟨k, rfl, hk, fun _ _ => rfl, fun fd h => by simpa using h⟩
  | cons fd fds ih =>
      rw [List.foldlM_cons]
      cases hfd : (k.files t).slots fd with
      | none =>
          obtain ⟨k', hrun, hinv, hother, hclosed⟩ := ih hk
          refine ⟨k', by simpa using hrun, hinv, hother, fun fd' h => hclosed fd' ?_⟩
          rcases h with h | h
          · rcases List.mem_cons.mp h with rfl | h
            · exact .inr hfd
            · exact .inl h
          · exact .inr h
      | some i =>
          obtain ⟨k₁, r, hclose, hk₁, hfiles⟩ := vfsClose_spec hk t fd
          obtain ⟨k', hrun, hinv, hother, hclosed⟩ := ih hk₁
          refine ⟨k', by simpa [hclose] using hrun, hinv, fun u hu => ?_, fun fd' h => hclosed fd' ?_⟩
          · rw [hother u hu, hfiles]
            simp [Kernel.setFiles, hu]
          · rw [hfiles]
            by_cases heq : fd' = fd
            · exact .inr (by simp [Kernel.setFiles, heq])
            · refine h.imp (fun h => ?_) fun h => by simpa [Kernel.setFiles, heq] using h
              exact (List.mem_cons.mp h).resolve_left heq

/-- After the loop of `sched_exit` the task has no open file. -/
theorem closeAllFiles_spec {k : Kernel} (hk : FilesInv k) (t : Slot) :
    ∃ k', closeAllFiles k t = some k' ∧ FilesInv k' ∧
      (∀ u, u ≠ t → k'.files u = k.files u) ∧ ∀ fd, (k'.files t).slots fd = none := by
  obtain ⟨k', hrun, hinv, hother, hclosed⟩ := closeFiles_spec hk t (List.finRange rlimitNofile)
  exact ⟨k', hrun, hinv, hother, fun fd => hclosed fd (.inl (List.mem_finRange fd))⟩

inductive FilesEvent where
  | openFile (task : Slot) (pathname : List UInt8) (flags mode : Int)
  | close (task : Slot) (fd : Int)
  | closeAll (task : Slot)
  | other

/-- Calls by any tasks in any order. Between them the rest of the kernel may
change in any way that leaves the ring and the descriptor tables alone. -/
def filesMachine : Machine Kernel FilesEvent where
  init k := k.vfs = vfsInit ∧ ∀ t, k.files t = filesInit
  step k e k' := match e with
    | .openFile t pathname flags mode => ∃ r, vfsOpen k t pathname flags mode = some (k', r)
    | .close t fd => ∃ r, vfsClose k t fd = some (k', r)
    | .closeAll t => closeAllFiles k t = some k'
    | .other =>
        freeFiles k'.vfs = freeFiles k.vfs ∧ k'.vfs.freeHead = k.vfs.freeHead ∧
          k'.vfs.freeTail = k.vfs.freeTail ∧
          (∀ i, (k'.vfs.files i).idx = (k.vfs.files i).idx) ∧ k'.files = k.files

theorem FilesInv.init {k : Kernel} (hvfs : k.vfs = vfsInit) (hfiles : ∀ t, k.files t = filesInit) :
    FilesInv k := by
  have hheld : ∀ p, heldFiles k p = none := fun p => by
    simp [heldFiles, hfiles, filesInit]
  refine ⟨fun i => by rw [hvfs]; rfl, ?_⟩
  have hfree : freeFiles k.vfs = List.ofFn id := by
    rw [hvfs]
    exact Ring.window_zero id
  rw [hfree]
  refine ⟨List.nodup_ofFn.mpr Function.injective_id, fun i => ?_, by simp [hheld]⟩
  exact ⟨fun _ p => by simp [hheld p], fun _ => List.mem_ofFn.mpr ⟨i, rfl⟩⟩

theorem FilesInv.step {k k' : Kernel} {e : FilesEvent} (hk : FilesInv k)
    (hstep : filesMachine.step k e k') : FilesInv k' := by
  cases e with
  | openFile t pathname flags mode =>
      obtain ⟨r, hrun⟩ := hstep
      obtain ⟨k₁, r₁, hrun₁, hinv, _⟩ := vfsOpen_spec hk t pathname flags mode
      obtain ⟨rfl, _⟩ := Prod.mk.inj (Option.some.inj (hrun₁.symm.trans hrun))
      exact hinv
  | close t fd =>
      obtain ⟨r, hrun⟩ := hstep
      obtain ⟨k₁, r₁, hrun₁, hinv, _⟩ := vfsClose_spec hk t fd
      obtain ⟨rfl, _⟩ := Prod.mk.inj (Option.some.inj (hrun₁.symm.trans hrun))
      exact hinv
  | closeAll t =>
      obtain ⟨k₁, hrun₁, hinv, _⟩ := closeAllFiles_spec hk t
      obtain rfl := Option.some.inj (hrun₁.symm.trans hstep)
      exact hinv
  | other =>
      obtain ⟨hfree, _, _, hidx, hfiles⟩ := hstep
      refine ⟨fun i => (hidx i).trans (hk.idx i), ?_⟩
      have hheld : heldFiles k' = heldFiles k := by
        funext p
        simp [heldFiles, hfiles]
      rw [hfree, hheld]
      exact hk.owned

theorem FilesInv.of_reachable {k : Kernel} (h : filesMachine.Reachable k) : FilesInv k :=
  h.invariant (fun _ hinit => .init hinit.1 hinit.2) fun _ _ _ hk _ hstep => hk.step hstep

/-- In every state of every run each file is free or open, the counters give
the number of free files, and every operation comes to its end: none of them
panics, an `open` takes the lowest free descriptor or changes no descriptor,
and `close` and the loop of `sched_exit` clear the descriptors they are for. -/
theorem openFiles_accounted {k : Kernel} (h : filesMachine.Reachable k) :
    (∀ i, ((freeFiles k.vfs).count i = 1 ∧ ∀ slot, heldFiles k slot ≠ some i) ∨
      (i ∉ freeFiles k.vfs ∧ ∃! slot, heldFiles k slot = some i)) ∧
    (k.vfs.freeTail - k.vfs.freeHead).toNat =
      (Finset.univ.filter fun i => ∀ slot, heldFiles k slot ≠ some i).card ∧
    (∀ t pathname flags mode, ∃ k' r, vfsOpen k t pathname flags mode = some (k', r) ∧
      ((r < 0 ∧ k'.files = k.files) ∨
        ∃ fd : Fin rlimitNofile, r = fd ∧ LowestFree (k.files t) fd ∧ ∃ i,
          k'.files = Function.update k.files t
            { slots := Function.update (k.files t).slots fd (some i) })) ∧
    (∀ t fd, ∃ k' r, vfsClose k t fd = some (k', r) ∧
      k'.files = Function.update k.files t (filesFreeFd (k.files t) fd)) ∧
    ∀ t, ∃ k', closeAllFiles k t = some k' ∧ ∀ fd, (k'.files t).slots fd = none := by
  have hk := FilesInv.of_reachable h
  refine ⟨hk.owned.count_or, ?_, fun t pathname flags mode => ?_, fun t fd => ?_, fun t => ?_⟩
  · rw [← hk.owned.length_eq_card, freeFiles, Ring.length_window]
  · obtain ⟨k', r, hrun, _, hres⟩ := vfsOpen_spec hk t pathname flags mode
    exact ⟨k', r, hrun, hres.imp_left fun hfail => ⟨by omega, hfail.2⟩⟩
  · obtain ⟨k', r, hrun, _, hfiles⟩ := vfsClose_spec hk t fd
    exact ⟨k', r, hrun, hfiles⟩
  · obtain ⟨k', hrun, _, _, hclosed⟩ := closeAllFiles_spec hk t
    exact ⟨k', hrun, hclosed⟩

/-- Task 1 opens a file, task 2 another one, and task 1 closes its own: that one is free again,
and the other one is still in its only slot. -/
theorem openFiles_accounted_close : ∃ k₁ k₂ k₃,
    vfsOpen (kernelInit []) 1 (cstr "/proc") 0 0 = some (k₁, 0) ∧
      vfsOpen k₁ 2 (cstr "/dev/tty1") 0 0 = some (k₂, 0) ∧ vfsClose k₂ 1 0 = some (k₃, 0) ∧
      (freeFiles k₃.vfs).count 0 = 1 ∧ (∃! slot, heldFiles k₃ slot = some 1) ∧
      (Finset.univ.filter fun i => ∀ slot, heldFiles k₃ slot ≠ some i).card = 1023 := by
  have hrun : ((vfsOpen (kernelInit []) 1 (cstr "/proc") 0 0).bind fun first =>
      (vfsOpen first.1 2 (cstr "/dev/tty1") 0 0).bind fun second =>
        (vfsClose second.1 1 0).map fun third =>
          decide (first.2 = 0 ∧ second.2 = 0 ∧ third.2 = 0 ∧
            0 ∈ freeFiles third.1.vfs ∧ heldFiles third.1 (2, 0) = some 1 ∧
            (third.1.vfs.freeTail - third.1.vfs.freeHead).toNat = 1023)) = some true := by
    decide +kernel
  simp only [Option.bind_eq_some_iff, Option.map_eq_some_iff, decide_eq_true_iff] at hrun
  obtain ⟨⟨k₁, _⟩, hopen, ⟨k₂, _⟩, hopen', ⟨k₃, _⟩, hclose, rfl, rfl, rfl, hfree, hheld, hlevel⟩ :=
    hrun
  have hboot : filesMachine.Reachable { kernelInit [] with vfs := vfsInit } :=
    .init ⟨rfl, fun _ => rfl⟩
  have hmounted : filesMachine.Reachable (kernelInit []) :=
    hboot.step (e := .other) trivial ⟨rfl, rfl, rfl, fun _ => rfl, rfl⟩
  have hreach₁ : filesMachine.Reachable k₁ :=
    hmounted.step (e := .openFile 1 (cstr "/proc") 0 0) trivial ⟨0, hopen⟩
  have hreach₂ : filesMachine.Reachable k₂ :=
    hreach₁.step (e := .openFile 2 (cstr "/dev/tty1") 0 0) trivial ⟨0, hopen'⟩
  have hreach₃ : filesMachine.Reachable k₃ :=
    hreach₂.step (e := .close 1 0) trivial ⟨0, hclose⟩
  obtain ⟨hfiles, hcount, -⟩ := openFiles_accounted hreach₃
  refine ⟨k₁, k₂, k₃, hopen, hopen', hclose, ?_, ?_, hcount.symm.trans hlevel⟩
  · rcases hfiles 0 with ⟨hone, -⟩ | ⟨hnot, -⟩
    · exact hone
    · exact absurd hfree hnot
  · rcases hfiles 1 with ⟨-, hunheld⟩ | ⟨-, honly⟩
    · exact absurd hheld (hunheld (2, 0))
    · exact honly

end Punix
