import Punix.Fs.Chdir

/-!
What `vfs_chdir` takes and gives back. It opens a file only to look at it: on every path
out of it the descriptor is clear and the file is in the ring of free files again. This
does not depend on each file being open once, which a fork ends, but only on the ring and
the indices of the files.
-/

namespace Punix

open Lib

/-- What the ring of free files keeps whatever the descriptors refer to. -/
structure FileRing (vfs : Vfs) : Prop where
  idx : ∀ i, (vfs.files i).idx = i
  level : (freeFiles vfs).length ≤ maxFileCnt

inductive VfsEvent where
  | alloc (file : FileRef)
  | free (file : FileRef)
  | other

/-- Files are allocated and freed, by whomever and however often, and change in between. -/
def vfsMachine : Machine Vfs VfsEvent where
  init vfs := vfs = vfsInit
  step vfs e vfs' := match e with
    | .alloc i => vfsAllocFile vfs = some (vfs', i)
    | .free i => vfsFreeFile vfs i = some vfs'
    | .other => freeFiles vfs' = freeFiles vfs ∧ ∀ i, (vfs'.files i).idx = (vfs.files i).idx

namespace FileRing

variable {vfs vfs' : Vfs} {i : FileRef}

theorem alloc (h : FileRing vfs) (halloc : vfsAllocFile vfs = some (vfs', i)) :
    FileRing vfs' ∧ (freeFiles vfs').length < maxFileCnt := by
  obtain ⟨hfree, hfiles⟩ := vfsAllocFile_eq_some halloc
  have hlevel := h.level
  rw [hfree, List.length_cons] at hlevel
  constructor
  · constructor
    · rw [hfiles]
      exact h.idx
    · omega
  · omega

/-- A file can be freed if and only if not all entries of the ring are in use. -/
theorem free_iff (h : FileRing vfs) :
    (vfsFreeFile vfs i).isSome ↔ (freeFiles vfs).length < maxFileCnt := by
  constructor
  · intro hsome
    by_contra hfull
    have hlevel := h.level
    have hlength : (freeFiles vfs).length = (vfs.freeTail - vfs.freeHead).toNat :=
      Ring.length_window _ _ _
    have heq : vfs.freeTail - vfs.freeHead = BitVec.ofNat 32 maxFileCnt := by
      apply BitVec.eq_of_toNat_eq
      rw [← hlength]
      have hsize : (BitVec.ofNat 32 maxFileCnt).toNat = maxFileCnt := by decide
      omega
    rw [vfsFreeFile, if_pos heq] at hsome
    cases hsome
  · intro hroom
    obtain ⟨vfs', hfree, -⟩ := vfsFreeFile_eq (i := i) h.idx hroom
    rw [hfree]
    rfl

theorem free (h : FileRing vfs) (hfree : vfsFreeFile vfs i = some vfs') :
    FileRing vfs' ∧ freeFiles vfs' = freeFiles vfs ++ [i] := by
  have hroom : (freeFiles vfs).length < maxFileCnt := by
    apply (h.free_iff (i := i)).mp
    rw [hfree]
    rfl
  obtain ⟨vfs₁, hfree₁, hfiles, hidx⟩ := vfsFreeFile_eq (i := i) h.idx hroom
  obtain rfl := Option.some.inj (hfree₁.symm.trans hfree)
  refine ⟨⟨hidx, ?_⟩, hfiles⟩
  rw [hfiles, List.length_append, List.length_singleton]
  omega

theorem init : FileRing vfsInit where
  idx _ := rfl
  level := by
    have hfree : freeFiles vfsInit = List.ofFn id := Ring.window_zero id
    rw [hfree, List.length_ofFn]

theorem step {e : VfsEvent} (h : FileRing vfs) (hstep : vfsMachine.step vfs e vfs') :
    FileRing vfs' := by
  cases e with
  | alloc i => exact (h.alloc hstep).1
  | free i => exact (h.free hstep).1
  | other =>
      obtain ⟨hfree, hidx⟩ := hstep
      constructor
      · intro i
        rw [hidx i]
        exact h.idx i
      · rw [hfree]
        exact h.level

/-- The ring is right in every run. -/
theorem of_reachable (h : vfsMachine.Reachable vfs) : FileRing vfs :=
  h.invariant (fun _ hinit => hinit ▸ init) fun _ _ _ hring _ hstep => hring.step hstep

end FileRing

theorem FilesInv.fileRing {k : Kernel} (h : FilesInv k) : FileRing k.vfs := by
  constructor
  · exact h.idx
  · have hle := h.owned.length_le
    rwa [Fintype.card_fin] at hle

section Loan

variable {k k₁ k₂ : Kernel} {t : Slot} {i : FileRef} {fd : Fin rlimitNofile}

/-- In `k₁` the task has the file `i` of the ring of `k` in its free descriptor `fd`. -/
structure Loan (k : Kernel) (t : Slot) (fd : Fin rlimitNofile) (i : FileRef) (k₁ : Kernel) :
    Prop where
  ring : FileRing k₁.vfs
  room : (freeFiles k₁.vfs).length < maxFileCnt
  free : freeFiles k.vfs = i :: freeFiles k₁.vfs
  clear : (k.files t).slots fd = none
  files : k₁.files = Function.update k.files t
    { slots := Function.update (k.files t).slots fd (some i) }
  sched : k₁.sched = k.sched

/-- Descriptors, free files and tasks are those of `k`. -/
structure Settled (k k₁ : Kernel) : Prop where
  ring : FileRing k₁.vfs
  free : (freeFiles k₁.vfs).Perm (freeFiles k.vfs)
  files : k₁.files = k.files
  sched : k₁.sched = k.sched

theorem Settled.refl (h : FileRing k.vfs) : Settled k k := ⟨h, .refl _, rfl, rfl⟩

namespace Loan

theorem held (h : Loan k t fd i k₁) : (k₁.files t).slots fd = some i := by
  rw [h.files]
  simp

/-- Changes of the file on loan, or of any other file. -/
theorem setFile (h : Loan k t fd i k₁) {j : FileRef} {file : File} (hfile : file.idx = j) :
    Loan k t fd i (k₁.setFile j file) where
  ring := ⟨idx_setFile h.ring.idx hfile, h.ring.level⟩
  room := h.room
  free := h.free
  clear := h.clear
  files := h.files
  sched := h.sched

/-- Clearing the descriptor and freeing the file settles the loan. -/
theorem settle (h : Loan k t fd i k₁) :
    ∃ vfs, vfsFreeFile (k₁.setFiles t (filesFreeFd (k₁.files t) fd)).vfs i = some vfs ∧
      Settled k { k₁.setFiles t (filesFreeFd (k₁.files t) fd) with vfs } := by
  obtain ⟨vfs, hvfs⟩ := Option.isSome_iff_exists.mp ((h.ring.free_iff (i := i)).mpr h.room)
  obtain ⟨hring, hfree⟩ := h.ring.free hvfs
  refine ⟨vfs, hvfs, hring, ?_, ?_, h.sched⟩
  · dsimp only
    rw [hfree, h.free]
    exact List.perm_append_singleton i _
  · funext u
    have hclear : Function.update (k.files t).slots fd none = (k.files t).slots := by
      rw [← h.clear, Function.update_eq_self]
    by_cases hu : u = t
    · subst hu
      simp [Kernel.setFiles, h.files, hclear]
    · simp [Kernel.setFiles, h.files, hu]

theorem getdents (h : Loan k t fd i k₁) (d : Int) (hasBuf : Bool) (count : BitVec 32) :
    Loan k t fd i (vfsGetdents k₁ d hasBuf count).2.2 := by
  rcases vfsGetdents_frame k₁ d hasBuf count with heq | ⟨j, pos, heq⟩
  · rw [heq]
    exact h
  · rw [heq]
    apply h.setFile
    exact h.ring.idx j

theorem callClose (h : Loan k t fd i k₁) : Loan k t fd i (callClose k₁ i) := by
  unfold Punix.callClose
  split
  · next close _ =>
      apply h.setFile
      cases close
      exact h.ring.idx i
  · exact h

/-- `vfs_close` of the descriptor settles the loan. -/
theorem close (h : Loan k t fd i k₁) :
    ∃ k₂, vfsClose k₁ t ((fd : Nat) : Int) = some (k₂, 0) ∧ Settled k k₂ := by
  have hfind : filesFindByFd (k₁.files t) ((fd : Nat) : Int) = some i := by
    simp [filesFindByFd, h.held]
  obtain ⟨vfs, hvfs, hsettled⟩ := h.callClose.settle
  refine ⟨_, ?_, hsettled⟩
  unfold vfsClose
  rw [hfind]
  dsimp only
  rw [hvfs]
  rfl

/-- The filesystem keeps the file or the loan is settled. -/
theorem openAt (h : Loan k t fd i k₁) (fs : Fs) (path : CharArray maxFilenameLen)
    (flags mode : Int) :
    ∃ k₂ r, vfsOpenAt k₁ t i fd fs path flags mode = some (k₂, r) ∧
      ((r = -1 ∧ Settled k k₂) ∨ (r = fd ∧ Loan k t fd i k₂)) := by
  unfold vfsOpenAt
  have hidx := (fs.openFile_idx k₁ (openedFile (k₁.vfs.files i) fd path flags mode)).trans
    (h.ring.idx i)
  generalize fs.openFile k₁ (openedFile (k₁.vfs.files i) fd path flags mode) = opened at hidx
  obtain ⟨res, file⟩ := opened
  have hset := h.setFile hidx
  dsimp only
  split
  · obtain ⟨vfs, hvfs, hsettled⟩ := hset.settle
    rw [hvfs]
    exact ⟨_, _, rfl, .inl ⟨rfl, hsettled⟩⟩
  · exact ⟨_, _, rfl, .inr ⟨rfl, hset⟩⟩

end Loan

/-- `vfs_open` takes a file and a descriptor or nothing. -/
theorem vfsOpen_loan (h : FileRing k.vfs) (t : Slot) (path : List UInt8) (flags mode : Int) :
    ∃ k₁ r, vfsOpen k t path flags mode = some (k₁, r) ∧
      ((r = -1 ∧ Settled k k₁) ∨ ∃ fd i, r = ((fd : Fin rlimitNofile) : Int) ∧ Loan k t fd i k₁) := by
  unfold vfsOpen
  dsimp only
  cases hfs : pathToFs k.vfs (resolvedPath k t path).bytes with
  | none => exact ⟨k, -1, rfl, .inl ⟨rfl, .refl h⟩⟩
  | some fs =>
  cases halloc : vfsAllocFile k.vfs with
  | none => exact ⟨k, -1, rfl, .inl ⟨rfl, .refl h⟩⟩
  | some alloc =>
  obtain ⟨vfs, i⟩ := alloc
  obtain ⟨hring, hroom⟩ := h.alloc halloc
  obtain ⟨hfree, -⟩ := vfsAllocFile_eq_some halloc
  dsimp only
  cases hfd : filesAllocFd (k.files t) i with
  | none =>
      -- no descriptor: the file goes to the end of the ring
      obtain ⟨vfs', hvfs⟩ := Option.isSome_iff_exists.mp ((hring.free_iff (i := i)).mpr hroom)
      obtain ⟨hring', hfree'⟩ := hring.free hvfs
      refine ⟨{ k with vfs := vfs' }, -1, ?_, .inl ⟨rfl, hring', ?_, rfl, rfl⟩⟩
      · dsimp only
        rw [hvfs]
        rfl
      · dsimp only
        rw [hfree', hfree]
        exact List.perm_append_singleton i _
  | some slot =>
      obtain ⟨files, fd⟩ := slot
      obtain ⟨rfl, hclear, -⟩ := filesAllocFd_eq_some hfd
      have hloan : Loan k t fd i (({ k with vfs } : Kernel).setFiles t
          { slots := Function.update (k.files t).slots fd (some i) }) :=
        ⟨hring, hroom, hfree, hclear, rfl, rfl⟩
      obtain ⟨k₁, r, hrun, hres⟩ := hloan.openAt fs (resolvedPath k t path) flags mode
      refine ⟨k₁, r, hrun, ?_⟩
      rcases hres with hrefused | ⟨hr, hopened⟩
      · exact .inl hrefused
      · exact .inr ⟨fd, i, hr, hopened⟩

/-- Whatever `vfs_chdir` returns, the descriptors of all tasks and the free files are the
same as before; and if it is not zero, so are the tasks with their directories. -/
theorem vfsChdir_restores (h : FileRing k.vfs) (path : Option (List UInt8)) :
    ∃ k' r, vfsChdir k path = some (k', r) ∧ k'.files = k.files ∧
      (freeFiles k'.vfs).Perm (freeFiles k.vfs) ∧ FileRing k'.vfs ∧
      (r ≠ 0 → ∀ u, (k'.sched.task u).cwd = (k.sched.task u).cwd) := by
  have hsettled {k' : Kernel} {r : Int} (hk' : Settled k k') :
      k'.files = k.files ∧ (freeFiles k'.vfs).Perm (freeFiles k.vfs) ∧ FileRing k'.vfs ∧
        (r ≠ 0 → ∀ u, (k'.sched.task u).cwd = (k.sched.task u).cwd) := by
    refine ⟨hk'.files, hk'.free, hk'.ring, ?_⟩
    intro _ u
    rw [hk'.sched]
  unfold vfsChdir
  cases path with
  | none => exact ⟨k, _, rfl, hsettled (.refl h)⟩
  | some path =>
  dsimp only
  cases hcur : k.sched.current with
  | none => exact ⟨k, _, rfl, hsettled (.refl h)⟩
  | some t =>
  dsimp only
  obtain ⟨k₁, r, hopen, hres⟩ := vfsOpen_loan h t (resolvedPath k t path).bytes 0 0
  rw [hopen]
  simp only [Option.bind_eq_bind, Option.bind_some]
  rcases hres with ⟨rfl, hrefused⟩ | ⟨fd, i, rfl, hloan⟩
  · exact ⟨k₁, -1, rfl, hsettled hrefused⟩
  · -- the file is looked at and closed, whatever comes of it
    have hlist := hloan.getdents ((fd : Nat) : Int) true (BitVec.ofNat 32 sizeofDirent)
    obtain ⟨k₂, hclose, hback⟩ := hlist.close
    have hfd : ¬ ((fd : Nat) : Int) < 0 := by omega
    rw [if_neg hfd]
    simp only [hclose, Option.bind_some]
    split
    · exact ⟨k₂, _, rfl, hsettled hback⟩
    split
    · exact ⟨k₂, _, rfl, hsettled hback⟩
    · exact ⟨_, 0, rfl, hback.files, hback.free, hback.ring, fun hzero => absurd rfl hzero⟩

end Loan

/-- The swapper tries a name that is not listed. -/
theorem vfsChdir_restores_running :
    ∃ k' r, vfsChdir (runningKernel shellBins) (some (cstr "/none/x")) = some (k', r) ∧
      k'.files = (runningKernel shellBins).files ∧
      (freeFiles k'.vfs).Perm (freeFiles (runningKernel shellBins).vfs) ∧ FileRing k'.vfs ∧
      (r ≠ 0 → ∀ u, (k'.sched.task u).cwd = ((runningKernel shellBins).sched.task u).cwd) :=
  vfsChdir_restores (TreeInv.of_reachable (runningKernel_reachable shellBins)).files.fileRing
    (some (cstr "/none/x"))

end Punix
