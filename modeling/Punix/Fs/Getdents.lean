import Punix.Kernel.Boot

/-!
Directory listings against the buffer of the caller. Every filesystem fills in
entries until the buffer is full, except that `sched_fill_proc_dirents` lists
all live tasks whatever the room. The bound is shown for the other listings
first and then, with the exact exception, for `vfs_getdents`.
-/

namespace Punix

/-- Nothing is stored at or behind `buf + count`, and the result does not
exceed `count`. -/
def WithinBuffer (count : Nat) (ret : Int) (writes : Writes) : Prop :=
  (∀ w ∈ writes, w.1 < count) ∧ ret ≤ count

def GetdentsResult.Within (count : BitVec 32) (res : GetdentsResult) : Prop :=
  WithinBuffer count.toNat res.ret (direntWrites res.entries)

theorem length_fsAddEntry {maxEntries : Nat} (ino : Nat) (dType : UInt8) (name : List UInt8)
    {entries : List Dirent} (h : entries.length ≤ maxEntries) :
    (fsAddEntry maxEntries ino dType name entries).length =
      min (entries.length + 1) maxEntries := by
  unfold fsAddEntry
  split
  · omega
  · simp
    omega

theorem length_fsAddEntry_le {maxEntries : Nat} (ino : Nat) (dType : UInt8) (name : List UInt8)
    {entries : List Dirent} (h : entries.length ≤ maxEntries) :
    (fsAddEntry maxEntries ino dType name entries).length ≤ maxEntries := by
  rw [length_fsAddEntry ino dType name h]
  omega

/-- A loop each round of which respects the limit respects it as a whole. -/
theorem length_foldl_le {α : Type} {maxEntries : Nat} {fill : List Dirent → α → List Dirent}
    (hfill : ∀ entries x, entries.length ≤ maxEntries → (fill entries x).length ≤ maxEntries)
    (xs : List α) {entries : List Dirent} (h : entries.length ≤ maxEntries) :
    (xs.foldl fill entries).length ≤ maxEntries := by
  induction xs generalizing entries with
  | nil => exact h
  | cons x xs ih => exact ih (hfill entries x h)

theorem length_vfsGetRootMounts_le (vfs : Vfs) {maxEntries : Nat} {entries : List Dirent}
    (h : entries.length ≤ maxEntries) :
    (vfsGetRootMounts vfs maxEntries entries).length ≤ maxEntries := by
  refine length_foldl_le (fun entries i h => ?_) _ h
  dsimp only
  split_ifs
  · exact h
  · exact h
  · exact length_fsAddEntry_le _ _ _ h
  · exact h

theorem length_elfFillBinDirents_le (bins : List EmbeddedBin) (maxEntries : Nat) :
    (elfFillBinDirents bins maxEntries).length ≤ maxEntries := by
  simp [elfFillBinDirents]

theorem GetdentsResult.within_empty (count : BitVec 32) (file : File) (ret : Int) (h : ret ≤ 0) :
    GetdentsResult.Within count { ret, entries := [], file } :=
  ⟨by simp [direntWrites], by simp only; omega⟩

theorem getdentsDone_within {count : BitVec 32} (file : File) {entries : List Dirent}
    (h : entries.length ≤ count.toNat / sizeofDirent) :
    (getdentsDone file entries).Within count := by
  have hle : entries.length * sizeofDirent ≤ count.toNat :=
    (Nat.le_div_iff_mul_le (by decide)).mp h
  refine ⟨fun w hw => (direntWrites_lt hw).trans_le hle, ?_⟩
  calc asInt (entries.length * sizeofDirent) ≤ (entries.length * sizeofDirent : Nat) := asInt_le _
    _ ≤ (count.toNat : Int) := by exact_mod_cast hle

/-- A listing in full stays inside the buffer if the part that fills it does. -/
theorem getdentsOnce_within {file : File} {hasBuf : Bool} {count : BitVec 32}
    {fill : Nat → GetdentsResult}
    (hfill : (fill (count.toNat / sizeofDirent)).Within count) :
    (getdentsOnce file hasBuf count fill).Within count := by
  unfold getdentsOnce
  split_ifs
  · exact GetdentsResult.within_empty count file 0 (le_refl 0)
  · exact GetdentsResult.within_empty count file 0 (le_refl 0)
  · exact hfill

section Listings

variable (k : Kernel) (file : File) (hasBuf : Bool) (count : BitVec 32)

theorem rootGetdents_within : (rootGetdents k file hasBuf count).Within count := by
  refine getdentsOnce_within (getdentsDone_within file ?_)
  refine length_vfsGetRootMounts_le k.vfs (length_fsAddEntry_le _ _ _ ?_)
  exact length_fsAddEntry_le _ _ _ (Nat.zero_le _)

theorem sysGetdents_within : (sysGetdents file hasBuf count).Within count := by
  refine getdentsOnce_within (getdentsDone_within file ?_)
  exact length_fsAddEntry_le _ _ _ (length_fsAddEntry_le _ _ _ (Nat.zero_le _))

theorem devGetdents_within : (devGetdents k file hasBuf count).Within count := by
  refine getdentsOnce_within (getdentsDone_within file ?_)
  refine length_foldl_le (fun entries i h => ?_) _
    (length_fsAddEntry_le _ _ _ (length_fsAddEntry_le _ _ _ (Nat.zero_le _)))
  split_ifs
  · exact h
  · exact length_fsAddEntry_le _ _ _ h
  · exact h

theorem binGetdents_within : (binGetdents k file hasBuf count).Within count := by
  refine getdentsOnce_within (getdentsDone_within file ?_)
  split_ifs with hroom
  · have hbins := length_elfFillBinDirents_le k.embeddedBins
      (count.toNat / sizeofDirent - (fsAddEntry (count.toNat / sizeofDirent) 1 dtDir (cstr "..")
        (fsAddEntry (count.toNat / sizeofDirent) 1 dtDir (cstr ".") [])).length)
    rw [List.length_append]
    omega
  · exact length_fsAddEntry_le _ _ _ (length_fsAddEntry_le _ _ _ (Nat.zero_le _))

theorem length_procDotDirents (maxEntries : Nat) :
    (procDotDirents maxEntries).length = min 2 maxEntries := by
  have hnil : ([] : List Dirent).length ≤ maxEntries := Nat.zero_le maxEntries
  have hdot := length_fsAddEntry 1 dtDir (cstr ".") hnil
  rw [procDotDirents, length_fsAddEntry _ _ _ (by rw [hdot]; omega), hdot]
  simp only [List.length_nil]
  omega

theorem length_procFdDirents_le (files : Files) (maxEntries : Nat) :
    (procFdDirents files maxEntries).length ≤ maxEntries := by
  refine length_foldl_le (fun entries i h => ?_) _ (by rw [length_procDotDirents]; omega)
  split_ifs
  · exact length_fsAddEntry_le _ _ _ h
  · exact h

theorem length_procPidDirents_le (maxEntries : Nat) :
    (procPidDirents maxEntries).length ≤ maxEntries :=
  length_foldl_le (fun _ _ h => length_fsAddEntry_le _ _ _ h) _
    (by rw [length_procDotDirents]; omega)

/-- With room for more than its fixed entries, `/proc` lists every live task,
however much room there is. -/
theorem length_procRootDirents (s : Scheduler) (maxEntries : Nat) :
    (procRootDirents s maxEntries).length =
      if 3 < maxEntries then 3 + (liveSlots s).length else maxEntries := by
  have hdot := length_procDotDirents maxEntries
  have hle : (procDotDirents maxEntries).length ≤ maxEntries := by omega
  have hlen := length_fsAddEntry 1 dtReg (cstr "stat") hle
  rw [hdot] at hlen
  unfold procRootDirents
  by_cases hroom : 3 < maxEntries
  · have hthree : (fsAddEntry maxEntries 1 dtReg (cstr "stat")
        (procDotDirents maxEntries)).length = 3 := by omega
    have hrest : maxEntries - 3 ≠ 0 := by omega
    simp [hthree, hroom, schedFillProcDirents, hrest]
  · have hfull : (fsAddEntry maxEntries 1 dtReg (cstr "stat")
        (procDotDirents maxEntries)).length = maxEntries := by omega
    simp [hfull, hroom]

/-- The one listing that can be too long: all live tasks are added to the three
entries that are already there. -/
def ProcListingTooLong (s : Scheduler) (file : File) (hasBuf : Bool) (count : BitVec 32) : Prop :=
  procIsRoot file.pathname.bytes ∧ file.pos = 0 ∧ hasBuf ∧ 3 < count.toNat / sizeofDirent ∧
    count.toNat / sizeofDirent < 3 + (liveSlots s).length

theorem liveSlots_length_le (s : Scheduler) : (liveSlots s).length ≤ maxProcessCnt := by
  simpa [liveSlots] using List.length_filter_le _ (List.finRange maxProcessCnt)

/-- The listing of `/proc` itself, when it is made at all. -/
theorem procRootDirents_within_iff :
    (getdentsDone file (procRootDirents k.sched (count.toNat / sizeofDirent))).Within count ↔
      ¬ (3 < count.toNat / sizeofDirent ∧
        count.toNat / sizeofDirent < 3 + (liveSlots k.sched).length) := by
  have hlen := length_procRootDirents k.sched (count.toNat / sizeofDirent)
  constructor
  · rintro ⟨_, hret⟩ ⟨hroom, hmore⟩
    rw [if_pos hroom] at hlen
    have hlive := liveSlots_length_le k.sched
    have hexact : (getdentsDone file
        (procRootDirents k.sched (count.toNat / sizeofDirent))).ret =
        ((3 + (liveSlots k.sched).length) * sizeofDirent : Nat) := by
      rw [getdentsDone, hlen, asInt_of_lt]
      simp only [sizeofDirent]
      simp only [maxProcessCnt] at hlive
      omega
    rw [hexact] at hret
    have hle : (3 + (liveSlots k.sched).length) * sizeofDirent ≤ count.toNat := by
      exact_mod_cast hret
    have hdiv := (Nat.le_div_iff_mul_le (by decide)).mpr hle
    omega
  · intro hfits
    refine getdentsDone_within file ?_
    rw [hlen]
    split_ifs with hroom <;> omega

theorem procGetdents_within_iff :
    (procGetdents k file hasBuf count).Within count ↔
      ¬ ProcListingTooLong k.sched file hasBuf count := by
  unfold procGetdents getdentsOnce ProcListingTooLong
  by_cases hbuf : ¬ hasBuf ∨ count.toNat < sizeofDirent
  · rw [if_pos hbuf]
    refine iff_of_true (GetdentsResult.within_empty count file 0 (le_refl 0)) ?_
    rintro ⟨_, _, hhas, hroom, _⟩
    have hlt : count.toNat < sizeofDirent := hbuf.resolve_left (by simpa using hhas)
    rw [Nat.div_eq_of_lt hlt] at hroom
    omega
  rw [if_neg hbuf]
  obtain ⟨hhas, _⟩ := not_or.mp hbuf
  rw [not_not] at hhas
  by_cases hpos : file.pos > 0
  · rw [if_pos hpos]
    refine iff_of_true (GetdentsResult.within_empty count file 0 (le_refl 0)) ?_
    rintro ⟨_, hzero, _⟩
    simp [hzero] at hpos
  rw [if_neg hpos]
  have hzero : file.pos = 0 := by bv_omega
  by_cases hroot : procIsRoot file.pathname.bytes
  · simp only [hroot, hzero, hhas, if_true, true_and]
    exact procRootDirents_within_iff k file count
  -- the other listings are limited like those of the other filesystems
  refine iff_of_true ?_ fun htoo => hroot htoo.1
  simp only [hroot, Bool.false_eq_true, if_false]
  have hfail : ∀ ret : Int, ret ≤ 0 →
      GetdentsResult.Within count { ret, entries := [], file } :=
    fun ret => GetdentsResult.within_empty count file ret
  split
  · split
    · exact hfail _ (by omega)
    · exact getdentsDone_within file (length_procFdDirents_le _ _)
  · split
    · split
      · exact hfail _ (by omega)
      · exact getdentsDone_within file (length_procPidDirents_le _)
    · exact hfail _ (by simp [enotdir])

end Listings

/-- The descriptor is one of `/proc` itself, at its start, and the buffer has
room for more than the fixed entries but not for all live tasks. -/
def GetdentsTooLong (k : Kernel) (fd : Int) (hasBuf : Bool) (count : BitVec 32) : Prop :=
  ∃ i, currentFile k fd = some i ∧ (k.vfs.files i).fileOps.getdents = some .proc ∧
    ProcListingTooLong k.sched (k.vfs.files i) hasBuf count

/-- `vfs_getdents` keeps to the buffer in every state and on every call except
on those listings of `/proc`. -/
theorem vfsGetdents_within_iff (k : Kernel) (fd : Int) (hasBuf : Bool) (count : BitVec 32) :
    WithinBuffer count.toNat (vfsGetdents k fd hasBuf count).1
        (vfsGetdents k fd hasBuf count).2.1 ↔
      ¬ GetdentsTooLong k fd hasBuf count := by
  have hfail : WithinBuffer count.toNat (-1) [] := ⟨by simp, by omega⟩
  unfold vfsGetdents GetdentsTooLong
  cases hfile : currentFile k fd with
  | none => simpa using hfail
  | some i =>
      cases hops : (k.vfs.files i).fileOps.getdents with
      | none => simpa [hops] using hfail
      | some getdents =>
          simp only [Option.some.injEq, hops, exists_eq_left']
          cases getdents with
          | proc =>
              simp only [true_and]
              exact procGetdents_within_iff k (k.vfs.files i) hasBuf count
          | root => exact iff_of_true (rootGetdents_within k _ hasBuf count) (by simp)
          | sys => exact iff_of_true (sysGetdents_within _ hasBuf count) (by simp)
          | dev => exact iff_of_true (devGetdents_within k _ hasBuf count) (by simp)
          | bin => exact iff_of_true (binGetdents_within k _ hasBuf count) (by simp)

/-- The swapper runs and one more task is live. -/
def twoTaskKernel : Kernel :=
  let k := kernelInit []
  let sched := k.sched.modifyTask 0 fun task => { task with pid := 0, state := .running }
  let sched := sched.modifyTask 1 fun task => { task with pid := 1, state := .queued }
  { k with sched := { sched with current := some 0 } }

/-- A buffer for four entries gets five. -/
theorem vfsGetdents_overrun :
    ∃ k, vfsOpen twoTaskKernel 0 (cstr "/proc") 0 0 = some (k, 0) ∧
      (∃ w ∈ (vfsGetdents k 0 true 288).2.1, 288 ≤ w.1) ∧
      ¬ WithinBuffer 288 (vfsGetdents k 0 true 288).1 (vfsGetdents k 0 true 288).2.1 := by
  refine ⟨_, rfl, by decide, fun hwithin => ?_⟩
  exact absurd hwithin.2 (by decide)

end Punix
