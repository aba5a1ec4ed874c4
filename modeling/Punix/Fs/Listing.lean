import Punix.Fs.Getdents
import Punix.Fs.OpenFiles

/-!
The entries of the directories, and how much of them a sequence of `getdents`
calls returns. A listing is made by the first call on an open file: it gets as
many entries as its buffer holds, and every later call returns 0.
-/

namespace Punix

/-- The directories of the mounted filesystems. -/
inductive Directory where
  | root
  | sys
  | dev
  | bin
  | proc
  /-- `/proc/<pid>` of a task. -/
  | pid (t : Slot)
  /-- `/proc/<pid>/fd` of a task. -/
  | fd (t : Slot)
deriving DecidableEq

/-- The entry that `fs_add_entry` stores. -/
def fsEntry (ino : Nat) (dType : UInt8) (name : List UInt8) : Dirent :=
  { dIno := BitVec.ofNat 32 ino, dType, dName := direntName name }

/-- The entries that every listing starts with. -/
def dotEntries (parentIno : Nat) : List Dirent :=
  [fsEntry 1 dtDir (cstr "."), fsEntry parentIno dtDir (cstr "..")]

/-- The name of a mount point one level below the root. -/
def mountName (mount : MountPoint) : Option (List UInt8) :=
  let path := mount.path.bytes
  if mount.active ∧ path.headD 0 = slash ∧ path.tail ≠ [] ∧ kStrchr path.tail slash = none then
    some path.tail
  else none

def mountEntries (vfs : Vfs) : List Dirent :=
  (List.finRange maxMounts).filterMap fun i =>
    (mountName (vfs.mounts i)).map (fsEntry 0 dtDir)

def deviceEntries (devices : Fin maxDevices → Dev) : List Dirent :=
  (List.finRange maxDevices).filterMap fun i =>
    if (devices i).active then some (fsEntry (100 + i) dtChr (devices i).name.bytes) else none

def binEntries (bins : List EmbeddedBin) : List Dirent :=
  bins.zipIdx.map fun (bin, i) => fillDirentFromBin bin (i + 1)

def fdEntries (files : Files) : List Dirent :=
  (List.finRange rlimitNofile).filterMap fun i =>
    if (files.slots i).isSome then some (fsEntry (i + 10) dtLnk (kItoa (BitVec.ofNat 32 i)))
    else none

def pidEntries : List Dirent :=
  [fsEntry 1 dtReg (cstr "cmdline"), fsEntry 1 dtReg (cstr "comm"), fsEntry 1 dtReg (cstr "cwd"),
    fsEntry 1 dtReg (cstr "exe"), fsEntry 1 dtDir (cstr "fd"), fsEntry 1 dtReg (cstr "stat"),
    fsEntry 1 dtReg (cstr "status")]

/-- All entries of a directory, in the order in which they are listed. -/
def Directory.entries (k : Kernel) : Directory → List Dirent
  | .root => dotEntries 1 ++ mountEntries k.vfs
  | .sys => dotEntries 2
  | .dev => dotEntries 2 ++ deviceEntries k.devices
  | .bin => dotEntries 1 ++ binEntries k.embeddedBins
  | .proc => dotEntries 1 ++ fsEntry 1 dtReg (cstr "stat") ::
      (liveSlots k.sched).map fun t => fillDirentFromTask (k.sched.task t)
  | .pid _ => dotEntries 1 ++ pidEntries
  | .fd t => dotEntries 1 ++ fdEntries (k.files t)

/-- The directory that a path of `/proc` names. -/
def procDirectory (s : Scheduler) (path : List UInt8) : Option Directory :=
  if procIsRoot path then some .proc
  else
    match procIsFdDir path with
    | some pid => (taskTableFindTaskByPid s pid).map .fd
    | none =>
        match procIsPidDir path with
        | some pid => (taskTableFindTaskByPid s pid).map .pid
        | none => none

/-- The directory that the operations of an open file list. -/
def File.directory (k : Kernel) (file : File) : Option Directory :=
  match file.fileOps.getdents with
  | none => none
  | some .root => some .root
  | some .sys => some .sys
  | some .dev => some .dev
  | some .bin => some .bin
  | some .proc => procDirectory k.sched file.pathname.bytes

theorem fsAddEntry_take (maxEntries ino : Nat) (dType : UInt8) (name : List UInt8)
    (entries : List Dirent) :
    fsAddEntry maxEntries ino dType name (entries.take maxEntries) =
      (entries ++ [fsEntry ino dType name]).take maxEntries := by
  unfold fsAddEntry
  rw [List.length_take]
  rcases Nat.lt_or_ge entries.length maxEntries with hlt | hge
  · rw [if_neg (by omega), List.take_of_length_le (by omega), List.take_of_length_le]
    · rfl
    · rw [List.length_append, List.length_singleton]
      omega
  · rw [if_pos (by omega), List.take_append_of_le_length hge]

/-- A loop that adds at most one entry in each round, while there is room. -/
theorem foldl_take {α : Type} {maxEntries : Nat} {fill : List Dirent → α → List Dirent}
    {entry : α → Option Dirent}
    (hfill : ∀ entries x, fill (entries.take maxEntries) x =
      (entries ++ (entry x).toList).take maxEntries)
    (xs : List α) (entries : List Dirent) :
    xs.foldl fill (entries.take maxEntries) =
      (entries ++ xs.filterMap entry).take maxEntries := by
  induction xs generalizing entries with
  | nil => rw [List.foldl_nil, List.filterMap_nil, List.append_nil]
  | cons x xs ih =>
      rw [List.foldl_cons, hfill, ih, List.append_assoc]
      cases hentry : entry x with
      | none => rw [List.filterMap_cons_none hentry, Option.toList_none, List.nil_append]
      | some d => rw [List.filterMap_cons_some hentry, Option.toList_some, List.singleton_append]

theorem fsAddEntry_dots (maxEntries parentIno : Nat) :
    fsAddEntry maxEntries parentIno dtDir (cstr "..")
      (fsAddEntry maxEntries 1 dtDir (cstr ".") []) = (dotEntries parentIno).take maxEntries := by
  have hnil : ([] : List Dirent) = List.take maxEntries [] := List.take_nil.symm
  rw [hnil, fsAddEntry_take, fsAddEntry_take]
  rfl

theorem take_append_full {maxEntries : Nat} {entries more : List Dirent}
    (h : maxEntries ≤ (entries.take maxEntries).length) :
    (entries ++ more).take maxEntries = entries.take maxEntries := by
  rw [List.length_take] at h
  exact List.take_append_of_le_length (by omega)

theorem vfsGetRootMounts_take (vfs : Vfs) (maxEntries : Nat) (entries : List Dirent) :
    vfsGetRootMounts vfs maxEntries (entries.take maxEntries) =
      (entries ++ mountEntries vfs).take maxEntries := by
  apply foldl_take
  intro entries i
  dsimp only
  unfold mountName
  split
  · next hskip =>
      rcases hskip with hfull | hactive
      · exact (take_append_full hfull).symm
      · rw [if_neg (fun h => hactive h.1), Option.map_none, Option.toList_none, List.append_nil]
  next hroom =>
  have hactive : (vfs.mounts i).active := by
    have hnot := fun h => hroom (.inr h)
    simpa using hnot
  split
  · next hskip =>
      rw [if_neg, Option.map_none, Option.toList_none, List.append_nil]
      rintro ⟨_, hhead, htail, _⟩
      rcases hskip with hslash | hother
      · exact htail (by rw [hslash]; rfl)
      · exact hother hhead
  next hchild =>
  have hhead : (vfs.mounts i).path.bytes.headD 0 = slash := by
    have hnot := fun h => hchild (.inr h)
    simpa using hnot
  split
  · next hname =>
      rw [if_pos ⟨hactive, hhead, hname.2, hname.1⟩, fsAddEntry_take]
      rfl
  · next hname =>
      rw [if_neg (fun h => hname ⟨h.2.2.2, h.2.2.1⟩), Option.map_none, Option.toList_none,
        List.append_nil]

theorem deviceEntries_take (devices : Fin maxDevices → Dev) (maxEntries : Nat)
    (entries : List Dirent) :
    (List.finRange maxDevices).foldl (fun entries i =>
      if entries.length ≥ maxEntries then entries
      else if (devices i).active then
        fsAddEntry maxEntries (100 + i) dtChr (devices i).name.bytes entries
      else entries) (entries.take maxEntries) =
      (entries ++ deviceEntries devices).take maxEntries := by
  apply foldl_take
  intro entries i
  split
  · next hfull => exact (take_append_full hfull).symm
  · split
    · rw [fsAddEntry_take]
      rfl
    · rw [Option.toList_none, List.append_nil]

/-- The programs go behind what is there already. -/
theorem elfFillBinDirents_take (bins : List EmbeddedBin) (maxEntries : Nat)
    (entries : List Dirent) :
    (if (entries.take maxEntries).length < maxEntries then
      entries.take maxEntries ++
        elfFillBinDirents bins (maxEntries - (entries.take maxEntries).length)
    else entries.take maxEntries) = (entries ++ binEntries bins).take maxEntries := by
  split
  · next hroom =>
      rw [List.length_take] at hroom
      rw [List.take_of_length_le (by omega), List.take_append, List.take_of_length_le (by omega),
        elfFillBinDirents, binEntries, List.map_take]
  · next hfull => exact (take_append_full (Nat.le_of_not_lt hfull)).symm

theorem procFdDirents_take (files : Files) (maxEntries : Nat) :
    procFdDirents files maxEntries = (dotEntries 1 ++ fdEntries files).take maxEntries := by
  unfold procFdDirents procDotDirents
  rw [fsAddEntry_dots]
  apply foldl_take
  intro entries i
  split
  · next hadd =>
      rw [fsAddEntry_take, if_pos hadd.2]
      rfl
  · next hskip =>
      rcases Nat.lt_or_ge (entries.take maxEntries).length maxEntries with hlt | hge
      · rw [if_neg (fun hopen => hskip ⟨hlt, hopen⟩), Option.toList_none, List.append_nil]
      · exact (take_append_full hge).symm

theorem procPidDirents_take (maxEntries : Nat) :
    procPidDirents maxEntries = (dotEntries 1 ++ pidEntries).take maxEntries := by
  unfold procPidDirents procDotDirents
  rw [fsAddEntry_dots]
  simp only [List.foldl_cons, List.foldl_nil, fsAddEntry_take]
  rfl

/-- What a call lists at once in a buffer for `maxEntries`: `/proc` lists all live tasks
as soon as there is room for one. -/
def Directory.listed (k : Kernel) (d : Directory) (maxEntries : Nat) : List Dirent :=
  if d = .proc ∧ 3 < maxEntries then d.entries k else (d.entries k).take maxEntries

theorem procRootDirents_listed (k : Kernel) (maxEntries : Nat) :
    procRootDirents k.sched maxEntries = Directory.proc.listed k maxEntries := by
  have hfixed : fsAddEntry maxEntries 1 dtReg (cstr "stat") (procDotDirents maxEntries) =
      (dotEntries 1 ++ [fsEntry 1 dtReg (cstr "stat")]).take maxEntries := by
    rw [procDotDirents, fsAddEntry_dots, fsAddEntry_take]
  have hthree : (dotEntries 1 ++ [fsEntry 1 dtReg (cstr "stat")]).length = 3 := rfl
  have hentries : Directory.proc.entries k =
      (dotEntries 1 ++ [fsEntry 1 dtReg (cstr "stat")]) ++
        (liveSlots k.sched).map fun t => fillDirentFromTask (k.sched.task t) := rfl
  unfold procRootDirents Directory.listed
  rw [hfixed]
  dsimp only
  rw [List.length_take, hthree, hentries]
  rcases Nat.lt_or_ge 3 maxEntries with hlt | hge
  · have hroom : maxEntries - min maxEntries 3 ≠ 0 := by omega
    rw [if_pos (by omega), if_pos ⟨rfl, hlt⟩, List.take_of_length_le (by omega),
      schedFillProcDirents, if_neg hroom]
  · have hle : maxEntries ≤ (dotEntries 1 ++ [fsEntry 1 dtReg (cstr "stat")]).length := by omega
    rw [if_neg (by omega), if_neg (fun h => absurd h.2 (by omega))]
    exact (List.take_append_of_le_length hle).symm

section Call

variable {k : Kernel} {file : File} {d : Directory} {getdents : GetdentsFn} {count : BitVec 32}

theorem getdentsOnce_first (fill : Nat → GetdentsResult) (hcount : sizeofDirent ≤ count.toNat)
    (hpos : file.pos = 0) :
    getdentsOnce file true count fill = fill (count.toNat / sizeofDirent) := by
  have hstart : ¬ file.pos > 0 := by
    rw [hpos]
    decide
  rw [getdentsOnce, if_neg (by simp; omega), if_neg hstart]

theorem getdentsOnce_later (fill : Nat → GetdentsResult) (hasBuf : Bool) (hpos : file.pos ≠ 0) :
    getdentsOnce file hasBuf count fill = { ret := 0, entries := [], file } := by
  have hlater : file.pos > 0 := by bv_omega
  unfold getdentsOnce
  rw [if_pos hlater]
  split <;> rfl

theorem Directory.listed_of_ne (h : d ≠ .proc) (maxEntries : Nat) :
    d.listed k maxEntries = (d.entries k).take maxEntries :=
  if_neg fun heq => h heq.1

/-- What the path of an open directory of `/proc` is. -/
theorem procDirectory_eq_some {s : Scheduler} {path : List UInt8} {d : Directory}
    (h : procDirectory s path = some d) :
    procIsRoot path ∧ d = .proc ∨
      ¬ procIsRoot path ∧ ∃ pid t, taskTableFindTaskByPid s pid = some t ∧
        (procIsFdDir path = some pid ∧ d = .fd t ∨
          procIsFdDir path = none ∧ procIsPidDir path = some pid ∧ d = .pid t) := by
  unfold procDirectory at h
  split at h
  · next hroot => exact .inl ⟨hroot, (Option.some.inj h).symm⟩
  next hroot =>
  split at h
  · next pid hfd =>
      obtain ⟨t, hfind, rfl⟩ := Option.map_eq_some_iff.mp h
      exact .inr ⟨hroot, pid, t, hfind, .inl ⟨hfd, rfl⟩⟩
  next hfd =>
  split at h
  · next pid hpid =>
      obtain ⟨t, hfind, rfl⟩ := Option.map_eq_some_iff.mp h
      exact .inr ⟨hroot, pid, t, hfind, .inr ⟨hfd, hpid, rfl⟩⟩
  · cases h

/-- What `/proc` lists on the first call. -/
theorem procGetdents_first (hdir : procDirectory k.sched file.pathname.bytes = some d)
    (hcount : sizeofDirent ≤ count.toNat) (hpos : file.pos = 0) :
    procGetdents k file true count =
      getdentsDone file (d.listed k (count.toNat / sizeofDirent)) := by
  unfold procGetdents
  rw [getdentsOnce_first _ hcount hpos]
  dsimp only
  rcases procDirectory_eq_some hdir with ⟨hroot, rfl⟩ |
    ⟨hroot, pid, t, hfind, ⟨hfd, rfl⟩ | ⟨hfd, hpid, rfl⟩⟩
  · rw [if_pos hroot, procRootDirents_listed]
  · simp only [if_neg hroot, hfd, hfind, procFdDirents_take]
    rw [Directory.listed_of_ne (show Directory.fd t ≠ .proc from nofun)]
    rfl
  · simp only [if_neg hroot, hfd, hpid, hfind, procPidDirents_take]
    rw [Directory.listed_of_ne (show Directory.pid t ≠ .proc from nofun)]
    rfl

/-- A listing is made on the first call. -/
theorem call_first (hops : file.fileOps.getdents = some getdents)
    (hdir : file.directory k = some d) (hcount : sizeofDirent ≤ count.toNat)
    (hpos : file.pos = 0) :
    getdents.call k file true count =
      getdentsDone file (d.listed k (count.toNat / sizeofDirent)) := by
  unfold File.directory at hdir
  rw [hops] at hdir
  cases getdents with
  | proc => exact procGetdents_first hdir hcount hpos
  | root =>
      obtain rfl := Option.some.inj hdir
      rw [GetdentsFn.call, rootGetdents, getdentsOnce_first _ hcount hpos,
        Directory.listed_of_ne (show Directory.root ≠ .proc from nofun)]
      dsimp only
      rw [fsAddEntry_dots, vfsGetRootMounts_take]
      rfl
  | sys =>
      obtain rfl := Option.some.inj hdir
      rw [GetdentsFn.call, sysGetdents, getdentsOnce_first _ hcount hpos,
        Directory.listed_of_ne (show Directory.sys ≠ .proc from nofun)]
      dsimp only
      rw [fsAddEntry_dots]
      rfl
  | dev =>
      obtain rfl := Option.some.inj hdir
      rw [GetdentsFn.call, devGetdents, getdentsOnce_first _ hcount hpos,
        Directory.listed_of_ne (show Directory.dev ≠ .proc from nofun)]
      dsimp only
      rw [fsAddEntry_dots, deviceEntries_take]
      rfl
  | bin =>
      obtain rfl := Option.some.inj hdir
      rw [GetdentsFn.call, binGetdents, getdentsOnce_first _ hcount hpos,
        Directory.listed_of_ne (show Directory.bin ≠ .proc from nofun)]
      dsimp only
      rw [fsAddEntry_dots, elfFillBinDirents_take]
      rfl

/-- Every later call returns nothing. -/
theorem call_later (hasBuf : Bool) (hpos : file.pos ≠ 0) :
    getdents.call k file hasBuf count = { ret := 0, entries := [], file } := by
  cases getdents <;>
    simp only [GetdentsFn.call, rootGetdents, sysGetdents, procGetdents, devGetdents, binGetdents,
      getdentsOnce_later _ hasBuf hpos]

end Call

/-- What a call of `vfs_getdents` stores in its buffer. -/
def getdentsEntries (k : Kernel) (fd : Int) (count : BitVec 32) : List Dirent :=
  match currentFile k fd with
  | none => []
  | some i =>
      match (k.vfs.files i).fileOps.getdents with
      | none => []
      | some getdents => (getdents.call k (k.vfs.files i) true count).entries

/-- The descriptor is as it was, and no entry of the directory has changed. -/
structure Unchanged (d : Directory) (fd : Int) (k k' : Kernel) : Prop where
  current : currentFile k' fd = currentFile k fd
  file : ∀ i, currentFile k fd = some i → k'.vfs.files i = k.vfs.files i
  entries : d.entries k' = d.entries k

/-- The entries that the calls return one after the other until one returns 0. Between
two calls anything may happen that leaves the directory and the descriptor alone. -/
inductive Reads (d : Directory) (fd : Int) (count : BitVec 32) : Kernel → List Dirent → Prop
  | done {k k' : Kernel} {writes : Writes}
      (h : vfsGetdents k fd true count = (0, writes, k')) : Reads d fd count k []
  | more {k k₁ k₂ : Kernel} {ret : Int} {writes : Writes} {entries : List Dirent}
      (h : vfsGetdents k fd true count = (ret, writes, k₁)) (hret : 0 < ret)
      (hsame : Unchanged d fd k₁ k₂) (hrest : Reads d fd count k₂ entries) :
      Reads d fd count k (getdentsEntries k fd count ++ entries)

section Reads

variable {k : Kernel} {fd : Int} {i : FileRef} {d : Directory} {count : BitVec 32}

theorem vfsGetdents_open {getdents : GetdentsFn} (count : BitVec 32) (hfile : currentFile k fd = some i)
    (hops : (k.vfs.files i).fileOps.getdents = some getdents) :
    vfsGetdents k fd true count =
        ((getdents.call k (k.vfs.files i) true count).ret,
          direntWrites (getdents.call k (k.vfs.files i) true count).entries,
          k.setFile i (getdents.call k (k.vfs.files i) true count).file) ∧
      getdentsEntries k fd count = (getdents.call k (k.vfs.files i) true count).entries := by
  unfold vfsGetdents getdentsEntries
  rw [hfile]
  dsimp only
  rw [hops]
  exact ⟨rfl, rfl⟩

theorem File.getdents_of_directory {file : File} (h : file.directory k = some d) :
    ∃ getdents, file.fileOps.getdents = some getdents := by
  unfold File.directory at h
  split at h
  · cases h
  all_goals exact ⟨_, by assumption⟩

theorem Directory.entries_pos (k : Kernel) (d : Directory) : 0 < (d.entries k).length := by
  cases d <;> simp [Directory.entries, dotEntries]

/-- The number of entries that a call returns is that of the bytes that it returns. -/
theorem length_listed (hcount : sizeofDirent ≤ count.toNat) :
    0 < (d.listed k (count.toNat / sizeofDirent)).length ∧
      (d.listed k (count.toNat / sizeofDirent)).length * sizeofDirent < 2 ^ 32 := by
  have hpos := d.entries_pos k
  have hroom : 0 < count.toNat / sizeofDirent := Nat.div_pos hcount (by decide)
  unfold Directory.listed
  split
  · next hproc =>
      obtain ⟨rfl, _⟩ := hproc
      have hlive := liveSlots_length_le k.sched
      simp only [Directory.entries, dotEntries, List.length_append, List.length_cons,
        List.length_nil, List.length_map, sizeofDirent, maxProcessCnt] at hlive ⊢
      omega
  · have hlt := count.isLt
    rw [List.length_take]
    simp only [sizeofDirent] at hroom ⊢
    omega

/-- An `int` that is a size is positive exactly below `INT_MAX`. -/
theorem asInt_pos_iff {n : Nat} (hpos : 0 < n) (hlt : n < 2 ^ 32) : 0 < asInt n ↔ n < 2 ^ 31 := by
  rcases Nat.lt_or_ge n (2 ^ 31) with hsmall | hbig
  · rw [asInt_of_lt hsmall]
    omega
  · have hneg := asInt_of_ge hbig hlt
    omega

theorem asInt_ne_zero {n : Nat} (hpos : 0 < n) (hlt : n < 2 ^ 32) : asInt n ≠ 0 := by
  rcases Nat.lt_or_ge n (2 ^ 31) with hsmall | hbig
  · rw [asInt_of_lt hsmall]
    omega
  · have hneg := asInt_of_ge hbig hlt
    omega

/-- The first call on a file that has just been opened. -/
theorem vfsGetdents_first (hfile : currentFile k fd = some i)
    (hdir : (k.vfs.files i).directory k = some d) (hpos : (k.vfs.files i).pos = 0)
    (hcount : sizeofDirent ≤ count.toNat) :
    ∃ file, vfsGetdents k fd true count =
        (asInt ((d.listed k (count.toNat / sizeofDirent)).length * sizeofDirent),
          direntWrites (d.listed k (count.toNat / sizeofDirent)), k.setFile i file) ∧
      getdentsEntries k fd count = d.listed k (count.toNat / sizeofDirent) ∧
      file.pos ≠ 0 ∧ file.fileOps = (k.vfs.files i).fileOps := by
  obtain ⟨getdents, hops⟩ := File.getdents_of_directory hdir
  obtain ⟨hcall, hentries⟩ := vfsGetdents_open count hfile hops
  rw [call_first hops hdir hcount hpos] at hcall hentries
  refine ⟨_, hcall, hentries, ?_, rfl⟩
  obtain ⟨hlen, hlt⟩ := length_listed (k := k) (d := d) hcount
  have hne := asInt_ne_zero (Nat.mul_pos hlen (show 0 < sizeofDirent by decide)) hlt
  change (k.vfs.files i).pos + BitVec.ofInt 64 (asInt _) ≠ 0
  rw [hpos, BitVec.ofNat_eq_ofNat, BitVec.zero_add]
  intro hzero
  apply hne
  have hint := congrArg BitVec.toInt hzero
  rw [BitVec.toInt_ofInt] at hint
  have hupper : asInt ((d.listed k (count.toNat / sizeofDirent)).length * sizeofDirent) < 2 ^ 31 :=
    BitVec.toInt_lt
  have hlower : -2 ^ 31 ≤ asInt ((d.listed k (count.toNat / sizeofDirent)).length * sizeofDirent) :=
    BitVec.le_toInt _
  rw [Int.bmod_eq_of_le (by omega) (by omega)] at hint
  simpa using hint

/-- Every later call. -/
theorem vfsGetdents_later {getdents : GetdentsFn} (count : BitVec 32) (hfile : currentFile k fd = some i)
    (hops : (k.vfs.files i).fileOps.getdents = some getdents) (hpos : (k.vfs.files i).pos ≠ 0) :
    ∃ k', vfsGetdents k fd true count = (0, [], k') := by
  obtain ⟨hcall, _⟩ := vfsGetdents_open count hfile hops
  rw [call_later true hpos] at hcall
  exact ⟨_, hcall⟩

/-- The calls return what the first one lists. -/
theorem reads_listed_iff (hfile : currentFile k fd = some i)
    (hdir : (k.vfs.files i).directory k = some d) (hpos : (k.vfs.files i).pos = 0)
    (hcount : sizeofDirent ≤ count.toNat) (entries : List Dirent) :
    Reads d fd count k entries ↔
      entries = d.listed k (count.toNat / sizeofDirent) ∧
        (d.listed k (count.toNat / sizeofDirent)).length * sizeofDirent < 2 ^ 31 := by
  obtain ⟨file, hcall, hentries, hlater, hsameOps⟩ := vfsGetdents_first hfile hdir hpos hcount
  obtain ⟨hlen, hlt⟩ := length_listed (k := k) (d := d) hcount
  have hbytes : 0 < (d.listed k (count.toNat / sizeofDirent)).length * sizeofDirent :=
    Nat.mul_pos hlen (by decide)
  obtain ⟨getdents, hops⟩ := File.getdents_of_directory hdir
  have hfile' : currentFile (k.setFile i file) fd = some i := hfile
  constructor
  · intro h
    cases h with
    | done hdone =>
        have hret := congrArg Prod.fst (hcall.symm.trans hdone)
        exact absurd hret (asInt_ne_zero hbytes hlt)
    | more hmore hret hsame hrest =>
        rw [hcall] at hmore
        obtain ⟨rfl, hstored⟩ := Prod.mk.inj hmore
        obtain ⟨_, rfl⟩ := Prod.mk.inj hstored
        have hcurrent := hsame.current.trans hfile'
        have hagain := hsame.file i hfile'
        rw [Kernel.setFile_self] at hagain
        obtain ⟨k', hnone⟩ := vfsGetdents_later count hcurrent
          (by rw [hagain, hsameOps]; exact hops) (by rw [hagain]; exact hlater)
        refine ⟨?_, (asInt_pos_iff hbytes hlt).mp hret⟩
        cases hrest with
        | done _ => rw [hentries, List.append_nil]
        | more hmore hret _ _ =>
            rw [hnone] at hmore
            obtain ⟨rfl, _⟩ := Prod.mk.inj hmore
            exact absurd hret (by decide)
  · rintro ⟨rfl, hsize⟩
    obtain ⟨k', hnone⟩ := vfsGetdents_later count hfile'
      (by rw [Kernel.setFile_self, hsameOps]; exact hops)
      (by rw [Kernel.setFile_self]; exact hlater)
    have hread := Reads.more hcall ((asInt_pos_iff hbytes hlt).mpr hsize)
      ⟨rfl, fun _ _ => rfl, rfl⟩ (.done (d := d) hnone)
    rwa [hentries, List.append_nil] at hread

/-- Successive calls return as many entries of the directory as fit into one buffer,
each once and in order, and then nothing more. -/
theorem reads_iff (hfile : currentFile k fd = some i)
    (hdir : (k.vfs.files i).directory k = some d) (hpos : (k.vfs.files i).pos = 0)
    (hcount : sizeofDirent ≤ count.toNat)
    (hproc : d = .proc → count.toNat / sizeofDirent ≤ 3 ∨
      (d.entries k).length ≤ count.toNat / sizeofDirent) (entries : List Dirent) :
    Reads d fd count k entries ↔
      entries = (d.entries k).take (count.toNat / sizeofDirent) ∧
        entries.length * sizeofDirent < 2 ^ 31 := by
  have hlisted : d.listed k (count.toNat / sizeofDirent) =
      (d.entries k).take (count.toNat / sizeofDirent) := by
    unfold Directory.listed
    split
    · next hall =>
        rcases hproc hall.1 with hfew | hfits
        · omega
        · exact (List.take_of_length_le hfits).symm
    · rfl
  rw [reads_listed_iff hfile hdir hpos hcount, hlisted]
  constructor
  · rintro ⟨rfl, hsize⟩
    exact ⟨rfl, hsize⟩
  · rintro ⟨rfl, hsize⟩
    exact ⟨rfl, hsize⟩

end Reads

/-- `/dev` has just been opened as descriptor 0. -/
theorem devOpened : ∃ k i, vfsOpen twoTaskKernel 0 (cstr "/dev") 0 0 = some (k, 0) ∧
    currentFile k 0 = some i ∧ (k.vfs.files i).directory k = some .dev ∧
    (k.vfs.files i).pos = 0 ∧ (Directory.dev.entries k).length = 18 := by
  refine ⟨_, _, rfl, rfl, rfl, rfl, ?_⟩
  decide +kernel

/-- A buffer for 32 entries is large enough for `/dev`. -/
theorem reads_iff_dev : ∃ k, vfsOpen twoTaskKernel 0 (cstr "/dev") 0 0 = some (k, 0) ∧
    Reads .dev 0 2304 k (Directory.dev.entries k) := by
  obtain ⟨k, i, hopen, hfile, hdir, hpos, hlen⟩ := devOpened
  refine ⟨k, hopen, (reads_iff hfile hdir hpos (by decide) nofun _).mpr ?_⟩
  have hfits : (Directory.dev.entries k).length ≤ (2304#32).toNat / sizeofDirent := by
    rw [hlen]
    decide
  constructor
  · exact (List.take_of_length_le hfits).symm
  · rw [hlen]
    decide

/-- With a buffer for one entry the calls return one of the 18 entries of `/dev`. -/
theorem reads_cutOff : ∃ k, vfsOpen twoTaskKernel 0 (cstr "/dev") 0 0 = some (k, 0) ∧
    (Directory.dev.entries k).length = 18 ∧
    Reads .dev 0 72 k ((Directory.dev.entries k).take 1) ∧
    ∀ entries, Reads .dev 0 72 k entries → entries.length = 1 := by
  obtain ⟨k, i, hopen, hfile, hdir, hpos, hlen⟩ := devOpened
  have hreads (entries : List Dirent) := reads_listed_iff hfile hdir hpos
    (show sizeofDirent ≤ (72#32).toNat by decide) entries
  have hlisted : Directory.dev.listed k ((72#32).toNat / sizeofDirent) =
      (Directory.dev.entries k).take 1 :=
    Directory.listed_of_ne (show Directory.dev ≠ .proc from nofun) _
  have hone : ((Directory.dev.entries k).take 1).length = 1 := by
    rw [List.length_take, hlen]
    rfl
  refine ⟨k, hopen, hlen, (hreads _).mpr ⟨hlisted.symm, ?_⟩, ?_⟩
  · rw [hlisted, hone]
    decide
  · intro entries h
    rw [((hreads entries).mp h).1, hlisted, hone]

end Punix
