import Punix.Fs.Getdents

/-!
The readers of `/proc` against the buffer of the caller. All texts are shorter
than the local arrays they are composed in, so that `readText` and `readLine`,
which limit what they copy, store exactly the bytes they report.
`read_proc_stat` limits only what it reports.
-/

namespace Punix

/-- Stores stay below `count`, and a result that is no error is the number of
bytes stored from the start of the buffer. -/
def ReadResult.Exact (count : Nat) (res : ReadResult) : Prop :=
  (∀ w ∈ res.writes, w.1 < count) ∧
    (0 ≤ res.ret → res.ret ≤ count ∧ ∀ o : Nat, o ∈ res.writes.map Prod.fst ↔ (o : Int) < res.ret)

theorem length_digitsRev_le (base : Nat) (digit : Nat → UInt8) (fuel value : Nat) :
    (digitsRev base digit fuel value).length ≤ fuel := by
  induction fuel generalizing value with
  | zero => simp [digitsRev]
  | succ fuel ih =>
      unfold digitsRev
      split
      · simpa using ih (value / base)
      · simp

theorem length_kItoa_le (value : BitVec 32) : (kItoa value).length ≤ 16 := by
  unfold kItoa
  split_ifs
  · simp
  · have hle := length_digitsRev_le 10 decDigit 15 (-value).toInt.toNat
    simp only [List.length_reverse, List.length_append, List.length_cons, List.length_nil]
    omega
  · have hle := length_digitsRev_le 10 decDigit 15 value.toInt.toNat
    simp only [List.length_reverse]
    omega

theorem length_kItoaHex_le (value : BitVec 32) : (kItoaHex value).length ≤ 8 := by
  unfold kItoaHex
  split_ifs
  · simp
  · simpa using length_digitsRev_le 16 hexDigit 8 value.toNat

theorem length_u64Str_le (value : BitVec 64) (bufSize : Nat) :
    (u64Str value bufSize).length ≤ 32 := by
  have hle := length_digitsRev_le 10 decDigit 32 value.toNat
  unfold u64Str u64ToStr
  split_ifs <;> simp
  omega

theorem length_taskStateToStr_le (state : SchedState) : (taskStateToStr state).length ≤ 10 := by
  cases state <;> decide

theorem CharArray.length_lt (text : CharArray maxFilenameLen) : text.bytes.length < 64 := text.fits

/-- The text fits the 512 bytes of `output`. -/
theorem length_procStatText (s : Scheduler) (task : Task) :
    (procStatText s task).length < 512 := by
  have hname := task.name.length_lt
  have hpid := length_kItoa_le (BitVec.ofInt 32 task.pid)
  have hppid := length_kItoa_le (BitVec.ofInt 32 (parentPid s task))
  have hctxt := length_u64Str_le task.ctxt 32
  have hcalls := length_u64Str_le task.sysCallCnt 32
  have hbrk := length_kItoa_le task.brk
  have hlimit := length_kItoa_le task.brkLimit
  unfold procStatText pidStr
  simp [cstr]
  omega

/-- The text fits the 1024 bytes of `output`. -/
theorem length_procStatusText (s : Scheduler) (task : Task) :
    (procStatusText s task).length < 1024 := by
  have hname := task.name.length_lt
  have hstate := length_taskStateToStr_le task.state
  have hpid := length_kItoa_le (BitVec.ofInt 32 task.pid)
  have hppid := length_kItoa_le (BitVec.ofInt 32 (parentPid s task))
  have hctxt := length_u64Str_le task.ctxt 256
  have hcalls := length_u64Str_le task.sysCallCnt 256
  have hbrk := length_kItoaHex_le task.brk
  have hlimit := length_kItoaHex_le task.brkLimit
  unfold procStatusText pidStr
  simp [cstr]
  omega

section Readers

variable {k : Kernel} {file : File} {count : BitVec 32}

theorem ReadResult.exact_nothing {n : Nat} (ret : Int) (h : ret ≤ 0) :
    ReadResult.Exact n { ret, writes := [], file } :=
  ⟨by simp, fun hret => ⟨by simp only; omega, fun o => by simp; omega⟩⟩

/-- A reader that copies `len` bytes and reports them. -/
theorem readDone_exact {n len : Nat} {writes : Writes} (hlen : len < 2 ^ 31) (hle : len ≤ n)
    (hwrites : ∀ o, o ∈ writes.map Prod.fst ↔ o < len) :
    (readDone file len writes).Exact n := by
  have hret : (readDone file len writes).ret = (len : Int) := asInt_of_lt hlen
  refine ⟨fun w hw => ?_, fun _ => ?_⟩
  · exact ((hwrites w.1).mp (List.mem_map_of_mem hw)).trans_le hle
  · rw [hret]
    exact ⟨by exact_mod_cast hle, fun o => (hwrites o).trans (by omega)⟩

theorem readText_exact {text : List UInt8} (htext : text.length < 2 ^ 31) :
    (readText file count text).Exact count.toNat := by
  unfold readText
  refine readDone_exact (by split <;> omega) (by split <;> omega) fun o => ?_
  simp [offsets_kMemcpyOut]

theorem readLine_exact {text : List UInt8} (htext : text.length + 1 < 2 ^ 31)
    (hcount : 1 ≤ count.toNat) : (readLine file count text).Exact count.toNat := by
  unfold readLine
  refine readDone_exact (by split <;> omega) (by split <;> omega) fun o => ?_
  rw [List.map_append, List.mem_append, offsets_kMemcpyOut]
  simp only [List.map_cons, List.map_nil, List.mem_singleton]
  omega

theorem readProcPidFdLink_exact (hcount : 1 ≤ count.toNat) (t : Slot) (fd : Int) :
    (readProcPidFdLink k file count t fd).Exact count.toNat := by
  unfold readProcPidFdLink
  split
  · split
    · exact ReadResult.exact_nothing _ (by omega)
    · next target _ =>
        have hlt := (k.vfs.files target).pathname.length_lt
        exact readLine_exact (by omega) hcount
  · exact ReadResult.exact_nothing _ (by omega)

/-- Every reader of a task keeps to its buffer. -/
theorem procReadLeaf_exact (s : Scheduler) (hcount : 1 ≤ count.toNat) (task : Task)
    (leaf : List UInt8) : (procReadLeaf s file count task leaf).Exact count.toNat := by
  have hname := task.name.length_lt
  have hcwd := task.cwd.length_lt
  have hstat := length_procStatText s task
  have hstatus := length_procStatusText s task
  unfold procReadLeaf
  split_ifs
  · exact readLine_exact (by omega) hcount
  · exact readText_exact (by omega)
  · exact readText_exact (by omega)
  · exact readText_exact (by omega)
  · exact readLine_exact (by omega) hcount
  · exact readLine_exact (by omega) hcount
  · exact ReadResult.exact_nothing _ (by omega)

/-- `/proc/stat` stores its whole text. -/
theorem offsets_readProcStat (s : Scheduler) (file : File) (count : BitVec 32) (o : Nat) :
    o ∈ (readProcStat s file count).writes.map Prod.fst ↔ o < (procStatNum s).length + 6 := by
  have hpre : (cstr "ctxt ").length = 5 := by decide
  simp only [readProcStat, readDone, List.map_append, List.mem_append, offsets_kMemcpyOut, hpre,
    List.map_cons, List.map_nil, List.mem_singleton]
  omega

theorem readProcStat_exact_iff (s : Scheduler) :
    (readProcStat s file count).Exact count.toNat ↔ (procStatNum s).length + 6 ≤ count.toNat := by
  have hnum : (procStatNum s).length ≤ 32 := length_u64Str_le s.ctxt 64
  have hpre : (cstr "ctxt ").length = 5 := by decide
  constructor
  · rintro ⟨hbelow, _⟩
    have hlast := (offsets_readProcStat s file count ((procStatNum s).length + 5)).mpr (by omega)
    obtain ⟨w, hw, hoff⟩ := List.mem_map.mp hlast
    have hlt := hbelow w hw
    omega
  · intro hfits
    have hlen : 5 + (procStatNum s).length + 1 ≤ count.toNat := by omega
    have hread : readProcStat s file count =
        readDone file ((procStatNum s).length + 6) (readProcStat s file count).writes := by
      simp only [readProcStat, readDone, hpre, gt_iff_lt, not_lt.mpr hlen, if_false]
      rw [show 5 + (procStatNum s).length + 1 = (procStatNum s).length + 6 by omega]
    rw [hread]
    exact readDone_exact (by omega) hfits (offsets_readProcStat s file count)

end Readers

/-- The one read that is not limited: `/proc/stat` into a buffer that is shorter
than its text. -/
def ProcStatTooLong (s : Scheduler) (file : File) (hasBuf : Bool) (count : BitVec 32) : Prop :=
  kStrcmp file.pathname.bytes (cstr "/proc/stat") = 0 ∧ file.pos = 0 ∧ hasBuf ∧
    count.toNat < (procStatNum s).length + 6

/-- `proc_read` keeps to its buffer, and stores exactly what it reports, in
every state and on every call except those. -/
theorem procRead_exact_iff (k : Kernel) (file : File) (hasBuf : Bool) (count : BitVec 32)
    (hcount : 1 ≤ count.toNat) :
    (procRead k file hasBuf count).Exact count.toNat ↔
      ¬ ProcStatTooLong k.sched file hasBuf count := by
  unfold procRead ProcStatTooLong
  by_cases hskip : file.pos > 0 ∨ ¬ hasBuf ∨ count = 0
  · simp only [if_pos hskip]
    refine iff_of_true (ReadResult.exact_nothing 0 (le_refl 0)) ?_
    rintro ⟨_, hpos, hhas, _⟩
    rcases hskip with h | h | h
    · simp [hpos] at h
    · exact h hhas
    · simp [h] at hcount
  simp only [if_neg hskip]
  obtain ⟨hpos, hrest⟩ := not_or.mp hskip
  have hzero : file.pos = 0 := by bv_omega
  have hhas : hasBuf = true := not_not.mp (not_or.mp hrest).1
  by_cases hstat : kStrcmp file.pathname.bytes (cstr "/proc/stat") = 0
  · simp only [hstat, hzero, hhas, true_and, not_lt]
    exact readProcStat_exact_iff k.sched
  simp only [if_neg hstat]
  refine iff_of_true ?_ fun htoo => hstat htoo.1
  split
  · exact ReadResult.exact_nothing _ (by omega)
  split
  · exact ReadResult.exact_nothing _ (by omega)
  split
  · exact readProcPidFdLink_exact hcount _ _
  split
  · exact ReadResult.exact_nothing _ (by omega)
  · exact procReadLeaf_exact k.sched hcount _ _

/-- `/proc/stat`, opened. -/
def procStatFile : File :=
  { vfsInit.files 0 with
    pathname := CharArray.ofBytes maxFilenameLen (cstr "/proc/stat")
    fileOps := { FileOps.empty with read := some .proc, getdents := some .proc } }

/-- The text is `ctxt 0` and a newline, for which sixteen bytes are enough. -/
theorem procRead_exact_sixteen : (procRead twoTaskKernel procStatFile true 16).Exact 16 :=
  (procRead_exact_iff twoTaskKernel procStatFile true 16 (by decide)).mpr <| by
    rintro ⟨_, _, _, hshort⟩
    exact absurd hshort (by decide)

/-- A read of one byte reports one byte and stores seven. -/
theorem procRead_overrun :
    (procRead twoTaskKernel procStatFile true 1).ret = 1 ∧
      (procRead twoTaskKernel procStatFile true 1).writes.map Prod.fst = List.range 7 ∧
      ¬ (procRead twoTaskKernel procStatFile true 1).Exact 1 := by
  have hwrites : (procRead twoTaskKernel procStatFile true 1).writes.map Prod.fst =
      List.range 7 := by decide
  refine ⟨by decide, hwrites, fun hexact => ?_⟩
  have hsix : 6 ∈ (procRead twoTaskKernel procStatFile true 1).writes.map Prod.fst := by
    rw [hwrites]
    decide
  obtain ⟨w, hw, hoff⟩ := List.mem_map.mp hsix
  have hbelow := hexact.1 w hw
  omega

end Punix
