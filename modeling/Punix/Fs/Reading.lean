import Mathlib.Data.List.GetD
import Punix.Fs.OpenFiles
import Punix.Fs.ProcRead

/-!
Reading a file to its end. The programs of `/bin` are read from the position of the
open file on; a file of `/proc` is composed again on every call, and only the first
call returns anything.
-/

namespace Punix

/-- The buffer of the caller behind the stores. -/
def storeAll (buf : Nat → UInt8) (writes : Writes) : Nat → UInt8 :=
  writes.foldl (fun buf w => Function.update buf w.1 w.2) buf

/-- The bytes that a call returns: as many of the buffer as it reports. -/
def returnedBytes (buf : Nat → UInt8) (writes : Writes) (ret : Int) : List UInt8 :=
  (List.range ret.toNat).map (storeAll buf writes)

/-- The call reports `bytes` and leaves them in the buffer, and has advanced the file. -/
structure ReadResult.Returns (res : ReadResult) (file : File) (bytes : List UInt8) : Prop where
  fits : bytes.length < 2 ^ 31
  ret : res.ret = bytes.length
  stored : ∀ buf, returnedBytes buf res.writes res.ret = bytes
  file : res.file = { file with pos := file.pos + BitVec.ofNat 64 bytes.length }

theorem storeAll_append (buf : Nat → UInt8) (front writes : Writes) :
    storeAll buf (front ++ writes) = storeAll (storeAll buf front) writes :=
  List.foldl_append

theorem storeAll_kMemcpyOut (buf : Nat → UInt8) (off : Nat) (src : List UInt8) (n o : Nat) :
    storeAll buf (kMemcpyOut off src n) o =
      if off ≤ o ∧ o < off + n then src.getD (o - off) 0 else buf o := by
  induction n with
  | zero =>
      rw [if_neg (by omega)]
      rfl
  | succ n ih =>
      have hlast : kMemcpyOut off src (n + 1) =
          kMemcpyOut off src n ++ [(off + n, src.getD n 0)] := by
        rw [kMemcpyOut, List.range_succ, List.map_append]
        rfl
      rw [hlast, storeAll_append]
      change Function.update (storeAll buf (kMemcpyOut off src n)) (off + n) (src.getD n 0) o = _
      rcases eq_or_ne o (off + n) with rfl | hne
      · rw [Function.update_self, if_pos (by omega), Nat.add_sub_cancel_left]
      · rw [Function.update_of_ne hne, ih]
        split_ifs <;> first | rfl | omega

theorem getD_take {bytes : List UInt8} {n o : Nat} (h : o < (bytes.take n).length) :
    (bytes.take n).getD o 0 = bytes.getD o 0 := by
  have hbelow := h.trans_le (List.length_take_le' n bytes)
  rw [List.getD_eq_getElem _ _ h, List.getElem_take, List.getD_eq_getElem _ _ hbelow]

/-- The bytes are those that the list has at their places. -/
theorem returnedBytes_eq {buf : Nat → UInt8} {writes : Writes} {bytes : List UInt8}
    (h : ∀ o, o < bytes.length → storeAll buf writes o = bytes.getD o 0) :
    returnedBytes buf writes bytes.length = bytes := by
  apply List.ext_getElem
  · rw [returnedBytes, List.length_map, List.length_range, Int.toNat_natCast]
  · intro o hmap ho
    have hstored : (returnedBytes buf writes bytes.length)[o] = storeAll buf writes o := by
      simp only [returnedBytes, List.getElem_map, List.getElem_range]
    rw [hstored, h o ho, List.getD_eq_getElem _ _ ho]

theorem ReadResult.returns_readDone {file : File} {bytes : List UInt8} {writes : Writes}
    (hlen : bytes.length < 2 ^ 31)
    (h : ∀ buf o, o < bytes.length → storeAll buf writes o = bytes.getD o 0) :
    (readDone file bytes.length writes).Returns file bytes := by
  have hret : (readDone file bytes.length writes).ret = bytes.length := asInt_of_lt hlen
  refine ⟨hlen, hret, fun buf => ?_, rfl⟩
  rw [hret]
  exact returnedBytes_eq (h buf)

/-- What a file holds: a program, or what `/proc` tells, which is a text or one line. -/
inductive Content where
  | image (bytes : List UInt8)
  | text (bytes : List UInt8)
  | line (bytes : List UInt8)

namespace Content

/-- The bytes of the file. -/
def whole : Content → List UInt8
  | image bytes => bytes
  | text bytes => bytes
  | line bytes => bytes ++ [newline]

/-- What is read if the first call has room for `count` bytes. -/
def fromFirst (count : Nat) : Content → List UInt8
  | image bytes => bytes
  | text bytes => bytes.take count
  | line bytes => bytes.take (count - 1) ++ [newline]

/-- Nothing is lost unless a file of `/proc` does not fit into the first buffer. -/
theorem fromFirst_eq_whole_iff (c : Content) {count : Nat} (hcount : 1 ≤ count) :
    c.fromFirst count = c.whole ↔ (∃ bytes, c = image bytes) ∨ c.whole.length ≤ count := by
  cases c with
  | image bytes => exact iff_of_true rfl (.inl ⟨bytes, rfl⟩)
  | text bytes =>
      rw [or_iff_right nofun]
      exact List.take_eq_self_iff _
  | line bytes =>
      rw [or_iff_right nofun, fromFirst, whole, List.append_cancel_right_eq, List.take_eq_self_iff,
        List.length_append, List.length_cons, List.length_nil]
      omega

end Content

/-- The file of `/proc` that is named by the last component of the path. -/
def procLeafContent (s : Scheduler) (task : Task) (leaf : List UInt8) : Option Content :=
  if kStrcmp leaf (cstr "comm") = 0 then some (.line task.name.bytes)
  else if kStrcmp leaf (cstr "cmdline") = 0 then some (.text task.name.bytes)
  else if kStrcmp leaf (cstr "stat") = 0 then some (.text (procStatText s task))
  else if kStrcmp leaf (cstr "status") = 0 then some (.text (procStatusText s task))
  else if kStrcmp leaf (cstr "cwd") = 0 then some (.line task.cwd.bytes)
  else if kStrcmp leaf (cstr "exe") = 0 then some (.line task.name.bytes)
  else none

/-- The path that a descriptor of a task was opened on. -/
def procLinkContent (k : Kernel) (t : Slot) (fd : Int) : Option Content :=
  if h : 0 ≤ fd ∧ fd < rlimitNofile then
    ((k.files t).slots ⟨fd.toNat, toNat_lt_rlimitNofile h⟩).map fun target =>
      .line (k.vfs.files target).pathname.bytes
  else none

def procContent (k : Kernel) (path : List UInt8) : Option Content :=
  if kStrcmp path (cstr "/proc/stat") = 0 then
    some (.text (cstr "ctxt " ++ procStatNum k.sched ++ [newline]))
  else
    (taskTableFindTaskByPid k.sched (procPathToPid path)).bind fun t =>
      if procExtractFdNum path ≥ 0 then procLinkContent k t (procExtractFdNum path)
      else (kStrrchr path slash).bind fun leaf => procLeafContent k.sched (k.sched.task t) leaf.tail

/-- The content of a file that can be read without waiting. -/
def File.content (k : Kernel) (file : File) : Option Content :=
  match file.fileOps.read with
  | some .bin => (binOfFile k.embeddedBins file).map fun bin => .image bin.image
  | some .proc => procContent k file.pathname.bytes
  | some .tty => none
  | none => none

theorem File.content_cases {k : Kernel} {file : File} {c : Content} (h : file.content k = some c) :
    (file.fileOps.read = some .bin ∧
      ∃ bin, binOfFile k.embeddedBins file = some bin ∧ c = .image bin.image) ∨
    (file.fileOps.read = some .proc ∧ procContent k file.pathname.bytes = some c) := by
  unfold File.content at h
  split at h
  · next hops =>
      obtain ⟨bin, hbin, rfl⟩ := Option.map_eq_some_iff.mp h
      exact .inl ⟨hops, bin, hbin, rfl⟩
  · next hops => exact .inr ⟨hops, h⟩
  · cases h
  · cases h

theorem mem_of_binOfFile {bins : List EmbeddedBin} {file : File} {bin : EmbeddedBin}
    (h : binOfFile bins file = some bin) : bin ∈ bins := by
  unfold binOfFile at h
  split at h
  · exact List.mem_of_getElem? h
  · cases h

section Call

variable {k : Kernel} {file : File} {count : BitVec 32}

theorem readText_returns {text : List UInt8} (htext : text.length < 2 ^ 31) :
    (readText file count text).Returns file (text.take count.toNat) := by
  have hlen : (text.take count.toNat).length =
      if text.length > count.toNat then count.toNat else text.length := by
    rw [List.length_take]
    split <;> omega
  unfold readText
  dsimp only
  rw [← hlen]
  have hle := List.length_take_le count.toNat text
  apply ReadResult.returns_readDone (by rw [List.length_take]; omega)
  intro buf o ho
  rw [storeAll_kMemcpyOut, if_pos (by omega), Nat.sub_zero, getD_take ho]

theorem readLine_returns {text : List UInt8} (htext : text.length + 1 < 2 ^ 31)
    (hcount : 1 ≤ count.toNat) :
    (readLine file count text).Returns file (text.take (count.toNat - 1) ++ [newline]) := by
  have hlen : (text.take (count.toNat - 1)).length =
      if text.length + 1 > count.toNat then count.toNat - 1 else text.length := by
    rw [List.length_take]
    split <;> omega
  have hall : (text.take (count.toNat - 1) ++ [newline]).length =
      (text.take (count.toNat - 1)).length + 1 := List.length_append
  unfold readLine
  dsimp only
  rw [← hlen, ← hall]
  apply ReadResult.returns_readDone (by rw [hall, List.length_take]; omega)
  intro buf o ho
  rw [storeAll_append]
  change Function.update _ _ _ o = _
  rcases eq_or_ne o (text.take (count.toNat - 1)).length with rfl | hne
  · rw [Function.update_self, List.getD_append_right _ _ _ _ le_rfl, Nat.sub_self]
    rfl
  · have hfront : o < (text.take (count.toNat - 1)).length := by omega
    rw [Function.update_of_ne hne, storeAll_kMemcpyOut, if_pos (by omega), Nat.sub_zero,
      List.getD_append _ _ _ _ hfront, getD_take hfront]

/-- `/proc/stat` stores its whole text, but reports no more than what fits. -/
theorem readProcStat_returns (s : Scheduler) :
    (readProcStat s file count).Returns file
      ((cstr "ctxt " ++ procStatNum s ++ [newline]).take count.toNat) := by
  have hnum : (procStatNum s).length ≤ 32 := length_u64Str_le s.ctxt 64
  have hpre : (cstr "ctxt ").length = 5 := by decide
  generalize hwhole : cstr "ctxt " ++ procStatNum s ++ [newline] = text
  have htext : text.length = 5 + (procStatNum s).length + 1 := by
    rw [← hwhole, List.length_append, List.length_append, hpre]
    rfl
  have hlen : (text.take count.toNat).length =
      if 5 + (procStatNum s).length + 1 > count.toNat then count.toNat
      else 5 + (procStatNum s).length + 1 := by
    rw [List.length_take, htext]
    split <;> omega
  unfold readProcStat
  dsimp only
  rw [hpre, ← hlen]
  apply ReadResult.returns_readDone (by rw [List.length_take]; omega)
  intro buf o ho
  have hbelow : o < text.length := ho.trans_le (List.length_take_le' _ _)
  rw [getD_take ho, ← hwhole, storeAll_append, storeAll_append]
  change Function.update _ _ _ o = _
  rcases eq_or_ne o (5 + (procStatNum s).length) with rfl | hne
  · rw [Function.update_self, List.getD_append_right _ _ _ _ (by rw [List.length_append, hpre]),
      List.length_append, hpre, Nat.sub_self]
    rfl
  · rw [Function.update_of_ne hne, List.getD_append _ _ _ _ (by rw [List.length_append]; omega),
      storeAll_kMemcpyOut]
    split
    · rw [List.getD_append_right _ _ _ _ (by omega), hpre]
    · rw [storeAll_kMemcpyOut, if_pos (by omega), Nat.sub_zero,
        List.getD_append _ _ _ _ (by omega)]

theorem procReadLeaf_returns {s : Scheduler} {task : Task} {leaf : List UInt8} {c : Content}
    (hcount : 1 ≤ count.toNat) (h : procLeafContent s task leaf = some c) :
    (procReadLeaf s file count task leaf).Returns file (c.fromFirst count.toNat) := by
  have hname := task.name.length_lt
  have hcwd := task.cwd.length_lt
  have hstat := length_procStatText s task
  have hstatus := length_procStatusText s task
  unfold procLeafContent at h
  unfold procReadLeaf
  split_ifs at h ⊢ <;> obtain rfl := Option.some.inj h
  · exact readLine_returns (by omega) hcount
  · exact readText_returns (by omega)
  · exact readText_returns (by omega)
  · exact readText_returns (by omega)
  · exact readLine_returns (by omega) hcount
  · exact readLine_returns (by omega) hcount

theorem readProcPidFdLink_returns {t : Slot} {fd : Int} {c : Content} (hcount : 1 ≤ count.toNat)
    (h : procLinkContent k t fd = some c) :
    (readProcPidFdLink k file count t fd).Returns file (c.fromFirst count.toNat) := by
  unfold procLinkContent at h
  split at h
  · next hfd =>
      obtain ⟨target, htarget, rfl⟩ := Option.map_eq_some_iff.mp h
      have hlt := (k.vfs.files target).pathname.length_lt
      unfold readProcPidFdLink
      rw [dif_pos hfd, htarget]
      exact readLine_returns (by omega) hcount
  · cases h

/-- The first read of a file of `/proc`. -/
theorem procRead_returns {c : Content} (hcount : 1 ≤ count.toNat) (hpos : file.pos = 0)
    (h : procContent k file.pathname.bytes = some c) :
    (procRead k file true count).Returns file (c.fromFirst count.toNat) := by
  have hskip : ¬ (file.pos > 0 ∨ ¬ true = true ∨ count = 0) := by
    rintro (hlater | hnull | hzero)
    · rw [hpos] at hlater
      exact absurd hlater (by decide)
    · exact hnull rfl
    · rw [hzero] at hcount
      exact absurd hcount (by decide)
  unfold procContent at h
  unfold procRead
  dsimp only
  rw [if_neg hskip]
  split at h
  · next hstat =>
      obtain rfl := Option.some.inj h
      rw [if_pos hstat]
      exact readProcStat_returns k.sched
  · next hstat =>
      obtain ⟨t, hfind, hread⟩ := Option.bind_eq_some_iff.mp h
      have hpid : procPathToPid file.pathname.bytes ≠ pidNone := by
        intro hnone
        rw [hnone] at hfind
        cases hfind
      rw [if_neg hstat, if_neg hpid, hfind]
      dsimp only
      split at hread
      · next hfd =>
          rw [if_pos hfd]
          exact readProcPidFdLink_returns hcount hread
      · next hfd =>
          obtain ⟨leaf, hleaf, hread⟩ := Option.bind_eq_some_iff.mp hread
          rw [if_neg hfd, hleaf]
          exact procReadLeaf_returns hcount hread

/-- A later one. -/
theorem procRead_later (hpos : file.pos ≠ 0) :
    procRead k file true count = { ret := 0, writes := [], file } := by
  unfold procRead
  dsimp only
  rw [if_pos (.inl (by bv_omega))]

/-- A read of a program goes on at the position of the file. -/
theorem binRead_returns (count : BitVec 32) {bin : EmbeddedBin}
    (hbin : binOfFile k.embeddedBins file = some bin) (hsize : bin.image.length < 2 ^ 31) :
    (binRead k file true count).Returns file ((bin.image.drop file.pos.toNat).take count.toNat) := by
  unfold binRead
  rw [if_neg (by decide), hbin]
  dsimp only
  split
  · next hend =>
      rw [List.drop_eq_nil_of_le hend, List.take_nil]
      refine ⟨by decide, rfl, fun _ => rfl, ?_⟩
      change file = { file with pos := file.pos + 0 }
      rw [BitVec.ofNat_eq_ofNat, BitVec.add_zero]
  · have hlen : ((bin.image.drop file.pos.toNat).take count.toNat).length =
        if count.toNat < bin.image.length - file.pos.toNat then count.toNat
        else bin.image.length - file.pos.toNat := by
      rw [List.length_take, List.length_drop]
      split <;> omega
    rw [← hlen]
    apply ReadResult.returns_readDone (by rw [hlen]; split <;> omega)
    intro buf o ho
    rw [storeAll_kMemcpyOut, if_pos (by omega), Nat.sub_zero, getD_take ho]

end Call

/-- The descriptor is as it was, and the content of the file has not changed. -/
structure Kept (fd : Int) (c : Content) (k k' : Kernel) : Prop where
  current : currentFile k' fd = currentFile k fd
  file : ∀ i, currentFile k fd = some i → k'.vfs.files i = k.vfs.files i
  content : ∀ i, currentFile k fd = some i → (k'.vfs.files i).content k' = some c

/-- The bytes that the calls return one after the other until one returns 0, if the first
is for `counts 0` bytes, the next for `counts 1`, and so on. Between two calls anything may
happen that leaves the content of the file and the descriptor alone. -/
inductive Reading (fd : Int) (c : Content) : (Nat → BitVec 32) → Kernel → List UInt8 → Prop
  | done {counts : Nat → BitVec 32} {k k' : Kernel} {writes : Writes}
      (h : vfsRead k fd true (counts 0) = some (0, writes, k')) : Reading fd c counts k []
  | more {counts : Nat → BitVec 32} {k k₁ k₂ : Kernel} {ret : Int} {writes : Writes}
      {bytes : List UInt8} (buf : Nat → UInt8)
      (h : vfsRead k fd true (counts 0) = some (ret, writes, k₁)) (hret : 0 < ret)
      (hkept : Kept fd c k₁ k₂) (hrest : Reading fd c (fun n => counts (n + 1)) k₂ bytes) :
      Reading fd c counts k (returnedBytes buf writes ret ++ bytes)

section Reading

variable {k : Kernel} {fd : Int} {i : FileRef} {c : Content} {counts : Nat → BitVec 32}
  {bytes : List UInt8}

theorem vfsRead_open {read : ReadFn} {count : BitVec 32} {res : ReadResult} (hcount : count ≠ 0)
    (hfile : currentFile k fd = some i) (hops : (k.vfs.files i).fileOps.read = some read)
    (hcall : read.call k (k.vfs.files i) true count = some res) :
    vfsRead k fd true count = some (res.ret, res.writes, k.setFile i res.file) := by
  unfold vfsRead
  rw [if_neg (by simpa using hcount), hfile]
  dsimp only
  rw [hops]
  dsimp only
  rw [hcall]
  rfl

theorem vfsRead_returns {read : ReadFn} {count : BitVec 32} {res : ReadResult} (hcount : count ≠ 0)
    (hfile : currentFile k fd = some i) (hops : (k.vfs.files i).fileOps.read = some read)
    (hcall : read.call k (k.vfs.files i) true count = some res)
    (hreturns : res.Returns (k.vfs.files i) bytes) :
    ∃ writes k', vfsRead k fd true count = some ((bytes.length : Int), writes, k') ∧
      ∀ buf, returnedBytes buf writes bytes.length = bytes := by
  have hread := vfsRead_open hcount hfile hops hcall
  have hstored := hreturns.stored
  rw [hreturns.ret] at hread hstored
  exact ⟨_, _, hread, hstored⟩

/-- A call that returns something, and what may follow. -/
theorem Reading.step {res : ReadResult} {front : List UInt8}
    (hread : vfsRead k fd true (counts 0) = some (res.ret, res.writes, k.setFile i res.file))
    (hreturns : res.Returns (k.vfs.files i) front) (hfront : front ≠ []) :
    Reading fd c counts k bytes ↔ ∃ rest k', bytes = front ++ rest ∧
      Kept fd c (k.setFile i res.file) k' ∧ Reading fd c (fun n => counts (n + 1)) k' rest := by
  have hpos : 0 < res.ret := by
    have hlen := List.length_pos_of_ne_nil hfront
    rw [hreturns.ret]
    omega
  constructor
  · intro h
    cases h with
    | done hdone =>
        obtain ⟨hret, _⟩ := Prod.mk.inj (Option.some.inj (hread.symm.trans hdone))
        omega
    | @more _ _ _ k₂ _ _ rest buf hmore _ hkept hrest =>
        obtain ⟨rfl, hstored⟩ := Prod.mk.inj (Option.some.inj (hread.symm.trans hmore))
        obtain ⟨rfl, rfl⟩ := Prod.mk.inj hstored
        exact ⟨rest, k₂, by rw [hreturns.stored], hkept, hrest⟩
  · rintro ⟨rest, k', rfl, hkept, hrest⟩
    rw [← hreturns.stored fun _ => 0]
    exact .more _ hread hpos hkept hrest

/-- A call that returns nothing. -/
theorem Reading.last {res : ReadResult}
    (hread : vfsRead k fd true (counts 0) = some (res.ret, res.writes, k.setFile i res.file))
    (hreturns : res.Returns (k.vfs.files i) []) : Reading fd c counts k bytes ↔ bytes = [] := by
  have hzero : res.ret = 0 := hreturns.ret
  constructor
  · intro h
    cases h with
    | done _ => rfl
    | more _ hmore hpos _ _ =>
        obtain ⟨hret, _⟩ := Prod.mk.inj (Option.some.inj (hread.symm.trans hmore))
        omega
  · rintro rfl
    rw [hzero] at hread
    exact .done hread

/-- The position of an open file is not part of any content. -/
theorem File.content_setPos (k : Kernel) (i : FileRef) (pos : BitVec 64) :
    File.content (k.setFile i { k.vfs.files i with pos }) { k.vfs.files i with pos } =
      (k.vfs.files i).content k := by
  have hpath (target : FileRef) :
      ((k.setFile i { k.vfs.files i with pos }).vfs.files target).pathname =
        (k.vfs.files target).pathname := by
    change (Function.update k.vfs.files i _ target).pathname = _
    rcases eq_or_ne target i with rfl | hne
    · rw [Function.update_self]
    · rw [Function.update_of_ne hne]
  unfold File.content procContent procLinkContent
  simp only [hpath]
  rfl

theorem Kept.refl (hfile : currentFile k fd = some i) (hcontent : (k.vfs.files i).content k = some c)
    (pos : BitVec 64) : Kept fd c (k.setFile i { k.vfs.files i with pos })
      (k.setFile i { k.vfs.files i with pos }) := by
  refine ⟨rfl, fun _ _ => rfl, fun j hj => ?_⟩
  obtain rfl := Option.some.inj (hfile.symm.trans hj)
  rw [Kernel.setFile_self, File.content_setPos]
  exact hcontent

/-- A program is read from the position of the file on. -/
theorem reading_image {image : List UInt8} (hfile : currentFile k fd = some i)
    (hops : (k.vfs.files i).fileOps.read = some .bin)
    (hcontent : (k.vfs.files i).content k = some (.image image)) (hsize : image.length < 2 ^ 31)
    (hcounts : ∀ n, counts n ≠ 0) :
    Reading fd (.image image) counts k bytes ↔ bytes = image.drop (k.vfs.files i).pos.toNat := by
  induction hleft : image.length - (k.vfs.files i).pos.toNat using Nat.strong_induction_on
    generalizing k counts bytes with
  | _ left ih =>
      obtain ⟨_, bin, hbin, himage⟩ | ⟨hproc, _⟩ := File.content_cases hcontent
      rotate_left
      · rw [hops] at hproc
        cases hproc
      obtain rfl := Content.image.inj himage
      have hreturns := binRead_returns (counts 0) hbin hsize
      have hread := vfsRead_open (hcounts 0) hfile hops rfl
      rcases Nat.eq_zero_or_pos left with rfl | hpos
      · have hnil : bin.image.drop (k.vfs.files i).pos.toNat = [] :=
          List.drop_eq_nil_of_le (by omega)
        rw [hnil, List.take_nil] at hreturns
        rw [Reading.last hread hreturns, hnil]
      generalize hfront : (bin.image.drop (k.vfs.files i).pos.toNat).take (counts 0).toNat = front
        at hreturns
      have hcount : (counts 0).toNat ≠ 0 := fun hzero => hcounts 0 (BitVec.eq_of_toNat_eq hzero)
      have hlen : front.length = min (counts 0).toNat left := by
        rw [← hfront, List.length_take, List.length_drop, hleft]
      have hne : front ≠ [] := List.ne_nil_of_length_pos (by omega)
      -- the position behind the call
      have hnext : ((k.vfs.files i).pos + BitVec.ofNat 64 front.length).toNat =
          (k.vfs.files i).pos.toNat + front.length := by
        rw [BitVec.toNat_add, BitVec.toNat_ofNat]
        omega
      have hsplit : front ++ bin.image.drop ((k.vfs.files i).pos.toNat + front.length) =
          bin.image.drop (k.vfs.files i).pos.toNat := by
        rw [← List.drop_drop]
        apply List.prefix_iff_eq_append.mp
        rw [← hfront]
        exact List.take_prefix _ _
      have hrest (k' : Kernel)
          (hkept : Kept fd (.image bin.image)
            (k.setFile i (binRead k (k.vfs.files i) true (counts 0)).file) k')
          (rest : List UInt8) :
          Reading fd (.image bin.image) (fun n => counts (n + 1)) k' rest ↔
            rest = bin.image.drop ((k.vfs.files i).pos.toNat + front.length) := by
        have hsame := hkept.file i hfile
        rw [Kernel.setFile_self, hreturns.file] at hsame
        have hpos' : (k'.vfs.files i).pos.toNat = (k.vfs.files i).pos.toNat + front.length := by
          rw [hsame, hnext]
        rw [← hpos']
        exact ih (bin.image.length - (k'.vfs.files i).pos.toNat) (by omega)
          (hkept.current.trans hfile) (by rw [hsame]; exact hops) (hkept.content i hfile)
          (fun n => hcounts (n + 1)) rfl
      rw [Reading.step hread hreturns hne]
      constructor
      · rintro ⟨rest, k', rfl, hkept, hread'⟩
        rw [(hrest k' hkept rest).mp hread', hsplit]
      · rintro rfl
        have hkept := Kept.refl hfile hcontent ((k.vfs.files i).pos + BitVec.ofNat 64 front.length)
        rw [← hreturns.file] at hkept
        exact ⟨_, _, hsplit.symm, hkept, (hrest _ hkept _).mpr rfl⟩

/-- Of a file of `/proc` only the first call returns anything. -/
theorem reading_proc (hfile : currentFile k fd = some i)
    (hops : (k.vfs.files i).fileOps.read = some .proc) (hpos : (k.vfs.files i).pos = 0)
    (hcontent : (k.vfs.files i).content k = some c) (hcounts : ∀ n, counts n ≠ 0) :
    Reading fd c counts k bytes ↔ bytes = c.fromFirst (counts 0).toNat := by
  have hcount : 1 ≤ (counts 0).toNat :=
    Nat.pos_of_ne_zero fun hzero => hcounts 0 (BitVec.eq_of_toNat_eq hzero)
  obtain ⟨hbin, _⟩ | ⟨_, hcomposed⟩ := File.content_cases hcontent
  · rw [hops] at hbin
    cases hbin
  have hreturns := procRead_returns hcount hpos hcomposed
  have hread := vfsRead_open (hcounts 0) hfile hops rfl
  have hlen := hreturns.fits
  rcases eq_or_ne (c.fromFirst (counts 0).toNat) [] with hnil | hne
  · rw [hnil] at hreturns
    rw [Reading.last hread hreturns, hnil]
  have hlater (k' : Kernel)
      (hkept : Kept fd c (k.setFile i (procRead k (k.vfs.files i) true (counts 0)).file) k')
      (rest : List UInt8) : Reading fd c (fun n => counts (n + 1)) k' rest ↔ rest = [] := by
    have hsame := hkept.file i hfile
    rw [Kernel.setFile_self, hreturns.file] at hsame
    have hpos' : (k'.vfs.files i).pos ≠ 0 := by
      rw [hsame, hpos]
      have hfront := List.length_pos_of_ne_nil hne
      intro hzero
      have hnat := congrArg BitVec.toNat hzero
      rw [BitVec.toNat_add, BitVec.toNat_ofNat] at hnat
      change (0 + _) % _ = 0 at hnat
      omega
    have hread' := vfsRead_open (hcounts 1) (hkept.current.trans hfile)
      (show (k'.vfs.files i).fileOps.read = some .proc by rw [hsame]; exact hops) rfl
    rw [procRead_later hpos'] at hread'
    apply Reading.last hread'
    refine ⟨by decide, rfl, fun _ => rfl, ?_⟩
    change k'.vfs.files i = { k'.vfs.files i with pos := (k'.vfs.files i).pos + 0 }
    rw [BitVec.ofNat_eq_ofNat, BitVec.add_zero]
  rw [Reading.step hread hreturns hne]
  constructor
  · rintro ⟨rest, k', rfl, hkept, hread'⟩
    rw [(hlater k' hkept rest).mp hread', List.append_nil]
  · rintro rfl
    have hkept := Kept.refl hfile hcontent
      ((k.vfs.files i).pos + BitVec.ofNat 64 (c.fromFirst (counts 0).toNat).length)
    rw [← hreturns.file] at hkept
    exact ⟨[], _, (List.append_nil _).symm, hkept, (hlater _ hkept []).mpr rfl⟩

theorem reading_iff (hfile : currentFile k fd = some i)
    (hpos : (k.vfs.files i).pos = 0) (hcontent : (k.vfs.files i).content k = some c)
    (hbins : ∀ bin ∈ k.embeddedBins, bin.image.length < 2 ^ 31) (hcounts : ∀ n, counts n ≠ 0) :
    Reading fd c counts k bytes ↔ bytes = c.fromFirst (counts 0).toNat := by
  rcases File.content_cases hcontent with ⟨hops, bin, hbin, rfl⟩ | ⟨hops, _⟩
  · have hsize := hbins bin (mem_of_binOfFile hbin)
    rw [reading_image hfile hops hcontent hsize hcounts, hpos]
    rfl
  · exact reading_proc hfile hops hpos hcontent hcounts

/-- A call with a buffer for the whole content. -/
theorem vfsRead_whole {count : BitVec 32} (hfile : currentFile k fd = some i)
    (hpos : (k.vfs.files i).pos = 0) (hcontent : (k.vfs.files i).content k = some c)
    (hbins : ∀ bin ∈ k.embeddedBins, bin.image.length < 2 ^ 31) (hcount : count ≠ 0)
    (hfits : c.whole.length ≤ count.toNat) :
    ∃ writes k', vfsRead k fd true count = some ((c.whole.length : Int), writes, k') ∧
      ∀ buf, returnedBytes buf writes c.whole.length = c.whole := by
  have hone : 1 ≤ count.toNat :=
    Nat.pos_of_ne_zero fun hzero => hcount (BitVec.eq_of_toNat_eq hzero)
  rcases File.content_cases hcontent with ⟨hops, bin, hbin, rfl⟩ | ⟨hops, hcomposed⟩
  · have hreturns := binRead_returns count hbin (hbins bin (mem_of_binOfFile hbin))
    have hwhole : (bin.image.drop (k.vfs.files i).pos.toNat).take count.toNat = bin.image := by
      rw [hpos]
      exact List.take_of_length_le hfits
    rw [hwhole] at hreturns
    exact vfsRead_returns hcount hfile hops rfl hreturns
  · have hreturns := procRead_returns hone hpos hcomposed
    rw [(c.fromFirst_eq_whole_iff hone).mpr (.inr hfits)] at hreturns
    exact vfsRead_returns hcount hfile hops rfl hreturns

/-- A program is read whole, however the reads are sliced; of a file of `/proc` the first
read returns what fits, and the others return nothing. -/
theorem readings_of_content (hfile : currentFile k fd = some i)
    (hpos : (k.vfs.files i).pos = 0) (hcontent : (k.vfs.files i).content k = some c)
    (hbins : ∀ bin ∈ k.embeddedBins, bin.image.length < 2 ^ 31) :
    (∀ count ≠ 0, c.whole.length ≤ BitVec.toNat count →
      ∃ writes k', vfsRead k fd true count = some ((c.whole.length : Int), writes, k') ∧
        ∀ buf, returnedBytes buf writes c.whole.length = c.whole) ∧
    ∀ counts : Nat → BitVec 32, (∀ n, counts n ≠ 0) →
      (∀ bytes, Reading fd c counts k bytes ↔ bytes = c.fromFirst (counts 0).toNat) ∧
      (c.fromFirst (counts 0).toNat = c.whole ↔
        (∃ bytes, c = .image bytes) ∨ c.whole.length ≤ (counts 0).toNat) := by
  refine ⟨fun count hne hfits => vfsRead_whole hfile hpos hcontent hbins hne hfits, ?_⟩
  intro counts hcounts
  refine ⟨fun bytes => reading_iff hfile hpos hcontent hbins hcounts, ?_⟩
  exact c.fromFirst_eq_whole_iff
    (Nat.pos_of_ne_zero fun hzero => hcounts 0 (BitVec.eq_of_toNat_eq hzero))

end Reading

def programKernel : Kernel :=
  { twoTaskKernel with embeddedBins := [{ name := cstr "/bin/x", image := [1, 2, 3] }] }

/-- A program, read two bytes at a time. -/
theorem readings_of_content_program : ∃ k, vfsOpen programKernel 0 (cstr "/bin/x") 0 0 = some (k, 0) ∧
    Reading 0 (.image [1, 2, 3]) (fun _ => 2) k [1, 2, 3] := by
  have hopen : ∃ k i, vfsOpen programKernel 0 (cstr "/bin/x") 0 0 = some (k, 0) ∧
      currentFile k 0 = some i ∧ (k.vfs.files i).pos = 0 ∧
      (k.vfs.files i).content k = some (.image [1, 2, 3]) ∧
      k.embeddedBins = programKernel.embeddedBins := ⟨_, _, rfl, rfl, rfl, rfl, rfl⟩
  obtain ⟨k, i, hopen, hfile, hpos, hcontent, hbins⟩ := hopen
  have hsmall : ∀ bin ∈ k.embeddedBins, bin.image.length < 2 ^ 31 := by
    rw [hbins]
    decide
  exact ⟨k, hopen, ((readings_of_content hfile hpos hcontent hsmall).2 _
    fun _ => by decide).1 _ |>.mpr rfl⟩

/-- Byte by byte only the first byte of `/proc/1/stat` is read. -/
theorem reading_cutOff : ∃ k c, vfsOpen twoTaskKernel 0 (cstr "/proc/1/stat") 0 0 = some (k, 0) ∧
    (∀ i, currentFile k 0 = some i → (k.vfs.files i).content k = some c) ∧
    c.whole.length = 21 ∧ Reading 0 c (fun _ => 64) k c.whole ∧
    ∀ bytes, Reading 0 c (fun _ => 1) k bytes → bytes = cstr "1" := by
  have hopen : ∃ k i, vfsOpen twoTaskKernel 0 (cstr "/proc/1/stat") 0 0 = some (k, 0) ∧
      currentFile k 0 = some i ∧ (k.vfs.files i).pos = 0 ∧
      (k.vfs.files i).content k = some (.text (cstr "1 () R 0 0 0 0 0 0 0\n")) ∧
      k.embeddedBins = [] := ⟨_, _, rfl, rfl, rfl, rfl, rfl⟩
  obtain ⟨k, i, hopen, hfile, hpos, hcontent, hbins⟩ := hopen
  have hsmall : ∀ bin ∈ k.embeddedBins, bin.image.length < 2 ^ 31 := by
    rw [hbins]
    nofun
  refine ⟨k, .text (cstr "1 () R 0 0 0 0 0 0 0\n"), hopen, fun j hj => ?_, by decide, ?_,
    fun bytes h => ?_⟩
  · obtain rfl := Option.some.inj (hfile.symm.trans hj)
    exact hcontent
  · exact (reading_iff hfile hpos hcontent hsmall fun _ => by decide).mpr rfl
  · exact (reading_iff hfile hpos hcontent hsmall fun _ => by decide).mp h

end Punix
