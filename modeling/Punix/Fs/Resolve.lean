import Punix.Fs.Normalize
import Punix.Fs.OpenFiles
import Punix.Kernel.Sched

/-!
Which file `vfs_open` opens. What is resolved is the part of the full string that
fits into the array.
-/

namespace Punix

open Lib

/-- The path that `pathname` stands for in the directory `cwd`, before anything
is cut off. -/
def fullPath (cwd pathname : List UInt8) : List UInt8 :=
  if strBytes pathname = [] then cwd
  else if (strBytes pathname).head? = some slash then strBytes pathname
  else if cwd.getLast? = some slash then cwd ++ strBytes pathname
  else cwd ++ slash :: strBytes pathname

theorem canonicalPath_eq_cons (path : List UInt8) : ∃ rest, canonicalPath path = slash :: rest :=
  ⟨_, rfl⟩

theorem fullPath_eq_cons {cwd : List UInt8} (hcwd : ∃ rest, cwd = slash :: rest)
    (pathname : List UInt8) : ∃ rest, fullPath cwd pathname = slash :: rest := by
  obtain ⟨rest, rfl⟩ := hcwd
  unfold fullPath
  split_ifs with hnil habs
  · exact ⟨rest, rfl⟩
  · exact List.head?_eq_some_iff.mp habs
  · exact ⟨_, rfl⟩
  · exact ⟨_, rfl⟩

theorem strBytes_eq_nil_iff {s : List UInt8} : strBytes s = [] ↔ s.getD 0 0 = 0 := by
  cases s with
  | nil => simp [strBytes]
  | cons b s => by_cases hb : b = 0 <;> simp [strBytes, hb]

theorem head?_strBytes {s : List UInt8} (h : s.getD 0 0 ≠ 0) :
    (strBytes s).head? = some (s.getD 0 0) := by
  cases s with
  | nil => simp at h
  | cons b s =>
      have hb : b ≠ 0 := by simpa using h
      simp [strBytes, hb]

/-- Behind a string that starts an array, another one is appended as far as
there is room. -/
theorem strBytes_append {dest s : List UInt8} (htake : dest.take s.length = s)
    (hstr : strBytes dest = s) (hroom : s.length < dest.length) (src : List UInt8) :
    strBytes (if s.length < dest.length - 1 then
        (kStrncpy dest s.length src (dest.length - s.length)).set (dest.length - 1) 0
      else dest) = (s ++ strBytes src).take (dest.length - 1) := by
  split
  · rw [strBytes_kStrncpy src hroom (by rw [htake, ← hstr]; exact noNul_strBytes dest), htake]
  · have hfull : dest.length - 1 = s.length := by omega
    rw [hstr, hfull, List.take_left]

theorem strBytes_copyTerminated {resolved : List UInt8} (hpos : 0 < resolved.length)
    (src : List UInt8) :
    strBytes (copyTerminated resolved src) = (strBytes src).take (resolved.length - 1) := by
  have hempty : 0 ∉ resolved.take 0 := by simp
  simpa [copyTerminated] using strBytes_kStrncpy src hpos hempty

theorem length_copyTerminated (resolved src : List UInt8) :
    (copyTerminated resolved src).length = resolved.length := by
  rw [copyTerminated, List.length_set, length_kStrncpy]

section Join

variable {dest cwd : List UInt8}

theorem getD_last_eq_slash_iff (htake : dest.take cwd.length = cwd) (hpos : 0 < cwd.length)
    (hlen : cwd.length ≤ dest.length) :
    dest.getD (cwd.length - 1) 0 = slash ↔ cwd.getLast? = some slash := by
  have hin : cwd.length - 1 < dest.length := by omega
  have hget : cwd.getLast? = some (dest.getD (cwd.length - 1) 0) := by
    rw [List.getLast?_eq_getElem?, ← List.getElem_eq_getD (h := hin), ← List.getElem?_eq_getElem hin]
    conv_lhs => rw [← htake]
    rw [List.getElem?_take, if_pos (by rw [htake]; omega), htake]
  rw [hget, Option.some_inj]

/-- A separator is put behind the string, and a NUL behind that. -/
theorem take_appendSlash (htake : dest.take cwd.length = cwd) (hroom : cwd.length < dest.length) :
    ((dest.set cwd.length slash).set (cwd.length + 1) 0).take (cwd ++ [slash]).length =
      cwd ++ [slash] := by
  rw [List.length_append, List.length_singleton, List.take_set_of_le le_rfl, List.take_add_one,
    List.take_set_of_le le_rfl, htake, List.getElem?_set_self hroom]
  rfl

theorem strBytes_appendSlash (htake : dest.take cwd.length = cwd) (hnul : 0 ∉ cwd)
    (hroom : cwd.length < dest.length - 1) :
    strBytes ((dest.set cwd.length slash).set (cwd.length + 1) 0) = cwd ++ [slash] := by
  have htake' := take_appendSlash htake (by omega)
  rw [List.length_append, List.length_singleton, List.take_set_of_le le_rfl] at htake'
  rw [strBytes_set_nul (by simp; omega) (by rw [htake']; simp [hnul, slash]), htake']

end Join

/-- What is normalized is the full path, as far as the array can hold it. -/
theorem vfsResolvePath_eq {cwd : List UInt8} (pathname resolved : List UInt8)
    (hcwd : ∃ rest, cwd = slash :: rest) (hnul : 0 ∉ cwd) (hlen : cwd.length < resolved.length) :
    ∃ buf, vfsResolvePath cwd pathname resolved = vfsNormalizePath buf resolved.length ∧
      buf.length = resolved.length ∧
      strBytes buf = (fullPath cwd pathname).take (resolved.length - 1) := by
  obtain ⟨rest, hrest⟩ := hcwd
  have hcwdLen : cwd.length = rest.length + 1 := by rw [hrest, List.length_cons]
  have hcwdHead : cwd.getD 0 0 ≠ 0 := by
    rw [hrest]
    simp [slash]
  have hcopied : strBytes (copyTerminated resolved cwd) = cwd := by
    rw [strBytes_copyTerminated (by omega), strBytes_eq_self hnul,
      List.take_of_length_le (by omega)]
  have hsize : resolved.length ≠ 0 := by omega
  simp only [vfsResolvePath, if_neg hsize, hcwdHead, ne_eq, not_false_eq_true, if_true]
  by_cases hempty : pathname.getD 0 0 = 0
  · refine ⟨copyTerminated resolved cwd, by rw [if_pos hempty], length_copyTerminated .., ?_⟩
    rw [hcopied, fullPath, if_pos (strBytes_eq_nil_iff.mpr hempty),
      List.take_of_length_le (by omega)]
  rw [if_neg hempty]
  have hne : strBytes pathname ≠ [] := fun h => hempty (strBytes_eq_nil_iff.mp h)
  by_cases habs : pathname.getD 0 0 = slash
  · refine ⟨copyTerminated resolved pathname, by rw [if_pos habs], length_copyTerminated .., ?_⟩
    rw [strBytes_copyTerminated (by omega), fullPath, if_neg hne,
      if_pos (by rw [head?_strBytes hempty, habs])]
  rw [if_neg habs]
  have hrelative : fullPath cwd pathname =
      if cwd.getLast? = some slash then cwd ++ strBytes pathname
      else cwd ++ slash :: strBytes pathname := by
    rw [fullPath, if_neg hne, if_neg]
    rw [head?_strBytes hempty]
    simpa using habs
  have hkStrlen : kStrlen (copyTerminated resolved cwd) = cwd.length := by rw [kStrlen, hcopied]
  have htake : (copyTerminated resolved cwd).take cwd.length = cwd := by
    have hstarts := take_length_strBytes (copyTerminated resolved cwd)
    rwa [hcopied] at hstarts
  have hdest := length_copyTerminated resolved cwd
  simp only [hkStrlen, show ¬ cwd.length = 0 by omega, if_false]
  generalize copyTerminated resolved cwd = dest at *
  have hlast := getD_last_eq_slash_iff htake (by omega) (by omega)
  rw [← hdest]
  by_cases hslash : cwd.getLast? = some slash
  · have hnoSep : ¬ (cwd.length < dest.length - 1 ∧ dest.getD (cwd.length - 1) 0 ≠ slash) :=
      fun h => h.2 (hlast.mpr hslash)
    rw [hrelative, if_pos hslash, ← strBytes_append htake hcopied (by omega)]
    simp only [hnoSep, if_false]
    refine ⟨_, rfl, ?_, rfl⟩
    split <;> simp [length_kStrncpy]
  by_cases hfull : cwd.length < dest.length - 1
  · have hsep : cwd.length < dest.length - 1 ∧ dest.getD (cwd.length - 1) 0 ≠ slash :=
      ⟨hfull, fun h => hslash (hlast.mp h)⟩
    have htake' := take_appendSlash htake (by omega)
    have hstr' := strBytes_appendSlash htake hnul hfull
    have happend := strBytes_append htake' hstr' (by simp; omega) pathname
    simp only [List.length_append, List.length_singleton, List.length_set, List.append_assoc,
      List.cons_append, List.nil_append] at happend
    rw [hrelative, if_neg hslash, ← happend]
    simp only [hsep, and_self, if_true, not_false_eq_true]
    refine ⟨_, rfl, ?_, rfl⟩
    split <;> simp [length_kStrncpy]
  · have hexact : dest.length - 1 = cwd.length := by omega
    simp only [hfull, false_and, if_false]
    refine ⟨dest, rfl, rfl, ?_⟩
    rw [hrelative, if_neg hslash, hexact, List.take_left, hcopied]

/-- An array that holds an absolute path ends up with as much of the canonical form as it
has room for. -/
theorem bytes_normalized {buf rest : List UInt8} (hlen : buf.length = maxFilenameLen)
    (hstr : strBytes buf = slash :: rest) (hshort : (strBytes buf).length < maxFilenameLen) :
    (CharArray.ofBytes maxFilenameLen (vfsNormalizePath buf maxFilenameLen)).bytes =
      (canonicalPath (strBytes buf)).take (maxFilenameLen - 2) := by
  have hne : buf.getD 0 0 ≠ 0 := fun h => by simp [strBytes_eq_nil_iff.mpr h] at hstr
  have hhead : buf.getD 0 0 = slash := by
    have hsome := head?_strBytes hne
    rw [hstr, List.head?_cons, Option.some_inj] at hsome
    exact hsome.symm
  have hnormal := strBytes_vfsNormalizePath (by rw [hlen]; decide) hhead (hlen ▸ hshort)
    (pending_of_length hshort) (by rw [hlen]; decide)
  rw [hlen] at hnormal
  rw [CharArray.bytes_ofBytes, hnormal]
  rw [hnormal, List.length_take]
  simp only [maxFilenameLen]
  omega

theorem fullPath_take_eq_cons {cwd : List UInt8} (hcwd : ∃ rest, cwd = slash :: rest)
    (pathname : List UInt8) :
    ∃ rest, (fullPath cwd pathname).take (maxFilenameLen - 1) = slash :: rest := by
  obtain ⟨rest, hfull⟩ := fullPath_eq_cons hcwd pathname
  exact ⟨rest.take (maxFilenameLen - 2), by rw [hfull]; rfl⟩

/-- What `vfs_open` resolves is the part of the full path that an array of
`MAX_FILENAME_LEN` bytes holds. -/
theorem resolvedPath_take {k : Kernel} {t : Slot} (pathname : List UInt8)
    (hcwd : ∃ rest, (k.sched.task t).cwd.bytes = slash :: rest) :
    (resolvedPath k t pathname).bytes =
      (canonicalPath ((fullPath (k.sched.task t).cwd.bytes pathname).take
        (maxFilenameLen - 1))).take (maxFilenameLen - 2) := by
  unfold resolvedPath
  generalize (k.sched.task t).cwd = cwd at *
  obtain ⟨buf, hresolve, hlen, hstr⟩ := vfsResolvePath_eq pathname
    (List.replicate maxFilenameLen 0) hcwd cwd.noNul (by simpa using cwd.fits)
  rw [List.length_replicate] at hresolve hlen hstr
  obtain ⟨rest, hcons⟩ := fullPath_take_eq_cons hcwd pathname
  rw [hresolve, bytes_normalized hlen (hstr.trans hcons), hstr]
  rw [hstr, List.length_take]
  simp only [maxFilenameLen]
  omega

theorem resolvedPath_bytes {k : Kernel} {t : Slot} {pathname : List UInt8}
    (hcwd : canonicalPath (k.sched.task t).cwd.bytes = (k.sched.task t).cwd.bytes)
    (hfits : (canonicalPath ((fullPath (k.sched.task t).cwd.bytes pathname).take
      (maxFilenameLen - 1))).length ≤ maxFilenameLen - 2) :
    (resolvedPath k t pathname).bytes =
      canonicalPath ((fullPath (k.sched.task t).cwd.bytes pathname).take (maxFilenameLen - 1)) := by
  have habs : ∃ rest, (k.sched.task t).cwd.bytes = slash :: rest :=
    hcwd ▸ canonicalPath_eq_cons (k.sched.task t).cwd.bytes
  rw [resolvedPath_take pathname habs, List.take_of_length_le hfits]

/-- A full path does not depend on the directory of the task. -/
theorem resolvedPath_absolute (k : Kernel) (t : Slot) {pathname : List UInt8}
    (habs : ∃ rest, strBytes pathname = slash :: rest) :
    (resolvedPath k t pathname).bytes =
      (canonicalPath ((strBytes pathname).take (maxFilenameLen - 1))).take (maxFilenameLen - 2) := by
  obtain ⟨rest, hrest⟩ := habs
  have hne : pathname.getD 0 0 ≠ 0 := fun h => by simp [strBytes_eq_nil_iff.mpr h] at hrest
  have hslash : pathname.getD 0 0 = slash := by
    have hsome := head?_strBytes hne
    rw [hrest, List.head?_cons, Option.some_inj] at hsome
    exact hsome.symm
  have hresolve : vfsResolvePath (k.sched.task t).cwd.bytes pathname
      (List.replicate maxFilenameLen 0) =
      vfsNormalizePath (copyTerminated (List.replicate maxFilenameLen 0) pathname)
        maxFilenameLen := by
    have hsize : ¬ maxFilenameLen = 0 := by decide
    simp only [vfsResolvePath, List.length_replicate, if_neg hsize, if_neg hne, if_pos hslash]
  have hcopied : strBytes (copyTerminated (List.replicate maxFilenameLen 0) pathname) =
      (strBytes pathname).take (maxFilenameLen - 1) := by
    rw [strBytes_copyTerminated (by decide), List.length_replicate]
  have hcons : (strBytes pathname).take (maxFilenameLen - 1) =
      slash :: rest.take (maxFilenameLen - 2) := by
    rw [hrest]
    rfl
  rw [resolvedPath, hresolve, bytes_normalized _ (hcopied.trans hcons), hcopied]
  · rw [hcopied, List.length_take]
    simp only [maxFilenameLen]
    omega
  · rw [length_copyTerminated, List.length_replicate]

/-- A task without a directory is at the root. -/
theorem resolvedPath_noCwd {k k' : Kernel} {t : Slot} (hempty : (k.sched.task t).cwd.bytes = [])
    (hroot : (k'.sched.task t).cwd.bytes = [slash]) (pathname : List UInt8) :
    resolvedPath k t pathname = resolvedPath k' t pathname := by
  have hcopied : storeRoot (List.replicate maxFilenameLen 0) =
      copyTerminated (List.replicate maxFilenameLen 0) [slash] := by
    decide
  simp only [resolvedPath, hempty, hroot, vfsResolvePath, hcopied]
  rfl

/-- The file of a successful open bears the resolved path. -/
theorem vfsOpen_resolved {k k' : Kernel} {t : Slot} {pathname : List UInt8} {flags mode fd : Int}
    (hopen : vfsOpen k t pathname flags mode = some (k', fd)) (hfd : 0 ≤ fd) :
    ∃ i, filesFindByFd (k'.files t) fd = some i ∧
      (k'.vfs.files i).pathname = resolvedPath k t pathname := by
  obtain ⟨fs, vfs, i, files, slot, _, _, hslot, rfl, res, file, hfs, _, rfl⟩ :=
    vfsOpen_success hopen hfd
  obtain ⟨rfl, _⟩ := filesAllocFd_eq_some hslot
  obtain ⟨driverData, fileOps, pos, hframe⟩ := fs.openFile_frame _
    (openedFile (vfs.files i) slot (resolvedPath k t pathname) flags mode)
  rw [hfs] at hframe
  refine ⟨i, ?_, ?_⟩
  · simp [filesFindByFd, Kernel.setFile, Kernel.setFiles]
  · rw [Kernel.setFile_self, show file = _ from hframe]
    rfl

/-- The opened file is the one that the first `MAX_FILENAME_LEN - 1` bytes of
the full path name. -/
theorem vfsOpen_canonical {k k' : Kernel} {t : Slot} {pathname : List UInt8} {flags mode fd : Int}
    (hcwd : canonicalPath (k.sched.task t).cwd.bytes = (k.sched.task t).cwd.bytes)
    (hfits : (canonicalPath ((fullPath (k.sched.task t).cwd.bytes pathname).take
      (maxFilenameLen - 1))).length ≤ maxFilenameLen - 2)
    (hopen : vfsOpen k t pathname flags mode = some (k', fd)) (hfd : 0 ≤ fd) :
    ∃ i, filesFindByFd (k'.files t) fd = some i ∧
      (k'.vfs.files i).pathname.bytes =
        canonicalPath ((fullPath (k.sched.task t).cwd.bytes pathname).take
          (maxFilenameLen - 1)) := by
  obtain ⟨i, hfind, hpath⟩ := vfsOpen_resolved hopen hfd
  exact ⟨i, hfind, by rw [hpath, resolvedPath_bytes hcwd hfits]⟩

theorem vfsOpen_canonical_sh :
    ∃ k' i, vfsOpen shellKernel 0 (cstr "bin/.//../bin/sh") 0 0 = some (k', 0) ∧
      filesFindByFd (k'.files 0) 0 = some i ∧
      (k'.vfs.files i).pathname.bytes = cstr "/bin/sh" := by
  have hrun : (vfsOpen shellKernel 0 (cstr "bin/.//../bin/sh") 0 0).map Prod.snd = some 0 := by
    decide +kernel
  obtain ⟨⟨k', fd⟩, hopen, hfd⟩ := Option.map_eq_some_iff.mp hrun
  obtain rfl : fd = 0 := hfd
  obtain ⟨i, hfind, hpath⟩ := vfsOpen_canonical (by decide +kernel) (by decide +kernel) hopen le_rfl
  refine ⟨k', i, hopen, hfind, hpath.trans ?_⟩
  decide +kernel

/-- `/bin/sh` behind so many slashes that the name of the program no longer fits. -/
def longPath : List UInt8 := List.replicate 58 slash ++ cstr "/bin/sh"

/-- The open succeeds on the directory in front of the cut. -/
theorem vfsOpen_truncated :
    ∃ k' i, vfsOpen shellKernel 0 longPath 0 0 = some (k', 0) ∧
      filesFindByFd (k'.files 0) 0 = some i ∧
      (k'.vfs.files i).pathname.bytes = cstr "/bin" ∧
      canonicalPath (shellKernel.sched.task 0).cwd.bytes = (shellKernel.sched.task 0).cwd.bytes ∧
      canonicalPath (fullPath (shellKernel.sched.task 0).cwd.bytes longPath) = cstr "/bin/sh" := by
  have hrun : (vfsOpen shellKernel 0 longPath 0 0).map (fun r =>
      (r.2, (filesFindByFd (r.1.files 0) 0).map fun i => (r.1.vfs.files i).pathname.bytes)) =
        some (0, some (cstr "/bin")) := by
    decide +kernel
  obtain ⟨⟨k', fd⟩, hopen, hres⟩ := Option.map_eq_some_iff.mp hrun
  obtain ⟨rfl, hname⟩ := Prod.mk.inj hres
  obtain ⟨i, hfind, hpath⟩ := Option.map_eq_some_iff.mp hname
  exact ⟨k', i, hopen, hfind, hpath, by decide +kernel, by decide +kernel⟩

end Punix
