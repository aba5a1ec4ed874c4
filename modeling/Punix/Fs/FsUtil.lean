import Punix.Kernel.State

/-!
Directory entries and the results of reads. A function that fills a buffer of
its caller returns the bytes it stores, in order, as pairs of an offset from
the start of the buffer and a byte; whether they stay inside the buffer is a
question about these offsets. Directory listings are appended to one entry at a
time, so that they are given as lists of entries, the entry at position `i`
being stored at `&buf[i]`.
-/

namespace Punix

/-- Stores relative to the start of a buffer. -/
abbrev Writes := List (Nat × UInt8)

/-- `k_memcpy(buf + off, src, n)` into the buffer of a caller. -/
def kMemcpyOut (off : Nat) (src : List UInt8) (n : Nat) : Writes :=
  (List.range n).map fun i => (off + i, src.getD i 0)

def dtReg : UInt8 := 1
def dtDir : UInt8 := 2
def dtChr : UInt8 := 3
def dtLnk : UInt8 := 7

/-- `sizeof(struct dirent)`: 71 bytes of fields, aligned to 4. -/
def sizeofDirent : Nat := 72

/-- `struct dirent`; `d_reclen` is always `sizeof(struct dirent)`. -/
structure Dirent where
  dIno : BitVec 32
  dType : UInt8
  dName : CharArray maxFilenameLen
deriving DecidableEq

/-- `d_name` as every filler stores it: the name, cut to fit the array. -/
def direntName (name : List UInt8) : CharArray maxFilenameLen :=
  CharArray.ofBytes maxFilenameLen name

def littleEndian (n : Nat) (v : Nat) : List UInt8 :=
  (List.range n).map fun i => UInt8.ofNat (v >>> (8 * i))

/-- The bytes that filling in an entry stores, from its start on. The array of
the name is written up to its NUL only. -/
def Dirent.bytes (d : Dirent) : List UInt8 :=
  littleEndian 4 d.dIno.toNat ++ littleEndian 2 sizeofDirent ++ [d.dType] ++ d.dName.bytes ++ [0]

/-- The stores of a listing whose entries go to `&buf[0]`, `&buf[1]`, ... -/
def direntWrites (entries : List Dirent) : Writes :=
  entries.zipIdx.flatMap fun (d, i) =>
    kMemcpyOut (i * sizeofDirent) d.bytes d.bytes.length

/-- `fs_add_entry`, for the entries already stored. -/
def fsAddEntry (maxEntries : Nat) (ino : Nat) (dType : UInt8) (name : List UInt8)
    (entries : List Dirent) : List Dirent :=
  if entries.length ≥ maxEntries then entries
  else entries ++ [{ dIno := BitVec.ofNat 32 ino, dType, dName := direntName name }]

/-- What a `getdents` function returns, stores and leaves in the open file. -/
structure GetdentsResult where
  ret : Int
  entries : List Dirent
  file : File

/-- The tail of every `getdents` function that has filled in entries. -/
def getdentsDone (file : File) (entries : List Dirent) : GetdentsResult :=
  let size := asInt (entries.length * sizeofDirent)
  { ret := size, entries, file := { file with pos := file.pos + BitVec.ofInt 64 size } }

/-- The head of every `getdents` function: without room for one entry, and on
any call after the first, the listing is empty. `fill` is the rest, for the
number of entries that fit. -/
def getdentsOnce (file : File) (hasBuf : Bool) (count : BitVec 32)
    (fill : Nat → GetdentsResult) : GetdentsResult :=
  if ¬ hasBuf ∨ count.toNat < sizeofDirent then { ret := 0, entries := [], file }
  else if file.pos > 0 then { ret := 0, entries := [], file }
  else fill (count.toNat / sizeofDirent)

/-- What a `read` function returns, stores and leaves in the open file. -/
structure ReadResult where
  ret : Int
  writes : Writes
  file : File

/-- The common tail of the `read` functions. -/
def readDone (file : File) (len : Nat) (writes : Writes) : ReadResult :=
  { ret := asInt len, writes, file := { file with pos := file.pos + BitVec.ofNat 64 len } }

@[simp] theorem length_littleEndian (n v : Nat) : (littleEndian n v).length = n := by
  simp [littleEndian]

theorem Dirent.length_bytes (d : Dirent) : d.bytes.length = 8 + d.dName.bytes.length := by
  simp [Dirent.bytes]
  omega

/-- An entry is stored inside its own `struct dirent`. -/
theorem Dirent.length_bytes_le (d : Dirent) : d.bytes.length ≤ sizeofDirent := by
  have hfits : d.dName.bytes.length < 64 := d.dName.fits
  rw [d.length_bytes, sizeofDirent]
  omega

theorem mem_kMemcpyOut {off n o : Nat} {src : List UInt8} {b : UInt8}
    (h : (o, b) ∈ kMemcpyOut off src n) : off ≤ o ∧ o < off + n := by
  simp only [kMemcpyOut, List.mem_map, List.mem_range, Prod.mk.injEq] at h
  obtain ⟨i, hi, rfl, _⟩ := h
  omega

/-- The offsets a copy stores to are exactly those of its destination range. -/
theorem offsets_kMemcpyOut (off : Nat) (src : List UInt8) (n o : Nat) :
    o ∈ (kMemcpyOut off src n).map Prod.fst ↔ off ≤ o ∧ o < off + n := by
  simp only [kMemcpyOut, List.map_map, List.mem_map, List.mem_range, Function.comp_apply]
  constructor
  · rintro ⟨i, hi, rfl⟩
    omega
  · rintro ⟨h1, h2⟩
    exact ⟨o - off, by omega, by omega⟩

/-- A listing stores only inside the entries it lists. -/
theorem direntWrites_lt {entries : List Dirent} {o : Nat} {b : UInt8}
    (h : (o, b) ∈ direntWrites entries) : o < entries.length * sizeofDirent := by
  simp only [direntWrites, List.mem_flatMap, Prod.exists] at h
  obtain ⟨d, i, hmem, hw⟩ := h
  have hi : i < entries.length := by
    obtain ⟨_, hlt, _⟩ := List.mem_zipIdx hmem
    simpa using hlt
  have hlt := (mem_kMemcpyOut hw).2
  have hle := d.length_bytes_le
  calc o < i * sizeofDirent + d.bytes.length := hlt
    _ ≤ (i + 1) * sizeofDirent := by rw [Nat.add_mul, Nat.one_mul]; omega
    _ ≤ entries.length * sizeofDirent := Nat.mul_le_mul_right _ hi

end Punix
