import Punix.Kernel.Exec

/-!
`elf_load` on an image that lies in the memory it loads to. Each field of a header is read
where the source reads it, from the memory as it is then, so that a segment that covers the
image has its effect on the rest of the loop. As long as no segment covers the headers, they
are those that were there before.
-/

namespace Punix

open Lib

def elfHeaderAt (m : Mem) (image : BitVec 32) : Elf32Ehdr where
  eType := (m.word (image + 16)).setWidth 16
  eEntry := m.word (image + 24)
  ePhoff := m.word (image + 28)
  ePhnum := (m.word (image + 44)).setWidth 16

def programHeaderAt (m : Mem) (phdr : BitVec 32) : Elf32Phdr where
  pType := m.word phdr
  pOffset := m.word (phdr + 4)
  pVaddr := m.word (phdr + 8)
  pFilesz := m.word (phdr + 16)
  pMemsz := m.word (phdr + 20)

def isElfAt (m : Mem) (image : BitVec 32) : Bool :=
  m image = 0x7F ∨ m (image + 1) = 69 ∨ m (image + 2) = 76 ∨ m (image + 3) = 70

/-- What the loop carries, and the ranges it has written to so far. -/
structure ElfRun where
  mem : Mem
  written : List (BitVec 32 × Nat)
  maxEnd : BitVec 32
  size : BitVec 32

namespace ElfRun

def copy (run : ElfRun) (dst src : BitVec 32) (n : Nat) : ElfRun :=
  { run with mem := run.mem.copy dst src n, written := run.written ++ [(dst, n)] }

def zero (run : ElfRun) (dst : BitVec 32) (n : Nat) : ElfRun :=
  { run with mem := run.mem.fill dst (fun _ => 0) n, written := run.written ++ [(dst, n)] }

/-- The bounds behind a segment. -/
def bounds (run : ElfRun) (phdr : Elf32Phdr) : ElfRun :=
  let fin := phdr.pVaddr + phdr.pMemsz
  { run with
    maxEnd := if fin > run.maxEnd then fin else run.maxEnd
    size := run.size + phdr.pFilesz }

end ElfRun

/-- The body of the loop. The header is read again behind every write. -/
def elfLoadBody (image phdr : BitVec 32) (run : ElfRun) : ElfRun :=
  let header := programHeaderAt run.mem phdr
  if header.pType ≠ ptLoad then run
  else
    let destVa := header.pVaddr
    let run := run.copy destVa (image + header.pOffset) header.pFilesz.toNat
    let header := programHeaderAt run.mem phdr
    let run :=
      if header.pMemsz > header.pFilesz then
        run.zero (destVa + header.pFilesz) (header.pMemsz - header.pFilesz).toNat
      else run
    run.bounds (programHeaderAt run.mem phdr)

/-- `e_phnum` has 16 bits, so that no more rounds are needed. -/
def elfLoadLoop (image : BitVec 32) : Nat → Nat → BitVec 32 → ElfRun → ElfRun
  | 0, _, _, run => run
  | fuel + 1, i, phdr, run =>
      if i < (elfHeaderAt run.mem image).ePhnum.toNat then
        elfLoadLoop image fuel (i + 1) (phdr + 32) (elfLoadBody image phdr run)
      else run

def elfLoadAt (m : Mem) (image : BitVec 32) : ElfRun × Option ElfInfo :=
  let start : ElfRun := { mem := m, written := [], maxEnd := 0, size := 0 }
  if ¬ isElfAt m image then (start, none)
  else if (elfHeaderAt m image).eType ≠ etExec then (start, none)
  else
    let phdr := image + (elfHeaderAt m image).ePhoff
    let run := elfLoadLoop image (2 ^ 16) 0 phdr start
    (run, some
      { entryVa := (elfHeaderAt run.mem image).eEntry
        baseVa := 0
        maxOffset := run.maxEnd
        size := run.size
        environOff := 0
        curbrkOff := 0 })

/-- The address of the `i`-th program header. -/
def phdrAddress (m : Mem) (image : BitVec 32) (i : Nat) : BitVec 32 :=
  image + (elfHeaderAt m image).ePhoff + BitVec.ofNat 32 (32 * i)

/-- The program headers before anything is loaded. -/
def programHeadersAt (m : Mem) (image : BitVec 32) : List Elf32Phdr :=
  (List.range (elfHeaderAt m image).ePhnum.toNat).map fun i =>
    programHeaderAt m (phdrAddress m image i)

/-- The bytes of the ELF header and of the program headers. -/
def HeaderByte (m : Mem) (image x : BitVec 32) : Prop :=
  (x - image).toNat < 52 ∨
    ∃ i < (elfHeaderAt m image).ePhnum.toNat, (x - phdrAddress m image i).toNat < 32

/-- The number of bytes in memory. -/
def Elf32Phdr.extent (phdr : Elf32Phdr) : Nat := max phdr.pFilesz.toNat phdr.pMemsz.toNat

/-- The segment is loaded to this address. -/
def Elf32Phdr.Covers (phdr : Elf32Phdr) (x : BitVec 32) : Prop :=
  phdr.pType = ptLoad ∧ (x - phdr.pVaddr).toNat < phdr.extent

/-- The body of the loop for a header that it does not write to. -/
def loadHeader (image : BitVec 32) (run : ElfRun) (phdr : Elf32Phdr) : ElfRun :=
  if phdr.pType ≠ ptLoad then run
  else
    let run := run.copy phdr.pVaddr (image + phdr.pOffset) phdr.pFilesz.toNat
    let run :=
      if phdr.pMemsz > phdr.pFilesz then
        run.zero (phdr.pVaddr + phdr.pFilesz) (phdr.pMemsz - phdr.pFilesz).toNat
      else run
    run.bounds phdr

section Headers

variable {m m' : Mem} {image phdr x : BitVec 32} {run : ElfRun}

theorem word_field_congr {n off : Nat} (hoff : off + 4 ≤ n) (hn : n < 2 ^ 32)
    (h : ∀ x, (x - phdr).toNat < n → m' x = m x) :
    Memory.word m' (phdr + BitVec.ofNat 32 off) = Memory.word m (phdr + BitVec.ofNat 32 off) := by
  apply Memory.word_congr
  intro i hi
  apply h
  rw [Memory.add_ofNat_add, Memory.toNat_add_ofNat_sub (by omega)]
  omega

theorem programHeaderAt_congr (h : ∀ x, (x - phdr).toNat < 32 → m' x = m x) :
    programHeaderAt m' phdr = programHeaderAt m phdr := by
  have hfield (off : Nat) (hoff : off + 4 ≤ 32) := word_field_congr hoff (by decide) h
  have htype := hfield 0 (by decide)
  rw [BitVec.add_zero] at htype
  unfold programHeaderAt
  rw [htype]
  congr 1
  · exact hfield 4 (by decide)
  · exact hfield 8 (by decide)
  · exact hfield 16 (by decide)
  · exact hfield 20 (by decide)

theorem elfHeaderAt_congr (h : ∀ x, (x - image).toNat < 52 → m' x = m x) :
    elfHeaderAt m' image = elfHeaderAt m image := by
  have hfield (off : Nat) (hoff : off + 4 ≤ 52) := word_field_congr hoff (by decide) h
  unfold elfHeaderAt
  congr 1
  · exact congrArg (BitVec.setWidth 16) (hfield 16 (by decide))
  · exact hfield 24 (by decide)
  · exact hfield 28 (by decide)
  · exact congrArg (BitVec.setWidth 16) (hfield 44 (by decide))

/-- The zeros lie behind the bytes of the file. -/
theorem mem_zero_outside {header : Elf32Phdr} {destVa : BitVec 32} (hdest : destVa = header.pVaddr)
    (hlarger : header.pMemsz > header.pFilesz) (hx : header.extent ≤ (x - header.pVaddr).toNat) :
    (run.zero (destVa + header.pFilesz) (header.pMemsz - header.pFilesz).toNat).mem x =
      run.mem x := by
  have hfile : header.pFilesz.toNat < header.pMemsz.toNat := hlarger
  have hbelow : header.pMemsz.toNat ≤ (x - header.pVaddr).toNat := (le_max_right _ _).trans hx
  have hsub : (header.pMemsz - header.pFilesz).toNat =
      header.pMemsz.toNat - header.pFilesz.toNat := by bv_omega
  have hdist := Memory.toNat_sub_add (a := header.pVaddr) (x := x) (i := header.pFilesz.toNat)
    (by omega)
  rw [BitVec.ofNat_toNat, BitVec.setWidth_eq] at hdist
  apply Memory.fill_outside
  rw [hdest, hdist, hsub]
  omega

/-- Only the segment is written to. -/
theorem loadHeader_outside {header : Elf32Phdr} (hx : ¬ header.Covers x) :
    (loadHeader image run header).mem x = run.mem x := by
  unfold loadHeader
  split
  · rfl
  · next hload =>
      have hextent : header.extent ≤ (x - header.pVaddr).toNat := by
        by_contra hlt
        exact hx ⟨not_not.mp hload, Nat.not_le.mp hlt⟩
      have hfile : header.pFilesz.toNat ≤ (x - header.pVaddr).toNat :=
        (le_max_left _ _).trans hextent
      have hcopy := Memory.copy_outside run.mem (image + header.pOffset) hfile
      split
      · next hlarger => exact (mem_zero_outside rfl hlarger hextent).trans hcopy
      · exact hcopy

/-- A header outside of its segment is the same throughout the body. -/
theorem elfLoadBody_eq
    (h : ∀ x, (x - phdr).toNat < 32 → ¬ (programHeaderAt run.mem phdr).Covers x) :
    elfLoadBody image phdr run = loadHeader image run (programHeaderAt run.mem phdr) := by
  generalize hheader : programHeaderAt run.mem phdr = header at h
  unfold elfLoadBody loadHeader
  dsimp only
  rw [hheader]
  split
  · rfl
  · next hload =>
      have hextent (x : BitVec 32) (hx : (x - phdr).toNat < 32) :
          header.extent ≤ (x - header.pVaddr).toNat := by
        by_contra hlt
        exact h x hx ⟨not_not.mp hload, Nat.not_le.mp hlt⟩
      have hcopy (x : BitVec 32) (hx : (x - phdr).toNat < 32) :
          (run.copy header.pVaddr (image + header.pOffset) header.pFilesz.toNat).mem x =
            run.mem x :=
        Memory.copy_outside run.mem _ ((le_max_left _ _).trans (hextent x hx))
      have hread := programHeaderAt_congr hcopy
      rw [hread, hheader]
      congr 1
      split
      · next hlarger =>
          rw [← hheader]
          apply programHeaderAt_congr
          intro x hx
          rw [hheader, mem_zero_outside rfl hlarger (hextent x hx)]
          exact hcopy x hx
      · rw [hread, hheader]

/-- The bytes of the headers are those of `m`. -/
def SameHeaders (m : Mem) (image : BitVec 32) (run : ElfRun) : Prop :=
  ∀ x, HeaderByte m image x → run.mem x = m x

/-- The segment does not cover a header. -/
def SparesHeaders (m : Mem) (image : BitVec 32) (phdr : Elf32Phdr) : Prop :=
  ∀ x, HeaderByte m image x → ¬ phdr.Covers x

theorem SameHeaders.elfHeader (h : SameHeaders m image run) :
    elfHeaderAt run.mem image = elfHeaderAt m image :=
  elfHeaderAt_congr fun x hx => h x (.inl hx)

theorem SameHeaders.programHeader (h : SameHeaders m image run) {i : Nat}
    (hi : i < (elfHeaderAt m image).ePhnum.toNat) :
    programHeaderAt run.mem (phdrAddress m image i) = programHeaderAt m (phdrAddress m image i) :=
  programHeaderAt_congr fun x hx => h x (.inr ⟨i, hi, hx⟩)

theorem SameHeaders.loadHeader (h : SameHeaders m image run) {header : Elf32Phdr}
    (hspares : SparesHeaders m image header) : SameHeaders m image (loadHeader image run header) := by
  intro x hx
  rw [loadHeader_outside (hspares x hx)]
  exact h x hx

theorem phdrAddress_succ (m : Mem) (image : BitVec 32) (i : Nat) :
    phdrAddress m image i + 32 = phdrAddress m image (i + 1) := by
  unfold phdrAddress
  rw [BitVec.add_assoc, Nat.mul_succ, BitVec.ofNat_add]
  rfl

/-- One round. -/
theorem elfLoadLoop_succ (h : SameHeaders m image run) {i : Nat}
    (hi : i < (elfHeaderAt m image).ePhnum.toNat) (fuel : Nat) :
    elfLoadLoop image (fuel + 1) i (phdrAddress m image i) run =
      elfLoadLoop image fuel (i + 1) (phdrAddress m image (i + 1))
        (elfLoadBody image (phdrAddress m image i) run) := by
  rw [elfLoadLoop, h.elfHeader, if_pos hi, phdrAddress_succ]

theorem take_succ_programHeadersAt {k : Nat} (hk : k < (elfHeaderAt m image).ePhnum.toNat) :
    (programHeadersAt m image).take (k + 1) =
      (programHeadersAt m image).take k ++ [programHeaderAt m (phdrAddress m image k)] := by
  rw [programHeadersAt, List.take_add_one, ← List.map_take, List.getElem?_map,
    List.getElem?_range hk]
  rfl

/-- The first rounds, as long as they spare the headers. -/
theorem elfLoadLoop_take (h : SameHeaders m image run) {k : Nat}
    (hk : k ≤ (elfHeaderAt m image).ePhnum.toNat)
    (hspares : ∀ header ∈ (programHeadersAt m image).take k, SparesHeaders m image header)
    (fuel : Nat) :
    let run' := ((programHeadersAt m image).take k).foldl (loadHeader image) run
    SameHeaders m image run' ∧
      elfLoadLoop image (fuel + k) 0 (phdrAddress m image 0) run =
        elfLoadLoop image fuel k (phdrAddress m image k) run' := by
  dsimp only
  induction k generalizing fuel with
  | zero => exact ⟨h, rfl⟩
  | succ k ih =>
      have hlt : k < (elfHeaderAt m image).ePhnum.toNat := hk
      rw [take_succ_programHeadersAt hlt] at hspares ⊢
      obtain ⟨hsame, hloop⟩ := ih (by omega)
        (fun header hmem => hspares header (List.mem_append_left _ hmem)) (fuel + 1)
      have hlast := hspares _ (List.mem_append_right _ (List.mem_singleton_self _))
      rw [List.foldl_append]
      constructor
      · exact hsame.loadHeader hlast
      · rw [Nat.add_succ, ← Nat.succ_add]
        refine hloop.trans ?_
        rw [elfLoadLoop_succ hsame hlt, elfLoadBody_eq, hsame.programHeader hlt]
        · rfl
        · intro x hx
          rw [hsame.programHeader hlt]
          exact hlast x (.inr ⟨k, hlt, hx⟩)

theorem elfLoadLoop_done (h : SameHeaders m image run) {i : Nat}
    (hi : (elfHeaderAt m image).ePhnum.toNat ≤ i) (fuel : Nat) :
    elfLoadLoop image fuel i phdr run = run := by
  cases fuel with
  | zero => rfl
  | succ fuel => rw [elfLoadLoop, h.elfHeader, if_neg (Nat.not_lt.mpr hi)]

theorem length_programHeadersAt (m : Mem) (image : BitVec 32) :
    (programHeadersAt m image).length = (elfHeaderAt m image).ePhnum.toNat := by
  rw [programHeadersAt, List.length_map, List.length_range]

/-- If all segments spare the headers, the loop loads the headers that were there before. -/
theorem elfLoadLoop_eq (h : SameHeaders m image run)
    (hspares : ∀ header ∈ programHeadersAt m image, SparesHeaders m image header) :
    elfLoadLoop image (2 ^ 16) 0 (phdrAddress m image 0) run =
      (programHeadersAt m image).foldl (loadHeader image) run := by
  have hcount := (elfHeaderAt m image).ePhnum.isLt
  have hall : (programHeadersAt m image).take (elfHeaderAt m image).ePhnum.toNat =
      programHeadersAt m image := by
    rw [← length_programHeadersAt, List.take_length]
  obtain ⟨hsame, hloop⟩ := elfLoadLoop_take h le_rfl (by rw [hall]; exact hspares)
    (2 ^ 16 - (elfHeaderAt m image).ePhnum.toNat)
  rw [hall, Nat.sub_add_cancel hcount.le] at hloop
  rw [hall] at hsame
  rw [hloop, elfLoadLoop_done hsame le_rfl]

end Headers

end Punix
