import Punix.Kernel.ElfLoader

/-!
What `elf_load` accepts and where it writes. One byte of the magic number is enough for it,
and the addresses of the segments are not checked: an image is loaded as it should be if and
only if it has all of the magic number and each of its segments lies in the window of a
process.
-/

namespace Punix

open Lib

/-- An address of the window of a process. -/
def InWindow (x : BitVec 32) : Prop :=
  processVaBase ≤ x.toNat ∧ x.toNat < processVaBase + processVaSize

/-- All bytes of a range lie in the window. -/
def RangeInWindow (range : BitVec 32 × Nat) : Prop :=
  ∀ i < range.2, InWindow (range.1 + BitVec.ofNat 32 i)

def HasMagic (m : Mem) (image : BitVec 32) : Prop :=
  m image = 0x7F ∧ m (image + 1) = 69 ∧ m (image + 2) = 76 ∧ m (image + 3) = 70

/-- Programs are loaded into the window, and whatever else is refused without a write. -/
structure LoadsInWindow (m : Mem) (image : BitVec 32) : Prop where
  accepted : (elfLoadAt m image).2.isSome →
    HasMagic m image ∧ (elfHeaderAt m image).eType = etExec ∧
      ∀ range ∈ (elfLoadAt m image).1.written, RangeInWindow range
  refused : (elfLoadAt m image).2 = none →
    (elfLoadAt m image).1.written = [] ∧ (elfLoadAt m image).1.mem = m

/-- The segment, if it is loaded and has a byte, lies in the window. -/
def Elf32Phdr.Fits (phdr : Elf32Phdr) : Prop :=
  phdr.pType = ptLoad → phdr.extent = 0 ∨
    (phdr.pVaddr - BitVec.ofNat 32 processVaBase).toNat + phdr.extent ≤ processVaSize

/-- A range in two parts. -/
theorem rangeInWindow_add (a : BitVec 32) (n k : Nat) :
    RangeInWindow (a, n + k) ↔
      RangeInWindow (a, n) ∧ RangeInWindow (a + BitVec.ofNat 32 n, k) := by
  constructor
  · intro h
    constructor
    · intro i hi
      exact h i (Nat.lt_add_right k hi)
    · intro i hi
      have hpart := h (n + i) (Nat.add_lt_add_left hi n)
      rwa [BitVec.ofNat_add, ← BitVec.add_assoc] at hpart
  · rintro ⟨hfirst, hsecond⟩ i hi
    rcases Nat.lt_or_ge i n with hlt | hge
    · exact hfirst i hlt
    · have hpart := hsecond (i - n) (Nat.sub_lt_left_of_lt_add hge hi)
      rwa [BitVec.add_assoc, ← BitVec.ofNat_add, Nat.add_sub_cancel' hge] at hpart

/-- The window does not wrap around, so the distance from its begin decides. -/
theorem rangeInWindow_iff (a : BitVec 32) {n : Nat} (hn : n < 2 ^ 32) :
    RangeInWindow (a, n) ↔
      n = 0 ∨ (a - BitVec.ofNat 32 processVaBase).toNat + n ≤ processVaSize := by
  have hbase : processVaBase = 4194304 := by decide
  have hsize : processVaSize = 1048576 := by decide
  unfold RangeInWindow InWindow
  rw [hbase, hsize]
  dsimp only
  constructor
  · intro h
    by_contra hnot
    obtain ⟨hpos, hlong⟩ := not_or.mp hnot
    have hfirst := h 0 (Nat.pos_of_ne_zero hpos)
    have hlast := h (1048576 - (a - BitVec.ofNat 32 4194304).toNat) (by bv_omega)
    bv_omega
  · rintro (rfl | hfit) i hi
    · exact absurd hi (Nat.not_lt_zero i)
    · bv_omega

/-- The ranges that are written for a header. -/
def Elf32Phdr.ranges (phdr : Elf32Phdr) : List (BitVec 32 × Nat) :=
  if phdr.pType ≠ ptLoad then []
  else
    (phdr.pVaddr, phdr.pFilesz.toNat) ::
      if phdr.pMemsz > phdr.pFilesz then
        [(phdr.pVaddr + phdr.pFilesz, (phdr.pMemsz - phdr.pFilesz).toNat)]
      else []

theorem Elf32Phdr.extent_lt (phdr : Elf32Phdr) : phdr.extent < 2 ^ 32 :=
  max_lt phdr.pFilesz.isLt phdr.pMemsz.isLt

/-- The ranges together are the segment. -/
theorem rangeInWindow_extent (phdr : Elf32Phdr) :
    RangeInWindow (phdr.pVaddr, phdr.extent) ↔
      RangeInWindow (phdr.pVaddr, phdr.pFilesz.toNat) ∧
        (phdr.pMemsz > phdr.pFilesz → RangeInWindow
          (phdr.pVaddr + phdr.pFilesz, (phdr.pMemsz - phdr.pFilesz).toNat)) := by
  rcases Nat.lt_or_ge phdr.pFilesz.toNat phdr.pMemsz.toNat with hlt | hge
  · have hlarger : phdr.pMemsz > phdr.pFilesz := hlt
    have hextent : phdr.extent = phdr.pFilesz.toNat + (phdr.pMemsz - phdr.pFilesz).toNat := by
      rw [Elf32Phdr.extent, max_eq_right hlt.le]
      bv_omega
    rw [hextent, rangeInWindow_add, BitVec.ofNat_toNat, BitVec.setWidth_eq]
    apply and_congr_right'
    exact (imp_iff_right hlarger).symm
  · have hnot : ¬ phdr.pMemsz > phdr.pFilesz := Nat.not_lt.mpr hge
    rw [Elf32Phdr.extent, max_eq_left hge]
    exact (and_iff_left (fun hlarger => absurd hlarger hnot)).symm

theorem ranges_inWindow_iff (phdr : Elf32Phdr) :
    (∀ range ∈ phdr.ranges, RangeInWindow range) ↔ phdr.Fits := by
  unfold Elf32Phdr.ranges Elf32Phdr.Fits
  split
  · next hskip =>
      constructor
      · exact fun _ hload => absurd hload hskip
      · exact fun _ range hmem => absurd hmem List.not_mem_nil
  · next hload =>
      rw [imp_iff_right (not_not.mp hload), ← rangeInWindow_iff _ phdr.extent_lt,
        rangeInWindow_extent, List.forall_mem_cons]
      apply and_congr_right'
      split
      · next hlarger => rw [List.forall_mem_singleton, imp_iff_right hlarger]
      · next hnot =>
          constructor
          · exact fun _ hlarger => absurd hlarger hnot
          · exact fun _ range hmem => absurd hmem List.not_mem_nil

section Written

variable {m : Mem} {image phdr : BitVec 32} {run : ElfRun}

theorem written_loadHeader (header : Elf32Phdr) :
    (loadHeader image run header).written = run.written ++ header.ranges := by
  unfold loadHeader Elf32Phdr.ranges
  split
  · exact (List.append_nil _).symm
  · split
    · exact List.append_assoc _ _ _
    · rfl

theorem written_loadHeaders (headers : List Elf32Phdr) :
    (headers.foldl (loadHeader image) run).written =
      run.written ++ headers.flatMap Elf32Phdr.ranges := by
  induction headers generalizing run with
  | nil => exact (List.append_nil _).symm
  | cons header headers ih =>
      rw [List.foldl_cons, ih, written_loadHeader, List.append_assoc]
      rfl

/-- The bytes of the file are written first, whatever the header is behind them. -/
theorem mem_written_elfLoadBody (hload : (programHeaderAt run.mem phdr).pType = ptLoad) :
    ((programHeaderAt run.mem phdr).pVaddr, (programHeaderAt run.mem phdr).pFilesz.toNat) ∈
      (elfLoadBody image phdr run).written := by
  unfold elfLoadBody
  dsimp only
  rw [if_neg (not_not.mpr hload)]
  unfold ElfRun.bounds ElfRun.zero ElfRun.copy
  dsimp only
  split
  · apply List.mem_append_left
    exact List.mem_append_right _ (List.mem_singleton_self _)
  · exact List.mem_append_right _ (List.mem_singleton_self _)

/-- If these bytes spare the header, the zeros are those that it asks for. -/
theorem written_elfLoadBody (image : BitVec 32)
    (hload : (programHeaderAt run.mem phdr).pType = ptLoad)
    (h : ∀ x, (x - phdr).toNat < 32 → (programHeaderAt run.mem phdr).pFilesz.toNat ≤
      (x - (programHeaderAt run.mem phdr).pVaddr).toNat) :
    (elfLoadBody image phdr run).written =
      run.written ++ (programHeaderAt run.mem phdr).ranges := by
  generalize hheader : programHeaderAt run.mem phdr = header at hload h
  have hread : programHeaderAt
      (run.copy header.pVaddr (image + header.pOffset) header.pFilesz.toNat).mem phdr =
        programHeaderAt run.mem phdr :=
    programHeaderAt_congr fun x hx => Memory.copy_outside run.mem _ (h x hx)
  unfold elfLoadBody Elf32Phdr.ranges
  dsimp only
  rw [hheader, if_neg (not_not.mpr hload), if_neg (not_not.mpr hload), hread, hheader]
  split
  · exact List.append_assoc _ _ _
  · rfl

/-- Nothing that has been written is forgotten. -/
theorem subset_written_elfLoadBody (image phdr : BitVec 32) (run : ElfRun) :
    run.written ⊆ (elfLoadBody image phdr run).written := by
  unfold elfLoadBody ElfRun.bounds ElfRun.zero ElfRun.copy
  dsimp only
  split
  · exact List.Subset.refl _
  · split
    · exact List.Subset.trans (List.subset_append_left _ _) (List.subset_append_left _ _)
    · exact List.subset_append_left _ _

theorem subset_written_elfLoadLoop (image : BitVec 32) (fuel i : Nat) (phdr : BitVec 32)
    (run : ElfRun) : run.written ⊆ (elfLoadLoop image fuel i phdr run).written := by
  induction fuel generalizing i phdr run with
  | zero => exact List.Subset.refl _
  | succ fuel ih =>
      rw [elfLoadLoop]
      split
      · exact List.Subset.trans (subset_written_elfLoadBody image phdr run) (ih _ _ _)
      · exact List.Subset.refl _

/-- The ranges tell all that is written. -/
theorem mem_elfLoadBody {x : BitVec 32}
    (h : ∀ range ∈ (elfLoadBody image phdr run).written, range.2 ≤ (x - range.1).toNat) :
    (elfLoadBody image phdr run).mem x = run.mem x := by
  unfold elfLoadBody ElfRun.bounds ElfRun.zero ElfRun.copy at h ⊢
  dsimp only at h ⊢
  split at h
  · next hskip => rw [if_pos hskip]
  · next hload =>
      rw [if_neg hload]
      split at h
      · next hlarger =>
          rw [if_pos hlarger]
          refine (Memory.fill_outside _ _ ?_).trans (Memory.copy_outside _ _ ?_)
          · exact h _ (List.mem_append_right _ (List.mem_singleton_self _))
          · exact h _ (List.mem_append_left _
              (List.mem_append_right _ (List.mem_singleton_self _)))
      · next hlarger =>
          rw [if_neg hlarger]
          exact Memory.copy_outside _ _
            (h _ (List.mem_append_right _ (List.mem_singleton_self _)))

theorem mem_elfLoadLoop {x : BitVec 32} (fuel i : Nat)
    (h : ∀ range ∈ (elfLoadLoop image fuel i phdr run).written, range.2 ≤ (x - range.1).toNat) :
    (elfLoadLoop image fuel i phdr run).mem x = run.mem x := by
  induction fuel generalizing i phdr run with
  | zero => rfl
  | succ fuel ih =>
      rw [elfLoadLoop] at h ⊢
      split at h
      · next hlt =>
          rw [if_pos hlt, ih _ h]
          exact mem_elfLoadBody fun range hmem => h range (subset_written_elfLoadLoop _ _ _ _ _ hmem)
      · next hge => rw [if_neg hge]

/-- A segment in the window spares headers that are not. -/
theorem Elf32Phdr.Fits.spares {header : Elf32Phdr} (hfits : header.Fits)
    (hkernel : ∀ x, HeaderByte m image x → ¬ InWindow x) : SparesHeaders m image header := by
  rintro x hx ⟨hload, hlt⟩
  have hrange := (rangeInWindow_iff header.pVaddr header.extent_lt).mpr (hfits hload)
  have hinside := hrange _ hlt
  rw [← Memory.eq_add_ofNat (rfl : (x - header.pVaddr).toNat = _)] at hinside
  exact hkernel x hx hinside

/-- If the body writes to the window only, the segment fits. -/
theorem fits_of_body (hkernel : ∀ x, HeaderByte m image x → ¬ InWindow x)
    (h : SameHeaders m image run) {i : Nat} (hi : i < (elfHeaderAt m image).ePhnum.toNat)
    (hbody : ∀ range ∈ (elfLoadBody image (phdrAddress m image i) run).written,
      RangeInWindow range) :
    (programHeaderAt m (phdrAddress m image i)).Fits := by
  intro hload
  have hread := h.programHeader hi
  generalize programHeaderAt m (phdrAddress m image i) = header at hload hread ⊢
  have hload' : (programHeaderAt run.mem (phdrAddress m image i)).pType = ptLoad := by
    rw [hread]
    exact hload
  have hfile := hbody _ (mem_written_elfLoadBody hload')
  rw [hread] at hfile
  have hspares (x : BitVec 32) (hx : (x - phdrAddress m image i).toNat < 32) :
      header.pFilesz.toNat ≤ (x - header.pVaddr).toNat := by
    by_contra hnot
    have hinside := hfile _ (Nat.not_le.mp hnot)
    rw [← Memory.eq_add_ofNat (rfl : (x - header.pVaddr).toNat = _)] at hinside
    exact hkernel x (.inr ⟨i, hi, hx⟩) hinside
  have hranges := written_elfLoadBody image hload' (by rw [hread]; exact hspares)
  rw [hranges, hread] at hbody
  have hfits : header.Fits := by
    apply (ranges_inWindow_iff header).mp
    intro range hmem
    exact hbody range (List.mem_append_right _ hmem)
  exact hfits hload

/-- If only the window is written to, all segments lie in it. -/
theorem fits_of_written (hkernel : ∀ x, HeaderByte m image x → ¬ InWindow x)
    (h : SameHeaders m image run)
    (hwritten : ∀ range ∈
      (elfLoadLoop image (2 ^ 16) 0 (phdrAddress m image 0) run).written, RangeInWindow range) :
    ∀ header ∈ programHeadersAt m image, header.Fits := by
  have hcount := (elfHeaderAt m image).ePhnum.isLt
  have hfirst (k : Nat) (hk : k ≤ (elfHeaderAt m image).ePhnum.toNat) :
      ∀ header ∈ (programHeadersAt m image).take k, header.Fits := by
    induction k with
    | zero => exact fun header hmem => absurd hmem List.not_mem_nil
    | succ k ih =>
        have hlt : k < (elfHeaderAt m image).ePhnum.toNat := hk
        have hbefore := ih (by omega)
        obtain ⟨hsame, hloop⟩ := elfLoadLoop_take h hlt.le
          (fun header hmem => (hbefore header hmem).spares hkernel) (2 ^ 16 - (k + 1) + 1)
        have hfuel : 2 ^ 16 - (k + 1) + 1 + k = 2 ^ 16 := by omega
        rw [elfLoadLoop_succ hsame hlt, hfuel] at hloop
        rw [hloop] at hwritten
        have hlast := fits_of_body hkernel hsame hlt fun range hmem =>
          hwritten range (subset_written_elfLoadLoop image _ _ _ _ hmem)
        rw [take_succ_programHeadersAt hlt]
        intro header hmem
        rcases List.mem_append.mp hmem with hold | hnew
        · exact hbefore header hold
        · obtain rfl := List.mem_singleton.mp hnew
          exact hlast
  have hall := hfirst _ le_rfl
  rwa [← length_programHeadersAt, List.take_length] at hall

end Written

/-- The loader accepts the image. -/
def Accepted (m : Mem) (image : BitVec 32) : Prop :=
  isElfAt m image ∧ (elfHeaderAt m image).eType = etExec

section Loading

variable {m : Mem} {image : BitVec 32}

/-- The state before the loop. -/
def elfStart (m : Mem) : ElfRun := { mem := m, written := [], maxEnd := 0, size := 0 }

theorem elfLoadAt_refused (h : ¬ Accepted m image) : elfLoadAt m image = (elfStart m, none) := by
  unfold elfLoadAt
  split
  · rfl
  · next helf =>
      have htype : (elfHeaderAt m image).eType ≠ etExec := fun htype => h ⟨not_not.mp helf, htype⟩
      rw [if_pos htype]
      rfl

theorem elfLoadAt_accepted (h : Accepted m image) :
    (elfLoadAt m image).1 =
        elfLoadLoop image (2 ^ 16) 0 (phdrAddress m image 0) (elfStart m) ∧
      (elfLoadAt m image).2 = some
        { entryVa := (elfHeaderAt (elfLoadAt m image).1.mem image).eEntry
          baseVa := 0
          maxOffset := (elfLoadAt m image).1.maxEnd
          size := (elfLoadAt m image).1.size
          environOff := 0
          curbrkOff := 0 } := by
  have hstart : phdrAddress m image 0 = image + (elfHeaderAt m image).ePhoff := by
    rw [phdrAddress, Nat.mul_zero, BitVec.add_zero]
  unfold elfLoadAt
  rw [if_neg (not_not.mpr h.1), if_neg (not_not.mpr h.2), hstart]
  exact ⟨rfl, rfl⟩

/-- What lies outside of the window is not changed. -/
theorem LoadsInWindow.frame (h : LoadsInWindow m image) {x : BitVec 32} (hx : ¬ InWindow x) :
    (elfLoadAt m image).1.mem x = m x := by
  by_cases haccepted : Accepted m image
  · obtain ⟨hrun, hinfo⟩ := elfLoadAt_accepted haccepted
    obtain ⟨-, -, hwritten⟩ := h.accepted (by rw [hinfo]; rfl)
    rw [hrun] at hwritten ⊢
    apply mem_elfLoadLoop
    intro range hmem
    by_contra hlt
    have hinside := hwritten range hmem _ (Nat.not_le.mp hlt)
    rw [← Memory.eq_add_ofNat (rfl : (x - range.1).toNat = _)] at hinside
    exact hx hinside
  · rw [elfLoadAt_refused haccepted]
    rfl

/-- An image whose headers are not in the window of a process (the embedded images are
constants of the kernel) is loaded as it should be if and only if it is refused or has the
whole magic number and only segments that fit. -/
theorem elfLoad_inWindow_iff (m : Mem) (image : BitVec 32)
    (hkernel : ∀ x, HeaderByte m image x → ¬ InWindow x) :
    LoadsInWindow m image ↔
      ¬ Accepted m image ∨
        HasMagic m image ∧ ∀ header ∈ programHeadersAt m image, header.Fits := by
  have hsame : SameHeaders m image (elfStart m) := fun _ _ => rfl
  constructor
  · intro h
    by_cases haccepted : Accepted m image
    · obtain ⟨hrun, hinfo⟩ := elfLoadAt_accepted haccepted
      obtain ⟨hmagic, -, hwritten⟩ := h.accepted (by rw [hinfo]; rfl)
      rw [hrun] at hwritten
      exact .inr ⟨hmagic, fits_of_written hkernel hsame hwritten⟩
    · exact .inl haccepted
  · intro h
    by_cases haccepted : Accepted m image
    · obtain ⟨hmagic, hfits⟩ := h.resolve_left (not_not.mpr haccepted)
      obtain ⟨hrun, hinfo⟩ := elfLoadAt_accepted haccepted
      constructor
      · intro _
        refine ⟨hmagic, haccepted.2, ?_⟩
        rw [hrun, elfLoadLoop_eq hsame fun header hmem => (hfits header hmem).spares hkernel,
          written_loadHeaders]
        intro range hmem
        obtain ⟨header, hheader, hrange⟩ := List.mem_flatMap.mp hmem
        exact (ranges_inWindow_iff header).mpr (hfits header hheader) range hrange
      · intro hnone
        rw [hinfo] at hnone
        cases hnone
    · have hrefused := elfLoadAt_refused haccepted
      constructor
      · intro hsome
        rw [hrefused] at hsome
        cases hsome
      · intro _
        rw [hrefused]
        exact ⟨rfl, rfl⟩

end Loading

/-- The memory that holds these bytes at `image`. -/
def imageMem (image : BitVec 32) (bytes : List UInt8) : Mem :=
  fun x => imageByte bytes (x - image).toNat

/-- One segment of four bytes and four zeros at 0x400000. -/
def segmentElf : List UInt8 :=
  [0x7F, 69, 76, 70] ++ List.replicate 12 0 ++ [2, 0, 3, 0, 1, 0, 0, 0] ++ [0, 0, 0x40, 0] ++
    [52, 0, 0, 0] ++ List.replicate 8 0 ++ [52, 0, 32, 0, 1, 0] ++ List.replicate 6 0 ++
    [1, 0, 0, 0] ++ [84, 0, 0, 0] ++ [0, 0, 0x40, 0] ++ [0, 0, 0x40, 0] ++ [4, 0, 0, 0] ++
    [8, 0, 0, 0] ++ [7, 0, 0, 0] ++ [0, 16, 0, 0] ++ [1, 2, 3, 4]

/-- The memory with this program. -/
def segmentMem : Mem := imageMem 0xC0000000 segmentElf

theorem segmentMem_phnum : (elfHeaderAt segmentMem 0xC0000000).ePhnum.toNat = 1 := by
  decide +kernel

theorem segmentMem_phdr : phdrAddress segmentMem 0xC0000000 0 = 0xC0000034 := by
  decide +kernel

theorem segmentMem_headers :
    programHeadersAt segmentMem 0xC0000000 = [⟨1, 84, 0x400000, 4, 8⟩] := by
  rw [programHeadersAt, segmentMem_phnum]
  change [programHeaderAt _ (phdrAddress _ _ 0)] = _
  rw [segmentMem_phdr]
  rfl

theorem segmentMem_headerByte {x : BitVec 32} (h : HeaderByte segmentMem 0xC0000000 x) :
    (x - 0xC0000000).toNat < 84 := by
  rcases h with hx | ⟨i, hi, hx⟩
  · exact hx.trans (by decide)
  · rw [segmentMem_phnum] at hi
    obtain rfl : i = 0 := by omega
    rw [segmentMem_phdr] at hx
    bv_omega

theorem elfLoad_inWindow_segment : LoadsInWindow segmentMem 0xC0000000 := by
  apply (elfLoad_inWindow_iff segmentMem 0xC0000000 ?_).mpr
  · apply Or.inr
    constructor
    · unfold HasMagic
      decide +kernel
    · rw [segmentMem_headers]
      intro header hmem
      obtain rfl := List.mem_singleton.mp hmem
      exact fun _ => .inr (by decide)
  · have hbase : processVaBase = 4194304 := by decide
    have hsize : processVaSize = 1048576 := by decide
    intro x hx hwindow
    have hoff := segmentMem_headerByte hx
    rw [InWindow, hbase, hsize] at hwindow
    bv_omega

/-- The first byte of the magic number and the type, and nothing else. -/
def garbageElf : List UInt8 := 0x7F :: List.replicate 15 0 ++ [2]

/-- It is loaded. -/
theorem elfLoad_garbage : ¬ LoadsInWindow (imageMem 0xC0000000 garbageElf) 0xC0000000 := by
  intro h
  obtain ⟨⟨-, hsecond, -⟩, -⟩ := h.accepted (by decide +kernel)
  exact absurd hsecond (by decide +kernel)

end Punix
