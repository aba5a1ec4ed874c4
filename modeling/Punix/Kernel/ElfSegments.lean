import Punix.Kernel.ElfWindow

/-!
What `elf_load` leaves in the memory: the bytes of each segment, zeros behind them, and all
else as it was, if the segments overlap neither each other nor the image. The loader of an
image in memory is then that of its bytes.
-/

namespace Punix

open Lib

/-- The segments that are loaded. -/
def loadSegments (m : Mem) (image : BitVec 32) : List Elf32Phdr :=
  (programHeadersAt m image).filter fun phdr => phdr.pType = ptLoad

/-- An image of `len` bytes as the linker script makes it. -/
structure Linked (m : Mem) (image : BitVec 32) (len : Nat) : Prop where
  length : len < 2 ^ 32
  ehdr : 52 ≤ len
  phdrs : (elfHeaderAt m image).ePhoff.toNat + 32 * (elfHeaderAt m image).ePhnum.toNat ≤ len
  file : ∀ phdr ∈ loadSegments m image, phdr.pOffset.toNat + phdr.pFilesz.toNat ≤ len
  filesz : ∀ phdr ∈ loadSegments m image, phdr.pFilesz.toNat ≤ phdr.pMemsz.toNat
  noWrap : ∀ phdr ∈ loadSegments m image, phdr.pVaddr.toNat + phdr.pMemsz.toNat < 2 ^ 32
  apart : ∀ phdr ∈ loadSegments m image, ∀ x, phdr.Covers x → len ≤ (x - image).toNat
  disjoint : (loadSegments m image).Pairwise fun phdr phdr' =>
    ∀ x, phdr.Covers x → ¬ phdr'.Covers x

section Segment

variable {image : BitVec 32} {run : ElfRun} {phdr : Elf32Phdr}

theorem Elf32Phdr.covers_add (hload : phdr.pType = ptLoad) {k : Nat} (hk : k < phdr.extent) :
    phdr.Covers (phdr.pVaddr + BitVec.ofNat 32 k) := by
  constructor
  · exact hload
  · rw [Memory.toNat_add_ofNat_sub (hk.trans phdr.extent_lt)]
    exact hk

/-- The source of the bytes is not written to. -/
def SparesFile (image : BitVec 32) (phdr phdr' : Elf32Phdr) : Prop :=
  ∀ k < phdr'.pFilesz.toNat, ¬ phdr.Covers (image + phdr'.pOffset + BitVec.ofNat 32 k)

/-- The bytes of the file. -/
theorem loadHeader_file (hload : phdr.pType = ptLoad) (hspares : SparesFile image phdr phdr)
    {k : Nat} (hk : k < phdr.pFilesz.toNat) :
    (loadHeader image run phdr).mem (phdr.pVaddr + BitVec.ofNat 32 k) =
      run.mem (image + phdr.pOffset + BitVec.ofNat 32 k) := by
  have hfile := phdr.pFilesz.isLt
  have hmem := phdr.pMemsz.isLt
  have hdist := Memory.toNat_add_ofNat_sub (show k < 2 ^ 32 by omega) phdr.pVaddr
  have hcopy : run.mem.copy phdr.pVaddr (image + phdr.pOffset) phdr.pFilesz.toNat
      (phdr.pVaddr + BitVec.ofNat 32 k) = run.mem (image + phdr.pOffset + BitVec.ofNat 32 k) := by
    have hsource : ∀ i < phdr.pFilesz.toNat, phdr.pFilesz.toNat ≤
        (image + phdr.pOffset + BitVec.ofNat 32 i - phdr.pVaddr).toNat := by
      intro i hi
      by_contra hlt
      exact hspares i hi ⟨hload, (Nat.not_le.mp hlt).trans_le (le_max_left _ _)⟩
    rw [Memory.copy_eq_fill _ fun i hi => hi.le.trans (hsource i hi), Memory.fill_inside _ _ (by omega) (by omega), hdist]
  unfold loadHeader
  rw [if_neg (not_not.mpr hload)]
  split
  · next hlarger =>
      refine Eq.trans ?_ hcopy
      apply Memory.fill_outside
      bv_omega
  · exact hcopy

/-- The zeros behind them. -/
theorem loadHeader_zero (hload : phdr.pType = ptLoad) {k : Nat} (hfile : phdr.pFilesz.toNat ≤ k)
    (hk : k < phdr.pMemsz.toNat) :
    (loadHeader image run phdr).mem (phdr.pVaddr + BitVec.ofNat 32 k) = 0 := by
  have hmem := phdr.pMemsz.isLt
  have hlarger : phdr.pMemsz > phdr.pFilesz := show phdr.pFilesz.toNat < _ by omega
  unfold loadHeader
  rw [if_neg (not_not.mpr hload)]
  dsimp only
  rw [if_pos hlarger]
  apply Memory.fill_inside
  · bv_omega
  · exact (phdr.pMemsz - phdr.pFilesz).isLt.le

/-- What a segment is in memory. -/
structure SegmentLoaded (m m' : Mem) (image : BitVec 32) (phdr : Elf32Phdr) : Prop where
  file : ∀ k < phdr.pFilesz.toNat,
    m' (phdr.pVaddr + BitVec.ofNat 32 k) = m (image + phdr.pOffset + BitVec.ofNat 32 k)
  zero : ∀ k, phdr.pFilesz.toNat ≤ k → k < phdr.pMemsz.toNat →
    m' (phdr.pVaddr + BitVec.ofNat 32 k) = 0

end Segment

section Segments

variable {image : BitVec 32} {run : ElfRun} {segments : List Elf32Phdr}

theorem foldl_loadHeader_filter (headers : List Elf32Phdr) :
    headers.foldl (loadHeader image) run =
      (headers.filter fun phdr => phdr.pType = ptLoad).foldl (loadHeader image) run := by
  induction headers generalizing run with
  | nil => rfl
  | cons phdr headers ih =>
      rw [List.foldl_cons, ih, List.filter_cons]
      split
      · rfl
      · next hskip =>
          rw [decide_eq_true_eq] at hskip
          rw [loadHeader, if_pos hskip]

theorem foldl_loadHeader_outside {x : BitVec 32} (hx : ∀ phdr ∈ segments, ¬ phdr.Covers x) :
    (segments.foldl (loadHeader image) run).mem x = run.mem x := by
  induction segments generalizing run with
  | nil => rfl
  | cons phdr segments ih =>
      rw [List.foldl_cons, ih fun phdr' hmem => hx phdr' (List.mem_cons_of_mem _ hmem)]
      exact loadHeader_outside (hx phdr List.mem_cons_self)

/-- Later segments leave alone what earlier ones have loaded, and what they will load. -/
theorem foldl_loadHeader_loaded (hload : ∀ phdr ∈ segments, phdr.pType = ptLoad)
    (hspares : ∀ phdr ∈ segments, ∀ phdr' ∈ segments, SparesFile image phdr phdr')
    (hdisjoint : segments.Pairwise fun phdr phdr' => ∀ x, phdr.Covers x → ¬ phdr'.Covers x) :
    ∀ phdr ∈ segments,
      SegmentLoaded run.mem (segments.foldl (loadHeader image) run).mem image phdr := by
  induction segments generalizing run with
  | nil => exact fun phdr hmem => absurd hmem List.not_mem_nil
  | cons first segments ih =>
      obtain ⟨hfirst, hrest⟩ := List.pairwise_cons.mp hdisjoint
      have hloadFirst := hload first List.mem_cons_self
      have hlater {k : Nat} (hk : k < first.extent) :
          (segments.foldl (loadHeader image) (loadHeader image run first)).mem
              (first.pVaddr + BitVec.ofNat 32 k) =
            (loadHeader image run first).mem (first.pVaddr + BitVec.ofNat 32 k) := by
        apply foldl_loadHeader_outside
        intro phdr hmem
        exact hfirst phdr hmem _ (first.covers_add hloadFirst hk)
      intro phdr hmem
      rw [List.foldl_cons]
      rcases List.mem_cons.mp hmem with rfl | hmem
      · constructor
        · intro k hk
          rw [hlater (hk.trans_le (le_max_left _ _))]
          exact loadHeader_file hloadFirst (hspares _ List.mem_cons_self _ List.mem_cons_self) hk
        · intro k hfile hk
          rw [hlater (hk.trans_le (le_max_right _ _))]
          exact loadHeader_zero hloadFirst hfile hk
      · have hloaded : SegmentLoaded (loadHeader image run first).mem _ image phdr :=
          ih (fun phdr' h => hload phdr' (List.mem_cons_of_mem _ h))
            (fun phdr' h phdr'' h' =>
              hspares phdr' (List.mem_cons_of_mem _ h) phdr'' (List.mem_cons_of_mem _ h'))
            hrest phdr hmem
        obtain ⟨hfile, hzero⟩ := hloaded
        constructor
        · intro k hk
          rw [hfile k hk]
          apply loadHeader_outside
          exact hspares first List.mem_cons_self phdr (List.mem_cons_of_mem _ hmem) k hk
        · exact hzero

theorem toNat_maxEnd_foldl (hload : ∀ phdr ∈ segments, phdr.pType = ptLoad)
    (hwrap : ∀ phdr ∈ segments, phdr.pVaddr.toNat + phdr.pMemsz.toNat < 2 ^ 32) :
    (segments.foldl (loadHeader image) run).maxEnd.toNat =
      (segments.map fun phdr => phdr.pVaddr.toNat + phdr.pMemsz.toNat).foldl max
        run.maxEnd.toNat := by
  induction segments generalizing run with
  | nil => rfl
  | cons phdr segments ih =>
      have hfirst := hwrap phdr List.mem_cons_self
      have hend : (phdr.pVaddr + phdr.pMemsz).toNat = phdr.pVaddr.toNat + phdr.pMemsz.toNat := by
        rw [BitVec.toNat_add, Nat.mod_eq_of_lt hfirst]
      have hmax : (loadHeader image run phdr).maxEnd.toNat =
          max run.maxEnd.toNat (phdr.pVaddr.toNat + phdr.pMemsz.toNat) := by
        have hbounds : (loadHeader image run phdr).maxEnd =
            if phdr.pVaddr + phdr.pMemsz > run.maxEnd then phdr.pVaddr + phdr.pMemsz
            else run.maxEnd := by
          rw [loadHeader, if_neg (not_not.mpr (hload phdr List.mem_cons_self))]
          unfold ElfRun.bounds ElfRun.zero ElfRun.copy
          dsimp only
          split <;> rfl
        rw [hbounds, ← hend]
        split
        · next hlt => exact (max_eq_right (Nat.le_of_lt hlt)).symm
        · next hge => exact (max_eq_left (Nat.not_lt.mp hge)).symm
      rw [List.foldl_cons, ih (fun phdr' h => hload phdr' (List.mem_cons_of_mem _ h))
        (fun phdr' h => hwrap phdr' (List.mem_cons_of_mem _ h)), hmax]
      rfl

theorem size_foldl (hload : ∀ phdr ∈ segments, phdr.pType = ptLoad) :
    (segments.foldl (loadHeader image) run).size =
      run.size + BitVec.ofNat 32 (segments.map fun phdr => phdr.pFilesz.toNat).sum := by
  induction segments generalizing run with
  | nil => exact (BitVec.add_zero _).symm
  | cons phdr segments ih =>
      have hsize : (loadHeader image run phdr).size = run.size + phdr.pFilesz := by
        rw [loadHeader, if_neg (not_not.mpr (hload phdr List.mem_cons_self))]
        unfold ElfRun.bounds ElfRun.zero ElfRun.copy
        dsimp only
        split <;> rfl
      rw [List.foldl_cons, ih fun phdr' h => hload phdr' (List.mem_cons_of_mem _ h), hsize,
        List.map_cons, List.sum_cons, BitVec.ofNat_add, BitVec.add_assoc, BitVec.ofNat_toNat,
        BitVec.setWidth_eq]

end Segments

section Linked

variable {m : Mem} {image : BitVec 32} {len : Nat}

theorem pType_of_mem {phdr : Elf32Phdr} (h : phdr ∈ loadSegments m image) :
    phdr.pType = ptLoad := of_decide_eq_true (List.mem_filter.mp h).2

namespace Linked

theorem header (h : Linked m image len) {x : BitVec 32} (hx : HeaderByte m image x) :
    (x - image).toNat < len := by
  have hlen := h.length
  have hphdrs := h.phdrs
  rcases hx with hx | ⟨i, hi, hx⟩
  · exact hx.trans_le h.ehdr
  · unfold phdrAddress at hx
    bv_omega

theorem spares (h : Linked m image len) :
    ∀ phdr ∈ programHeadersAt m image, SparesHeaders m image phdr := by
  rintro phdr hmem x hx hcovers
  have hload : phdr ∈ loadSegments m image :=
    List.mem_filter.mpr ⟨hmem, decide_eq_true hcovers.1⟩
  exact Nat.not_le.mpr (h.header hx) (h.apart phdr hload x hcovers)

theorem sparesFile (h : Linked m image len) {phdr phdr' : Elf32Phdr}
    (hmem : phdr ∈ loadSegments m image) (hmem' : phdr' ∈ loadSegments m image) :
    SparesFile image phdr phdr' := by
  intro k hk hcovers
  have hlen := h.length
  have hfile := h.file phdr' hmem'
  have hapart := h.apart phdr hmem _ hcovers
  bv_omega

/-- A segment is a range of numbers. -/
theorem covers_iff (h : Linked m image len) {phdr : Elf32Phdr}
    (hmem : phdr ∈ loadSegments m image) (x : BitVec 32) :
    phdr.Covers x ↔
      phdr.pVaddr.toNat ≤ x.toNat ∧ x.toNat < phdr.pVaddr.toNat + phdr.pMemsz.toNat := by
  have hwrap := h.noWrap phdr hmem
  rw [Elf32Phdr.Covers, and_iff_right (pType_of_mem hmem), Elf32Phdr.extent,
    max_eq_right (h.filesz phdr hmem)]
  bv_omega

/-- The segments leave out the first byte of the image, so that `size` does not wrap. -/
theorem sum_filesz_lt (h : Linked m image len) :
    ((loadSegments m image).map fun phdr => phdr.pFilesz.toNat).sum < 2 ^ 32 := by
  have hfirst : 0 < len := Nat.lt_of_lt_of_le (by decide) h.ehdr
  have hle : ((loadSegments m image).map fun phdr => phdr.pFilesz.toNat).sum ≤
      (((loadSegments m image).map fun phdr => (phdr.pVaddr.toNat, phdr.pMemsz.toNat)).map
        Prod.snd).sum := by
    rw [List.map_map]
    exact List.sum_le_sum fun phdr hmem => h.filesz phdr hmem
  apply hle.trans_lt
  apply sum_ranges_lt (y := image.toNat)
  · rw [List.pairwise_map]
    apply h.disjoint.imp_of_mem
    intro phdr phdr' hmem hmem' hapart x hlow hhigh hinside
    have hwrap := h.noWrap phdr hmem
    have hx : (BitVec.ofNat 32 x).toNat = x := by
      rw [BitVec.toNat_ofNat, Nat.mod_eq_of_lt (by dsimp only at hhigh; omega)]
    apply hapart (BitVec.ofNat 32 x)
    · rw [h.covers_iff hmem, hx]
      exact ⟨hlow, hhigh⟩
    · rw [h.covers_iff hmem', hx]
      exact hinside
  · intro r hr
    obtain ⟨phdr, hmem, rfl⟩ := List.mem_map.mp hr
    exact (h.noWrap phdr hmem).le
  · exact image.isLt
  · intro r hr hinside
    obtain ⟨phdr, hmem, rfl⟩ := List.mem_map.mp hr
    have hapart := h.apart phdr hmem image ((h.covers_iff hmem image).mpr hinside)
    rw [BitVec.sub_self] at hapart
    exact Nat.not_le.mpr hfirst hapart

/-- The loop loads one segment after the other. -/
theorem elfLoadLoop_eq (h : Linked m image len) :
    elfLoadLoop image (2 ^ 16) 0 (phdrAddress m image 0) (elfStart m) =
      (loadSegments m image).foldl (loadHeader image) (elfStart m) := by
  have hsame : SameHeaders m image (elfStart m) := fun _ _ => rfl
  rw [Punix.elfLoadLoop_eq hsame h.spares, foldl_loadHeader_filter]
  rfl

end Linked

/-- A program is loaded segment by segment: what is in memory afterwards, and the bounds. -/
theorem elfLoadAt_loads {run : ElfRun} {info : ElfInfo} (h : Linked m image len)
    (hload : elfLoadAt m image = (run, some info)) :
    (∀ phdr ∈ loadSegments m image, SegmentLoaded m run.mem image phdr) ∧
      (∀ x, (∀ phdr ∈ loadSegments m image, ¬ phdr.Covers x) → run.mem x = m x) ∧
      info.maxOffset.toNat = ((loadSegments m image).map fun phdr =>
        phdr.pVaddr.toNat + phdr.pMemsz.toNat).foldl max 0 ∧
      info.size.toNat = ((loadSegments m image).map fun phdr => phdr.pFilesz.toNat).sum := by
  have haccepted : Accepted m image := by
    by_contra hrefused
    rw [elfLoadAt_refused hrefused] at hload
    cases (Prod.mk.inj hload).2
  obtain ⟨hrun, hinfo⟩ := elfLoadAt_accepted haccepted
  rw [h.elfLoadLoop_eq] at hrun
  rw [hload] at hrun hinfo
  dsimp only at hrun hinfo
  obtain rfl := Option.some.inj hinfo
  have hsegments : ∀ phdr ∈ loadSegments m image, phdr.pType = ptLoad :=
    fun phdr hmem => pType_of_mem hmem
  subst hrun
  refine ⟨?_, ?_, ?_, ?_⟩
  · have hloaded : ∀ phdr ∈ loadSegments m image, SegmentLoaded (elfStart m).mem
        ((loadSegments m image).foldl (loadHeader image) (elfStart m)).mem image phdr :=
      foldl_loadHeader_loaded hsegments
        (fun phdr hmem phdr' hmem' => h.sparesFile hmem hmem') h.disjoint
    exact hloaded
  · intro x hx
    exact foldl_loadHeader_outside hx
  · exact toNat_maxEnd_foldl hsegments h.noWrap
  · have hsize : ((loadSegments m image).foldl (loadHeader image) (elfStart m)).size = _ :=
      size_foldl hsegments
    refine (congrArg BitVec.toNat hsize).trans ?_
    rw [show (elfStart m).size = 0#32 from rfl, BitVec.zero_add, BitVec.toNat_ofNat,
      Nat.mod_eq_of_lt h.sum_filesz_lt]

end Linked

def imageBytes (m : Mem) (image : BitVec 32) (len : Nat) : List UInt8 :=
  (List.range len).map fun i => m (image + BitVec.ofNat 32 i)

/-- The state of the loop without the ranges. -/
def ElfRun.load (run : ElfRun) : ElfLoad :=
  { mem := run.mem, maxEnd := run.maxEnd, size := run.size }

section Bytes

variable {m : Mem} {image : BitVec 32} {len : Nat}

theorem imageByte_imageBytes {off : Nat} (h : off < len) :
    imageByte (imageBytes m image len) off = m (image + BitVec.ofNat 32 off) := by
  rw [imageByte, imageBytes, List.getD_eq_getElem?_getD, List.getElem?_map,
    List.getElem?_range h]
  rfl

theorem imageWord_imageBytes {off : Nat} (h : off + 4 ≤ len) :
    imageWord (imageBytes m image len) off = Memory.word m (image + BitVec.ofNat 32 off) := by
  have hbyte (i : Nat) (hi : i < 4) : imageByte (imageBytes m image len) (off + i) =
      m (image + BitVec.ofNat 32 off + BitVec.ofNat 32 i) := by
    rw [imageByte_imageBytes (by omega), BitVec.ofNat_add, BitVec.add_assoc]
  have hzero := hbyte 0 (by decide)
  rw [BitVec.add_zero] at hzero
  have hone : _ = m (image + BitVec.ofNat 32 off + 1) := hbyte 1 (by decide)
  have htwo : _ = m (image + BitVec.ofNat 32 off + 2) := hbyte 2 (by decide)
  have hthree : _ = m (image + BitVec.ofNat 32 off + 3) := hbyte 3 (by decide)
  unfold imageWord Memory.word
  dsimp only
  rw [← hzero, ← hone, ← htwo, ← hthree]
  rfl

theorem isElf_imageBytes (hlen : 52 ≤ len) :
    isElf (imageBytes m image len) = isElfAt m image := by
  unfold isElf isElfAt
  rw [imageByte_imageBytes (by omega), imageByte_imageBytes (by omega),
    imageByte_imageBytes (by omega), imageByte_imageBytes (by omega), BitVec.add_zero]
  rfl

theorem elfHeader_imageBytes (hlen : 52 ≤ len) :
    elfHeader (imageBytes m image len) = elfHeaderAt m image := by
  unfold elfHeader imageHalf elfHeaderAt
  rw [imageWord_imageBytes (by omega), imageWord_imageBytes (by omega),
    imageWord_imageBytes (by omega), imageWord_imageBytes (by omega)]
  rfl

theorem Linked.programHeaders (h : Linked m image len) :
    elfProgramHeaders (imageBytes m image len) = programHeadersAt m image := by
  have hphdrs := h.phdrs
  unfold elfProgramHeaders programHeadersAt
  rw [elfHeader_imageBytes h.ehdr]
  apply List.map_congr_left
  intro i hi
  have hlt : i < (elfHeaderAt m image).ePhnum.toNat := List.mem_range.mp hi
  have hfield (off : Nat) (hoff : off + 4 ≤ 32) :
      imageWord (imageBytes m image len) ((elfHeaderAt m image).ePhoff.toNat + 32 * i + off) =
        Memory.word m (phdrAddress m image i + BitVec.ofNat 32 off) := by
    rw [imageWord_imageBytes (by omega), phdrAddress, BitVec.ofNat_add, BitVec.ofNat_add,
      BitVec.ofNat_toNat, BitVec.setWidth_eq, BitVec.add_assoc, BitVec.add_assoc,
      BitVec.add_assoc]
  have htype := hfield 0 (by decide)
  rw [BitVec.add_zero, Nat.add_zero] at htype
  unfold elfProgramHeader programHeaderAt
  dsimp only
  rw [htype, hfield 4 (by decide), hfield 8 (by decide), hfield 16 (by decide),
    hfield 20 (by decide)]
  rfl

/-- A segment is loaded from the bytes as from the memory. -/
theorem Linked.load_loadHeader (h : Linked m image len) {run : ElfRun}
    (hsame : ∀ x, (x - image).toNat < len → run.mem x = m x) {phdr : Elf32Phdr}
    (hmem : phdr ∈ loadSegments m image) :
    (loadHeader image run phdr).load =
      elfLoadStep (imageBytes m image len) run.load phdr := by
  have hload := pType_of_mem hmem
  have hlen := h.length
  have hfile := h.file phdr hmem
  have hsource : ∀ i < phdr.pFilesz.toNat, phdr.pFilesz.toNat ≤
      (image + phdr.pOffset + BitVec.ofNat 32 i - phdr.pVaddr).toNat := by
    intro i hi
    by_contra hlt
    exact h.sparesFile hmem hmem i hi ⟨hload, (Nat.not_le.mp hlt).trans_le (le_max_left _ _)⟩
  have hcopy : run.mem.copy phdr.pVaddr (image + phdr.pOffset) phdr.pFilesz.toNat =
      run.mem.fill phdr.pVaddr
        (fun i => imageByte (imageBytes m image len) (phdr.pOffset.toNat + i))
        phdr.pFilesz.toNat := by
    rw [Memory.copy_eq_fill _ fun i hi => hi.le.trans (hsource i hi)]
    apply Memory.fill_congr
    intro i hi
    rw [imageByte_imageBytes (by omega), hsame _ (by bv_omega), BitVec.ofNat_add,
      BitVec.ofNat_toNat, BitVec.setWidth_eq, BitVec.add_assoc]
  unfold loadHeader elfLoadStep loadSegment
  rw [if_neg (not_not.mpr hload), if_neg (not_not.mpr hload)]
  unfold ElfRun.copy
  dsimp only [ElfRun.load]
  rw [hcopy]
  split <;> rfl

theorem Linked.load_foldl (h : Linked m image len) {segments : List Elf32Phdr} {run : ElfRun}
    (hsame : ∀ x, (x - image).toNat < len → run.mem x = m x)
    (hmem : ∀ phdr ∈ segments, phdr ∈ loadSegments m image) :
    (segments.foldl (loadHeader image) run).load =
      segments.foldl (elfLoadStep (imageBytes m image len)) run.load := by
  induction segments generalizing run with
  | nil => rfl
  | cons phdr segments ih =>
      have hfirst := hmem phdr List.mem_cons_self
      rw [List.foldl_cons, List.foldl_cons, ← h.load_loadHeader hsame hfirst]
      apply ih
      · intro x hx
        rw [loadHeader_outside fun hcovers => Nat.not_le.mpr hx (h.apart phdr hfirst x hcovers)]
        exact hsame x hx
      · exact fun phdr' hmem' => hmem phdr' (List.mem_cons_of_mem _ hmem')

theorem foldl_elfLoadStep_filter (bytes : List UInt8) (headers : List Elf32Phdr)
    (load : ElfLoad) :
    headers.foldl (elfLoadStep bytes) load =
      (headers.filter fun phdr => phdr.pType = ptLoad).foldl (elfLoadStep bytes) load := by
  induction headers generalizing load with
  | nil => rfl
  | cons phdr headers ih =>
      rw [List.foldl_cons, ih, List.filter_cons]
      split
      · rfl
      · next hskip =>
          rw [decide_eq_true_eq] at hskip
          rw [elfLoadStep, if_pos hskip]

/-- The loader of an image in memory is the loader of its bytes. -/
theorem Linked.elfLoad_eq (h : Linked m image len) :
    elfLoad (imageBytes m image len) m =
      ((elfLoadAt m image).1.mem, (elfLoadAt m image).2) := by
  by_cases haccepted : Accepted m image
  · obtain ⟨hrun, hinfo⟩ := elfLoadAt_accepted haccepted
    rw [h.elfLoadLoop_eq] at hrun
    have hload : ((programHeadersAt m image).filter fun phdr => phdr.pType = ptLoad).foldl
        (elfLoadStep (imageBytes m image len)) { mem := m, maxEnd := 0, size := 0 } =
          (elfLoadAt m image).1.load := by
      have hstart : ∀ x, (x - image).toNat < len → (elfStart m).mem x = m x := fun _ _ => rfl
      rw [hrun, h.load_foldl hstart fun _ hmem => hmem]
      rfl
    have hentry : elfHeaderAt (elfLoadAt m image).1.mem image = elfHeaderAt m image := by
      apply elfHeaderAt_congr
      intro x hx
      rw [hrun]
      apply foldl_loadHeader_outside
      intro phdr hmem hcovers
      exact Nat.not_le.mpr (hx.trans_le h.ehdr) (h.apart phdr hmem x hcovers)
    unfold elfLoad
    rw [isElf_imageBytes h.ehdr, if_neg (not_not.mpr haccepted.1), elfHeader_imageBytes h.ehdr,
      if_neg (not_not.mpr haccepted.2), h.programHeaders, foldl_elfLoadStep_filter]
    dsimp only
    rw [hload, hinfo, hentry]
    rfl
  · rw [elfLoadAt_refused haccepted]
    unfold elfLoad
    rw [isElf_imageBytes h.ehdr, elfHeader_imageBytes h.ehdr]
    split
    · rfl
    · next helf =>
        rw [if_pos fun htype => haccepted ⟨not_not.mp helf, htype⟩]
        rfl

end Bytes

/-- A program as the linker script makes it: four bytes of text, and two bytes of data with four
zeros. The header between the two is not for the loader. -/
def linkedElf : List UInt8 :=
  [0x7F, 69, 76, 70] ++ List.replicate 12 0 ++ [2, 0, 3, 0, 1, 0, 0, 0] ++ [0, 0, 0x40, 0] ++
    [52, 0, 0, 0] ++ List.replicate 8 0 ++ [52, 0, 32, 0, 3, 0] ++ List.replicate 6 0 ++
    ([1, 0, 0, 0] ++ [148, 0, 0, 0] ++ [0, 0, 0x40, 0] ++ [0, 0, 0x40, 0] ++ [4, 0, 0, 0] ++
      [4, 0, 0, 0] ++ [5, 0, 0, 0] ++ [0, 16, 0, 0]) ++
    ([0x51, 0xE5, 0x74, 0x64] ++ List.replicate 20 0 ++ [6, 0, 0, 0] ++ [16, 0, 0, 0]) ++
    ([1, 0, 0, 0] ++ [152, 0, 0, 0] ++ [0, 16, 0x40, 0] ++ [0, 16, 0x40, 0] ++ [2, 0, 0, 0] ++
      [6, 0, 0, 0] ++ [6, 0, 0, 0] ++ [0, 16, 0, 0]) ++
    [1, 2, 3, 4, 5, 6]

def linkedMem : Mem := imageMem 0xC0000000 linkedElf

theorem linkedMem_segments : loadSegments linkedMem 0xC0000000 =
    [⟨1, 148, 0x400000, 4, 4⟩, ⟨1, 152, 0x401000, 2, 6⟩] := by
  have hcount : (elfHeaderAt linkedMem 0xC0000000).ePhnum.toNat = 3 := by decide +kernel
  have hheaders : programHeadersAt linkedMem 0xC0000000 =
      [⟨1, 148, 0x400000, 4, 4⟩, ⟨0x6474E551, 0, 0, 0, 0⟩, ⟨1, 152, 0x401000, 2, 6⟩] := by
    have htext : phdrAddress linkedMem 0xC0000000 0 = 0xC0000034 := by decide +kernel
    have hstack : phdrAddress linkedMem 0xC0000000 1 = 0xC0000054 := by decide +kernel
    have hdata : phdrAddress linkedMem 0xC0000000 2 = 0xC0000074 := by decide +kernel
    rw [programHeadersAt, hcount]
    change [programHeaderAt _ (phdrAddress _ _ 0), programHeaderAt _ (phdrAddress _ _ 1),
      programHeaderAt _ (phdrAddress _ _ 2)] = _
    rw [htext, hstack, hdata]
    rfl
  rw [loadSegments, hheaders]
  rfl

theorem linkedMem_linked : Linked linkedMem 0xC0000000 154 := by
  have hsegments {P : Elf32Phdr → Prop} (htext : P ⟨1, 148, 0x400000, 4, 4⟩)
      (hdata : P ⟨1, 152, 0x401000, 2, 6⟩) : ∀ phdr ∈ loadSegments linkedMem 0xC0000000, P phdr := by
    rw [linkedMem_segments]
    exact List.forall_mem_cons.mpr ⟨htext, List.forall_mem_singleton.mpr hdata⟩
  have htext : Elf32Phdr.extent ⟨1, 148, 0x400000, 4, 4⟩ = 4 := by decide
  have hdata : Elf32Phdr.extent ⟨1, 152, 0x401000, 2, 6⟩ = 6 := by decide
  constructor
  · decide
  · decide
  · decide +kernel
  · exact hsegments (by decide) (by decide)
  · exact hsegments (by decide) (by decide)
  · exact hsegments (by decide) (by decide)
  · apply hsegments
    · rintro x ⟨-, hx⟩
      rw [htext] at hx
      dsimp only at hx
      bv_omega
    · rintro x ⟨-, hx⟩
      rw [hdata] at hx
      dsimp only at hx
      bv_omega
  · rw [linkedMem_segments]
    refine List.pairwise_pair.mpr ?_
    rintro x ⟨-, hx⟩ ⟨-, hx'⟩
    rw [htext] at hx
    rw [hdata] at hx'
    dsimp only at hx hx'
    bv_omega

/-- Both segments are in memory, and the byte behind the text is as it was. -/
theorem elfLoadAt_loads_linked : ∃ run info,
    elfLoadAt linkedMem 0xC0000000 = (run, some info) ∧ run.mem 0x400003 = 4 ∧
      run.mem 0x400004 = linkedMem 0x400004 ∧ run.mem 0x401001 = 6 ∧ run.mem 0x401005 = 0 ∧
      info.maxOffset.toNat = 0x401006 ∧ info.size.toNat = 6 := by
  have hsome : (elfLoadAt linkedMem 0xC0000000).2.isSome := by decide +kernel
  rcases hload : elfLoadAt linkedMem 0xC0000000 with ⟨run, result⟩
  rw [hload] at hsome
  obtain ⟨info, rfl⟩ := Option.isSome_iff_exists.mp hsome
  obtain ⟨hloaded, hkept, hend, hsize⟩ := elfLoadAt_loads linkedMem_linked hload
  rw [linkedMem_segments] at hloaded hkept hend hsize
  obtain ⟨htext, hdata⟩ := List.forall_mem_cons.mp hloaded
  have hdata := hdata _ (List.mem_singleton_self _)
  refine ⟨run, info, rfl, ?_, ?_, ?_, ?_, hend, hsize⟩
  · exact htext.file 3 (by decide)
  · apply hkept
    intro phdr hmem
    unfold Elf32Phdr.Covers
    revert phdr
    decide
  · exact hdata.file 1 (by decide)
  · exact hdata.zero 5 (by decide) (by decide)

end Punix
