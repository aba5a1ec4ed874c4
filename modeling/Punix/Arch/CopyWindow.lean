import Punix.Lib.Transfer
import Punix.Arch.MemoryMap

/-!
Copies between address spaces. A chunk lies in one page of the source and in one page of
the destination, so that the copy window leads to it; between the chunks both entries of
the window are not present, and the tables map what they have mapped before.
-/

namespace Punix

open Lib

/-- Only the copy window is written. -/
def Paging.SameOff (copyPt : Nat) (old st : Paging) : Prop :=
  (∀ f i, ¬ IsCopyEntry copyPt f i → st.tables f i = old.tables f i) ∧ st.copyPt = old.copyPt

section Window

variable {copyPt : Nat} {st st' : Paging}

theorem Paging.SameOff.refl (st : Paging) : SameOff copyPt st st := ⟨fun _ _ _ => rfl, rfl⟩

theorem Paging.SameOff.trans {a b c : Paging} (hab : SameOff copyPt a b)
    (hbc : SameOff copyPt b c) : SameOff copyPt a c :=
  ⟨fun f i h => (hbc.1 f i h).trans (hab.1 f i h), hbc.2.trans hab.2⟩

theorem Paging.SameOff.setEntry (st : Paging) {i : Nat} (hi : IsCopyEntry copyPt copyPt i)
    (entry : PageEntry) : SameOff copyPt st (st.setEntry copyPt i entry) := by
  refine ⟨?_, rfl⟩
  intro f j hother
  rw [tables_setEntry, if_neg]
  rintro ⟨rfl, rfl⟩
  exact hother hi

/-- Every other page is as before. -/
theorem Paging.SameOff.tables_eq {f : Nat} (h : SameOff copyPt st st') (hf : f ≠ copyPt) :
    st'.tables f = st.tables f := by
  funext i
  exact h.1 f i fun hentry => hf hentry.1

theorem isCopyEntry_src (copyPt : Nat) : IsCopyEntry copyPt copyPt (pteIndex copySrcVa) :=
  ⟨rfl, .inl rfl⟩

theorem isCopyEntry_dst (copyPt : Nat) : IsCopyEntry copyPt copyPt (pteIndex copyDstVa) :=
  ⟨rfl, .inr rfl⟩

/-- The copy window for one chunk, armed. -/
def copyArmed (copyPt : Nat) (st : Paging) (srcPa dstPa : Nat) : Paging :=
  copyPteSet (copyPteSet st copyPt copySrcVa srcPa false) copyPt copyDstVa dstPa true

/-- The copy window for one chunk, armed and disarmed. -/
def copyChunk (copyPt : Nat) (st : Paging) (srcPa dstPa : Nat) : Paging :=
  ((copyArmed copyPt st srcPa dstPa).pteClear copyPt (pteIndex copySrcVa)).pteClear copyPt
    (pteIndex copyDstVa)

theorem copyChunk_sameOff (copyPt : Nat) (st : Paging) (srcPa dstPa : Nat) :
    Paging.SameOff copyPt st (copyChunk copyPt st srcPa dstPa) := by
  unfold copyChunk copyArmed copyPteSet Paging.pteClear
  apply Paging.SameOff.trans _ (Paging.SameOff.setEntry _ (isCopyEntry_dst copyPt) _)
  apply Paging.SameOff.trans _ (Paging.SameOff.setEntry _ (isCopyEntry_src copyPt) _)
  apply Paging.SameOff.trans _ (Paging.SameOff.setEntry _ (isCopyEntry_dst copyPt) _)
  apply Paging.SameOff.setEntry _ (isCopyEntry_src copyPt)

theorem copyChunk_off (copyPt : Nat) (st : Paging) (srcPa dstPa : Nat) :
    CopyWindowOff copyPt (copyChunk copyPt st srcPa dstPa) := by
  rintro f i ⟨rfl, hi⟩
  unfold copyChunk Paging.pteClear
  rw [Paging.tables_setEntry]
  split
  · rfl
  · next hne =>
      rcases hi with rfl | rfl
      · rw [Paging.tables_setEntry, if_pos ⟨rfl, rfl⟩]
      · exact absurd ⟨rfl, rfl⟩ hne

/-- Where byte `i` of an area is. -/
def vmaPa (st : Paging) (mm : AddressSpace) (vma : Vma) (i : Nat) : Option Nat :=
  mmVaToPa st mm ((vma.baseVa + i) % 2 ^ 32)

/-- The bytes of a page lie behind one another. -/
theorem vmaPa_page (st : Paging) (mm : AddressSpace) (vma : Vma) (offset : Nat) {k : Nat}
    (hk : (vma.baseVa + offset) % 2 ^ 32 % pageSize + k < pageSize) :
    vmaPa st mm vma (offset + k) =
      (mmVaToPa st mm ((vma.baseVa + offset) % 2 ^ 32 - (vma.baseVa + offset) % 2 ^ 32 % pageSize)).map
        (· + ((vma.baseVa + offset) % 2 ^ 32 % pageSize + k)) := by
  have hva : (vma.baseVa + (offset + k)) % 2 ^ 32 = (vma.baseVa + offset) % 2 ^ 32 + k := by
    simp only [pageSize] at hk
    omega
  rw [vmaPa, hva]
  generalize (vma.baseVa + offset) % 2 ^ 32 = va at hk ⊢
  have hpde : pdeIndex (va + k) = pdeIndex (va - va % pageSize) := by
    simp only [pdeIndex, vmPtCoversBytes, mb, pageSize] at hk ⊢
    omega
  have hpte : pteIndex (va + k) = pteIndex (va - va % pageSize) := by
    simp only [pteIndex, pageSize] at hk ⊢
    omega
  have hmod : (va + k) % pageSize = va % pageSize + k := by
    simp only [pageSize] at hk ⊢
    omega
  have hbase : (va - va % pageSize) % pageSize = 0 := by
    simp only [pageSize]
    omega
  unfold mmVaToPa
  rw [hpde, hpte, hmod, hbase]
  dsimp only
  split
  · rfl
  · split
    · rfl
    · rw [Option.map_some, Nat.add_zero]

/-- What the window shows of a page. -/
theorem windowPa_armed (st : Paging) (copyPt srcPa dstPa off : Nat) (h : off < pageSize) :
    windowPa (copyArmed copyPt st srcPa dstPa) copyPt (copySrcVa + off) =
      some (srcPa / pageSize * pageSize + off) ∧
    windowPa (copyArmed copyPt st srcPa dstPa) copyPt (copyDstVa + off) =
      some (dstPa / pageSize * pageSize + off) := by
  have hsrc : pteIndex (copySrcVa + off) = 0 := by
    simp only [pteIndex, copySrcVa, pageSize] at h ⊢
    omega
  have hdst : pteIndex (copyDstVa + off) = 1 := by
    simp only [pteIndex, copyDstVa, pageSize] at h ⊢
    omega
  have hsrcOff : (copySrcVa + off) % pageSize = off := by
    simp only [copySrcVa, pageSize] at h ⊢
    omega
  have hdstOff : (copyDstVa + off) % pageSize = off := by
    simp only [copyDstVa, pageSize] at h ⊢
    omega
  have hentry : pteIndex copySrcVa = 0 ∧ pteIndex copyDstVa = 1 := by decide
  have hsrcEntry : (copyArmed copyPt st srcPa dstPa).tables copyPt 0 =
      { present := true, writable := false, user := false, frame := srcPa / pageSize } := by
    unfold copyArmed copyPteSet
    rw [hentry.1, hentry.2, Paging.tables_setEntry, if_neg (by omega), Paging.tables_setEntry,
      if_pos ⟨rfl, rfl⟩]
  have hdstEntry : (copyArmed copyPt st srcPa dstPa).tables copyPt 1 =
      { present := true, writable := true, user := false, frame := dstPa / pageSize } := by
    unfold copyArmed copyPteSet
    rw [hentry.1, hentry.2, Paging.tables_setEntry, if_pos ⟨rfl, rfl⟩]
  unfold windowPa
  rw [hsrc, hdst, hsrcOff, hdstOff, hsrcEntry, hdstEntry]
  exact ⟨rfl, rfl⟩

/-- Inside of one page on both sides nothing faults. -/
theorem windowMemcpy_armed (st : Paging) (copyPt srcPa dstPa : Nat) (mem : PhysMem)
    {srcOff dstOff n : Nat} (hsrc : srcOff + n ≤ pageSize) (hdst : dstOff + n ≤ pageSize) :
    windowMemcpy (copyArmed copyPt st srcPa dstPa) copyPt (copyDstVa + dstOff) (copySrcVa + srcOff)
        mem n =
      some (transfer (fun i => dstPa / pageSize * pageSize + (dstOff + i))
        (fun i => srcPa / pageSize * pageSize + (srcOff + i)) mem n) := by
  induction n with
  | zero => rfl
  | succ n ih =>
      rw [windowMemcpy, ih (by omega) (by omega)]
      simp only [Option.bind_eq_bind, Option.bind_some]
      rw [Nat.add_assoc, Nat.add_assoc,
        (windowPa_armed st copyPt srcPa dstPa (srcOff + n) (by omega)).1,
        (windowPa_armed st copyPt srcPa dstPa (dstOff + n) (by omega)).2]
      rfl

theorem mmVaToPa_mod {mm : AddressSpace} {va pa : Nat} (h : mmVaToPa st mm va = some pa) :
    pa % pageSize = va % pageSize := by
  unfold mmVaToPa at h
  dsimp only at h
  split at h
  · cases h
  · split at h
    · cases h
    · obtain rfl := Option.some.inj h
      rw [Nat.add_comm, Nat.add_mul_mod_self_right, Nat.mod_mod]

/-- The page of a byte that is mapped. -/
theorem exists_page {mm : AddressSpace} {vma : Vma} {offset pa : Nat}
    (h : vmaPa st mm vma offset = some pa) :
    ∃ page, mmVaToPa st mm ((vma.baseVa + offset) % 2 ^ 32 -
        (vma.baseVa + offset) % 2 ^ 32 % pageSize) = some page ∧
      page / pageSize * pageSize = page ∧ page + (vma.baseVa + offset) % 2 ^ 32 % pageSize = pa := by
  have hlt := Nat.mod_lt ((vma.baseVa + offset) % 2 ^ 32) (show pageSize > 0 by decide)
  have hbyte := vmaPa_page st mm vma offset (k := 0) (by omega)
  rw [Nat.add_zero, Nat.add_zero, h] at hbyte
  obtain ⟨page, hpage, hpa⟩ := Option.map_eq_some_iff.mp hbyte.symm
  refine ⟨page, hpage, ?_, hpa⟩
  have hmod := mmVaToPa_mod hpage
  simp only [pageSize] at hmod ⊢
  omega

section Loop

variable {destMm srcMm : AddressSpace} {destVma srcVma : Vma} {length offset : Nat} {mem : PhysMem}

theorem mmCopyPages_end (h : ¬ offset < length) :
    mmCopyPages copyPt destMm srcMm destVma srcVma length offset st mem = .ok (st, mem) := by
  rw [mmCopyPages, if_neg h]

theorem page_eq_none {mm : AddressSpace} {vma : Vma} (h : vmaPa st mm vma offset = none) :
    mmVaToPa st mm ((vma.baseVa + offset) % 2 ^ 32 -
      (vma.baseVa + offset) % 2 ^ 32 % pageSize) = none := by
  have hlt := Nat.mod_lt ((vma.baseVa + offset) % 2 ^ 32) (show pageSize > 0 by decide)
  have hbyte := vmaPa_page st mm vma offset (k := 0) (by omega)
  rw [Nat.add_zero, h] at hbyte
  exact Option.map_eq_none_iff.mp hbyte.symm

theorem mmCopyPages_source (h : offset < length) (hsrc : vmaPa st srcMm srcVma offset = none) :
    mmCopyPages copyPt destMm srcMm destVma srcVma length offset st mem =
      .error "mm_copy_vma: source VA not mapped" := by
  rw [mmCopyPages, if_pos h]
  dsimp only
  rw [page_eq_none hsrc]

theorem mmCopyPages_dest {srcPa : Nat} (h : offset < length)
    (hsrc : vmaPa st srcMm srcVma offset = some srcPa)
    (hdst : vmaPa st destMm destVma offset = none) :
    mmCopyPages copyPt destMm srcMm destVma srcVma length offset st mem =
      .error "mm_copy_vma: dest VA not mapped" := by
  obtain ⟨page, hpage, -, -⟩ := exists_page hsrc
  rw [mmCopyPages, if_pos h]
  dsimp only
  rw [hpage, page_eq_none hdst]

/-- One round copies some bytes, all of them in the pages of the first. -/
theorem mmCopyPages_chunk (copyPt : Nat) (mem : PhysMem) {srcPa dstPa : Nat} (h : offset < length)
    (hsrc : vmaPa st srcMm srcVma offset = some srcPa)
    (hdst : vmaPa st destMm destVma offset = some dstPa) :
    ∃ n st', 0 < n ∧ offset + n ≤ length ∧
      (∀ k < n, vmaPa st srcMm srcVma (offset + k) = some (srcPa + k)) ∧
      (∀ k < n, vmaPa st destMm destVma (offset + k) = some (dstPa + k)) ∧
      Paging.SameOff copyPt st st' ∧ CopyWindowOff copyPt st' ∧
      mmCopyPages copyPt destMm srcMm destVma srcVma length offset st mem =
        mmCopyPages copyPt destMm srcMm destVma srcVma length (offset + n) st'
          (transfer (fun i => dstPa + i) (fun i => srcPa + i) mem n) := by
  obtain ⟨srcPage, hsrcPage, hsrcAligned, rfl⟩ := exists_page hsrc
  obtain ⟨dstPage, hdstPage, hdstAligned, rfl⟩ := exists_page hdst
  have hsrcByte {k : Nat} := vmaPa_page st srcMm srcVma offset (k := k)
  have hdstByte {k : Nat} := vmaPa_page st destMm destVma offset (k := k)
  have hsrcLt := Nat.mod_lt ((srcVma.baseVa + offset) % 2 ^ 32) (show pageSize > 0 by decide)
  have hdstLt := Nat.mod_lt ((destVma.baseVa + offset) % 2 ^ 32) (show pageSize > 0 by decide)
  rw [hsrcPage] at hsrcByte
  rw [hdstPage] at hdstByte
  rw [mmCopyPages, if_pos h]
  dsimp only
  rw [hsrcPage, hdstPage]
  dsimp only
  generalize (srcVma.baseVa + offset) % 2 ^ 32 % pageSize = srcOff at *
  generalize (destVma.baseVa + offset) % 2 ^ 32 % pageSize = dstOff at *
  rw [← copyArmed, windowMemcpy_armed st copyPt srcPage dstPage mem (by omega) (by omega),
    hsrcAligned, hdstAligned]
  refine ⟨min (min (pageSize - srcOff) (pageSize - dstOff)) (length - offset), _, ?_, ?_, ?_, ?_,
    copyChunk_sameOff copyPt st srcPage dstPage, copyChunk_off copyPt st srcPage dstPage, ?_⟩
  · omega
  · omega
  · intro k hk
    rw [hsrcByte (by omega), Option.map_some, Nat.add_assoc]
  · intro k hk
    rw [hdstByte (by omega), Option.map_some, Nat.add_assoc]
  · simp only [Nat.add_assoc]
    rfl

/-- Whatever has been copied, only the copy window is written, and it is off again. -/
theorem mmCopyPages_sameOff {mem' : PhysMem} (hoff : CopyWindowOff copyPt st)
    (h : mmCopyPages copyPt destMm srcMm destVma srcVma length offset st mem = .ok (st', mem')) :
    Paging.SameOff copyPt st st' ∧ CopyWindowOff copyPt st' := by
  induction hleft : length - offset using Nat.strong_induction_on generalizing offset st mem with
  | _ left ih =>
      rcases Nat.lt_or_ge offset length with hlt | hge
      · cases hsrc : vmaPa st srcMm srcVma offset with
        | none =>
            rw [mmCopyPages_source hlt hsrc] at h
            cases h
        | some srcPa =>
            cases hdst : vmaPa st destMm destVma offset with
            | none =>
                rw [mmCopyPages_dest hlt hsrc hdst] at h
                cases h
            | some dstPa =>
                obtain ⟨n, st₁, hpos, -, -, -, hsame, hoff₁, hround⟩ :=
                  mmCopyPages_chunk copyPt mem hlt hsrc hdst
                rw [hround] at h
                obtain ⟨hrest, hoff'⟩ := ih _ (by omega) hoff₁ h rfl
                exact ⟨hsame.trans hrest, hoff'⟩
      · rw [mmCopyPages_end (by omega)] at h
        cases h
        exact ⟨.refl _, hoff⟩

end Loop

section Vma

variable {destMm srcMm : AddressSpace} {destVma srcVma : Vma} {length : Nat} {src dst : Nat → Nat}

end Vma

end Window

end Punix
