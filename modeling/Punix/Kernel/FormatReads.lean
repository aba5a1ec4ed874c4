import Punix.Kernel.FormatPieces

/-!
The reads of the formatters in their format, one by one. A format ends with a NUL; a pointer
that has been moved behind it must not be read.
-/

namespace Punix

/-- A pointer into a format: what is left before the NUL, or nothing behind the NUL. -/
abbrev FmtPtr := Option (List UInt8)

namespace FmtPtr

/-- `*fmt`. -/
def deref : FmtPtr → Option UInt8
  | none => none
  | some fmt => some (fmt.headD 0)

/-- `fmt++`. -/
def advance : FmtPtr → FmtPtr
  | some (_ :: fmt) => some fmt
  | _ => none

/-- `if (*fmt == c)`, with `fmt++` if so. -/
def accept (c : UInt8) (fmt : FmtPtr) : Option (Bool × FmtPtr) := do
  let d ← fmt.deref
  if d = c then some (true, fmt.advance) else some (false, fmt)

/-- The loop over digits, which ends at the NUL at the latest. -/
def number : FmtPtr → Option (BitVec 32 × FmtPtr)
  | none => none
  | some fmt => some (accumulateDigits 0 fmt, some (fmt.dropWhile isDigit))

end FmtPtr

/-- `if (*fmt == '.')`, in the C library only. -/
def readPrecision (f : Formatter) (fmt : FmtPtr) : Option FmtPtr :=
  if f.precision then do
    let (hasPrecision, fmt) ← fmt.accept dot
    if hasPrecision then
      let (_, fmt) ← fmt.number
      some fmt
    else some fmt
  else some fmt

/-- The modifiers `l` and `ll`, with `is_long_long`. -/
def readLength (fmt : FmtPtr) : Option (Bool × FmtPtr) := do
  let (isLong, fmt) ← fmt.accept 'l'.toUInt8
  if isLong then fmt.accept 'l'.toUInt8 else some (false, fmt)

/-- The modifier `z`, in the C library only. -/
def readSize (f : Formatter) (fmt : FmtPtr) : Option FmtPtr :=
  if f.sizeModifier then do
    let (_, fmt) ← fmt.accept 'z'.toUInt8
    some fmt
  else some fmt

/-- From the character behind the `%` up to the conversion. -/
def readFlags (f : Formatter) (fmt : FmtPtr) : Option (PrintFlags × FmtPtr) := do
  let (zeroPad, fmt) ← fmt.accept digitZero
  let (width, fmt) ← fmt.number
  let fmt ← readPrecision f fmt
  let (isLongLong, fmt) ← readLength fmt
  let fmt ← readSize f fmt
  some (⟨zeroPad, width, isLongLong⟩, fmt)

/-- How the loop ends: it is left, or it reads behind the NUL. -/
inductive ReadOutcome where
  | left (st : PrintState)
  | beyond

/-- The loop over the format with its reads. A directive without a conversion is the `default`
of the `switch`, which puts the NUL and moves behind it. -/
def readLoop (f : Formatter) (ap : VaList) (float : FloatPuts) (size : BitVec 32) :
    Nat → FmtPtr → PrintState → Option ReadOutcome
  | 0, _, _ => none
  | fuel + 1, fmt, st =>
      match fmt.deref with
      | none => some .beyond
      | some c =>
          if c = 0 ∨ ¬ st.pos < size - 1 then some (.left st)
          else if c ≠ percent then readLoop f ap float size fuel fmt.advance (st.putChar size c)
          else
            match fmt.advance.deref with
            | none => some .beyond
            | some c =>
                if c = 0 then some (.left st)
                else
                  match readFlags f fmt.advance with
                  | none => some .beyond
                  | some (flags, rest) =>
                      match rest.deref with
                      | none => some .beyond
                      | some conv =>
                          let (cs, n) := (convert f ap st.taken flags conv).getD
                            (float st.taken (fmt.advance.getD []), 2)
                          match st.puts size cs with
                          | none => none
                          | some put =>
                              readLoop f ap float size fuel rest.advance
                                { put with taken := st.taken + n }

/-- The loop of a call. Every round but the last takes at least one character. -/
def formatReads (f : Formatter) (ap : VaList) (float : FloatPuts) (buf : Nat → UInt8)
    (size : BitVec 32) (fmt : List UInt8) : Option ReadOutcome :=
  readLoop f ap float size (fmt.length + 1) (some fmt) (.start buf)

section Reads

variable {f : Formatter} {ap : VaList} {float : FloatPuts} {size : BitVec 32} {st : PrintState}
  {fmt : List UInt8}

theorem accept_some {c : UInt8} (hc : c ≠ 0) (fmt : List UInt8) :
    FmtPtr.accept c (some fmt) = some (decide (fmt.head? = some c),
      some (if fmt.head? = some c then fmt.tail else fmt)) := by
  cases fmt with
  | nil => exact if_neg hc.symm
  | cons d fmt =>
      change (if d = c then some (true, some fmt) else some (false, some (d :: fmt))) = _
      rcases eq_or_ne d c with rfl | hne
      · rw [if_pos rfl, List.head?_cons, if_pos rfl, decide_eq_true rfl, List.tail_cons]
      · have hhead : (d :: fmt).head? ≠ some c := fun h => hne (Option.some.inj h)
        rw [if_neg hne, if_neg hhead, decide_eq_false hhead]

theorem readPrecision_some (f : Formatter) (fmt : List UInt8) :
    readPrecision f (some fmt) =
      some (some (if f.precision ∧ fmt.head? = some dot then fmt.tail.dropWhile isDigit
        else fmt)) := by
  unfold readPrecision
  split
  · next hprecision =>
      rw [accept_some (by decide), Option.bind_eq_bind, Option.bind_some]
      dsimp only
      rcases Classical.em (fmt.head? = some dot) with hdot | hdot
      · rw [if_pos (decide_eq_true hdot), if_pos hdot, if_pos ⟨hprecision, hdot⟩]
        rfl
      · rw [if_neg (by simpa using hdot), if_neg hdot, if_neg fun h => hdot h.2]
  · next hprecision => rw [if_neg fun h => hprecision h.1]

theorem readLength_some (fmt : List UInt8) :
    readLength (some fmt) =
      let isLong := fmt.head? = some 'l'.toUInt8
      let fmt := if isLong then fmt.tail else fmt
      let isLongLong := isLong ∧ fmt.head? = some 'l'.toUInt8
      some (decide isLongLong, some (if isLongLong then fmt.tail else fmt)) := by
  have hl : 'l'.toUInt8 ≠ 0 := by decide
  unfold readLength
  rw [accept_some hl, Option.bind_eq_bind, Option.bind_some]
  dsimp only
  rcases Classical.em (fmt.head? = some 'l'.toUInt8) with hlong | hshort
  · simp only [hlong, decide_true, if_true, true_and]
    exact accept_some hl fmt.tail
  · simp only [hshort, decide_false, Bool.false_eq_true, if_false, false_and]

theorem readSize_some (f : Formatter) (fmt : List UInt8) :
    readSize f (some fmt) =
      some (some (if f.sizeModifier ∧ fmt.head? = some 'z'.toUInt8 then fmt.tail else fmt)) := by
  unfold readSize
  split
  · next hsize =>
      rw [accept_some (by decide), Option.bind_eq_bind, Option.bind_some]
      simp only [hsize, true_and]
  · next hsize => rw [if_neg fun h => hsize h.1]

/-- The flags are read without going behind the NUL. -/
theorem readFlags_some (f : Formatter) (fmt : List UInt8) :
    readFlags f (some fmt) = some ((parseFlags f fmt).1, some (parseFlags f fmt).2) := by
  have hzero : digitZero ≠ 0 := by decide
  unfold readFlags
  simp only [Option.bind_eq_bind]
  rw [accept_some hzero, Option.bind_some]
  dsimp only
  rw [FmtPtr.number, Option.bind_some]
  dsimp only
  rw [readPrecision_some, Option.bind_some, readLength_some]
  dsimp only
  rw [Option.bind_some, readSize_some, Option.bind_some]
  rfl

section Rounds

variable {c : UInt8} {flags : PrintFlags} {rest : List UInt8} {fuel : Nat}

theorem readLoop_full (h : ¬ st.pos < size - 1) (fmt : List UInt8) :
    readLoop f ap float size (fuel + 1) (some fmt) st = some (.left st) := by
  rw [readLoop]
  exact if_pos (Or.inr h)

theorem readLoop_literal (hroom : st.pos < size - 1) (hc : c ≠ 0) (h : c ≠ percent) :
    readLoop f ap float size (fuel + 1) (some (c :: fmt)) st =
      readLoop f ap float size fuel (some fmt) (st.putChar size c) := by
  have hgo : ¬ (c = 0 ∨ ¬ st.pos < size - 1) := not_or_intro hc (not_not_intro hroom)
  rw [readLoop]
  exact (if_neg hgo).trans (if_pos h)

theorem readLoop_percent (hroom : st.pos < size - 1) :
    readLoop f ap float size (fuel + 1) (some [percent]) st = some (.left st) := by
  have hgo : ¬ (percent = 0 ∨ ¬ st.pos < size - 1) :=
    not_or_intro (by decide) (not_not_intro hroom)
  rw [readLoop]
  exact (if_neg hgo).trans rfl

/-- A directive, with the NUL for a conversion if the format ends inside of it. -/
theorem readLoop_directive (hroom : st.pos < size - 1) (hne : fmt ≠ []) (hnul : 0 ∉ fmt)
    (h : parseFlags f fmt = (flags, rest)) :
    readLoop f ap float size (fuel + 1) (some (percent :: fmt)) st =
      readLoop f ap float size fuel (FmtPtr.advance (some rest))
        (putPiece f ap float size (.directive fmt flags (rest.headD 0)) st) := by
  have hgo : ¬ (percent = 0 ∨ ¬ st.pos < size - 1) :=
    not_or_intro (by decide) (not_not_intro hroom)
  have hflags : readFlags f (some fmt) = some (flags, some rest) := by
    rw [readFlags_some, h]
  have hhead : fmt.headD 0 ≠ 0 := by
    obtain ⟨d, fmt, rfl⟩ := List.exists_cons_of_ne_nil hne
    exact fun hd => hnul (hd ▸ List.mem_cons_self)
  rw [readLoop]
  refine (if_neg hgo).trans ((if_neg (not_not.mpr rfl)).trans ((if_neg hhead).trans ?_))
  have hnext : FmtPtr.advance (some (percent :: fmt)) = some fmt := rfl
  rw [hnext, hflags]
  dsimp only [FmtPtr.deref]
  rw [PrintState.puts_eq (room_pos hroom)]
  rfl

end Rounds

/-- The loop with its reads is the loop over the pieces, and it reads behind the NUL if the
format ends inside of a directive that it gets to. -/
theorem readLoop_pieces {fuel : Nat} (hfuel : fmt.length ≤ fuel) (hnul : 0 ∉ fmt)
    (st : PrintState) :
    readLoop f ap float size (fuel + 1) (some fmt) st =
      some (if (piecesFrom f fuel fmt).2 = true ∧
          (putPieces f ap float size (piecesFrom f fuel fmt).1 st).pos < size - 1
        then .beyond else .left (putPieces f ap float size (piecesFrom f fuel fmt).1 st)) := by
  induction fuel generalizing fmt st with
  | zero =>
      obtain rfl := List.length_eq_zero_iff.mp (Nat.le_zero.mp hfuel)
      rfl
  | succ fuel ih =>
      rcases Classical.em (st.pos < size - 1) with hroom | hfull
      · cases fmt with
        | nil => rfl
        | cons c fmt =>
            have hc : c ≠ 0 := fun h => hnul (h ▸ List.mem_cons_self)
            have hnul' : 0 ∉ fmt := fun h => hnul (List.mem_cons_of_mem c h)
            have hlen : fmt.length ≤ fuel := Nat.le_of_succ_le_succ hfuel
            rcases eq_or_ne c percent with rfl | hliteral
            · rcases eq_or_ne fmt [] with rfl | hne
              · rw [readLoop_percent hroom, piecesFrom_percent]
                rfl
              · rcases hflags : parseFlags f fmt with ⟨flags, _ | ⟨conv, rest⟩⟩
                · -- the format ends inside of the directive
                  rw [readLoop_directive hroom hne hnul' hflags, piecesFrom_inside hne hflags]
                  exact (congrArg some (if_pos ⟨rfl, hroom⟩)).symm
                · have hsuffix := parseFlags_suffix f fmt
                  rw [hflags] at hsuffix
                  have hrest : rest <:+ fmt := (List.suffix_cons conv rest).trans hsuffix
                  rw [readLoop_directive hroom hne hnul' hflags,
                    piecesFrom_directive hne hflags, putPieces_cons f ap float hroom]
                  exact ih (hrest.length_le.trans hlen) (fun h => hnul' (hrest.subset h)) _
            · rw [readLoop_literal hroom hc hliteral, piecesFrom_literal hliteral,
                putPieces_cons f ap float hroom]
              exact ih hlen hnul' _
      · rw [readLoop_full hfull, putPieces_full f ap float hfull, if_neg fun h => hfull h.2]

/-- A call reads no byte of its format behind the NUL. -/
def ReadsWithin (f : Formatter) (ap : VaList) (float : FloatPuts) (buf : Nat → UInt8)
    (size : BitVec 32) (fmt : List UInt8) : Prop :=
  ∃ st, formatReads f ap float buf size fmt = some (.left st)

/-- The buffer is full before the end of the format: laid around it, the text of the pieces
ends at the last place that there is, or behind it. -/
def FullBefore (f : Formatter) (ap : VaList) (float : FloatPuts) (size : BitVec 32)
    (fmt : List UInt8) : Prop :=
  (size - 1).toNat ≤ (lastLap f ap float size fmt).length

/-- A call reads behind the NUL just if the format ends inside of a directive, and the buffer is
not full before. -/
theorem readsWithin_iff (f : Formatter) (ap : VaList) (float : FloatPuts) (buf : Nat → UInt8)
    (size : BitVec 32) (hnul : 0 ∉ fmt) :
    ReadsWithin f ap float buf size fmt ↔
      ¬ EndsInside f fmt ∨ FullBefore f ap float size fmt := by
  have hloop : formatReads f ap float buf size fmt = some (if
      (piecesFrom f fmt.length fmt).2 = true ∧
        (putPieces f ap float size (pieces f fmt) (.start buf)).pos < size - 1
      then .beyond else .left (putPieces f ap float size (pieces f fmt) (.start buf))) :=
    readLoop_pieces le_rfl hnul _
  have hlaid : Laid size (lastLap f ap float size fmt)
      (putPieces f ap float size (pieces f fmt) (.start buf)) :=
    (laid_start size buf).putPieces (pieces f fmt)
  have hwithin : ReadsWithin f ap float buf size fmt ↔ ¬ ((piecesFrom f fmt.length fmt).2 = true ∧
      (putPieces f ap float size (pieces f fmt) (.start buf)).pos < size - 1) := by
    rw [ReadsWithin, hloop]
    constructor
    · rintro ⟨st, hst⟩ hbeyond
      rw [if_pos hbeyond] at hst
      cases Option.some.inj hst
    · intro hleft
      exact ⟨_, congrArg some (if_neg hleft)⟩
  rw [hwithin, not_and_or, hlaid.lt_iff, Nat.not_lt]
  rfl

/-- Both copies stay within their format under this condition only. -/
theorem formatReads_iff (fmt : List UInt8) (hnul : 0 ∉ fmt) (ap : VaList) (float : FloatPuts)
    (buf : Nat → UInt8) (size : BitVec 32) :
    (ReadsWithin kernelFormatter ap float buf size fmt ↔
      ¬ EndsInside kernelFormatter fmt ∨ FullBefore kernelFormatter ap float size fmt) ∧
    (ReadsWithin libcFormatter ap float buf size fmt ↔
      ¬ EndsInside libcFormatter fmt ∨ FullBefore libcFormatter ap float size fmt) :=
  ⟨readsWithin_iff kernelFormatter ap float buf size hnul,
    readsWithin_iff libcFormatter ap float buf size hnul⟩

/-- `%.5` is a directive of the kernel, but only the begin of one of the C library. -/
theorem formatReads_iff_precision :
    (ReadsWithin kernelFormatter minusThree (fun _ _ => []) (fun _ => 0) 16 (cstr "%.5") ↔
      ¬ EndsInside kernelFormatter (cstr "%.5") ∨
        FullBefore kernelFormatter minusThree (fun _ _ => []) 16 (cstr "%.5")) ∧
    (ReadsWithin libcFormatter minusThree (fun _ _ => []) (fun _ => 0) 16 (cstr "%.5") ↔
      ¬ EndsInside libcFormatter (cstr "%.5") ∨
        FullBefore libcFormatter minusThree (fun _ _ => []) 16 (cstr "%.5")) :=
  formatReads_iff (cstr "%.5") (by decide) minusThree (fun _ _ => []) (fun _ => 0) 16

/-- A width with no conversion behind it: both copies read behind the NUL. -/
theorem formatReads_width : 0 ∉ cstr "%5" ∧
    ¬ ReadsWithin kernelFormatter minusThree (fun _ _ => []) (fun _ => 0) 16 (cstr "%5") ∧
    ¬ ReadsWithin libcFormatter minusThree (fun _ _ => []) (fun _ => 0) 16 (cstr "%5") := by
  have hkernel : formatReads kernelFormatter minusThree (fun _ _ => []) (fun _ => 0) 16
      (cstr "%5") = some .beyond := rfl
  have hlibc : formatReads libcFormatter minusThree (fun _ _ => []) (fun _ => 0) 16
      (cstr "%5") = some .beyond := rfl
  refine ⟨by decide, ?_, ?_⟩
  · rintro ⟨st, hst⟩
    rw [hkernel] at hst
    cases Option.some.inj hst
  · rintro ⟨st, hst⟩
    rw [hlibc] at hst
    cases Option.some.inj hst

end Reads

end Punix
