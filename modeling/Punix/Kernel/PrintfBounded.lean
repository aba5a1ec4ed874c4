import Punix.Kernel.FormatPieces

/-!
`k_vsnprintf` with any buffer. It returns, and stores below `size` only. But a string or a number
that does not fit is laid around the buffer, so that its end is where the begin of the text
should be.
-/

namespace Punix

/-- Each directive has its conversion. -/
def CompleteFormat (fmt : List UInt8) : Prop := ¬ EndsInside kernelFormatter fmt

/-- There is no `%f` in the kernel. -/
def noFloat : FloatPuts := fun _ _ => []

/-- The text without a bound. -/
def kernelText (ap : VaList) (fmt : List UInt8) : List UInt8 :=
  piecesText kernelFormatter ap noFloat 0 (pieces kernelFormatter fmt)

/-- As much of the text as there is room for, and a NUL. -/
structure TruncatedText (text : List UInt8) (size : BitVec 32) (p : Printed) : Prop where
  bytes : ∀ n < min text.length (size.toNat - 1), ∀ c, text[n]? = some c → p.buf n = c
  nul : p.buf (min text.length (size.toNat - 1)) = 0

/-- Nothing is stored from `size` on. -/
def StoresBelow (buf : Nat → UInt8) (size : BitVec 32) (p : Printed) : Prop :=
  ∀ i, size.toNat ≤ i → p.buf i = buf i

/-- Behind `n` characters, every piece that begins within the `room` ends there, too, or there is
no loop over its characters; and the characters of none are `2 ^ 32` or more. -/
def UncutFrom (f : Formatter) (ap : VaList) (float : FloatPuts) (room : Nat) :
    Nat → Nat → List Piece → Prop
  | _, _, [] => True
  | i, n, p :: ps =>
      n < room →
        (n + (p.puts f ap float i).1.length ≤ room ∨
          (∀ q ∈ (p.puts f ap float i).1, q.steps = false) ∧
            n + (p.puts f ap float i).1.length < 2 ^ 32) ∧
        UncutFrom f ap float room (i + (p.puts f ap float i).2)
          (n + (p.puts f ap float i).1.length) ps

/-- No string and no number is cut by the end of the buffer. -/
def Uncut (ap : VaList) (fmt : List UInt8) (size : BitVec 32) : Prop :=
  UncutFrom kernelFormatter ap noFloat (size.toNat - 1) 0 0 (pieces kernelFormatter fmt)

/-- What is put since the last cut fills the buffer, and is the same as what belongs there. -/
def Refilled (ap : VaList) (fmt : List UInt8) (size : BitVec 32) : Prop :=
  size.toNat - 1 ≤ (lastLap kernelFormatter ap noFloat size fmt).length ∧
    (lastLap kernelFormatter ap noFloat size fmt).take (size.toNat - 1) =
      (kernelText ap fmt).take (size.toNat - 1)

variable {f : Formatter} {ap : VaList} {float : FloatPuts} {size : BitVec 32} {st : PrintState}
  {fmt : List UInt8} {ps : List Piece} {room : Nat}

theorem convert_isSome (hf : f.precision = false) (ap : VaList) (i : Nat) (flags : PrintFlags)
    (conv : UInt8) : (convert f ap i flags conv).isSome := by
  unfold convert
  simp only [hf, Bool.false_eq_true, false_and, if_false]
  repeat' split
  all_goals rfl

/-- Without `%f` the loop returns for a format whose directives are complete. -/
theorem vsnprintfLoop_pieces (hf : f.precision = false) {fuel : Nat} (hfuel : fmt.length ≤ fuel)
    (hcomplete : (piecesFrom f fuel fmt).2 = false) (st : PrintState) :
    vsnprintfLoop f ap size fuel fmt st =
      some (putPieces f ap float size (piecesFrom f fuel fmt).1 st) := by
  induction fuel generalizing fmt st with
  | zero =>
      obtain rfl := List.length_eq_zero_iff.mp (Nat.le_zero.mp hfuel)
      rfl
  | succ fuel ih =>
      cases fmt with
      | nil => rfl
      | cons c fmt =>
          have hlen : fmt.length ≤ fuel := Nat.le_of_succ_le_succ hfuel
          rcases Classical.em (st.pos < size - 1) with hroom | hfull
          · rcases eq_or_ne c percent with rfl | hliteral
            · rcases eq_or_ne fmt [] with rfl | hne
              · rw [vsnprintfLoop, if_neg (not_not.mpr hroom)]
                rfl
              · rcases hflags : parseFlags f fmt with ⟨flags, _ | ⟨conv, rest⟩⟩
                · rw [piecesFrom_inside hne hflags] at hcomplete
                  cases hcomplete
                · rw [piecesFrom_directive hne hflags] at hcomplete ⊢
                  have hsuffix := parseFlags_suffix f fmt
                  rw [hflags] at hsuffix
                  have hrest : rest <:+ fmt := (List.suffix_cons conv rest).trans hsuffix
                  obtain ⟨x, hx⟩ := Option.isSome_iff_exists.mp
                    (convert_isSome hf ap st.taken flags conv)
                  have hput : putPiece f ap float size (.directive fmt flags conv) st =
                      { st.placeAll size x.1 with taken := st.taken + x.2 } := by
                    rw [putPiece, Piece.puts, hx, Option.getD_some]
                  rw [vsnprintfLoop_directive hroom hne hflags hx,
                    putPieces_cons f ap float hroom, hput]
                  exact ih (hrest.length_le.trans hlen) hcomplete _
            · rw [piecesFrom_literal hliteral] at hcomplete ⊢
              rw [vsnprintfLoop_literal hroom hliteral, putPieces_cons f ap float hroom]
              exact ih hlen hcomplete _
          · rw [vsnprintfLoop_full hfull, putPieces_full f ap float hfull]

theorem length_layPut_le (room : Nat) (lap : List UInt8) (q : Put) :
    (layPut room lap q).length ≤ lap.length + 1 := by
  unfold layPut
  split
  · exact Nat.succ_le_succ (Nat.zero_le _)
  · split
    · exact Nat.zero_le _
    · exact (List.length_append ..).le

theorem length_lay_le (room : Nat) (lap : List UInt8) (qs : List Put) :
    (lay room lap qs).length ≤ lap.length + qs.length := by
  induction qs generalizing lap with
  | nil => exact le_rfl
  | cons q qs ih =>
      have hfirst := length_layPut_le room lap q
      have hrest := ih (layPut room lap q)
      rw [List.length_cons]
      change (lay room (layPut room lap q) qs).length ≤ _
      omega

/-- A lap is no longer than the text. -/
theorem length_layPieces_le (f : Formatter) (ap : VaList) (float : FloatPuts) (room i : Nat)
    (ps : List Piece) (lap : List UInt8) : (layPieces f ap float room i ps lap).length ≤
      lap.length + (piecesText f ap float i ps).length := by
  induction ps generalizing i lap with
  | nil => exact Nat.le_add_right _ _
  | cons p ps ih =>
      rw [layPieces, piecesText, List.length_append, List.length_map]
      split
      · have hfirst := length_lay_le room lap (p.puts f ap float i).1
        have hrest := ih (i + (p.puts f ap float i).2) (lay room lap (p.puts f ap float i).1)
        omega
      · exact Nat.le_add_right _ _

/-- Without a loop the characters are only counted. -/
theorem lay_of_plain {lap : List UInt8} {qs : List Put} (hplain : ∀ q ∈ qs, q.steps = false)
    (h : lap.length + qs.length < 2 ^ 32) : lay room lap qs = lap ++ qs.map Put.char := by
  induction qs generalizing lap with
  | nil => exact (List.append_nil lap).symm
  | cons q qs ih =>
      rw [List.length_cons] at h
      have hfirst := hplain q List.mem_cons_self
      have hnext : layPut room lap q = lap ++ [q.char] := by
        rw [layPut, if_neg fun h => Bool.false_ne_true (hfirst.symm.trans h.1),
          if_neg (by omega)]
      change lay room (layPut room lap q) qs = _
      rw [hnext, ih (fun q hq => hplain q (List.mem_cons_of_mem _ hq))
        (by rw [List.length_append, List.length_singleton]; omega), List.map_cons,
        List.append_assoc, List.singleton_append]

/-- Without a cut the lap is the begin of the text. -/
theorem take_layPieces (hroom : room < 2 ^ 32) {i : Nat} {lap : List UInt8}
    (h : UncutFrom f ap float room i lap.length ps) :
    (layPieces f ap float room i ps lap).take room =
      (lap ++ piecesText f ap float i ps).take room := by
  induction ps generalizing i lap with
  | nil => rw [layPieces, piecesText, List.append_nil]
  | cons p ps ih =>
      rw [layPieces, piecesText]
      split
      · next hlt =>
          obtain ⟨hpiece, hrest⟩ := h hlt
          have hlay : lay room lap (p.puts f ap float i).1 =
              lap ++ (p.puts f ap float i).1.map Put.char := by
            rcases hpiece with hfit | ⟨hplain, hcount⟩
            · exact lay_of_fits hroom hfit
            · exact lay_of_plain hplain hcount
          rw [hlay, ih (by rwa [List.length_append, List.length_map]), List.append_assoc]
      · next hge => rw [List.take_append_of_le_length (Nat.not_lt.mp hge)]

/-- A text that fits is not cut. -/
theorem uncutFrom_of_fits {i n : Nat} (h : n + (piecesText f ap float i ps).length ≤ room) :
    UncutFrom f ap float room i n ps := by
  induction ps generalizing i n with
  | nil => trivial
  | cons p ps ih =>
      rw [piecesText, List.length_append, List.length_map] at h
      intro _
      exact ⟨.inl (by omega), ih (by omega)⟩

theorem uncut_of_fits (h : (kernelText ap fmt).length ≤ size.toNat - 1) : Uncut ap fmt size := by
  apply uncutFrom_of_fits
  rw [Nat.zero_add]
  exact h

theorem take_lastLap (hsize : 0 < size) (h : Uncut ap fmt size) :
    (lastLap kernelFormatter ap noFloat size fmt).take (size.toNat - 1) =
      (kernelText ap fmt).take (size.toNat - 1) := by
  have hlast := toNat_size_sub_one hsize
  rw [Uncut, ← hlast] at h
  rw [← hlast]
  exact @take_layPieces _ _ _ _ _ (BitVec.isLt _) 0 [] h

section Calls

variable {buf : Nat → UInt8}

/-- The buffer behind a call, with the lap that the loop ends in. -/
theorem kVsnprintf_lap (hsize : 0 < size) (hcomplete : CompleteFormat fmt) (ap : VaList)
    (buf : Nat → UInt8) :
    ∃ p st, kVsnprintf buf size fmt ap = some p ∧
      p.buf = Function.update st.buf
        (min (lastLap kernelFormatter ap noFloat size fmt).length (size.toNat - 1)) 0 ∧
      Laid size (lastLap kernelFormatter ap noFloat size fmt) st ∧
      ∀ i, size.toNat - 1 ≤ i → st.buf i = buf i := by
  have hlast := toNat_size_sub_one hsize
  have hloop : vsnprintfLoop kernelFormatter ap size fmt.length fmt (.start buf) =
      some (putPieces kernelFormatter ap noFloat size (pieces kernelFormatter fmt) (.start buf)) :=
    vsnprintfLoop_pieces rfl le_rfl (Bool.eq_false_iff.mpr hcomplete) _
  have hlaid : Laid size (lastLap kernelFormatter ap noFloat size fmt) _ :=
    (laid_start size buf).putPieces (pieces kernelFormatter fmt)
  refine ⟨_, _, vsnprintfWith_of_loop hsize hloop, ?_, hlaid, ?_⟩
  · rw [← hlaid.pos]
  · rw [← hlast]
    exact fun i hi => putPieces_outside hi _ _

/-- Every call returns, and stores below `size`. -/
theorem kVsnprintf_storesBelow (hsize : 0 < size) (hcomplete : CompleteFormat fmt) (ap : VaList)
    (buf : Nat → UInt8) : ∃ p, kVsnprintf buf size fmt ap = some p ∧ StoresBelow buf size p := by
  obtain ⟨p, st, hp, hbuf, -, houtside⟩ := kVsnprintf_lap hsize hcomplete ap buf
  have hpositive : 0 < size.toNat := BitVec.lt_def.mp hsize
  refine ⟨p, hp, ?_⟩
  intro i hi
  rw [hbuf, Function.update_of_ne (by omega)]
  exact houtside i (by omega)

/-- A buffer that holds the begin of the text holds that of the last lap. -/
theorem take_lastLap_of_truncated (hsize : 0 < size) (hcomplete : CompleteFormat fmt)
    (h : ∀ buf, ∃ p, kVsnprintf buf size fmt ap = some p ∧
      TruncatedText (kernelText ap fmt) size p) :
    (lastLap kernelFormatter ap noFloat size fmt).take (size.toNat - 1) =
      (kernelText ap fmt).take (size.toNat - 1) := by
  have hlast := toNat_size_sub_one hsize
  -- a buffer without a NUL
  obtain ⟨p, hp, hbytes, hnul⟩ := h fun _ => 1
  obtain ⟨p', st, hp', hbuf, hlaid, houtside⟩ := kVsnprintf_lap hsize hcomplete ap fun _ => 1
  obtain rfl := Option.some.inj (hp'.symm.trans hp)
  have hle : (lastLap kernelFormatter ap noFloat size fmt).length ≤
      (kernelText ap fmt).length := by
    have hless := length_layPieces_le kernelFormatter ap noFloat (size - 1).toNat 0
      (pieces kernelFormatter fmt) []
    rwa [List.length_nil, Nat.zero_add] at hless
  rcases Nat.lt_or_ge (lastLap kernelFormatter ap noFloat size fmt).length (size.toNat - 1) with
    hshort | hfull
  · -- the NUL tells where the lap ends, which is the end of the text
    apply take_lastLap hsize
    apply uncut_of_fits
    by_contra hlong
    rw [Nat.min_eq_right (Nat.not_le.mp hlong).le, hbuf, Nat.min_eq_left hshort.le,
      Function.update_of_ne hshort.ne', houtside _ le_rfl] at hnul
    exact absurd hnul (by decide)
  · apply List.ext_getElem?
    intro n
    rcases Nat.lt_or_ge n (size.toNat - 1) with hn | hn
    · have hlap := List.getElem?_eq_getElem (hn.trans_le hfull)
      have htext := List.getElem?_eq_getElem (hn.trans_le (hfull.trans hle))
      have hbyte := hbytes n (lt_min (hn.trans_le (hfull.trans hle)) hn) _ htext
      rw [hbuf, Nat.min_eq_right hfull, Function.update_of_ne hn.ne,
        hlaid.bytes n _ (hlast ▸ hn) hlap] at hbyte
      rw [List.getElem?_take_of_lt hn, List.getElem?_take_of_lt hn, hlap, htext, hbyte]
    · rw [List.getElem?_take_eq_none hn, List.getElem?_take_eq_none hn]

theorem truncated_of_take_lastLap (hsize : 0 < size) (hcomplete : CompleteFormat fmt)
    (h : (lastLap kernelFormatter ap noFloat size fmt).take (size.toNat - 1) =
      (kernelText ap fmt).take (size.toNat - 1)) (buf : Nat → UInt8) :
    ∃ p, kVsnprintf buf size fmt ap = some p ∧ TruncatedText (kernelText ap fmt) size p := by
  have hlast := toNat_size_sub_one hsize
  obtain ⟨p, st, hp, hbuf, hlaid, -⟩ := kVsnprintf_lap hsize hcomplete ap buf
  have hlength := congrArg List.length h
  rw [List.length_take, List.length_take, Nat.min_comm, Nat.min_comm (size.toNat - 1)] at hlength
  refine ⟨p, hp, ?_, ?_⟩
  · intro n hn c hc
    have hlap : (lastLap kernelFormatter ap noFloat size fmt)[n]? = some c := by
      have hget := congrArg (fun s : List UInt8 => s[n]?) h
      simp only [List.getElem?_take_of_lt (show n < size.toNat - 1 by omega)] at hget
      exact hget.trans hc
    rw [hbuf, hlength, Function.update_of_ne hn.ne]
    exact hlaid.bytes n c (by omega) hlap
  · rw [hbuf, hlength]
    exact Function.update_self _ _ _

/-- No more than a coincidence leaves the begin of the text when a string or a number is cut. -/
theorem truncated_iff_refilled (hsize : 0 < size) (hcomplete : CompleteFormat fmt)
    (hcut : ¬ Uncut ap fmt size) :
    (∀ buf, ∃ p, kVsnprintf buf size fmt ap = some p ∧
        TruncatedText (kernelText ap fmt) size p) ↔
      Refilled ap fmt size := by
  constructor
  · intro h
    have htake := take_lastLap_of_truncated hsize hcomplete h
    rcases Nat.lt_or_ge (lastLap kernelFormatter ap noFloat size fmt).length (size.toNat - 1) with
      hshort | hfull
    · refine absurd ?_ hcut
      apply uncut_of_fits
      have hlength := congrArg List.length htake
      rw [List.length_take, List.length_take, Nat.min_eq_right hshort.le] at hlength
      omega
    · exact ⟨hfull, htake⟩
  · rintro ⟨-, htake⟩
    exact truncated_of_take_lastLap hsize hcomplete htake

/-- For complete formats every call returns and stores below `size`. It leaves the begin of the
text when no string and no number is cut, and otherwise only if what follows the cut is the
same again. -/
theorem kVsnprintf_truncates_iff (hsize : 0 < size) (hcomplete : CompleteFormat fmt)
    (ap : VaList) :
    (∀ buf, ∃ p, kVsnprintf buf size fmt ap = some p ∧ StoresBelow buf size p) ∧
    (Uncut ap fmt size → ∀ buf, ∃ p, kVsnprintf buf size fmt ap = some p ∧
      TruncatedText (kernelText ap fmt) size p) ∧
    (¬ Uncut ap fmt size →
      ((∀ buf, ∃ p, kVsnprintf buf size fmt ap = some p ∧
          TruncatedText (kernelText ap fmt) size p) ↔
        Refilled ap fmt size)) := by
  refine ⟨kVsnprintf_storesBelow hsize hcomplete ap, ?_, truncated_iff_refilled hsize hcomplete⟩
  intro huncut
  exact truncated_of_take_lastLap hsize hcomplete (take_lastLap hsize huncut)

/-- The number fits, and the text may be cut in the letters behind it. -/
theorem kVsnprintf_truncates_number : Uncut minusThree (cstr "%dab") 4 ∧
    (∀ buf, ∃ p, kVsnprintf buf 4 (cstr "%dab") minusThree = some p ∧ StoresBelow buf 4 p) ∧
    ∀ buf, ∃ p, kVsnprintf buf 4 (cstr "%dab") minusThree = some p ∧
      TruncatedText (kernelText minusThree (cstr "%dab")) 4 p := by
  have huncut : Uncut minusThree (cstr "%dab") 4 := by
    refine fun _ => ⟨.inl (by decide +kernel), fun _ => ⟨.inl (by decide +kernel), fun h => ?_⟩⟩
    exact absurd h (by decide +kernel)
  have hsize : (0 : BitVec 32) < 4 := by decide
  have hcomplete : CompleteFormat (cstr "%dab") := by
    unfold CompleteFormat EndsInside
    decide +kernel
  obtain ⟨hbelow, htruncates, _⟩ := kVsnprintf_truncates_iff hsize hcomplete minusThree
  exact ⟨huncut, hbelow, htruncates huncut⟩

/-- A string that goes on with what it begins with. -/
example : Refilled ⟨fun _ => 1, fun _ => cstr "abab"⟩ (cstr "%s") 3 :=
  ⟨by decide +kernel, by decide +kernel⟩

def sixLetters : VaList where
  words _ := 1
  strings _ := cstr "abcdef"

/-- Of the six letters the last three are in the buffer. -/
theorem kVsnprintf_cut : CompleteFormat (cstr "%s") ∧
    kernelText sixLetters (cstr "%s") = cstr "abcdef" ∧
    (∀ buf, ∃ p, kVsnprintf buf 4 (cstr "%s") sixLetters = some p ∧
      p.buf 0 = 'd'.toUInt8 ∧ p.buf 1 = 'e'.toUInt8 ∧ p.buf 2 = 'f'.toUInt8 ∧ p.buf 3 = 0) ∧
    ¬ ∃ p, kVsnprintf (fun _ => 1) 4 (cstr "%s") sixLetters = some p ∧
      TruncatedText (kernelText sixLetters (cstr "%s")) 4 p := by
  have hcomplete : CompleteFormat (cstr "%s") := by
    unfold CompleteFormat EndsInside
    decide +kernel
  have htext : kernelText sixLetters (cstr "%s") = cstr "abcdef" := by decide +kernel
  have hlap : lastLap kernelFormatter sixLetters noFloat 4 (cstr "%s") = cstr "def" := by
    decide +kernel
  have hresult (buf : Nat → UInt8) : ∃ p, kVsnprintf buf 4 (cstr "%s") sixLetters = some p ∧
      p.buf 0 = 'd'.toUInt8 ∧ p.buf 1 = 'e'.toUInt8 ∧ p.buf 2 = 'f'.toUInt8 ∧ p.buf 3 = 0 := by
    have hsize : (0 : BitVec 32) < 4 := by decide
    obtain ⟨p, st, hp, hbuf, hlaid, -⟩ := kVsnprintf_lap hsize hcomplete sixLetters buf
    rw [hlap] at hbuf hlaid
    refine ⟨p, hp, ?_, ?_, ?_, ?_⟩
    · rw [hbuf]
      exact hlaid.bytes 0 _ (by decide) rfl
    · rw [hbuf]
      exact hlaid.bytes 1 _ (by decide) rfl
    · rw [hbuf]
      exact hlaid.bytes 2 _ (by decide) rfl
    · rw [hbuf]
      rfl
  refine ⟨hcomplete, htext, hresult, ?_⟩
  rintro ⟨p, hp, hbytes, -⟩
  obtain ⟨p', hp', hfirst, -⟩ := hresult fun _ => 1
  obtain rfl := Option.some.inj (hp'.symm.trans hp)
  rw [htext] at hbytes
  have hshould := hbytes 0 (by decide) 'a'.toUInt8 rfl
  rw [hfirst] at hshould
  exact absurd hshould (by decide)

end Calls

end Punix
