import Punix.Arch.ConsoleAgree
import Punix.Arch.ConsoleRedraw

/-!
The accesses of `console_vga.c` to its two arrays stay inside of them. The functions are
given once more, with a check of each index; no check ever fails, whatever is put to the
console, since the cursor is in a cell and at most eight parameters are counted after
every byte.
-/

namespace Punix

open Lib

section Checked

variable {γ β : Type} (p : Palette γ β)

def vgaPutCellChecked (s : Vga γ β) (c : UInt8) : Option (Vga γ β) :=
  (Cells.storeIn (s.rows * s.cols) s.video (s.cursorRow * s.cols + s.cursorCol)
    (p.entry c s.colours)).map fun video => { s with video := video }

def vgaScrollChecked (s : Vga γ β) : Option (Vga γ β) :=
  let size := s.rows * s.cols
  (Cells.shiftIn size s.video s.cols ((s.rows - 1) * s.cols)).bind fun video =>
    (Cells.fillIn size video ((s.rows - 1) * s.cols) (p.entry blank s.colours) s.cols).map
      fun video => { s with video := video, cursorRow := s.rows - 1, cursorCol := 0 }

def vgaClearChecked (s : Vga γ β) : Option (Vga γ β) :=
  (Cells.fillIn (s.rows * s.cols) s.video 0 (p.entry blank s.colours) (s.cols * s.rows)).map
    fun video => { s with video := video, cursorRow := 0, cursorCol := 0, escState := .none }

/-- `esc_params[i]`. -/
def Vga.paramAt (s : Vga γ β) (i : Nat) : Option (BitVec 32) :=
  if h : i < 8 then some (s.escParams ⟨i, h⟩) else none

/-- `esc_params[i] = x`. -/
def Vga.setParam (s : Vga γ β) (i : Nat) (x : BitVec 32) : Option (Vga γ β) :=
  if h : i < 8 then some { s with escParams := Function.update s.escParams ⟨i, h⟩ x } else none

/-- The first `n` parameters, as `vga_handle_sgr` reads them. -/
def Vga.paramsChecked (s : Vga γ β) : Nat → Option (List (BitVec 32))
  | 0 => some []
  | n + 1 => (s.paramsChecked n).bind fun params => (s.paramAt n).map fun x => params ++ [x]

def vgaDigitChecked (s : Vga γ β) (c : UInt8) : Option (Vga γ β) :=
  let count := if s.escParamCount = 0 then 1 else s.escParamCount
  let idx := count - 1
  let s := { s with escParamCount := count }
  if idx < 8 then
    (s.paramAt idx).bind fun x => s.setParam idx (x * 10 + BitVec.ofNat 32 (c.toNat - 48))
  else some s

def vgaCsiChecked (s : Vga γ β) (c : UInt8) : Option (Vga γ β) :=
  if isParamDigit c then vgaDigitChecked s c
  else if c = semicolon then
    some (if s.escParamCount < 8 then { s with escParamCount := s.escParamCount + 1 } else s)
  else if c = finalM then
    (s.paramsChecked s.escParamCount).map fun params =>
      { s with colours := p.sgr params s.colours, escState := .none }
  else if c = finalH then some { s with cursorRow := 0, cursorCol := 0, escState := .none }
  else if c = finalJ then vgaClearChecked p { s with escState := .none }
  else some (if isFinal c then { s with escState := .none } else s)

def vgaTabChecked : Nat → Vga γ β → Option (Vga γ β)
  | 0, s => some s
  | n + 1, s =>
      (vgaPutCellChecked p s blank).bind fun s =>
        vgaTabChecked n { s with cursorCol := s.cursorCol + 1 }

def vgaWrapChecked (s : Vga γ β) : Option (Vga γ β) :=
  if s.cursorRow ≥ s.rows then vgaScrollChecked p s else some s

def vgaOutputChecked (s : Vga γ β) (c : UInt8) : Option (Vga γ β) :=
  if c = lineFeed then vgaWrapChecked p { s with cursorCol := 0, cursorRow := s.cursorRow + 1 }
  else if c = carriageReturn then vgaWrapChecked p { s with cursorCol := 0 }
  else if c = backspace then
    if s.cursorCol > 0 then
      (vgaPutCellChecked p { s with cursorCol := s.cursorCol - 1 } blank).bind (vgaWrapChecked p)
    else if s.cursorRow > 0 then
      (vgaPutCellChecked p { s with cursorRow := s.cursorRow - 1, cursorCol := s.cols - 1 }
        blank).bind (vgaWrapChecked p)
    else some s
  else if c = tabulator then
    (vgaTabChecked p (tabStop s.toConsole - s.cursorCol) s).bind (vgaWrapChecked p)
  else
    (vgaPutCellChecked p s c).bind fun s => vgaWrapChecked p { s with toConsole := s.advance }

def vgaPutCharChecked (s : Vga γ β) (c : UInt8) : Option (Vga γ β) :=
  match s.escState with
  | .none => if c = escape then some { s with escState := .esc } else vgaOutputChecked p s c
  | .esc =>
      some (if c = bracket then
        { s with escState := .csi, escParamCount := 0, escParams := fun _ => 0 }
      else { s with escState := .none })
  | .csi => vgaCsiChecked p s c
  | _ => some { s with escState := .none }

def vgaPutCharsChecked : List UInt8 → Vga γ β → Option (Vga γ β)
  | [], s => some s
  | c :: bytes, s => (vgaPutCharChecked p s c).bind (vgaPutCharsChecked bytes)

def vgaInitChecked (colours : γ) (cols rows : Nat) (video : Nat → β) : Option (Vga γ β) :=
  vgaClearChecked p
    { cols, rows, cursorRow := 0, cursorCol := 0, escState := .none, video, colours
      escParams := fun _ => 0, escParamCount := 0 }

end Checked

/-- What holds between two bytes. -/
structure Vga.InBounds {γ β : Type} (good : γ → Prop) (s : Vga γ β) : Prop where
  row : s.cursorRow < s.rows
  col : s.cursorCol < s.cols
  count : s.escParamCount ≤ 8
  colours : good s.colours

/-- No check fails, and the bounds hold afterwards. -/
structure Safe {γ β : Type} (good : γ → Prop) (checked : Option (Vga γ β)) (s' : Vga γ β) :
    Prop where
  eq : checked = some s'
  inBounds : s'.InBounds good

section Bounds

variable {γ β : Type} {p : Palette γ β} {good : γ → Prop} {s : Vga γ β}

theorem vgaPutCellChecked_eq (hrow : s.cursorRow < s.rows) (hcol : s.cursorCol < s.cols)
    (c : UInt8) : vgaPutCellChecked p s c = some (vgaPutCell p s c) := by
  have hindex := (Cells.index_lt_iff (r := s.cursorRow) hcol).mpr hrow
  rw [vgaPutCellChecked, Cells.storeIn_of_lt hindex]
  rfl

theorem vgaScrollChecked_eq (hrows : 0 < s.rows) :
    vgaScrollChecked p s = some (vgaScroll p s) := by
  have hsize : (s.rows - 1) * s.cols + s.cols = s.rows * s.cols := by
    rw [← Nat.succ_mul, Nat.succ_eq_add_one, Nat.sub_add_cancel hrows]
  rw [vgaScrollChecked, Cells.shiftIn_of_le hsize.le, Option.bind_some,
    Cells.fillIn_of_le hsize.le]
  rfl

theorem vgaClearChecked_eq (s : Vga γ β) : vgaClearChecked p s = some (vgaClear p s) := by
  have hsize : 0 + s.cols * s.rows ≤ s.rows * s.cols := by rw [Nat.zero_add, Nat.mul_comm]
  rw [vgaClearChecked, Cells.fillIn_of_le hsize]
  rfl

/-- In a new line the screen scrolls, so that the cursor has a row. -/
theorem vgaWrap_safe (hrows : 0 < s.rows) (hcol : s.cursorCol < s.cols)
    (hcount : s.escParamCount ≤ 8) (hcolours : good s.colours) :
    Safe good (vgaWrapChecked p s) (vgaWrap p s) := by
  unfold vgaWrapChecked vgaWrap
  split
  · constructor
    · exact vgaScrollChecked_eq hrows
    · exact ⟨Nat.sub_lt hrows Nat.one_pos, Nat.zero_lt_of_lt hcol, hcount, hcolours⟩
  · next hrow =>
      constructor
      · rfl
      · exact ⟨Nat.not_le.mp hrow, hcol, hcount, hcolours⟩

/-- The blanks of a tab stay in their row. -/
theorem vgaTab_safe {n : Nat} (h : s.InBounds good) (hn : s.cursorCol + n < s.cols) :
    Safe good (vgaTabChecked p n s) (vgaTab p n s) := by
  induction n generalizing s with
  | zero => exact ⟨rfl, h⟩
  | succ n ih =>
      rw [vgaTabChecked, vgaPutCellChecked_eq h.row h.col, Option.bind_some]
      apply ih
      · exact ⟨h.row, by change s.cursorCol + 1 < s.cols; omega, h.count, h.colours⟩
      · change s.cursorCol + 1 + n < s.cols
        omega

theorem vgaOutput_safe (h : s.InBounds good) (c : UInt8) :
    Safe good (vgaOutputChecked p s c) (vgaOutput p s c) := by
  have hrows : 0 < s.rows := Nat.zero_lt_of_lt h.row
  have hcols : 0 < s.cols := Nat.zero_lt_of_lt h.col
  have hback {row col : Nat} (hrow : row < s.rows) (hcol : col < s.cols) :
      Safe good
        ((vgaPutCellChecked p { s with cursorRow := row, cursorCol := col } blank).bind
          (vgaWrapChecked p))
        (vgaWrap p (vgaPutCell p { s with cursorRow := row, cursorCol := col } blank)) := by
    rw [vgaPutCellChecked_eq hrow hcol, Option.bind_some]
    exact vgaWrap_safe hrows hcol h.count h.colours
  unfold vgaOutputChecked vgaOutput
  split_ifs with hline hreturn hbackspace hright hdown htabulator
  · exact vgaWrap_safe hrows hcols h.count h.colours
  · exact vgaWrap_safe hrows hcols h.count h.colours
  · exact hback h.row ((Nat.sub_le _ _).trans_lt h.col)
  · exact hback ((Nat.sub_le _ _).trans_lt h.row) (Nat.sub_lt hcols Nat.one_pos)
  · exact ⟨rfl, h⟩
  · have hstop := tabStop_lt ⟨h.row, h.col⟩
    have hcol := h.col
    have htab := vgaTab_safe (p := p) (n := tabStop s.toConsole - s.cursorCol) h (by omega)
    rw [htab.eq, Option.bind_some]
    exact vgaWrap_safe (Nat.zero_lt_of_lt htab.inBounds.row) htab.inBounds.col
      htab.inBounds.count htab.inBounds.colours
  · obtain ⟨hrows', hcols', hcol⟩ := Console.OnScreen.advance ⟨h.row, h.col⟩
    rw [vgaPutCellChecked_eq h.row h.col, Option.bind_some]
    apply vgaWrap_safe
    · exact hrows'.symm ▸ hrows
    · exact hcols'.symm ▸ hcol
    · exact h.count
    · exact h.colours

theorem Vga.paramsChecked_eq (s : Vga γ β) {n : Nat} (hn : n ≤ 8) :
    s.paramsChecked n = some (((List.finRange 8).take n).map s.escParams) := by
  induction n with
  | zero => rfl
  | succ n ih =>
      have hlt : n < 8 := hn
      have hget : (List.finRange 8)[n]? = some ⟨n, hlt⟩ := by simp [hlt]
      rw [Vga.paramsChecked, ih hlt.le, Option.bind_some, Vga.paramAt, dif_pos hlt,
        List.take_add_one, hget, List.map_append]
      rfl

theorem vgaDigitChecked_eq (s : Vga γ β) (c : UInt8) :
    vgaDigitChecked s c = some (vgaDigit s c) := by
  unfold vgaDigitChecked vgaDigit
  generalize (if s.escParamCount = 0 then 1 else s.escParamCount) = count
  dsimp only
  split
  · next hidx =>
      rw [Vga.paramAt, dif_pos hidx, Option.bind_some, Vga.setParam, dif_pos hidx]
  · rfl

theorem vgaCsi_safe (hsgr : ∀ params x, good x → good (p.sgr params x)) (h : s.InBounds good)
    (c : UInt8) : Safe good (vgaCsiChecked p s c) (vgaCsi p s c) := by
  have hrows : 0 < s.rows := Nat.zero_lt_of_lt h.row
  have hcols : 0 < s.cols := Nat.zero_lt_of_lt h.col
  unfold vgaCsiChecked vgaCsi
  split_ifs with hdigit hsemicolon hroom hm hhome hclear hfinal
  · have hcount : (vgaDigit s c).escParamCount ≤ 8 := by
      have hcount := h.count
      unfold vgaDigit
      dsimp only
      split <;> omega
    exact ⟨vgaDigitChecked_eq s c, h.row, h.col, hcount, h.colours⟩
  · exact ⟨rfl, h.row, h.col, hroom, h.colours⟩
  · exact ⟨rfl, h⟩
  · constructor
    · rw [Vga.paramsChecked_eq s h.count]
      rfl
    · exact ⟨h.row, h.col, h.count, hsgr _ _ h.colours⟩
  · exact ⟨rfl, hrows, hcols, h.count, h.colours⟩
  · exact ⟨vgaClearChecked_eq _, hrows, hcols, h.count, h.colours⟩
  · exact ⟨rfl, h.row, h.col, h.count, h.colours⟩
  · exact ⟨rfl, h⟩

theorem vgaPutChar_safe (hsgr : ∀ params x, good x → good (p.sgr params x))
    (h : s.InBounds good) (c : UInt8) :
    Safe good (vgaPutCharChecked p s c) (vgaPutChar p s c) := by
  unfold vgaPutCharChecked vgaPutChar
  cases s.escState with
  | none =>
      dsimp only
      split
      · exact ⟨rfl, h.row, h.col, h.count, h.colours⟩
      · exact vgaOutput_safe h c
  | esc =>
      dsimp only
      split
      · exact ⟨rfl, h.row, h.col, Nat.zero_le 8, h.colours⟩
      · exact ⟨rfl, h.row, h.col, h.count, h.colours⟩
  | csi => exact vgaCsi_safe hsgr h c
  | csi0 => exact ⟨rfl, h.row, h.col, h.count, h.colours⟩
  | csi2 => exact ⟨rfl, h.row, h.col, h.count, h.colours⟩
  | csi3 => exact ⟨rfl, h.row, h.col, h.count, h.colours⟩
  | csiOther => exact ⟨rfl, h.row, h.col, h.count, h.colours⟩

theorem vgaPutChars_safe (hsgr : ∀ params x, good x → good (p.sgr params x))
    (h : s.InBounds good) (bytes : List UInt8) :
    Safe good (vgaPutCharsChecked p bytes s) (bytes.foldl (vgaPutChar p) s) := by
  induction bytes generalizing s with
  | nil => exact ⟨rfl, h⟩
  | cons c bytes ih =>
      have hstep := vgaPutChar_safe hsgr h c
      rw [vgaPutCharsChecked, hstep.eq, Option.bind_some]
      exact ih hstep.inBounds

theorem vgaInit_safe {colours : γ} (hcolours : good colours) {cols rows : Nat} (hcols : 0 < cols)
    (hrows : 0 < rows) (video : Nat → β) :
    Safe good (vgaInitChecked p colours cols rows video) (vgaInit p colours cols rows video) :=
  ⟨vgaClearChecked_eq _, hrows, hcols, Nat.zero_le 8, hcolours⟩

end Bounds

/-- `ansi_fg` and `ansi_bg` are among the eight colours. -/
def VgaColours.InRange (x : VgaColours) : Prop := x.ansiFg ≤ 7 ∧ x.ansiBg ≤ 7

theorem resetColours_inRange (x : VgaColours) : (resetColours x).InRange :=
  ⟨(by decide : (7 : UInt8) ≤ 7), (by decide : (0 : UInt8) ≤ 7)⟩

/-- The distance of a parameter from the first one of its eight. -/
theorem sgrParam_offset {param : BitVec 32} (base : Nat) (hbase : base < 64)
    (hlow : (base : Int) ≤ param.toInt) (hhigh : param.toInt ≤ (base : Int) + 7) :
    UInt8.ofNat (param - BitVec.ofNat 32 base).toNat ≤ 7 := by
  have hsmall : (param - BitVec.ofNat 32 base).toNat ≤ 7 := by
    rw [BitVec.toInt_eq_toNat_cond] at hlow hhigh
    split at hlow <;> bv_omega
  rw [UInt8.le_iff_toNat_le, UInt8.toNat_ofNat']
  exact (Nat.mod_le _ _).trans hsmall

theorem sgrParam_inRange {x : VgaColours} (h : x.InRange) (param : BitVec 32) :
    (sgrParam x param).InRange := by
  unfold sgrParam
  split_ifs with hreset hbright hfg hbg
  · exact resetColours_inRange x
  · exact h
  · exact ⟨sgrParam_offset 30 (by decide) hfg.1 hfg.2, h.2⟩
  · exact ⟨h.1, sgrParam_offset 40 (by decide) hbg.1 hbg.2⟩
  · exact h

theorem sgrParams_inRange (params : List (BitVec 32)) {x : VgaColours} (h : x.InRange) :
    (params.foldl sgrParam x).InRange := by
  induction params generalizing x with
  | nil => exact h
  | cons param params ih => exact ih (sgrParam_inRange h param)

theorem vgaHandleSgr_inRange (params : List (BitVec 32)) (x : VgaColours) (h : x.InRange) :
    (vgaHandleSgr params x).InRange := by
  unfold vgaHandleSgr
  split
  · exact resetColours_inRange x
  · exact sgrParams_inRange params h

/-- No index leaves its array, and the bounds hold after every byte, on a screen of any
size. -/
theorem console_in_bounds {cols rows : Nat} (hcols : 0 < cols) (hrows : 0 < rows)
    (video : Nat → BitVec 16) (bytes : List UInt8) :
    ∃ s, (vgaInitChecked vgaPalette initialColours cols rows video).bind
        (vgaPutCharsChecked vgaPalette bytes) = some s ∧
      s = bytes.foldl (vgaPutChar vgaPalette)
        (vgaInit vgaPalette initialColours cols rows video) ∧
      s.rows = rows ∧ s.cols = cols ∧ s.cursorRow < rows ∧ s.cursorCol < cols ∧
      s.escParamCount ≤ 8 ∧ s.colours.ansiFg ≤ 7 ∧ s.colours.ansiBg ≤ 7 := by
  have hinit : Safe VgaColours.InRange (vgaInitChecked vgaPalette initialColours cols rows video)
      (vgaInit vgaPalette initialColours cols rows video) :=
    vgaInit_safe ⟨by decide, by decide⟩ hcols hrows video
  have hrun := vgaPutChars_safe (p := vgaPalette) vgaHandleSgr_inRange hinit.inBounds bytes
  obtain ⟨hsameRows, hsameCols⟩ := putChars_size (p := vgaPalette) bytes
    (vgaInit vgaPalette initialColours cols rows video)
  have hrows' : _ = rows := hsameRows
  have hcols' : _ = cols := hsameCols
  obtain ⟨hrow, hcol, hcount, hfg, hbg⟩ := hrun.inBounds
  rw [hrows'] at hrow
  rw [hcols'] at hcol
  refine ⟨_, ?_, rfl, hrows', hcols', hrow, hcol, hcount, hfg, hbg⟩
  rw [hinit.eq, Option.bind_some, hrun.eq]

/-- A sequence with more parameters than there is room for, which does not end. -/
theorem console_in_bounds_unterminated :
    ∃ s, (vgaInitChecked vgaPalette initialColours 2 1 fun _ => 0).bind
        (vgaPutCharsChecked vgaPalette (escape :: cstr "[1;2;3;4;5;6;7;8;9;10")) = some s ∧
      s.escParamCount ≤ 8 := by
  obtain ⟨s, hs, -, -, -, -, -, hcount, -⟩ := console_in_bounds
    (show 0 < 2 by decide) (show 0 < 1 by decide) (fun _ => 0) (escape :: cstr "[1;2;3;4;5;6;7;8;9;10")
  exact ⟨s, hs, hcount⟩

end Punix
