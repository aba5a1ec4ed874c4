import Mathlib.Data.List.GetD
import Punix.Arch.ConsoleAgree

/-!
The terminal that the text mode is meant to be: a grid of characters with an attribute, a
cursor, and sequences that select a rendition, clear the screen or move the cursor home.
The driver shows it as long as no byte from `0x80` on is printed (a `char` is signed, so that
its sign takes the place of the attribute) and each `ESC[...m` has parameters that the driver
can hold.
-/

namespace Punix

open Lib

structure Rendition where
  foreground : Fin 8
  background : Fin 8
  bold : Bool
deriving DecidableEq

def Rendition.default : Rendition := { foreground := 7, background := 0, bold := false }

/-- The colour in the order of the hardware, where red and blue change places. -/
def hue (colour : Fin 8) : Nat := colour / 4 % 2 + colour / 2 % 2 * 2 + colour % 2 * 4

def Rendition.attribute (r : Rendition) : UInt8 :=
  UInt8.ofNat (hue r.background * 16 + (if r.bold then 8 else 0) + hue r.foreground)

def Rendition.select (r : Rendition) (n : Nat) : Rendition :=
  if n = 0 then .default
  else if n = 1 then { r with bold := true }
  else if h : 30 ≤ n ∧ n ≤ 37 then { r with foreground := ⟨n - 30, by omega⟩ }
  else if h : 40 ≤ n ∧ n ≤ 47 then { r with background := ⟨n - 40, by omega⟩ }
  else r

/-- A digit extends the last number, a semicolon begins another one. -/
def nextNumbers (numbers : List Nat) (c : UInt8) : List Nat :=
  if isParamDigit c then
    numbers.dropLast ++ [numbers.getLastD 0 * 10 + (c.toNat - 48)]
  else if c = semicolon then numbers ++ [0]
  else numbers

/-- The parameters of a sequence, of which there is at least one; it is 0 if it has no digit. -/
def numbersOf (bytes : List UInt8) : List Nat := bytes.foldl nextNumbers [0]

inductive TerminalMode where
  | text
  | escape
  | control (bytes : List UInt8)

structure Terminal where
  rows : Nat
  cols : Nat
  row : Nat
  col : Nat
  rendition : Rendition
  mode : TerminalMode
  cells : Nat → Nat → UInt8 × UInt8

namespace Terminal

/-- The character with the attribute of the rendition. -/
def put (t : Terminal) (c : UInt8) : Terminal :=
  let row := Function.update (t.cells t.row) t.col (c, t.rendition.attribute)
  { t with cells := Function.update t.cells t.row row }

def clear (t : Terminal) : Terminal :=
  { t with cells := fun _ _ => (blank, t.rendition.attribute), row := 0, col := 0 }

def scroll (t : Terminal) : Terminal :=
  { t with
    cells := fun r =>
      if r < t.rows - 1 then t.cells (r + 1)
      else if r = t.rows - 1 then fun _ => (blank, t.rendition.attribute)
      else t.cells r }

/-- The first column of the next row. -/
def newLine (t : Terminal) : Terminal :=
  if t.row + 1 < t.rows then { t with row := t.row + 1, col := 0 }
  else { t.scroll with col := 0 }

def blanks : Nat → Terminal → Terminal
  | 0, t => t
  | n + 1, t =>
      let t := t.put blank
      blanks n { t with col := t.col + 1 }

/-- The next multiple of eight, or the last column. -/
def nextStop (t : Terminal) : Nat := min ((t.col / 8 + 1) * 8) (t.cols - 1)

def character (t : Terminal) (c : UInt8) : Terminal :=
  if c = lineFeed then t.newLine
  else if c = carriageReturn then { t with col := 0 }
  else if c = backspace then
    if 0 < t.col then put { t with col := t.col - 1 } blank
    else if 0 < t.row then put { t with row := t.row - 1, col := t.cols - 1 } blank
    else t
  else if c = tabulator then blanks (t.nextStop - t.col) t
  else
    let t := t.put c
    if t.col + 1 < t.cols then { t with col := t.col + 1 } else t.newLine

/-- The sequence with these bytes between the bracket and the final byte. -/
def perform (t : Terminal) (bytes : List UInt8) (c : UInt8) : Terminal :=
  if c = finalM then { t with rendition := (numbersOf bytes).foldl Rendition.select t.rendition }
  else if c = finalH then { t with row := 0, col := 0 }
  else if c = finalJ then t.clear
  else t

def receive (t : Terminal) (c : UInt8) : Terminal :=
  match t.mode with
  | .text => if c = escape then { t with mode := .escape } else t.character c
  | .escape => { t with mode := if c = bracket then .control [] else .text }
  | .control bytes =>
      if isFinal c then { t.perform bytes c with mode := .text }
      else { t with mode := .control (bytes ++ [c]) }

def init (cols rows : Nat) : Terminal :=
  clear { rows, cols, row := 0, col := 0, rendition := .default, mode := .text,
          cells := fun _ _ => (0, 0) }

end Terminal

/-- The character in the low byte, the attribute in the high one. -/
def cellEntry (cell : UInt8 × UInt8) : BitVec 16 := cell.2.toBitVec ++ cell.1.toBitVec

/-- The sign of a character below `0x80` is 0. -/
theorem vgaEntry_of_lt {c : UInt8} (hc : c < 0x80) (attr : UInt8) :
    vgaEntry c attr = cellEntry (c, attr) := by
  have hmsb : c.toBitVec.msb = false := by
    rw [BitVec.msb_eq_decide, decide_eq_false_iff_not, Nat.not_le]
    exact UInt8.lt_iff_toNat_lt.mp hc
  rw [vgaEntry, BitVec.signExtend_eq_setWidth_of_msb_false hmsb, cellEntry, BitVec.append_def,
    BitVec.shiftLeftZeroExtend_eq, BitVec.or_comm]
  rfl

/-- The colours of the driver in this rendition. -/
def Rendition.colours (r : Rendition) (attr : UInt8) : VgaColours :=
  { ansiFg := UInt8.ofNat r.foreground
    ansiBg := UInt8.ofNat r.background
    bright := if r.bold then 1 else 0
    attr }

theorem vgaUpdateAttr_colours (r : Rendition) (attr : UInt8) :
    vgaUpdateAttr (r.colours attr) = r.colours r.attribute := by
  have hattr : ∀ (fg bg : Fin 8) (bold : Bool),
      vgaAttr (ansiToVgaColor (UInt8.ofNat fg) (if bold then 1 else 0))
        (ansiToVgaColor (UInt8.ofNat bg) 0) = Rendition.attribute ⟨fg, bg, bold⟩ := by
    decide +kernel
  exact congrArg r.colours (hattr r.foreground r.background r.bold)

theorem initialColours_eq : initialColours = Rendition.default.colours Rendition.default.attribute :=
  vgaUpdateAttr_colours .default 0

theorem sgrParam_colours (r : Rendition) (attr : UInt8) {n : Nat} (hn : n < 2 ^ 31) :
    sgrParam (r.colours attr) (BitVec.ofNat 32 n) = (r.select n).colours attr := by
  have htoNat : (BitVec.ofNat 32 n).toNat = n := by
    rw [BitVec.toNat_ofNat]
    exact Nat.mod_eq_of_lt (by omega)
  have htoInt : (BitVec.ofNat 32 n).toInt = n := by
    rw [BitVec.toInt_eq_toNat_of_lt (by omega), htoNat]
  have hzero : BitVec.ofNat 32 n = 0 ↔ n = 0 := by
    rw [BitVec.toNat_inj.symm, htoNat]
    rfl
  have hone : BitVec.ofNat 32 n = 1 ↔ n = 1 := by
    rw [BitVec.toNat_inj.symm, htoNat]
    rfl
  have hfg : (30 ≤ (n : Int) ∧ (n : Int) ≤ 37) ↔ 30 ≤ n ∧ n ≤ 37 := by omega
  have hbg : (40 ≤ (n : Int) ∧ (n : Int) ≤ 47) ↔ 40 ≤ n ∧ n ≤ 47 := by omega
  unfold sgrParam Rendition.select
  rw [htoInt]
  simp only [hzero, hone, hfg, hbg]
  split_ifs with hreset hbold hforeground hbackground
  · rfl
  · rfl
  · have hsub : (BitVec.ofNat 32 n - 30).toNat = n - 30 := by bv_omega
    rw [hsub]
    rfl
  · have hsub : (BitVec.ofNat 32 n - 40).toNat = n - 40 := by bv_omega
    rw [hsub]
    rfl
  · rfl

theorem sgrParams_colours {numbers : List Nat} (hnumbers : ∀ n ∈ numbers, n < 2 ^ 31)
    (r : Rendition) (attr : UInt8) :
    (numbers.map (BitVec.ofNat 32)).foldl sgrParam (r.colours attr) =
      (numbers.foldl Rendition.select r).colours attr := by
  induction numbers generalizing r with
  | nil => rfl
  | cons n numbers ih =>
      rw [List.map_cons, List.foldl_cons, List.foldl_cons,
        sgrParam_colours r attr (hnumbers n List.mem_cons_self)]
      exact ih (fun m hm => hnumbers m (List.mem_cons_of_mem n hm)) _

def isParamByte (c : UInt8) : Bool := isParamDigit c || c = semicolon

/-- The driver has room for the parameters, and does not drop the first one: before a
semicolon that comes first it counts none. -/
def Holdable (bytes : List UInt8) : Prop :=
  bytes.find? isParamByte ≠ some semicolon ∧ (numbersOf bytes).length ≤ 8

/-- The parameters are held, and are in the range of an `int`. -/
def SgrFits (bytes : List UInt8) : Prop :=
  Holdable bytes ∧ ∀ n ∈ numbersOf bytes, n < 2 ^ 31

instance (bytes : List UInt8) : Decidable (SgrFits bytes) :=
  inferInstanceAs (Decidable ((_ ∧ _) ∧ _))

/-- What the driver holds of the bytes of a sequence. -/
structure Collected (bytes : List UInt8) (params : Fin 8 → BitVec 32) (count : Nat) : Prop where
  count : count = 0 ∧ bytes.find? isParamByte = none ∧ numbersOf bytes = [0] ∨
    count = (numbersOf bytes).length
  params : ∀ i : Fin 8, params i = BitVec.ofNat 32 ((numbersOf bytes).getD i 0)

theorem numbersOf_concat (bytes : List UInt8) (c : UInt8) :
    numbersOf (bytes ++ [c]) = nextNumbers (numbersOf bytes) c := by
  rw [numbersOf, List.foldl_append]
  rfl

theorem length_nextNumbers {numbers : List Nat} (h : numbers ≠ []) (c : UInt8) :
    (nextNumbers numbers c).length =
      if c = semicolon then numbers.length + 1 else numbers.length := by
  have hpos := List.length_pos_of_ne_nil h
  unfold nextNumbers
  split_ifs with hdigit hsemicolon hsemicolon
  · rw [hsemicolon] at hdigit
    exact absurd hdigit (by decide)
  · rw [List.length_append, List.length_dropLast, List.length_singleton]
    omega
  · rw [List.length_append, List.length_singleton]
  · rfl

theorem numbersOf_ne_nil (bytes : List UInt8) : numbersOf bytes ≠ [] := by
  induction bytes using List.reverseRecOn with
  | nil => exact List.cons_ne_nil 0 []
  | append_singleton bytes c ih =>
      have hpos := List.length_pos_of_ne_nil ih
      apply List.ne_nil_of_length_pos
      rw [numbersOf_concat, length_nextNumbers ih]
      split <;> omega

/-- What the driver can hold it could hold before the last byte. -/
theorem Holdable.of_concat {bytes : List UInt8} {c : UInt8} (h : Holdable (bytes ++ [c])) :
    Holdable bytes := by
  obtain ⟨hfirst, hlength⟩ := h
  rw [numbersOf_concat, length_nextNumbers (numbersOf_ne_nil bytes)] at hlength
  constructor
  · intro hsome
    rw [List.find?_append, hsome] at hfirst
    exact hfirst rfl
  · split at hlength <;> omega

theorem getD_setLast {numbers : List Nat} (h : numbers ≠ []) (x i : Nat) :
    (numbers.dropLast ++ [x]).getD i 0 =
      if i = numbers.length - 1 then x else numbers.getD i 0 := by
  obtain ⟨front, y, rfl⟩ := (List.eq_nil_or_concat numbers).resolve_left h
  rw [List.concat_eq_append, List.dropLast_concat, List.length_append, List.length_singleton,
    Nat.add_sub_cancel]
  rcases lt_trichotomy i front.length with hlt | rfl | hgt
  · rw [if_neg hlt.ne, List.getD_append _ _ _ _ hlt, List.getD_append _ _ _ _ hlt]
  · rw [if_pos rfl, List.getD_append_right _ _ _ _ le_rfl, Nat.sub_self]
    rfl
  · have hout (z : Nat) : (front ++ [z]).getD i 0 = 0 := by
      apply List.getD_eq_default
      rw [List.length_append, List.length_singleton]
      exact hgt
    rw [if_neg hgt.ne', hout, hout]

theorem getLastD_eq_getD {numbers : List Nat} (h : numbers ≠ []) :
    numbers.getLastD 0 = numbers.getD (numbers.length - 1) 0 := by
  obtain ⟨front, y, rfl⟩ := (List.eq_nil_or_concat numbers).resolve_left h
  simp

namespace Collected

variable {bytes : List UInt8} {params : Fin 8 → BitVec 32} {count : Nat}

theorem begin : Collected [] (fun _ => 0) 0 where
  count := .inl ⟨rfl, rfl, rfl⟩
  params i := by
    have hget : (numbersOf []).getD i 0 = 0 := by
      cases i using Fin.cases <;> rfl
    rw [hget]
    rfl

/-- A digit extends the last parameter. -/
theorem digit (h : Collected bytes params count) (hlength : (numbersOf bytes).length ≤ 8)
    {c : UInt8} (hc : isParamDigit c) :
    ∃ hidx : (numbersOf bytes).length - 1 < 8,
      (if count = 0 then 1 else count) = (numbersOf bytes).length ∧
      Collected (bytes ++ [c])
        (Function.update params ⟨(numbersOf bytes).length - 1, hidx⟩
          (params ⟨(numbersOf bytes).length - 1, hidx⟩ * 10 + BitVec.ofNat 32 (c.toNat - 48)))
        (numbersOf bytes).length := by
  have hne := numbersOf_ne_nil bytes
  have hpos := List.length_pos_of_ne_nil hne
  have hsemicolon : c ≠ semicolon := by
    rintro rfl
    exact absurd hc (by decide)
  refine ⟨by omega, ?_, .inr ?_, ?_⟩
  · rcases h.count with ⟨rfl, -, hnumbers⟩ | hcount
    · rw [if_pos rfl, hnumbers]
      rfl
    · rw [if_neg (by omega), hcount]
  · rw [numbersOf_concat, length_nextNumbers hne, if_neg hsemicolon]
  · intro i
    rw [numbersOf_concat, nextNumbers, if_pos hc, getD_setLast hne, getLastD_eq_getD hne]
    split_ifs with hi
    · have hlast : i = ⟨(numbersOf bytes).length - 1, by omega⟩ := Fin.ext hi
      rw [hlast, Function.update_self, h.params, BitVec.ofNat_add, BitVec.ofNat_mul]
      rfl
    · rw [Function.update_of_ne (fun heq => hi (congrArg Fin.val heq)), h.params]

/-- A semicolon behind a parameter begins another one. -/
theorem semicolon (h : Collected bytes params count) (hold : Holdable (bytes ++ [semicolon])) :
    count < 8 ∧ Collected (bytes ++ [Punix.semicolon]) params (count + 1) := by
  obtain ⟨hfirst, hlength⟩ := hold
  have hne := numbersOf_ne_nil bytes
  have hnext : nextNumbers (numbersOf bytes) Punix.semicolon = numbersOf bytes ++ [0] := rfl
  rw [numbersOf_concat, hnext, List.length_append, List.length_singleton] at hlength
  rcases h.count with ⟨-, hnone, -⟩ | hcount
  · rw [List.find?_append, hnone] at hfirst
    exact absurd rfl hfirst
  · refine ⟨by omega, .inr ?_, ?_⟩
    · rw [numbersOf_concat, hnext, List.length_append, List.length_singleton, hcount]
    · intro i
      rw [numbersOf_concat, hnext, h.params]
      rcases Nat.lt_or_ge i (numbersOf bytes).length with hlt | hge
      · rw [List.getD_append _ _ _ _ hlt]
      · rw [List.getD_eq_default _ _ hge, List.getD_append_right _ _ _ _ hge]
        cases hi : (i : Nat) - (numbersOf bytes).length <;> rfl

/-- Other bytes do not belong to a parameter. -/
theorem other (h : Collected bytes params count) {c : UInt8} (hdigit : ¬ isParamDigit c)
    (hsemicolon : c ≠ Punix.semicolon) : Collected (bytes ++ [c]) params count := by
  have hnext : numbersOf (bytes ++ [c]) = numbersOf bytes := by
    rw [numbersOf_concat, nextNumbers, if_neg hdigit, if_neg hsemicolon]
  constructor
  · rw [hnext]
    apply h.count.imp_left
    rintro ⟨hcount, hnone, hnumbers⟩
    have hbyte : isParamByte c = false := by simp [isParamByte, hdigit, hsemicolon]
    refine ⟨hcount, ?_, hnumbers⟩
    rw [List.find?_append, hnone, List.find?_cons_of_neg (by simp [hbyte])]
    rfl
  · rw [hnext]
    exact h.params

end Collected

/-- The driver shows the terminal; `e` and `m` are the states of the parsers. -/
structure Displays (e : ConsoleEscState) (m : TerminalMode) (s : Vga VgaColours (BitVec 16))
    (t : Terminal) : Prop where
  esc : s.escState = e
  mode : t.mode = m
  rows : t.rows = s.rows
  cols : t.cols = s.cols
  row : t.row = s.cursorRow
  col : t.col = s.cursorCol
  onScreen : s.OnScreen
  colours : s.colours = t.rendition.colours t.rendition.attribute
  cells : Cells.Shows (fun x cell => x = cellEntry cell) s.rows s.cols s.video t.cells

namespace Displays

variable {e e' : ConsoleEscState} {m m' : TerminalMode} {s : Vga VgaColours (BitVec 16)}
variable {t : Terminal}

theorem moveTo (h : Displays e m s t) {row col : Nat} (hrow : row < s.rows) (hcol : col < s.cols) :
    Displays e m { s with cursorRow := row, cursorCol := col } { t with row := row, col := col } :=
  { h with row := rfl, col := rfl, onScreen := ⟨hrow, hcol⟩ }

theorem setMode (h : Displays e m s t) (e' : ConsoleEscState) (m' : TerminalMode) :
    Displays e' m' { s with escState := e' } { t with mode := m' } :=
  { h with esc := rfl, mode := rfl, onScreen := ⟨h.onScreen.row, h.onScreen.col⟩ }

/-- What is stored for a character is the cell. -/
theorem entry (h : Displays e m s t) {c : UInt8} (hc : c < 0x80) :
    vgaPalette.entry c s.colours = cellEntry (c, t.rendition.attribute) := by
  rw [h.colours]
  exact vgaEntry_of_lt hc _

theorem put (h : Displays e m s t) {c : UInt8} (hc : c < 0x80) :
    Displays e m (vgaPutCell vgaPalette s c) (t.put c) where
  esc := h.esc
  mode := h.mode
  rows := h.rows
  cols := h.cols
  row := h.row
  col := h.col
  onScreen := h.onScreen
  colours := h.colours
  cells := by
    unfold Terminal.put
    rw [h.row, h.col]
    exact h.cells.store h.onScreen.col (h.entry hc)

theorem clear (h : Displays e m s t) :
    Displays .none m (vgaClear vgaPalette s) t.clear where
  esc := rfl
  mode := h.mode
  rows := h.rows
  cols := h.cols
  row := rfl
  col := rfl
  onScreen := ⟨h.onScreen.origin.1, h.onScreen.origin.2⟩
  colours := h.colours
  cells := by
    have hclear : Cells.Shows (fun x cell => x = cellEntry cell) s.rows s.cols _ _ :=
      Cells.Shows.clear s.video (h.entry (show blank < 0x80 by decide))
    exact hclear

theorem scroll (h : Displays e m s t) :
    Displays e m (vgaScroll vgaPalette s) { t.scroll with row := t.rows - 1, col := 0 } where
  esc := h.esc
  mode := h.mode
  rows := h.rows
  cols := h.cols
  row := by rw [h.rows]; rfl
  col := rfl
  onScreen := ⟨Nat.sub_lt h.onScreen.origin.1 Nat.one_pos, h.onScreen.origin.2⟩
  colours := h.colours
  cells := by
    unfold Terminal.scroll
    rw [h.rows]
    exact h.cells.scroll h.onScreen.origin.2 (h.entry (show blank < 0x80 by decide))

/-- The rest of the terminal is that of the driver. -/
theorem exists_eq (h : Displays e m s t) :
    ∃ rendition cells, t =
      { rows := s.rows, cols := s.cols, row := s.cursorRow, col := s.cursorCol, rendition,
        mode := m, cells } := by
  obtain ⟨rows, cols, row, col, rendition, mode, cells⟩ := t
  obtain rfl : rows = s.rows := h.rows
  obtain rfl : cols = s.cols := h.cols
  obtain rfl : row = s.cursorRow := h.row
  obtain rfl : col = s.cursorCol := h.col
  obtain rfl : mode = m := h.mode
  exact ⟨rendition, cells, rfl⟩

/-- At the bottom the screen scrolls instead. -/
theorem newLine (h : Displays e m s t) :
    Displays e m
      (vgaWrap vgaPalette { s with cursorCol := 0, cursorRow := s.cursorRow + 1 }) t.newLine := by
  have hrow := h.onScreen.row
  have hscroll := h.scroll
  obtain ⟨rendition, cells, rfl⟩ := h.exists_eq
  unfold vgaWrap Terminal.newLine
  dsimp only at hscroll ⊢
  split_ifs with hbottom hnext hnext
  · omega
  · have hlast : s.rows - 1 = s.cursorRow := by omega
    rw [hlast] at hscroll
    exact hscroll
  · exact h.moveTo hnext h.onScreen.origin.2
  · omega

theorem blanks (h : Displays e m s t) {n : Nat} (hn : s.cursorCol + n < s.cols) :
    Displays e m (vgaTab vgaPalette n s) (t.blanks n) := by
  induction n generalizing s t with
  | zero => exact h
  | succ n ih =>
      have hput := h.put (show blank < 0x80 by decide)
      have hnext := hput.moveTo h.onScreen.row (show s.cursorCol + 1 < s.cols by omega)
      have hstep := ih hnext (show s.cursorCol + 1 + n < s.cols by omega)
      obtain ⟨rendition, cells, rfl⟩ := h.exists_eq
      exact hstep

theorem tabStop_eq (h : Displays e m s t) : tabStop s.toConsole = t.nextStop := by
  have hcols := h.onScreen.origin.2
  obtain ⟨rendition, cells, rfl⟩ := h.exists_eq
  unfold tabStop tabWidth Terminal.nextStop
  dsimp only
  rw [Nat.add_div_right _ (by decide)]
  split <;> omega

/-- What is put in a row that the screen has does not scroll. -/
theorem wrap (h : Displays e m s t) : Displays e m (vgaWrap vgaPalette s) t := by
  rw [vgaWrap_eq_self h.onScreen.row]
  exact h

theorem character (h : Displays e m s t) {c : UInt8} (hc : c < 0x80) :
    Displays e m (vgaOutput vgaPalette s c) (t.character c) := by
  have hblank : blank < 0x80 := by decide
  have hrow := h.onScreen.row
  have hcol := h.onScreen.col
  have hstop := h.tabStop_eq
  have hlt := tabStop_lt h.onScreen
  have hput := h.put hc
  have hline := h.newLine
  have hputLine := hput.newLine
  have hback {row col : Nat} (hrow' : row < s.rows) (hcol' : col < s.cols) :=
    ((h.moveTo hrow' hcol').put hblank).wrap
  have htab := h.blanks (n := tabStop s.toConsole - s.cursorCol) (by omega)
  rw [hstop] at htab
  obtain ⟨rendition, cells, rfl⟩ := h.exists_eq
  unfold vgaOutput Terminal.character
  split_ifs with hlf hcr hbs hright hdown htabulator
  · exact hline
  · exact (h.moveTo hrow (by omega)).wrap
  · exact hback hrow (by omega)
  · exact hback (by omega) (by omega)
  · exact h
  · rw [hstop]
    exact htab.wrap
  · unfold Console.advance
    dsimp only [Terminal.put]
    split_ifs with hedge hnext hnext
    · exact absurd hnext (Nat.not_lt.mpr hedge)
    · exact hputLine
    · exact (hput.moveTo hrow hnext).wrap
    · exact absurd (Nat.not_le.mp hedge) hnext

/-- The colours follow the parameters that the driver holds. -/
theorem select (h : Displays e m s t) {bytes : List UInt8}
    (hcollected : Collected bytes s.escParams s.escParamCount) (hfits : SgrFits bytes) :
    Displays e m { s with colours := vgaPalette.sgr s.params s.colours }
      { t with rendition := (numbersOf bytes).foldl Rendition.select t.rendition } := by
  obtain ⟨⟨-, hlength⟩, hrange⟩ := hfits
  have hsgr : vgaPalette.sgr s.params s.colours =
      ((numbersOf bytes).foldl Rendition.select t.rendition).colours
        ((numbersOf bytes).foldl Rendition.select t.rendition).attribute := by
    have hattr := vgaUpdateAttr_colours ((numbersOf bytes).foldl Rendition.select t.rendition)
      t.rendition.attribute
    change vgaHandleSgr s.params s.colours = _
    rw [h.colours, vgaHandleSgr, ← hattr]
    rcases hcollected.count with ⟨hzero, -, hnumbers⟩ | hcount
    · rw [if_pos (by rw [Vga.params, hzero]; rfl), hnumbers]
      rfl
    · have hparams : s.params = (numbersOf bytes).map (BitVec.ofNat 32) := by
        apply List.ext_getElem
        · rw [Vga.params, List.length_map, List.length_map, List.length_take, List.length_finRange]
          omega
        · intro i hi hi'
          rw [List.length_map] at hi'
          rw [List.getElem_map, ← List.getD_eq_getElem (numbersOf bytes) 0 hi',
            ← hcollected.params ⟨i, by omega⟩]
          simp [Vga.params]
      have hne : s.params ≠ [] := by
        rw [hparams]
        exact List.map_eq_nil_iff.not.mpr (numbersOf_ne_nil bytes)
      rw [if_neg hne, hparams, sgrParams_colours hrange]
  exact { h with colours := hsgr, onScreen := ⟨h.onScreen.row, h.onScreen.col⟩ }

end Displays

/-- The driver shows the terminal, and holds the parameters of a sequence if it can. -/
inductive Shown (s : Vga VgaColours (BitVec 16)) (t : Terminal) : Prop
  | text : Displays .none .text s t → Shown s t
  | escape : Displays .esc .escape s t → Shown s t
  | control (bytes : List UInt8) : Displays .csi (.control bytes) s t →
      (Holdable bytes → Collected bytes s.escParams s.escParamCount) → Shown s t

/-- The driver can take the byte: outside of a sequence it has no sign, and a sequence
`ESC[...m` has parameters that the driver can hold. -/
def Terminal.Takes (t : Terminal) (c : UInt8) : Prop :=
  match t.mode with
  | .text => c < 0x80
  | .escape => True
  | .control bytes => c = finalM → SgrFits bytes

instance (t : Terminal) (c : UInt8) : Decidable (t.Takes c) := by
  unfold Terminal.Takes
  split <;> infer_instance

section Streams

variable {s : Vga VgaColours (BitVec 16)} {t : Terminal} {bytes : List UInt8} {c : UInt8}

theorem not_isFinal_semicolon : isFinal semicolon = false := by decide

/-- A byte inside of a sequence. -/
theorem Displays.collect (h : Displays .csi (.control bytes) s t)
    (hcollected : Holdable bytes → Collected bytes s.escParams s.escParamCount)
    (hfinal : isFinal c = false) :
    Shown (vgaCsi vgaPalette s c) { t with mode := .control (bytes ++ [c]) } := by
  have hm : c ≠ finalM := by rintro rfl; exact absurd hfinal (by decide)
  have hh : c ≠ finalH := by rintro rfl; exact absurd hfinal (by decide)
  have hj : c ≠ finalJ := by rintro rfl; exact absurd hfinal (by decide)
  have hmode (params : Fin 8 → BitVec 32) (count : Nat) :
      Displays .csi (.control (bytes ++ [c]))
        { s with escParams := params, escParamCount := count }
        { t with mode := .control (bytes ++ [c]) } :=
    { h with mode := rfl, onScreen := ⟨h.onScreen.row, h.onScreen.col⟩ }
  unfold vgaCsi
  rw [if_neg hm, if_neg hh, if_neg hj, if_neg (Bool.eq_false_iff.mp hfinal)]
  split_ifs with hdigit hsemicolon hroom
  · apply Shown.control (bytes ++ [c]) (hmode _ _)
    intro hold
    have hbefore := hold.of_concat
    obtain ⟨hidx, hcount, hnext⟩ := (hcollected hbefore).digit hbefore.2 hdigit
    dsimp only
    generalize (if s.escParamCount = 0 then 1 else s.escParamCount) = count at hcount ⊢
    subst hcount
    rw [dif_pos hidx]
    exact hnext
  · subst hsemicolon
    apply Shown.control (bytes ++ [semicolon]) (hmode _ _)
    intro hold
    exact ((hcollected hold.of_concat).semicolon hold).2
  · subst hsemicolon
    apply Shown.control (bytes ++ [semicolon]) (hmode _ _)
    intro hold
    exact absurd ((hcollected hold.of_concat).semicolon hold).1 hroom
  · apply Shown.control (bytes ++ [c]) (hmode _ _)
    intro hold
    exact (hcollected hold.of_concat).other hdigit hsemicolon

/-- The byte that ends a sequence. -/
theorem Displays.perform (h : Displays .csi (.control bytes) s t)
    (hcollected : Holdable bytes → Collected bytes s.escParams s.escParamCount)
    (hfinal : isFinal c) (hfits : c = finalM → SgrFits bytes) :
    Displays .none .text (vgaCsi vgaPalette s c) { t.perform bytes c with mode := .text } := by
  have hdigit : ¬ isParamDigit c := by
    intro hdigit
    rw [not_isFinal_of_digit hdigit] at hfinal
    cases hfinal
  have hsemicolon : c ≠ semicolon := by
    rintro rfl
    cases not_isFinal_semicolon.symm.trans hfinal
  unfold vgaCsi Terminal.perform
  rw [if_neg hdigit, if_neg hsemicolon, if_pos hfinal]
  split_ifs with hm hhome hclear
  · have hsgr := hfits hm
    exact (h.select (hcollected hsgr.1) hsgr).setMode .none .text
  · exact (h.moveTo h.onScreen.origin.1 h.onScreen.origin.2).setMode .none .text
  · exact (h.setMode .none (.control bytes)).clear.setMode .none .text
  · exact h.setMode .none .text

/-- Every byte that the driver can take keeps the screen that of the terminal. -/
theorem Shown.receive (h : Shown s t) (hc : t.Takes c) :
    Shown (vgaPutChar vgaPalette s c) (t.receive c) := by
  unfold Terminal.Takes at hc
  cases h with
  | text h =>
      rw [h.mode] at hc
      unfold vgaPutChar Terminal.receive
      rw [h.esc, h.mode]
      dsimp only at hc ⊢
      split
      · exact .escape (h.setMode .esc .escape)
      · exact .text (h.character hc)
  | escape h =>
      unfold vgaPutChar Terminal.receive
      rw [h.esc, h.mode]
      dsimp only
      split
      · have hopen := h.setMode .csi (.control [])
        apply Shown.control []
        · exact { hopen with onScreen := ⟨h.onScreen.row, h.onScreen.col⟩ }
        · exact fun _ => Collected.begin
      · exact .text (h.setMode .none .text)
  | control bytes h hcollected =>
      rw [h.mode] at hc
      unfold vgaPutChar Terminal.receive
      rw [h.esc, h.mode]
      dsimp only at hc ⊢
      split
      · next hfinal => exact .text (h.perform hcollected hfinal hc)
      · next hfinal => exact h.collect hcollected (Bool.eq_false_iff.mpr hfinal)

end Streams

/-- The text mode of any size and the terminal, fed with the same bytes. -/
def terminalMachine : Machine (Vga VgaColours (BitVec 16) × Terminal) UInt8 where
  init s := ∃ cols rows video, 0 < cols ∧ 0 < rows ∧
    s = (vgaInit vgaPalette initialColours cols rows video, Terminal.init cols rows)
  step s c s' := s' = (vgaPutChar vgaPalette s.1 c, s.2.receive c)

/-- The same cursor, and in every cell the character and attribute of the terminal. -/
structure SameScreen (s : Vga VgaColours (BitVec 16)) (t : Terminal) : Prop where
  rows : s.rows = t.rows
  cols : s.cols = t.cols
  row : s.cursorRow = t.row
  col : s.cursorCol = t.col
  cells : ∀ r < t.rows, ∀ c < t.cols, s.video (r * t.cols + c) = cellEntry (t.cells r c)

theorem Displays.sameScreen {e : ConsoleEscState} {m : TerminalMode}
    {s : Vga VgaColours (BitVec 16)} {t : Terminal} (h : Displays e m s t) : SameScreen s t where
  rows := h.rows.symm
  cols := h.cols.symm
  row := h.row.symm
  col := h.col.symm
  cells := by
    rw [h.rows, h.cols]
    exact h.cells

theorem Shown.sameScreen {s : Vga VgaColours (BitVec 16)} {t : Terminal} (h : Shown s t) :
    SameScreen s t := by
  cases h with
  | text h => exact h.sameScreen
  | escape h => exact h.sameScreen
  | control bytes h _ => exact h.sameScreen

theorem shown_init {cols rows : Nat} (hcols : 0 < cols) (hrows : 0 < rows)
    (video : Nat → BitVec 16) :
    Shown (vgaInit vgaPalette initialColours cols rows video) (Terminal.init cols rows) := by
  apply Shown.text
  constructor
  · rfl
  · rfl
  · rfl
  · rfl
  · rfl
  · rfl
  · exact ⟨hrows, hcols⟩
  · exact initialColours_eq
  · have hclear : Cells.Shows (fun x cell => x = cellEntry cell) rows cols _ _ :=
      Cells.Shows.clear video
        (vgaEntry_of_lt (show blank < 0x80 by decide) Rendition.default.attribute)
    exact hclear

/-- As long as the driver can take the bytes the screen is that of the terminal. -/
theorem terminal_shown {s : Vga VgaColours (BitVec 16) × Terminal}
    (h : terminalMachine.Reaches (fun s c => s.2.Takes c) s) : SameScreen s.1 s.2 := by
  have hshown : Shown s.1 s.2 := by
    apply h.invariant
    · rintro _ ⟨cols, rows, video, hcols, hrows, rfl⟩
      exact shown_init hcols hrows video
    · rintro s c _ hs hc rfl
      exact hs.receive hc
  exact hshown.sameScreen

/-- Both get the bytes of a stream, as long as the guard holds. -/
def show80x25 (guard : Vga VgaColours (BitVec 16) × Terminal → UInt8 → Prop)
    [∀ s c, Decidable (guard s c)] (bytes : List UInt8) :
    Option (Vga VgaColours (BitVec 16) × Terminal) :=
  Machine.execAll (fun s c => some (vgaPutChar vgaPalette s.1 c, s.2.receive c)) guard bytes
    (vgaInit vgaPalette initialColours 80 25 fun _ => 0, Terminal.init 80 25)

theorem reaches_show80x25 {guard : Vga VgaColours (BitVec 16) × Terminal → UInt8 → Prop}
    [∀ s c, Decidable (guard s c)] {bytes : List UInt8}
    {s : Vga VgaColours (BitVec 16) × Terminal} (h : show80x25 guard bytes = some s) :
    terminalMachine.Reaches guard s := by
  have hstart : terminalMachine.Reaches guard
      (vgaInit vgaPalette initialColours 80 25 fun _ => 0, Terminal.init 80 25) :=
    .init ⟨80, 25, _, by decide, by decide, rfl⟩
  refine Machine.Reaches.execAll ?_ hstart h
  intro s c s' hs
  exact (Option.some.inj hs).symm

/-- A bright red character. -/
theorem terminal_shown_red : ∃ s,
    show80x25 (fun s c => s.2.Takes c) (escape :: cstr "[1;31mA") = some s ∧ SameScreen s.1 s.2 := by
  obtain ⟨s, hs⟩ := Option.isSome_iff_exists.mp
    (show (show80x25 (fun s c => s.2.Takes c) (escape :: cstr "[1;31mA")).isSome by decide +kernel)
  exact ⟨s, hs, terminal_shown (reaches_show80x25 hs)⟩

/-- The byte `0x80` at the begin of the screen: its sign is in the attribute of the cell. -/
theorem terminal_sign : ∃ s, show80x25 (fun _ _ => True) [0x80] = some s ∧
    terminalMachine.Reachable s ∧ s.1.video 0 = 0xFF80 ∧ cellEntry (s.2.cells 0 0) = 0x0780 ∧
    ¬ SameScreen s.1 s.2 := by
  obtain ⟨s, hs, hcell⟩ := (Option.any_eq_true _ _).mp
    (show (show80x25 (fun _ _ => True) [0x80]).any
      (fun s => s.1.video 0 = 0xFF80 ∧ s.2.rows = 25 ∧ s.2.cols = 80 ∧
        cellEntry (s.2.cells 0 0) = 0x0780) by decide +kernel)
  obtain ⟨hvideo, hrows, hcols, hterminal⟩ := of_decide_eq_true hcell
  refine ⟨s, hs, reaches_show80x25 hs, hvideo, hterminal, ?_⟩
  intro hsame
  have hfirst := hsame.cells 0 (by omega) 0 (by omega)
  rw [hcols, hterminal] at hfirst
  exact absurd (hvideo.symm.trans hfirst) (by decide)

end Punix
