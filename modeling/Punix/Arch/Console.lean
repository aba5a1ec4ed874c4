import Punix.Lib.Cells

/-!
The two console drivers (`console_vga.c`, `console_vesa.c`). Both interpret a few
escape sequences and otherwise put characters at the cursor. The driver for the text
mode stores characters with an attribute, in one array; what it does to the colours is
kept apart from the rest, as a palette. The driver for the framebuffer draws glyphs in
two colours that never change, so that it is told by the characters that have been
drawn. The hardware cursor is left out.
-/

namespace Punix

open Lib

/-- `enum console_esc_state`. -/
inductive ConsoleEscState where
  | none
  | esc
  | csi
  | csi0
  | csi2
  | csi3
  | csiOther
deriving DecidableEq, Repr

/-- `struct console`, without the attribute. -/
structure Console where
  cols : Nat
  rows : Nat
  cursorRow : Nat
  cursorCol : Nat
  escState : ConsoleEscState

def escape : UInt8 := 0x1B
def bracket : UInt8 := 91
def semicolon : UInt8 := 59
def blank : UInt8 := 32
def lineFeed : UInt8 := 10
def carriageReturn : UInt8 := 13
def backspace : UInt8 := 8
def tabulator : UInt8 := 9
/-- The final bytes `m`, `H` and `J`. -/
def finalM : UInt8 := 109
def finalH : UInt8 := 72
def finalJ : UInt8 := 74

/-- `'0' <= c && c <= '9'`. -/
def isParamDigit (c : UInt8) : Bool := 48 ≤ c ∧ c ≤ 57

/-- The bytes that end a sequence. -/
def isFinal (c : UInt8) : Bool := 0x40 ≤ c ∧ c ≤ 0x7E

def tabWidth : Nat := 8

/-- Where a tab stops: the next multiple of eight, or the last column. -/
def tabStop (con : Console) : Nat :=
  let next := (con.cursorCol + tabWidth) / tabWidth * tabWidth
  if next ≥ con.cols then con.cols - 1 else next

/-- `cursor_col++`, and on to the next row behind the last column. -/
def Console.advance (con : Console) : Console :=
  if con.cursorCol + 1 ≥ con.cols then { con with cursorCol := 0, cursorRow := con.cursorRow + 1 }
  else { con with cursorCol := con.cursorCol + 1 }

/-- The colours of the console: `console_data` and `attr` of the source are one
instance. `entry` is what is stored for a character, `sgr` what the sequence `ESC[...m`
does. -/
structure Palette (γ β : Type) where
  entry : UInt8 → γ → β
  sgr : List (BitVec 32) → γ → γ

/-- `struct console` and `struct vga_console_data`. -/
structure Vga (γ β : Type) extends Console where
  video : Nat → β
  colours : γ
  escParams : Fin 8 → BitVec 32
  escParamCount : Nat

section Vga

variable {γ β : Type} (p : Palette γ β)

/-- `video[cursor_row * cols + cursor_col] = vga_entry(c, attr)`. -/
def vgaPutCell (s : Vga γ β) (c : UInt8) : Vga γ β :=
  { s with video :=
      Function.update s.video (s.cursorRow * s.cols + s.cursorCol) (p.entry c s.colours) }

/-- The loops over the rows and columns run over the cells in order. -/
def vgaScroll (s : Vga γ β) : Vga γ β :=
  let video := Cells.shift s.video s.cols ((s.rows - 1) * s.cols)
  { s with
    video := Cells.fill video ((s.rows - 1) * s.cols) (p.entry blank s.colours) s.cols
    cursorRow := s.rows - 1
    cursorCol := 0 }

def vgaClear (s : Vga γ β) : Vga γ β :=
  { s with
    video := Cells.fill s.video 0 (p.entry blank s.colours) (s.cols * s.rows)
    cursorRow := 0
    cursorCol := 0
    escState := .none }

def vgaDigit (s : Vga γ β) (c : UInt8) : Vga γ β :=
  let count := if s.escParamCount = 0 then 1 else s.escParamCount
  let idx := count - 1
  { s with
    escParamCount := count
    escParams :=
      if h : idx < 8 then
        Function.update s.escParams ⟨idx, h⟩
          (s.escParams ⟨idx, h⟩ * 10 + BitVec.ofNat 32 (c.toNat - 48))
      else s.escParams }

/-- The parameters of the sequence that ends. -/
def Vga.params (s : Vga γ β) : List (BitVec 32) :=
  ((List.finRange 8).take s.escParamCount).map s.escParams

/-- The case `CON_ESC_CSI`. -/
def vgaCsi (s : Vga γ β) (c : UInt8) : Vga γ β :=
  if isParamDigit c then vgaDigit s c
  else if c = semicolon then
    if s.escParamCount < 8 then { s with escParamCount := s.escParamCount + 1 } else s
  else if c = finalM then { s with colours := p.sgr s.params s.colours, escState := .none }
  else if c = finalH then { s with cursorRow := 0, cursorCol := 0, escState := .none }
  else if c = finalJ then vgaClear p { s with escState := .none }
  else if isFinal c then { s with escState := .none }
  else s

/-- `n` blanks of a tab. -/
def vgaTab : Nat → Vga γ β → Vga γ β
  | 0, s => s
  | n + 1, s =>
      let s := vgaPutCell p s blank
      vgaTab n { s with cursorCol := s.cursorCol + 1 }

/-- `if (con->cursor_row >= con->rows) vga_scroll(con)`. -/
def vgaWrap (s : Vga γ β) : Vga γ β := if s.cursorRow ≥ s.rows then vgaScroll p s else s

/-- The output of a character. -/
def vgaOutput (s : Vga γ β) (c : UInt8) : Vga γ β :=
  if c = lineFeed then vgaWrap p { s with cursorCol := 0, cursorRow := s.cursorRow + 1 }
  else if c = carriageReturn then vgaWrap p { s with cursorCol := 0 }
  else if c = backspace then
    if s.cursorCol > 0 then vgaWrap p (vgaPutCell p { s with cursorCol := s.cursorCol - 1 } blank)
    else if s.cursorRow > 0 then
      vgaWrap p (vgaPutCell p { s with cursorRow := s.cursorRow - 1, cursorCol := s.cols - 1 } blank)
    else s
  else if c = tabulator then vgaWrap p (vgaTab p (tabStop s.toConsole - s.cursorCol) s)
  else
    let s := vgaPutCell p s c
    vgaWrap p { s with toConsole := s.advance }

def vgaPutChar (s : Vga γ β) (c : UInt8) : Vga γ β :=
  match s.escState with
  | .none => if c = escape then { s with escState := .esc } else vgaOutput p s c
  | .esc =>
      if c = bracket then
        { s with escState := .csi, escParamCount := 0, escParams := fun _ => 0 }
      else { s with escState := .none }
  | .csi => vgaCsi p s c
  | _ => { s with escState := .none }

/-- `vga_init` on a screen of any size, with the colours set. -/
def vgaInit (colours : γ) (cols rows : Nat) (video : Nat → β) : Vga γ β :=
  vgaClear p
    { cols, rows, cursorRow := 0, cursorCol := 0, escState := .none, video, colours
      escParams := fun _ => 0, escParamCount := 0 }

end Vga

/-- `ansi_fg`, `ansi_bg` and `bright`, and the attribute that is made of them. -/
structure VgaColours where
  ansiFg : UInt8
  ansiBg : UInt8
  bright : UInt8
  attr : UInt8
deriving DecidableEq

/-- `vga_entry`; a `char` is signed. -/
def vgaEntry (c attr : UInt8) : BitVec 16 :=
  c.toBitVec.signExtend 16 ||| attr.toBitVec.setWidth 16 <<< 8

def ansiToVgaColor (ansi bright : UInt8) : UInt8 :=
  match ansi.toNat with
  | 0 => if bright ≠ 0 then 8 else 0
  | 1 => if bright ≠ 0 then 12 else 4
  | 2 => if bright ≠ 0 then 10 else 2
  | 3 => if bright ≠ 0 then 14 else 6
  | 4 => if bright ≠ 0 then 9 else 1
  | 5 => if bright ≠ 0 then 13 else 5
  | 6 => if bright ≠ 0 then 11 else 3
  | 7 => if bright ≠ 0 then 15 else 7
  | _ => 7

/-- `VGA_ATTR`. -/
def vgaAttr (fg bg : UInt8) : UInt8 := bg <<< 4 ||| fg

def vgaUpdateAttr (s : VgaColours) : VgaColours :=
  { s with attr := vgaAttr (ansiToVgaColor s.ansiFg s.bright) (ansiToVgaColor s.ansiBg 0) }

/-- `ESC[m` and `ESC[0m`. -/
def resetColours (s : VgaColours) : VgaColours := { s with ansiFg := 7, ansiBg := 0, bright := 0 }

/-- The body of the loop of `vga_handle_sgr`. -/
def sgrParam (s : VgaColours) (param : BitVec 32) : VgaColours :=
  if param = 0 then resetColours s
  else if param = 1 then { s with bright := 1 }
  else if 30 ≤ param.toInt ∧ param.toInt ≤ 37 then
    { s with ansiFg := UInt8.ofNat (param - 30).toNat }
  else if 40 ≤ param.toInt ∧ param.toInt ≤ 47 then
    { s with ansiBg := UInt8.ofNat (param - 40).toNat }
  else s

def vgaHandleSgr (params : List (BitVec 32)) (s : VgaColours) : VgaColours :=
  if params = [] then vgaUpdateAttr (resetColours s)
  else vgaUpdateAttr (params.foldl sgrParam s)

def vgaPalette : Palette VgaColours (BitVec 16) where
  entry c s := vgaEntry c s.attr
  sgr := vgaHandleSgr

/-- The colours after `vga_init`. -/
def initialColours : VgaColours :=
  vgaUpdateAttr { ansiFg := 7, ansiBg := 0, bright := 0, attr := 0 }

/-- The character that is drawn in each row and column. -/
structure Vesa extends Console where
  cells : Nat → Nat → UInt8

def vesaDrawGlyph (s : Vesa) (x y : Nat) (c : UInt8) : Vesa :=
  { s with cells := Function.update s.cells y (Function.update (s.cells y) x c) }

def vesaScroll (s : Vesa) : Vesa :=
  { s with
    cells := fun row =>
      if row < s.rows - 1 then s.cells (row + 1)
      else if row = s.rows - 1 then fun _ => blank
      else s.cells row
    cursorRow := s.rows - 1
    cursorCol := 0 }

def vesaClear (s : Vesa) : Vesa :=
  { s with cells := fun _ _ => blank, cursorRow := 0, cursorCol := 0, escState := .none }

/-- `ESC[H`. -/
def vesaHome (s : Vesa) : Vesa := { s with cursorRow := 0, cursorCol := 0, escState := .none }

/-- The case `CON_ESC_CSI`. -/
def vesaCsi (s : Vesa) (c : UInt8) : Vesa :=
  if c = finalH then vesaHome s
  else if c = finalJ then vesaClear { s with escState := .none }
  else if c = 48 then { s with escState := .csi0 }
  else if c = 50 then { s with escState := .csi2 }
  else if c = 51 then { s with escState := .csi3 }
  else { s with escState := .csiOther }

/-- The cases `CON_ESC_CSI_0`, `CON_ESC_CSI_2` and `CON_ESC_CSI_3`. -/
def vesaCsiDigit (s : Vesa) (c : UInt8) : Vesa :=
  if c = finalH then vesaHome s
  else if c = finalJ then vesaClear { s with escState := .none }
  else { s with escState := .none }

def vesaTab : Nat → Vesa → Vesa
  | 0, s => s
  | n + 1, s =>
      let s := vesaDrawGlyph s s.cursorCol s.cursorRow blank
      vesaTab n { s with cursorCol := s.cursorCol + 1 }

def vesaWrap (s : Vesa) : Vesa := if s.cursorRow ≥ s.rows then vesaScroll s else s

def vesaOutput (s : Vesa) (c : UInt8) : Vesa :=
  if c = lineFeed then vesaWrap { s with cursorCol := 0, cursorRow := s.cursorRow + 1 }
  else if c = carriageReturn then vesaWrap { s with cursorCol := 0 }
  else if c = backspace then
    if s.cursorCol > 0 then
      let s := { s with cursorCol := s.cursorCol - 1 }
      vesaDrawGlyph s s.cursorCol s.cursorRow blank
    else if s.cursorRow > 0 then
      let s := { s with cursorRow := s.cursorRow - 1, cursorCol := s.cols - 1 }
      vesaDrawGlyph s s.cursorCol s.cursorRow blank
    else s
  else if c = tabulator then vesaWrap (vesaTab (tabStop s.toConsole - s.cursorCol) s)
  else
    let s := vesaDrawGlyph s s.cursorCol s.cursorRow c
    vesaWrap { s with toConsole := s.advance }

def vesaPutChar (s : Vesa) (c : UInt8) : Vesa :=
  match s.escState with
  | .none => if c = escape then { s with escState := .esc } else vesaOutput s c
  | .esc => if c = bracket then { s with escState := .csi } else { s with escState := .none }
  | .csi => vesaCsi s c
  | .csi0 => vesaCsiDigit s c
  | .csi2 => vesaCsiDigit s c
  | .csi3 => vesaCsiDigit s c
  | .csiOther => if isFinal c then { s with escState := .none } else s

def vesaInit (cols rows : Nat) : Vesa :=
  vesaClear { cols, rows, cursorRow := 0, cursorCol := 0, escState := .none, cells := fun _ _ => blank }

end Punix
