import Punix.Arch.Console

/-!
Clearing the screen forgets everything but the colours. Two consoles with the same
colours show the same from then on, whatever they have shown before: the parameters of a
sequence are read only inside of a sequence, and nothing is read behind the last row.
-/

namespace Punix

open Lib

/-- The consoles show the same, and cannot be told apart by what is put to them. -/
structure Alike {γ β : Type} (s s' : Vga γ β) : Prop where
  rows : 0 < s.rows
  cols : 0 < s.cols
  con : s'.toConsole = s.toConsole
  colours : s'.colours = s.colours
  params : s.escState = .csi → s'.escParams = s.escParams ∧ s'.escParamCount = s.escParamCount
  video : ∀ i < s.rows * s.cols, s'.video i = s.video i

section Alike

variable {γ β : Type} {p : Palette γ β} {s s' : Vga γ β}

/-- The sizes of two consoles are the same. -/
def SameSize (s s' : Vga γ β) : Prop := s'.rows = s.rows ∧ s'.cols = s.cols

theorem SameSize.trans {s'' : Vga γ β} (h : SameSize s s') (h' : SameSize s' s'') :
    SameSize s s'' :=
  ⟨h'.1.trans h.1, h'.2.trans h.2⟩

theorem vgaWrap_size (s : Vga γ β) : SameSize s (vgaWrap p s) := by
  unfold vgaWrap
  split
  · exact ⟨rfl, rfl⟩
  · exact ⟨rfl, rfl⟩

theorem vgaTab_size (n : Nat) (s : Vga γ β) : SameSize s (vgaTab p n s) := by
  induction n generalizing s with
  | zero => exact ⟨rfl, rfl⟩
  | succ n ih => exact ih _

theorem vgaOutput_size (s : Vga γ β) (c : UInt8) : SameSize s (vgaOutput p s c) := by
  unfold vgaOutput
  split_ifs with hline hreturn hbackspace hright hdown htabulator
  · exact vgaWrap_size { s with cursorCol := 0, cursorRow := s.cursorRow + 1 }
  · exact vgaWrap_size { s with cursorCol := 0 }
  · exact vgaWrap_size (vgaPutCell p { s with cursorCol := s.cursorCol - 1 } blank)
  · exact vgaWrap_size
      (vgaPutCell p { s with cursorRow := s.cursorRow - 1, cursorCol := s.cols - 1 } blank)
  · exact ⟨rfl, rfl⟩
  · exact (vgaTab_size _ s).trans (vgaWrap_size _)
  · have hadvance : SameSize s { vgaPutCell p s c with toConsole := s.advance } := by
      unfold SameSize Console.advance
      split
      · exact ⟨rfl, rfl⟩
      · exact ⟨rfl, rfl⟩
    exact hadvance.trans (vgaWrap_size _)

theorem vgaCsi_size (s : Vga γ β) (c : UInt8) : SameSize s (vgaCsi p s c) := by
  unfold vgaCsi
  split_ifs
  all_goals exact ⟨rfl, rfl⟩

/-- No character changes the size. -/
theorem vgaPutChar_size (s : Vga γ β) (c : UInt8) : SameSize s (vgaPutChar p s c) := by
  unfold vgaPutChar
  split
  · split
    · exact ⟨rfl, rfl⟩
    · exact vgaOutput_size s c
  · split
    · exact ⟨rfl, rfl⟩
    · exact ⟨rfl, rfl⟩
  · exact vgaCsi_size s c
  · exact ⟨rfl, rfl⟩

theorem putChars_size (bytes : List UInt8) (s : Vga γ β) :
    SameSize s (bytes.foldl (vgaPutChar p) s) := by
  induction bytes generalizing s with
  | nil => exact ⟨rfl, rfl⟩
  | cons c bytes ih => exact (vgaPutChar_size s c).trans (ih _)

namespace Alike

/-- The consoles differ in what is not shown only. -/
theorem exists_eq (h : Alike s s') : ∃ video params count,
    s' = { s with video := video, escParams := params, escParamCount := count } := by
  have hcon := h.con
  have hcolours := h.colours
  obtain ⟨con', video', colours', params', count'⟩ := s'
  obtain rfl : con' = s.toConsole := hcon
  obtain rfl : colours' = s.colours := hcolours
  exact ⟨video', params', count', rfl⟩

theorem setCon (h : Alike s s') {con : Console} (hrows : con.rows = s.rows)
    (hcols : con.cols = s.cols) (hesc : con.escState = .csi → s.escState = .csi) :
    Alike { s with toConsole := con } { s' with toConsole := con } where
  rows := hrows ▸ h.rows
  cols := hcols ▸ h.cols
  con := rfl
  colours := h.colours
  params hcsi := h.params (hesc hcsi)
  video := by
    change ∀ i < con.rows * con.cols, _
    rw [hrows, hcols]
    exact h.video

theorem moveTo (h : Alike s s') (row col : Nat) :
    Alike { s with cursorRow := row, cursorCol := col }
      { s' with cursorRow := row, cursorCol := col } := by
  obtain ⟨video, params, count, rfl⟩ := h.exists_eq
  exact h.setCon rfl rfl id

theorem advance (h : Alike s s') :
    Alike { s with toConsole := s.advance } { s' with toConsole := s'.advance } := by
  rw [h.con]
  unfold Console.advance
  split
  · exact h.setCon rfl rfl id
  · exact h.setCon rfl rfl id

/-- Outside of a sequence its parameters do not matter. -/
theorem setEsc (h : Alike s s') {e : ConsoleEscState} (he : e ≠ .csi) :
    Alike { s with escState := e } { s' with escState := e } := by
  obtain ⟨video, params, count, rfl⟩ := h.exists_eq
  exact h.setCon rfl rfl (fun hcsi => absurd hcsi he)

theorem setColours (h : Alike s s') (colours : γ) :
    Alike { s with colours := colours } { s' with colours := colours } :=
  ⟨h.rows, h.cols, h.con, rfl, h.params, h.video⟩

theorem setParams (h : Alike s s') (params : Fin 8 → BitVec 32) (count : Nat) :
    Alike { s with escParams := params, escParamCount := count }
      { s' with escParams := params, escParamCount := count } :=
  ⟨h.rows, h.cols, h.con, h.colours, fun _ => ⟨rfl, rfl⟩, h.video⟩

theorem putCell (h : Alike s s') (c : UInt8) : Alike (vgaPutCell p s c) (vgaPutCell p s' c) where
  rows := h.rows
  cols := h.cols
  con := h.con
  colours := h.colours
  params := h.params
  video i (hi : i < s.rows * s.cols) := by
    change Function.update s'.video _ _ i = Function.update s.video _ _ i
    rw [h.con, h.colours]
    rcases eq_or_ne i (s.cursorRow * s.cols + s.cursorCol) with rfl | hne
    · rw [Function.update_self, Function.update_self]
    · rw [Function.update_of_ne hne, Function.update_of_ne hne, h.video i hi]

/-- The size and the colours alone are enough for an empty screen. -/
theorem clear (hrows : 0 < s.rows) (hcols : 0 < s.cols) (hrows' : s'.rows = s.rows)
    (hcols' : s'.cols = s.cols) (hcolours : s'.colours = s.colours) :
    Alike (vgaClear p s) (vgaClear p s') where
  rows := hrows
  cols := hcols
  con := by
    change Console.mk s'.cols s'.rows 0 0 .none = Console.mk s.cols s.rows 0 0 .none
    rw [hrows', hcols']
  colours := hcolours
  params hcsi := by cases hcsi
  video i (hi : i < s.rows * s.cols) := by
    change Cells.fill s'.video 0 _ (s'.cols * s'.rows) i =
      Cells.fill s.video 0 _ (s.cols * s.rows) i
    rw [hrows', hcols', Cells.fill_apply, Cells.fill_apply, Nat.mul_comm s.cols,
      if_pos (by omega), if_pos (by omega), hcolours]

/-- The last row is filled, and every other one is read from below. -/
theorem scroll (h : Alike s s') : Alike (vgaScroll p s) (vgaScroll p s') where
  rows := h.rows
  cols := h.cols
  con := congrArg (fun con => { con with cursorRow := con.rows - 1, cursorCol := 0 }) h.con
  colours := h.colours
  params := h.params
  video i (hi : i < s.rows * s.cols) := by
    change Cells.fill (Cells.shift s'.video s'.cols ((s'.rows - 1) * s'.cols)) _ _ s'.cols i =
      Cells.fill (Cells.shift s.video s.cols ((s.rows - 1) * s.cols)) _ _ s.cols i
    have hrows := h.rows
    have hall : s.rows * s.cols = (s.rows - 1) * s.cols + s.cols := by
      rw [← Nat.succ_mul]
      congr 1
      omega
    rw [h.con, h.colours, Cells.fill_apply, Cells.fill_apply, Cells.shift_apply _ h.cols,
      Cells.shift_apply _ h.cols]
    split
    · rfl
    · rw [if_pos (by omega), if_pos (by omega), h.video _ (by omega)]

theorem wrap (h : Alike s s') : Alike (vgaWrap p s) (vgaWrap p s') := by
  unfold vgaWrap
  rw [h.con]
  split
  · exact h.scroll
  · exact h

theorem tab (h : Alike s s') (n : Nat) : Alike (vgaTab p n s) (vgaTab p n s') := by
  induction n generalizing s s' with
  | zero => exact h
  | succ n ih =>
      obtain ⟨video, params, count, rfl⟩ := h.exists_eq
      apply ih
      exact (h.putCell blank).moveTo s.cursorRow (s.cursorCol + 1)

/-- What is shown of a character is told by the cursor and the colours. -/
theorem output (h : Alike s s') (c : UInt8) : Alike (vgaOutput p s c) (vgaOutput p s' c) := by
  have hput := (h.putCell (p := p) c).advance
  have htab := h.tab (p := p)
  obtain ⟨video, params, count, rfl⟩ := h.exists_eq
  unfold vgaOutput
  split_ifs with hline hreturn hbackspace hright hdown htabulator
  · exact (h.moveTo (s.cursorRow + 1) 0).wrap
  · exact (h.moveTo s.cursorRow 0).wrap
  · exact ((h.moveTo s.cursorRow (s.cursorCol - 1)).putCell blank).wrap
  · exact ((h.moveTo (s.cursorRow - 1) (s.cols - 1)).putCell blank).wrap
  · exact h
  · exact (htab _).wrap
  · exact hput.wrap

/-- Inside of a sequence the parameters are the same as well. -/
theorem csi (h : Alike s s') (hcsi : s.escState = .csi) (c : UInt8) :
    Alike (vgaCsi p s c) (vgaCsi p s' c) := by
  obtain ⟨hparams, hcount⟩ := h.params hcsi
  obtain ⟨video, params, count, rfl⟩ := h.exists_eq
  obtain rfl : params = s.escParams := hparams
  obtain rfl : count = s.escParamCount := hcount
  have hend := h.setEsc (e := .none) (by decide)
  unfold vgaCsi
  split_ifs with hdigit hsemicolon hroom hm hh hj hfinal
  · exact h.setParams _ _
  · exact h.setParams _ _
  · exact h
  · exact hend.setColours _
  · exact hend.moveTo 0 0
  · exact Alike.clear h.rows h.cols rfl rfl rfl
  · exact hend
  · exact h

/-- Outside of a sequence its old parameters are never read. -/
theorem putChar (h : Alike s s') (c : UInt8) : Alike (vgaPutChar p s c) (vgaPutChar p s' c) := by
  have hesc' : s'.escState = s.escState := congrArg Console.escState h.con
  unfold vgaPutChar
  rw [hesc']
  cases hesc : s.escState with
  | none =>
      dsimp only
      split
      · exact h.setEsc (e := .esc) (by decide)
      · exact h.output c
  | esc =>
      dsimp only
      split
      · exact ⟨h.rows, h.cols, congrArg (fun con => { con with escState := .csi }) h.con, h.colours,
          fun _ => ⟨rfl, rfl⟩, h.video⟩
      · exact h.setEsc (e := .none) (by decide)
  | csi => exact h.csi hesc c
  | csi0 => exact h.setEsc (e := .none) (by decide)
  | csi2 => exact h.setEsc (e := .none) (by decide)
  | csi3 => exact h.setEsc (e := .none) (by decide)
  | csiOther => exact h.setEsc (e := .none) (by decide)

/-- The same characters keep the consoles alike. -/
theorem putChars (h : Alike s s') (bytes : List UInt8) :
    Alike (bytes.foldl (vgaPutChar p) s) (bytes.foldl (vgaPutChar p) s') := by
  induction bytes generalizing s s' with
  | nil => exact h
  | cons c bytes ih => exact ih (h.putChar c)

end Alike

end Alike

end Punix
