import Punix.Lib.Machine
import Punix.Kernel.Kutils
import Punix.Arch.Console

/-!
The two drivers show the same as long as their parsers are in step. They put characters
at the cursor in the same way; the sequences are told apart differently, so that the
drivers agree on `ESC[H`, `ESC[J`, `ESC[2J` and the like, but not on `ESC[31m`.
-/

namespace Punix

open Lib

/-- The cursor is in a cell. -/
structure Console.OnScreen (con : Console) : Prop where
  row : con.cursorRow < con.rows
  col : con.cursorCol < con.cols

/-- The same cursor, and the same character in every cell; `e` and `e'` are the states of
the parsers. -/
structure Same {γ β : Type} (char : β → UInt8) (e e' : ConsoleEscState) (s : Vga γ β) (v : Vesa) :
    Prop where
  esc : s.escState = e
  con : v.toConsole = { s.toConsole with escState := e' }
  cells : ∀ r < s.rows, ∀ c < s.cols, char (s.video (r * s.cols + c)) = v.cells r c

/-- The next column, or the first one. -/
theorem Console.OnScreen.advance {con : Console} (h : con.OnScreen) :
    con.advance.rows = con.rows ∧ con.advance.cols = con.cols ∧
      con.advance.cursorCol < con.cols := by
  have hcol := h.col
  unfold Console.advance
  split
  · exact ⟨rfl, rfl, Nat.zero_lt_of_lt hcol⟩
  · next hlt => exact ⟨rfl, rfl, Nat.not_le.mp hlt⟩

section Output

variable {γ β : Type} {p : Palette γ β} {char : β → UInt8} {e e' : ConsoleEscState}
variable {s : Vga γ β} {v : Vesa}

theorem vgaWrap_eq_self (h : s.cursorRow < s.rows) : vgaWrap p s = s :=
  if_neg (Nat.not_le.mpr h)

namespace Same

theorem shows (h : Same char e e' s v) :
    Cells.Shows (fun x c => char x = c) s.rows s.cols s.video v.cells := h.cells

theorem moveTo (h : Same char e e' s v) (row col : Nat) :
    Same char e e' { s with cursorRow := row, cursorCol := col }
      { v with cursorRow := row, cursorCol := col } where
  esc := h.esc
  con := congrArg (fun con => { con with cursorRow := row, cursorCol := col }) h.con
  cells := h.cells

theorem setEsc (h : Same char e e' s v) (f f' : ConsoleEscState) :
    Same char f f' { s with escState := f } { v with escState := f' } where
  esc := rfl
  con := congrArg (fun con => { con with escState := f' }) h.con
  cells := h.cells

theorem advance (h : Same char e e' s v) (hon : s.OnScreen) :
    Same char e e' { s with toConsole := s.advance } { v with toConsole := v.advance } where
  esc := by
    rw [← h.esc]
    unfold Console.advance
    split <;> rfl
  con := by
    change v.toConsole.advance = { s.toConsole.advance with escState := e' }
    rw [h.con]
    unfold Console.advance
    dsimp only
    split <;> rfl
  cells := by
    obtain ⟨hrows, hcols, _⟩ := hon.advance
    change ∀ r < s.toConsole.advance.rows, ∀ c < s.toConsole.advance.cols, _
    rw [hrows, hcols]
    exact h.cells

/-- A character at the cursor. -/
theorem putCell (hchar : ∀ c x, char (p.entry c x) = c) (h : Same char e e' s v)
    (hcol : s.cursorCol < s.cols) (c : UInt8) :
    Same char e e' (vgaPutCell p s c) (vesaDrawGlyph v s.cursorCol s.cursorRow c) where
  esc := h.esc
  con := h.con
  cells := h.shows.store hcol (hchar _ _)

/-- What was shown before does not matter. -/
theorem clear (hchar : ∀ c x, char (p.entry c x) = c)
    (hcon : v.toConsole = { s.toConsole with escState := e' }) :
    Same char .none .none (vgaClear p s) (vesaClear v) where
  esc := rfl
  con := congrArg
    (fun con => { con with cursorRow := 0, cursorCol := 0, escState := ConsoleEscState.none }) hcon
  cells := by
    have hclear : Cells.Shows (fun x c => char x = c) s.rows s.cols _ _ :=
      Cells.Shows.clear s.video (hchar blank s.colours)
    exact hclear

theorem scroll (hchar : ∀ c x, char (p.entry c x) = c) (h : Same char e e' s v)
    (hcols : 0 < s.cols) : Same char e e' (vgaScroll p s) (vesaScroll v) where
  esc := h.esc
  con := congrArg (fun con => { con with cursorRow := con.rows - 1, cursorCol := 0 }) h.con
  cells := by
    have hrows : v.rows = s.rows := by rw [h.con]
    unfold vesaScroll
    rw [hrows]
    exact h.shows.scroll hcols (hchar blank s.colours)

/-- A new line at the bottom scrolls. -/
theorem wrap (hchar : ∀ c x, char (p.entry c x) = c) (h : Same char e e' s v)
    (hcol : s.cursorCol < s.cols) (hrows : 0 < s.rows) :
    Same char e e' (vgaWrap p s) (vesaWrap v) ∧ (vgaWrap p s).OnScreen := by
  have hrow' : v.cursorRow = s.cursorRow := by rw [h.con]
  have hrows' : v.rows = s.rows := by rw [h.con]
  unfold vgaWrap vesaWrap
  rw [hrow', hrows']
  split
  · refine ⟨h.scroll hchar (Nat.zero_lt_of_lt hcol), ?_, Nat.zero_lt_of_lt hcol⟩
    change s.rows - 1 < s.rows
    omega
  · exact ⟨h, by omega, hcol⟩

theorem tab (hchar : ∀ c x, char (p.entry c x) = c) (h : Same char e e' s v) {n : Nat}
    (hn : s.cursorCol + n < s.cols) :
    Same char e e' (vgaTab p n s) (vesaTab n v) ∧ (vgaTab p n s).rows = s.rows ∧
      (vgaTab p n s).cursorRow = s.cursorRow ∧ (vgaTab p n s).cursorCol < (vgaTab p n s).cols := by
  induction n generalizing s v with
  | zero => exact ⟨h, rfl, rfl, hn⟩
  | succ n ih =>
      have hput := h.putCell hchar (by omega) blank
      have hnext := hput.moveTo s.cursorRow (s.cursorCol + 1)
      have hstep := ih hnext (show s.cursorCol + 1 + n < s.cols by omega)
      obtain ⟨con, cells⟩ := v
      obtain rfl : con = _ := h.con
      exact hstep

end Same

theorem tabStop_lt {con : Console} (h : con.OnScreen) : tabStop con < con.cols := by
  have hcol := h.col
  unfold tabStop
  dsimp only
  split <;> omega

/-- Both drivers put the character in the same way. -/
theorem Same.output (hchar : ∀ c x, char (p.entry c x) = c) (h : Same char e e' s v)
    (hon : s.OnScreen) (c : UInt8) :
    Same char e e' (vgaOutput p s c) (vesaOutput v c) ∧ (vgaOutput p s c).OnScreen := by
  have hrow := hon.row
  have hcol := hon.col
  have hrows : 0 < s.rows := Nat.zero_lt_of_lt hrow
  have hcols : 0 < s.cols := Nat.zero_lt_of_lt hcol
  have hput := (h.putCell hchar hcol c).advance hon
  obtain ⟨hrows', hcols', hcol'⟩ := hon.advance
  have hstop := tabStop_lt hon
  have htab := h.tab hchar (n := tabStop s.toConsole - s.cursorCol) (by omega)
  have hback {row col : Nat} (hrow' : row < s.rows) (hcol' : col < s.cols) :
      Same char e e' (vgaWrap p (vgaPutCell p { s with cursorRow := row, cursorCol := col } blank))
        (vesaDrawGlyph { v with cursorRow := row, cursorCol := col } col row blank) ∧
      (vgaWrap p (vgaPutCell p { s with cursorRow := row, cursorCol := col } blank)).OnScreen := by
    rw [vgaWrap_eq_self hrow']
    exact ⟨(h.moveTo row col).putCell hchar hcol' blank, hrow', hcol'⟩
  obtain ⟨con, cells⟩ := v
  obtain rfl : con = _ := h.con
  unfold vgaOutput vesaOutput
  split_ifs with hline hreturn hbackspace hright hdown htabulator
  · exact (h.moveTo (s.cursorRow + 1) 0).wrap hchar hcols hrows
  · exact (h.moveTo s.cursorRow 0).wrap hchar hcols hrows
  · exact hback hrow (by omega)
  · exact hback (by omega) (by omega)
  · exact ⟨h, hon⟩
  · obtain ⟨hsame, hrows', hrow', hcol'⟩ := htab
    exact hsame.wrap hchar hcol' (by omega)
  · apply hput.wrap hchar
    · change s.toConsole.advance.cursorCol < s.toConsole.advance.cols
      omega
    · change 0 < s.toConsole.advance.rows
      omega

theorem not_isFinal_of_digit {c : UInt8} (h : isParamDigit c) : isFinal c = false := by
  simp only [isParamDigit, decide_eq_true_eq, UInt8.le_iff_toNat_le] at h
  simp only [isFinal, decide_eq_false_iff_not, UInt8.le_iff_toNat_le]
  have hlow : (0x40 : UInt8).toNat = 64 := rfl
  have hhigh : (57 : UInt8).toNat = 57 := rfl
  omega

/-- What `vga_put_char` does inside of a sequence: only the final bytes `H` and `J` change
what is shown, and only a final byte ends it. -/
theorem vgaCsi_cases (p : Palette γ β) (s : Vga γ β) (c : UInt8) :
    (c = finalH ∧ vgaCsi p s c = { s with cursorRow := 0, cursorCol := 0, escState := .none }) ∨
    (c = finalJ ∧ vgaCsi p s c = vgaClear p { s with escState := .none }) ∨
    (c ≠ finalH ∧ c ≠ finalJ ∧ (vgaCsi p s c).video = s.video ∧ (vgaCsi p s c).toConsole =
      { s.toConsole with escState := if isFinal c then .none else s.escState }) := by
  rcases eq_or_ne c finalH with rfl | hh
  · exact .inl ⟨rfl, rfl⟩
  rcases eq_or_ne c finalJ with rfl | hj
  · exact .inr (.inl ⟨rfl, rfl⟩)
  refine .inr (.inr ⟨hh, hj, ?_⟩)
  unfold vgaCsi
  rw [if_neg hh, if_neg hj]
  by_cases hdigit : isParamDigit c
  · rw [if_pos hdigit, not_isFinal_of_digit hdigit]
    exact ⟨rfl, rfl⟩
  rw [if_neg hdigit]
  rcases eq_or_ne c semicolon with rfl | hsemicolon
  · rw [if_pos rfl]
    split <;> exact ⟨rfl, rfl⟩
  rw [if_neg hsemicolon]
  rcases eq_or_ne c finalM with rfl | hm
  · exact ⟨rfl, rfl⟩
  rw [if_neg hm]
  cases isFinal c <;> exact ⟨rfl, rfl⟩

/-- The states in which both parsers wait for the same. -/
inductive InStep : ConsoleEscState → ConsoleEscState → Prop
  | none : InStep .none .none
  | esc : InStep .esc .esc
  | csi : InStep .csi .csi
  | csi0 : InStep .csi .csi0
  | csi2 : InStep .csi .csi2
  | csi3 : InStep .csi .csi3
  | csiOther : InStep .csi .csiOther

/-- The byte is told the same by both parsers, in this state of `vesa_put_char`. -/
def StaysInStep (c : UInt8) : ConsoleEscState → Prop
  | .csi => isFinal c → c = finalH ∨ c = finalJ
  | .csi0 => isFinal c
  | .csi2 => isFinal c
  | .csi3 => isFinal c
  | .csiOther => c ≠ finalH ∧ c ≠ finalJ
  | .none => True
  | .esc => True

instance (c : UInt8) (e : ConsoleEscState) : Decidable (StaysInStep c e) := by
  cases e <;> unfold StaysInStep <;> infer_instance

/-- The drivers show the same, and their parsers are in step. -/
structure Agree (char : β → UInt8) (s : Vga γ β) (v : Vesa) : Prop where
  same : ∃ e e', InStep e e' ∧ Same char e e' s v
  onScreen : s.OnScreen

/-- A sequence goes on, or ends with nothing shown. -/
theorem Same.csi_other (h : Same char .csi e' s v) {c : UInt8}
    (hvideo : (vgaCsi p s c).video = s.video)
    (hcon : (vgaCsi p s c).toConsole = { s.toConsole with escState := if isFinal c then .none else s.escState })
    (f' : ConsoleEscState) :
    Same char (if isFinal c then .none else .csi) f' (vgaCsi p s c) { v with escState := f' } where
  esc := by rw [hcon, ← h.esc]
  con := by
    change { v.toConsole with escState := f' } = { (vgaCsi p s c).toConsole with escState := f' }
    rw [hcon, h.con]
  cells := by
    rw [hvideo, hcon]
    exact h.cells

theorem Same.home (h : Same char e e' s v) :
    Same char .none .none { s with cursorRow := 0, cursorCol := 0, escState := .none }
      (vesaHome v) :=
  (h.moveTo 0 0).setEsc .none .none

/-- The upper left corner is a cell. -/
theorem Console.OnScreen.origin {con : Console} (h : con.OnScreen) :
    0 < con.rows ∧ 0 < con.cols :=
  ⟨Nat.zero_lt_of_lt h.row, Nat.zero_lt_of_lt h.col⟩

/-- The parameters and the final byte of a sequence. -/
theorem Agree.csi_step (hchar : ∀ c x, char (p.entry c x) = c) (h : Same char .csi e' s v)
    (hon : s.OnScreen) (hin : InStep .csi e') {c : UInt8} (hc : StaysInStep c e') :
    Agree char (vgaCsi p s c) (vesaPutChar v c) := by
  have hesc : v.escState = e' := by rw [h.con]
  obtain ⟨hrows, hcols⟩ := hon.origin
  unfold vesaPutChar
  rw [hesc]
  rcases vgaCsi_cases p s c with ⟨rfl, hhome⟩ | ⟨rfl, hclear⟩ | ⟨hh, hj, hvideo, hcon⟩
  · rw [hhome]
    refine ⟨⟨.none, .none, .none, ?_⟩, hrows, hcols⟩
    cases hin with
    | csiOther => exact absurd rfl hc.1
    | csi => exact h.home
    | csi0 => exact h.home
    | csi2 => exact h.home
    | csi3 => exact h.home
  · rw [hclear]
    refine ⟨⟨.none, .none, .none, ?_⟩, hrows, hcols⟩
    cases hin with
    | csiOther => exact absurd rfl hc.2
    | csi => exact Same.clear hchar (h.setEsc .none .none).con
    | csi0 => exact Same.clear hchar (h.setEsc .none .none).con
    | csi2 => exact Same.clear hchar (h.setEsc .none .none).con
    | csi3 => exact Same.clear hchar (h.setEsc .none .none).con
  · have hkeeps : (vgaCsi p s c).OnScreen := by
      rw [hcon]
      exact ⟨hon.row, hon.col⟩
    refine ⟨?_, hkeeps⟩
    have hother := h.csi_other hvideo hcon
    cases hin with
    | csi =>
        have hfinal : isFinal c = false := by
          rw [Bool.eq_false_iff]
          exact fun hfinal => (hc hfinal).elim hh hj
        rw [hfinal] at hother
        dsimp only
        rw [vesaCsi, if_neg hh, if_neg hj]
        split_ifs
        · exact ⟨_, _, .csi0, hother .csi0⟩
        · exact ⟨_, _, .csi2, hother .csi2⟩
        · exact ⟨_, _, .csi3, hother .csi3⟩
        · exact ⟨_, _, .csiOther, hother .csiOther⟩
    | csiOther =>
        dsimp only
        cases hfinal : isFinal c with
        | true =>
            rw [hfinal] at hother
            exact ⟨_, _, .none, hother .none⟩
        | false =>
            rw [hfinal] at hother
            have hsame := hother .csiOther
            have hv : { v with escState := .csiOther } = v := by rw [← hesc]
            rw [hv] at hsame
            exact ⟨_, _, .csiOther, hsame⟩
    | csi0 =>
        rw [show isFinal c = true from hc] at hother
        dsimp only
        rw [vesaCsiDigit, if_neg hh, if_neg hj]
        exact ⟨_, _, .none, hother .none⟩
    | csi2 =>
        rw [show isFinal c = true from hc] at hother
        dsimp only
        rw [vesaCsiDigit, if_neg hh, if_neg hj]
        exact ⟨_, _, .none, hother .none⟩
    | csi3 =>
        rw [show isFinal c = true from hc] at hother
        dsimp only
        rw [vesaCsiDigit, if_neg hh, if_neg hj]
        exact ⟨_, _, .none, hother .none⟩

/-- Every byte on which the parsers stay in step keeps the agreement. -/
theorem Agree.step (hchar : ∀ c x, char (p.entry c x) = c) (h : Agree char s v) {c : UInt8}
    (hc : StaysInStep c v.escState) : Agree char (vgaPutChar p s c) (vesaPutChar v c) := by
  obtain ⟨⟨e, e', hin, hsame⟩, hon⟩ := h
  have hesc : v.escState = e' := by rw [hsame.con]
  have hvga := hsame.esc
  cases e with
  | none =>
      cases hin
      unfold vgaPutChar vesaPutChar
      rw [hvga, hesc]
      dsimp only
      split
      · exact ⟨⟨_, _, .esc, hsame.setEsc .esc .esc⟩, hon.row, hon.col⟩
      · obtain ⟨hput, hon'⟩ := hsame.output hchar hon c
        exact ⟨⟨_, _, .none, hput⟩, hon'⟩
  | esc =>
      cases hin
      unfold vgaPutChar vesaPutChar
      rw [hvga, hesc]
      dsimp only
      split
      · have hopen := hsame.setEsc .csi .csi
        exact ⟨⟨_, _, .csi, ⟨hopen.esc, hopen.con, hopen.cells⟩⟩, hon.row, hon.col⟩
      · exact ⟨⟨_, _, .none, hsame.setEsc .none .none⟩, hon.row, hon.col⟩
  | csi =>
      have hcsi : vgaPutChar p s c = vgaCsi p s c := by
        unfold vgaPutChar
        rw [hvga]
      rw [hcsi]
      rw [hesc] at hc
      exact Agree.csi_step hchar hsame hon hin hc
  | csi0 => cases hin
  | csi2 => cases hin
  | csi3 => cases hin
  | csiOther => cases hin

end Output

/-- The character of a cell of the text mode. -/
def entryChar (entry : BitVec 16) : UInt8 := ⟨entry.setWidth 8⟩

theorem entryChar_vgaEntry (c attr : UInt8) : entryChar (vgaEntry c attr) = c := by
  have hlow : (vgaEntry c attr).setWidth 8 = c.toBitVec := by
    apply BitVec.eq_of_getLsbD_eq
    intro i hi
    rw [vgaEntry, BitVec.getLsbD_setWidth, BitVec.getLsbD_or, BitVec.getLsbD_signExtend,
      BitVec.getLsbD_shiftLeft]
    simp [hi, show i < 16 by omega]
  rw [entryChar, hlow]

/-- The text mode and a framebuffer of the same size, fed with the same bytes. -/
def consoleMachine : Machine (Vga VgaColours (BitVec 16) × Vesa) UInt8 where
  init s := ∃ cols rows video, 0 < cols ∧ 0 < rows ∧
    s = (vgaInit vgaPalette initialColours cols rows video, vesaInit cols rows)
  step s c s' := s' = (vgaPutChar vgaPalette s.1 c, vesaPutChar s.2 c)

/-- The same cursor, and the same character in every cell of the screen. -/
structure SameDisplay (s : Vga VgaColours (BitVec 16)) (v : Vesa) : Prop where
  cursorRow : v.cursorRow = s.cursorRow
  cursorCol : v.cursorCol = s.cursorCol
  cells : ∀ r < s.rows, ∀ c < s.cols, entryChar (s.video (r * s.cols + c)) = v.cells r c

theorem Agree.sameDisplay {s : Vga VgaColours (BitVec 16)} {v : Vesa} (h : Agree entryChar s v) :
    SameDisplay s v := by
  obtain ⟨_, _, _, hsame⟩ := h.same
  exact ⟨by rw [hsame.con], by rw [hsame.con], hsame.cells⟩

theorem agree_init {cols rows : Nat} (hcols : 0 < cols) (hrows : 0 < rows) (video : Nat → BitVec 16) :
    Agree entryChar (vgaInit vgaPalette initialColours cols rows video) (vesaInit cols rows) := by
  refine ⟨⟨.none, .none, .none, ?_⟩, hrows, hcols⟩
  have hchar (c : UInt8) (x : VgaColours) : entryChar (vgaPalette.entry c x) = c :=
    entryChar_vgaEntry c x.attr
  apply Same.clear hchar
  rfl

/-- As long as the parsers stay in step both drivers show the same after every byte. -/
theorem consoles_agree {s : Vga VgaColours (BitVec 16) × Vesa}
    (h : consoleMachine.Reaches (fun s c => StaysInStep c s.2.escState) s) :
    SameDisplay s.1 s.2 := by
  have hagree : Agree entryChar s.1 s.2 := by
    apply h.invariant
    · rintro _ ⟨cols, rows, video, hcols, hrows, rfl⟩
      exact agree_init hcols hrows video
    · rintro s c _ hs hc rfl
      exact hs.step (fun c x => entryChar_vgaEntry c x.attr) hc
  exact hagree.sameDisplay

/-- Both drivers get the bytes of a stream, as long as the guard holds. -/
def feed (guard : Vga VgaColours (BitVec 16) × Vesa → UInt8 → Prop) [∀ s c, Decidable (guard s c)]
    (cols rows : Nat) (bytes : List UInt8) : Option (Vga VgaColours (BitVec 16) × Vesa) :=
  Machine.execAll (fun s c => some (vgaPutChar vgaPalette s.1 c, vesaPutChar s.2 c)) guard bytes
    (vgaInit vgaPalette initialColours cols rows fun _ => 0, vesaInit cols rows)

theorem reaches_feed {guard : Vga VgaColours (BitVec 16) × Vesa → UInt8 → Prop}
    [∀ s c, Decidable (guard s c)] {cols rows : Nat} (hcols : 0 < cols) (hrows : 0 < rows)
    {bytes : List UInt8} {s : Vga VgaColours (BitVec 16) × Vesa}
    (h : feed guard cols rows bytes = some s) : consoleMachine.Reaches guard s := by
  have hstart : consoleMachine.Reaches guard
      (vgaInit vgaPalette initialColours cols rows fun _ => 0, vesaInit cols rows) :=
    .init ⟨cols, rows, _, hcols, hrows, rfl⟩
  refine Machine.Reaches.execAll ?_ hstart h
  intro s c s' hs
  exact (Option.some.inj hs).symm

/-- A character, a cleared screen, and another one. -/
theorem consoles_agree_clear : ∃ s, feed (fun s c => StaysInStep c s.2.escState) 80 25
    (cstr "a" ++ escape :: cstr "[2J" ++ escape :: cstr "[Hb") = some s ∧ SameDisplay s.1 s.2 := by
  obtain ⟨s, hs⟩ := Option.isSome_iff_exists.mp
    (show (feed (fun s c => StaysInStep c s.2.escState) 80 25
      (cstr "a" ++ escape :: cstr "[2J" ++ escape :: cstr "[Hb")).isSome by decide +kernel)
  exact ⟨s, hs, consoles_agree (reaches_feed (by decide) (by decide) hs)⟩

/-- A character in red: the framebuffer shows the `m` of the sequence as well. -/
theorem consoles_differ : ∃ s, feed (fun _ _ => True) 80 25 (escape :: cstr "[31mA") = some s ∧
    consoleMachine.Reachable s ∧ s.1.cursorCol = 1 ∧ entryChar (s.1.video 0) = 65 ∧
    s.2.cursorCol = 2 ∧ s.2.cells 0 0 = 109 ∧ ¬ SameDisplay s.1 s.2 := by
  obtain ⟨s, hs, hshown⟩ := (Option.any_eq_true _ _).mp
    (show (feed (fun _ _ => True) 80 25 (escape :: cstr "[31mA")).any (fun s =>
      s.1.cursorCol = 1 ∧ entryChar (s.1.video 0) = 65 ∧ s.2.cursorCol = 2 ∧
        s.2.cells 0 0 = 109) by decide +kernel)
  obtain ⟨hvga, hchar, hvesa, hglyph⟩ := of_decide_eq_true hshown
  refine ⟨s, hs, reaches_feed (by decide) (by decide) hs, hvga, hchar, hvesa, hglyph, fun h => ?_⟩
  have hcol := h.cursorCol
  omega

end Punix
