import Punix.Kernel.Constants
import Punix.Kernel.Kutils
import Punix.Arch.ConsoleRedraw

/-!
The output side of the terminals (`tty.c`). Every terminal keeps the last bytes that were
written to it in a ring, and all of them share one console: it shows the active terminal,
and is drawn again from the ring when another one is activated. `tty_redraw` clears the
console, but the colours of the terminal that was active before stay.
-/

namespace Punix

open Lib

/-- `out_buf`, `out_head`, `out_tail` and `cursor_pos` of `struct tty`. -/
structure TtyOut where
  outBuf : Fin ttyOutputBufSize → UInt8
  outHead : BitVec 32
  outTail : BitVec 32
  cursorPos : BitVec 32

/-- The terminals, the active one, and the console of all of them. -/
structure Terminals where
  ttys : TtyRef → TtyOut
  active : TtyRef
  console : Vga VgaColours (BitVec 16)

/-- A byte is stored; a full ring loses its oldest one. -/
def TtyOut.put (tty : TtyOut) (c : UInt8) : TtyOut :=
  let used := (tty.outHead - tty.outTail).toNat
  let tty := if used ≥ ttyOutputBufSize then { tty with outTail := tty.outTail + 1 } else tty
  { tty with
    outBuf := Function.update tty.outBuf (Ring.maskIndex ttyOutputBufSize tty.outHead) c
    outHead := tty.outHead + 1
    cursorPos := tty.outHead + 1 }

namespace Terminals

/-- One round of the loop of `tty_write`. -/
def ttyWriteByte (x : Terminals) (t : TtyRef) (c : UInt8) : Terminals :=
  let x := { x with ttys := Function.update x.ttys t ((x.ttys t).put c) }
  if t = x.active then { x with console := vgaPutChar vgaPalette x.console c } else x

/-- The loop of `tty_write` ends at a NUL. -/
def ttyWriteLoop (t : TtyRef) : List UInt8 → Nat → Terminals → Nat × Terminals
  | [], written, x => (written, x)
  | c :: buf, written, x =>
      if c = 0 then (written, x) else ttyWriteLoop t buf (written + 1) (x.ttyWriteByte t c)

def ttyWrite (x : Terminals) (t : TtyRef) (buf : List UInt8) : Int × Terminals :=
  if buf = [] then (-1, x)
  else
    let (written, x) := ttyWriteLoop t buf 0 x
    (written, x)

/-- `tty_redraw`; the loop runs over the ring from the oldest byte on. -/
def ttyRedraw (x : Terminals) (t : TtyRef) : Terminals :=
  let tty := x.ttys t
  let console := vgaClear vgaPalette x.console
  { x with
    console := (Ring.window tty.outBuf tty.outTail tty.outHead).foldl (vgaPutChar vgaPalette) console }

def ttyActivate (x : Terminals) (idx : Nat) : Terminals :=
  if h : idx < ttyCount then { x with active := ⟨idx, h⟩ }.ttyRedraw ⟨idx, h⟩ else x

end Terminals

/-- What the kernel prints before the first task runs. -/
def bootMessages : List UInt8 :=
  cstr "PUnix 0.001\nInit Interrupt Descriptor Table.\nInit Memory Management.\n" ++
    cstr "Init VFS.\nInit TTYs.\nInit scheduler.\nEnabling interrupts.\n"

/-- `tty_init`, the side of the output. -/
def ttyOutInit : TtyOut := { outBuf := fun _ => 0, outHead := 0, outTail := 0, cursorPos := 0 }

/-- The terminals at the end of the boot; `video` is the memory of the screen before. -/
def bootTerminals (video : Nat → BitVec 16) : Terminals where
  ttys _ := ttyOutInit
  active := 0
  console := bootMessages.foldl (vgaPutChar vgaPalette)
    (vgaInit vgaPalette initialColours 80 25 video)

inductive OutputEvent where
  /-- `tty_write` with the bytes of its buffer. -/
  | write (t : TtyRef) (buf : List UInt8)
  /-- `tty_activate`. -/
  | activate (idx : Nat)
deriving DecidableEq

namespace Terminals

def perform (x : Terminals) : OutputEvent → Terminals
  | .write t buf => (x.ttyWrite t buf).2
  | .activate idx => x.ttyActivate idx

/-- A history of calls. -/
def run (x : Terminals) (history : List OutputEvent) : Terminals := history.foldl perform x

end Terminals

/-- The writes that a terminal has received. -/
def writesTo (i : TtyRef) : List OutputEvent → List (List UInt8)
  | [] => []
  | .write t buf :: history =>
      if t = i then buf :: writesTo i history else writesTo i history
  | .activate _ :: history => writesTo i history

/-- What is to be seen: the cells, the cursor, and the attribute of the next character. -/
structure Display where
  cells : List (BitVec 16)
  cursorRow : Nat
  cursorCol : Nat
  attr : UInt8
deriving DecidableEq

def Vga.display (s : Vga VgaColours (BitVec 16)) : Display where
  cells := (List.range (s.rows * s.cols)).map s.video
  cursorRow := s.cursorRow
  cursorCol := s.cursorCol
  attr := s.colours.attr

theorem Alike.display_eq {s s' : Vga VgaColours (BitVec 16)} (h : Alike s s') :
    s'.display = s.display := by
  have hcells : (List.range (s.rows * s.cols)).map s'.video =
      (List.range (s.rows * s.cols)).map s.video := by
    apply List.map_congr_left
    intro i hi
    exact h.video i (List.mem_range.mp hi)
  unfold Vga.display
  rw [h.con, h.colours, hcells]

/-- What a write stores. -/
def TtyOut.write (tty : TtyOut) (buf : List UInt8) : TtyOut :=
  (buf.takeWhile (· ≠ 0)).foldl TtyOut.put tty

namespace Terminals

variable {x : Terminals} {t i : TtyRef}

theorem ttys_writeByte (x : Terminals) (t i : TtyRef) (c : UInt8) :
    (x.ttyWriteByte t c).ttys i = if t = i then (x.ttys i).put c else x.ttys i := by
  have hstored : (x.ttyWriteByte t c).ttys = Function.update x.ttys t ((x.ttys t).put c) := by
    unfold ttyWriteByte
    dsimp only
    split <;> rfl
  rw [hstored]
  rcases eq_or_ne i t with rfl | hne
  · rw [Function.update_self, if_pos rfl]
  · rw [Function.update_of_ne hne, if_neg hne.symm]

theorem ttys_writeLoop (t i : TtyRef) (buf : List UInt8) (written : Nat) (x : Terminals) :
    (ttyWriteLoop t buf written x).2.ttys i = if t = i then (x.ttys i).write buf else x.ttys i := by
  induction buf generalizing written x with
  | nil => exact (ite_self _).symm
  | cons c buf ih =>
      unfold ttyWriteLoop TtyOut.write
      split
      · next hzero =>
          rw [List.takeWhile_cons_of_neg (by simpa using hzero)]
          exact (ite_self _).symm
      · next hne =>
          rw [ih, ttys_writeByte, List.takeWhile_cons_of_pos (by simpa using hne)]
          split <;> rfl

theorem ttys_write (x : Terminals) (t i : TtyRef) (buf : List UInt8) :
    (x.ttyWrite t buf).2.ttys i = if t = i then (x.ttys i).write buf else x.ttys i := by
  unfold ttyWrite
  split
  · next hnil =>
      rw [hnil]
      exact (ite_self _).symm
  · exact ttys_writeLoop t i buf 0 x

theorem ttys_activate (x : Terminals) (idx : Nat) : (x.ttyActivate idx).ttys = x.ttys := by
  unfold ttyActivate
  split <;> rfl

/-- The ring of a terminal is told by what was written to it. -/
theorem ttys_run (x : Terminals) (i : TtyRef) (history : List OutputEvent) :
    (x.run history).ttys i = (writesTo i history).foldl TtyOut.write (x.ttys i) := by
  induction history generalizing x with
  | nil => rfl
  | cons e history ih =>
      change ((x.perform e).run history).ttys i = _
      rw [ih]
      cases e with
      | write t buf =>
          rw [perform, ttys_write, writesTo]
          split <;> rfl
      | activate idx =>
          rw [perform, ttys_activate]
          rfl

theorem writeByte_size (x : Terminals) (t : TtyRef) (c : UInt8) :
    SameSize x.console (x.ttyWriteByte t c).console := by
  unfold ttyWriteByte
  dsimp only
  split
  · exact vgaPutChar_size x.console c
  · exact ⟨rfl, rfl⟩

theorem writeLoop_size (t : TtyRef) (buf : List UInt8) (written : Nat) (x : Terminals) :
    SameSize x.console (ttyWriteLoop t buf written x).2.console := by
  induction buf generalizing written x with
  | nil => exact ⟨rfl, rfl⟩
  | cons c buf ih =>
      unfold ttyWriteLoop
      split
      · exact ⟨rfl, rfl⟩
      · exact (writeByte_size x t c).trans (ih _ _)

theorem write_size (x : Terminals) (t : TtyRef) (buf : List UInt8) :
    SameSize x.console (x.ttyWrite t buf).2.console := by
  unfold ttyWrite
  split
  · exact ⟨rfl, rfl⟩
  · exact writeLoop_size t buf 0 x

theorem activate_size (x : Terminals) (idx : Nat) :
    SameSize x.console (x.ttyActivate idx).console := by
  unfold ttyActivate ttyRedraw
  split
  · exact putChars_size _ (vgaClear vgaPalette x.console)
  · exact ⟨rfl, rfl⟩

theorem run_size (x : Terminals) (history : List OutputEvent) :
    SameSize x.console (x.run history).console := by
  induction history generalizing x with
  | nil => exact ⟨rfl, rfl⟩
  | cons e history ih =>
      apply SameSize.trans ?_ (ih (x.perform e))
      cases e with
      | write t buf => exact write_size x t buf
      | activate idx => exact activate_size x idx

/-- A redrawn console is told by its size, its colours, and the ring that is drawn. -/
theorem alike_activate {x y : Terminals} {i : TtyRef} (hrows : 0 < x.console.rows)
    (hcols : 0 < x.console.cols) (hsize : SameSize x.console y.console)
    (hcolours : y.console.colours = x.console.colours) (htty : y.ttys i = x.ttys i) :
    Alike (x.ttyActivate i).console (y.ttyActivate i).console := by
  unfold ttyActivate ttyRedraw
  rw [dif_pos i.isLt, dif_pos i.isLt]
  dsimp only
  rw [htty]
  exact (Alike.clear hrows hcols hsize.1 hsize.2 hcolours).putChars _

end Terminals

theorem bootTerminals_size (video : Nat → BitVec 16) :
    (bootTerminals video).console.rows = 25 ∧ (bootTerminals video).console.cols = 80 := by
  obtain ⟨hrows, hcols⟩ := putChars_size (p := vgaPalette) bootMessages
    (vgaInit vgaPalette initialColours 80 25 video)
  unfold bootTerminals
  dsimp only
  rw [hrows, hcols]
  exact ⟨rfl, rfl⟩

/-- What a terminal shows after it has been activated is told by what was written to it,
as long as the colours of the console before are the same. -/
theorem displays_agree (video : Nat → BitVec 16) (i : TtyRef) (h₁ h₂ : List OutputEvent)
    (hwrites : writesTo i h₁ = writesTo i h₂)
    (hcolours : ((bootTerminals video).run h₁).console.colours =
      ((bootTerminals video).run h₂).console.colours) :
    (((bootTerminals video).run h₁).ttyActivate i).console.display =
      (((bootTerminals video).run h₂).ttyActivate i).console.display := by
  obtain ⟨hrows, hcols⟩ := bootTerminals_size video
  have hsize₁ := (bootTerminals video).run_size h₁
  have hsize₂ := (bootTerminals video).run_size h₂
  apply Alike.display_eq
  apply Terminals.alike_activate
  · rw [hsize₂.1, hrows]
    decide
  · rw [hsize₂.2, hcols]
    decide
  · exact ⟨hsize₁.1.trans hsize₂.1.symm, hsize₁.2.trans hsize₂.2.symm⟩
  · exact hcolours
  · rw [Terminals.ttys_run, Terminals.ttys_run, hwrites]

/-- Terminal 0 writes without colours. -/
theorem displays_agree_plain :
    (((bootTerminals fun _ => 0).run
        [.write 0 (cstr "a"), .activate 1, .write 1 (cstr "b")]).ttyActivate
          (1 : TtyRef)).console.display =
      (((bootTerminals fun _ => 0).run
        [.write 1 (cstr "b")]).ttyActivate (1 : TtyRef)).console.display :=
  displays_agree (fun _ => 0) 1 _ _ (by decide) (by decide +kernel)

/-- Terminal 0 has switched to red; terminal 1, to which nothing was written, is cleared in
this colour. -/
theorem displays_differ :
    writesTo 1 [.write 0 (escape :: cstr "[31m")] = writesTo 1 [] ∧
    (((bootTerminals fun _ => 0).run
        [.write 0 (escape :: cstr "[31m")]).ttyActivate (1 : TtyRef)).console.display.attr = 0x04 ∧
    (((bootTerminals fun _ => 0).run []).ttyActivate (1 : TtyRef)).console.display.attr = 0x07 := by
  decide +kernel

end Punix
