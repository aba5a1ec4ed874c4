import Mathlib.Data.List.DropRight
import Punix.Kernel.TtyOutput

/-!
What `tty_redraw` shows: the last bytes that `tty_write` has accepted, as many as the ring
can hold, however they were split into writes.
-/

namespace Punix

open Lib

/-- What a write accepts of its buffer. -/
def accepted (buf : List UInt8) : List UInt8 := buf.takeWhile (· ≠ 0)

/-- The ring holds the last of `bytes`. -/
structure TtyOut.Holds (tty : TtyOut) (bytes : List UInt8) : Prop where
  level : (tty.outHead - tty.outTail).toNat ≤ ttyOutputBufSize
  window : Ring.window tty.outBuf tty.outTail tty.outHead = bytes.rtake ttyOutputBufSize

namespace TtyOut

variable {tty : TtyOut} {bytes : List UInt8}

theorem holds_init : ttyOutInit.Holds [] := ⟨by decide, rfl⟩

theorem Holds.length (h : tty.Holds bytes) :
    (tty.outHead - tty.outTail).toNat = min bytes.length ttyOutputBufSize := by
  have hlength := congrArg List.length h.window
  rw [Ring.length_window, List.rtake, List.length_drop] at hlength
  omega

/-- Behind the last `n` of a list that is longer, one more replaces the first of them. -/
theorem rtake_append_of_le {α : Type} {xs : List α} {n : Nat} (h : n ≤ xs.length) (hn : 0 < n)
    (x : α) : (xs ++ [x]).rtake n = (xs.rtake n).tail ++ [x] := by
  rw [List.rtake, List.rtake, List.length_append, List.length_singleton, List.tail_drop,
    List.drop_append_of_le_length (by omega)]
  congr 2
  omega

theorem rtake_append_of_lt {α : Type} {xs : List α} {n : Nat} (h : xs.length < n) (x : α) :
    (xs ++ [x]).rtake n = xs.rtake n ++ [x] := by
  have hall : xs.length - n = 0 := by omega
  have hall' : (xs ++ [x]).length - n = 0 := by
    rw [List.length_append, List.length_singleton]
    omega
  rw [List.rtake, List.rtake, hall, hall']
  rfl

/-- One byte of a write. -/
theorem Holds.put (h : tty.Holds bytes) (c : UInt8) : (tty.put c).Holds (bytes ++ [c]) := by
  have hlength := h.length
  unfold TtyOut.put
  dsimp only
  split
  · next hfull =>
      have hfull : ttyOutputBufSize ≤ (tty.outHead - tty.outTail).toNat := hfull
      have hlevel : tty.outHead + 1 - (tty.outTail + 1) = tty.outHead - tty.outTail := by bv_omega
      constructor
      · change (tty.outHead + 1 - (tty.outTail + 1)).toNat ≤ _
        rw [hlevel]
        exact h.level
      · have hpos : 0 < (tty.outHead - tty.outTail).toNat := Nat.lt_of_lt_of_le (by decide) hfull
        change Ring.window (Function.update tty.outBuf _ c) (tty.outTail + 1) (tty.outHead + 1) = _
        rw [Ring.window_overwrite tty.outBuf c hpos h.level, h.window,
          rtake_append_of_le (by omega) (by decide)]
  · next hroom =>
      have hroom : (tty.outHead - tty.outTail).toNat < ttyOutputBufSize := Nat.not_le.mp hroom
      have hsmall : ttyOutputBufSize < 2 ^ 32 - 1 := by decide
      constructor
      · change (tty.outHead + 1 - tty.outTail).toNat ≤ _
        rw [Ring.level_push (by omega)]
        omega
      · change Ring.window (Function.update tty.outBuf _ c) tty.outTail (tty.outHead + 1) = _
        rw [Ring.window_push tty.outBuf tty.outTail tty.outHead c hroom, h.window,
          rtake_append_of_lt (by omega)]

theorem Holds.puts (h : tty.Holds bytes) (cs : List UInt8) :
    (cs.foldl TtyOut.put tty).Holds (bytes ++ cs) := by
  induction cs generalizing tty bytes with
  | nil =>
      rw [List.append_nil]
      exact h
  | cons c cs ih =>
      have hrest := ih (h.put c)
      rwa [List.append_assoc] at hrest

/-- A sequence of writes. -/
theorem Holds.writes (h : tty.Holds bytes) (bufs : List (List UInt8)) :
    (bufs.foldl write tty).Holds (bytes ++ bufs.flatMap accepted) := by
  induction bufs generalizing tty bytes with
  | nil =>
      rw [List.flatMap_nil, List.append_nil]
      exact h
  | cons buf bufs ih =>
      have hrest := ih (h.puts (accepted buf))
      rwa [List.append_assoc, ← List.flatMap_cons] at hrest

end TtyOut

namespace Terminals

/-- The terminals behind `tty_init`, with any of them active. -/
def fresh (active : TtyRef) (console : Vga VgaColours (BitVec 16)) : Terminals where
  ttys _ := ttyOutInit
  active := active
  console := console

theorem written_writeLoop (t : TtyRef) (buf : List UInt8) (written : Nat) (x : Terminals) :
    (ttyWriteLoop t buf written x).1 = written + (accepted buf).length := by
  induction buf generalizing written x with
  | nil => rfl
  | cons c buf ih =>
      unfold ttyWriteLoop accepted
      split
      · next hzero =>
          rw [List.takeWhile_cons_of_neg (by simpa using hzero)]
          rfl
      · next hne =>
          rw [List.takeWhile_cons_of_pos (by simpa using hne), ih, List.length_cons, accepted]
          omega

/-- The result of a write tells how much it has accepted. -/
theorem ttyWrite_result (x : Terminals) (t : TtyRef) {buf : List UInt8} (h : buf ≠ []) :
    (x.ttyWrite t buf).1 = (accepted buf).length := by
  unfold ttyWrite
  rw [if_neg h]
  have hwritten := written_writeLoop t buf 0 x
  dsimp only
  rw [hwritten, Nat.zero_add]

end Terminals

/-- After any history of writes and activations, the ring of a terminal is no fuller than its
size, and drawing it again puts the last accepted bytes on the cleared console. -/
theorem ttyRedraw_shows (active i : TtyRef) (console : Vga VgaColours (BitVec 16))
    (history : List OutputEvent) :
    let x := (Terminals.fresh active console).run history
    let bytes := (writesTo i history).flatMap accepted
    ((x.ttys i).outHead - (x.ttys i).outTail).toNat ≤ ttyOutputBufSize ∧
      (x.ttyRedraw i).console = (bytes.rtake ttyOutputBufSize).foldl (vgaPutChar vgaPalette)
        (vgaClear vgaPalette x.console) := by
  intro x bytes
  have hrun : x.ttys i = (writesTo i history).foldl TtyOut.write ttyOutInit :=
    Terminals.ttys_run (.fresh active console) i history
  have hholds : (x.ttys i).Holds bytes := by
    rw [hrun]
    exact TtyOut.holds_init.writes (writesTo i history)
  constructor
  · exact hholds.level
  · unfold Terminals.ttyRedraw
    dsimp only
    rw [hholds.window]

end Punix
