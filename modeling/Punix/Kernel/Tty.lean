import Punix.Kernel.Sched

/-!
The input side of a terminal (`tty.c`): a ring that the keyboard interrupt
fills and `tty_read` empties, with free-running counters.
-/

namespace Punix

open Lib

/-- `tty_input_available`. -/
def ttyInputAvailable (tty : Tty) : Bool := tty.inHead - tty.inTail ≠ 0

/-- What `tty_read` does when `wait_event` has returned: the bytes it stores in
the buffer, and the terminal without them. -/
def ttyTake (tty : Tty) (count : Nat) : List UInt8 × Tty :=
  let available := (tty.inHead - tty.inTail).toNat
  let available := if available > count then count else available
  let bytes := (List.range available).map fun i =>
    tty.inBuf (Ring.maskIndex ttyInputBufSize (tty.inTail + BitVec.ofNat 32 i))
  (bytes, { tty with inTail := tty.inTail + BitVec.ofNat 32 available })

namespace Kernel

def setTty (k : Kernel) (t : TtyRef) (tty : Tty) : Kernel :=
  { k with ttys := Function.update k.ttys t tty }

/-- There is room for one more byte. -/
def ttyHasRoom (k : Kernel) (t : TtyRef) : Prop :=
  ((k.ttys t).inHead - (k.ttys t).inTail).toNat < ttyInputBufSize

instance (k : Kernel) (t : TtyRef) : Decidable (k.ttyHasRoom t) := by
  unfold ttyHasRoom
  infer_instance

/-- `tty_input_put`, the work of the keyboard interrupt. -/
def ttyInputPut (k : Kernel) (t : TtyRef) (c : UInt8) : Option Kernel :=
  if ¬ k.ttyHasRoom t then some k
  else
    let tty := k.ttys t
    let tty := { tty with
      inBuf := Function.update tty.inBuf (Ring.maskIndex ttyInputBufSize tty.inHead) c
      inHead := tty.inHead + 1 }
    (k.setTty t tty).wakeup (.inWaitQueue t)

end Kernel

end Punix
