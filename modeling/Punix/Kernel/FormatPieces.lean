import Punix.Kernel.PrintfRuns

/-!
Formats as the formatters take them apart, character by character and directive by directive,
the text that they stand for, and how it is laid around a buffer. A format may end inside of a
directive. What `%f` puts is left open.
-/

namespace Punix

/-- A character, or a directive with the format behind its `%`. -/
inductive Piece where
  | literal (c : UInt8)
  | directive (fmt : List UInt8) (flags : PrintFlags) (conv : UInt8)

/-- The pieces of a format, and whether it ends inside of a directive. -/
def piecesFrom (f : Formatter) : Nat → List UInt8 → List Piece × Bool
  | _, [] => ([], false)
  | 0, _ :: _ => ([], false)
  | fuel + 1, c :: fmt =>
      if c ≠ percent then
        let (ps, inside) := piecesFrom f fuel fmt
        (.literal c :: ps, inside)
      else if fmt = [] then ([], false)
      else
        match parseFlags f fmt with
        | (_, []) => ([], true)
        | (flags, conv :: rest) =>
            let (ps, inside) := piecesFrom f fuel rest
            (.directive fmt flags conv :: ps, inside)

def pieces (f : Formatter) (fmt : List UInt8) : List Piece := (piecesFrom f fmt.length fmt).1

/-- Behind a `%` there are flags or modifiers, but no conversion. -/
def EndsInside (f : Formatter) (fmt : List UInt8) : Prop := (piecesFrom f fmt.length fmt).2 = true

/-- What `%f` puts, for the number of words taken and the format behind the `%`. -/
abbrev FloatPuts := Nat → List UInt8 → List Put

section Pieces

variable (f : Formatter) (ap : VaList) (float : FloatPuts) (size : BitVec 32)

/-- What is put for a piece, and the words that it takes. -/
def Piece.puts (i : Nat) : Piece → List Put × Nat
  | literal c => (Put.plain [c], 0)
  | directive fmt flags conv => (convert f ap i flags conv).getD (float i fmt, 2)

/-- The text of the pieces, with the arguments from the word `i` on. -/
def piecesText : Nat → List Piece → List UInt8
  | _, [] => []
  | i, p :: ps =>
      (p.puts f ap float i).1.map Put.char ++ piecesText (i + (p.puts f ap float i).2) ps

def putPiece (p : Piece) (st : PrintState) : PrintState :=
  { st.placeAll size (p.puts f ap float st.taken).1 with
    taken := st.taken + (p.puts f ap float st.taken).2 }

/-- The loop over the format, on its pieces. -/
def putPieces : List Piece → PrintState → PrintState
  | [], st => st
  | p :: ps, st =>
      if st.pos < size - 1 then putPieces ps (putPiece f ap float size p st) else st

/-- The lap that the loop ends in, with `room` places around the buffer. -/
def layPieces (room : Nat) : Nat → List Piece → List UInt8 → List UInt8
  | _, [], lap => lap
  | i, p :: ps, lap =>
      if lap.length < room then
        layPieces room (i + (p.puts f ap float i).2) ps (lay room lap (p.puts f ap float i).1)
      else lap

/-- What is put for a format since `pos` was last 0. -/
def lastLap (fmt : List UInt8) : List UInt8 :=
  layPieces f ap float (size - 1).toNat 0 (pieces f fmt) []

end Pieces

variable {f : Formatter} {ap : VaList} {float : FloatPuts} {size : BitVec 32} {st : PrintState}

/-- What is left of a format behind the flags and modifiers of a directive. -/
theorem parseFlags_suffix (f : Formatter) (fmt : List UInt8) : (parseFlags f fmt).2 <:+ fmt := by
  have hite (b : Prop) [Decidable b] (s : List UInt8) : (if b then s.tail else s) <:+ s := by
    split
    · exact List.tail_suffix s
    · exact List.suffix_rfl
  have hdot (b : Prop) [Decidable b] (s : List UInt8) :
      (if b then s.tail.dropWhile isDigit else s) <:+ s := by
    split
    · exact (List.dropWhile_suffix _).trans (List.tail_suffix s)
    · exact List.suffix_rfl
  unfold parseFlags
  dsimp only
  refine (hite _ _).trans ((hite _ _).trans ((hite _ _).trans ((hdot _ _).trans ?_)))
  exact (List.dropWhile_suffix _).trans (hite _ _)

section Cases

variable {c conv : UInt8} {fmt rest : List UInt8} {flags : PrintFlags} {fuel : Nat}

theorem piecesFrom_literal (h : c ≠ percent) : piecesFrom f (fuel + 1) (c :: fmt) =
    (.literal c :: (piecesFrom f fuel fmt).1, (piecesFrom f fuel fmt).2) := if_pos h

theorem piecesFrom_percent : piecesFrom f (fuel + 1) [percent] = ([], false) := rfl

theorem piecesFrom_inside (hne : fmt ≠ []) (h : parseFlags f fmt = (flags, [])) :
    piecesFrom f (fuel + 1) (percent :: fmt) = ([], true) := by
  rw [piecesFrom, if_neg (not_not.mpr rfl), if_neg hne, h]

theorem piecesFrom_directive (hne : fmt ≠ []) (h : parseFlags f fmt = (flags, conv :: rest)) :
    piecesFrom f (fuel + 1) (percent :: fmt) =
      (.directive fmt flags conv :: (piecesFrom f fuel rest).1, (piecesFrom f fuel rest).2) := by
  rw [piecesFrom, if_neg (not_not.mpr rfl), if_neg hne, h]

end Cases

theorem putPieces_full (f : Formatter) (ap : VaList) (float : FloatPuts)
    (h : ¬ st.pos < size - 1) (ps : List Piece) : putPieces f ap float size ps st = st := by
  cases ps with
  | nil => rfl
  | cons p ps => exact if_neg h

theorem putPieces_cons (f : Formatter) (ap : VaList) (float : FloatPuts)
    (h : st.pos < size - 1) (p : Piece) (ps : List Piece) :
    putPieces f ap float size (p :: ps) st =
      putPieces f ap float size ps (putPiece f ap float size p st) := if_pos h

/-- The loop lays the pieces around the buffer. -/
theorem Laid.putPieces {lap : List UInt8} (h : Laid size lap st) (ps : List Piece) :
    Laid size (layPieces f ap float (size - 1).toNat st.taken ps lap)
      (putPieces f ap float size ps st) := by
  induction ps generalizing lap st with
  | nil => exact h
  | cons p ps ih =>
      rw [layPieces]
      rcases Classical.em (st.pos < size - 1) with hroom | hfull
      · have hput := h.placeAll (p.puts f ap float st.taken).1
        rw [putPieces_cons f ap float hroom, if_pos (h.lt_iff.mp hroom)]
        exact @ih (putPiece f ap float size p st) _ ⟨hput.pos, hput.bytes⟩
      · rw [putPieces_full f ap float hfull, if_neg (mt h.lt_iff.mpr hfull)]
        exact h

theorem putPieces_outside {i : Nat} (hi : (size - 1).toNat ≤ i) (ps : List Piece)
    (st : PrintState) : (putPieces f ap float size ps st).buf i = st.buf i := by
  induction ps generalizing st with
  | nil => rfl
  | cons p ps ih =>
      rw [Punix.putPieces]
      split
      · rw [ih]
        exact PrintState.placeAll_outside hi st _
      · rfl

end Punix
