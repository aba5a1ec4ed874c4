import Mathlib.Data.List.DropRight
import Mathlib.Data.List.GetD
import Punix.Arch.Console
import Punix.Bin.Shell
import Punix.Lib.Machine
import Punix.Lib.NulStrings

/-!
The loop of the shell (`sh.c`) that reads lines: typing, erasing, and the arrow keys, which go
through the history. Between two reads of the terminal any amount of time may pass, so that a
step ends before every read. An access outside of `line` or `history` fails.
-/

namespace Punix

open Lib Lib.Cells Lib.NulStrings

/-- `HISTORY_MAX`. -/
abbrev historyMax : Nat := 30

/-- Where `main` stands: in a state of its loop, or at a read of `handle_escape_sequence`. -/
inductive CliPoint where
  | prompt
  | read
  | readSeq1
  | readSeq2 (seq1 : UInt8)
  | parse
deriving DecidableEq

/-- The variables of `main` and the history. `output` is what has been written to the terminal,
`reads` what the calls of `read` have given, which is nothing when they fail, and `handed` are
the lines that `process_command` was called with, which only reads them. -/
structure ShellLine where
  point : CliPoint
  line : Nat → UInt8
  len : Nat
  history : Nat → Nat → UInt8
  historySize : Int
  historyPos : Int
  output : List UInt8
  reads : List (Option UInt8)
  handed : List (List UInt8)

namespace ShellLine

/-- `history[i]`, where the index is an `int`. -/
def loadRow (history : Nat → Nat → UInt8) (i : Int) : Option (Nat → UInt8) :=
  if 0 ≤ i then loadIn historyMax history i.toNat else none

def storeRow (history : Nat → Nat → UInt8) (i : Int) (row : Nat → UInt8) :
    Option (Nat → Nat → UInt8) :=
  if 0 ≤ i then storeIn historyMax history i.toNat row else none

/-- `strcpy(history[i], src)`. -/
def strcpyRow (history : Nat → Nat → UInt8) (i : Int) (src : Nat → UInt8) :
    Option (Nat → Nat → UInt8) := do
  let row ← loadRow history i
  let row ← strcpyIn lineMax row lineMax src
  storeRow history i row

/-- The loop of `history_add`: `count` rows from `i` on are moved a row up. -/
def shiftRows (history : Nat → Nat → UInt8) (i : Int) : Nat → Option (Nat → Nat → UInt8)
  | 0 => some history
  | count + 1 => do
      let src ← loadRow history i
      let history ← strcpyRow history (i - 1) src
      shiftRows history (i + 1) count

/-- `history_add`. -/
def historyAdd (s : ShellLine) : Option ShellLine := do
  let first ← loadIn lineMax s.line 0
  if first = 0 then some s
  else if s.historySize < historyMax then do
    let history ← strcpyRow s.history s.historySize s.line
    let historySize := s.historySize + 1
    some { s with history, historySize, historyPos := historySize }
  else do
    let history ← shiftRows s.history 1 (historyMax - 1)
    let history ← strcpyRow history (historyMax - 1) s.line
    some { s with history, historyPos := s.historySize }

def write (s : ShellLine) (bytes : List UInt8) : ShellLine :=
  { s with output := s.output ++ bytes }

/-- What erases a character. -/
def rubOut : List UInt8 := [backspace, 32, backspace]

/-- `while (*len > 0)`. -/
def eraseLine (s : ShellLine) : Nat → ShellLine
  | 0 => { s with len := 0 }
  | len + 1 => eraseLine (s.write rubOut) len

/-- `load_history_entry`. -/
def loadHistoryEntry (s : ShellLine) (newIndex : Int) : Option ShellLine := do
  let s := s.eraseLine s.len
  if newIndex = s.historySize then do
    let line ← storeIn lineMax s.line 0 0
    some { s with line, len := 0 }
  else do
    let src ← loadRow s.history newIndex
    let line ← strcpyIn lineMax s.line lineMax src
    let len ← strlenIn lineMax line
    let bytes ← (List.range len).mapM (loadIn lineMax line)
    some ({ s with line, len }.write bytes)

def arrowUp : UInt8 := 'A'.toUInt8
def arrowDown : UInt8 := 'B'.toUInt8

/-- The end of `handle_escape_sequence`. -/
def handleArrow (s : ShellLine) (seq1 seq2 : UInt8) : Option ShellLine :=
  if seq1 = bracket then
    if seq2 = arrowUp then
      if s.historySize > 0 ∧ s.historyPos > 0 then
        let s := { s with historyPos := s.historyPos - 1 }
        s.loadHistoryEntry s.historyPos
      else some s
    else if seq2 = arrowDown then
      if s.historySize > 0 ∧ s.historyPos < s.historySize then
        let s := { s with historyPos := s.historyPos + 1 }
        s.loadHistoryEntry s.historyPos
      else some s
    else some s
  else some s

/-- A character that has been read in `STATE_READ`. -/
def typeChar (s : ShellLine) (c : UInt8) : Option ShellLine :=
  if c = escape then some { s with point := .readSeq1 }
  else if c = carriageReturn ∨ c = newline then do
    let line ← storeIn lineMax s.line s.len 0
    some ({ s with line, point := .parse }.write [newline])
  else if c = backspace ∨ c = 127 then
    some (if s.len > 0 then { s with len := s.len - 1 }.write rubOut else s)
  else if s.len < lineMax - 1 then do
    let line ← storeIn lineMax s.line s.len c
    some ({ s with line, len := s.len + 1 }.write [c])
  else some s

/-- A round of the loop, up to the next read; `input` is what a read at this point gives. -/
def step (s : ShellLine) (input : Option UInt8) : Option ShellLine :=
  let afterRead := { s with reads := s.reads ++ [input] }
  match s.point with
  | .prompt => do
      let line ← storeIn lineMax s.line 0 0
      let s := { s with line, len := 0, historyPos := s.historySize, point := .read }
      some (s.write (cstr "> "))
  | .read =>
      match input with
      | none => some afterRead
      | some c => afterRead.typeChar c
  | .readSeq1 =>
      match input with
      | none => some { afterRead with point := .read }
      | some seq1 => some { afterRead with point := .readSeq2 seq1 }
  | .readSeq2 seq1 =>
      match input with
      | none => some { afterRead with point := .read }
      | some seq2 => { afterRead with point := .read }.handleArrow seq1 seq2
  | .parse =>
      if s.len = 0 then some { s with point := .prompt }
      else do
        let s ← s.historyAdd
        let text ← textIn lineMax s.line
        some { s with handed := s.handed ++ [text], point := .prompt }

end ShellLine

/-- The shell when `main` enters its loop. What `line` and `history` hold is of no matter. -/
def ShellLine.Starts (s : ShellLine) : Prop :=
  s.point = .prompt ∧ s.len = 0 ∧ s.historySize = 0 ∧ s.historyPos = 0 ∧ s.output = [] ∧
    s.reads = [] ∧ s.handed = []

/-- A session with the shell, over what the reads give. -/
def shellSession : Machine ShellLine (Option UInt8) where
  init := ShellLine.Starts
  step s input s' := s.step input = some s'

section Rows

open ShellLine

variable {row : Nat → UInt8} {text : List UInt8}

theorem loadRow_of_lt (history : Nat → Nat → UInt8) {i : Nat} (hi : i < historyMax) :
    loadRow history i = some (history i) := by
  rw [loadRow, if_pos (Int.natCast_nonneg i), Int.toNat_natCast]
  exact if_pos hi

/-- One row is replaced. -/
theorem strcpyRow_holds (history : Nat → Nat → UInt8) {i : Nat} (hi : i < historyMax)
    (hrow : Holds lineMax row text) :
    ∃ history', strcpyRow history i row = some history' ∧ Holds lineMax (history' i) text ∧
      ∀ j ≠ i, history' j = history j := by
  obtain ⟨row', hcopy, hholds, -⟩ := hrow.strcpyIn hrow.fits (history i)
  refine ⟨Function.update history i row', ?_, ?_, fun j hj => Function.update_of_ne hj _ _⟩
  · rw [strcpyRow, loadRow_of_lt history hi, Option.bind_eq_bind, Option.bind_some, hcopy,
      Option.bind_some, storeRow, if_pos (Int.natCast_nonneg i), Int.toNat_natCast]
    exact storeIn_of_lt hi _ _
  · rw [Function.update_self]
    exact hholds

/-- Every row is read before it is written. -/
theorem shiftRows_holds (history : Nat → Nat → UInt8) {lines : Nat → List UInt8} {count i : Nat}
    (hi : i + 1 + count ≤ historyMax)
    (h : ∀ j, i < j → j < i + 1 + count → Holds lineMax (history j) (lines j)) :
    ∃ history', shiftRows history (i + 1 : Nat) count = some history' ∧
      (∀ j, i ≤ j → j < i + count → Holds lineMax (history' j) (lines (j + 1))) ∧
      ∀ j < i, history' j = history j := by
  induction count generalizing history i with
  | zero => exact ⟨history, rfl, fun j hge hlt => absurd hlt (by omega), fun _ _ => rfl⟩
  | succ count ih =>
      have hsrc := h (i + 1) (Nat.lt_succ_self i) (by omega)
      obtain ⟨history₁, hcopy, hholds, hsame⟩ :=
        strcpyRow_holds history (show i < historyMax by omega) hsrc
      have hahead (j : Nat) (hlow : i + 1 < j) (hhigh : j < i + 1 + 1 + count) :
          Holds lineMax (history₁ j) (lines j) := by
        rw [hsame j (by omega)]
        exact h j (by omega) (by omega)
      obtain ⟨history', hrest, hrows, hbelow⟩ := ih history₁ (by omega) hahead
      refine ⟨history', ?_, ?_, ?_⟩
      · have hback : ((i + 1 : Nat) : Int) - 1 = i := by omega
        rw [shiftRows, loadRow_of_lt history (by omega), Option.bind_eq_bind, Option.bind_some,
          hback, hcopy]
        exact hrest
      · intro j hlow hhigh
        rcases hlow.eq_or_lt with rfl | hlt
        · rw [hbelow i (Nat.lt_succ_self i)]
          exact hholds
        · exact hrows j hlt (by omega)
      · intro j hj
        rw [hbelow j (by omega), hsame j (by omega)]

end Rows

/-- The history holds the lines in their order, and its cursor is at one of them or behind. -/
structure HistoryIs (history : Nat → Nat → UInt8) (size pos : Int) (lines : List (List UInt8)) :
    Prop where
  size_eq : size = lines.length
  le : lines.length ≤ historyMax
  pos_nonneg : 0 ≤ pos
  pos_le : pos ≤ size
  row : ∀ i, (h : i < lines.length) → Holds lineMax (history i) lines[i]

section History

variable {s : ShellLine} {history : Nat → Nat → UInt8} {size pos : Int} {row : Nat → UInt8}
  {lines : List (List UInt8)} {text : List UInt8}

theorem row_append (hrow : ∀ i, (h : i < lines.length) → Holds lineMax (history i) lines[i])
    (hlast : Holds lineMax (history lines.length) text) (i : Nat)
    (hi : i < (lines ++ [text]).length) : Holds lineMax (history i) (lines ++ [text])[i] := by
  rw [List.getElem_append]
  split
  · next hlt => exact hrow i hlt
  · next hge =>
      have heq : i = lines.length := by
        rw [List.length_append, List.length_singleton] at hi
        omega
      subst heq
      simpa using hlast

theorem HistoryIs.append (h : HistoryIs history size pos lines) (hroom : lines.length < historyMax)
    (htext : Holds lineMax row text) :
    ∃ history', ShellLine.strcpyRow history size row = some history' ∧
      HistoryIs history' (size + 1) (size + 1) (lines ++ [text]) := by
  obtain ⟨history', hcopy, hholds, hsame⟩ := strcpyRow_holds history hroom htext
  rw [← h.size_eq] at hcopy
  have hsize := h.size_eq
  refine ⟨history', hcopy, ⟨?_, ?_, by omega, le_rfl, ?_⟩⟩
  · simpa using hsize
  · simpa using hroom
  · apply row_append _ hholds
    intro i hi
    rw [hsame i hi.ne]
    exact h.row i hi

/-- The oldest line makes room. -/
theorem HistoryIs.shift (h : HistoryIs history size pos lines)
    (hfull : lines.length = historyMax) (htext : Holds lineMax row text) :
    ∃ history₁ history₂, ShellLine.shiftRows history 1 (historyMax - 1) = some history₁ ∧
      ShellLine.strcpyRow history₁ ((historyMax : Int) - 1) row = some history₂ ∧
      HistoryIs history₂ size size (lines.tail ++ [text]) := by
  have hahead (j : Nat) (_ : 0 < j) (hj : j < 0 + 1 + (historyMax - 1)) :
      Holds lineMax (history j) (lines.getD j []) := by
    have hlt : j < lines.length := by omega
    rw [List.getD_eq_getElem _ _ hlt]
    exact h.row j hlt
  obtain ⟨history₁, hshift, hmoved, -⟩ := shiftRows_holds history (by decide) hahead
  obtain ⟨history₂, hcopy, hholds, hsame⟩ :=
    strcpyRow_holds history₁ (show historyMax - 1 < historyMax by decide) htext
  have hsize := h.size_eq
  have htail : lines.tail.length = historyMax - 1 := by
    rw [List.length_tail, hfull]
  refine ⟨history₁, history₂, hshift, hcopy, ⟨?_, ?_, by omega, le_rfl, ?_⟩⟩
  · rw [List.length_append, htail, hsize, hfull]
    rfl
  · rw [List.length_append, htail]
    exact le_rfl
  · rw [← htail] at hholds
    apply row_append _ hholds
    intro i hi
    have hmove := hmoved i (Nat.zero_le i) (by omega)
    rw [List.getD_eq_getElem _ _ (show i + 1 < lines.length by omega)] at hmove
    rw [hsame i (by omega), List.getElem_tail]
    exact hmove

/-- Without room for one more the oldest line is dropped. -/
theorem rtake_concat_of_le (h : lines.length ≤ historyMax) (text : List UInt8) :
    (lines ++ [text]).rtake historyMax =
      if lines.length < historyMax then lines ++ [text] else lines.tail ++ [text] := by
  rw [List.rtake, List.length_append, List.length_singleton]
  split
  · next hroom => rw [Nat.sub_eq_zero_of_le hroom, List.drop_zero]
  · next hfull =>
      have hlen : lines.length = historyMax := Nat.le_antisymm h (Nat.not_lt.mp hfull)
      have hne : lines ≠ [] := List.ne_nil_of_length_eq_add_one hlen
      rw [hlen, Nat.add_sub_cancel_left, List.drop_one, List.tail_append_of_ne_nil hne]

theorem historyAdd_holds (h : HistoryIs s.history s.historySize s.historyPos lines)
    (htext : Holds lineMax s.line text) :
    ∃ history historySize historyPos,
      s.historyAdd = some { s with history, historySize, historyPos } ∧
      HistoryIs history historySize historyPos
        (if text = [] then lines else (lines ++ [text]).rtake historyMax) := by
  have hload : loadIn lineMax s.line 0 = some (s.line 0) := rfl
  rw [ShellLine.historyAdd, hload, Option.bind_eq_bind, Option.bind_some]
  rcases eq_or_ne text [] with rfl | hne
  · have hzero : s.line 0 = 0 := htext.nul
    rw [if_pos hzero, if_pos rfl]
    exact ⟨s.history, s.historySize, s.historyPos, rfl, h⟩
  · have hfirst := htext.ne_zero (List.length_pos_iff.mpr hne)
    rw [if_neg hfirst, if_neg hne, rtake_concat_of_le h.le]
    rcases h.le.lt_or_eq with hroom | hfull
    · obtain ⟨history, hcopy, hholds⟩ := h.append hroom htext
      have hsize : s.historySize < historyMax := by
        rw [h.size_eq]
        exact Int.ofNat_lt.mpr hroom
      rw [if_pos hsize, if_pos hroom, hcopy]
      exact ⟨history, s.historySize + 1, s.historySize + 1, rfl, hholds⟩
    · obtain ⟨history₁, history₂, hshift, hcopy, hholds⟩ := h.shift hfull htext
      have hsize : ¬ s.historySize < historyMax := by
        rw [h.size_eq, hfull]
        exact lt_irrefl _
      rw [if_neg hsize, if_neg hfull.not_lt, hshift, Option.bind_eq_bind, Option.bind_some, hcopy]
      exact ⟨history₂, s.historySize, s.historySize, rfl, hholds⟩

end History

namespace ShellLine

/-- The last lines that were handed over and are not empty. -/
def keptLines (s : ShellLine) : List (List UInt8) :=
  (s.handed.filter fun text => text ≠ []).rtake historyMax

/-- There is room for a NUL behind the line, and there is one when it is parsed. There is none
inside of the line unless one has been typed. -/
structure Inv (s : ShellLine) : Prop where
  history : HistoryIs s.history s.historySize s.historyPos s.keptLines
  len_le : s.len ≤ lineMax - 1
  ended : s.point = .parse → s.line s.len = 0
  typed : some 0 ∉ s.reads → ∀ i < s.len, s.line i ≠ 0

section Steps

variable {s : ShellLine} {lines : List (List UInt8)} {c : UInt8}

theorem eraseLine_eq (s : ShellLine) (len : Nat) :
    ∃ output, s.eraseLine len = { s with len := 0, output } := by
  induction len generalizing s with
  | zero => exact ⟨s.output, rfl⟩
  | succ len ih => exact ih (s.write rubOut)

/-- Where the cursor of the history may be, there is a line to load. -/
theorem loadHistoryEntry_holds (h : HistoryIs s.history s.historySize s.historyPos lines) :
    ∃ line len output, s.loadHistoryEntry s.historyPos = some { s with line, len, output } ∧
      len ≤ lineMax - 1 ∧ ∀ i < len, line i ≠ 0 := by
  obtain ⟨output, herase⟩ := s.eraseLine_eq s.len
  rw [loadHistoryEntry, herase]
  dsimp only
  rcases h.pos_le.lt_or_eq with hbefore | hbehind
  · obtain ⟨i, hi⟩ := Int.eq_ofNat_of_zero_le h.pos_nonneg
    have hlt : i < lines.length := by
      have hsize := h.size_eq
      omega
    have hrow := h.row i hlt
    obtain ⟨line, hcopy, hholds, -⟩ := hrow.strcpyIn hrow.fits s.line
    rw [if_neg hbefore.ne, hi, loadRow_of_lt s.history (hlt.trans_le h.le), Option.bind_eq_bind,
      Option.bind_some, hcopy, Option.bind_eq_bind, Option.bind_some, hholds.strlenIn,
      Option.bind_eq_bind, Option.bind_some, mapM_loadIn hholds.fits.le]
    exact ⟨line, _, _, rfl, Nat.le_pred_of_lt hholds.fits, fun j hj => hholds.ne_zero hj⟩
  · rw [if_pos hbehind]
    exact ⟨_, 0, output, rfl, Nat.zero_le _, fun j hj => absurd hj (Nat.not_lt_zero j)⟩

theorem Inv.withPoint (h : s.Inv) {point : CliPoint} (hpoint : point ≠ .parse) :
    { s with point }.Inv where
  history := h.history
  len_le := h.len_le
  ended hparse := absurd hparse hpoint
  typed := h.typed

/-- A read that gives `input`, or nothing. -/
theorem Inv.withRead (h : s.Inv) (hpoint : s.point ≠ .parse) (input : Option UInt8) :
    { s with reads := s.reads ++ [input] }.Inv where
  history := h.history
  len_le := h.len_le
  ended hparse := absurd hparse hpoint
  typed hnul := h.typed fun hmem => hnul (List.mem_append_left _ hmem)

/-- The cursor of the history is moved by an arrow key, and the line there is loaded. -/
theorem Inv.load (h : s.Inv) (hpoint : s.point ≠ .parse) {pos : Int} (hge : 0 ≤ pos)
    (hle : pos ≤ s.historySize) :
    ∃ s', { s with historyPos := pos }.loadHistoryEntry pos = some s' ∧ s'.Inv := by
  have hmoved : HistoryIs s.history s.historySize pos s.keptLines :=
    ⟨h.history.size_eq, h.history.le, hge, hle, h.history.row⟩
  obtain ⟨line, len, output, hload, hlen, hline⟩ :=
    loadHistoryEntry_holds (s := { s with historyPos := pos }) hmoved
  exact ⟨_, hload, hmoved, hlen, fun hparse => absurd hparse hpoint, fun _ => hline⟩

theorem Inv.handleArrow (h : s.Inv) (hpoint : s.point ≠ .parse) (seq1 seq2 : UInt8) :
    ∃ s', s.handleArrow seq1 seq2 = some s' ∧ s'.Inv := by
  rw [ShellLine.handleArrow]
  split_ifs with hbracket hup hroom hdown hroom
  · exact h.load hpoint (Int.le_sub_one_of_lt hroom.2)
      ((Int.sub_le_self _ Int.one_nonneg).trans h.history.pos_le)
  · exact ⟨s, rfl, h⟩
  · exact h.load hpoint (Int.add_nonneg h.history.pos_nonneg Int.one_nonneg) hroom.2
  · exact ⟨s, rfl, h⟩
  · exact ⟨s, rfl, h⟩
  · exact ⟨s, rfl, h⟩

theorem Inv.typeChar (h : s.Inv) (hpoint : s.point ≠ .parse) (hread : some c ∈ s.reads) :
    ∃ s', s.typeChar c = some s' ∧ s'.Inv := by
  have hfits : s.len < lineMax := Nat.lt_of_le_pred (by decide) h.len_le
  have hline (c : UInt8) (i : Nat) (hi : i < s.len) :
      Function.update s.line s.len c i = s.line i := Function.update_of_ne hi.ne _ _
  rw [ShellLine.typeChar]
  split_ifs with hescape henter hrub hlen hroom
  · exact ⟨_, rfl, h.withPoint (by simp)⟩
  · rw [storeIn_of_lt hfits, Option.bind_eq_bind, Option.bind_some]
    refine ⟨_, rfl, h.history, h.len_le, fun _ => Function.update_self _ _ _, ?_⟩
    intro hnul i hi
    exact (hline 0 i hi).trans_ne (h.typed hnul i hi)
  · have hshort : s.len - 1 ≤ s.len := Nat.sub_le _ _
    exact ⟨_, rfl, h.history, hshort.trans h.len_le, fun hparse => absurd hparse hpoint,
      fun hnul i hi => h.typed hnul i (hi.trans_le hshort)⟩
  · exact ⟨s, rfl, h⟩
  · rw [storeIn_of_lt hfits, Option.bind_eq_bind, Option.bind_some]
    refine ⟨_, rfl, h.history, hroom, fun hparse => absurd hparse hpoint, ?_⟩
    intro hnul i hi
    rcases (Nat.le_of_lt_succ hi).lt_or_eq with hlt | rfl
    · exact (hline c i hlt).trans_ne (h.typed hnul i hlt)
    · intro hzero
      have hc : c = 0 := (Function.update_self _ _ _).symm.trans hzero
      exact hnul (hc ▸ hread)
  · exact ⟨s, rfl, h⟩

/-- What has been dropped is not needed later. -/
theorem rtake_rtake_concat {α : Type} (l : List α) (n : Nat) (x : α) :
    (l.rtake n ++ [x]).rtake n = (l ++ [x]).rtake n := by
  rcases n with _ | n
  · rw [List.rtake_zero, List.rtake_zero]
  · rw [List.rtake_concat_succ, List.rtake_concat_succ, List.rtake_eq_reverse_take_reverse,
      List.rtake_eq_reverse_take_reverse, List.rtake_eq_reverse_take_reverse, List.reverse_reverse,
      List.take_take, Nat.min_eq_left (Nat.le_succ n)]

theorem keptLines_handed (s : ShellLine) (text : List UInt8) :
    { s with handed := s.handed ++ [text] }.keptLines =
      if text = [] then s.keptLines else (s.keptLines ++ [text]).rtake historyMax := by
  rw [keptLines, keptLines, List.filter_append]
  rcases eq_or_ne text [] with rfl | hne
  · simp
  · rw [if_neg hne, rtake_rtake_concat, List.filter_singleton]
    simp [hne]

/-- The line that is parsed. -/
theorem Inv.holds_line (h : s.Inv) (hparse : s.point = .parse) :
    ∃ text, Holds lineMax s.line text ∧ (some 0 ∉ s.reads → text.length = s.len) := by
  have hfits : s.len < lineMax := Nat.lt_of_le_pred (by decide) h.len_le
  obtain ⟨text, hholds, hle⟩ := exists_holds hfits (h.ended hparse)
  exact ⟨text, hholds, fun hnul => hholds.length_eq hle (h.typed hnul)⟩

/-- Whatever a read gives, a round of the loop does not fail and keeps the invariant. -/
theorem Inv.step (h : s.Inv) (input : Option UInt8) :
    ∃ s', s.step input = some s' ∧ s'.Inv := by
  unfold ShellLine.step
  dsimp only
  split
  · have hbehind : HistoryIs s.history s.historySize s.historySize s.keptLines :=
      ⟨h.history.size_eq, h.history.le, h.history.pos_nonneg.trans h.history.pos_le, le_rfl,
        h.history.row⟩
    exact ⟨_, rfl, hbehind, Nat.zero_le _, nofun, fun _ i hi => absurd hi (Nat.not_lt_zero i)⟩
  · next hpoint =>
      have hnot : s.point ≠ .parse := by simp [hpoint]
      have hread := h.withRead hnot input
      split
      · exact ⟨_, rfl, hread⟩
      · exact hread.typeChar hnot (List.mem_append_right _ (List.mem_singleton_self _))
  · next hpoint =>
      have hread := h.withRead (by simp [hpoint]) input
      split
      · exact ⟨_, rfl, hread.withPoint (by simp)⟩
      · exact ⟨_, rfl, hread.withPoint (by simp)⟩
  · next hpoint =>
      have hread := h.withRead (by simp [hpoint]) input
      have hnext := hread.withPoint (show CliPoint.read ≠ .parse by simp)
      split
      · exact ⟨_, rfl, hnext⟩
      · exact hnext.handleArrow (by simp) _ _
  · next hparse =>
      obtain ⟨text, hholds, -⟩ := h.holds_line hparse
      obtain ⟨history, historySize, historyPos, hadd, hhistory⟩ :=
        historyAdd_holds h.history hholds
      split
      · exact ⟨_, rfl, h.withPoint (by simp)⟩
      · rw [← keptLines_handed] at hhistory
        rw [hadd, Option.bind_eq_bind, Option.bind_some, hholds.textIn]
        exact ⟨_, rfl, hhistory, h.len_le, nofun, h.typed⟩

theorem Inv.of_starts (h : s.Starts) : s.Inv := by
  obtain ⟨hpoint, hlen, hsize, hpos, -, -, hhanded⟩ := h
  have hkept : s.keptLines = [] := by
    rw [keptLines, hhanded]
    rfl
  refine ⟨?_, ?_, ?_, ?_⟩
  · rw [hkept, hsize, hpos]
    exact ⟨rfl, Nat.zero_le _, le_rfl, le_rfl, fun i hi => absurd hi (Nat.not_lt_zero i)⟩
  · rw [hlen]
    exact Nat.zero_le _
  · rw [hpoint]
    exact nofun
  · rw [hlen]
    exact fun _ i hi => absurd hi (Nat.not_lt_zero i)

theorem inv_of_reachable (h : shellSession.Reachable s) : s.Inv := by
  apply h.invariant
  · exact fun _ => Inv.of_starts
  · intro s input s' hinv _ hstep
    obtain ⟨next, hnext, hkept⟩ := hinv.step input
    rw [Option.some.inj (hstep.symm.trans hnext)]
    exact hkept

end Steps

end ShellLine

/-- In a session no access is outside of `line` or `history`. A NUL ends the line that is parsed,
at its length unless a NUL has been read, which no key gives, and the history holds the last
lines that were handed over, but for empty ones. -/
theorem shellSession_bounds {s : ShellLine} (h : shellSession.Reachable s) :
    s.len ≤ lineMax - 1 ∧ 0 ≤ s.historyPos ∧ s.historyPos ≤ s.historySize ∧
      s.historySize ≤ historyMax ∧ (∀ input, (s.step input).isSome) ∧
      (s.point = .parse → s.line s.len = 0 ∧
        ∃ text, Holds lineMax s.line text ∧ (some 0 ∉ s.reads → text.length = s.len)) ∧
      s.historySize = s.keptLines.length ∧
      ∀ i, (hi : i < s.keptLines.length) → Holds lineMax (s.history i) s.keptLines[i] := by
  have hinv := ShellLine.inv_of_reachable h
  have hhistory := hinv.history
  refine ⟨hinv.len_le, hhistory.pos_nonneg, hhistory.pos_le, ?_, ?_, ?_, hhistory.size_eq,
    hhistory.row⟩
  · rw [hhistory.size_eq]
    exact Int.ofNat_le.mpr hhistory.le
  · intro input
    obtain ⟨s', hstep, -⟩ := hinv.step input
    exact Option.isSome_of_mem hstep
  · exact fun hparse => ⟨hinv.ended hparse, hinv.holds_line hparse⟩

/-- What `main` begins with, but that `line` and `history` hold anything. -/
def ShellLine.atStart : ShellLine where
  point := .prompt
  line _ := 1
  len := 0
  history _ _ := 1
  historySize := 0
  historyPos := 0
  output := []
  reads := []
  handed := []

/-- `ls` is typed, submitted and fetched back with an arrow key. -/
theorem shellSession_bounds_ls :
    ∃ s, shellSession.Reachable s ∧ s.len = 2 ∧ s.line s.len = 0 ∧
      Holds lineMax (s.history 0) (cstr "ls") := by
  have hrun : ((Machine.execAll ShellLine.step (fun _ _ => True)
      [none, some 108, some 115, some carriageReturn, none, none, some escape, some bracket,
        some ShellLine.arrowUp, some carriageReturn] ShellLine.atStart).map
      fun s => (s.point, s.len, s.keptLines)) = some (.parse, 2, [cstr "ls"]) := by rfl
  obtain ⟨s, hs, hgives⟩ := Option.map_eq_some_iff.mp hrun
  have hpoint := congrArg Prod.fst hgives
  have hlen := congrArg (fun p => p.2.1) hgives
  have hkept : s.keptLines = [cstr "ls"] := congrArg (fun p => p.2.2) hgives
  have hstart : ShellLine.atStart.Starts := ⟨rfl, rfl, rfl, rfl, rfl, rfl, rfl⟩
  have hreach : shellSession.Reachable s :=
    (Machine.Reaches.init hstart).execAll (fun hstep => hstep) hs
  obtain ⟨-, -, -, -, -, hended, -, hrows⟩ := shellSession_bounds hreach
  refine ⟨s, hreach, hlen, (hended hpoint).1, ?_⟩
  simpa [hkept] using hrows 0 (by simp [hkept])

end Punix
