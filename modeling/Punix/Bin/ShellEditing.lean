import Punix.Bin.ShellSession

/-!
The line editor of the shell: what is typed, said of texts instead of buffers. The lines that
the loop of `main` hands over are those of the editor, so that a session with the shell comes
to a function of what its reads have given.
-/

namespace Punix

open Lib Lib.Cells Lib.NulStrings

/-- Typing, or in an escape sequence. -/
inductive EditorMode where
  | typing
  | sequence
  | arrow (seq1 : UInt8)

/-- The text that is being typed, the place in the history, and the lines that have been entered. -/
structure Editor where
  mode : EditorMode
  text : List UInt8
  place : Nat
  handed : List (List UInt8)

namespace Editor

def start : Editor where
  mode := .typing
  text := []
  place := 0
  handed := []

/-- The lines that the arrows go through. -/
def history (e : Editor) : List (List UInt8) :=
  (e.handed.filter fun text => text ≠ []).rtake historyMax

/-- A new line, behind the history. -/
def newLine (e : Editor) : Editor := { e with text := [], place := e.history.length }

/-- A line ends at its first NUL, but nothing is entered if nothing was typed. -/
def enter (e : Editor) : Editor :=
  if e.text = [] then e.newLine else { e with handed := e.handed ++ [strBytes e.text] }.newLine

/-- A line of the history, or nothing behind them. -/
def fetch (e : Editor) (place : Nat) : Editor :=
  { e with text := e.history.getD place [], place }

def key (e : Editor) (c : UInt8) : Editor :=
  if c = escape then { e with mode := .sequence }
  else if c = carriageReturn ∨ c = newline then e.enter
  else if c = backspace ∨ c = 127 then { e with text := e.text.dropLast }
  else if e.text.length < lineMax - 1 then { e with text := e.text ++ [c] }
  else e

def arrowKey (e : Editor) (seq1 seq2 : UInt8) : Editor :=
  if seq1 = bracket then
    if seq2 = ShellLine.arrowUp then if 0 < e.place then e.fetch (e.place - 1) else e
    else if seq2 = ShellLine.arrowDown then
      if e.place < e.history.length then e.fetch (e.place + 1) else e
    else e
  else e

/-- What a read gives. If it gives nothing, an escape sequence is over. -/
def read (e : Editor) : Option UInt8 → Editor
  | none => { e with mode := .typing }
  | some c =>
      match e.mode with
      | .typing => e.key c
      | .sequence => { e with mode := .arrow c }
      | .arrow seq1 => { e with mode := .typing }.arrowKey seq1 c

def reads (inputs : List (Option UInt8)) : Editor := inputs.foldl read start

end Editor

/-- The text is what `line` begins with. -/
structure Editor.Shows (e : Editor) (s : ShellLine) : Prop where
  len : s.len = e.text.length
  begins : Begins s.line e.text
  place : s.historyPos = e.place
  handed : s.handed = e.handed

/-- A line that has been entered is handed over one round later. -/
def Editor.Matches (e : Editor) (s : ShellLine) : Prop :=
  match s.point with
  | .prompt => e.mode = .typing ∧ e.text = [] ∧ e.place = s.keptLines.length ∧ e.handed = s.handed
  | .read => e.mode = .typing ∧ e.Shows s
  | .readSeq1 => e.mode = .sequence ∧ e.Shows s
  | .readSeq2 seq1 => e.mode = .arrow seq1 ∧ e.Shows s
  | .parse => ∃ e₀ : Editor, e₀.mode = .typing ∧ e₀.Shows s ∧ e = e₀.enter

section Matches

variable {e : Editor} {s s' : ShellLine} {c : UInt8}

theorem Editor.Shows.history (h : e.Shows s) : e.history = s.keptLines := by
  rw [Editor.history, ShellLine.keptLines, h.handed]

/-- The string that ends at the first NUL. -/
theorem holds_strBytes {n : Nat} {f : Nat → UInt8} {text : List UInt8} (h : Begins f text)
    (hnul : f text.length = 0) (hfits : text.length < n) : Holds n f (strBytes text) := by
  have hbegin : strBytes text <+: text := List.takeWhile_prefix _
  refine ⟨?_, ?_, noNul_strBytes text, hbegin.length_le.trans_lt hfits⟩
  · intro i hi
    rw [h i (hi.trans_le hbegin.length_le), hbegin.getElem hi]
  · have hsplit : strBytes text ++ text.dropWhile (· ≠ 0) = text := List.takeWhile_append_dropWhile
    cases hrest : text.dropWhile (· ≠ 0) with
    | nil =>
        rw [hrest, List.append_nil] at hsplit
        rw [hsplit]
        exact hnul
    | cons c rest =>
        have hhead := List.head?_dropWhile_not (· ≠ 0) text
        rw [hrest] at hhead hsplit
        have hzero : c = 0 := by simpa using hhead
        generalize strBytes text = w at hsplit ⊢
        subst hsplit
        rw [h w.length (by simp), List.getElem_append_right le_rfl]
        simpa using hzero

theorem Editor.Shows.withMode (h : e.Shows s) (mode : EditorMode) (point : CliPoint)
    (input : List (Option UInt8)) :
    { e with mode }.Shows { s with point, reads := input } :=
  ⟨h.len, h.begins, h.place, h.handed⟩

/-- A line of the history, or none, is put where the text is. -/
theorem Editor.Shows.fetch (h : e.Shows s) (hinv : s.Inv) {place : Nat}
    (hle : place ≤ e.history.length) :
    ∃ s', { s with historyPos := place }.loadHistoryEntry place = some s' ∧ s'.point = s.point ∧
      s'.reads = s.reads ∧ (e.fetch place).Shows s' := by
  obtain ⟨output, herase⟩ := ({ s with historyPos := place } : ShellLine).eraseLine_eq s.len
  have hsize : s.historySize = e.history.length := by
    rw [h.history]
    exact hinv.history.size_eq
  rw [ShellLine.loadHistoryEntry, herase]
  dsimp only
  rcases hle.lt_or_eq with hlt | rfl
  · rw [h.history] at hlt
    have hrow := hinv.history.row place hlt
    obtain ⟨line, hcopy, hholds, -⟩ := hrow.strcpyIn hrow.fits s.line
    have hbefore : ¬ (place : Int) = s.historySize := by
      rw [hinv.history.size_eq]
      exact_mod_cast hlt.ne
    have htext : e.history.getD place [] = s.keptLines[place] := by
      rw [h.history, List.getD_eq_getElem _ _ hlt]
    rw [if_neg hbefore, loadRow_of_lt s.history (hlt.trans_le hinv.history.le),
      Option.bind_eq_bind, Option.bind_some, hcopy, Option.bind_eq_bind, Option.bind_some,
      hholds.strlenIn, Option.bind_eq_bind, Option.bind_some, mapM_loadIn hholds.fits.le]
    refine ⟨_, rfl, rfl, rfl, ?_, ?_, rfl, h.handed⟩
    · exact (congrArg List.length htext).symm
    · rw [Editor.fetch, htext]
      exact hholds.char
  · rw [if_pos hsize.symm]
    have hnone : e.history.getD e.history.length [] = [] := List.getD_eq_default _ _ le_rfl
    refine ⟨_, rfl, rfl, rfl, ?_, ?_, rfl, h.handed⟩
    · rw [Editor.fetch, hnone]
      rfl
    · rw [Editor.fetch, hnone]
      exact Begins.nil _

theorem Editor.arrowKey_mode {e : Editor} {seq1 seq2 : UInt8} :
    (e.arrowKey seq1 seq2).mode = e.mode := by
  unfold Editor.arrowKey
  split_ifs
  all_goals rfl

theorem Editor.Shows.handleArrow (h : e.Shows s) (hinv : s.Inv) (seq1 seq2 : UInt8) :
    ∃ s', s.handleArrow seq1 seq2 = some s' ∧ s'.point = s.point ∧ s'.reads = s.reads ∧
      (e.arrowKey seq1 seq2).Shows s' := by
  have hsize : s.historySize = e.history.length := by
    rw [h.history]
    exact hinv.history.size_eq
  have hle : e.place ≤ e.history.length := by
    have hpos := hinv.history.pos_le
    rw [h.place, hsize] at hpos
    exact_mod_cast hpos
  have hplace := h.place
  unfold ShellLine.handleArrow Editor.arrowKey
  by_cases hbracket : seq1 = bracket
  · rw [if_pos hbracket, if_pos hbracket]
    by_cases hup : seq2 = ShellLine.arrowUp
    · rw [if_pos hup, if_pos hup]
      by_cases hroom : 0 < e.place
      · have hback : s.historyPos - 1 = (e.place - 1 : Nat) := by omega
        rw [if_pos (by omega), if_pos hroom, hback]
        exact h.fetch hinv (by omega)
      · rw [if_neg (by omega), if_neg hroom]
        exact ⟨s, rfl, rfl, rfl, h⟩
    · rw [if_neg hup, if_neg hup]
      by_cases hdown : seq2 = ShellLine.arrowDown
      · rw [if_pos hdown, if_pos hdown]
        by_cases hroom : e.place < e.history.length
        · have hforward : s.historyPos + 1 = (e.place + 1 : Nat) := by omega
          rw [if_pos (by omega), if_pos hroom, hforward]
          exact h.fetch hinv hroom
        · rw [if_neg (by omega), if_neg hroom]
          exact ⟨s, rfl, rfl, rfl, h⟩
      · rw [if_neg hdown, if_neg hdown]
        exact ⟨s, rfl, rfl, rfl, h⟩
  · rw [if_neg hbracket, if_neg hbracket]
    exact ⟨s, rfl, rfl, rfl, h⟩

theorem Editor.matches_read (hpoint : s.point = .read) (hmode : e.mode = .typing) (h : e.Shows s) :
    e.Matches s := by
  rw [Editor.Matches, hpoint]
  exact ⟨hmode, h⟩

/-- A character that is typed. -/
theorem Editor.Shows.typeChar (h : e.Shows s) (hmode : e.mode = .typing) (hpoint : s.point = .read)
    (hinv : s.Inv) (c : UInt8) :
    ∃ s', s.typeChar c = some s' ∧ s'.reads = s.reads ∧ (e.key c).Matches s' := by
  have hfits : s.len < lineMax := Nat.lt_of_le_pred (by decide) hinv.len_le
  have hstored (d : UInt8) : Begins (Function.update s.line s.len d) e.text := by
    intro i hi
    rw [Function.update_of_ne (by rw [h.len]; exact hi.ne)]
    exact h.begins i hi
  unfold ShellLine.typeChar Editor.key
  by_cases hescape : c = escape
  · rw [if_pos hescape, if_pos hescape]
    exact ⟨_, rfl, rfl, rfl, h.withMode .sequence .readSeq1 s.reads⟩
  rw [if_neg hescape, if_neg hescape]
  by_cases henter : c = carriageReturn ∨ c = newline
  · rw [if_pos henter, if_pos henter, storeIn_of_lt hfits, Option.bind_eq_bind, Option.bind_some]
    exact ⟨_, rfl, rfl, e, hmode, ⟨h.len, hstored 0, h.place, h.handed⟩, rfl⟩
  rw [if_neg henter, if_neg henter]
  by_cases hrub : c = backspace ∨ c = 127
  · rw [if_pos hrub, if_pos hrub]
    have hlen := h.len
    by_cases hsome : s.len > 0
    · rw [if_pos hsome]
      refine ⟨_, rfl, rfl, matches_read hpoint hmode ⟨?_, ?_, h.place, h.handed⟩⟩
      · rw [List.length_dropLast, ← h.len]
        rfl
      · intro i hi
        rw [List.getElem_dropLast]
        exact h.begins i _
    · have hnone : e.text = [] := List.eq_nil_of_length_eq_zero (by omega)
      rw [if_neg hsome, hnone, List.dropLast_nil, ← hnone]
      exact ⟨s, rfl, rfl, matches_read hpoint hmode h⟩
  rw [if_neg hrub, if_neg hrub]
  by_cases hroom : s.len < lineMax - 1
  · rw [if_pos hroom, if_pos (h.len ▸ hroom), storeIn_of_lt hfits, Option.bind_eq_bind,
      Option.bind_some]
    refine ⟨_, rfl, rfl, matches_read hpoint hmode ⟨?_, ?_, h.place, h.handed⟩⟩
    · rw [List.length_append, List.length_singleton, ← h.len]
      rfl
    · have hsnoc := h.begins.snoc c
      rw [← h.len] at hsnoc
      exact hsnoc
  · rw [if_neg hroom, if_neg (h.len ▸ hroom)]
    exact ⟨s, rfl, rfl, matches_read hpoint hmode h⟩

/-- A round of the loop does what the read in it does to the text, if there is one. -/
theorem Editor.Matches.step (h : e.Matches s) (hinv : s.Inv) (input : Option UInt8) :
    ∃ s' inputs, s.step input = some s' ∧ s'.reads = s.reads ++ inputs ∧
      (inputs.foldl Editor.read e).Matches s' := by
  unfold ShellLine.step
  unfold Editor.Matches at h
  dsimp only
  cases hpoint : s.point with
  | prompt =>
      rw [hpoint] at h
      obtain ⟨hmode, htext, hplace, hhanded⟩ := h
      refine ⟨_, [], rfl, (List.append_nil _).symm, matches_read rfl hmode ⟨?_, ?_, ?_, hhanded.symm⟩⟩
      · exact (congrArg List.length htext).symm
      · rw [List.foldl_nil, htext]
        exact Begins.nil _
      · rw [List.foldl_nil, hplace]
        exact hinv.history.size_eq
  | read =>
      rw [hpoint] at h
      cases input with
      | none =>
          have hread := h.2.withMode .typing .read (s.reads ++ [none])
          exact ⟨_, [none], rfl, rfl, matches_read rfl rfl hread⟩
      | some c =>
          have hread := h.2.withMode e.mode .read (s.reads ++ [some c])
          have hinv' := (hinv.withRead (by rw [hpoint]; exact nofun) (some c)).withPoint
            (show CliPoint.read ≠ .parse from nofun)
          obtain ⟨s', hstep, hreads, hmatches⟩ := hread.typeChar h.1 rfl hinv' c
          refine ⟨s', [some c], hstep, hreads, ?_⟩
          rw [List.foldl_cons, List.foldl_nil, Editor.read, h.1]
          exact hmatches
  | readSeq1 =>
      rw [hpoint] at h
      cases input with
      | none =>
          have hread := h.2.withMode .typing .read (s.reads ++ [none])
          exact ⟨_, [none], rfl, rfl, matches_read rfl rfl hread⟩
      | some c =>
          have hread := h.2.withMode (.arrow c) (.readSeq2 c) (s.reads ++ [some c])
          refine ⟨_, [some c], rfl, rfl, ?_⟩
          rw [List.foldl_cons, List.foldl_nil, Editor.read, h.1]
          exact ⟨rfl, hread⟩
  | readSeq2 seq1 =>
      rw [hpoint] at h
      cases input with
      | none =>
          have hread := h.2.withMode .typing .read (s.reads ++ [none])
          exact ⟨_, [none], rfl, rfl, matches_read rfl rfl hread⟩
      | some c =>
          have hread := h.2.withMode .typing .read (s.reads ++ [some c])
          have hinv' := (hinv.withRead (by rw [hpoint]; exact nofun) (some c)).withPoint
            (show CliPoint.read ≠ .parse from nofun)
          obtain ⟨s', hstep, hpoint', hreads, hshows⟩ := hread.handleArrow hinv' seq1 c
          refine ⟨s', [some c], hstep, hreads, ?_⟩
          rw [List.foldl_cons, List.foldl_nil, Editor.read, h.1]
          exact matches_read hpoint' arrowKey_mode hshows
  | parse =>
      rw [hpoint] at h
      obtain ⟨e₀, hmode, hshows, rfl⟩ := h
      have hline := hinv.ended hpoint
      have hfits : s.len < lineMax := Nat.lt_of_le_pred (by decide) hinv.len_le
      rw [Editor.enter]
      by_cases hempty : s.len = 0
      · have hnone : e₀.text = [] := List.eq_nil_of_length_eq_zero (hshows.len.symm.trans hempty)
        rw [if_pos hempty, if_pos hnone]
        refine ⟨_, [], rfl, (List.append_nil _).symm, hmode, rfl, ?_, hshows.handed.symm⟩
        exact congrArg List.length hshows.history
      · have hsome : e₀.text ≠ [] := fun hnone => hempty (hshows.len.trans (by rw [hnone]; rfl))
        obtain ⟨s', text, hstep, -, hholds, hpoint', hreads, hhanded⟩ :=
          hinv.step_parse hpoint hempty input
        have htext : text = strBytes e₀.text := by
          rw [hshows.len] at hline hfits
          exact hholds.unique (holds_strBytes hshows.begins hline hfits)
        have hsame : e₀.handed ++ [strBytes e₀.text] = s'.handed := by
          rw [hhanded, htext, hshows.handed]
        unfold ShellLine.step at hstep
        rw [hpoint] at hstep
        rw [if_neg hsome]
        refine ⟨s', [], hstep, by rw [hreads, List.append_nil], ?_⟩
        rw [Editor.Matches, hpoint']
        refine ⟨hmode, rfl, ?_, hsame⟩
        rw [List.foldl_nil, Editor.newLine, Editor.history, ShellLine.keptLines, ← hsame]

end Matches

section Typed

variable {ω : Type} {os : ShellOs ω} {r : ShellRun ω}

theorem Editor.matches_starts {s : ShellLine} (h : s.Starts) : (Editor.reads s.reads).Matches s := by
  obtain ⟨hpoint, -, -, -, -, hreads, hhanded⟩ := h
  rw [hreads, Editor.Matches, hpoint, ShellLine.keptLines, hhanded]
  exact ⟨rfl, rfl, rfl, rfl⟩

/-- A round of the shell is a round of its loop. -/
theorem ShellRun.step_cli {num : Nat → UInt8} {input : Option UInt8} {r' : ShellRun ω}
    (h : r.step os num input = some r') : r.cli.step input = some r'.cli := by
  unfold ShellRun.step at h
  split at h
  · cases h
  · obtain ⟨cli, hcli, h⟩ := Option.bind_eq_some_iff.mp h
    rw [hcli]
    split at h
    · obtain ⟨line, -, h⟩ := Option.bind_eq_some_iff.mp h
      obtain ⟨shell, -, h⟩ := Option.bind_eq_some_iff.mp h
      cases h
      rfl
    · cases h
      rfl

theorem Editor.matches_of_reachable {pid : BitVec 32} {environ : List (List UInt8)} {w : ω}
    (h : (shellMachine os pid environ w).Reachable r) :
    r.cli.Inv ∧ (Editor.reads r.cli.reads).Matches r.cli := by
  apply h.invariant
  · rintro r ⟨hcli, -⟩
    exact ⟨ShellLine.Inv.of_starts hcli, Editor.matches_starts hcli⟩
  · rintro r input r' ⟨hinv, hmatches⟩ - ⟨num, hstep⟩
    have hcli := ShellRun.step_cli hstep
    obtain ⟨next, hnext, hkept⟩ := hinv.step input
    obtain ⟨next', inputs, hnext', hreads, hmatches'⟩ := hmatches.step hinv input
    obtain rfl := Option.some.inj (hcli.symm.trans hnext)
    obtain rfl := Option.some.inj (hcli.symm.trans hnext')
    refine ⟨hkept, ?_⟩
    rw [hreads, Editor.reads, List.foldl_append]
    exact hmatches'

/-- The shell is a function of what has been read: it does what the lines mean that an editor
without buffers gives, and at every read, that of the loop and the two of an escape sequence,
`line` holds the text of the editor. -/
theorem shell_typed {pid : BitVec 32} {environ : List (List UInt8)} {w : ω}
    (hnul : ∀ envEntry ∈ environ, 0 ∉ envEntry)
    (h : (shellMachine os pid environ w).Reachable r) (hpoint : r.cli.point ≠ .parse) :
    r.shell.forget = (ShellState.enterMain os pid environ w).meanings os
        (Editor.reads r.cli.reads).handed ∧
      (r.cli.point ≠ .prompt → (Editor.reads r.cli.reads).Shows r.cli) := by
  have hmeans := (ShellRun.inv_of_reachable hnul h).means
  have hmatches := (Editor.matches_of_reachable h).2
  unfold Editor.Matches at hmatches
  constructor
  · have hhanded : (Editor.reads r.cli.reads).handed = r.cli.handed := by
      cases hp : r.cli.point with
      | parse => exact absurd hp hpoint
      | prompt =>
          rw [hp] at hmatches
          exact hmatches.2.2.2
      | read | readSeq1 | readSeq2 =>
          rw [hp] at hmatches
          exact hmatches.2.handed.symm
    rw [hhanded]
    exact hmeans
  · intro hread
    cases hp : r.cli.point with
    | parse => exact absurd hp hpoint
    | prompt => exact absurd hp hread
    | read | readSeq1 | readSeq2 =>
        rw [hp] at hmatches
        exact hmatches.2

end Typed

/-- A line that is corrected, entered, fetched back and entered again. -/
theorem shell_typed_again :
    ∃ r, (shellMachine calmOs 3 [] ()).Reachable r ∧ r.cli.point = .prompt ∧
      (Editor.reads r.cli.reads).handed = [cstr "sh", cstr "sh"] ∧
      r.shell.forget = (ShellState.enterMain calmOs 3 [] ()).meanings calmOs
        (Editor.reads r.cli.reads).handed := by
  have hrun : ((Machine.execAll (ShellRun.step calmOs fun _ => 1) (fun _ _ => True)
      ([none, some 115, some 115, some backspace, some 104, some carriageReturn, none, none,
        some escape, some bracket, some ShellLine.arrowUp, some carriageReturn, none])
      (.fresh (.enterMain calmOs 3 [] ()))).map
      fun r => (r.cli.point, (Editor.reads r.cli.reads).handed)) =
      some (.prompt, [cstr "sh", cstr "sh"]) := by
    rfl
  obtain ⟨r, hr, hends⟩ := Option.map_eq_some_iff.mp hrun
  have hreach : (shellMachine calmOs 3 [] ()).Reachable r :=
    (ShellRun.fresh_starts calmOs 3 _ ()).execAll shellMachine_step hr
  have hpoint : r.cli.point = .prompt := congrArg Prod.fst hends
  exact ⟨r, hreach, hpoint, congrArg Prod.snd hends,
    (shell_typed (by decide) hreach (by rw [hpoint]; decide)).1⟩

end Punix
