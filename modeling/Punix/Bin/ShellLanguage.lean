import Punix.Bin.ShellCommands

/-!
The command language of the shell: what a line means for the variables, the last exit status
and the kernel, said of words instead of buffers. `process_command` has this meaning for every
line, whatever is left in its buffers from the commands before.
-/

namespace Punix

open Lib Lib.Cells Lib.NulStrings ShellVars

/-- A word like `NAME=VALUE`. -/
def isAssignment (w : List UInt8) : Bool := (parseAssignment w).isSome

def ampersand : List UInt8 := cstr "&"

namespace ShellState

variable {ω : Type} (os : ShellOs ω)

/-- The entries of the exported variables. -/
def environment (s : ShellState ω) : List (List UInt8) :=
  (s.vars.live.filter ShellVar.isExported).map entryText

/-- Leading assignments set variables, which are not exported by that. -/
def assign (ws : List (List UInt8)) (s : ShellState ω) : ShellState ω :=
  (ws.filterMap parseAssignment).foldl (fun s (name, value) => s.setVariable os name value 0) s

/-- An argument, of which `LINE_MAX - 1` characters are kept. -/
def expandWord (s : ShellState ω) (w : List UInt8) : List UInt8 :=
  (expansion s.toShellValues w).take (lineMax - 1)

/-- A program is looked up, started and waited for. -/
def call (argv : List (List UInt8)) (s : ShellState ω) : ShellState ω × Bool :=
  let cmd := argv.headD []
  match s.resolveFullPath os lineMax cmd with
  | none => (s.notFound os cmd, false)
  | some path => s.runChild os path argv s.environment

/-- A program is looked up and started. -/
def start (argv : List (List UInt8)) (s : ShellState ω) : ShellState ω :=
  let cmd := argv.headD []
  match s.resolveFullPath os lineMax cmd with
  | none => s.notFound os cmd
  | some path => s.startChild os path argv s.environment

/-- A program is called until it fails, but not more often than `left` times. -/
def callAll (argv : List (List UInt8)) (count : BitVec 32) :
    Nat → Nat → ShellState ω → ShellState ω
  | 0, _, s => s
  | left + 1, i, s =>
      let (s, ran) := (s.printf os (cstr "[" ++ decimalText (BitVec.ofNat 32 (i + 1)) ++
        cstr "/" ++ decimalText count ++ cstr "]\n")).call os argv
      if ran ∧ s.lastExitStatus = 0 then callAll argv count left (i + 1) s else s

/-- `repeat`. -/
def repeats (argv : List (List UInt8)) (s : ShellState ω) : ShellState ω :=
  match argv with
  | _ :: number :: cmd :: args =>
      let count := Libc.atoi number
      if count.toInt ≤ 0 then (s.printf os (cstr "repeat: count must be positive\n")).withStatus 1
      else s.callAll os (cmd :: args) count count.toNat 0
  | _ => (s.printf os (cstr "Usage: repeat <count> <command> [args...]\n")).withStatus 1

/-- What a built-in command does. -/
def builtin (argv : List (List UInt8)) (s : ShellState ω) :
    Option (ShellOutcome (ShellState ω) ω) :=
  let cmd := argv.headD []
  if cmd = cstr "exit" then some (s.builtinExit argv)
  else if cmd = cstr "cd" then some (.continues (s.builtinCd os argv))
  else if cmd = cstr "set" then some (.continues (s.builtinSet os))
  else if cmd = cstr "env" ∨ cmd = cstr "printenv" then some (.continues (s.builtinEnvLike os argv))
  else if cmd = cstr "export" then some (.continues (s.builtinExport os argv))
  else if cmd = cstr "unset" then some (.continues (s.builtinUnset os argv))
  else if cmd = cstr "repeat" then some (.continues (s.repeats os argv))
  else if cmd = cstr "help" then some (.continues (s.builtinHelp os argv))
  else none

/-- A command, in the foreground or in the background. A built-in command is always in the
foreground. -/
def command (argv : List (List UInt8)) (background : Bool) (s : ShellState ω) :
    ShellOutcome (ShellState ω) ω :=
  match s.builtin os argv with
  | some outcome => outcome
  | none => .continues (if background then s.start os argv else (s.call os argv).1)

/-- A line that begins with the words of a command. -/
def commandLine (argv : List (List UInt8)) (s : ShellState ω) :
    ShellOutcome (ShellState ω) ω :=
  if argv.getLast? = some ampersand then
    if argv.dropLast = [] then .continues s else s.command os argv.dropLast true
  else s.command os argv false

/-- The meaning of a line. The words of a command are expanded when the assignments in front of
it have been made. -/
def meaning (line : List UInt8) (s : ShellState ω) : ShellOutcome (ShellState ω) ω :=
  let ws := (commandWords line).take 15
  if ws = [] then .continues s
  else
    let s := s.assign os (ws.takeWhile isAssignment)
    match ws.dropWhile isAssignment with
    | [] => .continues (s.withStatus 0)
    | w :: rest => s.commandLine os ((w :: rest).map s.expandWord)

/-- The meaning of a session. -/
def meanings : List (List UInt8) → ShellState ω → ShellOutcome (ShellState ω) ω
  | [], s => .continues s
  | line :: lines, s =>
      match s.meaning os line with
      | .continues s => meanings lines s
      | .exits code w => .exits code w

end ShellState

/-- What is left of an outcome without the buffers. -/
def ShellOutcome.forget {ω : Type} :
    ShellOutcome (ShellProc ω) ω → ShellOutcome (ShellState ω) ω
  | .continues p => .continues p.toShellState
  | .exits code w => .exits code w

/-- The pointers are those to the words, in slots from the one with the number `first` on, and
there is a null pointer behind them. -/
structure ArgsAt (mem : ArgMem) (first : Nat) (ws : List (List UInt8)) : Prop where
  arg : ∀ i w, ws[i]? = some w → mem.argv i = some ((first + i) * lineMax) ∧
    w.length < lineMax ∧ TextAt mem.argBuf ((first + i) * lineMax) w
  last : mem.argv ws.length = none
  few : first + ws.length ≤ 15

section Arguments

variable {mem : ArgMem} {first i : Nat} {ws : List (List UInt8)} {w : List UInt8}

theorem TextAt.holds {buf : Nat → UInt8} {p : Nat} (h : TextAt buf p w)
    (hlen : w.length < lineMax) : Holds lineMax (fun j => buf (p + j)) w where
  char i hi := h.byte i _ (List.getElem?_eq_getElem hi)
  nul := h.nul
  noNul := h.nonzero
  fits := hlen

theorem TextAt.of_holds {buf : Nat → UInt8} {p : Nat}
    (h : Holds lineMax (fun j => buf (p + j)) w) : TextAt buf p w where
  byte i c hc := by
    obtain ⟨hi, rfl⟩ := List.getElem?_eq_some_iff.mp hc
    exact h.char i hi
  nul := h.nul
  nonzero := h.noNul

/-- The pointer to a word, and the slot that it leads to. -/
theorem ArgsAt.slot (h : ArgsAt mem first ws) (hw : ws[i]? = some w) :
    loadIn 16 mem.argv i = some (some ((first + i) * lineMax)) ∧
      (first + i) * lineMax + lineMax ≤ argBufSize ∧
      Holds lineMax (fun j => mem.argBuf ((first + i) * lineMax + j)) w := by
  have hfew := h.few
  have hi := (List.getElem?_eq_some_iff.mp hw).1
  obtain ⟨hptr, hlen, htext⟩ := h.arg i w hw
  refine ⟨?_, ?_, htext.holds hlen⟩
  · rw [loadIn, if_pos (by omega), hptr]
  · rw [← Nat.succ_mul]
    exact Nat.mul_le_mul_right lineMax (show first + i + 1 ≤ 16 by omega)

theorem ArgMem.slot_of_le {start : Nat} (h : start + lineMax ≤ argBufSize) :
    mem.slot start = some fun j => mem.argBuf (start + j) := if_pos h

theorem ArgsAt.text (h : ArgsAt mem first ws) (hw : ws[i]? = some w) : mem.text i = some w := by
  obtain ⟨hload, hslot, hholds⟩ := h.slot hw
  simp only [ArgMem.text, hload, Option.bind_eq_bind, Option.bind_some, ArgMem.slot_of_le hslot,
    hholds.textIn]

theorem ArgsAt.noNul (h : ArgsAt mem first ws) (hw : w ∈ ws) : 0 ∉ w := by
  obtain ⟨i, hi⟩ := List.mem_iff_getElem?.mp hw
  exact (h.arg i w hi).2.2.nonzero

theorem mapM_range {f : Nat → Option (List UInt8)} (h : ∀ i w, ws[i]? = some w → f i = some w)
    {k : Nat} (hk : k ≤ ws.length) : (List.range k).mapM f = some (ws.take k) := by
  induction k with
  | zero => rfl
  | succ k ih =>
      have hword := h k ws[k] (List.getElem?_eq_getElem hk)
      rw [List.range_succ, List.mapM_append, ih (Nat.le_of_succ_le hk),
        List.take_succ_eq_append_getElem hk]
      simp [hword]

/-- The words, as `handle_builtin` reads them. -/
theorem ArgsAt.mapM_text (h : ArgsAt mem first ws) :
    (List.range ws.length).mapM mem.text = some ws := by
  have hall := mapM_range (fun i w hw => h.text hw) le_rfl
  rwa [List.take_length] at hall

/-- The strings up to a null pointer. -/
theorem stringsFrom_eq {text : Nat → Option (Option (List UInt8))}
    (htext : ∀ i w, ws[i]? = some w → text i = some (some w)) (hlast : text ws.length = some none)
    {fuel : Nat} (hi : i ≤ ws.length) (hfuel : ws.length < fuel + i) :
    stringsFrom text fuel i = some (ws.drop i) := by
  induction fuel generalizing i with
  | zero => omega
  | succ fuel ih =>
      rw [stringsFrom]
      rcases hi.lt_or_eq with hlt | rfl
      · rw [htext i ws[i] (List.getElem?_eq_getElem hlt), List.drop_eq_getElem_cons hlt]
        simp only [Option.bind_eq_bind, Option.bind_some, ih hlt (by omega)]
      · rw [hlast, List.drop_length]
        rfl

theorem ArgsAt.strings (h : ArgsAt mem first ws) (hi : i ≤ ws.length) :
    mem.stringsFrom i = some (ws.drop i) := by
  have hfew := h.few
  refine stringsFrom_eq ?_ ?_ hi (by omega)
  · intro j w hw
    obtain ⟨hload, hslot, hholds⟩ := h.slot hw
    simp only [ArgMem.stringAt, hload, Option.bind_eq_bind, Option.bind_some,
      ArgMem.slot_of_le hslot, hholds.textIn, Option.map_some]
  · have hload : loadIn 16 mem.argv ws.length = some none := by
      rw [loadIn, if_pos (by omega), h.last]
    simp only [ArgMem.stringAt, hload, Option.bind_eq_bind, Option.bind_some]

/-- The environment that has been built, as `execve` finds it. -/
theorem PassesEntries.strings {mem : EnvMem} {entries : List (List UInt8)}
    (h : PassesEntries mem entries) (hcount : entries.length ≤ maxVars) :
    mem.entries = some entries := by
  have hall : stringsFrom mem.stringAt (maxVars + 2) 0 = some (entries.drop 0) := by
    refine stringsFrom_eq ?_ ?_ (Nat.zero_le _) (by omega)
    · intro i w hw
      obtain ⟨hi, rfl⟩ := List.getElem?_eq_some_iff.mp hw
      have hload : loadIn (maxVars + 1) mem.storage i = some (some i) := by
        rw [loadIn, if_pos (by omega), h.pointer i hi]
      simp only [EnvMem.stringAt, hload, Option.bind_eq_bind, Option.bind_some,
        (h.string i hi).textIn, Option.map_some]
    · have hload : loadIn (maxVars + 1) mem.storage entries.length = some none := by
        rw [loadIn, if_pos (by omega), h.last]
      simp only [EnvMem.stringAt, hload, Option.bind_eq_bind, Option.bind_some]
  exact hall

/-- Without the first words, which the pointers are moved over. -/
theorem ArgsAt.shift (h : ArgsAt mem 0 ws) {k : Nat} (hpos : 0 < k) (hk : k ≤ ws.length) :
    ∃ argv, ShellProc.shiftArguments mem.argv k ws.length = some argv ∧
      ArgsAt { mem with argv } k (ws.drop k) := by
  have hfew := h.few
  have hmove := shiftIn_of_le (show ws.length - k + k ≤ 16 by omega) mem.argv
  have hend := storeIn_of_lt (show ws.length - k < 16 by omega)
    (Cells.shift mem.argv k (ws.length - k)) none
  refine ⟨Function.update (Cells.shift mem.argv k (ws.length - k)) (ws.length - k) none,
    ?_, ?_, ?_, ?_⟩
  · simp only [ShellProc.shiftArguments, hmove, Option.bind_eq_bind, Option.bind_some, hend]
  · intro i w hw
    rw [List.getElem?_drop] at hw
    have hi := (List.getElem?_eq_some_iff.mp hw).1
    obtain ⟨hptr, hlen, htext⟩ := h.arg _ w hw
    rw [Nat.zero_add] at hptr htext
    refine ⟨?_, hlen, htext⟩
    dsimp only
    rw [Function.update_of_ne (by omega), shift_apply _ hpos, if_pos (by omega), Nat.add_comm i k,
      hptr]
  · rw [List.length_drop]
    exact Function.update_self ..
  · rw [List.length_drop]
    omega

/-- Without the last word, the pointer to which is overwritten. -/
theorem ArgsAt.dropLast (h : ArgsAt mem first ws) :
    ArgsAt { mem with argv := Function.update mem.argv (ws.length - 1) none } first ws.dropLast where
  arg i w hw := by
    obtain ⟨hi, rfl⟩ := List.getElem?_eq_some_iff.mp hw
    rw [List.length_dropLast] at hi
    have hword : ws[i]? = some ws.dropLast[i] := by
      rw [List.getElem_dropLast]
      exact List.getElem?_eq_getElem (by omega)
    obtain ⟨hptr, hlen, htext⟩ := h.arg i _ hword
    exact ⟨(Function.update_of_ne (by omega) _ _).trans hptr, hlen, htext⟩
  last := by
    rw [List.length_dropLast]
    exact Function.update_self ..
  few := by
    have hfew := h.few
    rw [List.length_dropLast]
    omega

theorem holds_congr {n : Nat} {f g : Nat → UInt8} (h : Holds n f w) (hsame : ∀ j < n, g j = f j) :
    Holds n g w where
  char i hi := (hsame i (hi.trans h.fits)).trans (h.char i hi)
  nul := (hsame _ h.fits).trans h.nul
  noNul := h.noNul
  fits := h.fits

/-- The slot of one word gets another word. -/
theorem ArgsAt.replace (h : ArgsAt mem first ws) (hi : i < ws.length) {str : Nat → UInt8}
    (hstr : Holds lineMax str w) :
    ArgsAt { mem with argBuf := writeSlot mem.argBuf ((first + i) * lineMax) str } first
      (ws.set i w) where
  arg j v hv := by
    rw [List.getElem?_set] at hv
    split at hv
    · next hij =>
        subst hij
        obtain rfl := Option.some.inj hv
        refine ⟨(h.arg i _ (List.getElem?_eq_getElem hi)).1, hstr.fits, TextAt.of_holds ?_⟩
        apply holds_congr hstr
        intro k hk
        simp only [writeSlot]
        rw [if_pos (by omega), Nat.add_sub_cancel_left]
    · next hij =>
        obtain ⟨hptr, hlen, htext⟩ := h.arg j v hv
        refine ⟨hptr, hlen, TextAt.of_holds (holds_congr (htext.holds hlen) ?_)⟩
        intro k hk
        simp only [writeSlot]
        -- another slot
        rcases Nat.lt_or_gt_of_ne hij with hlt | hgt
        · have hle : (first + i) * lineMax + lineMax ≤ (first + j) * lineMax := by
            rw [← Nat.succ_mul]
            exact Nat.mul_le_mul_right _ (by omega)
          rw [if_neg (by omega)]
        · have hle : (first + j) * lineMax + lineMax ≤ (first + i) * lineMax := by
            rw [← Nat.succ_mul]
            exact Nat.mul_le_mul_right _ (by omega)
          rw [if_neg (by omega)]
  last := by
    rw [List.length_set]
    exact h.last
  few := by
    rw [List.length_set]
    exact h.few

end Arguments

section Commands

variable {ω : Type} {os : ShellOs ω} {num : Nat → UInt8} {p : ShellProc ω} {first i : Nat}
  {ws argv : List (List UInt8)} {line : List UInt8}

theorem setVariable_varCount {t : ShellVars} (hcount : t.varCount ≤ maxVars)
    (name value : List UInt8) (exported : Int) :
    (t.setVariable name value exported).1.varCount ≤ maxVars := by
  rw [ShellVars.setVariable]
  split
  · exact hcount
  · split
    · exact hcount
    · next hroom => exact Nat.lt_of_not_le hroom

theorem assign_cons {w : List UInt8} {b : CharArray maxVarName × CharArray maxVarValue}
    (h : parseAssignment w = some b) (s : ShellState ω) :
    s.assign os (w :: ws) = (s.setVariable os b.1 b.2 0).assign os ws := by
  rw [ShellState.assign, List.filterMap_cons_some h]
  rfl

variable (os) in
/-- The loop over the assignments stops at the first word that is none. -/
theorem assignmentLoop_eq (h : ArgsAt p.args 0 ws) {left : Nat} (hleft : left + i = ws.length) :
    p.assignmentLoop os left i =
      some (p.update (ShellState.assign os ((ws.drop i).takeWhile isAssignment)),
        i + ((ws.drop i).takeWhile isAssignment).length) := by
  induction left generalizing i p with
  | zero =>
      rw [List.drop_eq_nil_of_le (by omega)]
      rfl
  | succ left ih =>
      have hi : i < ws.length := by omega
      rw [ShellProc.assignmentLoop, h.text (List.getElem?_eq_getElem hi), List.drop_eq_getElem_cons hi]
      rw [Option.bind_eq_bind, Option.bind_some]
      cases hparse : parseAssignment ws[i] with
      | none =>
          rw [List.takeWhile_cons_of_neg (by simp [isAssignment, hparse])]
          rfl
      | some b =>
          have hnext := ih (p := p.update (ShellState.setVariable os b.1 b.2 0)) (i := i + 1) h
            (by omega)
          rw [List.takeWhile_cons_of_pos (by simp [isAssignment, hparse]), List.length_cons,
            ShellProc.update, assign_cons hparse, ← Nat.add_assoc, Nat.add_right_comm]
          exact hnext

variable (num) in
/-- `expand_variables` over a word of the arguments. -/
theorem expandVariables_holds (sh : ShellValues) {str : Nat → UInt8} {w : List UInt8}
    (h : Holds lineMax str w) (buf : Nat → UInt8) :
    ∃ buf' str', expandVariables sh num buf str = some (buf', str') ∧
      Holds lineMax str' ((expansion sh w).take (lineMax - 1)) := by
  obtain ⟨buf₁, hloop, hbegins⟩ : Yields (expandLoop sh num w.length w buf 0) (expansion sh w) :=
    expandLoop_yields le_rfl (Begins.nil buf) (Nat.zero_le _)
  have hshort : ((expansion sh w).take (lineMax - 1)).length < lineMax :=
    (List.length_take_le _ _).trans_lt (Nat.lt_succ_self _)
  have hended := hbegins.holds
    (fun hmem => noNul_expansion sh h.noNul (List.mem_of_mem_take hmem)) hshort
  obtain ⟨str', hcopy, hstr, -⟩ := hended.strcpyIn hshort str
  refine ⟨Function.update buf₁ ((expansion sh w).take (lineMax - 1)).length 0, str', ?_, hstr⟩
  rw [expandVariables, h.textIn]
  simp only [Option.bind_eq_bind, Option.bind_some, hloop, storeIn_of_lt hshort, hcopy]

variable (num) in
/-- Every word is replaced by its expansion. -/
theorem expandArguments_eq (h : ArgsAt p.args first ws) {left : Nat} (hleft : left + i = ws.length) :
    ∃ p', p.expandArguments num left i = some p' ∧ p'.toShellState = p.toShellState ∧
      p'.env = p.env ∧
      ArgsAt p'.args first (ws.take i ++ (ws.drop i).map p.expandWord) := by
  induction left generalizing i p ws with
  | zero =>
      refine ⟨p, rfl, rfl, rfl, ?_⟩
      rw [List.drop_eq_nil_of_le (by omega), List.map_nil, List.append_nil,
        List.take_of_length_le (by omega)]
      exact h
  | succ left ih =>
      have hi : i < ws.length := by omega
      obtain ⟨hload, hslot, hholds⟩ := h.slot (List.getElem?_eq_getElem hi)
      obtain ⟨buf, str, hrun, hstr⟩ := expandVariables_holds num p.toShellValues hholds p.buf
      have hstore : p.args.storeSlot ((first + i) * lineMax) str = some _ := if_pos hslot
      rw [ShellProc.expandArguments]
      simp only [hload, Option.bind_eq_bind, Option.bind_some, ArgMem.slot_of_le hslot, hrun, hstore]
      have hreplaced := h.replace hi hstr
      obtain ⟨p', hloop, hsame, henv, hargs⟩ := ih (p := { p with
        buf, args := { p.args with
          argBuf := writeSlot p.args.argBuf ((first + i) * lineMax) str } }) hreplaced (i := i + 1)
        (by rw [List.length_set]; omega)
      refine ⟨p', hloop, hsame, henv, ?_⟩
      have hset : (ws.set i (p.expandWord ws[i])).take (i + 1) = ws.take i ++ [p.expandWord ws[i]] := by
        rw [List.take_succ_eq_append_getElem (by rw [List.length_set]; exact hi),
          List.getElem_set_self, List.take_set_of_le le_rfl]
      have hrest : (ws.set i (p.expandWord ws[i])).drop (i + 1) = ws.drop (i + 1) :=
        List.drop_set_of_lt (Nat.lt_succ_self i)
      rw [List.drop_eq_getElem_cons hi, List.map_cons, List.append_cons, ← hset, ← hrest]
      exact hargs

variable (os) in
theorem assign_varCount (hcount : p.vars.varCount ≤ maxVars) (ws : List (List UInt8)) :
    (p.assign os ws).vars.varCount ≤ maxVars := by
  rw [ShellState.assign]
  generalize ws.filterMap parseAssignment = bs
  generalize p.toShellState = s at hcount ⊢
  induction bs generalizing s with
  | nil => exact hcount
  | cons b bs ih =>
      rw [List.foldl_cons]
      apply ih
      have hset := setVariable_varCount hcount b.1.bytes b.2.bytes 0
      unfold ShellState.setVariable
      dsimp only
      split
      · exact hset
      · exact hset

theorem buildEnvironment_eq (hcount : p.vars.varCount ≤ maxVars) :
    ∃ p', p.buildEnvironment = some (p.environment, p') ∧ p'.toShellState = p.toShellState ∧
      p'.args = p.args := by
  obtain ⟨env, hbuild, hpasses⟩ := buildEnvironment_passes hcount p.env
  have hlength : ((p.vars.live.filter ShellVar.isExported).map entryText).length ≤ maxVars := by
    rw [List.length_map]
    exact (p.vars.live.length_filter_le _).trans (by rwa [length_live])
  refine ⟨{ p with env }, ?_, rfl, rfl⟩
  rw [ShellProc.buildEnvironment, hbuild]
  simp only [Option.bind_eq_bind, Option.bind_some, hpasses.strings hlength]
  rfl

variable (os) in
theorem runChild_vars (path : List UInt8) (argv envp : List (List UInt8)) (s : ShellState ω) :
    (s.runChild os path argv envp).1.vars = s.vars := by
  unfold ShellState.runChild
  dsimp only
  split
  · rfl
  · split <;> rfl

/-- The loop of `repeat` calls a program again and again. -/
theorem repeatLoop_eq {cmd : List UInt8} {args : List (List UInt8)} {count : BitVec 32} {left : Nat}
    (hcount : p.vars.varCount ≤ maxVars) (h : ArgsAt p.args first ws)
    (hws : ws.drop 2 = cmd :: args) :
    ∃ p', p.repeatLoop os cmd count left i = some p' ∧
      p'.toShellState = p.callAll os (cmd :: args) count left i := by
  induction left generalizing i p with
  | zero => exact ⟨p, rfl, rfl⟩
  | succ left ih =>
      have hlen : 2 ≤ ws.length := by
        by_contra hshort
        rw [List.drop_eq_nil_of_le (by omega)] at hws
        cases hws
      rw [ShellProc.repeatLoop, ShellState.callAll, ShellState.call, List.headD_cons]
      generalize hheader : ShellState.printf os (cstr "[" ++ decimalText (BitVec.ofNat 32 (i + 1)) ++
        cstr "/" ++ decimalText count ++ cstr "]\n") = header
      have hvars : (header p.toShellState).vars = p.vars := by
        rw [← hheader]
        rfl
      dsimp only [ShellProc.update]
      cases hpath : (header p.toShellState).resolveFullPath os lineMax cmd with
      | none => exact ⟨_, rfl, rfl⟩
      | some path =>
          obtain ⟨p₁, hbuild, hsame, hargs⟩ :=
            buildEnvironment_eq (p := { p with toShellState := header p.toShellState }) (by rwa [hvars])
          have hstrings : p₁.args.stringsFrom 2 = some (cmd :: args) := by
            rw [hargs, ← hws]
            exact h.strings hlen
          simp only [Option.bind_eq_bind, Option.bind_some, hbuild, hstrings, hsame]
          cases hrun : (header p.toShellState).runChild os path (cmd :: args)
            (header p.toShellState).environment with
          | mk s ran =>
              cases ran with
              | false => exact ⟨_, rfl, rfl⟩
              | true =>
                  rcases eq_or_ne s.lastExitStatus 0 with hzero | hfailed
                  · have hkept : s.vars = p.vars := by
                      have hrunVars := runChild_vars os path (cmd :: args)
                        (header p.toShellState).environment (header p.toShellState)
                      rw [hrun] at hrunVars
                      exact hrunVars.trans hvars
                    have hnext := ih (p := { p₁ with toShellState := s }) (i := i + 1)
                      (by rwa [hkept]) (hargs ▸ h)
                    simpa [hzero] using hnext
                  · refine ⟨{ p₁ with toShellState := s }, ?_, ?_⟩
                    · exact if_pos hfailed
                    · exact (if_neg fun hran => hfailed hran.2).symm

/-- `strcmp` with a literal. -/
theorem strcmp_eq_zero {cmd name : List UInt8} (hcmd : 0 ∉ cmd) (hname : 0 ∉ name) :
    kStrcmp cmd name = 0 ↔ cmd = name := by
  rw [kStrcmp_eq_zero_iff, strBytes_eq_self hcmd, strBytes_eq_self hname]

variable (os) in
theorem builtinRepeat_eq (hcount : p.vars.varCount ≤ maxVars) (h : ArgsAt p.args first ws) :
    ∃ p', p.builtinRepeat os ws = some p' ∧ p'.toShellState = p.repeats os ws := by
  unfold ShellProc.builtinRepeat ShellState.repeats
  rcases ws with - | ⟨name, - | ⟨number, - | ⟨cmd, args⟩⟩⟩
  · exact ⟨_, rfl, rfl⟩
  · exact ⟨_, rfl, rfl⟩
  · exact ⟨_, rfl, rfl⟩
  · dsimp only
    split
    · exact ⟨_, rfl, rfl⟩
    · exact repeatLoop_eq hcount h rfl

variable (os) in
/-- A built-in command of a shell with buffers. -/
theorem handleBuiltin_eq (hcount : p.vars.varCount ≤ maxVars) (h : ArgsAt p.args first ws)
    (hws : ws ≠ []) :
    ∃ r, p.handleBuiltin os ws = some r ∧ r.map ShellOutcome.forget = p.builtin os ws := by
  obtain ⟨cmd, args, rfl⟩ := List.exists_cons_of_ne_nil hws
  have hcmd : 0 ∉ cmd := h.noNul List.mem_cons_self
  have hname (name : String) (hname : 0 ∉ cstr name) : kStrcmp cmd (cstr name) = 0 ↔ cmd = cstr name :=
    strcmp_eq_zero hcmd hname
  unfold ShellProc.handleBuiltin ShellState.builtin
  dsimp only [List.headD_cons]
  simp only [hname "exit" (by decide), hname "cd" (by decide),
    hname "set" (by decide), hname "env" (by decide), hname "printenv" (by decide),
    hname "export" (by decide), hname "unset" (by decide), hname "repeat" (by decide),
    hname "help" (by decide)]
  by_cases hexit : cmd = cstr "exit"
  · rw [if_pos hexit, if_pos hexit]
    exact ⟨_, rfl, rfl⟩
  rw [if_neg hexit, if_neg hexit]
  by_cases hcd : cmd = cstr "cd"
  · rw [if_pos hcd, if_pos hcd]
    exact ⟨_, rfl, rfl⟩
  rw [if_neg hcd, if_neg hcd]
  by_cases hset : cmd = cstr "set"
  · rw [if_pos hset, if_pos hset]
    exact ⟨_, rfl, rfl⟩
  rw [if_neg hset, if_neg hset]
  by_cases henv : cmd = cstr "env" ∨ cmd = cstr "printenv"
  · rw [if_pos henv, if_pos henv]
    exact ⟨_, rfl, rfl⟩
  rw [if_neg henv, if_neg henv]
  by_cases hexport : cmd = cstr "export"
  · rw [if_pos hexport, if_pos hexport]
    exact ⟨_, rfl, rfl⟩
  rw [if_neg hexport, if_neg hexport]
  by_cases hunset : cmd = cstr "unset"
  · rw [if_pos hunset, if_pos hunset]
    exact ⟨_, rfl, rfl⟩
  rw [if_neg hunset, if_neg hunset]
  by_cases hrepeat : cmd = cstr "repeat"
  · rw [if_pos hrepeat, if_pos hrepeat]
    obtain ⟨p', hrun, hsame⟩ := builtinRepeat_eq os hcount h
    refine ⟨some (.continues p'), ?_, ?_⟩
    · rw [hrun]
      rfl
    · rw [← hsame]
      rfl
  rw [if_neg hrepeat, if_neg hrepeat]
  by_cases hhelp : cmd = cstr "help"
  · rw [if_pos hhelp, if_pos hhelp]
    exact ⟨_, rfl, rfl⟩
  · rw [if_neg hhelp, if_neg hhelp]
    exact ⟨none, rfl, rfl⟩

/-- A command is looked up, and run in the foreground or in the background. -/
theorem runCommand_eq (hcount : p.vars.varCount ≤ maxVars) (h : ArgsAt p.args first ws)
    (hws : ws ≠ []) (background : Bool) :
    ∃ r, p.runCommand os ws.length background = some r ∧
      r.forget = p.command os ws background := by
  obtain ⟨cmd, args, rfl⟩ := List.exists_cons_of_ne_nil hws
  obtain ⟨r, hbuiltin, hmeans⟩ := handleBuiltin_eq os hcount h hws
  rw [ShellProc.runCommand, h.mapM_text, ShellState.command, ← hmeans]
  simp only [Option.bind_eq_bind, Option.bind_some, hbuiltin]
  cases r with
  | some outcome => exact ⟨outcome, rfl, rfl⟩
  | none =>
      simp only [Option.map_none, h.text List.getElem?_cons_zero, ShellState.start, ShellState.call,
        List.headD_cons, Option.bind_some]
      cases hpath : p.resolveFullPath os lineMax cmd with
      | none =>
          refine ⟨_, rfl, ?_⟩
          cases background
          · rfl
          · rfl
      | some path =>
          obtain ⟨p₁, hbuild, hsame, hargs⟩ := buildEnvironment_eq hcount
          have hstrings : p₁.args.stringsFrom 0 = some (cmd :: args) := by
            rw [hargs]
            exact h.strings (Nat.zero_le _)
          simp only [hbuild, hstrings, Option.bind_some]
          rw [← hsame]
          cases background
          · exact ⟨_, rfl, rfl⟩
          · exact ⟨_, rfl, rfl⟩

variable (os) in
/-- The words behind the assignments. -/
theorem runArguments_eq (hcount : p.vars.varCount ≤ maxVars) (h : ArgsAt p.args first ws)
    (hws : ws ≠ []) :
    ∃ r, p.runArguments os ws.length = some r ∧ r.forget = p.commandLine os ws := by
  have hlast : ws.getLast? = some (ws.getLast hws) := List.getLast?_eq_some_getLast hws
  have hword : ws[ws.length - 1]? = some (ws.getLast hws) := by
    rw [← List.getLast?_eq_getElem?, hlast]
  have hcompare : kStrcmp (ws.getLast hws) (cstr "&") = 0 ↔ ws.getLast? = some ampersand := by
    rw [hlast, Option.some_inj]
    exact strcmp_eq_zero (h.noNul (List.getLast_mem hws)) (by decide)
  rw [ShellProc.runArguments, h.text hword, ShellState.commandLine, Option.bind_eq_bind,
    Option.bind_some]
  by_cases hbackground : ws.getLast? = some ampersand
  · rw [if_pos hbackground, if_pos (hcompare.mpr hbackground), ← List.length_dropLast]
    have hshort := h.dropLast
    have hfew := h.few
    have hstore := storeIn_of_lt (show ws.dropLast.length < 16 by rw [List.length_dropLast]; omega)
      p.args.argv none
    simp only [hstore, Option.bind_eq_bind, Option.bind_some]
    rcases eq_or_ne ws.dropLast [] with hnone | hsome
    · rw [if_pos hnone, if_pos (List.length_eq_zero_iff.mpr hnone)]
      exact ⟨_, rfl, rfl⟩
    · rw [if_neg hsome, if_neg (mt List.length_eq_zero_iff.mp hsome)]
      rw [← List.length_dropLast] at hshort
      exact runCommand_eq
        (p := { p with args.argv := Function.update p.args.argv ws.dropLast.length none })
        hcount hshort hsome true
  · rw [if_neg hbackground, if_neg (mt hcompare.mp hbackground)]
    exact runCommand_eq hcount h hws false

/-- The words of a line, in memory. -/
theorem commandArguments_argsAt (hlen : line.length < lineMax) (hnul : 0 ∉ line) (mem : ArgMem) :
    ∃ mem', commandArguments line mem = some (((commandWords line).take 15).length, mem') ∧
      ArgsAt mem' 0 ((commandWords line).take 15) := by
  have hstart : Passes mem 0 [] := ⟨rfl, fun i w hw => by cases hw⟩
  obtain ⟨argc, mem', hloop, hpasses, -⟩ :=
    argumentLoop_spec (Nat.zero_add 15).le hlen hnul hstart
  rw [List.nil_append] at hpasses
  obtain rfl := hpasses.argc
  have hfew := List.length_take_le 15 (commandWords line)
  have hlast := storeIn_of_lt (show ((commandWords line).take 15).length < 16 by omega) mem'.argv none
  refine ⟨{ mem' with argv := Function.update mem'.argv _ none }, ?_, ?_, Function.update_self ..,
    (Nat.zero_add _).le.trans hfew⟩
  · simp only [commandArguments, parseArguments, hloop, Option.bind_eq_bind, Option.bind_some, hlast]
  · intro i w hw
    have hi := (List.getElem?_eq_some_iff.mp hw).1
    rw [Nat.zero_add, ← (hpasses.arg i w hw).1]
    exact ⟨Function.update_of_ne hi.ne _ _, (hpasses.arg i w hw).2⟩

/-- The assignments in front of other words are taken off. -/
theorem removeAssignments_eq {before rest : List (List UInt8)}
    (h : ArgsAt p.args 0 (before ++ rest)) :
    ∃ p', p.removeAssignments before.length (before.length + rest.length) = some p' ∧
      p'.toShellState = p.toShellState ∧ ArgsAt p'.args before.length rest := by
  unfold ShellProc.removeAssignments
  split
  · next hpos =>
      obtain ⟨argv, hshift, hargs⟩ := h.shift hpos (by simp)
      rw [List.length_append] at hshift
      rw [List.drop_left] at hargs
      exact ⟨{ p with args := { p.args with argv } }, by rw [hshift]; rfl, rfl, hargs⟩
  · next hnone =>
      rw [Nat.eq_zero_of_not_pos hnone]
      rw [List.eq_nil_of_length_eq_zero (Nat.eq_zero_of_not_pos hnone), List.nil_append] at h
      exact ⟨p, rfl, rfl, h⟩

variable (os num) in
/-- `process_command` does what the line means. -/
theorem processCommand_meaning (hcount : p.vars.varCount ≤ maxVars) (hlen : line.length < lineMax)
    (hnul : 0 ∉ line) :
    ∃ r, p.processCommand os num line = some r ∧ r.forget = p.meaning os line := by
  obtain ⟨args, hparse, hargs⟩ := commandArguments_argsAt hlen hnul p.args
  rw [ShellProc.processCommand, ShellState.meaning, hparse, Option.bind_eq_bind, Option.bind_some]
  generalize (commandWords line).take 15 = ws at hargs ⊢
  dsimp only
  rcases eq_or_ne ws [] with rfl | hws
  · exact ⟨_, rfl, rfl⟩
  rw [if_neg (by rwa [List.length_eq_zero_iff]), if_neg hws]
  have hassign := assignmentLoop_eq os (p := { p with args }) hargs (i := 0)
    (Nat.add_zero _)
  rw [List.drop_zero, Nat.zero_add] at hassign
  rw [hassign, Option.bind_eq_bind, Option.bind_some]
  have hassigned := assign_varCount os hcount (ws.takeWhile isAssignment)
  have hsplit := List.takeWhile_append_dropWhile (p := isAssignment) (l := ws)
  generalize ws.takeWhile isAssignment = before at hassigned hsplit ⊢
  generalize ws.dropWhile isAssignment = rest at hsplit ⊢
  subst hsplit
  rw [List.length_append]
  dsimp only
  generalize hafter : ShellProc.update { p with args } (ShellState.assign os before) = q
  have hstate : q.toShellState = p.assign os before := by
    rw [← hafter]
    rfl
  have hplaces : ArgsAt q.args 0 (before ++ rest) := by
    rw [← hafter]
    exact hargs
  rw [← hstate] at hassigned ⊢
  cases rest with
  | nil =>
      rw [if_pos (by simp)]
      exact ⟨_, rfl, rfl⟩
  | cons w rest =>
      obtain ⟨q₁, hremove, hsame₁, hargs₁⟩ := removeAssignments_eq hplaces
      obtain ⟨q₂, hexpand, hsame₂, -, hargs₂⟩ :=
        expandArguments_eq num hargs₁ (i := 0) (Nat.add_zero _)
      rw [if_neg (by rw [List.length_cons]; omega), Nat.add_sub_cancel_left, hremove]
      simp only [Option.bind_eq_bind, Option.bind_some, hexpand]
      rw [List.take_zero, List.nil_append, List.drop_zero, hsame₁] at hargs₂
      rw [hsame₁] at hsame₂
      rw [← hsame₂] at hassigned hargs₂ ⊢
      have hrun := runArguments_eq os hassigned hargs₂ (List.cons_ne_nil _ _)
      rwa [List.length_map] at hrun

end Commands

end Punix
