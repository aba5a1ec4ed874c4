import Punix.Bin.ShellLanguage
import Punix.Bin.ShellLines

/-!
A whole session with the shell (`sh.c`): `main` loads the environment, and then every line that
is typed is handed to `process_command`. Whatever is typed, the shell does what the lines mean
one after the other, and every program that it starts gets the variables that are exported at
that point.
-/

namespace Punix

open Lib Lib.Cells Lib.NulStrings ShellVars

/-- `load_environment` over strings. -/
def ShellVars.loadEntries (t : ShellVars) : List (List UInt8) → ShellVars
  | [] => t
  | envEntry :: envp => if t.varCount < maxVars then (loadEntry t envEntry).loadEntries envp else t

namespace ShellState

variable {ω : Type} (os : ShellOs ω)

/-- A default of `main`. -/
def setDefault (name value : List UInt8) (s : ShellState ω) : ShellState ω :=
  if s.vars.findVariable name = none then
    s.setVariable os (CharArray.ofBytes maxVarName name) (CharArray.ofBytes maxVarValue value) 1
  else s

/-- The static variables. -/
def unset : ShellVars where
  vars _ := { name := CharArray.ofBytes maxVarName [], value := CharArray.ofBytes maxVarValue [],
              exported := 0 }
  varCount := 0

/-- `main` when the environment is loaded. -/
def loaded (pid : BitVec 32) (environ : List (List UInt8)) (w : ω) : ShellState ω where
  vars := unset.loadEntries environ
  lastExitStatus := 0
  shellPid := pid
  lastBgPid := -1
  os := w

/-- `main` up to its loop. -/
def enterMain (pid : BitVec 32) (environ : List (List UInt8)) (w : ω) : ShellState ω :=
  let s := (loaded pid environ w).setDefault os (cstr "PATH") (cstr "/bin")
  let s := s.setDefault os (cstr "HOME") (cstr "/")
  s.setDefault os (cstr "SHELL") (cstr "/bin/shell")

end ShellState

/-- The loop of `main`. What it writes for the line itself is in `cli.output`. -/
structure ShellRun (ω : Type) where
  cli : ShellLine
  shell : ShellOutcome (ShellProc ω) ω

section Session

variable {ω : Type} (os : ShellOs ω)

/-- A round of the loop. There is none after an `exit`. -/
def ShellRun.step (num : Nat → UInt8) (r : ShellRun ω) (input : Option UInt8) :
    Option (ShellRun ω) :=
  match r.shell with
  | .exits _ _ => none
  | .continues p => do
      let cli ← r.cli.step input
      if r.cli.point = .parse ∧ r.cli.len ≠ 0 then do
        let line ← textIn lineMax r.cli.line
        let shell ← p.processCommand os num line
        some { cli, shell }
      else some { cli, shell := r.shell }

/-- The shell. Its buffers, and the array for numbers at each use, hold anything. -/
def shellMachine (pid : BitVec 32) (environ : List (List UInt8)) (w : ω) :
    Machine (ShellRun ω) (Option UInt8) where
  init r := r.cli.Starts ∧ r.shell.forget = .continues (.enterMain os pid environ w)
  step r input r' := ∃ num, r.step os num input = some r'

end Session

/-- The variables change by calls that set names only. -/
def VarsChange (t t' : ShellVars) : Prop :=
  ∃ cs : List VarCall, (∀ c ∈ cs, c.Named) ∧ t' = t.calls cs

theorem VarsChange.refl (t : ShellVars) : VarsChange t t := ⟨[], nofun, rfl⟩

theorem VarsChange.trans {t t' t'' : ShellVars} (h : VarsChange t t') (h' : VarsChange t' t'') :
    VarsChange t t'' := by
  obtain ⟨cs, hcs, rfl⟩ := h
  obtain ⟨cs', hcs', rfl⟩ := h'
  refine ⟨cs ++ cs', ?_, (List.foldl_append ..).symm⟩
  intro c hc
  rcases List.mem_append.mp hc with hfirst | hsecond
  · exact hcs c hfirst
  · exact hcs' c hsecond

theorem VarsChange.call (t : ShellVars) {c : VarCall} (hc : c.Named) : VarsChange t (t.call c) :=
  ⟨[c], fun _ hmem => List.mem_singleton.mp hmem ▸ hc, rfl⟩

/-- The kernel goes from one state to another when it is asked for something, and when a program
is started with this environment. -/
structure KernelSteps {ω : Type} (os : ShellOs ω) (envp : List (List UInt8)) (R : ω → ω → Prop) :
    Prop where
  refl : ∀ w, R w w
  trans : ∀ {w w' w''}, R w w' → R w' w'' → R w w''
  print : ∀ text w, R w (os.print text w)
  chdir : ∀ path w, R w (os.chdir path w).2
  fork : ∀ path argv w, R w (os.fork path argv envp w).2
  waitpid : ∀ pid w, R w (os.waitpid pid w).2.2

/-- What a shell does to its variables, and asks of the kernel. -/
structure Leads {ω : Type} (R : ω → ω → Prop) (s s' : ShellState ω) : Prop where
  vars : VarsChange s.vars s'.vars
  kernel : R s.os s'.os

/-- The same of a command, which may be `exit`. -/
def ShellOutcome.LedBy {ω : Type} (R : ω → ω → Prop) (s : ShellState ω) :
    ShellOutcome (ShellState ω) ω → Prop
  | .continues s' => Leads R s s'
  | .exits _ w => R s.os w

section Leads

variable {ω : Type} {os : ShellOs ω} {envp argv : List (List UInt8)} {R : ω → ω → Prop}
  {s s' s'' : ShellState ω}

theorem Leads.trans (hR : KernelSteps os envp R) (h : Leads R s s') (h' : Leads R s' s'') :
    Leads R s s'' :=
  ⟨h.vars.trans h'.vars, hR.trans h.kernel h'.kernel⟩

theorem Leads.refl (hR : KernelSteps os envp R) (s : ShellState ω) : Leads R s s :=
  ⟨.refl _, hR.refl _⟩

theorem Leads.withStatus (h : Leads R s s') (status : BitVec 32) : Leads R s (s'.withStatus status) :=
  ⟨h.vars, h.kernel⟩

theorem Leads.printf (hR : KernelSteps os envp R) (h : Leads R s s') (text : List UInt8) :
    Leads R s (s'.printf os text) :=
  ⟨h.vars, hR.trans h.kernel (hR.print _ _)⟩

theorem Leads.foldl {α : Type} (hR : KernelSteps os envp R) {f : ShellState ω → α → ShellState ω}
    {l : List α} (hf : ∀ s, ∀ a ∈ l, Leads R s (f s a)) (s : ShellState ω) :
    Leads R s (l.foldl f s) := by
  induction l generalizing s with
  | nil => exact .refl hR s
  | cons a l ih =>
      have hfirst := hf s a List.mem_cons_self
      exact hfirst.trans hR (ih (fun s b hb => hf s b (List.mem_cons_of_mem a hb)) _)

/-- Calls of functions that only change variables. -/
theorem Leads.call (hR : KernelSteps os envp R) {c : VarCall} (hc : c.Named) (s : ShellState ω) :
    Leads R s { s with vars := s.vars.call c } :=
  ⟨.call _ hc, hR.refl _⟩

theorem setVariable_leads (hR : KernelSteps os envp R) {name : CharArray maxVarName}
    {value : CharArray maxVarValue} {exported : Int}
    (hnamed : (VarCall.setVariable name value exported).Named) (s : ShellState ω) :
    Leads R s (s.setVariable os name value exported) := by
  have hset := Leads.call hR hnamed s
  unfold ShellState.setVariable
  dsimp only
  split
  · exact hset
  · exact hset.printf hR _

theorem assign_leads (hR : KernelSteps os envp R) {ws : List (List UInt8)} (hws : ∀ w ∈ ws, 0 ∉ w)
    (s : ShellState ω) : Leads R s (s.assign os ws) := by
  rw [ShellState.assign]
  apply Leads.foldl hR
  rintro s ⟨name, value⟩ hb
  obtain ⟨w, hw, hparse⟩ := List.mem_filterMap.mp hb
  exact setVariable_leads hR (named_parseAssignment (hws w hw) hparse 0) s

theorem changeDirectory_leads (hR : KernelSteps os envp R) (path : List UInt8) :
    Leads R s (s.changeDirectory os path) := by
  have hmoved : Leads R s { s with os := (os.chdir path s.os).2 } := ⟨.refl _, hR.chdir _ _⟩
  unfold ShellState.changeDirectory
  dsimp only
  split
  · exact (hmoved.printf hR _).withStatus _
  · exact hmoved.withStatus _

theorem builtinCd_leads (hR : KernelSteps os envp R) : Leads R s (s.builtinCd os argv) := by
  unfold ShellState.builtinCd
  split
  · exact ((Leads.refl hR s).printf hR _).withStatus _
  · split
    · exact changeDirectory_leads hR _
    · exact changeDirectory_leads hR _

theorem builtinSet_leads (hR : KernelSteps os envp R) : Leads R s (s.builtinSet os) := by
  apply Leads.withStatus
  apply Leads.foldl hR
  intro s var _
  have hshown := (Leads.refl hR s).printf hR (entryText var)
  unfold ShellState.showVariable
  dsimp only
  split
  · exact (hshown.printf hR _).printf hR _
  · exact hshown.printf hR _

theorem showExported_leads (hR : KernelSteps os envp R) (before : List UInt8) :
    Leads R s (s.showExported os before) := by
  apply Leads.foldl hR
  intro s var _
  split
  · exact (Leads.refl hR s).printf hR _
  · exact .refl hR s

theorem builtinEnvLike_leads (hR : KernelSteps os envp R) :
    Leads R s (s.builtinEnvLike os argv) := by
  have hsame := Leads.refl hR s
  unfold ShellState.builtinEnvLike
  split
  · split
    · split
      · exact (hsame.printf hR _).withStatus _
      · exact hsame.withStatus _
    · exact hsame.withStatus _
  · exact (showExported_leads hR _).withStatus _

theorem builtinExport_leads (hR : KernelSteps os envp R) (hargv : ∀ w ∈ argv, 0 ∉ w) :
    Leads R s (s.builtinExport os argv) := by
  unfold ShellState.builtinExport
  split
  · exact (showExported_leads hR _).withStatus _
  · apply Leads.withStatus
    apply Leads.foldl hR
    intro s arg harg
    unfold ShellState.exportArgument
    split
    · next name value hparse =>
        have hnamed := named_parseAssignment (hargv arg (List.mem_of_mem_tail harg)) hparse 1
        exact setVariable_leads hR hnamed s
    · exact Leads.call hR (c := .exportVariable arg) trivial s

theorem builtinUnset_leads (hR : KernelSteps os envp R) : Leads R s (s.builtinUnset os argv) := by
  unfold ShellState.builtinUnset
  split
  · exact ((Leads.refl hR s).printf hR _).withStatus _
  · apply Leads.withStatus
    apply Leads.foldl hR
    intro s arg _
    exact Leads.call hR (c := .unsetVariable arg) trivial s

theorem builtinHelp_leads (hR : KernelSteps os envp R) : Leads R s (s.builtinHelp os argv) := by
  have hshown (texts : List String) : Leads R s (s.printAll os texts) := by
    apply Leads.foldl hR
    intro s text _
    exact (Leads.refl hR s).printf hR _
  unfold ShellState.builtinHelp
  split
  · split
    · exact (hshown _).withStatus _
    · exact ((Leads.refl hR s).printf hR _).withStatus _
  · exact (hshown _).withStatus _

theorem environment_congr (h : s'.vars = s.vars) : s'.environment = s.environment := by
  rw [ShellState.environment, h]
  rfl

theorem notFound_leads (hR : KernelSteps os envp R) (cmd : List UInt8) :
    Leads R s (s.notFound os cmd) :=
  ((Leads.refl hR s).printf hR _).withStatus _

theorem runChild_leads (hR : KernelSteps os envp R) (path : List UInt8) :
    Leads R s (s.runChild os path argv envp).1 := by
  have hstarted : Leads R s { s with os := (os.fork path argv envp s.os).2 } :=
    ⟨.refl _, hR.fork _ _ _⟩
  have hwaited (pid : BitVec 32) :
      Leads R s { s with os := (os.waitpid pid (os.fork path argv envp s.os).2).2.2 } :=
    ⟨.refl _, hR.trans hstarted.kernel (hR.waitpid _ _)⟩
  unfold ShellState.runChild
  dsimp only
  split
  · exact (hstarted.printf hR _).withStatus _
  · split
    · exact ((hwaited _).printf hR _).withStatus _
    · exact (hwaited _).withStatus _

theorem startChild_leads (hR : KernelSteps os envp R) (path : List UInt8) :
    Leads R s (s.startChild os path argv envp) := by
  have hstarted : Leads R s { s with os := (os.fork path argv envp s.os).2 } :=
    ⟨.refl _, hR.fork _ _ _⟩
  unfold ShellState.startChild
  dsimp only
  split
  · exact (hstarted.printf hR _).withStatus _
  · exact ⟨hstarted.vars, hstarted.kernel⟩

/-- A call leaves the variables alone. -/
theorem call_vars (argv : List (List UInt8)) (s : ShellState ω) :
    (s.call os argv).1.vars = s.vars := by
  unfold ShellState.call
  dsimp only
  split
  · rfl
  · exact runChild_vars ..

theorem call_leads (hR : KernelSteps os envp R) (argv : List (List UInt8))
    (henv : s.environment = envp) :
    Leads R s (s.call os argv).1 := by
  unfold ShellState.call
  dsimp only
  split
  · exact notFound_leads hR _
  · rw [henv]
    exact runChild_leads hR _

theorem start_leads (hR : KernelSteps os envp R) (henv : s.environment = envp) :
    Leads R s (s.start os argv) := by
  unfold ShellState.start
  dsimp only
  split
  · exact notFound_leads hR _
  · rw [henv]
    exact startChild_leads hR _

theorem callAll_leads (hR : KernelSteps os envp R) (henv : s.environment = envp)
    (count : BitVec 32) (left i : Nat) : Leads R s (s.callAll os argv count left i) := by
  induction left generalizing i s with
  | zero => exact .refl hR s
  | succ left ih =>
      rw [ShellState.callAll]
      generalize htext : cstr "[" ++ decimalText (BitVec.ofNat 32 (i + 1)) ++ cstr "/" ++
        decimalText count ++ cstr "]\n" = text
      have hheader := (Leads.refl hR s).printf hR text
      have hcalled := hheader.trans hR (call_leads hR argv
        (s := s.printf os text) (henv ▸ environment_congr rfl))
      dsimp only
      split
      · refine hcalled.trans hR (ih ?_ _)
        rw [← henv]
        exact environment_congr (call_vars argv (s.printf os text))
      · exact hcalled

theorem repeats_leads (hR : KernelSteps os envp R) (henv : s.environment = envp) :
    Leads R s (s.repeats os argv) := by
  unfold ShellState.repeats
  split
  · dsimp only
    split
    · exact ((Leads.refl hR s).printf hR _).withStatus _
    · exact callAll_leads hR henv _ _ _
  · exact ((Leads.refl hR s).printf hR _).withStatus _

theorem builtin_leads (hR : KernelSteps os envp R) (henv : s.environment = envp)
    (hargv : ∀ w ∈ argv, 0 ∉ w) {outcome : ShellOutcome (ShellState ω) ω}
    (h : s.builtin os argv = some outcome) : outcome.LedBy R s := by
  unfold ShellState.builtin at h
  dsimp only at h
  split_ifs at h
  all_goals obtain rfl := Option.some.inj h
  · exact hR.refl _
  · exact builtinCd_leads hR
  · exact builtinSet_leads hR
  · exact builtinEnvLike_leads hR
  · exact builtinExport_leads hR hargv
  · exact builtinUnset_leads hR
  · exact repeats_leads hR henv
  · exact builtinHelp_leads hR

theorem command_leads (hR : KernelSteps os envp R) (henv : s.environment = envp)
    (hargv : ∀ w ∈ argv, 0 ∉ w) (background : Bool) : (s.command os argv background).LedBy R s := by
  unfold ShellState.command
  split
  · next outcome hbuiltin => exact builtin_leads hR henv hargv hbuiltin
  · split
    · exact start_leads hR henv
    · exact call_leads hR _ henv

theorem commandLine_leads (hR : KernelSteps os envp R) (henv : s.environment = envp)
    (hargv : ∀ w ∈ argv, 0 ∉ w) : (s.commandLine os argv).LedBy R s := by
  unfold ShellState.commandLine
  split
  · split
    · exact .refl hR s
    · exact command_leads hR henv (fun w hw => hargv w (List.mem_of_mem_dropLast hw)) true
  · exact command_leads hR henv hargv false

theorem LedBy.trans (hR : KernelSteps os envp R) (h : Leads R s s')
    {outcome : ShellOutcome (ShellState ω) ω} (h' : outcome.LedBy R s') : outcome.LedBy R s := by
  cases outcome with
  | continues s'' => exact h.trans hR h'
  | exits code w => exact hR.trans h.kernel h'

/-- The shell behind the assignments that a line begins with. -/
def ShellState.behindAssignments (os : ShellOs ω) (line : List UInt8) (s : ShellState ω) :
    ShellState ω :=
  s.assign os (((commandWords line).take 15).takeWhile isAssignment)

theorem noNul_words {line w : List UInt8} (hlen : line.length < lineMax) (hnul : 0 ∉ line)
    (hw : w ∈ (commandWords line).take 15) : 0 ∉ w := by
  obtain ⟨_, -, hargs⟩ := commandArguments_argsAt hlen hnul freshArgs
  exact hargs.noNul hw

theorem behindAssignments_leads (hR : KernelSteps os envp R) {line : List UInt8}
    (hlen : line.length < lineMax) (hnul : 0 ∉ line) (s : ShellState ω) :
    Leads R s (s.behindAssignments os line) := by
  apply assign_leads hR
  intro w hw
  exact noNul_words hlen hnul ((List.takeWhile_sublist _).subset hw)

/-- What a line means, if the programs that it starts get the variables that are exported behind
its assignments. -/
theorem meaning_leads {line : List UInt8} (hlen : line.length < lineMax) (hnul : 0 ∉ line)
    (hR : KernelSteps os (s.behindAssignments os line).environment R) :
    (s.meaning os line).LedBy R s := by
  have hassign := behindAssignments_leads hR hlen hnul s
  unfold ShellState.meaning
  dsimp only
  split
  · exact .refl hR s
  · split
    · exact hassign.withStatus 0
    · next w rest hrest =>
        refine LedBy.trans hR hassign (commandLine_leads hR rfl ?_)
        intro v hv
        obtain ⟨u, hu, rfl⟩ := List.mem_map.mp hv
        have hmem : u ∈ (commandWords line).take 15 := by
          apply (List.dropWhile_sublist isAssignment).subset
          rw [hrest]
          exact hu
        intro hmemNul
        exact noNul_expansion _ (noNul_words hlen hnul hmem) (List.mem_of_mem_take hmemNul)

end Leads

/-- What a shell can have made of its variables. -/
def ShellVars.Obtainable (t : ShellVars) : Prop :=
  ∃ vars, VarsChange (.mk vars 0) t

section Environment

variable {t t' : ShellVars} {environ : List (List UInt8)}

theorem ShellVars.Obtainable.change (h : t.Obtainable) (h' : VarsChange t t') : t'.Obtainable := by
  obtain ⟨vars, hvars⟩ := h
  exact ⟨vars, hvars.trans h'⟩

theorem ShellVars.Obtainable.varCount (h : t.Obtainable) : t.varCount ≤ maxVars := by
  obtain ⟨vars, cs, -, rfl⟩ := h
  exact ((ShellVars.IsMap.empty vars).calls cs).count

theorem loadEntry_change {envEntry : List UInt8} (hnul : 0 ∉ envEntry) (t : ShellVars) :
    VarsChange t (loadEntry t envEntry) := by
  rcases loadEntry_named (t := t) hnul with hsame | ⟨c, hc, hcall⟩
  · rw [hsame]
    exact .refl t
  · rw [hcall]
    exact .call t hc

theorem loadEntries_change (hnul : ∀ envEntry ∈ environ, 0 ∉ envEntry) (t : ShellVars) :
    VarsChange t (t.loadEntries environ) := by
  induction environ generalizing t with
  | nil => exact .refl t
  | cons envEntry environ ih =>
      rw [ShellVars.loadEntries]
      split
      · exact (loadEntry_change (hnul _ List.mem_cons_self) t).trans
          (ih (fun e he => hnul e (List.mem_cons_of_mem _ he)) _)
      · exact .refl t

/-- The entries of variables with different names are loaded one after the other. -/
theorem loadEntries_live {vars : List ShellVar} (hcount : t.varCount + vars.length ≤ maxVars)
    (hdistinct : (t.live.map nameOf ++ vars.map nameOf).Nodup)
    (hnames : ∀ var ∈ vars, nameOf var ≠ [] ∧ equalsSign ∉ nameOf var) :
    (t.loadEntries (vars.map entryText)).live = t.live ++ vars.map ShellVar.markExported := by
  induction vars generalizing t with
  | nil => exact (List.append_nil _).symm
  | cons var vars ih =>
      have hroom : t.varCount < maxVars := by
        rw [List.length_cons] at hcount
        omega
      have hnew : nameOf var ∉ t.live.map nameOf := by
        rw [← List.map_append] at hdistinct
        exact KeyedList.notMem_before hdistinct
      have hlive := live_loadEntry (hnames var List.mem_cons_self) hnew hroom
      have hlength : (loadEntry t (entryText var)).varCount = t.varCount + 1 := by
        rw [← length_live, hlive, List.length_append, length_live, List.length_singleton]
      rw [List.map_cons, ShellVars.loadEntries, if_pos hroom, ih, hlive, List.append_assoc]
      · rfl
      · rw [hlength]
        rw [List.length_cons] at hcount
        omega
      · rw [hlive, List.map_append, List.append_assoc]
        exact hdistinct
      · exact fun v hv => hnames v (List.mem_cons_of_mem _ hv)

/-- What one shell exports, another shell loads. -/
theorem ShellVars.Obtainable.loads (h : t.Obtainable) (vars : Nat → ShellVar) :
    ((ShellVars.mk vars 0).loadEntries ((t.live.filter ShellVar.isExported).map entryText)).live =
      (t.live.filter ShellVar.isExported).map ShellVar.markExported := by
  obtain ⟨first, cs, hcs, rfl⟩ := h
  have hmap := (ShellVars.IsMap.empty first).calls cs
  have hsub := List.filter_sublist (p := ShellVar.isExported) (l := ((ShellVars.mk first 0).calls cs).live)
  have hcount := hmap.count
  rw [← length_live] at hcount
  rw [loadEntries_live]
  · rfl
  · exact (Nat.zero_add _).trans_le (hsub.length_le.trans hcount)
  · exact hmap.entries.distinct.sublist (hsub.map nameOf)
  · intro var hvar
    obtain ⟨value, exported, hset⟩ := set_of_mem_live (hsub.subset hvar)
    exact hcs _ hset

end Environment

namespace ShellLine

variable {s s' : ShellLine}

theorem loadHistoryEntry_handed {newIndex : Int} (h : s.loadHistoryEntry newIndex = some s') :
    s'.handed = s.handed := by
  obtain ⟨output, herase⟩ := s.eraseLine_eq s.len
  rw [loadHistoryEntry, herase] at h
  dsimp only at h
  split at h
  · obtain ⟨line, -, hline⟩ := Option.bind_eq_some_iff.mp h
    cases hline
    rfl
  · obtain ⟨src, -, h⟩ := Option.bind_eq_some_iff.mp h
    obtain ⟨line, -, h⟩ := Option.bind_eq_some_iff.mp h
    obtain ⟨len, -, h⟩ := Option.bind_eq_some_iff.mp h
    obtain ⟨bytes, -, h⟩ := Option.bind_eq_some_iff.mp h
    cases h
    rfl

theorem handleArrow_handed {seq1 seq2 : UInt8} (h : s.handleArrow seq1 seq2 = some s') :
    s'.handed = s.handed := by
  unfold handleArrow at h
  split_ifs at h
  · exact (loadHistoryEntry_handed h).trans rfl
  · cases h
    rfl
  · exact (loadHistoryEntry_handed h).trans rfl
  · cases h
    rfl
  · cases h
    rfl
  · cases h
    rfl

theorem typeChar_handed {c : UInt8} (h : s.typeChar c = some s') : s'.handed = s.handed := by
  unfold typeChar at h
  split_ifs at h
  · cases h
    rfl
  · obtain ⟨line, -, hline⟩ := Option.bind_eq_some_iff.mp h
    cases hline
    rfl
  · cases h
    rfl
  · cases h
    rfl
  · obtain ⟨line, -, hline⟩ := Option.bind_eq_some_iff.mp h
    cases hline
    rfl
  · cases h
    rfl

/-- Only a line that is parsed is handed over. -/
theorem step_handed {input : Option UInt8} (h : s.step input = some s')
    (hnot : ¬ (s.point = .parse ∧ s.len ≠ 0)) : s'.handed = s.handed := by
  unfold step at h
  dsimp only at h
  split at h
  · obtain ⟨line, -, hline⟩ := Option.bind_eq_some_iff.mp h
    cases hline
    rfl
  · split at h
    · cases h
      rfl
    · exact (typeChar_handed h).trans rfl
  · split at h
    · cases h
      rfl
    · cases h
      rfl
  · split at h
    · cases h
      rfl
    · exact (handleArrow_handed h).trans rfl
  · next hparse =>
      split at h
      · cases h
        rfl
      · next hlen => exact absurd ⟨hparse, hlen⟩ hnot

/-- The text of the line is handed over. -/
theorem Inv.step_parse (h : s.Inv) (hparse : s.point = .parse) (hlen : s.len ≠ 0)
    (input : Option UInt8) :
    ∃ s' text, s.step input = some s' ∧ s'.Inv ∧ Holds lineMax s.line text ∧
      s'.point = .prompt ∧ s'.reads = s.reads ∧ s'.handed = s.handed ++ [text] := by
  obtain ⟨text, hholds, -⟩ := h.holds_line hparse
  obtain ⟨history, historySize, historyPos, hadd, -⟩ := historyAdd_holds h.history hholds
  obtain ⟨s', hstep, hinv⟩ := h.step input
  refine ⟨s', text, hstep, hinv, hholds, ?_⟩
  unfold ShellLine.step at hstep
  simp only [hparse, if_neg hlen, hadd, Option.bind_eq_bind, Option.bind_some, hholds.textIn] at hstep
  cases hstep
  exact ⟨rfl, rfl, rfl⟩

end ShellLine

section Sessions

variable {ω : Type} {os : ShellOs ω} {start : ShellState ω} {r : ShellRun ω}

theorem meanings_concat (lines : List (List UInt8)) (line : List UInt8) (s : ShellState ω) :
    s.meanings os (lines ++ [line]) =
      match s.meanings os lines with
      | .continues s' => s'.meaning os line
      | .exits code w => .exits code w := by
  induction lines generalizing s with
  | nil =>
      change s.meanings os [line] = s.meaning os line
      rw [ShellState.meanings]
      cases s.meaning os line with
      | continues s' => rfl
      | exits code w => rfl
  | cons first lines ih =>
      rw [List.cons_append, ShellState.meanings, ShellState.meanings]
      cases s.meaning os first with
      | continues s' => exact ih s'
      | exits code w => rfl

/-- If nothing is asked of the kernel's states. -/
theorem KernelSteps.trivial (os : ShellOs ω) (envp : List (List UInt8)) :
    KernelSteps os envp fun _ _ => True := by
  constructor <;> intros <;> exact True.intro

/-- Lines as `main` hands them over. -/
def Lines (lines : List (List UInt8)) : Prop := ∀ line ∈ lines, line.length < lineMax ∧ 0 ∉ line

variable (os) in
theorem meanings_leads {lines : List (List UInt8)} (hlines : Lines lines) (s : ShellState ω) :
    (s.meanings os lines).LedBy (fun _ _ => True) s := by
  induction lines generalizing s with
  | nil => exact .refl (KernelSteps.trivial os []) s
  | cons line lines ih =>
      obtain ⟨hlen, hnul⟩ := hlines line List.mem_cons_self
      have hfirst := meaning_leads (s := s) hlen hnul (KernelSteps.trivial os _)
      rw [ShellState.meanings]
      cases hmeans : s.meaning os line with
      | exits code w => exact True.intro
      | continues s' =>
          rw [hmeans] at hfirst
          exact LedBy.trans (KernelSteps.trivial os []) hfirst
            (ih (fun l hl => hlines l (List.mem_cons_of_mem line hl)) s')

theorem meanings_obtainable {lines : List (List UInt8)} {s : ShellState ω} (hlines : Lines lines)
    (hstart : start.vars.Obtainable) (h : start.meanings os lines = .continues s) :
    s.vars.Obtainable := by
  have hleads := meanings_leads os hlines start
  rw [h] at hleads
  exact hstart.change hleads.vars

/-- What holds before every round of the loop of `main`. -/
structure ShellRun.Inv (os : ShellOs ω) (start : ShellState ω) (r : ShellRun ω) : Prop where
  cli : r.cli.Inv
  lines : Lines r.cli.handed
  means : r.shell.forget = start.meanings os r.cli.handed

/-- A round does not fail, and a line that is handed over does what it means. -/
theorem ShellRun.Inv.step (h : r.Inv os start) (hstart : start.vars.Obtainable) {p : ShellProc ω}
    (hp : r.shell = .continues p) (num : Nat → UInt8) (input : Option UInt8) :
    ∃ r', r.step os num input = some r' ∧ r'.Inv os start := by
  have hmeans : start.meanings os r.cli.handed = .continues p.toShellState := by
    rw [← h.means, hp]
    rfl
  unfold ShellRun.step
  rw [hp]
  dsimp only
  by_cases hparse : r.cli.point = .parse ∧ r.cli.len ≠ 0
  · obtain ⟨cli, text, hstep, hcli, hholds, -, -, hhanded⟩ := h.cli.step_parse hparse.1 hparse.2 input
    have hvars := meanings_obtainable h.lines hstart hmeans
    obtain ⟨shell, hrun, hforget⟩ := processCommand_meaning os num
      hvars.varCount hholds.fits hholds.noNul
    refine ⟨⟨cli, shell⟩, ?_, hcli, ?_, ?_⟩
    · simp only [Option.bind_eq_bind, hstep, Option.bind_some, if_pos hparse, hholds.textIn, hrun]
    · intro line hline
      rw [hhanded] at hline
      rcases List.mem_append.mp hline with hbefore | hlast
      · exact h.lines line hbefore
      · rw [List.mem_singleton.mp hlast]
        exact ⟨hholds.fits, hholds.noNul⟩
    · rw [hhanded, meanings_concat, hmeans]
      exact hforget
  · obtain ⟨cli, hstep, hcli⟩ := h.cli.step input
    have hsame := ShellLine.step_handed hstep hparse
    refine ⟨⟨cli, .continues p⟩, ?_, hcli, ?_, ?_⟩
    · simp only [Option.bind_eq_bind, hstep, Option.bind_some, if_neg hparse]
    · rw [hsame]
      exact h.lines
    · rw [hsame, hmeans]
      rfl

theorem setDefault_leads {envp : List (List UInt8)} {R : ω → ω → Prop} (hR : KernelSteps os envp R)
    (name value : List UInt8) (hnamed : ∀ v : CharArray maxVarValue,
      (VarCall.setVariable (CharArray.ofBytes maxVarName name) v 1).Named) (s : ShellState ω) :
    Leads R s (s.setDefault os name value) := by
  unfold ShellState.setDefault
  split
  · exact setVariable_leads hR (hnamed _) s
  · exact .refl hR s

/-- What `main` has asked of the kernel before its loop, and its variables then. -/
theorem enterMain_leads {envp : List (List UInt8)} {R : ω → ω → Prop} (hR : KernelSteps os envp R)
    {environ : List (List UInt8)} (hnul : ∀ envEntry ∈ environ, 0 ∉ envEntry) (pid : BitVec 32)
    (w : ω) :
    (ShellState.enterMain os pid environ w).vars.Obtainable ∧
      R w (ShellState.enterMain os pid environ w).os := by
  have hpath := setDefault_leads hR (cstr "PATH") (cstr "/bin")
    fun v => ⟨by decide, by decide⟩
  have hhome := setDefault_leads hR (cstr "HOME") (cstr "/")
    fun v => ⟨by decide, by decide⟩
  have hshell := setDefault_leads hR (cstr "SHELL") (cstr "/bin/shell")
    fun v => ⟨by decide, by decide⟩
  have hall := (hpath (.loaded pid environ w)).trans hR ((hhome _).trans hR (hshell _))
  have hloaded := loadEntries_change hnul ShellState.unset
  exact ⟨⟨_, hloaded.trans hall.vars⟩, hall.kernel⟩

theorem ShellRun.inv_of_reachable {pid : BitVec 32} {environ : List (List UInt8)} {w : ω}
    (hnul : ∀ envEntry ∈ environ, 0 ∉ envEntry)
    (h : (shellMachine os pid environ w).Reachable r) : r.Inv os (.enterMain os pid environ w) := by
  have hstart := (enterMain_leads (KernelSteps.trivial os []) hnul pid w).1
  apply h.invariant
  · rintro r ⟨hcli, hshell⟩
    have hnone : r.cli.handed = [] := hcli.2.2.2.2.2.2
    refine ⟨ShellLine.Inv.of_starts hcli, ?_, ?_⟩
    · rw [hnone]
      exact nofun
    · rw [hshell, hnone]
      rfl
  · rintro r input r' hinv - ⟨num, hstep⟩
    cases hp : r.shell with
    | exits code w =>
        rw [ShellRun.step, hp] at hstep
        cases hstep
    | continues p =>
        obtain ⟨next, hnext, hkept⟩ := hinv.step hstart hp num input
        rw [Option.some.inj (hstep.symm.trans hnext)]
        exact hkept

/-- Whatever is typed, the shell does what the lines mean that are handed over, one after the
other, and no round fails before an `exit`. -/
theorem shell_meanings {pid : BitVec 32} {environ : List (List UInt8)} {w : ω}
    (hnul : ∀ envEntry ∈ environ, 0 ∉ envEntry)
    (h : (shellMachine os pid environ w).Reachable r) :
    r.shell.forget = (ShellState.enterMain os pid environ w).meanings os r.cli.handed ∧
      ((∃ p, r.shell = .continues p) → ∀ num input, (r.step os num input).isSome) := by
  have hstart := (enterMain_leads (KernelSteps.trivial os []) hnul pid w).1
  have hinv := ShellRun.inv_of_reachable hnul h
  refine ⟨hinv.means, ?_⟩
  rintro ⟨p, hp⟩ num input
  obtain ⟨r', hstep, -⟩ := hinv.step hstart hp num input
  exact Option.isSome_of_mem hstep

end Sessions

/-- A kernel whose `/bin` holds a shell, and in which every program ends well. -/
def calmOs : ShellOs Unit where
  print _ w := w
  chdir _ w := (0, w)
  binDir _ := [[(cstr "sh", 1)]]
  fork _ _ _ w := (7, w)
  waitpid pid w := (pid, 0, w)

/-- A shell with anything in its buffers. -/
def ShellRun.fresh {ω : Type} (s : ShellState ω) : ShellRun ω where
  cli := .atStart
  shell := .continues
    { s with
      args := { argBuf := fun _ => 1, argv := fun _ => some 3 }
      env := { strings := fun _ _ => 1, storage := fun _ => some 3 }
      buf := fun _ => 1 }

def typed (text : List UInt8) : List (Option UInt8) :=
  none :: text.map some ++ [some carriageReturn, none]

theorem ShellRun.fresh_starts {ω : Type} (os : ShellOs ω) (pid : BitVec 32)
    (environ : List (List UInt8)) (w : ω) :
    (shellMachine os pid environ w).Reachable (.fresh (.enterMain os pid environ w)) :=
  .init ⟨⟨rfl, rfl, rfl, rfl, rfl, rfl, rfl⟩, rfl⟩

theorem shellMachine_step {ω : Type} {os : ShellOs ω} {pid : BitVec 32}
    {environ : List (List UInt8)} {w : ω} {num : Nat → UInt8} {r r' : ShellRun ω}
    {input : Option UInt8} (h : r.step os num input = some r') :
    (shellMachine os pid environ w).step r input r' :=
  ⟨num, h⟩

/-- A line with an assignment and a program. -/
theorem shell_meanings_sh :
    ∃ r, (shellMachine calmOs 3 [cstr "E=5"] ()).Reachable r ∧ r.cli.handed = [cstr "A=1 sh"] ∧
      r.shell.forget =
        (ShellState.enterMain calmOs 3 [cstr "E=5"] ()).meanings calmOs r.cli.handed := by
  have hrun : ((Machine.execAll (ShellRun.step calmOs fun _ => 1) (fun _ _ => True)
      (typed (cstr "A=1 sh")) (.fresh (.enterMain calmOs 3 [cstr "E=5"] ()))).map
      fun r => r.cli.handed) = some [cstr "A=1 sh"] := by rfl
  obtain ⟨r, hr, hhanded⟩ := Option.map_eq_some_iff.mp hrun
  have hreach : (shellMachine calmOs 3 [cstr "E=5"] ()).Reachable r :=
    (ShellRun.fresh_starts calmOs 3 _ ()).execAll shellMachine_step hr
  exact ⟨r, hreach, hhanded, (shell_meanings (by decide) hreach).1⟩

structure Started where
  path : List UInt8
  argv : List (List UInt8)
  envp : List (List UInt8)

section Programs

variable {ω : Type}

/-- The programs that are started are noted. -/
def ShellOs.noting (os : ShellOs ω) : ShellOs (ω × List Started) where
  print text w := (os.print text w.1, w.2)
  chdir path w := ((os.chdir path w.1).1, (os.chdir path w.1).2, w.2)
  binDir w := os.binDir w.1
  fork path argv envp w :=
    let (pid, v) := os.fork path argv envp w.1
    (pid, v, if pid.toInt < 0 then w.2 else w.2 ++ [{ path, argv, envp }])
  waitpid pid w :=
    let (res, status, v) := os.waitpid pid w.1
    (res, status, v, w.2)

/-- The state of the kernel that a command leaves. -/
def ShellOutcome.kernel : ShellOutcome (ShellState ω) ω → ω
  | .continues s => s.os
  | .exits _ w => w

variable {os : ShellOs ω} {start : ShellState (ω × List Started)}

/-- The programs that have been started since have this environment. -/
def StartedWith (envp : List (List UInt8)) (w w' : ω × List Started) : Prop :=
  ∃ new, w'.2 = w.2 ++ new ∧ ∀ c ∈ new, c.envp = envp

theorem noting_steps (os : ShellOs ω) (envp : List (List UInt8)) :
    KernelSteps os.noting envp (StartedWith envp) where
  refl w := ⟨[], (List.append_nil _).symm, nofun⟩
  trans := by
    rintro w w' w'' ⟨new, hnew, hall⟩ ⟨new', hnew', hall'⟩
    refine ⟨new ++ new', by rw [hnew', hnew, List.append_assoc], ?_⟩
    intro c hc
    rcases List.mem_append.mp hc with hfirst | hsecond
    · exact hall c hfirst
    · exact hall' c hsecond
  print text w := ⟨[], (List.append_nil _).symm, nofun⟩
  chdir path w := ⟨[], (List.append_nil _).symm, nofun⟩
  fork path argv w := by
    unfold ShellOs.noting StartedWith
    dsimp only
    split
    · exact ⟨[], (List.append_nil _).symm, nofun⟩
    · exact ⟨_, rfl, fun c hc => congrArg Started.envp (List.mem_singleton.mp hc)⟩
  waitpid pid w := ⟨[], (List.append_nil _).symm, nofun⟩

theorem kernel_of_ledBy {R : ω → ω → Prop} {s : ShellState ω} {outcome : ShellOutcome (ShellState ω) ω}
    (h : outcome.LedBy R s) : R s.os outcome.kernel := by
  cases outcome with
  | continues s' => exact Leads.kernel h
  | exits code w => exact h

/-- A program is started by one of the lines, and gets the variables that are exported behind the
assignments of that line. -/
theorem meanings_started {lines : List (List UInt8)} (hlines : Lines lines) {c : Started}
    (hc : c ∈ (start.meanings os.noting lines).kernel.2) :
    c ∈ start.os.2 ∨ ∃ before line s, before ++ [line] <+: lines ∧
      start.meanings os.noting before = .continues s ∧
      c.envp = (s.behindAssignments os.noting line).environment := by
  induction lines using List.reverseRecOn with
  | nil => exact Or.inl hc
  | append_singleton lines line ih =>
      have hbefore : Lines lines := fun l hl => hlines l (List.mem_append_left _ hl)
      have hearlier (hearlier : c ∈ (start.meanings os.noting lines).kernel.2) :
          c ∈ start.os.2 ∨ ∃ before line' s, before ++ [line'] <+: lines ++ [line] ∧
            start.meanings os.noting before = .continues s ∧
            c.envp = (s.behindAssignments os.noting line').environment := by
        rcases ih hbefore hearlier with hold | ⟨before, line', s, hbegin, hs⟩
        · exact Or.inl hold
        · exact Or.inr ⟨before, line', s, hbegin.trans (List.prefix_append _ _), hs⟩
      rw [meanings_concat] at hc
      cases hmeans : start.meanings os.noting lines with
      | exits code w =>
          rw [hmeans] at hc hearlier
          exact hearlier hc
      | continues s =>
          rw [hmeans] at hc hearlier
          obtain ⟨hlen, hnul⟩ := hlines line (List.mem_append_right _ (List.mem_singleton_self _))
          obtain ⟨new, hnew, hall⟩ :=
            kernel_of_ledBy (meaning_leads (s := s) hlen hnul (noting_steps os _))
          dsimp only at hc
          rw [hnew] at hc
          rcases List.mem_append.mp hc with hold | hstarted
          · exact hearlier hold
          · exact Or.inr ⟨lines, line, s, List.prefix_rfl, hmeans, hall c hstarted⟩

theorem setDefault_noted (name value : List UInt8) (s : ShellState (ω × List Started)) :
    (s.setDefault os.noting name value).os.2 = s.os.2 := by
  unfold ShellState.setDefault
  split
  · unfold ShellState.setVariable
    dsimp only
    split
    · rfl
    · rfl
  · rfl

/-- Every program of a session was started by one of the lines, with the variables that were
exported behind the assignments of that line, and if it is a shell it loads just these. -/
theorem startedProgram_environment {r : ShellRun (ω × List Started)} {pid : BitVec 32}
    {environ : List (List UInt8)} {w : ω} (hnul : ∀ envEntry ∈ environ, 0 ∉ envEntry)
    (h : (shellMachine os.noting pid environ (w, [])).Reachable r) {c : Started}
    (hc : c ∈ r.shell.forget.kernel.2) :
    ∃ before line s, before ++ [line] <+: r.cli.handed ∧
      (ShellState.enterMain os.noting pid environ (w, [])).meanings os.noting before =
        .continues s ∧
      let exported := (s.behindAssignments os.noting line).vars.live.filter ShellVar.isExported
      c.envp = exported.map entryText ∧
        ∀ vars, ((ShellVars.mk vars 0).loadEntries c.envp).live =
          exported.map ShellVar.markExported := by
  have hsteps := KernelSteps.trivial os.noting []
  have hstart := (enterMain_leads hsteps hnul pid (w, [])).1
  have hinv := ShellRun.inv_of_reachable hnul h
  have hnone : (ShellState.enterMain os.noting pid environ (w, [])).os.2 = [] := by
    unfold ShellState.enterMain
    dsimp only
    rw [setDefault_noted, setDefault_noted, setDefault_noted, ShellState.loaded]
  rw [hinv.means] at hc
  rcases meanings_started hinv.lines hc with hold | ⟨before, line, s, hbegin, hmeans, henv⟩
  · rw [hnone] at hold
    cases hold
  · have hlines : Lines (before ++ [line]) := fun l hl => hinv.lines l (hbegin.subset hl)
    obtain ⟨hlen, hnul'⟩ := hlines line (List.mem_append_right _ (List.mem_singleton_self _))
    have hs := meanings_obtainable (fun l hl => hlines l (List.mem_append_left _ hl)) hstart hmeans
    have hvars := hs.change (behindAssignments_leads hsteps hlen hnul' s).vars
    refine ⟨before, line, s, hbegin, hmeans, henv, ?_⟩
    intro vars
    rw [henv]
    exact hvars.loads vars

end Programs

/-- A shell that is started by a shell. -/
theorem startedProgram_environment_sh :
    ∃ r, ∃ c : Started, (shellMachine calmOs.noting 3 [cstr "E=5"] ((), [])).Reachable r ∧
      c.path = cstr "/bin/sh" ∧
      c.envp = [cstr "E=5", cstr "PATH=/bin", cstr "HOME=/", cstr "SHELL=/bin/shell"] ∧
      ∃ before line s, before ++ [line] <+: r.cli.handed ∧
        (ShellState.enterMain calmOs.noting 3 [cstr "E=5"] ((), [])).meanings calmOs.noting before =
          .continues s ∧
        let exported :=
          (s.behindAssignments calmOs.noting line).vars.live.filter ShellVar.isExported
        c.envp = exported.map entryText ∧
          ∀ vars, ((ShellVars.mk vars 0).loadEntries c.envp).live =
            exported.map ShellVar.markExported := by
  have hrun : ((Machine.execAll (ShellRun.step calmOs.noting fun _ => 1) (fun _ _ => True)
      (typed (cstr "A=1 sh"))
      (.fresh (.enterMain calmOs.noting 3 [cstr "E=5"] ((), [])))).map
      fun r => r.shell.forget.kernel.2) =
      some [{ path := cstr "/bin/sh", argv := [cstr "sh"],
              envp := [cstr "E=5", cstr "PATH=/bin", cstr "HOME=/", cstr "SHELL=/bin/shell"] }] := by
    rfl
  obtain ⟨r, hr, hstarted⟩ := Option.map_eq_some_iff.mp hrun
  have hreach : (shellMachine calmOs.noting 3 [cstr "E=5"] ((), [])).Reachable r :=
    (ShellRun.fresh_starts calmOs.noting 3 _ ((), [])).execAll
      shellMachine_step hr
  have hc := List.mem_singleton_self (Started.mk (cstr "/bin/sh") [cstr "sh"]
    [cstr "E=5", cstr "PATH=/bin", cstr "HOME=/", cstr "SHELL=/bin/shell"])
  rw [← hstarted] at hc
  exact ⟨r, _, hreach, rfl, rfl, startedProgram_environment (by decide) hreach hc⟩

end Punix
