import Punix.Bin.Shell
import Punix.Bin.ShellEnvironment
import Punix.Bin.ShellExpansion

/-!
The commands of the shell (`sh.c`): `process_command`, and the commands that are built in. What
the kernel does is a parameter. A read or a write outside of a buffer fails, and so does one
through a null pointer.
-/

namespace Punix

open Lib Lib.Cells Lib.NulStrings

/-- What the shell asks of the kernel, the state of which is in `ω`. -/
structure ShellOs (ω : Type) where
  /-- What `printf` writes. -/
  print : List UInt8 → ω → ω
  chdir : List UInt8 → ω → BitVec 32 × ω
  /-- What `getdents` returns for `/bin`, call by call: the names of the entries, with
  `d_reclen`. If `open` fails there are no calls. -/
  binDir : ω → List (List (List UInt8 × BitVec 16))
  /-- `fork`, whose child calls `execve(path, argv, envp)`, and `exit(1)` if that fails. -/
  fork : List UInt8 → List (List UInt8) → List (List UInt8) → ω → BitVec 32 × ω
  /-- `waitpid(pid, &status, 0)`, with the status. -/
  waitpid : BitVec 32 → ω → BitVec 32 × BitVec 32 × ω

/-- A shell without its buffers, and the state of the kernel. -/
structure ShellState (ω : Type) extends ShellValues where
  os : ω

/-- What a command comes to; `exit` does not return. -/
inductive ShellOutcome (σ ω : Type) where
  | continues (s : σ)
  | exits (code : BitVec 32) (os : ω)

/-- A shell with its static buffers. -/
structure ShellProc (ω : Type) extends ShellState ω where
  args : ArgMem
  env : EnvMem
  buf : Nat → UInt8

namespace ShellState

variable {ω : Type} (os : ShellOs ω)

def printf (text : List UInt8) (s : ShellState ω) : ShellState ω :=
  { s with os := os.print text s.os }

def withStatus (status : BitVec 32) (s : ShellState ω) : ShellState ω :=
  { s with lastExitStatus := status }

/-- A call of `set_variable`, which may print a message. -/
def setVariable (name : CharArray maxVarName) (value : CharArray maxVarValue) (exported : Int)
    (s : ShellState ω) : ShellState ω :=
  let (vars, message) := s.vars.setVariable name.bytes value.bytes exported
  let s := { s with vars }
  if message = [] then s else s.printf os message

/-- The loop of `find_in_bin` over one buffer. -/
def findInBuffer (name : List UInt8) : List (List UInt8 × BitVec 16) → Bool
  | [] => false
  | (dName, dReclen) :: rest =>
      if kStrcmp dName name = 0 then true
      else if dReclen = 0 then false
      else findInBuffer name rest

def binPrefix : List UInt8 := cstr "/bin/"

/-- `find_in_bin`, with `fullpath`. -/
def findInBin (name : List UInt8) (fullpathSize : Nat) (s : ShellState ω) :
    Option (List UInt8) :=
  if (os.binDir s.os).any (findInBuffer name) then
    let plen := binPrefix.length
    let toCopy := if plen ≥ fullpathSize then fullpathSize - 1 else plen
    some (binPrefix.take toCopy ++ name.take (fullpathSize - 1 - toCopy))
  else none

/-- `resolve_full_path`, with `dst`. -/
def resolveFullPath (dstSize : Nat) (cmd : List UInt8) (s : ShellState ω) : Option (List UInt8) :=
  if cmd.head? = some slash then some (cmd.take (dstSize - 1)) else s.findInBin os cmd dstSize

/-- From `fork` on, to the end of a wait. The flag says that there was nothing to complain of. -/
def runChild (path : List UInt8) (argv envp : List (List UInt8)) (s : ShellState ω) :
    ShellState ω × Bool :=
  let (pid, w) := os.fork path argv envp s.os
  let s := { s with os := w }
  if pid.toInt < 0 then ((s.printf os (cstr "Failed to fork\n")).withStatus 1, false)
  else
    let (res, status, w) := os.waitpid pid s.os
    let s := { s with os := w }
    if res.toInt < 0 then
      ((s.printf os (cstr "waitpid failed for pid " ++ decimalText pid ++ cstr "\n")).withStatus 1,
        false)
    else (s.withStatus (status.sshiftRight 8 &&& 0xFF), true)

/-- From `fork` on, for a command in the background. -/
def startChild (path : List UInt8) (argv envp : List (List UInt8)) (s : ShellState ω) :
    ShellState ω :=
  let (pid, w) := os.fork path argv envp s.os
  let s := { s with os := w }
  if pid.toInt < 0 then (s.printf os (cstr "Failed to fork\n")).withStatus 1
  else { s with lastBgPid := pid }

/-- The message for a command that is not found. -/
def notFound (cmd : List UInt8) (s : ShellState ω) : ShellState ω :=
  (s.printf os (cmd ++ cstr ": command not found\n")).withStatus 127

/-- `builtin_exit`. -/
def builtinExit (argv : List (List UInt8)) (s : ShellState ω) :
    ShellOutcome (ShellState ω) ω :=
  let exitCode := match argv with
    | _ :: code :: _ => Libc.atoi code
    | _ => s.lastExitStatus
  .exits exitCode s.os

/-- `chdir`, with the message and the status. -/
def changeDirectory (path : List UInt8) (s : ShellState ω) : ShellState ω :=
  let (result, w) := os.chdir path s.os
  let s := { s with os := w }
  if result.toInt < 0 then
    (s.printf os (cstr "cd: cannot change directory to '" ++ path ++ cstr "'\n")).withStatus 1
  else s.withStatus 0

/-- `builtin_cd`. -/
def builtinCd (argv : List (List UInt8)) (s : ShellState ω) : ShellState ω :=
  if argv.length > 2 then (s.printf os (cstr "cd: too many arguments\n")).withStatus 1
  else
    match argv with
    | _ :: path :: _ => s.changeDirectory os path
    | _ => s.changeDirectory os ((s.vars.getVariable (cstr "HOME")).getD (cstr "/"))

/-- The body of the loop of `builtin_set`. -/
def showVariable (s : ShellState ω) (var : ShellVar) : ShellState ω :=
  let s := s.printf os (entryText var)
  let s := if var.exported ≠ 0 then s.printf os (cstr " [exported]") else s
  s.printf os (cstr "\n")

/-- `builtin_set`. -/
def builtinSet (s : ShellState ω) : ShellState ω :=
  (s.vars.live.foldl (showVariable os) s).withStatus 0

/-- The loops that show the exported variables. -/
def showExported (before : List UInt8) (s : ShellState ω) : ShellState ω :=
  s.vars.live.foldl (fun s var =>
    if var.exported ≠ 0 then s.printf os (before ++ entryText var ++ cstr "\n") else s) s

/-- `builtin_env_like`. -/
def builtinEnvLike (argv : List (List UInt8)) (s : ShellState ω) : ShellState ω :=
  match argv with
  | _ :: name :: _ =>
      match s.vars.getVariable name with
      | some value =>
          if (s.vars.findVariable name).any fun idx => (s.vars.vars idx).exported ≠ 0 then
            (s.printf os (value ++ cstr "\n")).withStatus 0
          else s.withStatus 1
      | none => s.withStatus 1
  | _ => (s.showExported os []).withStatus 0

/-- The body of the loop of `builtin_export`. -/
def exportArgument (s : ShellState ω) (arg : List UInt8) : ShellState ω :=
  match parseAssignment arg with
  | some (name, value) => s.setVariable os name value 1
  | none => { s with vars := s.vars.exportVariable arg }

/-- `builtin_export`. -/
def builtinExport (argv : List (List UInt8)) (s : ShellState ω) : ShellState ω :=
  if argv.length < 2 then (s.showExported os (cstr "export ")).withStatus 0
  else (argv.tail.foldl (exportArgument os) s).withStatus 0

/-- `builtin_unset`. -/
def builtinUnset (argv : List (List UInt8)) (s : ShellState ω) : ShellState ω :=
  if argv.length < 2 then (s.printf os (cstr "unset: missing variable name\n")).withStatus 1
  else (argv.tail.foldl (fun s arg => { s with vars := s.vars.unsetVariable arg }) s).withStatus 0

def printAll (texts : List String) (s : ShellState ω) : ShellState ω :=
  texts.foldl (fun s text => s.printf os (cstr text)) s

/-- What `builtin_help` prints without an argument. -/
def helpTexts : List String :=
  ["Shell builtin commands:\n",
    "  cd [dir]              Change directory\n",
    "  exit [n]              Exit shell with status n\n",
    "  export [VAR[=val]]    Mark variables for export to child processes\n",
    "  unset VAR             Remove variable\n",
    "  set                   Display all variables\n",
    "  env                   Display exported variables\n",
    "  printenv [VAR]        Display exported variable(s)\n",
    "  repeat N CMD [args]   Execute command N times\n",
    "  help [command]        Show help for builtin commands\n",
    "\nSpecial variables:\n",
    "  $?                    Exit status of last command\n",
    "  $$                    Shell process ID\n",
    "  $!                    Last background process ID\n"]

/-- What `builtin_help` prints for a command. -/
def helpFor (cmd : List UInt8) : Option (List String) :=
  if kStrcmp cmd (cstr "cd") = 0 then
    some ["cd: cd [dir]\n", "  Change the current directory to DIR.\n",
      "  If DIR is not specified, change to $HOME.\n"]
  else if kStrcmp cmd (cstr "exit") = 0 then
    some ["exit: exit [n]\n", "  Exit the shell with status N.\n",
      "  If N is omitted, use the exit status of last command.\n"]
  else if kStrcmp cmd (cstr "export") = 0 then
    some ["export: export [VAR[=value] ...]\n", "  Mark variables to be passed to child processes.\n",
      "  With no arguments, display all exported variables.\n", "  Examples:\n",
      "    export PATH=/bin:/usr/bin\n", "    export MYVAR\n"]
  else if kStrcmp cmd (cstr "unset") = 0 then
    some ["unset: unset VAR [VAR ...]\n", "  Remove variables.\n"]
  else if kStrcmp cmd (cstr "set") = 0 then
    some ["set: set\n", "  Display all shell variables and their values.\n"]
  else if kStrcmp cmd (cstr "env") = 0 ∨ kStrcmp cmd (cstr "printenv") = 0 then
    some ["env/printenv: env | printenv [VAR]\n", "  Display exported environment variables.\n",
      "  With VAR, display only that variable's value.\n"]
  else if kStrcmp cmd (cstr "repeat") = 0 then
    some ["repeat: repeat COUNT COMMAND [args ...]\n", "  Execute COMMAND with args COUNT times.\n",
      "  Shows iteration counter [N/COUNT] before each execution.\n",
      "  Stops early if command exits with non-zero status.\n", "  Example:\n",
      "    repeat 5 echo hello\n"]
  else if kStrcmp cmd (cstr "help") = 0 then
    some ["help: help [command]\n", "  Display help for builtin commands.\n",
      "  With no arguments, show all builtins.\n",
      "  With COMMAND, show detailed help for that builtin.\n"]
  else none

/-- `builtin_help`. -/
def builtinHelp (argv : List (List UInt8)) (s : ShellState ω) : ShellState ω :=
  match argv with
  | _ :: cmd :: _ =>
      match helpFor cmd with
      | some texts => (s.printAll os texts).withStatus 0
      | none => (s.printf os (cstr "help: no help for '" ++ cmd ++ cstr "'\n")).withStatus 1
  | _ => (s.printAll os helpTexts).withStatus 0

end ShellState

/-- The slot of `arg_buf` that begins at `start`. -/
def ArgMem.slot (mem : ArgMem) (start : Nat) : Option (Nat → UInt8) :=
  if start + lineMax ≤ argBufSize then some fun j => mem.argBuf (start + j) else none

/-- The string that `cmd_argv[i]` points at. -/
def ArgMem.text (mem : ArgMem) (i : Nat) : Option (List UInt8) := do
  let p ← ← loadIn 16 mem.argv i
  let slot ← mem.slot p
  textIn lineMax slot

/-- The strings that `execve` finds behind an array of pointers, up to the null pointer. -/
def stringsFrom (text : Nat → Option (Option (List UInt8))) : Nat → Nat → Option (List (List UInt8))
  | 0, _ => none
  | fuel + 1, i => do
      match ← text i with
      | none => some []
      | some s => do
          let rest ← stringsFrom text fuel (i + 1)
          some (s :: rest)

/-- The slot of `arg_buf` that begins at `start` gets the contents of `str`. -/
def writeSlot (argBuf : Nat → UInt8) (start : Nat) (str : Nat → UInt8) (q : Nat) : UInt8 :=
  if start ≤ q ∧ q < start + lineMax then str (q - start) else argBuf q

def ArgMem.storeSlot (mem : ArgMem) (start : Nat) (str : Nat → UInt8) : Option ArgMem :=
  if start + lineMax ≤ argBufSize then some { mem with argBuf := writeSlot mem.argBuf start str }
  else none

/-- A string of `cmd_argv`, an array of 16 pointers, or its null pointer. -/
def ArgMem.stringAt (mem : ArgMem) (i : Nat) : Option (Option (List UInt8)) := do
  match ← loadIn 16 mem.argv i with
  | none => some none
  | some p => do
      let slot ← mem.slot p
      (textIn lineMax slot).map some

/-- The arguments for `execve`. -/
def ArgMem.stringsFrom (mem : ArgMem) (i : Nat) : Option (List (List UInt8)) :=
  Punix.stringsFrom mem.stringAt 17 i

/-- A string of `envp_storage`, an array of `MAX_VARS + 1` pointers, or its null pointer. -/
def EnvMem.stringAt (mem : EnvMem) (i : Nat) : Option (Option (List UInt8)) := do
  match ← loadIn (maxVars + 1) mem.storage i with
  | none => some none
  | some row => (textIn envStringSize (mem.strings row)).map some

/-- The environment for `execve`. -/
def EnvMem.entries (mem : EnvMem) : Option (List (List UInt8)) :=
  Punix.stringsFrom mem.stringAt (maxVars + 2) 0

namespace ShellProc

variable {ω : Type} (os : ShellOs ω) (num : Nat → UInt8)

/-- What a command does that needs no buffers. -/
def update (p : ShellProc ω) (f : ShellState ω → ShellState ω) : ShellProc ω :=
  { p with toShellState := f p.toShellState }

/-- `build_environment`, with the strings that it returns. -/
def buildEnvironment (p : ShellProc ω) : Option (List (List UInt8) × ShellProc ω) := do
  let env ← Punix.buildEnvironment p.vars p.env
  let envp ← env.entries
  some (envp, { p with env })

/-- The loop of `builtin_repeat`, with `count - i` and `i`. -/
def repeatLoop (cmd : List UInt8) (count : BitVec 32) :
    Nat → Nat → ShellProc ω → Option (ShellProc ω)
  | 0, _, p => some p
  | left + 1, i, p => do
      let p := p.update (ShellState.printf os
        (cstr "[" ++ decimalText (BitVec.ofNat 32 (i + 1)) ++ cstr "/" ++ decimalText count ++
          cstr "]\n"))
      match p.resolveFullPath os lineMax cmd with
      | none => some (p.update (ShellState.notFound os cmd))
      | some path => do
          let (envp, p) ← p.buildEnvironment
          let argv ← p.args.stringsFrom 2
          let (s, ran) := p.runChild os path argv envp
          let p := { p with toShellState := s }
          if !ran then some p
          else if p.lastExitStatus ≠ 0 then some p
          else repeatLoop cmd count left (i + 1) p

/-- `builtin_repeat`. -/
def builtinRepeat (argv : List (List UInt8)) (p : ShellProc ω) : Option (ShellProc ω) :=
  match argv with
  | _ :: number :: cmd :: _ =>
      let count := Libc.atoi number
      if count.toInt ≤ 0 then
        some (p.update fun s => (s.printf os (cstr "repeat: count must be positive\n")).withStatus 1)
      else p.repeatLoop os cmd count count.toNat 0
  | _ =>
      some (p.update fun s =>
        (s.printf os (cstr "Usage: repeat <count> <command> [args...]\n")).withStatus 1)

/-- `handle_builtin`; `none` inside says that the command is not built in. -/
def handleBuiltin (argv : List (List UInt8)) (p : ShellProc ω) :
    Option (Option (ShellOutcome (ShellProc ω) ω)) :=
  let returns (f : ShellState ω → ShellState ω) := some (some (.continues (p.update f)))
  match argv with
  | [] => some none
  | cmd :: _ =>
      if kStrcmp cmd (cstr "exit") = 0 then
        match p.builtinExit argv with
        | .continues s => some (some (.continues { p with toShellState := s }))
        | .exits code w => some (some (.exits code w))
      else if kStrcmp cmd (cstr "cd") = 0 then returns (ShellState.builtinCd os argv)
      else if kStrcmp cmd (cstr "set") = 0 then returns (ShellState.builtinSet os)
      else if kStrcmp cmd (cstr "env") = 0 ∨ kStrcmp cmd (cstr "printenv") = 0 then
        returns (ShellState.builtinEnvLike os argv)
      else if kStrcmp cmd (cstr "export") = 0 then returns (ShellState.builtinExport os argv)
      else if kStrcmp cmd (cstr "unset") = 0 then returns (ShellState.builtinUnset os argv)
      else if kStrcmp cmd (cstr "repeat") = 0 then
        (p.builtinRepeat os argv).map fun p => some (.continues p)
      else if kStrcmp cmd (cstr "help") = 0 then returns (ShellState.builtinHelp os argv)
      else some none

/-- The loop over the assignments, with `cmd_argc - i` and `i`; it comes to
`first_non_assignment`. -/
def assignmentLoop : Nat → Nat → ShellProc ω → Option (ShellProc ω × Nat)
  | 0, i, p => some (p, i)
  | left + 1, i, p => do
      let arg ← p.args.text i
      match parseAssignment arg with
      | some (name, value) =>
          assignmentLoop left (i + 1) (p.update (ShellState.setVariable os name value 0))
      | none => some (p, i)

/-- The loop that removes the assignments, and the null pointer behind what is left. -/
def shiftArguments (argv : Nat → Option Nat) (first argc : Nat) : Option (Nat → Option Nat) := do
  let argv ← shiftIn 16 argv first (argc - first)
  storeIn 16 argv (argc - first) none

/-- The assignments are taken off the arguments, if there are any. -/
def removeAssignments (first argc : Nat) (p : ShellProc ω) : Option (ShellProc ω) :=
  if first > 0 then do
    let argv ← shiftArguments p.args.argv first argc
    some { p with args := { p.args with argv } }
  else some p

/-- The loop that expands the arguments, with `cmd_argc - i` and `i`. -/
def expandArguments : Nat → Nat → ShellProc ω → Option (ShellProc ω)
  | 0, _, p => some p
  | left + 1, i, p => do
      let start ← ← loadIn 16 p.args.argv i
      let slot ← p.args.slot start
      let (buf, str) ← expandVariables p.toShellValues num p.buf slot
      let args ← p.args.storeSlot start str
      expandArguments left (i + 1) { p with buf, args }

/-- `process_command` from the built-in commands on. -/
def runCommand (argc : Nat) (background : Bool) (p : ShellProc ω) :
    Option (ShellOutcome (ShellProc ω) ω) := do
  let argv ← (List.range argc).mapM p.args.text
  match ← p.handleBuiltin os argv with
  | some outcome => some outcome
  | none => do
      let cmd ← p.args.text 0
      match p.resolveFullPath os lineMax cmd with
      | none => some (.continues (p.update (ShellState.notFound os cmd)))
      | some path => do
          let (envp, p) ← p.buildEnvironment
          let argv ← p.args.stringsFrom 0
          if background then
            some (.continues (p.update (ShellState.startChild os path argv envp)))
          else some (.continues (p.update fun s => (s.runChild os path argv envp).1))

/-- `process_command` behind the expansions: a `&` at the end is taken off. -/
def runArguments (argc : Nat) (p : ShellProc ω) : Option (ShellOutcome (ShellProc ω) ω) := do
  let last ← p.args.text (argc - 1)
  if kStrcmp last (cstr "&") = 0 then
    let argv ← storeIn 16 p.args.argv (argc - 1) none
    let p := { p with args := { p.args with argv } }
    if argc - 1 = 0 then some (.continues p) else p.runCommand os (argc - 1) true
  else p.runCommand os argc false

/-- `process_command`; `num` is what the array for numbers holds before. -/
def processCommand (line : List UInt8) (p : ShellProc ω) :
    Option (ShellOutcome (ShellProc ω) ω) := do
  let (cmdArgc, args) ← commandArguments line p.args
  let p := { p with args }
  if cmdArgc = 0 then some (.continues p)
  else do
    let (p, first) ← p.assignmentLoop os cmdArgc 0
    if first ≥ cmdArgc then some (.continues (p.update (ShellState.withStatus 0)))
    else do
      let p ← p.removeAssignments first cmdArgc
      let argc := cmdArgc - first
      let p ← p.expandArguments num argc 0
      p.runArguments os argc

/-- The commands of a session, one after the other, up to an `exit`. -/
def session : List (List UInt8) → ShellProc ω → Option (ShellOutcome (ShellProc ω) ω)
  | [], p => some (.continues p)
  | line :: lines, p => do
      match ← p.processCommand os num line with
      | .continues p => session lines p
      | .exits code w => some (.exits code w)

end ShellProc

end Punix
