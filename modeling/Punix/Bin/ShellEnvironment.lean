import Punix.Bin.ShellVariables
import Punix.Lib.NulStrings

/-!
The environment that the shell passes on (`sh.c`): `build_environment` writes the exported
variables as `NAME=VALUE` to static buffers, and the `load_environment` of another shell reads
them back. A write outside of a buffer fails.
-/

namespace Punix

open Lib Lib.Cells Lib.NulStrings

/-- The size of a row of `envp_strings`. -/
abbrev envStringSize : Nat := maxVarName + maxVarValue + 2

/-- `envp_strings` and `envp_storage`. A pointer to a string is the number of its row, or
`NULL`. -/
structure EnvMem where
  strings : Nat → Nat → UInt8
  storage : Nat → Option Nat

/-- `while (*s && offset < MAX_VAR_NAME + MAX_VAR_VALUE)`, with the row and `offset`. -/
def copyToEntry (s : List UInt8) (row : Nat → UInt8) (offset : Nat) :
    Option ((Nat → UInt8) × Nat) :=
  copyBelow envStringSize (maxVarName + maxVarValue) s row offset

/-- The body of the loop of `build_environment` for an exported variable. -/
def writeEntry (var : ShellVar) (row : Nat → UInt8) : Option (Nat → UInt8) := do
  let (row, offset) ← copyToEntry var.name.bytes row 0
  let (row, offset) ←
    if offset < maxVarName + maxVarValue then do
      let row ← storeIn envStringSize row offset equalsSign
      some (row, offset + 1)
    else some (row, offset)
  let (row, offset) ← copyToEntry var.value.bytes row offset
  storeIn envStringSize row offset 0

/-- The loop of `build_environment`, with `var_count - i`, `i` and `env_idx`. -/
def environmentLoop (t : ShellVars) : Nat → Nat → EnvMem → Nat → Option (EnvMem × Nat)
  | 0, _, mem, envIdx => some (mem, envIdx)
  | left + 1, i, mem, envIdx =>
      if envIdx < maxVars then
        if (t.vars i).exported ≠ 0 then do
          let row ← loadIn maxVars mem.strings envIdx
          let row ← writeEntry (t.vars i) row
          let strings ← storeIn maxVars mem.strings envIdx row
          let storage ← storeIn (maxVars + 1) mem.storage envIdx (some envIdx)
          environmentLoop t left (i + 1) { strings, storage } (envIdx + 1)
        else environmentLoop t left (i + 1) mem envIdx
      else some (mem, envIdx)

/-- `build_environment`, which returns `envp_storage`. -/
def buildEnvironment (t : ShellVars) (mem : EnvMem) : Option EnvMem := do
  let (mem, envIdx) ← environmentLoop t t.varCount 0 mem 0
  let storage ← storeIn (maxVars + 1) mem.storage envIdx none
  some { mem with storage }

/-- The body of the loop of `load_environment`. -/
def loadEntry (t : ShellVars) (envEntry : List UInt8) : ShellVars :=
  let before := envEntry.takeWhile (· ≠ equalsSign)
  match envEntry.dropWhile (· ≠ equalsSign) with
  | [] => t
  | _ :: valStart =>
      if before = [] then t
      else
        let name : CharArray maxVarName := CharArray.ofBytes maxVarName before
        let value : CharArray maxVarValue := CharArray.ofBytes maxVarValue valStart
        (t.setVariable name.bytes value.bytes 1).1

/-- The loop of `load_environment` over an array of `MAX_VARS + 1` pointers. -/
def loadEnvironmentLoop (mem : EnvMem) : Nat → Nat → ShellVars → Option ShellVars
  | 0, _, _ => none
  | fuel + 1, i, t => do
      match ← loadIn (maxVars + 1) mem.storage i with
      | none => some t
      | some row =>
          if t.varCount < maxVars then do
            let envEntry ← textIn envStringSize (mem.strings row)
            loadEnvironmentLoop mem fuel (i + 1) (loadEntry t envEntry)
          else some t

/-- `load_environment`. The loop cannot go round more often than there are pointers. -/
def loadEnvironment (mem : EnvMem) (t : ShellVars) : Option ShellVars :=
  loadEnvironmentLoop mem (maxVars + 2) 0 t

/-- What the encoder and the decoder have in common: `NAME=VALUE`. -/
def entryText (var : ShellVar) : List UInt8 := var.name.bytes ++ equalsSign :: var.value.bytes

def ShellVar.isExported (var : ShellVar) : Bool := var.exported ≠ 0

/-- The array of pointers begins with those to these strings. -/
structure PointsTo (mem : EnvMem) (entries : List (List UInt8)) : Prop where
  pointer : ∀ i, i < entries.length → mem.storage i = some i
  string : ∀ i, (h : i < entries.length) → Holds envStringSize (mem.strings i) entries[i]

/-- The pointers to these strings, and a null pointer behind them. -/
structure PassesEntries (mem : EnvMem) (entries : List (List UInt8)) : Prop
    extends PointsTo mem entries where
  last : mem.storage entries.length = none

section Write

variable {row : Nat → UInt8} {s written : List UInt8}

theorem lt_envStringSize {offset : Nat} (h : offset ≤ maxVarName + maxVarValue) :
    offset < envStringSize := h.trans_lt (Nat.lt_add_of_pos_right Nat.two_pos)

/-- As long as there is room, the bytes are stored behind those that are written. -/
theorem copyToEntry_begins (h : Begins row written)
    (hroom : (written ++ s).length ≤ maxVarName + maxVarValue) :
    ∃ row', copyToEntry s row written.length = some (row', (written ++ s).length) ∧
      Begins row' (written ++ s) := by
  have hlen : written.length ≤ maxVarName + maxVarValue := by
    rw [List.length_append] at hroom
    omega
  have hcopy := h.copyBelow (s := s) hlen (lt_envStringSize le_rfl).le
  rwa [List.take_of_length_le hroom] at hcopy

theorem noNul_entryText (var : ShellVar) : 0 ∉ entryText var := by
  have hequals : (0 : UInt8) ≠ equalsSign := by decide
  simp [entryText, var.name.noNul, var.value.noNul, hequals]

theorem length_entryText_lt (var : ShellVar) :
    (entryText var).length < maxVarName + maxVarValue := by
  have hname := var.name.fits
  have hvalue := var.value.fits
  rw [entryText, List.length_append, List.length_cons]
  omega

/-- The longest name and the longest value fit into a row. -/
theorem writeEntry_holds (var : ShellVar) (row : Nat → UInt8) :
    ∃ row', writeEntry var row = some row' ∧ Holds envStringSize row' (entryText var) := by
  have hlen := length_entryText_lt var
  have hsplit : (entryText var).length = var.name.bytes.length + 1 + var.value.bytes.length := by
    rw [entryText, List.length_append, List.length_cons, Nat.add_assoc, Nat.add_comm 1]
  obtain ⟨row₁, hname, hbegins₁⟩ := copyToEntry_begins (Begins.nil row)
    (s := var.name.bytes) (by simp; omega)
  rw [List.nil_append] at hname hbegins₁
  obtain ⟨row₂, hvalue, hbegins₂⟩ := copyToEntry_begins (hbegins₁.snoc equalsSign)
    (s := var.value.bytes) (by simp; omega)
  have htext : var.name.bytes ++ [equalsSign] ++ var.value.bytes = entryText var := by
    simp [entryText]
  rw [htext, List.length_append, List.length_singleton] at hvalue
  rw [htext] at hbegins₂
  have hequals : var.name.bytes.length < maxVarName + maxVarValue := by omega
  refine ⟨_, ?_, hbegins₂.holds (noNul_entryText var) (lt_envStringSize hlen.le)⟩
  change (copyToEntry var.name.bytes row 0).bind _ = _
  rw [List.length_nil] at hname
  rw [hname]
  simp only [Option.bind_eq_bind, Option.bind_some, if_pos hequals,
    storeIn_of_lt (lt_envStringSize hequals.le), hvalue, storeIn_of_lt (lt_envStringSize hlen.le)]

variable {t : ShellVars} {mem : EnvMem} {done : List (List UInt8)}

theorem PointsTo.nil (mem : EnvMem) : PointsTo mem [] where
  pointer _ hi := absurd hi (Nat.not_lt_zero _)
  string _ hi := absurd hi (Nat.not_lt_zero _)

theorem PointsTo.snoc (h : PointsTo mem done) {row : Nat → UInt8} {entry : List UInt8}
    (hrow : Holds envStringSize row entry) :
    PointsTo
      { strings := Function.update mem.strings done.length row
        storage := Function.update mem.storage done.length (some done.length) }
      (done ++ [entry]) where
  pointer i hi := by
    dsimp only
    rcases eq_or_ne i done.length with rfl | hne
    · exact Function.update_self _ _ _
    · rw [List.length_append, List.length_singleton] at hi
      rw [Function.update_of_ne hne]
      exact h.pointer i (by omega)
  string i hi := by
    dsimp only
    rcases eq_or_ne i done.length with rfl | hne
    · rw [List.getElem_concat_length rfl, Function.update_self]
      exact hrow
    · rw [List.length_append, List.length_singleton] at hi
      have hlt : i < done.length := by omega
      rw [List.getElem_append_left hlt, Function.update_of_ne hne]
      exact h.string i hlt

theorem drop_live {i : Nat} (hi : i < t.varCount) :
    t.live.drop i = t.vars i :: t.live.drop (i + 1) := by
  rw [List.drop_eq_getElem_cons (by simpa using hi)]
  simp [ShellVars.live]

/-- The loop writes the entries of the exported variables from `i` on. -/
theorem environmentLoop_points (hcount : t.varCount ≤ maxVars) {left i : Nat}
    (hi : i + left = t.varCount) (hdone : done.length ≤ i) (h : PointsTo mem done) :
    ∃ mem', PointsTo mem' (done ++ ((t.live.drop i).filter ShellVar.isExported).map entryText) ∧
      environmentLoop t left i mem done.length = some (mem',
        (done ++ ((t.live.drop i).filter ShellVar.isExported).map entryText).length) := by
  induction left generalizing i mem done with
  | zero =>
      have hnone : t.live.drop i = [] := List.drop_eq_nil_of_le (by simp; omega)
      refine ⟨mem, ?_, ?_⟩
      · simpa [hnone] using h
      · simp [environmentLoop, hnone]
  | succ left ih =>
      have hlt : i < t.varCount := by omega
      have hroom : done.length < maxVars := by omega
      rw [drop_live hlt, environmentLoop, if_pos hroom]
      rcases eq_or_ne (t.vars i).exported 0 with hzero | hexported
      · have hskip : (t.vars i).isExported = false := by simp [ShellVar.isExported, hzero]
        rw [if_neg (not_not.mpr hzero), List.filter_cons_of_neg (by simp [hskip])]
        exact ih (by omega) (by omega) h
      · have hkeep : (t.vars i).isExported = true := by simp [ShellVar.isExported, hexported]
        rw [if_pos hexported, List.filter_cons_of_pos hkeep, List.map_cons]
        obtain ⟨row, hwrite, hrow⟩ := writeEntry_holds (t.vars i) (mem.strings done.length)
        obtain ⟨mem', hpoints, hloop⟩ := ih (i := i + 1) (by omega) (by simp; omega) (h.snoc hrow)
        have hload : loadIn maxVars mem.strings done.length = some (mem.strings done.length) :=
          if_pos hroom
        rw [List.append_assoc, List.singleton_append] at hpoints hloop
        refine ⟨mem', hpoints, ?_⟩
        rw [hload, Option.bind_eq_bind, Option.bind_some, hwrite, Option.bind_eq_bind,
          Option.bind_some, storeIn_of_lt hroom, Option.bind_eq_bind, Option.bind_some,
          storeIn_of_lt (Nat.lt_succ_of_lt hroom), Option.bind_some]
        simpa using hloop

theorem buildEnvironment_passes (hcount : t.varCount ≤ maxVars) (mem : EnvMem) :
    ∃ mem', buildEnvironment t mem = some mem' ∧
      PassesEntries mem' ((t.live.filter ShellVar.isExported).map entryText) := by
  obtain ⟨mem', hpoints, hloop⟩ := environmentLoop_points hcount (i := 0) (Nat.zero_add _)
    le_rfl (PointsTo.nil mem)
  rw [List.nil_append, List.drop_zero] at hpoints hloop
  generalize hentries : (t.live.filter ShellVar.isExported).map entryText = entries at hpoints hloop
  have hlen : entries.length < maxVars + 1 := by
    have hfilter := t.live.length_filter_le ShellVar.isExported
    rw [ShellVars.length_live] at hfilter
    rw [← hentries, List.length_map]
    omega
  refine ⟨{ mem' with storage := Function.update mem'.storage entries.length none }, ?_, ⟨?_, ?_⟩, ?_⟩
  · change (environmentLoop t t.varCount 0 mem 0).bind _ = _
    rw [List.length_nil] at hloop
    simp only [hloop, Option.bind_some, storeIn_of_lt hlen, Option.bind_eq_bind]
  · intro i hi
    dsimp only
    rw [Function.update_of_ne hi.ne]
    exact hpoints.pointer i hi
  · exact hpoints.string
  · exact Function.update_self _ _ _

end Write

section Read

open ShellVars

variable {t : ShellVars} {mem : EnvMem}

/-- `exported` is 1 in every variable that has been loaded. -/
def ShellVar.markExported (var : ShellVar) : ShellVar := { var with exported := 1 }

/-- An entry is split at its first `=`, which is the one behind the name. -/
theorem split_entryText {var : ShellVar} (hequals : equalsSign ∉ nameOf var) :
    (entryText var).takeWhile (· ≠ equalsSign) = nameOf var ∧
      (entryText var).dropWhile (· ≠ equalsSign) = equalsSign :: var.value.bytes := by
  have hname : ∀ c ∈ nameOf var, decide (c ≠ equalsSign) = true := by
    intro c hc
    exact decide_eq_true (ne_of_mem_of_not_mem hc hequals)
  have htext : entryText var = nameOf var ++ equalsSign :: var.value.bytes := rfl
  constructor
  · rw [htext, List.takeWhile_append_of_pos hname, List.takeWhile_cons_of_neg (by simp),
      List.append_nil]
  · rw [htext, List.dropWhile_append_of_pos hname, List.dropWhile_cons_of_neg (by simp)]

/-- The entry of a new name is appended, with its whole name and value. -/
theorem live_loadEntry {var : ShellVar} (hname : nameOf var ≠ [] ∧ equalsSign ∉ nameOf var)
    (hnew : nameOf var ∉ t.live.map nameOf) (hroom : t.varCount < maxVars) :
    (loadEntry t (entryText var)).live = t.live ++ [var.markExported] := by
  obtain ⟨htake, hdrop⟩ := split_entryText hname.2
  have hbytes : CharArray.ofBytes maxVarName (nameOf var) = var.name :=
    CharArray.ofBytes_bytes var.name
  have hfind : t.findVariable var.name.bytes = none := by
    cases hfind : t.findVariable var.name.bytes with
    | none => rfl
    | some i =>
        obtain ⟨hi, heq⟩ := findVariable_some hfind
        rw [strBytes_eq_self var.name.noNul] at heq
        exact absurd (List.mem_map.mpr ⟨_, List.mem_map.mpr ⟨i, List.mem_range.mpr hi, rfl⟩, heq⟩)
          hnew
  rw [loadEntry, htake, hdrop]
  simp only [if_neg hname.1, hbytes, CharArray.ofBytes_bytes, setVariable, hfind,
    if_neg (Nat.not_le_of_lt hroom)]
  exact live_append var.markExported

/-- The loop appends one entry after the other. -/
theorem loadEnvironmentLoop_live {vars : List ShellVar} (h : PassesEntries mem (vars.map entryText))
    (hcount : vars.length ≤ maxVars) (hdistinct : (vars.map nameOf).Nodup)
    (hnames : ∀ var ∈ vars, nameOf var ≠ [] ∧ equalsSign ∉ nameOf var) {fuel i : Nat}
    (hi : i ≤ vars.length) (hfuel : vars.length < fuel + i)
    (ht : t.live = (vars.take i).map ShellVar.markExported) :
    ∃ t', loadEnvironmentLoop mem fuel i t = some t' ∧ t'.live = vars.map ShellVar.markExported := by
  induction fuel generalizing i t with
  | zero => omega
  | succ fuel ih =>
      have hload : loadIn (maxVars + 1) mem.storage i = some (mem.storage i) := if_pos (by omega)
      rw [loadEnvironmentLoop, hload, Option.bind_eq_bind, Option.bind_some]
      rcases hi.lt_or_eq with hlt | rfl
      · have hpointer := h.pointer i (by simpa using hlt)
        have hstring := h.string i (by simpa using hlt)
        rw [List.getElem_map] at hstring
        have hlen : t.varCount = i := by
          rw [← length_live, ht, List.length_map, List.length_take]
          omega
        have hroom : t.varCount < maxVars := by omega
        have hnew : nameOf vars[i] ∉ t.live.map nameOf := by
          have hsplit : vars.take i ++ vars[i] :: vars.drop (i + 1) = vars := by
            rw [← List.drop_eq_getElem_cons hlt, List.take_append_drop]
          have hbefore : ((vars.take i ++ vars[i] :: vars.drop (i + 1)).map nameOf).Nodup := by
            rw [hsplit]
            exact hdistinct
          rw [ht, List.map_map]
          exact KeyedList.notMem_before hbefore
        have hnext : (loadEntry t (entryText vars[i])).live =
            (vars.take (i + 1)).map ShellVar.markExported := by
          rw [live_loadEntry (hnames _ (List.getElem_mem hlt)) hnew hroom, ht,
            ← List.take_concat_get' _ _ hlt, List.map_append]
          rfl
        obtain ⟨t', hloop, hlive⟩ := ih hlt (by omega) hnext
        refine ⟨t', ?_, hlive⟩
        rw [hpointer]
        simp only [if_pos hroom, hstring.textIn]
        exact hloop
      · have hlast := h.last
        rw [List.length_map] at hlast
        rw [hlast]
        exact ⟨t, rfl, by rw [ht, List.take_length]⟩

/-- The exported ones of any variables, read from their entries. -/
theorem loadEnvironment_exported {vars : List ShellVar}
    (h : PassesEntries mem ((vars.filter ShellVar.isExported).map entryText))
    (hcount : vars.length ≤ maxVars) (hdistinct : (vars.map nameOf).Nodup)
    (hnames : ∀ var ∈ vars, nameOf var ≠ [] ∧ equalsSign ∉ nameOf var) (vars' : Nat → ShellVar) :
    ∃ t', loadEnvironment mem { vars := vars', varCount := 0 } = some t' ∧
      t'.live = (vars.filter ShellVar.isExported).map ShellVar.markExported := by
  have hsub := List.filter_sublist (p := ShellVar.isExported) (l := vars)
  have hlen := vars.length_filter_le ShellVar.isExported
  have hfuel : (vars.filter ShellVar.isExported).length < maxVars + 2 + 0 := by omega
  exact loadEnvironmentLoop_live (t := { vars := vars', varCount := 0 }) h (hlen.trans hcount)
    (hdistinct.sublist (hsub.map nameOf)) (fun var hvar => hnames var (hsub.subset hvar))
    (Nat.zero_le _) hfuel rfl

/-- What one shell exports, another shell loads: the exported variables in their order, with
their names and values, and all of them exported. -/
theorem load_buildEnvironment (hcount : t.varCount ≤ maxVars)
    (hdistinct : (t.live.map nameOf).Nodup)
    (hnames : ∀ var ∈ t.live, nameOf var ≠ [] ∧ equalsSign ∉ nameOf var) (mem : EnvMem)
    (vars : Nat → ShellVar) :
    ∃ mem' t', buildEnvironment t mem = some mem' ∧
      loadEnvironment mem' { vars, varCount := 0 } = some t' ∧
      t'.live = (t.live.filter ShellVar.isExported).map ShellVar.markExported := by
  obtain ⟨mem', hbuild, hpasses⟩ := buildEnvironment_passes hcount mem
  obtain ⟨t', hload, hlive⟩ := loadEnvironment_exported hpasses (by simpa using hcount) hdistinct
    hnames vars
  exact ⟨mem', t', hbuild, hload, hlive⟩

/-- An exported variable with an equals sign in its value, and one that is not exported. -/
theorem load_buildEnvironment_two :
    let var (name value : String) (exported : Int) : ShellVar :=
      { name := CharArray.ofBytes maxVarName (cstr name)
        value := CharArray.ofBytes maxVarValue (cstr value)
        exported }
    let vars (i : Nat) : ShellVar := if i = 0 then var "A" "x=y" 7 else var "B" "" 0
    ∃ mem' t', buildEnvironment { vars, varCount := 2 } ⟨fun _ _ => 1, fun _ => some 3⟩ = some mem' ∧
      loadEnvironment mem' { vars, varCount := 0 } = some t' ∧ t'.live = [var "A" "x=y" 1] := by
  intro var vars
  exact load_buildEnvironment (t := { vars, varCount := 2 }) (by decide) (by decide) (by decide)
    ⟨fun _ _ => 1, fun _ => some 3⟩ vars

end Read

section Named

open ShellVars

/-- A name that is set is not empty and has no `=`. -/
def VarCall.Named : VarCall → Prop
  | .setVariable name _ _ => name.bytes ≠ [] ∧ equalsSign ∉ name.bytes
  | .unsetVariable _ | .exportVariable _ => True

/-- What stands before the first `=` is such a name, also when it is cut off. -/
theorem named_ofBytes {arg : List UInt8} (hnul : 0 ∉ arg)
    (hne : arg.takeWhile (· ≠ equalsSign) ≠ []) (value : CharArray maxVarValue) (exported : Int) :
    (VarCall.setVariable (CharArray.ofBytes maxVarName (arg.takeWhile (· ≠ equalsSign))) value
      exported).Named := by
  have hsub : (arg.takeWhile (· ≠ equalsSign)).Sublist arg := List.takeWhile_sublist _
  rw [VarCall.Named, CharArray.bytes_ofBytes_noNul fun hmem => hnul (hsub.subset hmem)]
  constructor
  · intro hnil
    rcases List.take_eq_nil_iff.mp hnil with hzero | hempty
    · cases hzero
    · exact hne hempty
  · intro hmem
    have hkept := List.mem_takeWhile_imp (List.mem_of_mem_take hmem)
    simp at hkept

theorem named_parseAssignment {arg : List UInt8} (hnul : 0 ∉ arg) {name : CharArray maxVarName}
    {value : CharArray maxVarValue} (h : parseAssignment arg = some (name, value)) (exported : Int) :
    (VarCall.setVariable name value exported).Named := by
  rw [parseAssignment] at h
  split at h
  · cases h
  · next valStart _ =>
      split at h
      · cases h
      · next hne =>
          split at h
          · cases h
            exact named_ofBytes hnul hne _ _
          · cases h

theorem loadEntry_named {t : ShellVars} {envEntry : List UInt8} (hnul : 0 ∉ envEntry) :
    loadEntry t envEntry = t ∨ ∃ c : VarCall, c.Named ∧ loadEntry t envEntry = t.call c := by
  rw [loadEntry]
  split
  · exact Or.inl rfl
  · next valStart _ =>
      split
      · exact Or.inl rfl
      · next hne => exact Or.inr ⟨_, named_ofBytes hnul hne _ 1, rfl⟩

/-- The variables that a shell has set, changed and exported arrive in the shells that it
starts. -/
theorem load_buildEnvironment_calls (vars vars' : Nat → ShellVar) {cs : List VarCall}
    (hcs : ∀ c ∈ cs, c.Named) (mem : EnvMem) :
    let t := (ShellVars.mk vars 0).calls cs
    ∃ mem' t', buildEnvironment t mem = some mem' ∧
      loadEnvironment mem' { vars := vars', varCount := 0 } = some t' ∧
      t'.live = (t.live.filter ShellVar.isExported).map ShellVar.markExported := by
  intro t
  have hmap := (ShellVars.IsMap.empty vars).calls cs
  have hnames : ∀ var ∈ t.live, nameOf var ≠ [] ∧ equalsSign ∉ nameOf var := by
    intro var hvar
    obtain ⟨value, exported, hset⟩ := set_of_mem_live hvar
    exact hcs _ hset
  obtain ⟨mem', hbuild, hpasses⟩ := buildEnvironment_passes hmap.count mem
  obtain ⟨t', hload, hlive⟩ := loadEnvironment_exported hpasses
    (by simpa using hmap.count) hmap.entries.distinct hnames vars'
  exact ⟨mem', t', hbuild, hload, hlive⟩

end Named

end Punix
