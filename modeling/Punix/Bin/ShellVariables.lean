import Punix.Bin.Shell
import Punix.Fs.Mounts
import Punix.Libs.Environ
import Punix.Lib.KeyedList

/-!
The variables of the shell (`sh.c`): an array of which the first `var_count` entries are in use.
Over any calls it is a finite map from names to values, in which some names are marked as
exported.
-/

namespace Punix

open Lib

/-- `MAX_VARS`. -/
abbrev maxVars : Nat := 64
/-- `MAX_VAR_NAME`. -/
abbrev maxVarName : Nat := 64
/-- `MAX_VAR_VALUE`. -/
abbrev maxVarValue : Nat := 256

structure ShellVar where
  name : CharArray maxVarName
  value : CharArray maxVarValue
  exported : Int

/-- The array `variables`, and `var_count`. -/
structure ShellVars where
  vars : Nat → ShellVar
  varCount : Nat

namespace ShellVars

variable (t : ShellVars)

/-- `find_variable`; `none` stands for -1. -/
def findVariable (name : List UInt8) : Option Nat :=
  (List.range t.varCount).find? fun i => kStrcmp (t.vars i).name.bytes name = 0

/-- An assignment to fields of `variables[i]`. -/
def modify (i : Nat) (f : ShellVar → ShellVar) : ShellVars :=
  { t with vars := Function.update t.vars i (f (t.vars i)) }

/-- `set_variable`, with what it prints. -/
def setVariable (name value : List UInt8) (exported : Int) : ShellVars × List UInt8 :=
  match t.findVariable name with
  | some idx =>
      (t.modify idx fun var =>
        { var with
          value := CharArray.ofBytes maxVarValue value
          exported := if exported ≠ 0 then 1 else var.exported }, [])
  | none =>
      if t.varCount ≥ maxVars then (t, cstr "Too many variables\n")
      else
        let var : ShellVar :=
          { name := CharArray.ofBytes maxVarName name
            value := CharArray.ofBytes maxVarValue value
            exported }
        ({ t.modify t.varCount (fun _ => var) with varCount := t.varCount + 1 }, [])

/-- `get_variable`. -/
def getVariable (name : List UInt8) : Option (List UInt8) :=
  (t.findVariable name).map fun idx => (t.vars idx).value.bytes

/-- The loop of `unset_variable`. -/
def shiftDown (vars : Nat → ShellVar) (idx count : Nat) : Nat → ShellVar :=
  (List.range' idx (count - 1 - idx)).foldl
    (fun vars i => Function.update vars i (vars (i + 1))) vars

/-- `unset_variable`. -/
def unsetVariable (name : List UInt8) : ShellVars :=
  match t.findVariable name with
  | some idx => { vars := shiftDown t.vars idx t.varCount, varCount := t.varCount - 1 }
  | none => t

/-- `export_variable`. -/
def exportVariable (name : List UInt8) : ShellVars :=
  match t.findVariable name with
  | some idx => t.modify idx fun var => { var with exported := 1 }
  | none => t

/-- The entries in use. -/
def live : List ShellVar := (List.range t.varCount).map t.vars

end ShellVars

theorem CharArray.eq_of_bytes {n : Nat} {a b : CharArray n} (h : a.bytes = b.bytes) : a = b := by
  cases a
  cases b
  cases h
  rfl

theorem CharArray.ofBytes_bytes {n : Nat} [NeZero n] (a : CharArray n) :
    CharArray.ofBytes n a.bytes = a := by
  apply CharArray.eq_of_bytes
  have hfits := a.fits
  rw [CharArray.bytes_ofBytes, strBytes_eq_self a.noNul]
  rwa [strBytes_eq_self a.noNul]

theorem CharArray.bytes_ofBytes_noNul {n : Nat} [NeZero n] {s : List UInt8} (h : 0 ∉ s) :
    (CharArray.ofBytes n s).bytes = s.take (n - 1) := by
  change (strBytes s).take (n - 1) = _
  rw [strBytes_eq_self h]

def isLetter (c : UInt8) : Bool :=
  ('A'.toUInt8 ≤ c ∧ c ≤ 'Z'.toUInt8) ∨ ('a'.toUInt8 ≤ c ∧ c ≤ 'z'.toUInt8)

def underscore : UInt8 := 95

/-- What a name may begin with. -/
def nameStart (c : UInt8) : Bool := isLetter c ∨ c = underscore

/-- What a name consists of. -/
def nameChar (c : UInt8) : Bool := isLetter c ∨ isDigit c ∨ c = underscore

/-- The loop over the characters before the `=`. -/
def validName : List UInt8 → Bool
  | [] => true
  | c :: rest => nameChar c ∧ ¬ isDigit c ∧ rest.all nameChar

/-- `parse_assignment`, with the contents of `name` and `value`. -/
def parseAssignment (arg : List UInt8) : Option (CharArray maxVarName × CharArray maxVarValue) :=
  let before := arg.takeWhile (· ≠ equalsSign)
  match arg.dropWhile (· ≠ equalsSign) with
  | [] => none
  | _ :: valStart =>
      if before = [] then none
      else if validName before then
        some (CharArray.ofBytes maxVarName before, CharArray.ofBytes maxVarValue valStart)
      else none

namespace ShellVars

open KeyedList

/-- The name of an entry. -/
def nameOf (var : ShellVar) : List UInt8 := var.name.bytes

/-- The value of an entry, and whether it is marked as exported. -/
def binding (var : ShellVar) : List UInt8 × Bool := (var.value.bytes, var.exported ≠ 0)

variable {t : ShellVars} {name value : List UInt8} {i : Nat}

@[simp] theorem length_live : t.live.length = t.varCount := by simp [live]

theorem getElem?_live : t.live[i]? = if i < t.varCount then some (t.vars i) else none := by
  rw [live, List.getElem?_map]
  split
  · next hi => rw [List.getElem?_range hi, Option.map_some]
  · next hi => rw [List.getElem?_eq_none (by simpa using hi), Option.map_none]

/-- An entry between those before and those behind it. -/
theorem live_split (hi : i < t.varCount) :
    t.live = t.live.take i ++ t.vars i :: t.live.drop (i + 1) := by
  have hlen : i < t.live.length := by simpa using hi
  have hget : t.live[i] = t.vars i := by simp [live]
  conv_lhs => rw [← List.take_append_drop i t.live, List.drop_eq_getElem_cons hlen, hget]

theorem live_modify (hi : i < t.varCount) (f : ShellVar → ShellVar) :
    (t.modify i f).live = t.live.take i ++ f (t.vars i) :: t.live.drop (i + 1) := by
  have hset : (t.modify i f).live = t.live.set i (f (t.vars i)) := by
    apply List.ext_getElem?
    intro j
    rw [getElem?_live, List.getElem?_set, getElem?_live, length_live, modify]
    rcases eq_or_ne i j with rfl | hj
    · simp [hi]
    · simp [hj, hj.symm]
  rw [hset, List.set_eq_take_append_cons_drop, if_pos (by simpa using hi)]

theorem live_append (var : ShellVar) :
    ({ t.modify t.varCount (fun _ => var) with varCount := t.varCount + 1 } : ShellVars).live =
      t.live ++ [var] := by
  rw [live, List.range_succ, List.map_append]
  congr 1
  · apply List.map_congr_left
    intro j hj
    exact Function.update_of_ne (List.mem_range.mp hj).ne _ _
  · simp [modify]

/-- The loop moves every entry behind the first one a place down. -/
theorem shiftDown_apply (vars : Nat → ShellVar) (idx count j : Nat) :
    shiftDown vars idx count j =
      if idx ≤ j ∧ j < idx + (count - 1 - idx) then vars (j + 1) else vars j := by
  rw [shiftDown]
  generalize count - 1 - idx = n
  induction n generalizing j with
  | zero => rw [if_neg (by omega), List.range'_zero, List.foldl_nil]
  | succ n ih =>
      rw [List.range'_1_concat, List.foldl_append, List.foldl_cons, List.foldl_nil,
        Function.update_apply]
      split
      · next hj =>
          -- the entry that is moved has not been written yet
          rw [ih, if_neg (by omega), if_pos (by omega), hj]
      · next hj =>
          rw [ih]
          congr 1
          simp only [eq_iff_iff]
          omega

theorem live_unset (hi : i < t.varCount) :
    ({ vars := shiftDown t.vars i t.varCount, varCount := t.varCount - 1 } : ShellVars).live =
      t.live.take i ++ t.live.drop (i + 1) := by
  rw [← List.eraseIdx_eq_take_drop_succ]
  apply List.ext_getElem?
  intro j
  rw [List.getElem?_eraseIdx, getElem?_live, getElem?_live, getElem?_live]
  simp only [shiftDown_apply]
  split_ifs <;> first | rfl | omega

/-- What `find_variable` finds is an entry with this name. -/
theorem findVariable_some (h : t.findVariable name = some i) :
    i < t.varCount ∧ nameOf (t.vars i) = strBytes name := by
  have hlt := List.mem_range.mp (List.mem_of_find?_eq_some h)
  have hname := List.find?_some h
  rw [decide_eq_true_eq, kStrcmp_eq_zero_iff, strBytes_eq_self (t.vars i).name.noNul] at hname
  exact ⟨hlt, hname⟩

theorem findVariable_none (h : t.findVariable name = none) :
    strBytes name ∉ t.live.map nameOf := by
  intro hmem
  obtain ⟨var, hvar, hname⟩ := List.mem_map.mp hmem
  obtain ⟨i, hi, rfl⟩ := List.mem_map.mp hvar
  have hne := List.find?_eq_none.mp h i hi
  rw [decide_eq_true_eq, kStrcmp_eq_zero_iff, strBytes_eq_self (t.vars i).name.noNul] at hne
  exact hne hname

end ShellVars

/-- A call of a function that changes the variables. A name and a value that are set have been
copied to the arrays `char name[MAX_VAR_NAME]` and `char value[MAX_VAR_VALUE]`. -/
inductive VarCall where
  | setVariable (name : CharArray maxVarName) (value : CharArray maxVarValue) (exported : Int)
  | unsetVariable (name : List UInt8)
  | exportVariable (name : List UInt8)

namespace ShellVars

def call (t : ShellVars) : VarCall → ShellVars
  | .setVariable name value exported => (t.setVariable name.bytes value.bytes exported).1
  | .unsetVariable name => t.unsetVariable name
  | .exportVariable name => t.exportVariable name

def calls (t : ShellVars) (cs : List VarCall) : ShellVars := cs.foldl call t

/-- A call is refused with a message, which is when the array is full. -/
def refuses (t : ShellVars) : VarCall → Bool
  | .setVariable name value exported => (t.setVariable name.bytes value.bytes exported).2 ≠ []
  | .unsetVariable _ | .exportVariable _ => false

/-- The calls that are not refused. -/
def accepted : ShellVars → List VarCall → List VarCall
  | _, [] => []
  | t, c :: cs => if t.refuses c then accepted (t.call c) cs else c :: accepted (t.call c) cs

end ShellVars

/-- A finite map from names to values, with the mark of the exported ones. -/
abbrev Bindings := Finmap fun _ : List UInt8 => List UInt8 × Bool

namespace Bindings

/-- What a call does to the map. A new name is refused when there are `MAX_VARS`. -/
def call (m : Bindings) : VarCall → Bindings
  | .setVariable name value exported =>
      match m.lookup name.bytes with
      | some (_, mark) => m.insert name.bytes (value.bytes, mark || exported ≠ 0)
      | none =>
          if maxVars ≤ m.keys.card then m else m.insert name.bytes (value.bytes, exported ≠ 0)
  | .unsetVariable name => m.erase (strBytes name)
  | .exportVariable name =>
      match m.lookup (strBytes name) with
      | some (value, _) => m.insert (strBytes name) (value, true)
      | none => m

def calls (m : Bindings) (cs : List VarCall) : Bindings := cs.foldl call m

end Bindings

/-- The array is the map. -/
structure ShellVars.IsMap (t : ShellVars) (m : Bindings) : Prop where
  entries : KeyedList.Represents ShellVars.nameOf ShellVars.binding t.live m
  count : t.varCount ≤ maxVars

namespace ShellVars.IsMap

open ShellVars

variable {t : ShellVars} {m : Bindings} {name : List UInt8} {i : Nat}

theorem card_keys (h : t.IsMap m) : m.keys.card = t.varCount := by
  rw [h.entries.card_keys, length_live]

theorem lookup_some (h : t.IsMap m) (hfind : t.findVariable name = some i) :
    m.lookup (strBytes name) = some (binding (t.vars i)) := by
  obtain ⟨hi, hname⟩ := findVariable_some hfind
  have hmem : t.vars i ∈ t.live := List.mem_map.mpr ⟨i, List.mem_range.mpr hi, rfl⟩
  rw [← hname, h.entries.lookup, KeyedList.lookup_of_mem h.entries.distinct hmem, Option.map_some]

theorem lookup_none (h : t.IsMap m) (hfind : t.findVariable name = none) :
    m.lookup (strBytes name) = none := by
  rw [h.entries.lookup, KeyedList.lookup_eq_none_iff.mpr (findVariable_none hfind), Option.map_none]

theorem getVariable (h : t.IsMap m) (name : List UInt8) :
    t.getVariable name = (m.lookup (strBytes name)).map Prod.fst := by
  rw [ShellVars.getVariable]
  cases hfind : t.findVariable name with
  | none => rw [h.lookup_none hfind, Option.map_none, Option.map_none]
  | some i => rw [h.lookup_some hfind, Option.map_some, Option.map_some, binding]

/-- An entry whose name stays gets another value or another mark. -/
theorem modify (h : t.IsMap m) (hfind : t.findVariable name = some i) {f : ShellVar → ShellVar}
    (hf : nameOf (f (t.vars i)) = nameOf (t.vars i)) :
    (t.modify i f).IsMap (m.insert (strBytes name) (binding (f (t.vars i)))) := by
  obtain ⟨hi, hname⟩ := findVariable_some hfind
  have hentries := h.entries
  rw [live_split hi] at hentries
  refine ⟨?_, h.count⟩
  rw [live_modify hi, ← hname]
  exact hentries.replace hf

theorem setVariable (h : t.IsMap m) (name : CharArray maxVarName) (value : CharArray maxVarValue)
    (exported : Int) :
    (t.setVariable name.bytes value.bytes exported).1.IsMap
      (m.call (.setVariable name value exported)) := by
  have hname := strBytes_eq_self name.noNul
  rw [ShellVars.setVariable, Bindings.call]
  cases hfind : t.findVariable name.bytes with
  | some i =>
      have hlookup := h.lookup_some hfind
      rw [hname] at hlookup
      have hbinding : binding { t.vars i with
          value := CharArray.ofBytes maxVarValue value.bytes
          exported := if exported ≠ 0 then 1 else (t.vars i).exported } =
            (value.bytes, decide ((t.vars i).exported ≠ 0) || decide (exported ≠ 0)) := by
        rw [binding, CharArray.ofBytes_bytes]
        rcases eq_or_ne exported 0 with hzero | hmark
        · simp [hzero]
        · simp [hmark]
      simp only [hlookup, binding, ← hbinding]
      rw [← hname]
      exact h.modify hfind rfl
  | none =>
      have hlookup := h.lookup_none hfind
      rw [hname] at hlookup
      simp only [hlookup, h.card_keys]
      split
      · exact h
      · next hroom =>
          refine ⟨?_, Nat.lt_of_not_le hroom⟩
          rw [live_append]
          have hnew := findVariable_none hfind
          rw [hname] at hnew
          have happend := h.entries.append (b := {
            name := CharArray.ofBytes maxVarName name.bytes
            value := CharArray.ofBytes maxVarValue value.bytes
            exported })
          simp only [nameOf, binding, CharArray.ofBytes_bytes] at happend
          simpa only [CharArray.ofBytes_bytes] using happend hnew

theorem unsetVariable (h : t.IsMap m) (name : List UInt8) :
    (t.unsetVariable name).IsMap (m.erase (strBytes name)) := by
  rw [ShellVars.unsetVariable]
  cases hfind : t.findVariable name with
  | some i =>
      obtain ⟨hi, hname⟩ := findVariable_some hfind
      have hentries := h.entries
      rw [live_split hi] at hentries
      refine ⟨?_, (Nat.sub_le _ _).trans h.count⟩
      rw [live_unset hi, ← hname]
      exact hentries.erase
  | none =>
      have herase : m.erase (strBytes name) = m := by
        apply Finmap.ext_lookup
        intro k
        rcases eq_or_ne k (strBytes name) with rfl | hk
        · rw [Finmap.lookup_erase, h.lookup_none hfind]
        · rw [Finmap.lookup_erase_ne hk]
      rw [herase]
      exact h

theorem exportVariable (h : t.IsMap m) (name : List UInt8) :
    (t.exportVariable name).IsMap (m.call (.exportVariable name)) := by
  rw [ShellVars.exportVariable, Bindings.call]
  cases hfind : t.findVariable name with
  | some i =>
      simp only [h.lookup_some hfind]
      exact h.modify hfind rfl
  | none =>
      simp only [h.lookup_none hfind]
      exact h

theorem call (h : t.IsMap m) : (c : VarCall) → (t.call c).IsMap (m.call c)
  | .setVariable name value exported => h.setVariable name value exported
  | .unsetVariable name => h.unsetVariable name
  | .exportVariable name => h.exportVariable name

theorem calls (h : t.IsMap m) (cs : List VarCall) : (t.calls cs).IsMap (m.calls cs) := by
  induction cs generalizing t m with
  | nil => exact h
  | cons c cs ih => exact ih (h.call c)

/-- With no entry in use. -/
theorem empty (vars : Nat → ShellVar) : (ShellVars.mk vars 0).IsMap ∅ where
  entries := .empty
  count := Nat.zero_le _

end ShellVars.IsMap

/-- What a call makes of the binding of a name. A mark stays when a value is set. -/
def VarCall.effect (name : List UInt8) (old : Option (List UInt8 × Bool)) :
    VarCall → Option (List UInt8 × Bool)
  | .setVariable n value exported =>
      if n.bytes = name then some (value.bytes, old.any Prod.snd || exported ≠ 0) else old
  | .unsetVariable n => if strBytes n = name then none else old
  | .exportVariable n =>
      if strBytes n = name then old.map fun (value, _) => (value, true) else old

/-- The binding of a name after some calls, of which none is refused. -/
def boundTo (cs : List VarCall) (name : List UInt8) : Option (List UInt8 × Bool) :=
  cs.foldl (VarCall.effect name) none

section BoundTo

open ShellVars

variable {t : ShellVars} {m : Bindings}

theorem refuses_setVariable (name : CharArray maxVarName) (value : CharArray maxVarValue)
    (exported : Int) :
    t.refuses (.setVariable name value exported) ↔
      t.findVariable name.bytes = none ∧ maxVars ≤ t.varCount := by
  rw [refuses, ShellVars.setVariable, decide_eq_true_eq]
  cases hfind : t.findVariable name.bytes with
  | some i => simp
  | none =>
      rcases Nat.lt_or_ge t.varCount maxVars with hroom | hfull
      · simp [Nat.not_le_of_lt hroom]
      · simp [hfull]
        decide

/-- A refused call changes nothing. -/
theorem call_of_refuses {c : VarCall} (h : t.refuses c) : t.call c = t := by
  cases c with
  | setVariable name value exported =>
      obtain ⟨hfind, hfull⟩ := (refuses_setVariable name value exported).mp h
      simp [ShellVars.call, ShellVars.setVariable, hfind, hfull]
  | unsetVariable name => cases h
  | exportVariable name => cases h

/-- A name is bound as the call says, and every other name as before. -/
theorem ShellVars.IsMap.lookup_call (h : t.IsMap m) (c : VarCall) (name : List UInt8) :
    (m.call c).lookup name =
      if t.refuses c then m.lookup name else c.effect name (m.lookup name) := by
  cases c with
  | setVariable n value exported =>
      rw [Bindings.call, VarCall.effect]
      simp only [refuses_setVariable]
      cases hfind : t.findVariable n.bytes with
      | some i =>
          have hlookup := h.lookup_some hfind
          rw [strBytes_eq_self n.noNul, binding] at hlookup
          simp only [hlookup, KeyedList.lookup_insert_eq_ite, reduceCtorEq, false_and, if_false]
          split
          · next hn =>
              subst hn
              simp [hlookup]
          · rfl
      | none =>
          have hlookup := h.lookup_none hfind
          rw [strBytes_eq_self n.noNul] at hlookup
          simp only [hlookup, h.card_keys, true_and]
          split
          · rfl
          · rw [KeyedList.lookup_insert_eq_ite]
            split
            · next hn =>
                subst hn
                simp [hlookup]
            · rfl
  | unsetVariable n =>
      rw [Bindings.call, VarCall.effect, if_neg (by simp [refuses])]
      split
      · next hn => rw [hn, Finmap.lookup_erase]
      · next hn => rw [Finmap.lookup_erase_ne (Ne.symm hn)]
  | exportVariable n =>
      rw [Bindings.call, VarCall.effect, if_neg (by simp [refuses])]
      cases hlookup : m.lookup (strBytes n) with
      | some b =>
          simp only [KeyedList.lookup_insert_eq_ite]
          split
          · next hn =>
              subst hn
              simp [hlookup]
          · rfl
      | none =>
          dsimp only
          split
          · next hn => rw [← hn, hlookup, Option.map_none]
          · rfl

theorem ShellVars.IsMap.lookup_calls (h : t.IsMap m) (cs : List VarCall) (name : List UInt8) :
    (m.calls cs).lookup name =
      (t.accepted cs).foldl (VarCall.effect name) (m.lookup name) := by
  induction cs generalizing t m with
  | nil => rfl
  | cons c cs ih =>
      have hrest := ih (h.call c)
      rw [h.lookup_call c name] at hrest
      rw [ShellVars.accepted]
      split
      · next hc =>
          rw [if_pos hc] at hrest
          exact hrest
      · next hc =>
          rw [if_neg hc] at hrest
          exact hrest

theorem ShellVars.accepted_subset (t : ShellVars) (cs : List VarCall) : t.accepted cs ⊆ cs := by
  induction cs generalizing t with
  | nil => exact List.Subset.refl _
  | cons c cs ih =>
      rw [ShellVars.accepted]
      split
      · exact List.subset_cons_of_subset c (ih _)
      · exact List.cons_subset_cons c (ih _)

/-- What is bound has been set, unless it was bound before. -/
theorem set_of_effects {cs : List VarCall} {name : List UInt8} {old : Option (List UInt8 × Bool)}
    (h : (cs.foldl (VarCall.effect name) old).isSome) :
    old.isSome ∨ ∃ n value exported, .setVariable n value exported ∈ cs ∧ n.bytes = name := by
  induction cs generalizing old with
  | nil => exact Or.inl h
  | cons c cs ih =>
      rcases ih h with hold | ⟨n, value, exported, hmem, hn⟩
      · cases c with
        | setVariable n value exported =>
            rcases eq_or_ne n.bytes name with hn | hn
            · exact Or.inr ⟨n, value, exported, List.mem_cons_self, hn⟩
            · rw [VarCall.effect, if_neg hn] at hold
              exact Or.inl hold
        | unsetVariable n =>
            rw [VarCall.effect] at hold
            split at hold
            · cases hold
            · exact Or.inl hold
        | exportVariable n =>
            rw [VarCall.effect] at hold
            split at hold
            · exact Or.inl (by simpa using hold)
            · exact Or.inl hold
      · exact Or.inr ⟨n, value, exported, List.mem_cons_of_mem c hmem, hn⟩

/-- The name of an entry is one that has been set. -/
theorem set_of_mem_live {vars : Nat → ShellVar} {cs : List VarCall} {var : ShellVar}
    (h : var ∈ ((ShellVars.mk vars 0).calls cs).live) :
    ∃ value exported, .setVariable var.name value exported ∈ cs := by
  have hempty := ShellVars.IsMap.empty vars
  have hmap := hempty.calls cs
  have hlookup := hempty.lookup_calls cs (nameOf var)
  rw [hmap.entries.lookup, KeyedList.lookup_of_mem hmap.entries.distinct h] at hlookup
  have hbound := congrArg Option.isSome hlookup
  rw [Option.map_some, Option.isSome_some] at hbound
  rcases set_of_effects hbound.symm with hnone | ⟨n, value, exported, hmem, hn⟩
  · cases hnone
  · obtain rfl := CharArray.eq_of_bytes hn
    exact ⟨value, exported, ShellVars.accepted_subset _ cs hmem⟩

/-- Whatever the calls are, the array is a finite map. -/
theorem shellVars_calls (vars : Nat → ShellVar) (cs : List VarCall) :
    let t := (ShellVars.mk vars 0).calls cs
    let bound := boundTo ((ShellVars.mk vars 0).accepted cs)
    t.varCount ≤ maxVars ∧ (t.live.map nameOf).Nodup ∧ t.IsMap (Bindings.calls ∅ cs) ∧
      (∀ name, t.getVariable name = (bound (strBytes name)).map Prod.fst) ∧
      (∀ name i, t.findVariable name = some i →
        bound (strBytes name) = some (binding (t.vars i))) ∧
      ∀ c, t.refuses c → t.varCount = maxVars ∧ t.call c = t := by
  intro t bound
  have hempty := ShellVars.IsMap.empty vars
  have hmap : t.IsMap (Bindings.calls ∅ cs) := hempty.calls cs
  have hbound (name : List UInt8) : (Bindings.calls ∅ cs).lookup name = bound name :=
    hempty.lookup_calls cs name
  refine ⟨hmap.count, hmap.entries.distinct, hmap, ?_, ?_, ?_⟩
  · intro name
    rw [hmap.getVariable, hbound]
  · intro name i hfind
    rw [← hbound, hmap.lookup_some hfind]
  · intro c hc
    refine ⟨?_, call_of_refuses hc⟩
    cases c with
    | setVariable name value exported =>
        exact Nat.le_antisymm hmap.count ((refuses_setVariable name value exported).mp hc).2
    | unsetVariable name => cases hc
    | exportVariable name => cases hc

end BoundTo

end Punix
