import Punix.Bin.ShellVariables
import Punix.Kernel.DecimalText
import Punix.Lib.NulStrings

/-!
`expand_variables` of the shell (`sh.c`). What it leaves in the string are the first
`LINE_MAX - 1` characters of the expansion. A write outside of the two buffers fails.
-/

namespace Punix

open Lib Lib.Cells Lib.NulStrings Format

def dollar : UInt8 := 36
def questionMark : UInt8 := 63
def exclamationMark : UInt8 := 33

/-- What is put for `$NAME`, `$?`, `$$` and `$!`. -/
structure ShellValues where
  vars : ShellVars
  lastExitStatus : BitVec 32
  shellPid : BitVec 32
  lastBgPid : BitVec 32

/-- `for (p = s; *p && (dst - buf) < LINE_MAX - 1; p++)`, with `dst - buf`. -/
def copyToBuf (s : List UInt8) (buf : Nat → UInt8) (dst : Nat) : Option ((Nat → UInt8) × Nat) :=
  copyBelow lineMax (lineMax - 1) s buf dst

/-- `snprintf(num, sizeof(num), "%d", v)`. -/
def printInt (num : Nat → UInt8) (v : BitVec 32) : Option (Nat → UInt8) :=
  (vsnprintf num 16 (cstr "%d") { words := fun _ => v, strings := fun _ => [] }).map Printed.buf

/-- The branches for `$?`, `$$` and `$!`; `num` is what the array `num` holds before. -/
def expandInt (num : Nat → UInt8) (v : BitVec 32) (buf : Nat → UInt8) (dst : Nat) :
    Option ((Nat → UInt8) × Nat) := do
  let num ← printInt num v
  let text ← textIn 16 num
  copyToBuf text buf dst

/-- The loop over a name: `varname`, of which only the first characters are kept, and `src`. -/
def collectName : List UInt8 → List UInt8 → List UInt8 × List UInt8
  | varname, [] => (varname, [])
  | varname, c :: src =>
      if nameChar c then
        collectName (if varname.length < maxVarName - 1 then varname ++ [c] else varname) src
      else (varname, c :: src)

/-- `while (*src && (dst - buf) < LINE_MAX - 1)`. Every iteration takes at least one character. -/
def expandLoop (sh : ShellValues) (num : Nat → UInt8) :
    Nat → List UInt8 → (Nat → UInt8) → Nat → Option ((Nat → UInt8) × Nat)
  | _, [], buf, dst => some (buf, dst)
  | 0, _ :: _, _, _ => none
  | fuel + 1, c :: src, buf, dst =>
      if dst < lineMax - 1 then
        if c = dollar then
          if src.head? = some questionMark then do
            let (buf, dst) ← expandInt num sh.lastExitStatus buf dst
            expandLoop sh num fuel src.tail buf dst
          else if src.head? = some dollar then do
            let (buf, dst) ← expandInt num sh.shellPid buf dst
            expandLoop sh num fuel src.tail buf dst
          else if src.head? = some exclamationMark then do
            let (buf, dst) ← expandInt num sh.lastBgPid buf dst
            expandLoop sh num fuel src.tail buf dst
          else if src.head?.any nameStart then
            let (varname, src) := collectName [] src
            match sh.vars.getVariable varname with
            | some value => do
                let (buf, dst) ← copyToBuf value buf dst
                expandLoop sh num fuel src buf dst
            | none => expandLoop sh num fuel src buf dst
          else do
            let buf ← storeIn lineMax buf dst c
            expandLoop sh num fuel src buf (dst + 1)
        else do
          let buf ← storeIn lineMax buf dst c
          expandLoop sh num fuel src buf (dst + 1)
      else some (buf, dst)

/-- `expand_variables`, with what is left in `buf` and in the string. -/
def expandVariables (sh : ShellValues) (num buf str : Nat → UInt8) :
    Option ((Nat → UInt8) × (Nat → UInt8)) := do
  let src ← textIn lineMax str
  let (buf, dst) ← expandLoop sh num src.length src buf 0
  let buf ← storeIn lineMax buf dst 0
  let str ← strcpyIn lineMax str lineMax buf
  some (buf, str)

/-- The decimal text of an `int`. -/
def decimalText (v : BitVec 32) : List UInt8 :=
  (if v.toInt < 0 then [minus] else []) ++ number 10 decDigit v.toInt.natAbs

/-- The value of a variable, which is empty when it is not set. The first `MAX_VAR_NAME - 1`
characters of its name count. -/
def variableText (sh : ShellValues) (name : List UInt8) : List UInt8 :=
  (sh.vars.getVariable (name.take (maxVarName - 1))).getD []

/-- The text with its variables expanded, from left to right. What is put for one of them is not
looked at again. -/
def expansion (sh : ShellValues) : List UInt8 → List UInt8
  | [] => []
  | c :: src =>
      if c = dollar then
        if src.head? = some questionMark then
          decimalText sh.lastExitStatus ++ expansion sh src.tail
        else if src.head? = some dollar then decimalText sh.shellPid ++ expansion sh src.tail
        else if src.head? = some exclamationMark then
          decimalText sh.lastBgPid ++ expansion sh src.tail
        else if src.head?.any nameStart then
          variableText sh (src.takeWhile nameChar) ++ expansion sh (src.dropWhile nameChar)
        else dollar :: expansion sh src
      else c :: expansion sh src
termination_by s => s.length
decreasing_by
  all_goals
    simp only [List.length_cons, List.length_tail]
    first | omega | exact Nat.lt_succ_of_le (List.dropWhile_sublist _).length_le

section Texts

variable {sh : ShellValues} {num buf : Nat → UInt8} {written : List UInt8}

/-- `%d`. -/
def signedDirective : Directive := .bare .int (.signed false)

theorem text_signedDirective (ap : VaList) :
    text ap 0 [.directive signedDirective] = decimalText (ap.words 0) := by
  simp [text, Item.text, Directive.text, signedDirective, Directive.bare, Directive.width,
    decimalValue, field, Directive.sign, Directive.signedArg, decimalText]

theorem noNul_decimalText (v : BitVec 32) : 0 ∉ decimalText v := by
  intro hmem
  rcases List.mem_append.mp hmem with hsign | hdigit
  · split at hsign
    · exact absurd (List.mem_singleton.mp hsign) (by decide)
    · cases hsign
  · exact absurd (isDigit_number hdigit) (by decide)

theorem length_decimalText_le (v : BitVec 32) : (decimalText v).length ≤ 11 := by
  have hsign : (if v.toInt < 0 then [minus] else []).length ≤ 1 := by split <;> simp
  have habs : v.toInt.natAbs < 10 ^ 10 := by
    have hle := v.toInt_le
    have hge := v.le_toInt
    omega
  have hdigits : (number 10 decDigit v.toInt.natAbs).length ≤ 10 := by
    rw [number]
    split
    · decide
    · rw [List.length_map, List.length_reverse]
      exact (Nat.digits_length_le_iff (by decide) _).mpr habs
  rw [decimalText, List.length_append]
  omega

/-- The array `num` is long enough for every `int`. -/
theorem printInt_holds (num : Nat → UInt8) (v : BitVec 32) :
    ∃ num', printInt num v = some num' ∧ Holds 16 num' (decimalText v) := by
  have hlen := length_decimalText_le v
  have htext := text_signedDirective { words := fun _ => v, strings := fun _ => [] }
  have hplain : Along (Item.Plain false { words := fun _ => v, strings := fun _ => [] })
      { words := fun _ => v, strings := fun _ => [] } 0 ((16 : BitVec 32).toNat - 1)
      [.directive signedDirective] := by
    refine ⟨by decide, ⟨by decide, Or.inr (Or.inr ?_)⟩, trivial⟩
    exact Nat.zero_le _
  obtain ⟨p, hp, hok⟩ := (prescribed_iff (f := libcFormatter) false rfl num (by decide)).mpr
    ⟨by rw [htext]; exact hlen.trans_lt (by decide),
      by rw [htext]; exact hlen.trans_lt (by decide), hplain⟩
  have hprint : printInt num v = some p.buf := by
    rw [printInt, vsnprintf]
    exact congrArg (Option.map Printed.buf) hp
  refine ⟨p.buf, hprint, ⟨?_, ?_, noNul_decimalText v, hlen.trans_lt (by decide)⟩⟩
  · intro i hi
    refine hok.bytes i ((hi.trans_le hlen).trans (by decide)) _ ?_
    rw [htext]
    exact List.getElem?_eq_getElem hi
  · have hnul := hok.nul
    rwa [htext, Nat.min_eq_left (hlen.trans (by decide))] at hnul

/-- The first characters of a name are kept, and all of it is taken. -/
theorem collectName_eq (varname src : List UInt8) (h : varname.length ≤ maxVarName - 1) :
    collectName varname src =
      ((varname ++ src.takeWhile nameChar).take (maxVarName - 1), src.dropWhile nameChar) := by
  induction src generalizing varname with
  | nil => rw [collectName, List.takeWhile_nil, List.append_nil, List.take_of_length_le h,
      List.dropWhile_nil]
  | cons c src ih =>
      rw [collectName]
      split
      · next hc =>
          rw [List.takeWhile_cons_of_pos hc, List.dropWhile_cons_of_pos hc]
          split
          · next hroom =>
              rw [ih _ (by simpa using hroom), List.append_assoc, List.singleton_append]
          · next hfull =>
              have hlen : varname.length = maxVarName - 1 := Nat.le_antisymm h (Nat.not_lt.mp hfull)
              rw [ih _ h, ← hlen, List.take_left, List.take_left]
      · next hc =>
          rw [List.takeWhile_cons_of_neg hc, List.dropWhile_cons_of_neg hc, List.append_nil,
            List.take_of_length_le h]

theorem noNul_variableText (sh : ShellValues) (name : List UInt8) : 0 ∉ variableText sh name := by
  rw [variableText, ShellVars.getVariable]
  cases sh.vars.findVariable (name.take (maxVarName - 1)) with
  | none => exact List.not_mem_nil
  | some idx => exact (sh.vars.vars idx).value.noNul

/-- No form of expansion puts a NUL. -/
theorem noNul_expansion (sh : ShellValues) {s : List UInt8} (h : 0 ∉ s) : 0 ∉ expansion sh s := by
  fun_induction expansion sh s with
  | case1 => exact List.not_mem_nil
  | case2 src _ ih | case3 src _ _ ih | case4 src _ _ _ ih =>
      rw [List.mem_append, not_or]
      refine ⟨noNul_decimalText _, ih fun hmem => h ?_⟩
      exact List.mem_cons_of_mem dollar (List.mem_of_mem_tail hmem)
  | case5 src _ _ _ _ ih =>
      rw [List.mem_append, not_or]
      refine ⟨noNul_variableText sh _, ih fun hmem => h ?_⟩
      exact List.mem_cons_of_mem dollar ((List.dropWhile_sublist _).subset hmem)
  | case6 src _ _ _ _ ih | case7 c src _ ih =>
      rw [List.mem_cons, not_or] at h ⊢
      exact ⟨h.1, ih h.2⟩

end Texts

/-- The buffer holds the beginning of the text, up to `LINE_MAX - 1` characters, and `dst` is
behind it. -/
def Yields (r : Option ((Nat → UInt8) × Nat)) (text : List UInt8) : Prop :=
  ∃ buf, r = some (buf, (text.take (lineMax - 1)).length) ∧ Begins buf (text.take (lineMax - 1))

section Yields

variable {sh : ShellValues} {num buf : Nat → UInt8} {written s t : List UInt8}

/-- What is written behind a text that has been cut off is cut off as well. -/
theorem take_take_append (n : Nat) (s t : List UInt8) : (s.take n ++ t).take n = (s ++ t).take n := by
  rw [List.take_append, List.take_append, List.take_take, Nat.min_self, List.length_take]
  congr 2
  omega

theorem yields_of_begins (h : Begins buf written) (hlen : written.length ≤ lineMax - 1) :
    Yields (some (buf, written.length)) written :=
  ⟨buf, by rw [List.take_of_length_le hlen], by rwa [List.take_of_length_le hlen]⟩

/-- When the buffer is full, what is left is cut off. -/
theorem yields_of_full (h : Begins buf written) (hlen : written.length = lineMax - 1)
    (t : List UInt8) : Yields (some (buf, written.length)) (written ++ t) := by
  have hfull : (written ++ t).take (lineMax - 1) = written := by rw [← hlen, List.take_left]
  exact ⟨buf, by rw [hfull], by rwa [hfull]⟩

theorem copyToBuf_yields (h : Begins buf written) (hlen : written.length ≤ lineMax - 1)
    (s : List UInt8) : Yields (copyToBuf s buf written.length) (written ++ s) :=
  h.copyBelow hlen (Nat.sub_le lineMax 1)

theorem Yields.bind {r : Option ((Nat → UInt8) × Nat)}
    {next : (Nat → UInt8) × Nat → Option ((Nat → UInt8) × Nat)} (h : Yields r s)
    (hnext : ∀ buf written, Begins buf written → written.length ≤ lineMax - 1 →
      Yields (next (buf, written.length)) (written ++ t)) : Yields (r.bind next) (s ++ t) := by
  obtain ⟨buf, rfl, hbegins⟩ := h
  obtain ⟨buf', hrun, hbegins'⟩ := hnext buf _ hbegins (List.length_take_le _ _)
  rw [take_take_append] at hrun hbegins'
  exact ⟨buf', hrun, hbegins'⟩

theorem expandInt_yields (h : Begins buf written) (hlen : written.length ≤ lineMax - 1)
    (num : Nat → UInt8) (v : BitVec 32) :
    Yields (expandInt num v buf written.length) (written ++ decimalText v) := by
  obtain ⟨num', hprint, hholds⟩ := printInt_holds num v
  rw [expandInt, hprint, Option.bind_eq_bind, Option.bind_some, hholds.textIn, Option.bind_eq_bind,
    Option.bind_some]
  exact copyToBuf_yields h hlen _

/-- The step lemma and the run lemma of the loop in one: it is left with the whole expansion, or
with as much of it as the buffer holds. -/
theorem expandLoop_yields {fuel : Nat} {src : List UInt8} (hfuel : src.length ≤ fuel)
    (h : Begins buf written) (hlen : written.length ≤ lineMax - 1) :
    Yields (expandLoop sh num fuel src buf written.length) (written ++ expansion sh src) := by
  induction fuel generalizing src buf written with
  | zero =>
      obtain rfl := List.length_eq_zero_iff.mp (Nat.le_zero.mp hfuel)
      rw [expandLoop, expansion, List.append_nil]
      exact yields_of_begins h hlen
  | succ fuel ih =>
      cases src with
      | nil =>
          rw [expandLoop, expansion, List.append_nil]
          exact yields_of_begins h hlen
      | cons c src =>
          have hsrc : src.length ≤ fuel := Nat.le_of_succ_le_succ hfuel
          have htail : src.tail.length ≤ fuel := src.length_tail ▸ (Nat.sub_le _ _).trans hsrc
          rw [expandLoop, expansion]
          split
          · next hroom =>
              have hstore : Yields
                  ((storeIn lineMax buf written.length c).bind fun buf =>
                    expandLoop sh num fuel src buf (written.length + 1))
                  (written ++ c :: expansion sh src) := by
                have hrest := ih hsrc (h.snoc c) (by simpa using hroom)
                rw [storeIn_of_lt (hroom.trans_le (Nat.sub_le _ _)), Option.bind_some]
                rwa [List.length_append, List.length_singleton, List.append_assoc,
                  List.singleton_append] at hrest
              split
              · next hc =>
                  split_ifs with hq hd he hn
                  · rw [← List.append_assoc]
                    refine (expandInt_yields h hlen num _).bind ?_
                    exact fun _ _ => ih htail
                  · rw [← List.append_assoc]
                    refine (expandInt_yields h hlen num _).bind ?_
                    exact fun _ _ => ih htail
                  · rw [← List.append_assoc]
                    refine (expandInt_yields h hlen num _).bind ?_
                    exact fun _ _ => ih htail
                  · have hrest : (src.dropWhile nameChar).length ≤ fuel :=
                      (List.dropWhile_sublist _).length_le.trans hsrc
                    rw [collectName_eq [] src (Nat.zero_le _), List.nil_append, variableText]
                    dsimp only
                    cases sh.vars.getVariable ((src.takeWhile nameChar).take (maxVarName - 1)) with
                    | some value =>
                        rw [← List.append_assoc]
                        refine (copyToBuf_yields h hlen value).bind ?_
                        exact fun _ _ => ih hrest
                    | none => exact ih hrest h hlen
                  · exact hc ▸ hstore
              · exact hstore
          · next hfull =>
              exact yields_of_full h (Nat.le_antisymm hlen (Nat.not_lt.mp hfull)) _

end Yields

/-- The string is replaced by the first `LINE_MAX - 1` characters of its expansion. -/
theorem expandVariables_expansion (sh : ShellValues) {str : Nat → UInt8} {s : List UInt8}
    (h : Holds lineMax str s) (num buf : Nat → UInt8) :
    ∃ buf' str', expandVariables sh num buf str = some (buf', str') ∧
      Holds lineMax str' ((expansion sh s).take (lineMax - 1)) := by
  have hyields : Yields (expandLoop sh num s.length s buf 0) (expansion sh s) :=
    expandLoop_yields le_rfl (Begins.nil buf) (Nat.zero_le _)
  obtain ⟨buf₁, hloop, hbegins⟩ := hyields
  have hlen : ((expansion sh s).take (lineMax - 1)).length < lineMax :=
    (List.length_take_le _ _).trans_lt (by decide)
  have hbuf := hbegins.holds (fun hmem => noNul_expansion sh h.noNul (List.mem_of_mem_take hmem)) hlen
  obtain ⟨str', hcopy, hstr, -⟩ := hbuf.strcpyIn hlen str
  refine ⟨Function.update buf₁ ((expansion sh s).take (lineMax - 1)).length 0, str', ?_, hstr⟩
  rw [expandVariables, h.textIn]
  simp only [Option.bind_eq_bind, Option.bind_some, hloop, storeIn_of_lt hlen, hcopy]

/-- A name ends at the first character that cannot be in one, a `$` may stand for itself, and a
dollar sign in a value is not looked at again. -/
theorem expandVariables_forms :
    let var : ShellVar :=
      { name := CharArray.ofBytes maxVarName (cstr "A_1")
        value := CharArray.ofBytes maxVarValue (cstr "$?"), exported := 0 }
    let sh : ShellValues :=
      { vars := { vars := fun _ => var, varCount := 1 }
        lastExitStatus := -1, shellPid := 0, lastBgPid := BitVec.intMin 32 }
    let str (i : Nat) : UInt8 := (cstr "$A_1.$?$B$!$5").getD i 0
    ∃ buf' str', expandVariables sh (fun _ => 7) (fun _ => 7) str = some (buf', str') ∧
      Holds lineMax str' (cstr "$?.-1-2147483648$5") := by
  intro var sh str
  have hstr : Holds lineMax str (cstr "$A_1.$?$B$!$5") :=
    ⟨by unfold Begins; decide, by decide, by decide, by decide⟩
  have hexpansion : (expansion sh (cstr "$A_1.$?$B$!$5")).take (lineMax - 1) =
      cstr "$?.-1-2147483648$5" := by
    have hstatus : decimalText sh.lastExitStatus = cstr "-1" := by decide
    have hbg : decimalText sh.lastBgPid = cstr "-2147483648" := by decide
    change (expansion sh [36, 65, 95, 49, 46, 36, 63, 36, 66, 36, 33, 36, 53]).take _ = _
    simp +decide only [expansion, hstatus, hbg, variableText, List.tail_cons, List.takeWhile_cons,
      List.dropWhile_cons, List.dropWhile_nil, if_true, if_false]
    decide
  rw [← hexpansion]
  exact expandVariables_expansion sh hstr _ _

end Punix
