import Punix.Kernel.Printf
import Punix.Lib.Cells
import Punix.Lib.Words

/-!
`parse_arguments` of the shell (`sh.c`), which copies the words of a line to slots of a static
buffer. There are at most `max_args` of them; what is left of the line is not looked at. A write
outside of the buffer or of the array of pointers fails.
-/

namespace Punix

open Lib.Cells Lib.Words

def doubleQuote : UInt8 := 34

/-- `LINE_MAX` of `sh.c`. -/
abbrev lineMax : Nat := 128

/-- The bytes of `arg_buf`. -/
abbrev argBufSize : Nat := 16 * lineMax

/-- `arg_buf`, slot behind slot, and `cmd_argv`, an array of 16 pointers into it, which may be
`NULL`. -/
structure ArgMem where
  argBuf : Nat → UInt8
  argv : Nat → Option Nat

/-- `while (*src)`: one argument, with the rest of the line and `dst`. -/
def collectArgument :
    List UInt8 → Bool → Nat → (Nat → UInt8) → Option (List UInt8 × Nat × (Nat → UInt8))
  | [], _, dst, buf => some ([], dst, buf)
  | c :: src, inQuotes, dst, buf =>
      if c = doubleQuote then collectArgument src (!inQuotes) dst buf
      else if !inQuotes ∧ c = space then some (c :: src, dst, buf)
      else (storeIn argBufSize buf dst c).bind fun buf => collectArgument src inQuotes (dst + 1) buf

/-- `while (*src && argc < max_args)`, with `max_args - argc`. -/
def argumentLoop : Nat → List UInt8 → Nat → ArgMem → Option (Nat × ArgMem)
  | 0, _, argc, mem => some (argc, mem)
  | left + 1, src, argc, mem =>
      if src = [] then some (argc, mem)
      else
        match src.dropWhile (· = space) with
        | [] => some (argc, mem)
        | c :: rest => do
            let (src, dst, buf) ← collectArgument (c :: rest) false (argc * lineMax) mem.argBuf
            let argBuf ← storeIn argBufSize buf dst 0
            let argv ← storeIn 16 mem.argv argc (some (argc * lineMax))
            argumentLoop left src (argc + 1) { argBuf, argv }

/-- `parse_arguments`. -/
def parseArguments (line : List UInt8) (maxArgs : Nat) (mem : ArgMem) : Option (Nat × ArgMem) :=
  argumentLoop maxArgs line 0 mem

/-- The first lines of `process_command`. -/
def commandArguments (line : List UInt8) (mem : ArgMem) : Option (Nat × ArgMem) := do
  let (cmdArgc, mem) ← parseArguments line 15 mem
  let argv ← storeIn 16 mem.argv cmdArgc none
  some (cmdArgc, { mem with argv })

/-- The words of a command line. -/
def commandWords (line : List UInt8) : List (List UInt8) := words space doubleQuote line

/-- A text and its NUL. -/
structure TextAt (buf : Nat → UInt8) (p : Nat) (s : List UInt8) : Prop where
  byte : ∀ i c, s[i]? = some c → buf (p + i) = c
  nul : buf (p + s.length) = 0
  nonzero : 0 ∉ s

/-- The first `argc` pointers are those to the words, each in a slot of its own. -/
structure Passes (mem : ArgMem) (argc : Nat) (ws : List (List UInt8)) : Prop where
  argc : argc = ws.length
  arg : ∀ i w, ws[i]? = some w → mem.argv i = some (i * lineMax) ∧
    w.length < lineMax ∧ TextAt mem.argBuf (i * lineMax) w

/-- Outside of the first `n` slots and the first `n` pointers. -/
structure SameOutside (n : Nat) (mem mem' : ArgMem) : Prop where
  argBuf : ∀ p, n * lineMax ≤ p → mem'.argBuf p = mem.argBuf p
  argv : ∀ i, n ≤ i → mem'.argv i = mem.argv i

def writeBytes (buf : Nat → UInt8) : Nat → List UInt8 → Nat → UInt8
  | _, [] => buf
  | dst, c :: s => writeBytes (Function.update buf dst c) (dst + 1) s

section Writes

variable {buf : Nat → UInt8} {dst p : Nat} {s : List UInt8}

theorem writeBytes_outside (h : p < dst ∨ dst + s.length ≤ p) : writeBytes buf dst s p = buf p := by
  induction s generalizing buf dst with
  | nil => rfl
  | cons c s ih =>
      rw [List.length_cons] at h
      rw [writeBytes, ih (by omega), Function.update_of_ne (by omega)]

theorem writeBytes_inside {i : Nat} {c : UInt8} (h : s[i]? = some c) :
    writeBytes buf dst s (dst + i) = c := by
  induction s generalizing buf dst i with
  | nil => cases h
  | cons d s ih =>
      cases i with
      | zero =>
          have hfirst : writeBytes (Function.update buf dst d) (dst + 1) s dst = d := by
            rw [writeBytes_outside (Or.inl dst.lt_succ_self), Function.update_self]
          exact hfirst.trans (Option.some.inj h)
      | succ i =>
          rw [writeBytes, ← Nat.add_assoc, Nat.add_right_comm]
          exact ih h

theorem textAt_writeBytes (h : 0 ∉ s) :
    TextAt (Function.update (writeBytes buf dst s) (dst + s.length) 0) dst s := by
  refine ⟨?_, Function.update_self _ _ _, h⟩
  intro i c hc
  have hi := (List.getElem?_eq_some_iff.mp hc).1
  rw [Function.update_of_ne (by omega)]
  exact writeBytes_inside hc

end Writes

theorem space_ne_doubleQuote : space ≠ doubleQuote := by decide

/-- The loop reads up to the end of a word, and writes the word without its quotes. -/
theorem collectArgument_spec (src : List UInt8) (inside : Bool) {dst : Nat} (buf : Nat → UInt8)
    (hroom : dst + src.length ≤ argBufSize) :
    ∃ chunk inside' rest,
      marked doubleQuote inside src = chunk ++ marked doubleQuote inside' rest ∧
      (∀ x ∈ chunk, separates space x = false) ∧ Ends space inside' rest ∧
      collectArgument src inside dst buf =
        some (rest, dst + (plain doubleQuote chunk).length,
          writeBytes buf dst (plain doubleQuote chunk)) := by
  induction src generalizing inside dst buf with
  | nil => exact ⟨[], inside, [], rfl, List.forall_mem_nil _, Or.inl rfl, rfl⟩
  | cons c src ih =>
      rw [List.length_cons] at hroom
      rw [collectArgument]
      rcases eq_or_ne c doubleQuote with rfl | hquote
      · obtain ⟨chunk, inside', rest, hmarked, hfree, hends, hrun⟩ :=
          ih (!inside) buf (show dst + src.length ≤ argBufSize by omega)
        refine ⟨(doubleQuote, inside) :: chunk, inside', rest, ?_, ?_, hends, ?_⟩
        · rw [marked, if_pos rfl, hmarked]
          rfl
        · intro x hx
          rcases List.mem_cons.mp hx with rfl | hx
          · exact decide_eq_false fun h => space_ne_doubleQuote h.1.symm
          · exact hfree x hx
        · rw [if_pos rfl, hrun, plain_cons, if_pos rfl]
      · rw [if_neg hquote]
        split
        · next hspace =>
            obtain ⟨hinside, rfl⟩ := hspace
            obtain rfl : inside = false := by simpa using hinside
            exact ⟨[], false, space :: src, rfl, List.forall_mem_nil _,
              Or.inr ⟨rfl, src, rfl⟩, rfl⟩
        · next hspace =>
            obtain ⟨chunk, inside', rest, hmarked, hfree, hends, hrun⟩ :=
              ih inside (Function.update buf dst c)
                (show dst + 1 + src.length ≤ argBufSize by omega)
            refine ⟨(c, inside) :: chunk, inside', rest, ?_, ?_, hends, ?_⟩
            · rw [marked, if_neg hquote, hmarked]
              rfl
            · intro x hx
              rcases List.mem_cons.mp hx with rfl | hx
              · apply decide_eq_false
                rintro ⟨hc, hin⟩
                obtain rfl : inside = false := hin
                exact hspace ⟨rfl, hc⟩
              · exact hfree x hx
            · rw [storeIn_of_lt (by omega), Option.bind_some, hrun, plain_cons, if_neg hquote,
                List.length_cons, Nat.add_right_comm, Nat.add_assoc]
              rfl

section Arguments

variable {mem mem' : ArgMem} {n k : Nat} {ws : List (List UInt8)} {line src w : List UInt8}

/-- A word in the slot `n`, with its NUL and its pointer. -/
def ArgMem.store (mem : ArgMem) (n : Nat) (w : List UInt8) : ArgMem where
  argBuf := Function.update (writeBytes mem.argBuf (n * lineMax) w) (n * lineMax + w.length) 0
  argv := Function.update mem.argv n (some (n * lineMax))

theorem sameOutside_store (hlen : w.length < lineMax) (hn : n < k) (mem : ArgMem) :
    SameOutside k mem (mem.store n w) := by
  constructor
  · intro p hp
    have hbehind : n * lineMax + lineMax ≤ p := by
      rw [← Nat.succ_mul]
      exact (Nat.mul_le_mul_right lineMax hn).trans hp
    unfold ArgMem.store
    dsimp only
    rw [Function.update_of_ne (by omega), writeBytes_outside (Or.inr (by omega))]
  · intro i hi
    exact Function.update_of_ne (by omega) _ _

theorem SameOutside.refl (k : Nat) (mem : ArgMem) : SameOutside k mem mem :=
  ⟨fun _ _ => rfl, fun _ _ => rfl⟩

theorem SameOutside.trans {mem'' : ArgMem} (h : SameOutside k mem mem')
    (h' : SameOutside k mem' mem'') : SameOutside k mem mem'' :=
  ⟨fun p hp => (h'.argBuf p hp).trans (h.argBuf p hp),
    fun i hi => (h'.argv i hi).trans (h.argv i hi)⟩

/-- One more word, in the slot behind the others. -/
theorem Passes.snoc (h : Passes mem n ws) (hlen : w.length < lineMax) (hnul : 0 ∉ w) :
    Passes (mem.store n w) (n + 1) (ws ++ [w]) := by
  refine ⟨by rw [List.length_append, h.argc, List.length_singleton], ?_⟩
  intro i v hv
  rcases Nat.lt_or_ge i ws.length with hi | hi
  · rw [List.getElem?_append_left hi] at hv
    obtain ⟨hptr, hshort, htext⟩ := h.arg i v hv
    have hslot : i * lineMax + lineMax ≤ n * lineMax := by
      rw [← Nat.succ_mul, h.argc]
      exact Nat.mul_le_mul_right lineMax hi
    have hkeep : ∀ p, p < n * lineMax → Function.update (writeBytes mem.argBuf (n * lineMax) w)
        (n * lineMax + w.length) 0 p = mem.argBuf p := by
      intro p hp
      rw [Function.update_of_ne (by omega), writeBytes_outside (Or.inl hp)]
    refine ⟨?_, hshort, ?_, ?_, htext.nonzero⟩
    · rw [← hptr]
      exact Function.update_of_ne (by rw [h.argc]; exact hi.ne) _ _
    · intro j c hc
      have hj := (List.getElem?_eq_some_iff.mp hc).1
      exact (hkeep _ (by omega)).trans (htext.byte j c hc)
    · exact (hkeep _ (by omega)).trans htext.nul
  · have hlast := (List.getElem?_eq_some_iff.mp hv).1
    rw [List.length_append, List.length_singleton] at hlast
    obtain rfl : i = ws.length := by omega
    rw [List.getElem?_concat_length] at hv
    obtain rfl := Option.some.inj hv
    rw [← h.argc]
    exact ⟨Function.update_self _ _ _, hlen, textAt_writeBytes hnul⟩

/-- The word that the loop reads next. -/
theorem exists_word {c : UInt8} (hc : c ≠ space) {rest : List UInt8} {dst : Nat}
    (buf : Nat → UInt8) (hroom : dst + (c :: rest).length ≤ argBufSize) :
    ∃ w rest', commandWords (c :: rest) = w :: commandWords rest' ∧ (w ++ rest').length ≤
        (c :: rest).length ∧ (∀ d ∈ w ++ rest', d ∈ c :: rest) ∧
      collectArgument (c :: rest) false dst buf =
        some (rest', dst + w.length, writeBytes buf dst w) := by
  obtain ⟨chunk, inside', rest', hmarked, hfree, hends, hrun⟩ :=
    collectArgument_spec (c :: rest) false buf hroom
  have hletters : c :: rest = chunk.map Prod.fst ++ rest' := by
    rw [← map_fst_marked doubleQuote false (c :: rest), hmarked, List.map_append, map_fst_marked]
  have hne : chunk ≠ [] := by
    rintro rfl
    rcases hends with rfl | ⟨-, s, rfl⟩
    · exact List.cons_ne_nil c rest hletters
    · exact hc (List.cons.inj hletters).1
  refine ⟨plain doubleQuote chunk, rest', words_chunk space_ne_doubleQuote hne hfree hends hmarked,
    ?_, ?_, hrun⟩
  · have hle := length_plain_le doubleQuote chunk
    rw [hletters, List.length_append, List.length_append, List.length_map]
    omega
  · intro d hd
    rw [hletters]
    rcases List.mem_append.mp hd with hw | hr
    · exact List.mem_append_left rest' (mem_of_mem_plain hw)
    · exact List.mem_append_right _ hr

/-- The loop stores the words of the rest of the line, as many as there is room for. -/
theorem argumentLoop_spec {left : Nat} (hleft : n + left ≤ 15) (hlen : src.length < lineMax)
    (hnul : 0 ∉ src) (h : Passes mem n ws) :
    ∃ argc mem', argumentLoop left src n mem = some (argc, mem') ∧
      Passes mem' argc (ws ++ (commandWords src).take left) ∧
      SameOutside (n + left) mem mem' := by
  induction left generalizing src n mem ws with
  | zero =>
      rw [List.take_zero, List.append_nil]
      exact ⟨n, mem, rfl, h, .refl _ mem⟩
  | succ left ih =>
      have hskip : commandWords (src.dropWhile (· = space)) = commandWords src :=
        words_dropWhile space_ne_doubleQuote src
      have hsub : (src.dropWhile (· = space)).Sublist src := List.dropWhile_sublist _
      rw [argumentLoop]
      split
      · next hnil =>
          have hwords : commandWords src = [] := by
            rw [hnil]
            rfl
          rw [hwords, List.take_nil, List.append_nil]
          exact ⟨n, mem, rfl, h, .refl _ mem⟩
      · split
        · next hnil =>
            have hwords : commandWords src = [] := by
              rw [← hskip, hnil]
              rfl
            rw [hwords, List.take_nil, List.append_nil]
            exact ⟨n, mem, rfl, h, .refl _ mem⟩
        · next c rest hcons =>
            have hc : c ≠ space := by
              intro hc
              have hhead := List.head?_dropWhile_not (· = space) src
              rw [hcons] at hhead
              exact absurd hhead (by simp [hc])
            rw [hcons] at hskip hsub
            have hslot : n * lineMax + lineMax ≤ argBufSize := by
              rw [← Nat.succ_mul]
              exact Nat.mul_le_mul_right lineMax (by omega)
            have hline := hsub.length_le
            obtain ⟨w, rest', hwords, hle, hmem, hrun⟩ :=
              exists_word hc mem.argBuf (show n * lineMax + (c :: rest).length ≤ argBufSize by omega)
            have hshort := hle.trans hline
            rw [List.length_append] at hshort
            have hnul' : ∀ d ∈ w ++ rest', d ≠ 0 := by
              rintro d hd rfl
              exact hnul (hsub.subset (hmem 0 hd))
            have hstep := h.snoc (show w.length < lineMax by omega)
              (fun hw => hnul' 0 (List.mem_append_left rest' hw) rfl)
            obtain ⟨argc, mem', hloop, hpasses, hsame⟩ := ih (n := n + 1) (by omega) (by omega)
              (fun hr => hnul' 0 (List.mem_append_right w hr) rfl) hstep
            rw [Nat.add_right_comm, Nat.add_assoc] at hsame
            have hpointer := storeIn_of_lt (show n < 16 by omega) mem.argv
              (some (n * lineMax))
            have hend := storeIn_of_lt (show n * lineMax + w.length < argBufSize by omega)
              (writeBytes mem.argBuf (n * lineMax) w) 0
            refine ⟨argc, mem', ?_, ?_, (sameOutside_store (by omega) (by omega) mem).trans hsame⟩
            · rw [hrun]
              simp only [Option.bind_eq_bind, Option.bind_some, hend, hpointer]
              exact hloop
            · rw [← hskip, hwords, List.take_succ_cons, ← List.singleton_append, ← List.append_assoc]
              exact hpasses

/-- The arguments of a command are the first fifteen words of its line, each one whole and in a
slot of its own, and behind them is a `NULL`. -/
theorem commandArguments_passes (hlen : line.length ≤ lineMax - 1) (hnul : 0 ∉ line)
    (mem : ArgMem) :
    ∃ argc mem', commandArguments line mem = some (argc, mem') ∧
      Passes mem' argc ((commandWords line).take 15) ∧ mem'.argv argc = none ∧
      SameOutside 16 mem mem' := by
  have hstart : Passes mem 0 [] := ⟨rfl, fun i w hw => by cases hw⟩
  obtain ⟨argc, mem', hloop, hpasses, hsame⟩ :=
    argumentLoop_spec (Nat.zero_add 15).le (Nat.lt_succ_of_le hlen) hnul hstart
  rw [List.nil_append] at hpasses
  have hcount : argc ≤ 15 := by
    rw [hpasses.argc]
    exact List.length_take_le 15 _
  refine ⟨argc, { mem' with argv := Function.update mem'.argv argc none }, ?_, ⟨hpasses.argc, ?_⟩,
    Function.update_self _ _ _, ?_, ?_⟩
  · have hlast := storeIn_of_lt (show argc < 16 by omega) mem'.argv none
    simp only [commandArguments, parseArguments, hloop, Option.bind_eq_bind, Option.bind_some, hlast]
  · intro i w hw
    have hi := (List.getElem?_eq_some_iff.mp hw).1
    obtain ⟨hptr, hshort, htext⟩ := hpasses.arg i w hw
    refine ⟨?_, hshort, htext⟩
    rw [← hptr]
    have hne : i ≠ argc := by
      rw [hpasses.argc]
      exact hi.ne
    exact Function.update_of_ne hne _ _
  · intro p hp
    exact hsame.argBuf p ((Nat.mul_le_mul_right lineMax (by decide)).trans hp)
  · intro i hi
    have hne : i ≠ argc := by omega
    exact (Function.update_of_ne hne _ _).trans (hsame.argv i (by omega))

/-- Words with quotes in them, an empty one, and a quote that is not closed. -/
def quotedLine : List UInt8 := cstr "echo a\"b c\" \"\"  \"d "

def sixteenWords : List UInt8 := cstr "a a a a a a a a a a a a a a a a"

def freshArgs : ArgMem where
  argBuf _ := 0
  argv _ := none

theorem commandArguments_passes_quoted :
    ∃ argc mem', commandArguments quotedLine freshArgs = some (argc, mem') ∧
      Passes mem' argc ((commandWords quotedLine).take 15) ∧ mem'.argv argc = none ∧
      SameOutside 16 freshArgs mem' :=
  commandArguments_passes (by decide) (by decide) freshArgs

example : commandWords quotedLine = [cstr "echo", cstr "ab c", [], cstr "d "] := by
  decide +kernel

/-- Of sixteen words the last one is dropped. -/
theorem commandArguments_sixteen :
    sixteenWords.length ≤ lineMax - 1 ∧ 0 ∉ sixteenWords ∧
      ¬ ∃ argc mem', commandArguments sixteenWords freshArgs = some (argc, mem') ∧
        Passes mem' argc (commandWords sixteenWords) := by
  refine ⟨by decide, by decide, ?_⟩
  rintro ⟨argc, mem', hrun, hpasses⟩
  have hfifteen : (commandArguments sixteenWords freshArgs).map Prod.fst = some 15 := by
    decide +kernel
  rw [hrun] at hfifteen
  have hargc : argc = 15 := Option.some.inj hfifteen
  exact absurd (hargc.symm.trans hpasses.argc) (by decide +kernel)

end Arguments

end Punix
