import Punix.Kernel.Decimal
import Punix.Kernel.Pids
import Punix.Fs.Lookup

/-!
Numbers in the paths of `/proc`. The pid in a path is the digits behind
`/proc/`, and the descriptor what `k_atoi` makes of the string behind the first
`/fd/`. Both are accumulated in an `int`, so that what is looked up is the number
modulo `2 ^ 32`.
-/

namespace Punix

/-- A string of digits. -/
structure Digits (s : List UInt8) : Prop where
  ne_nil : s ≠ []
  all : ∀ c ∈ s, isDigit c

instance (s : List UInt8) : Decidable (Digits s) :=
  decidable_of_iff (s ≠ [] ∧ s.all isDigit)
    ⟨fun h => ⟨h.1, List.all_eq_true.mp h.2⟩, fun h => ⟨h.ne_nil, List.all_eq_true.mpr h.all⟩⟩

/-- A path that begins with the pid that `digits` spell. -/
def digitsPath (digits rest : List UInt8) : List UInt8 := cstr "/proc/" ++ digits ++ rest

/-- The digits are all of a component: the path ends behind them, or a separator follows. -/
def ComponentEnds (rest : List UInt8) : Prop := rest.headD 0 = 0 ∨ rest.headD 0 = slash

instance (rest : List UInt8) : Decidable (ComponentEnds rest) :=
  inferInstanceAs (Decidable (rest.headD 0 = 0 ∨ rest.headD 0 = slash))

theorem ComponentEnds.not_isDigit {rest : List UInt8} (h : ComponentEnds rest) :
    ¬ isDigit (rest.headD 0) := by
  rcases h with h | h
  · rw [h]
    decide
  · rw [h]
    decide

section Path

variable {digits rest : List UInt8}

theorem Digits.headD (h : Digits digits) (rest : List UInt8) : isDigit ((digits ++ rest).headD 0) := by
  obtain ⟨c, digits, rfl⟩ := List.exists_cons_of_ne_nil h.ne_nil
  exact h.all c List.mem_cons_self

theorem drop_digitsPath : (digitsPath digits rest).drop 6 = digits ++ rest := by
  rw [digitsPath, List.append_assoc]
  exact List.drop_left' rfl

theorem skipPid_digitsPath (h : Digits digits) (hrest : ¬ isDigit (rest.headD 0)) :
    skipPid (digitsPath digits rest) = rest := by
  rw [skipPid, drop_digitsPath, dropWhile_digits h.all hrest]

theorem kStrncmp_digitsPath : kStrncmp 6 (digitsPath digits rest) (cstr "/proc/") = 0 := by
  have hnul : 0 ∉ cstr "/proc/" := by decide
  refine (kStrncmp_eq_zero hnul).mpr ?_
  rw [digitsPath, List.append_assoc]
  exact List.prefix_append _ _

theorem procPathToPid_digitsPath (h : Digits digits) (hrest : ¬ isDigit (rest.headD 0)) :
    procPathToPid (digitsPath digits rest) =
      if ComponentEnds rest then asInt (decimalValue digits) else pidNone := by
  have hslash : (digitsPath digits rest).headD 0 = slash := rfl
  have hfirst := h.headD rest
  have hends : (rest.headD 0 ≠ 0 ∧ rest.headD 0 ≠ slash) ↔ ¬ ComponentEnds rest := by
    rw [ComponentEnds, not_or]
  unfold procPathToPid
  simp only [hslash, kStrncmp_digitsPath, drop_digitsPath, skipPid_digitsPath h hrest, hfirst,
    kAtoi_digits h.all hrest, hends, ne_eq, not_true_eq_false, if_false]
  split_ifs <;> rfl

/-- Only such paths have a pid. -/
theorem exists_digitsPath {path : List UInt8} (h : procPathToPid path ≠ pidNone) :
    ∃ digits rest, path = digitsPath digits rest ∧ Digits digits ∧ ComponentEnds rest := by
  unfold procPathToPid at h
  split at h
  · exact absurd rfl h
  split at h
  · exact absurd rfl h
  next hproc =>
  have hnul : 0 ∉ cstr "/proc/" := by decide
  obtain ⟨tail, rfl⟩ := (kStrncmp_eq_zero hnul).mp (not_not.mp hproc)
  have hdrop : (cstr "/proc/" ++ tail).drop 6 = tail := List.drop_left' rfl
  have hskip : skipPid (cstr "/proc/" ++ tail) = tail.dropWhile isDigit := by
    rw [skipPid, hdrop]
  rw [hdrop, hskip] at h
  dsimp only at h
  split at h
  · exact absurd rfl h
  next hdigit =>
  split at h
  · exact absurd rfl h
  next hends =>
  refine ⟨tail.takeWhile isDigit, tail.dropWhile isDigit, ?_, ⟨?_, ?_⟩, ?_⟩
  · rw [digitsPath, List.append_assoc, List.takeWhile_append_dropWhile]
  · cases tail with
    | nil => exact absurd (not_not.mp hdigit) (by decide)
    | cons c tail =>
        have hfirst : isDigit c := not_not.mp hdigit
        rw [List.takeWhile_cons_of_pos hfirst]
        exact List.cons_ne_nil _ _
  · exact fun c hc => List.mem_takeWhile_imp hc
  · rw [ComponentEnds]
    tauto

/-- A path is split behind its pid in one way only. -/
theorem digitsPath_inj {digits' rest' : List UInt8} (h : Digits digits) (h' : Digits digits')
    (hrest : ¬ isDigit (rest.headD 0)) (hrest' : ¬ isDigit (rest'.headD 0))
    (heq : digitsPath digits rest = digitsPath digits' rest') : digits = digits' ∧ rest = rest' := by
  have hrests := congrArg skipPid heq
  rw [skipPid_digitsPath h hrest, skipPid_digitsPath h' hrest'] at hrests
  subst hrests
  have hfronts := congrArg (List.drop 6) heq
  rw [drop_digitsPath, drop_digitsPath] at hfronts
  exact ⟨List.append_cancel_right hfronts, rfl⟩

theorem digitsPath_ne {name : List UInt8} (h : Digits digits)
    (hname : ¬ isDigit ((name.drop 6).headD 0)) : digitsPath digits rest ≠ name := by
  rintro rfl
  rw [drop_digitsPath] at hname
  exact hname (h.headD rest)

theorem kStrstr_skip {needle s : List UInt8} {x : UInt8} (hx : x ≠ 0) (hne : needle ≠ [])
    (h : ¬ needle <+: x :: s) : kStrstr (x :: s) needle = kStrstr s needle := by
  have hstr : strBytes (x :: s) = x :: strBytes s := List.takeWhile_cons_of_pos (by simpa using hx)
  have hnot : ¬ needle <+: x :: strBytes s := fun hpre =>
    h (hpre.trans (List.cons_prefix_cons.mpr ⟨rfl, List.takeWhile_prefix _⟩))
  simp only [kStrstr, if_neg hne, hstr, List.tails_cons]
  rw [List.find?_cons_of_neg]
  simpa using hnot

theorem kStrstr_append {needle : List UInt8} (hne : needle ≠ []) (hnul : 0 ∉ needle ++ rest) :
    kStrstr (needle ++ rest) needle = some (needle ++ rest) := by
  rw [kStrstr, if_neg hne, strBytes_eq_self hnul]
  obtain ⟨x, needle, rfl⟩ := List.exists_cons_of_ne_nil hne
  rw [List.cons_append, List.tails_cons, List.find?_cons_of_pos]
  simp

theorem isDigit_ne {c : UInt8} (h : isDigit c) : c ≠ 0 ∧ c ≠ slash ∧ c ≠ 102 := by
  refine ⟨?_, ?_, ?_⟩
  · rintro rfl
    exact absurd h (by decide)
  · rintro rfl
    exact absurd h (by decide)
  · rintro rfl
    exact absurd h (by decide)

theorem kStrstr_digits (h : ∀ c ∈ digits, isDigit c) :
    kStrstr (digits ++ rest) (cstr "/fd/") = kStrstr rest (cstr "/fd/") := by
  induction digits with
  | nil => rfl
  | cons c digits ih =>
      obtain ⟨hnul, hslash, _⟩ := isDigit_ne (h c List.mem_cons_self)
      rw [List.cons_append, kStrstr_skip hnul (by decide),
        ih fun c hc => h c (List.mem_cons_of_mem _ hc)]
      exact fun hpre => hslash (List.cons_prefix_cons.mp hpre).1.symm

/-- The search passes over the pid. -/
theorem procExtractFdNum_digitsPath (h : Digits digits) {number : List UInt8} (hnul : 0 ∉ number) :
    procExtractFdNum (digitsPath digits (cstr "/fd/" ++ number)) = kAtoi number := by
  obtain ⟨c, more, hcons⟩ := List.exists_cons_of_ne_nil h.ne_nil
  obtain ⟨_, _, hf⟩ := isDigit_ne (h.all c (by rw [hcons]; exact List.mem_cons_self))
  have hletter (x : UInt8) (s : List UInt8) (hx : x ≠ 0) (hslash : x ≠ slash) :
      kStrstr (x :: s) (cstr "/fd/") = kStrstr s (cstr "/fd/") :=
    kStrstr_skip hx (by decide) fun hpre => hslash (List.cons_prefix_cons.mp hpre).1.symm
  have hslash (x : UInt8) (s : List UInt8) (hx : x ≠ 102) :
      kStrstr (slash :: x :: s) (cstr "/fd/") = kStrstr (x :: s) (cstr "/fd/") :=
    kStrstr_skip (by decide) (by decide) fun hpre =>
      hx (List.cons_prefix_cons.mp (List.cons_prefix_cons.mp hpre).2).1.symm
  have hfound : kStrstr (digitsPath digits (cstr "/fd/" ++ number)) (cstr "/fd/") =
      some (cstr "/fd/" ++ number) := by
    have hpath : digitsPath digits (cstr "/fd/" ++ number) =
        slash :: 112 :: 114 :: 111 :: 99 :: slash :: (digits ++ (cstr "/fd/" ++ number)) := by
      rw [digitsPath, List.append_assoc]
      rfl
    rw [hpath, hslash 112 _ (by decide), hletter 112 _ (by decide) (by decide),
      hletter 114 _ (by decide) (by decide), hletter 111 _ (by decide) (by decide),
      hletter 99 _ (by decide) (by decide)]
    conv_lhs => rw [hcons, List.cons_append]
    rw [hslash c _ hf, ← List.cons_append, ← hcons, kStrstr_digits h.all,
      kStrstr_append (by decide)]
    rw [List.mem_append, not_or]
    exact ⟨by decide, hnul⟩
  rw [procExtractFdNum, hfound]
  exact congrArg kAtoi (List.drop_left' rfl)

end Path

/-- What `task_table_alloc` and `task_table_free` keep: a pid is an `int` that gives its
own slot. -/
def PidsOfSlots (s : Scheduler) : Prop :=
  ∀ t, (s.task t).pid = pidNone ∨
    0 ≤ (s.task t).pid ∧ (s.task t).pid < 2 ^ 31 ∧ pidSlot (s.task t).pid = t

theorem PidsOfSlots.of_table {s : Scheduler} {log : List TableEvent} (h : TableInv s log) :
    PidsOfSlots s := by
  intro t
  rw [h.pid t]
  cases hheld : heldPid log t with
  | none => exact .inl rfl
  | some p =>
      obtain ⟨n, rfl⟩ := h.numbered.held_eq hheld
      obtain ⟨hpos, hmax⟩ := pidAt_range t n
      exact .inr ⟨hpos, by rw [Option.getD_some]; omega, pidSlot_pidAt t n⟩

theorem asInt_mod (n : Nat) : asInt (n % 2 ^ 32) = asInt n := by
  rw [asInt, asInt]
  congr 1
  apply BitVec.eq_of_toNat_eq
  rw [BitVec.toNat_ofNat, BitVec.toNat_ofNat, Nat.mod_mod]

/-- An `int` that is no error is the number modulo `2 ^ 32`. -/
theorem asInt_eq_natCast {n m : Nat} (hm : m < 2 ^ 31) : asInt n = m ↔ n % 2 ^ 32 = m := by
  have hlt := Nat.mod_lt n (show 2 ^ 32 > 0 by decide)
  rw [← asInt_mod]
  rcases Nat.lt_or_ge (n % 2 ^ 32) (2 ^ 31) with hsmall | hbig
  · rw [asInt_of_lt hsmall, Nat.cast_inj]
  · rw [asInt_of_ge hbig hlt]
    omega

theorem asInt_nonneg {n : Nat} (h : 0 ≤ asInt n) : asInt n = (n % 2 ^ 32 : ℕ) := by
  have hlt := Nat.mod_lt n (show 2 ^ 32 > 0 by decide)
  rw [← asInt_mod] at h ⊢
  rcases Nat.lt_or_ge (n % 2 ^ 32) (2 ^ 31) with hsmall | hbig
  · exact asInt_of_lt hsmall
  · rw [asInt_of_ge hbig hlt] at h
    omega

theorem PidsOfSlots.find_iff {s : Scheduler} (h : PidsOfSlots s) (n : Nat) (t : Slot) :
    taskTableFindTaskByPid s (asInt n) = some t ↔ (s.task t).pid = (n % 2 ^ 32 : ℕ) := by
  have hnone : pidNone = -1 := rfl
  rw [taskTableFindTaskByPid_eq_some]
  constructor
  · rintro ⟨hpos, -, hpid⟩
    exact hpid.trans (asInt_nonneg hpos)
  · intro hpid
    obtain ⟨_, hmax, hslot⟩ := (h t).resolve_left (by omega)
    have hint : asInt n = (n % 2 ^ 32 : ℕ) := (asInt_eq_natCast (by omega)).mpr rfl
    rw [hint, ← hpid]
    exact ⟨by omega, hslot, rfl⟩

end Punix
