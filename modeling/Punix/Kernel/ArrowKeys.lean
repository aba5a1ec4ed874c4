import Punix.Arch.Keyboard
import Punix.Kernel.Boot
import Punix.Kernel.TtyStream

/-!
`tty_keyboard_handler`: a character goes to the active terminal, an arrow key as a sequence
of three bytes, each of which is dropped if the ring is full then.
-/

namespace Punix

open Lib

/-- The byte that ends the sequence of an arrow key. -/
def KeyboardCode.arrow : KeyboardCode → Option UInt8
  | .up => some 65
  | .down => some 66
  | .right => some 67
  | .left => some 68
  | _ => Option.none

/-- What the arrow key with this byte sends. -/
def arrowSequence (c : UInt8) : List UInt8 := [0x1B, 91, c]

namespace Kernel

def putAll (k : Kernel) (t : TtyRef) : List UInt8 → Option Kernel
  | [] => some k
  | c :: cs => (k.ttyInputPut t c).bind fun k => k.putAll t cs

/-- The handler of the keyboard driver. Drawing the terminal that Alt and a function key
activate is left out. -/
def ttyKeyboardHandler (k : Kernel) (e : KeyPress) : Option Kernel :=
  if e.value ≠ 0 then k.ttyInputPut k.active e.value
  else
    match e.alt, e.code with
    | true, .f i => some (if h : i < ttyCount then { k with active := ⟨i, h⟩ } else k)
    | _, code =>
        match code.arrow with
        | some c => k.putAll k.active (arrowSequence c)
        | none => some k

end Kernel

namespace Tty

variable {tty : Tty}

def level (tty : Tty) : Nat := (tty.inHead - tty.inTail).toNat

theorem length_unread_eq_level (tty : Tty) : tty.unread.length = tty.level := tty.length_unread

theorem put_of_room (h : tty.level < ttyInputBufSize) (c : UInt8) :
    (tty.put c).unread = tty.unread ++ [c] ∧ (tty.put c).level = tty.level + 1 := by
  have hfull : ¬ tty.full := by
    unfold full
    rw [decide_eq_true_eq]
    exact Nat.not_le.mpr h
  have hlevel : (tty.inHead - tty.inTail).toNat < 256 := h
  rw [put, if_neg hfull]
  constructor
  · exact Ring.window_push tty.inBuf tty.inTail tty.inHead c h
  · apply Ring.level_push
    exact hlevel.trans (by decide)

theorem put_of_level (h : ttyInputBufSize ≤ tty.level) (c : UInt8) : tty.put c = tty :=
  if_pos (decide_eq_true h)

/-- As many bytes are put as there is room for. -/
theorem level_puts (cs : List UInt8) (h : tty.level ≤ ttyInputBufSize) :
    (cs.foldl put tty).level = min (tty.level + cs.length) ttyInputBufSize := by
  induction cs generalizing tty with
  | nil => exact (Nat.min_eq_left h).symm
  | cons c cs ih =>
      rw [List.foldl_cons, List.length_cons]
      rcases Nat.lt_or_eq_of_le h with hroom | hfull
      · have hlevel := (put_of_room hroom c).2
        rw [ih (by omega), hlevel]
        omega
      · rw [put_of_level hfull.ge, ih h]
        omega

theorem unread_puts {cs : List UInt8} (h : tty.level + cs.length ≤ ttyInputBufSize) :
    (cs.foldl put tty).unread = tty.unread ++ cs := by
  induction cs generalizing tty with
  | nil => exact (List.append_nil _).symm
  | cons c cs ih =>
      rw [List.length_cons] at h
      obtain ⟨hunread, hlevel⟩ := put_of_room (show tty.level < ttyInputBufSize by omega) c
      rw [List.foldl_cons, ih (by omega), hunread, List.append_assoc]
      rfl

theorem puts_of_level {cs : List UInt8} (h : ttyInputBufSize ≤ tty.level) :
    cs.foldl put tty = tty := by
  induction cs with
  | nil => rfl
  | cons c cs ih => rw [List.foldl_cons, put_of_level h, ih]

/-- All or nothing is put, unless there is room for some of the bytes only. -/
theorem puts_whole_iff (tty : Tty) {cs : List UInt8} (hcs : cs ≠ []) :
    ((cs.foldl put tty).unread = tty.unread ++ cs ∨ cs.foldl put tty = tty) ↔
      tty.level + cs.length ≤ ttyInputBufSize ∨ ttyInputBufSize ≤ tty.level := by
  constructor
  · intro hwhole
    by_contra hnot
    obtain ⟨hshort, hroom⟩ := not_or.mp hnot
    have hlevel := level_puts cs (Nat.not_le.mp hroom).le
    rcases hwhole with happended | hsame
    · have hlength := congrArg List.length happended
      rw [length_unread_eq_level, List.length_append, length_unread_eq_level] at hlength
      omega
    · rw [hsame] at hlevel
      have hpos := List.length_pos_of_ne_nil hcs
      omega
  · rintro (hroom | hfull)
    · exact .inl (unread_puts hroom)
    · exact .inr (puts_of_level hfull)

theorem noNul_put {c : UInt8} (h : 0 ∉ tty.unread) (hc : c ≠ 0) : 0 ∉ (tty.put c).unread := by
  cases hfull : tty.full with
  | true => rwa [put_of_full hfull]
  | false =>
      rw [unread_put hfull, List.mem_append, List.mem_singleton]
      rintro (hmem | hzero)
      · exact h hmem
      · exact hc hzero.symm

theorem noNul_puts {cs : List UInt8} (h : 0 ∉ tty.unread) (hcs : 0 ∉ cs) :
    0 ∉ (cs.foldl put tty).unread := by
  induction cs generalizing tty with
  | nil => exact h
  | cons c cs ih =>
      rw [List.mem_cons, not_or] at hcs
      exact ih (noNul_put h (Ne.symm hcs.1)) hcs.2

end Tty

theorem Kernel.ttys_putAll {k k' : Kernel} {t : TtyRef} {cs : List UInt8}
    (h : k.putAll t cs = some k') :
    k'.ttys = Function.update k.ttys t (cs.foldl Tty.put (k.ttys t)) := by
  induction cs generalizing k with
  | nil =>
      obtain rfl := Option.some.inj h
      exact (Function.update_eq_self _ _).symm
  | cons c cs ih =>
      obtain ⟨k₁, hput, hrest⟩ := Option.bind_eq_some_iff.mp h
      rw [ih hrest, Kernel.ttys_ttyInputPut hput, Function.update_self, Function.update_idem]
      rfl

theorem KeyboardCode.arrow_ne_zero (code : KeyboardCode) {c : UInt8} (h : code.arrow = some c) :
    c ≠ 0 := by
  cases code <;> simp [KeyboardCode.arrow] at h <;> subst h <;> decide

/-- An arrow key goes to the active terminal. -/
theorem Kernel.ttys_arrow {k k' : Kernel} {e : KeyPress} {c : UInt8} (hvalue : e.value = 0)
    (harrow : e.code.arrow = some c) (h : k.ttyKeyboardHandler e = some k') :
    k'.ttys = Function.update k.ttys k.active
      ((arrowSequence c).foldl Tty.put (k.ttys k.active)) := by
  unfold Kernel.ttyKeyboardHandler at h
  rw [if_neg (not_not.mpr hvalue)] at h
  split at h
  · next i halt hcode =>
      rw [hcode] at harrow
      cases harrow
  · rw [harrow] at h
    exact Kernel.ttys_putAll h

/-- The keyboard puts no NUL into a terminal. -/
theorem Kernel.noNul_ttyKeyboardHandler {k k' : Kernel} {e : KeyPress}
    (h : k.ttyKeyboardHandler e = some k') (hnul : ∀ t, 0 ∉ (k.ttys t).unread) (t : TtyRef) :
    0 ∉ (k'.ttys t).unread := by
  have hupdate {tty : Tty} (htty : 0 ∉ tty.unread)
      (hsame : k'.ttys = Function.update k.ttys k.active tty) : 0 ∉ (k'.ttys t).unread := by
    rcases eq_or_ne t k.active with rfl | hne
    · rwa [hsame, Function.update_self]
    · rw [hsame, Function.update_of_ne hne]
      exact hnul t
  rcases eq_or_ne e.value 0 with hvalue | hvalue
  · cases harrow : e.code.arrow with
    | some c =>
        have hsequence : 0 ∉ arrowSequence c := by
          simp [arrowSequence, (e.code.arrow_ne_zero harrow).symm]
        exact hupdate (Tty.noNul_puts (hnul _) hsequence) (Kernel.ttys_arrow hvalue harrow h)
    | none =>
        apply hupdate (hnul k.active)
        unfold Kernel.ttyKeyboardHandler at h
        rw [if_neg (not_not.mpr hvalue)] at h
        rw [Function.update_eq_self]
        split at h
        · split at h
          · exact (congrArg Kernel.ttys (Option.some.inj h)).symm
          · exact (congrArg Kernel.ttys (Option.some.inj h)).symm
        · rw [harrow] at h
          exact (congrArg Kernel.ttys (Option.some.inj h)).symm
  · unfold Kernel.ttyKeyboardHandler at h
    rw [if_pos hvalue] at h
    exact hupdate (Tty.noNul_put (hnul _) hvalue) (Kernel.ttys_ttyInputPut h)

/-- The sequence of an arrow key is put whole or not at all if and only if the ring of the
active terminal has room for three bytes or is full. -/
theorem arrowKey_whole_iff (k k' : Kernel) (e : KeyPress) (c : UInt8) (hvalue : e.value = 0)
    (harrow : e.code.arrow = some c) (h : k.ttyKeyboardHandler e = some k') :
    ((k'.ttys k.active).unread = (k.ttys k.active).unread ++ arrowSequence c ∧
          (∀ t ≠ k.active, k'.ttys t = k.ttys t) ∨
        k'.ttys = k.ttys) ↔
      (k.ttys k.active).level + 3 ≤ ttyInputBufSize ∨
        ttyInputBufSize ≤ (k.ttys k.active).level := by
  have hwhole : _ ↔ (k.ttys k.active).level + 3 ≤ ttyInputBufSize ∨ _ :=
    Tty.puts_whole_iff (k.ttys k.active) (show arrowSequence c ≠ [] from List.cons_ne_nil _ _)
  rw [← hwhole, Kernel.ttys_arrow hvalue harrow h, Function.update_self,
    Function.update_eq_self_iff]
  apply or_congr_left
  apply and_iff_left
  intro t ht
  exact Function.update_of_ne ht _ _

/-- The terminal 0 with this many unread bytes. -/
def filled (level : BitVec 32) : Kernel :=
  (kernelInit []).setTty 0 { inBuf := fun _ => 0, inHead := level, inTail := 0 }

def arrowUp : KeyPress := { value := 0, code := .up, ctrl := false, alt := false, shift := false }

theorem arrowKey_whole_empty :
    ∃ k', (filled 0).ttyKeyboardHandler arrowUp = some k' ∧
      ((k'.ttys 0).unread = [0x1B, 91, 65] ∧ (∀ t : TtyRef, t ≠ 0 → k'.ttys t = (filled 0).ttys t) ∨
        k'.ttys = (filled 0).ttys) := by
  obtain ⟨k', hk'⟩ := Option.isSome_iff_exists.mp
    (show ((filled 0).ttyKeyboardHandler arrowUp).isSome by decide +kernel)
  exact ⟨k', hk', (arrowKey_whole_iff (filled 0) k' arrowUp 65 rfl rfl hk').mpr (.inl (by decide))⟩

/-- The last two bytes of room are taken by the beginning of a sequence. -/
theorem arrowKey_cut :
    ∃ k', (filled 254).ttyKeyboardHandler arrowUp = some k' ∧ (k'.ttys 0).level = 256 ∧
      ¬ ((k'.ttys 0).unread = ((filled 254).ttys 0).unread ++ arrowSequence 65 ∧
            (∀ t : TtyRef, t ≠ 0 → k'.ttys t = (filled 254).ttys t) ∨
          k'.ttys = (filled 254).ttys) := by
  obtain ⟨k', hk', hlevel⟩ := (Option.any_eq_true _ _).mp
    (show ((filled 254).ttyKeyboardHandler arrowUp).any (fun k => (k.ttys 0).level = 256) by
      decide +kernel)
  have hlevel : (k'.ttys 0).level = 256 := of_decide_eq_true hlevel
  refine ⟨k', hk', hlevel, ?_⟩
  rintro (⟨hunread, -⟩ | hsame)
  · have hlength := congrArg List.length hunread
    rw [Tty.length_unread_eq_level, hlevel, List.length_append, Tty.length_unread_eq_level] at hlength
    exact absurd hlength (by decide)
  · rw [hsame] at hlevel
    exact absurd hlevel (by decide)

end Punix
