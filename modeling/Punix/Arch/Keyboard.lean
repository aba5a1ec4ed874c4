import Punix.Kernel.Kutils

/-!
The keyboard driver (`keyboard.c`): scancodes of set 1 become characters and key codes,
and three flags tell which modifiers are pressed. A keyboard sends one or more scancodes
for each key that is pressed or released; the keys on the right that the left side has too
share a flag with their twins.
-/

namespace Punix

/-- `enum keyboard_code`; `f i` is `KEY_F1 + i`. -/
inductive KeyboardCode where
  | none
  | ctrl
  | alt
  | shift
  | up
  | down
  | left
  | right
  | f (i : Fin 12)
deriving DecidableEq

def scExtended : UInt8 := 0xE0
def scancodeReleaseMask : UInt8 := 0x80
def scLshift : UInt8 := 0x2A
def scRshift : UInt8 := 0x36
/-- `SC_RCTRL` and `SC_RALT` are the same, behind `SC_EXTENDED`. -/
def scLctrl : UInt8 := 0x1D
def scLalt : UInt8 := 0x38
def scArrowUp : UInt8 := 0x48
def scArrowDown : UInt8 := 0x50
def scArrowLeft : UInt8 := 0x4B
def scArrowRight : UInt8 := 0x4D

/-- The cases `SC_F1` to `SC_F12`. -/
def functionKey (base : UInt8) : Option (Fin 12) :=
  if 0x3B ≤ base ∧ base ≤ 0x44 then some (Fin.ofNat 12 (base.toNat - 0x3B))
  else if base = 0x57 then some 10
  else if base = 0x58 then some 11
  else none

def scancodeLower : List UInt8 :=
  [0, 0] ++ cstr "1234567890-=" ++ [8, 9] ++ cstr "qwertyuiop[]" ++ [10, 0] ++
    cstr "asdfghjkl;" ++ [39, 96, 0, 92] ++ cstr "zxcvbnm,./" ++ [0] ++ cstr "*" ++ [0, 32]

def scancodeUpper : List UInt8 :=
  [0, 0] ++ cstr "!@#$%^&*()_+" ++ [8, 9] ++ cstr "QWERTYUIOP" ++ [123, 125, 10, 0] ++
    cstr "ASDFGHJKL:" ++ [34, 126, 0, 124] ++ cstr "ZXCVBNM<>?" ++ [0] ++ cstr "*" ++ [0, 32]

structure Keyboard where
  shiftPressed : Bool
  ctrlPressed : Bool
  altPressed : Bool
  extendedCode : Bool
deriving DecidableEq

/-- What the handler gets. -/
structure KeyPress where
  value : UInt8
  code : KeyboardCode
  ctrl : Bool
  alt : Bool
  shift : Bool
deriving DecidableEq

/-- `keyboard_init`. -/
def keyboardInit : Keyboard where
  shiftPressed := false
  ctrlPressed := false
  altPressed := false
  extendedCode := false

namespace Keyboard

def emitKey (s : Keyboard) (value : UInt8) (code : KeyboardCode) : Option KeyPress :=
  some { value, code, ctrl := s.ctrlPressed, alt := s.altPressed, shift := s.shiftPressed }

/-- A key that is no character is told to the handler when it is pressed. -/
def emitCode (s : Keyboard) (isRelease : Bool) (code : KeyboardCode) : Keyboard × Option KeyPress :=
  (s, if isRelease then none else s.emitKey 0 code)

/-- The scancode behind `SC_EXTENDED`. -/
def extendedScancode (s : Keyboard) (isRelease : Bool) (base : UInt8) : Keyboard × Option KeyPress :=
  if base = scLctrl then { s with ctrlPressed := !isRelease }.emitCode isRelease .ctrl
  else if base = scLalt then { s with altPressed := !isRelease }.emitCode isRelease .alt
  else if base = scArrowUp then s.emitCode isRelease .up
  else if base = scArrowDown then s.emitCode isRelease .down
  else if base = scArrowLeft then s.emitCode isRelease .left
  else if base = scArrowRight then s.emitCode isRelease .right
  else (s, none)

/-- The letter that is typed with Ctrl. -/
def ctrlChar (c : UInt8) : UInt8 :=
  if 97 ≤ c ∧ c ≤ 122 then c - 97 + 1 else if 65 ≤ c ∧ c ≤ 90 then c - 65 + 1 else c

/-- The characters of the tables. -/
def characterScancode (s : Keyboard) (isRelease : Bool) (base : UInt8) : Option KeyPress :=
  if isRelease ∨ base.toNat ≥ scancodeLower.length then none
  else
    let c := (if s.shiftPressed then scancodeUpper else scancodeLower).getD base.toNat 0
    if c = 0 then none else s.emitKey (if s.ctrlPressed then ctrlChar c else c) .none

def plainScancode (s : Keyboard) (isRelease : Bool) (base : UInt8) : Keyboard × Option KeyPress :=
  if base = scLshift ∨ base = scRshift then
    { s with shiftPressed := !isRelease }.emitCode isRelease .shift
  else if base = scLctrl then { s with ctrlPressed := !isRelease }.emitCode isRelease .ctrl
  else if base = scLalt then { s with altPressed := !isRelease }.emitCode isRelease .alt
  else
    match functionKey base with
    | some i => s.emitCode isRelease (.f i)
    | none => (s, s.characterScancode isRelease base)

end Keyboard

def keyboardInterruptHandler (s : Keyboard) (scancode : UInt8) : Keyboard × Option KeyPress :=
  let isRelease := scancode &&& scancodeReleaseMask ≠ 0
  let base := scancode &&& ~~~scancodeReleaseMask
  if scancode = scExtended then ({ s with extendedCode := true }, none)
  else if s.extendedCode then { s with extendedCode := false }.extendedScancode isRelease base
  else s.plainScancode isRelease base

inductive Modifier where
  | shift
  | ctrl
  | alt
deriving DecidableEq

/-- The keys of a keyboard. The other keys send a scancode of their own, some of them behind
the prefix. -/
inductive Key where
  | modifier (kind : Modifier) (right : Bool)
  | plain (base : Fin 128) (h : base ∉ [0x2A, 0x36, 0x1D, 0x38, 0x60])
  | extended (base : Fin 128) (h : base ∉ [0x1D, 0x38, 0x60])
  | pause

/-- The prefix and the make code, other than those of the key Pause. -/
def Key.makeCode : Key → List UInt8 × UInt8
  | .modifier .shift right => ([], if right then scRshift else scLshift)
  | .modifier .ctrl right => (if right then [scExtended] else [], scLctrl)
  | .modifier .alt right => (if right then [scExtended] else [], scLalt)
  | .plain base _ => ([], UInt8.ofNat base)
  | .extended base _ => ([scExtended], UInt8.ofNat base)
  | .pause => ([], 0)

/-- A press is also what is repeated while a key is held. -/
inductive KeyEvent where
  | press (key : Key)
  | release (key : Key)

/-- The scancodes that the keyboard sends. Pause sends all of its own when it is pressed. -/
def KeyEvent.scancodes : KeyEvent → List UInt8
  | .press .pause => [0xE1, 0x1D, 0x45, 0xE1, 0x9D, 0xC5]
  | .release .pause => []
  | .press key => key.makeCode.1 ++ [key.makeCode.2]
  | .release key => key.makeCode.1 ++ [key.makeCode.2 ||| scancodeReleaseMask]

/-- Which modifiers are held, on the left and on the right. -/
abbrev Held := Modifier → Bool → Bool

def Held.set (held : Held) (kind : Modifier) (right down : Bool) : Held :=
  Function.update held kind (Function.update (held kind) right down)

def KeyEvent.hold (held : Held) : KeyEvent → Held
  | .press (.modifier kind right) => held.set kind right true
  | .release (.modifier kind right) => held.set kind right false
  | _ => held

def Keyboard.flag (s : Keyboard) : Modifier → Bool
  | .shift => s.shiftPressed
  | .ctrl => s.ctrlPressed
  | .alt => s.altPressed

/-- The flags tell what is held. -/
def Keyboard.Tells (s : Keyboard) (held : Held) : Prop :=
  ∀ kind, s.flag kind = (held kind false || held kind true)

/-- The driver after a sequence of scancodes. -/
def Keyboard.receive (s : Keyboard) (scancodes : List UInt8) : Keyboard :=
  scancodes.foldl (fun s scancode => (keyboardInterruptHandler s scancode).1) s

/-- The flags are right after each scancode of the events. A key is held or released when the
last scancode of its own has been sent. -/
def Keyboard.TellsAlways (s : Keyboard) (held : Held) : List KeyEvent → Prop
  | [] => True
  | e :: es =>
      (∀ n < e.scancodes.length, 0 < n → (s.receive (e.scancodes.take n)).Tells held) ∧
        (s.receive e.scancodes).Tells (e.hold held) ∧
        (s.receive e.scancodes).TellsAlways (e.hold held) es

/-- No modifier is released while its twin is held, and Pause is not pressed. -/
def KeyEvent.Harmless (held : Held) : KeyEvent → Prop
  | .release (.modifier kind right) => held kind (!right) = false
  | .press .pause => False
  | _ => True

def AllHarmless (held : Held) : List KeyEvent → Prop
  | [] => True
  | e :: es => e.Harmless held ∧ AllHarmless (e.hold held) es

namespace Keyboard

variable {s : Keyboard} {held : Held}

def setFlag (s : Keyboard) (kind : Modifier) (down : Bool) : Keyboard :=
  match kind with
  | .shift => { s with shiftPressed := down }
  | .ctrl => { s with ctrlPressed := down }
  | .alt => { s with altPressed := down }

theorem flag_setFlag (s : Keyboard) (kind other : Modifier) (down : Bool) :
    (s.setFlag kind down).flag other = if other = kind then down else s.flag other := by
  cases kind <;> cases other <;> rfl

theorem extendedCode_setFlag (s : Keyboard) (kind : Modifier) (down : Bool) :
    (s.setFlag kind down).extendedCode = s.extendedCode := by
  cases kind <;> rfl

/-- The scancodes of a key, with and without the bit for its release. -/
theorem scancode_bits (base : Fin 128) :
    UInt8.ofNat base &&& ~~~scancodeReleaseMask = UInt8.ofNat base ∧
      (UInt8.ofNat base ||| scancodeReleaseMask) &&& ~~~scancodeReleaseMask = UInt8.ofNat base ∧
      UInt8.ofNat base ≠ scExtended ∧
      (base ≠ 0x60 → UInt8.ofNat base ||| scancodeReleaseMask ≠ scExtended) := by
  revert base
  decide +kernel

theorem ofNat_ne (base other : Fin 128) (h : base ≠ other) :
    UInt8.ofNat base ≠ UInt8.ofNat other := by
  intro heq
  apply h
  have hnat := congrArg UInt8.toNat heq
  rw [UInt8.toNat_ofNat', UInt8.toNat_ofNat'] at hnat
  exact Fin.ext (by omega)

theorem plainScancode_other {isRelease : Bool} {base : UInt8} (hl : base ≠ scLshift)
    (hr : base ≠ scRshift) (hctrl : base ≠ scLctrl) (halt : base ≠ scLalt) :
    (s.plainScancode isRelease base).1 = s := by
  unfold plainScancode
  rw [if_neg (not_or.mpr ⟨hl, hr⟩), if_neg hctrl, if_neg halt]
  cases functionKey base <;> rfl

theorem extendedScancode_other {isRelease : Bool} {base : UInt8} (hctrl : base ≠ scLctrl)
    (halt : base ≠ scLalt) : (s.extendedScancode isRelease base).1 = s := by
  unfold extendedScancode
  rw [if_neg hctrl, if_neg halt]
  split_ifs <;> rfl

/-- The prefix changes no flag. -/
theorem flag_receive_extended (s : Keyboard) (kind : Modifier) :
    (s.receive [scExtended]).flag kind = s.flag kind := by
  cases kind <;> rfl

theorem receive_plain (hs : s.extendedCode = false) {base : Fin 128}
    (h : base ∉ [0x2A, 0x36, 0x1D, 0x38, 0x60]) :
    s.receive [UInt8.ofNat base] = s ∧
      s.receive [UInt8.ofNat base ||| scancodeReleaseMask] = s := by
  simp only [List.mem_cons, List.not_mem_nil, or_false, not_or] at h
  obtain ⟨hl, hr, hctrl, halt, hlast⟩ := h
  obtain ⟨hbase, hbase', hne, hne'⟩ := scancode_bits base
  have hother (isRelease : Bool) : (s.plainScancode isRelease (UInt8.ofNat base)).1 = s :=
    plainScancode_other (ofNat_ne base _ hl) (ofNat_ne base _ hr) (ofNat_ne base _ hctrl)
      (ofNat_ne base _ halt)
  constructor
  · change (keyboardInterruptHandler s _).1 = s
    unfold keyboardInterruptHandler
    dsimp only
    rw [if_neg hne, if_neg (Bool.eq_false_iff.mp hs), hbase]
    exact hother _
  · change (keyboardInterruptHandler s _).1 = s
    unfold keyboardInterruptHandler
    dsimp only
    rw [if_neg (hne' hlast), if_neg (Bool.eq_false_iff.mp hs), hbase']
    exact hother _

theorem receive_extended (hs : s.extendedCode = false) {base : Fin 128}
    (h : base ∉ [0x1D, 0x38, 0x60]) :
    s.receive [scExtended, UInt8.ofNat base] = s ∧
      s.receive [scExtended, UInt8.ofNat base ||| scancodeReleaseMask] = s := by
  simp only [List.mem_cons, List.not_mem_nil, or_false, not_or] at h
  obtain ⟨hctrl, halt, hlast⟩ := h
  obtain ⟨hbase, hbase', hne, hne'⟩ := scancode_bits base
  have hextended : (s.receive [scExtended]).extendedCode = true := rfl
  have hback : { s.receive [scExtended] with extendedCode := false } = s := by
    rw [← hs]
    rfl
  have hother (isRelease : Bool) : ({ s.receive [scExtended] with extendedCode := false
      }.extendedScancode isRelease (UInt8.ofNat base)).1 = s := by
    rw [extendedScancode_other (ofNat_ne base _ hctrl) (ofNat_ne base _ halt), hback]
  constructor
  · change (keyboardInterruptHandler (s.receive [scExtended]) _).1 = s
    unfold keyboardInterruptHandler
    dsimp only
    rw [if_neg hne, if_pos hextended, hbase]
    exact hother _
  · change (keyboardInterruptHandler (s.receive [scExtended]) _).1 = s
    unfold keyboardInterruptHandler
    dsimp only
    rw [if_neg (hne' hlast), if_pos hextended, hbase']
    exact hother _

/-- A modifier sets its flag, and nothing else. -/
theorem receive_modifier (hs : s.extendedCode = false) (kind : Modifier) (right : Bool) :
    s.receive (KeyEvent.press (.modifier kind right)).scancodes = s.setFlag kind true ∧
      s.receive (KeyEvent.release (.modifier kind right)).scancodes = s.setFlag kind false := by
  obtain ⟨shift, ctrl, alt, extended⟩ := s
  obtain rfl : extended = false := hs
  cases kind <;> cases right <;> exact ⟨rfl, rfl⟩

/-- What an event other than Pause comes to. -/
def after (s : Keyboard) : KeyEvent → Keyboard
  | .press (.modifier kind _) => s.setFlag kind true
  | .release (.modifier kind _) => s.setFlag kind false
  | _ => s

theorem extendedCode_after (e : KeyEvent) (hs : s.extendedCode = false) :
    (s.after e).extendedCode = false := by
  unfold after
  split
  · rw [extendedCode_setFlag, hs]
  · rw [extendedCode_setFlag, hs]
  · exact hs

theorem receive_event (hs : s.extendedCode = false) {e : KeyEvent} (he : e ≠ .press .pause) :
    s.receive e.scancodes = s.after e := by
  cases e with
  | press key =>
      cases key with
      | modifier kind right => exact (receive_modifier hs kind right).1
      | plain base h => exact (receive_plain hs h).1
      | extended base h => exact (receive_extended hs h).1
      | pause => exact absurd rfl he
  | release key =>
      cases key with
      | modifier kind right => exact (receive_modifier hs kind right).2
      | plain base h => exact (receive_plain hs h).2
      | extended base h => exact (receive_extended hs h).2
      | pause => rfl

theorem makeCode_cases (key : Key) : key.makeCode.1 = [] ∨ key.makeCode.1 = [scExtended] := by
  cases key with
  | modifier kind right =>
      cases kind with
      | shift => exact .inl rfl
      | ctrl => cases right with
        | false => exact .inl rfl
        | true => exact .inr rfl
      | alt => cases right with
        | false => exact .inl rfl
        | true => exact .inr rfl
  | plain base h => exact .inl rfl
  | extended base h => exact .inr rfl
  | pause => exact .inl rfl

/-- Inside of an event nothing happens but the prefix. -/
theorem tells_inside (h : s.Tells held) {codes : List UInt8} {code : UInt8}
    (hcodes : codes = [] ∨ codes = [scExtended]) :
    ∀ n < (codes ++ [code]).length, 0 < n → (s.receive ((codes ++ [code]).take n)).Tells held := by
  intro n hn hpos kind
  rcases hcodes with rfl | rfl
  · simp only [List.nil_append, List.length_singleton] at hn
    omega
  · obtain rfl : n = 1 := by
      simp only [List.length_append, List.length_singleton] at hn
      omega
    change (s.receive [scExtended]).flag kind = _
    rw [flag_receive_extended, h kind]

theorem tells_inside_event (h : s.Tells held) {e : KeyEvent} (he : e ≠ .press .pause) :
    ∀ n < e.scancodes.length, 0 < n → (s.receive (e.scancodes.take n)).Tells held := by
  cases e with
  | press key =>
      cases key with
      | pause => exact absurd rfl he
      | _ => exact tells_inside h (makeCode_cases _)
  | release key =>
      cases key with
      | pause =>
          intro n hn
          cases hn
      | _ => exact tells_inside h (makeCode_cases _)

/-- A flag that is set is right; one that is cleared is right if the twin is not held. -/
theorem tells_setFlag (h : s.Tells held) (kind : Modifier) (right down : Bool) :
    (s.setFlag kind down).Tells (held.set kind right down) ↔
      (down = true ∨ held kind (!right) = false) := by
  constructor
  · intro hset
    have hkind := hset kind
    rw [flag_setFlag, if_pos rfl, Held.set, Function.update_self] at hkind
    cases down with
    | true => exact .inl rfl
    | false =>
        right
        cases right <;> simpa using hkind
  · intro hdown other
    rw [flag_setFlag, Held.set]
    rcases eq_or_ne other kind with rfl | hne
    · rw [if_pos rfl, Function.update_self]
      rcases hdown with rfl | htwin
      · cases right <;> simp
      · cases right
        · have htrue : held other true = false := htwin
          simp [htrue]
        · have hfalse : held other false = false := htwin
          simp [hfalse]
    · rw [if_neg hne, Function.update_of_ne hne, h other]

theorem tells_event_iff (hs : s.extendedCode = false) (h : s.Tells held) {e : KeyEvent}
    (he : e ≠ .press .pause) :
    (s.receive e.scancodes).Tells (e.hold held) ↔ e.Harmless held := by
  rw [receive_event hs he]
  cases e with
  | press key =>
      cases key with
      | modifier kind right =>
          change (s.setFlag kind true).Tells (held.set kind right true) ↔ True
          rw [tells_setFlag h]
          simp
      | pause => exact absurd rfl he
      | _ => exact iff_of_true h trivial
  | release key =>
      cases key with
      | modifier kind right =>
          change (s.setFlag kind false).Tells (held.set kind right false) ↔ held kind (!right) = false
          rw [tells_setFlag h]
          simp
      | _ => exact iff_of_true h trivial

/-- Pause sends the scancodes of Ctrl: one of them is wrong. -/
theorem not_tells_pause (hs : s.extendedCode = false) :
    ¬ ∀ n < (KeyEvent.press .pause).scancodes.length, 0 < n →
      (s.receive ((KeyEvent.press .pause).scancodes.take n)).Tells held := by
  intro hall
  obtain ⟨shift, ctrl, alt, extended⟩ := s
  obtain rfl : extended = false := hs
  have hpressed := hall 2 (by decide) (by decide) .ctrl
  have hreleased := hall 5 (by decide) (by decide) .ctrl
  have htrue : true = (held .ctrl false || held .ctrl true) := hpressed
  have hfalse : false = (held .ctrl false || held .ctrl true) := hreleased
  rw [← htrue] at hfalse
  cases hfalse

/-- The flags are right after each scancode if and only if no event is harmful. -/
theorem tellsAlways_iff (hs : s.extendedCode = false) (h : s.Tells held) (es : List KeyEvent) :
    s.TellsAlways held es ↔ AllHarmless held es := by
  induction es generalizing s held with
  | nil => exact Iff.rfl
  | cons e es ih =>
      rw [TellsAlways, AllHarmless]
      by_cases he : e = .press .pause
      · subst he
        apply iff_of_false
        · rintro ⟨hinside, -⟩
          exact not_tells_pause hs hinside
        · rintro ⟨hharmless, -⟩
          exact hharmless
      · rw [← tells_event_iff hs h he]
        constructor
        · rintro ⟨-, htells, hrest⟩
          refine ⟨htells, (ih ?_ htells).mp hrest⟩
          rw [receive_event hs he]
          exact extendedCode_after e hs
        · rintro ⟨htells, hrest⟩
          refine ⟨tells_inside_event h he, htells, (ih ?_ htells).mpr hrest⟩
          rw [receive_event hs he]
          exact extendedCode_after e hs

end Keyboard

/-- Whatever is pressed and released: the flags are right after each scancode if and only if
no modifier is released while its twin is held, and Pause is never pressed. -/
theorem keyboard_tells_iff (es : List KeyEvent) :
    keyboardInit.TellsAlways (fun _ _ => false) es ↔ AllHarmless (fun _ _ => false) es := by
  apply Keyboard.tellsAlways_iff rfl
  intro kind
  cases kind <;> rfl

/-- Both Shift keys are pressed, and the left one is released. -/
theorem keyboard_shift_lost : ¬ keyboardInit.TellsAlways (fun _ _ => false)
    [.press (.modifier .shift false), .press (.modifier .shift true),
      .release (.modifier .shift false)] := by
  rintro ⟨-, -, -, -, -, hreleased, -⟩
  have hshift := hreleased .shift
  cases hshift

end Punix
