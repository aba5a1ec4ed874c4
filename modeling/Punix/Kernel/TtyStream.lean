import Punix.Lib.Machine
import Punix.Kernel.Tty

/-!
The bytes of a terminal as a stream. A reader is followed statement by statement
from its call of `tty_read` to its return, and the keyboard interrupt may come
between any two statements. Beside the terminal stand the bytes that were put,
each with the mark whether the ring was full, and what the reads have returned.

From the return of `wait_event` on a reader keeps the processor, since nothing
behind it calls `sched_schedule`; other readers are inside of `wait_event` then.
-/

namespace Punix

open Lib

variable {ρ : Type*}

/-- How far a call of `tty_read` has come: it is in `wait_event`, has returned
from there, or is in the copy loop with the bytes in `cbuf` copied. -/
inductive ReadPhase where
  | waiting
  | passed
  | copying (available : Nat) (cbuf : List UInt8)
deriving DecidableEq

structure ReadCall where
  count : Nat
  phase : ReadPhase
deriving DecidableEq

/-- A terminal, the calls of its readers, and the history of both sides. -/
structure TtyRun (ρ : Type*) where
  tty : Tty
  calls : ρ → Option ReadCall
  puts : List (UInt8 × Bool)
  returns : List (Nat × List UInt8)

inductive TtyEvent (ρ : Type*) where
  /-- `tty_input_put`, called by the keyboard interrupt. -/
  | put (c : UInt8)
  /-- A reader calls `tty_read` with a positive count. -/
  | call (r : ρ) (count : Nat)
  /-- `wait_event` finds the condition true and returns. -/
  | pass (r : ρ)
  /-- A signal ends the reader inside of `wait_event`. -/
  | die (r : ρ)
  /-- `available` is computed. -/
  | measure (r : ρ)
  /-- One round of the copy loop. -/
  | copy (r : ρ)
  /-- `in_tail` is advanced and `tty_read` returns. -/
  | finish (r : ρ)

namespace Tty

/-- `TTY_INPUT_BUF_SIZE` bytes are unread. -/
def full (tty : Tty) : Bool := (tty.inHead - tty.inTail).toNat ≥ ttyInputBufSize

/-- `tty_input_put` up to its wakeup. -/
def put (tty : Tty) (c : UInt8) : Tty :=
  if tty.full then tty
  else { tty with
    inBuf := Function.update tty.inBuf (Ring.maskIndex ttyInputBufSize tty.inHead) c
    inHead := tty.inHead + 1 }

/-- The bytes that are buffered, oldest first. -/
def unread (tty : Tty) : List UInt8 := Ring.window tty.inBuf tty.inTail tty.inHead

end Tty

namespace TtyRun

variable [DecidableEq ρ]

def setCall (x : TtyRun ρ) (r : ρ) (call : Option ReadCall) : TtyRun ρ :=
  { x with calls := Function.update x.calls r call }

/-- `size_t available = tty->in_head - tty->in_tail`, cut to `count`. -/
def available (x : TtyRun ρ) (count : Nat) : Nat :=
  let available := (x.tty.inHead - x.tty.inTail).toNat
  if available > count then count else available

def Step (x : TtyRun ρ) (e : TtyEvent ρ) (y : TtyRun ρ) : Prop :=
  match e with
  | .put c => y = { x with tty := x.tty.put c, puts := x.puts ++ [(c, x.tty.full)] }
  | .call r count => x.calls r = none ∧ 0 < count ∧ y = x.setCall r (some ⟨count, .waiting⟩)
  | .pass r => ∃ count, x.calls r = some ⟨count, .waiting⟩ ∧ ttyInputAvailable x.tty ∧
      (∀ r' call, x.calls r' = some call → call.phase = .waiting) ∧
      y = x.setCall r (some ⟨count, .passed⟩)
  | .die r => ∃ count, x.calls r = some ⟨count, .waiting⟩ ∧ y = x.setCall r none
  | .measure r => ∃ count, x.calls r = some ⟨count, .passed⟩ ∧
      y = x.setCall r (some ⟨count, .copying (x.available count) []⟩)
  | .copy r => ∃ count available cbuf, x.calls r = some ⟨count, .copying available cbuf⟩ ∧
      cbuf.length < available ∧
      y = x.setCall r (some ⟨count, .copying available (cbuf ++ [x.tty.inBuf
        (Ring.maskIndex ttyInputBufSize (x.tty.inTail + BitVec.ofNat 32 cbuf.length))])⟩)
  | .finish r => ∃ count available cbuf, x.calls r = some ⟨count, .copying available cbuf⟩ ∧
      ¬ cbuf.length < available ∧
      y = { x.setCall r none with
        tty := { x.tty with inTail := x.tty.inTail + BitVec.ofNat 32 available }
        returns := x.returns ++ [(count, cbuf)] }

end TtyRun

/-- A terminal without input and without readers, its counters anywhere. -/
def ttyMachine (ρ : Type*) [DecidableEq ρ] : Machine (TtyRun ρ) (TtyEvent ρ) where
  init x := x.tty.inHead = x.tty.inTail ∧ x.calls = (fun _ => none) ∧ x.puts = [] ∧ x.returns = []
  step := TtyRun.Step

/-- What a reader has seen so far stands at the front of the unread bytes. -/
def ReadCall.Fits (unread : List UInt8) (call : ReadCall) : Prop :=
  match call.phase with
  | .waiting => True
  | .passed => unread ≠ []
  | .copying available cbuf =>
      0 < available ∧ available ≤ call.count ∧ available ≤ unread.length ∧
        cbuf.length ≤ available ∧ cbuf <+: unread

/-- The bytes that were put while there was room. -/
def TtyRun.kept (x : TtyRun ρ) : List UInt8 := (x.puts.filter fun p => !p.2).map Prod.fst

structure TtyRun.Inv (x : TtyRun ρ) : Prop where
  level : (x.tty.inHead - x.tty.inTail).toNat ≤ ttyInputBufSize
  stream : (x.returns.map Prod.snd).flatten ++ x.tty.unread = x.kept
  returned : ∀ p ∈ x.returns, 0 < p.2.length ∧ p.2.length ≤ p.1
  counts : ∀ r call, x.calls r = some call → 0 < call.count
  fits : ∀ r call, x.calls r = some call → call.Fits x.tty.unread
  alone : ∀ r r' call call', x.calls r = some call → x.calls r' = some call' →
    call.phase ≠ .waiting → call'.phase ≠ .waiting → r = r'

namespace Tty

variable {tty : Tty} {c : UInt8}

theorem length_unread (tty : Tty) : tty.unread.length = (tty.inHead - tty.inTail).toNat :=
  Ring.length_window ..

theorem put_of_full (h : tty.full = true) : tty.put c = tty := by
  rw [put, if_pos h]

/-- A byte that finds room goes to the end of the unread ones. -/
theorem unread_put (h : tty.full = false) : (tty.put c).unread = tty.unread ++ [c] := by
  have hroom : (tty.inHead - tty.inTail).toNat < ttyInputBufSize := by
    simpa [full] using h
  rw [put, if_neg (by simp [h])]
  exact Ring.window_push tty.inBuf tty.inTail tty.inHead c hroom

theorem level_put (h : (tty.inHead - tty.inTail).toNat ≤ ttyInputBufSize) :
    ((tty.put c).inHead - (tty.put c).inTail).toNat ≤ ttyInputBufSize := by
  cases hfull : tty.full with
  | true => rwa [put_of_full hfull]
  | false =>
      have hroom : tty.unread.length < ttyInputBufSize := by
        rw [length_unread]
        simpa [full] using hfull
      rw [← length_unread, unread_put hfull, List.length_append, List.length_singleton]
      omega

end Tty

namespace ReadCall

variable {unread : List UInt8} {call : ReadCall}

theorem Fits.append (h : call.Fits unread) (c : UInt8) : call.Fits (unread ++ [c]) := by
  unfold Fits at *
  cases hphase : call.phase with
  | waiting => trivial
  | passed => simp
  | copying available cbuf =>
      rw [hphase] at h
      obtain ⟨hpos, hcount, hle, hlen, hstarts⟩ := h
      refine ⟨hpos, hcount, ?_, hlen, hstarts.trans (List.prefix_append _ _)⟩
      rw [List.length_append]
      omega

/-- A reader that is still in `wait_event` does not look at the bytes. -/
theorem fits_of_waiting (h : call.phase = .waiting) : call.Fits unread := by
  unfold Fits
  rw [h]
  trivial

end ReadCall

namespace TtyRun

variable {x y : TtyRun ρ} {r : ρ}

theorem Inv.put (h : x.Inv) (c : UInt8) :
    Inv { x with tty := x.tty.put c, puts := x.puts ++ [(c, x.tty.full)] } := by
  cases hfull : x.tty.full with
  | true =>
      have hkept : (x.puts ++ [(c, true)]).filter (fun p => !p.2) = x.puts.filter fun p => !p.2 := by
        simp
      refine ⟨Tty.level_put h.level, ?_, h.returned, h.counts, ?_, h.alone⟩
      · rw [Tty.put_of_full hfull, kept, hkept]
        exact h.stream
      · rw [Tty.put_of_full hfull]
        exact h.fits
  | false =>
      refine ⟨Tty.level_put h.level, ?_, h.returned, h.counts, ?_, h.alone⟩
      · have hstream := h.stream
        simp only [kept] at hstream ⊢
        rw [Tty.unread_put hfull, ← List.append_assoc, hstream]
        simp
      · rw [Tty.unread_put hfull]
        exact fun r call hcall => (h.fits r call hcall).append c

variable [DecidableEq ρ]

theorem calls_setCall {call new : Option ReadCall} {r' : ρ} (h : (x.setCall r new).calls r' = call) :
    r' = r ∧ new = call ∨ r' ≠ r ∧ x.calls r' = call := by
  have hcalls : (x.setCall r new).calls = Function.update x.calls r new := rfl
  rw [hcalls] at h
  rcases eq_or_ne r' r with heq | hne
  · rw [heq, Function.update_self] at h
    exact .inl ⟨heq, h⟩
  · rw [Function.update_of_ne hne] at h
    exact .inr ⟨hne, h⟩

/-- Only one call changes. -/
theorem Inv.setCall (h : x.Inv) {call : Option ReadCall}
    (hcall : ∀ new, call = some new → 0 < new.count ∧ new.Fits x.tty.unread)
    (halone : ∀ new, call = some new → new.phase ≠ .waiting →
      ∀ r' other, x.calls r' = some other → other.phase ≠ .waiting → r' = r) :
    (x.setCall r call).Inv where
  level := h.level
  stream := h.stream
  returned := h.returned
  counts r' new hnew := by
    rcases calls_setCall hnew with ⟨_, heq⟩ | ⟨_, hold⟩
    · exact (hcall new heq).1
    · exact h.counts r' new hold
  fits r' new hnew := by
    rcases calls_setCall hnew with ⟨_, heq⟩ | ⟨_, hold⟩
    · exact (hcall new heq).2
    · exact h.fits r' new hold
  alone r₁ r₂ call₁ call₂ h₁ h₂ hphase₁ hphase₂ := by
    rcases calls_setCall h₁ with ⟨hr₁, heq₁⟩ | ⟨_, hold₁⟩ <;>
      rcases calls_setCall h₂ with ⟨hr₂, heq₂⟩ | ⟨_, hold₂⟩
    · rw [hr₁, hr₂]
    · rw [hr₁]
      exact (halone call₁ heq₁ hphase₁ r₂ call₂ hold₂ hphase₂).symm
    · rw [hr₂]
      exact halone call₂ heq₂ hphase₂ r₁ call₁ hold₁ hphase₁
    · exact h.alone r₁ r₂ call₁ call₂ hold₁ hold₂ hphase₁ hphase₂

/-- The bytes that a reader returns are those in front of the unread ones. -/
theorem Inv.finish (h : x.Inv) {count available : Nat} {cbuf : List UInt8}
    (hcall : x.calls r = some ⟨count, .copying available cbuf⟩) (hdone : ¬ cbuf.length < available) :
    Inv { x.setCall r none with
      tty := { x.tty with inTail := x.tty.inTail + BitVec.ofNat 32 available }
      returns := x.returns ++ [(count, cbuf)] } := by
  obtain ⟨hpos, hcount, hle, hlen, hstarts⟩ := h.fits r _ hcall
  dsimp only at hcount
  have havail : cbuf.length = available := by omega
  have hlevel : available ≤ (x.tty.inHead - x.tty.inTail).toNat := by
    rwa [Tty.length_unread] at hle
  have hunread : ({ x.tty with inTail := x.tty.inTail + BitVec.ofNat 32 available } : Tty).unread =
      x.tty.unread.drop available := Ring.window_advance x.tty.inBuf hlevel
  have hother (r' : ρ) (call : ReadCall) (hcall' : (x.setCall r none).calls r' = some call) :
      r' ≠ r ∧ x.calls r' = some call := by
    rcases calls_setCall hcall' with ⟨_, heq⟩ | hold
    · cases heq
    · exact hold
  refine ⟨?_, ?_, ?_, fun r' call hr' => h.counts r' call (hother r' call hr').2, ?_, ?_⟩
  · rw [← Tty.length_unread, hunread, List.length_drop, Tty.length_unread]
    have hfits := h.level
    omega
  · have hfront : cbuf = x.tty.unread.take available := by
      rw [← havail]
      exact List.prefix_iff_eq_take.mp hstarts
    have hstream := h.stream
    rw [hunread]
    simp only [kept, List.map_append, List.map_cons, List.map_nil, List.flatten_append,
      List.flatten_cons, List.flatten_nil, List.append_nil, List.append_assoc]
    rw [hfront, List.take_append_drop]
    exact hstream
  · intro p hp
    rcases List.mem_append.mp hp with hp | hp
    · exact h.returned p hp
    · obtain rfl := List.mem_singleton.mp hp
      dsimp only
      omega
  · intro r' call hr'
    obtain ⟨hne, hold⟩ := hother r' call hr'
    apply ReadCall.fits_of_waiting
    by_contra hphase
    exact hne (h.alone r' r call _ hold hcall hphase nofun)
  · intro r₁ r₂ call₁ call₂ h₁ h₂
    exact h.alone r₁ r₂ call₁ call₂ (hother r₁ call₁ h₁).2 (hother r₂ call₂ h₂).2

theorem Inv.step {e : TtyEvent ρ} (h : x.Inv) (hs : x.Step e y) : y.Inv := by
  cases e with
  | put c =>
      obtain rfl := hs
      exact h.put c
  | call r count =>
      obtain ⟨_, hcount, rfl⟩ := hs
      apply h.setCall
      · rintro _ ⟨⟩
        exact ⟨hcount, trivial⟩
      · rintro _ ⟨⟩ hphase
        exact absurd rfl hphase
  | pass r =>
      obtain ⟨count, hcall, havail, hwaiting, rfl⟩ := hs
      have hcount := h.counts r _ hcall
      apply h.setCall
      · rintro _ ⟨⟩
        refine ⟨hcount, fun hempty => ?_⟩
        have hzero := congrArg List.length hempty
        rw [Tty.length_unread, List.length_nil] at hzero
        have hlevel : x.tty.inHead - x.tty.inTail ≠ 0 := by
          simpa [ttyInputAvailable] using havail
        exact hlevel (BitVec.eq_of_toNat_eq (by simpa using hzero))
      · intro _ _ _ r' other hother hphase
        exact absurd (hwaiting r' other hother) hphase
  | die r =>
      obtain ⟨count, hcall, rfl⟩ := hs
      exact h.setCall nofun nofun
  | measure r =>
      obtain ⟨count, hcall, rfl⟩ := hs
      have hcount := h.counts r _ hcall
      have hsome : x.tty.unread ≠ [] := h.fits r _ hcall
      have hlevel := List.length_pos_iff.mpr hsome
      rw [Tty.length_unread] at hlevel
      apply h.setCall
      · rintro _ ⟨⟩
        refine ⟨hcount, ?_, ?_, ?_, Nat.zero_le _, List.nil_prefix⟩
        all_goals
          simp only [available, Tty.length_unread] at *
          split <;> omega
      · intro _ _ _ r' other hother hphase
        exact h.alone r' r other _ hother hcall hphase nofun
  | copy r =>
      obtain ⟨count, available, cbuf, hcall, hmore, rfl⟩ := hs
      obtain ⟨hpos, hcount, hle, hlen, hstarts⟩ := h.fits r _ hcall
      have hcountPos := h.counts r _ hcall
      have hlevel : cbuf.length < (x.tty.inHead - x.tty.inTail).toNat := by
        rw [Tty.length_unread] at hle
        omega
      have hnext := Ring.getElem?_window x.tty.inBuf hlevel
      apply h.setCall
      · rintro _ ⟨⟩
        refine ⟨hcountPos, hpos, hcount, hle, ?_, ?_⟩
        · rw [List.length_append, List.length_singleton]
          omega
        · rw [List.prefix_iff_eq_take, List.length_append, List.length_singleton,
            List.take_add_one, ← List.prefix_iff_eq_take.mp hstarts, Tty.unread, hnext]
          rfl
      · intro _ _ _ r' other hother hphase
        exact h.alone r' r other _ hother hcall hphase nofun
  | finish r =>
      obtain ⟨count, available, cbuf, hcall, hdone, rfl⟩ := hs
      exact h.finish hcall hdone

/-- What readers and the keyboard can rely on. -/
structure StreamOk (x : TtyRun ρ) : Prop where
  level : (x.tty.inHead - x.tty.inTail).toNat ≤ ttyInputBufSize
  /-- What the reads have returned and what is still buffered are together the
  bytes that were put, in order, but for those that were put into a full ring. -/
  stream : (x.returns.map Prod.snd).flatten ++ x.tty.unread =
    (x.puts.filter fun p => !p.2).map Prod.fst
  returned : ∀ p ∈ x.returns, 1 ≤ p.2.length ∧ p.2.length ≤ p.1

/-- The input of a terminal is a stream, over all interleavings of the keyboard
with the statements of its readers. -/
theorem stream_ok (hx : (ttyMachine ρ).Reachable x) : StreamOk x := by
  have hinv : x.Inv := by
    apply hx.invariant
    · rintro x ⟨hempty, hcalls, hputs, hreturns⟩
      refine ⟨by simp [hempty], ?_, ?_, ?_, ?_, ?_⟩
      · simp [hreturns, kept, hputs, Tty.unread, hempty]
      · simp [hreturns]
      · simp [hcalls]
      · simp [hcalls]
      · simp [hcalls]
    · exact fun x e y h _ hs => h.step hs
  exact ⟨hinv.level, hinv.stream, hinv.returned⟩

/-- A read of at most five bytes gets the byte that was there and the one that
came before it looked how many there are. -/
theorem stream_ok_read :
    ∃ x : TtyRun Slot, x.returns = [(5, [97, 98])] ∧ StreamOk x := by
  have hinit : (ttyMachine Slot).Reachable ⟨ttyInit, fun _ => none, [], []⟩ :=
    .init ⟨rfl, rfl, rfl, rfl⟩
  have hput := hinit.step (e := TtyEvent.put 97) trivial rfl
  have hcall := hput.step (e := TtyEvent.call 0 5) trivial ⟨rfl, by decide, rfl⟩
  have hpass := hcall.step (e := TtyEvent.pass 0) trivial ⟨5, rfl, by decide, by decide, rfl⟩
  have hput' := hpass.step (e := TtyEvent.put 98) trivial rfl
  have hmeasure := hput'.step (e := TtyEvent.measure 0) trivial ⟨5, rfl, rfl⟩
  have hfirst := hmeasure.step (e := TtyEvent.copy 0) trivial ⟨5, 2, [], rfl, by decide, rfl⟩
  have hsecond := hfirst.step (e := TtyEvent.copy 0) trivial ⟨5, 2, [97], rfl, by decide, rfl⟩
  have hfinish := hsecond.step (e := TtyEvent.finish 0) trivial ⟨5, 2, [97, 98], rfl, by decide, rfl⟩
  exact ⟨_, rfl, stream_ok hfinish⟩

/-- The copy loop, without interruption. -/
theorem runs_copy {count available : Nat} (n : Nat) (hn : n ≤ available)
    (hcall : x.calls r = some ⟨count, .copying available []⟩) :
    (ttyMachine ρ).Runs (fun _ _ => True) x (x.setCall r (some ⟨count, .copying available
      ((List.range n).map fun i => x.tty.inBuf
        (Ring.maskIndex ttyInputBufSize (x.tty.inTail + BitVec.ofNat 32 i)))⟩)) := by
  induction n with
  | zero =>
      have hsame : x.setCall r (some ⟨count, .copying available []⟩) = x := by
        rw [← hcall, TtyRun.setCall, Function.update_eq_self]
      rw [List.range_zero, List.map_nil, hsame]
      exact .refl x
  | succ n ih =>
      refine (ih (by omega)).tail (e := .copy r) trivial ⟨count, available, _,
        Function.update_self .., ?_, ?_⟩
      · simp
        omega
      · simp [TtyRun.setCall, List.range_succ]

/-- Behind `wait_event` and without interruption, `tty_read` comes to `ttyTake`. -/
theorem runs_ttyTake {count : Nat} (hcall : x.calls r = some ⟨count, .passed⟩) :
    (ttyMachine ρ).Runs (fun _ _ => True) x { x.setCall r none with
      tty := (ttyTake x.tty count).2
      returns := x.returns ++ [(count, (ttyTake x.tty count).1)] } := by
  let x₁ := x.setCall r (some ⟨count, .copying (x.available count) []⟩)
  have hmeasure : (ttyMachine ρ).Runs (fun _ _ => True) x x₁ :=
    .single (e := .measure r) trivial ⟨count, hcall, rfl⟩
  have hcopy := runs_copy (x := x₁) (x.available count) le_rfl (Function.update_self ..)
  refine (hmeasure.trans hcopy).tail (e := .finish r) trivial ⟨count, x.available count, _,
    Function.update_self .., by simp, ?_⟩
  simp only [setCall, x₁, Function.update_idem]
  rfl

end TtyRun

/-- What `tty_input_put` does to the terminals. -/
theorem Kernel.ttys_ttyInputPut {k k' : Kernel} {t : TtyRef} {c : UInt8}
    (h : k.ttyInputPut t c = some k') :
    k'.ttys = Function.update k.ttys t ((k.ttys t).put c) := by
  unfold Kernel.ttyInputPut at h
  split at h
  · next hroom =>
    have hfull : (k.ttys t).full = true := by
      simpa [Tty.full, Kernel.ttyHasRoom] using hroom
    rw [Tty.put_of_full hfull, Function.update_eq_self, Option.some.inj h]
  · next hroom =>
    have hfull : (k.ttys t).full = false := by
      simpa [Tty.full, Kernel.ttyHasRoom] using hroom
    obtain ⟨_, _, rfl⟩ := Option.map_eq_some_iff.mp h
    rw [Tty.put, if_neg (by simp [hfull])]
    rfl

end Punix
