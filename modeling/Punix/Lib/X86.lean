import Punix.Lib.Memory

/-!
A part of the 32-bit x86 instruction set: moves, the stack, and what routines without
jumps need to switch between stacks and address spaces. Above some address all address
spaces show the same memory. What an arithmetic instruction leaves in the status flags is
a parameter.
-/

namespace Punix.Lib

namespace Memory

variable {m m' : Memory 32} {a b x : BitVec 32} {xs ys : List (BitVec 32)}

/-- The words `xs` stand from `a` on. -/
def WordsAt (m : Memory 32) : BitVec 32 → List (BitVec 32) → Prop
  | _, [] => True
  | a, x :: xs => m.word a = x ∧ WordsAt m (a + 4) xs

theorem wordsAt_cons : m.WordsAt a (x :: xs) ↔ m.word a = x ∧ m.WordsAt (a + 4) xs := Iff.rfl

/-- The lower half of a word is its first two bytes. -/
theorem word_setWidth (m : Memory 32) (a : BitVec 32) :
    (m.word a).setWidth 16 = BitVec.ofNat 16 ((m a).toNat + 256 * (m (a + 1)).toNat) := by
  apply BitVec.eq_of_toNat_eq
  rw [word, BitVec.toNat_setWidth, BitVec.toNat_ofNat, BitVec.toNat_ofNat]
  omega

/-- A word is not changed by what is stored in front of it or behind it. -/
theorem word_fill_of_apart {n : Nat} (data : Nat → UInt8)
    (h : b.toNat + 4 ≤ a.toNat ∨ a.toNat + n ≤ b.toNat)
    (ha : a.toNat + n ≤ 2 ^ 32) (hb : b.toNat + 4 ≤ 2 ^ 32) :
    (m.fill a data n).word b = m.word b := by
  apply word_congr
  intro i hi
  apply fill_outside
  rw [BitVec.toNat_sub, BitVec.toNat_add, BitVec.toNat_ofNat]
  omega

theorem word_setWord_of_apart (h : b.toNat + 4 ≤ a.toNat ∨ a.toNat + 4 ≤ b.toNat)
    (ha : a.toNat + 4 ≤ 2 ^ 32) (hb : b.toNat + 4 ≤ 2 ^ 32) :
    (m.setWord a x).word b = m.word b := word_fill_of_apart (byteOf x) h ha hb

theorem setWord_apart (h : b.toNat < a.toNat ∨ a.toNat + 4 ≤ b.toNat)
    (ha : a.toNat + 4 ≤ 2 ^ 32) : m.setWord a x b = m b := by
  have hb := b.isLt
  apply fill_outside
  rw [BitVec.toNat_sub]
  omega

/-- Words are told by the bytes of their range. -/
theorem WordsAt.congr (h : m.WordsAt a xs) (hfit : a.toNat + 4 * xs.length ≤ 2 ^ 32)
    (hsame : ∀ b : BitVec 32, a.toNat ≤ b.toNat → b.toNat < a.toNat + 4 * xs.length →
      m' b = m b) : m'.WordsAt a xs := by
  induction xs generalizing a with
  | nil => trivial
  | cons y ys ih =>
      rw [List.length_cons] at hfit hsame
      obtain ⟨hword, hrest⟩ := h
      constructor
      · rw [← hword]
        apply word_congr
        intro i hi
        apply hsame
        · rw [BitVec.toNat_add, BitVec.toNat_ofNat]
          omega
        · rw [BitVec.toNat_add, BitVec.toNat_ofNat]
          omega
      · rcases ys with - | ⟨z, zs⟩
        · trivial
        · have hnext : (a + 4).toNat = a.toNat + 4 := by
            rw [BitVec.toNat_add]
            simp only [List.length_cons] at hfit
            change (a.toNat + 4) % 2 ^ 32 = _
            omega
          apply ih hrest
          · omega
          · intro b hlow hhigh
            exact hsame b (by omega) (by omega)

/-- Equal words are equal bytes. -/
theorem eq_of_word_eq (h : m.word a = m'.word a) {i : Nat} (hi : i < 4) :
    m (a + BitVec.ofNat 32 i) = m' (a + BitVec.ofNat 32 i) := by
  have hnat := congrArg BitVec.toNat h
  rw [word_eq_bytes, word_eq_bytes, BitVec.toNat_ofNat, BitVec.toNat_ofNat] at hnat
  have hbyte (j : Nat) := (m (a + BitVec.ofNat 32 j)).toNat_lt
  have hbyte' (j : Nat) := (m' (a + BitVec.ofNat 32 j)).toNat_lt
  have hlt := hbyte 0
  have hlt₁ := hbyte 1
  have hlt₂ := hbyte 2
  have hlt₃ := hbyte 3
  have hlt' := hbyte' 0
  have hlt₁' := hbyte' 1
  have hlt₂' := hbyte' 2
  have hlt₃' := hbyte' 3
  apply UInt8.toNat_inj.mp
  obtain rfl | rfl | rfl | rfl : i = 0 ∨ i = 1 ∨ i = 2 ∨ i = 3 := by omega
  all_goals omega

theorem WordsAt.bytes (h : m.WordsAt a xs) (h' : m'.WordsAt a xs)
    (hfit : a.toNat + 4 * xs.length ≤ 2 ^ 32) (hlow : a.toNat ≤ b.toNat)
    (hhigh : b.toNat < a.toNat + 4 * xs.length) : m b = m' b := by
  induction xs generalizing a with
  | nil =>
      rw [List.length_nil] at hhigh
      omega
  | cons y ys ih =>
      rw [List.length_cons] at hfit hhigh
      rcases Nat.lt_or_ge b.toNat (a.toNat + 4) with hword | hrest
      · have hb : b = a + BitVec.ofNat 32 (b.toNat - a.toNat) := by
          apply BitVec.eq_of_toNat_eq
          rw [BitVec.toNat_add, BitVec.toNat_ofNat]
          omega
        rw [hb]
        exact eq_of_word_eq (h.1.trans h'.1.symm) (by omega)
      · have hnext : (a + 4).toNat = a.toNat + 4 := by
          rw [BitVec.toNat_add]
          change (a.toNat + 4) % 2 ^ 32 = _
          omega
        apply ih h.2 h'.2
        · omega
        · omega
        · omega

theorem WordsAt.setWord (h : m.WordsAt a xs) (hfit : a.toNat + 4 * xs.length ≤ 2 ^ 32)
    (hb : b.toNat + 4 ≤ 2 ^ 32)
    (hapart : b.toNat + 4 ≤ a.toNat ∨ a.toNat + 4 * xs.length ≤ b.toNat) :
    (m.setWord b x).WordsAt a xs := by
  apply h.congr hfit
  intro c hlow hhigh
  exact setWord_apart (by omega) hb

theorem toNat_sub_four (h : 4 ≤ a.toNat) : (a - 4).toNat = a.toNat - 4 := by
  rw [BitVec.toNat_sub]
  change (2 ^ 32 - 4 + a.toNat) % 2 ^ 32 = _
  omega

/-- A word that is pushed stands in front of the others. -/
theorem WordsAt.push (h : m.WordsAt a xs) (hfit : a.toNat + 4 * xs.length ≤ 2 ^ 32)
    (hroom : 4 ≤ a.toNat) : (m.setWord (a - 4) x).WordsAt (a - 4) (x :: xs) := by
  have hlow := toNat_sub_four hroom
  refine ⟨word_setWord m (by decide) x, ?_⟩
  rw [BitVec.sub_add_cancel]
  exact h.setWord hfit (by omega) (Or.inl (by omega))

theorem WordsAt.append (h : m.WordsAt a (xs ++ ys)) :
    m.WordsAt a xs ∧ m.WordsAt (a + BitVec.ofNat 32 (4 * xs.length)) ys := by
  induction xs generalizing a with
  | nil => exact ⟨trivial, by simpa using h⟩
  | cons z zs ih =>
      obtain ⟨hword, hrest⟩ := h
      obtain ⟨hfirst, hlast⟩ := ih hrest
      refine ⟨⟨hword, hfirst⟩, ?_⟩
      rwa [List.length_cons, Nat.mul_succ, Nat.add_comm, BitVec.ofNat_add, ← BitVec.add_assoc]

/-- The words are stored downwards from below `a`, the first one first. -/
def pushes (m : Memory 32) : BitVec 32 → List (BitVec 32) → Memory 32
  | _, [] => m
  | a, x :: xs => (m.setWord (a - 4) x).pushes (a - 4) xs

/-- Pushed words stand there in the opposite order, in front of what was there before. -/
theorem WordsAt.pushes (h : m.WordsAt a ys) (hfit : a.toNat + 4 * ys.length ≤ 2 ^ 32)
    (hroom : 4 * xs.length ≤ a.toNat) :
    (m.pushes a xs).WordsAt (a - BitVec.ofNat 32 (4 * xs.length)) (xs.reverse ++ ys) := by
  induction xs generalizing m a ys with
  | nil => simpa [Memory.pushes] using h
  | cons x xs ih =>
      rw [List.length_cons] at hroom
      have hlow := toNat_sub_four (a := a) (by omega)
      have hnext := ih (h.push (x := x) hfit (by omega))
        (by rw [hlow, List.length_cons]; omega) (by omega)
      rw [List.length_cons, List.reverse_cons, List.append_assoc, Nat.mul_succ, Nat.add_comm,
        BitVec.ofNat_add, ← BitVec.sub_sub]
      exact hnext

/-- The words that have been pushed, the last one first. -/
theorem wordsAt_pushes (m : Memory 32) (hroom : 4 * xs.length ≤ a.toNat) :
    (m.pushes a xs).WordsAt (a - BitVec.ofNat 32 (4 * xs.length)) xs.reverse := by
  have hnone : m.WordsAt a [] := trivial
  have hall := hnone.pushes a.isLt.le hroom
  rwa [List.append_nil] at hall

theorem toNat_sub_words (hroom : 4 * xs.length ≤ a.toNat) :
    (a - BitVec.ofNat 32 (4 * xs.length)).toNat = a.toNat - 4 * xs.length := by
  have ha := a.isLt
  rw [BitVec.toNat_sub, BitVec.toNat_ofNat]
  omega

theorem pushes_concat (m : Memory 32) (a x : BitVec 32) (xs : List (BitVec 32)) :
    m.pushes a (xs ++ [x]) =
      (m.pushes a xs).setWord (a - BitVec.ofNat 32 (4 * xs.length) - 4) x := by
  induction xs generalizing m a with
  | nil => simp [Memory.pushes]
  | cons y ys ih =>
      rw [List.cons_append, Memory.pushes, Memory.pushes, ih, List.length_cons, Nat.mul_succ,
        Nat.add_comm, BitVec.ofNat_add, ← BitVec.sub_sub]
      rfl

theorem pushes_apart (h : b.toNat + 4 * xs.length < a.toNat ∨ a.toNat ≤ b.toNat)
    (hroom : 4 * xs.length ≤ a.toNat) : m.pushes a xs b = m b := by
  induction xs generalizing m a with
  | nil => rfl
  | cons x xs ih =>
      rw [List.length_cons] at h hroom
      have hlow := toNat_sub_four (a := a) (by omega)
      have ha := a.isLt
      rw [Memory.pushes, ih (by omega) (by omega)]
      exact setWord_apart (by omega) (by omega)

end Memory

namespace X86

inductive Reg where
  | eax
  | ebx
  | ecx
  | edx
  | esi
  | edi
  | ebp
  | esp
deriving DecidableEq

/-- A processor with its memory. `mem` is what the active address space shows, and `spaces`
has what the others show, under the addresses of their page directories. -/
structure State where
  reg : Reg → BitVec 32
  eip : BitVec 32
  eflags : BitVec 32
  cr3 : BitVec 32
  mem : Memory 32
  spaces : BitVec 32 → Memory 32

/-- Instructions with the operands that are used; `[base + disp]` and `[addr]` are words in
memory. -/
inductive Instr where
  | push (r : Reg)
  | pop (r : Reg)
  | pushfd
  | popfd
  | mov (dst src : Reg)
  | movImm (dst : Reg) (x : BitVec 32)
  | load (dst base : Reg) (disp : BitVec 32)
  | loadAt (dst : Reg) (addr : BitVec 32)
  | store (base : Reg) (disp : BitVec 32) (src : Reg)
  | storeImm (base : Reg) (disp x : BitVec 32)
  | lea (dst base : Reg) (disp : BitVec 32)
  | add (dst : Reg) (x : BitVec 32)
  | sub (dst : Reg) (x : BitVec 32)
  | xor (dst src : Reg)
  | movCr3 (src : Reg)
  | cli
  | sti
  | ret

/-- What the instruction set leaves open: where the memory begins that all address spaces
share, and the status flags behind arithmetic. -/
structure Config where
  split : BitVec 32
  status : Instr → State → BitVec 32

/-- `CF`, `PF`, `AF`, `ZF`, `SF` and `OF`. -/
def statusFlags : BitVec 32 := 0x8D5

def interruptFlag : BitVec 32 := 0x200

/-- The flags that are neither status flags nor `IF`, of those that `popfd` can change. -/
def controlFlags : BitVec 32 := 0x247500

/-- `pushfd` stores `VM` and `RF` as zeros. -/
def pushFlags (flags : BitVec 32) : BitVec 32 := flags &&& 0xFCFFFF

/-- The flags that `popfd` can change, with the bit that is always set. -/
def popFlags (x : BitVec 32) : BitVec 32 := (x &&& 0x247FD5) ||| 2

def setStatus (flags status : BitVec 32) : BitVec 32 :=
  (flags &&& ~~~statusFlags) ||| (status &&& statusFlags)

section Flags

variable {mask : BitVec 32} (flags x : BitVec 32)

/-- Flags that are no status flags. -/
theorem setStatus_and (hkeep : ~~~statusFlags &&& mask = mask) (hdrop : statusFlags &&& mask = 0) :
    setStatus flags x &&& mask = flags &&& mask := by
  rw [setStatus, BitVec.and_or_distrib_right, BitVec.and_assoc, hkeep, BitVec.and_assoc, hdrop]
  exact (congrArg _ BitVec.and_zero).trans BitVec.or_zero

/-- Flags that `popfd` changes. -/
theorem popFlags_and (hkeep : 0x247FD5 &&& mask = mask) (hdrop : 2 &&& mask = 0) :
    popFlags x &&& mask = x &&& mask := by
  rw [popFlags, BitVec.and_or_distrib_right, BitVec.and_assoc, hkeep, hdrop]
  exact BitVec.or_zero

/-- Flags that `pushfd` stores. -/
theorem pushFlags_and (hkeep : 0xFCFFFF &&& mask = mask) :
    pushFlags flags &&& mask = flags &&& mask := by
  rw [pushFlags, BitVec.and_assoc, hkeep]

theorem sti_controlFlags : (flags ||| interruptFlag) &&& controlFlags = flags &&& controlFlags := by
  have hdrop : interruptFlag &&& controlFlags = 0 := by decide
  rw [BitVec.and_or_distrib_right, hdrop]
  exact BitVec.or_zero

theorem cli_controlFlags :
    (flags &&& ~~~interruptFlag) &&& controlFlags = flags &&& controlFlags := by
  have hkeep : ~~~interruptFlag &&& controlFlags = controlFlags := by decide
  rw [BitVec.and_assoc, hkeep]

theorem sti_interruptFlag : (flags ||| interruptFlag) &&& interruptFlag = interruptFlag := by
  apply BitVec.eq_of_getElem_eq
  intro i hi
  simp only [BitVec.getElem_and, BitVec.getElem_or]
  cases flags[i] <;> simp

end Flags

namespace State

def setReg (s : State) (r : Reg) (x : BitVec 32) : State :=
  { s with reg := Function.update s.reg r x }

def setWord (s : State) (a x : BitVec 32) : State := { s with mem := s.mem.setWord a x }

/-- What an address space shows below the shared memory. -/
def space (s : State) (pd : BitVec 32) : Memory 32 := if pd = s.cr3 then s.mem else s.spaces pd

/-- `mov cr3, pd`. -/
def setCr3 (split : BitVec 32) (s : State) (pd : BitVec 32) : State :=
  { s with
    cr3 := pd
    mem := fun a => if a < split then s.space pd a else s.mem a
    spaces := Function.update s.spaces s.cr3 s.mem }

end State

def exec (cfg : Config) (i : Instr) (s : State) : State :=
  let esp := s.reg .esp
  let arith (dst : Reg) (x : BitVec 32) : State :=
    { s.setReg dst x with eflags := setStatus s.eflags (cfg.status i s) }
  match i with
  | .push r => (s.setWord (esp - 4) (s.reg r)).setReg .esp (esp - 4)
  | .pop r => (s.setReg .esp (esp + 4)).setReg r (s.mem.word esp)
  | .pushfd => (s.setWord (esp - 4) (pushFlags s.eflags)).setReg .esp (esp - 4)
  | .popfd => { s.setReg .esp (esp + 4) with eflags := popFlags (s.mem.word esp) }
  | .mov dst src => s.setReg dst (s.reg src)
  | .movImm dst x => s.setReg dst x
  | .load dst base disp => s.setReg dst (s.mem.word (s.reg base + disp))
  | .loadAt dst addr => s.setReg dst (s.mem.word addr)
  | .store base disp src => s.setWord (s.reg base + disp) (s.reg src)
  | .storeImm base disp x => s.setWord (s.reg base + disp) x
  | .lea dst base disp => s.setReg dst (s.reg base + disp)
  | .add dst x => arith dst (s.reg dst + x)
  | .sub dst x => arith dst (s.reg dst - x)
  | .xor dst src => arith dst (s.reg dst ^^^ s.reg src)
  | .movCr3 src => s.setCr3 cfg.split (s.reg src)
  | .cli => { s with eflags := s.eflags &&& ~~~interruptFlag }
  | .sti => { s with eflags := s.eflags ||| interruptFlag }
  | .ret => { s.setReg .esp (esp + 4) with eip := s.mem.word esp }

/-- A routine without jumps. -/
def run (cfg : Config) (code : List Instr) (s : State) : State :=
  code.foldl (fun s i => exec cfg i s) s

@[simp] theorem run_nil (cfg : Config) (s : State) : run cfg [] s = s := rfl

@[simp] theorem run_cons (cfg : Config) (i : Instr) (code : List Instr) (s : State) :
    run cfg (i :: code) s = run cfg code (exec cfg i s) := rfl

section Spaces

variable {split pd q a : BitVec 32} {s : State}

/-- Above `split` the address space makes no difference. -/
theorem mem_setCr3_of_le (h : split.toNat ≤ a.toNat) : (s.setCr3 split pd).mem a = s.mem a :=
  if_neg (Nat.not_lt.mpr h)

/-- No address space changes when another one gets active. -/
theorem space_setCr3 (h : a.toNat < split.toNat) :
    (s.setCr3 split pd).space q a = s.space q a := by
  rcases eq_or_ne q pd with rfl | hne
  · have hactive : (s.setCr3 split q).space q = (s.setCr3 split q).mem := if_pos rfl
    rw [hactive]
    exact if_pos h
  · have hother : (s.setCr3 split pd).space q = Function.update s.spaces s.cr3 s.mem q :=
      if_neg hne
    rw [hother, Function.update_apply]
    rfl

end Spaces

theorem run_append (cfg : Config) (code rest : List Instr) (s : State) :
    run cfg (code ++ rest) s = run cfg rest (run cfg code s) :=
  List.foldl_append ..

/-- The address of the page without the offset. -/
def pageMask : BitVec 32 := 0xFFFFF000

/-- What the processor makes of a linear address, with pages of 4 KiB. -/
def walk (mem : Memory 32) (cr3 va : BitVec 32) : Option (BitVec 32) :=
  let pde := mem.word ((cr3 &&& pageMask) + ((va >>> 22) <<< 2))
  if pde &&& 1#32 = 0 then none
  else
    let pte := mem.word ((pde &&& pageMask) + (((va >>> 12) &&& 0x3FF#32) <<< 2))
    if pte &&& 1#32 = 0 then none else some ((pte &&& pageMask) ||| (va &&& 0xFFF#32))

/-- What a segment descriptor says. -/
structure Segment where
  base : BitVec 32
  limit : BitVec 32
  access : BitVec 8
  wide : Bool
deriving DecidableEq

def Segment.ofWords (low high : BitVec 32) : Segment where
  base := (low >>> 16) ||| ((high &&& 0xFF#32) <<< 16) ||| (high &&& 0xFF000000#32)
  limit :=
    let limit := (low &&& 0xFFFF#32) ||| (high &&& 0xF0000#32)
    if high.getLsbD 23 then (limit <<< 12) ||| 0xFFF#32 else limit
  access := (high >>> 8).setWidth 8
  wide := high.getLsbD 22

/-- The descriptor that a selector stands for. -/
def descriptor (mem : Memory 32) (gdt selector : BitVec 32) : Segment :=
  Segment.ofWords (mem.word (gdt + selector)) (mem.word (gdt + selector + 4))

/-- `lgdt`: the limit and the address of the table. -/
def lgdt (mem : Memory 32) (a : BitVec 32) : BitVec 16 × BitVec 32 :=
  ((mem.word a).setWidth 16, mem.word (a + 2))

end X86

end Punix.Lib
