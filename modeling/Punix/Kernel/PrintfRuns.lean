import Punix.Kernel.PrintfAgrees

/-!
Whole calls of the formatters: a call does what the standard says if and only if all of its
items agree, and the text fits and is no longer than an `int` can tell.
-/

namespace Punix

open Format

variable {f : Formatter} {ap : VaList} {size : BitVec 32} {st st' : PrintState}

/-- The text of the items has been put. -/
structure Puts (ap : VaList) (size : BitVec 32) (items : List Item) (st st' : PrintState) :
    Prop where
  taken : st'.taken = st.taken + totalWords items
  pos : st'.pos.toNat = st.pos.toNat + (text ap st.taken items).length
  bytes : ∀ k c, st.pos.toNat + k < (size - 1).toNat → (text ap st.taken items)[k]? = some c →
    st'.buf (st.pos.toNat + k) = c

section Items

variable {item : Item} {items : List Item} {lap : List UInt8}

theorem totalWords_cons : totalWords (item :: items) = item.words + totalWords items := by
  simp [totalWords]

theorem length_text_cons {i : Nat} : (text ap i (item :: items)).length =
    (item.text ap i).length + (text ap (i + item.words) items).length := by
  rw [text, List.length_append]

theorem taken_putItems_le (st : PrintState) :
    (putItems f ap size items st).taken ≤ st.taken + totalWords items := by
  induction items generalizing st with
  | nil => exact le_rfl
  | cons item items ih =>
      rw [putItems, totalWords_cons]
      split
      · have hrest := ih (putItem f ap size item st)
        have hfirst : (putItem f ap size item st).taken = st.taken + item.taken := rfl
        have hword := item.words_le
        omega
      · omega

/-- If all words are taken, no item has got too few. -/
theorem taken_eq_words (hroom : st.pos < size - 1)
    (htaken : (putItems f ap size (item :: items) st).taken =
      st.taken + totalWords (item :: items)) :
    item.taken = item.words ∧
      (putItems f ap size items (putItem f ap size item st)).taken =
        (putItem f ap size item st).taken + totalWords items := by
  rw [putItems, if_pos hroom, totalWords_cons] at htaken
  have hrest : (putItems f ap size items (putItem f ap size item st)).taken ≤ _ :=
    taken_putItems_le _
  have hfirst : (putItem f ap size item st).taken = st.taken + item.taken := rfl
  have hword := item.words_le
  constructor
  · omega
  · omega

theorem pos_putItem_le (f : Formatter) (ap : VaList) (size : BitVec 32) (item : Item)
    (st : PrintState) : (putItem f ap size item st).pos.toNat ≤
      st.pos.toNat + (item.chars f ap st.taken).length := by
  rw [Item.chars, List.length_map]
  exact PrintState.toNat_placeAll_pos_le size st (item.puts f ap st.taken)

/-- An item that does not fit is laid around the buffer. -/
theorem pos_putItem_cut (hroom : st.pos < size - 1)
    (hcut : (size - 1).toNat < st.pos.toNat + (item.chars f ap st.taken).length) :
    (putItem f ap size item st).pos.toNat ≤ (size - 1).toNat := by
  rcases item.puts_cases f ap st.taken with hone | ⟨ps, p, hputs, hsteps⟩
  · have hlt := BitVec.lt_def.mp hroom
    omega
  · change (st.placeAll size (item.puts f ap st.taken)).pos.toNat ≤ _
    rw [hputs]
    exact PrintState.toNat_placeAll_pos_le_room (room_pos hroom) hsteps st ps

/-- One that fits goes on with the lap. -/
theorem Laid.putItem (h : Laid size lap st)
    (hfit : lap.length + (item.chars f ap st.taken).length ≤ (size - 1).toNat) :
    Laid size (lap ++ item.chars f ap st.taken) (putItem f ap size item st) := by
  have hall := h.placeAll (item.puts f ap st.taken)
  rw [Item.chars, List.length_map] at hfit
  rw [lay_of_fits (BitVec.isLt _) hfit] at hall
  exact ⟨hall.pos, hall.bytes⟩

/-- With all words taken, no more is put than the text. -/
theorem pos_putItems_le (hlen : (text ap st.taken items).length < 2 ^ 31)
    (htaken : (putItems f ap size items st).taken = st.taken + totalWords items) :
    (putItems f ap size items st).pos.toNat ≤
      st.pos.toNat + (text ap st.taken items).length := by
  induction items generalizing st with
  | nil => exact le_rfl
  | cons item items ih =>
      rw [length_text_cons] at hlen ⊢
      rcases Classical.em (st.pos < size - 1) with hroom | hfull
      · obtain ⟨hword, hrest⟩ := taken_eq_words hroom htaken
        have hnext : (putItem f ap size item st).taken = st.taken + item.words := by
          rw [← hword]
          rfl
        have hitem := item.length_chars_le (f := f) hword
          (show (item.text ap st.taken).length < 2 ^ 31 by omega)
        have hpos := pos_putItem_le f ap size item st
        have hle := ih (by rw [hnext]; omega) hrest
        rw [putItems, if_pos hroom]
        rw [hnext] at hle
        omega
      · rw [putItems, if_neg hfull]
        exact Nat.le_add_right _ _

/-- Of an item that agrees and for which there is room, nothing is wrong. -/
theorem Format.Item.Agrees.chars_eq {i room : Nat} (h : item.Agrees f ap i room)
    (hroom : (item.text ap i).length ≤ room) : item.chars f ap i = item.text ap i := by
  have hshown := h.shown
  rwa [List.take_of_length_le (h.length.trans_le hroom), List.take_of_length_le hroom] at hshown

/-- Items that agree and fit are put as the standard says. -/
theorem puts_of_along (hlaid : Laid size lap st)
    (h : Along (Item.Agrees f ap) ap st.taken ((size - 1).toNat - lap.length) items)
    (hfit : lap.length + (text ap st.taken items).length ≤ (size - 1).toNat) :
    Laid size (lap ++ text ap st.taken items) (putItems f ap size items st) ∧
      (putItems f ap size items st).taken = st.taken + totalWords items := by
  induction items generalizing st lap with
  | nil =>
      rw [text, List.append_nil]
      exact ⟨hlaid, rfl⟩
  | cons item items ih =>
      obtain ⟨hroom, hagrees, hrest⟩ := h
      rw [length_text_cons] at hfit
      have hchars := hagrees.chars_eq (by omega)
      have hnext : (Punix.putItem f ap size item st).taken = st.taken + item.words := by
        rw [← hagrees.taken]
        rfl
      have hput : Laid size (lap ++ item.chars f ap st.taken) (Punix.putItem f ap size item st) :=
        hlaid.putItem (by rw [hchars]; omega)
      rw [hchars] at hput
      have hlt : st.pos < size - 1 := hlaid.lt_iff.mpr (by omega)
      rw [Nat.sub_sub, ← List.length_append, ← hnext] at hrest
      obtain ⟨hall, htaken⟩ := ih hput hrest (by rw [List.length_append, hnext]; omega)
      rw [hnext, List.append_assoc] at hall
      rw [putItems, if_pos hlt, text]
      refine ⟨hall, ?_⟩
      rw [htaken, hnext, totalWords_cons, Nat.add_assoc]

/-- If the text has been counted to its end, then its first item fits and is as long as its text:
a cut would leave `pos` behind for good. -/
theorem item_fits (hroom : st.pos < size - 1)
    (hlen : (text ap st.taken (item :: items)).length < 2 ^ 31)
    (h : Puts ap size (item :: items) st (putItems f ap size (item :: items) st)) :
    st.pos.toNat + (item.chars f ap st.taken).length ≤ (size - 1).toNat ∧
      (item.chars f ap st.taken).length = (item.text ap st.taken).length := by
  obtain ⟨hword, hrest⟩ := taken_eq_words hroom h.taken
  have hnext : (putItem f ap size item st).taken = st.taken + item.words := by
    rw [← hword]
    rfl
  have hend := h.pos
  rw [length_text_cons] at hlen hend
  rw [putItems, if_pos hroom] at hend
  have hless := item.length_chars_le (f := f) hword
    (show (item.text ap st.taken).length < 2 ^ 31 by omega)
  have hbound := pos_putItems_le (by rw [hnext]; omega) hrest
  rw [hnext] at hbound
  constructor
  · by_contra hcut
    have hback : (putItem f ap size item st).pos.toNat ≤ (size - 1).toNat :=
      pos_putItem_cut hroom (Nat.not_le.mp hcut)
    omega
  · have hpos := pos_putItem_le f ap size item st
    omega

/-- Behind the first item the rest of the text has been put. -/
theorem Puts.tail (hroom : st.pos < size - 1) (hword : item.taken = item.words)
    (hplace : (putItem f ap size item st).pos.toNat =
      st.pos.toNat + (item.text ap st.taken).length)
    (h : Puts ap size (item :: items) st (putItems f ap size (item :: items) st)) :
    Puts ap size items (putItem f ap size item st)
      (putItems f ap size items (putItem f ap size item st)) := by
  have hnext : (putItem f ap size item st).taken = st.taken + item.words := by
    rw [← hword]
    rfl
  have heq : putItems f ap size (item :: items) st =
      putItems f ap size items (putItem f ap size item st) := by
    rw [putItems, if_pos hroom]
  rw [heq] at h
  refine ⟨?_, ?_, ?_⟩
  · rw [h.taken, totalWords_cons, hnext, Nat.add_assoc]
  · rw [h.pos, length_text_cons, hplace, hnext, Nat.add_assoc]
  · intro k c hk hc
    rw [hplace, Nat.add_assoc] at hk ⊢
    rw [hnext] at hc
    apply h.bytes _ c hk
    rw [text, List.getElem?_append_right (Nat.le_add_right _ _), Nat.add_sub_cancel_left, hc]

/-- And if the text has been put, then it fits, and all items agree. -/
theorem along_of_puts (hlaid : Laid size lap st) (hle : lap.length ≤ (size - 1).toNat)
    (hlen : (text ap st.taken items).length < 2 ^ 31)
    (h : Puts ap size items st (putItems f ap size items st)) :
    Along (Item.Agrees f ap) ap st.taken ((size - 1).toNat - lap.length) items ∧
      lap.length + (text ap st.taken items).length ≤ (size - 1).toNat := by
  induction items generalizing st lap with
  | nil => exact ⟨trivial, hle⟩
  | cons item items ih =>
      rcases Classical.em (st.pos < size - 1) with hroom | hfull
      · obtain ⟨hword, -⟩ := taken_eq_words hroom h.taken
        obtain ⟨hfit, hlength⟩ := item_fits hroom hlen h
        have hnext : (Punix.putItem f ap size item st).taken = st.taken + item.words := by
          rw [← hword]
          rfl
        rw [hlaid.pos] at hfit
        have hput := hlaid.putItem hfit
        have hplace : (Punix.putItem f ap size item st).pos.toNat =
            st.pos.toNat + (item.text ap st.taken).length := by
          rw [hput.pos, List.length_append, hlength, hlaid.pos]
        rw [length_text_cons] at hlen ⊢
        obtain ⟨halong, hfits⟩ := ih hput (by rw [List.length_append]; exact hfit)
          (by rw [hnext]; omega) (h.tail hroom hword hplace)
        obtain ⟨hfinal, -⟩ := puts_of_along hput halong hfits
        have hbytes := h.bytes
        rw [putItems, if_pos hroom, hlaid.pos] at hbytes
        have hchars : item.chars f ap st.taken = item.text ap st.taken := by
          apply hfinal.eq_of_bytes hlength hfit
          intro k c hk hc
          have hin : k < (item.text ap st.taken).length := (List.getElem?_eq_some_iff.mp hc).1
          apply hbytes k c hk
          rw [text, List.getElem?_append_left hin, hc]
        rw [List.length_append, hlength, ← Nat.sub_sub, hnext] at halong
        rw [List.length_append, hlength, hnext] at hfits
        have hlt := hlaid.lt_iff.mp hroom
        exact ⟨⟨by omega, ⟨hword, hlength, congrArg (List.take _) hchars⟩, halong⟩, by omega⟩
      · -- the loop has ended before the item
        exfalso
        obtain ⟨htaken, hend, -⟩ := h
        rw [putItems, if_neg hfull] at htaken hend
        rw [totalWords_cons] at htaken
        rw [length_text_cons] at hend
        have hnone : (item.text ap st.taken).length = 0 := by omega
        have hwords := Item.words_ne_zero hnone
        omega

end Items

section Calls

variable {items : List Item} {buf : Nat → UInt8}

/-- The state in which a call begins. -/
def PrintState.start (buf : Nat → UInt8) : PrintState := ⟨buf, 0, 0⟩

theorem laid_start (size : BitVec 32) (buf : Nat → UInt8) : Laid size [] (.start buf) :=
  ⟨rfl, fun i c _ hc => by cases hc⟩

/-- The NUL behind the loop. -/
theorem vsnprintfWith_of_loop {fmt : List UInt8} (hsize : 0 < size)
    (h : vsnprintfLoop f ap size fmt.length fmt (.start buf) = some st) :
    vsnprintfWith f buf size fmt ap = some
      { buf := Function.update st.buf (min st.pos.toNat (size.toNat - 1)) 0
        ret := st.pos
        taken := st.taken } := by
  have hlast := toNat_size_sub_one hsize
  have hloop : vsnprintfLoop f ap size fmt.length fmt { buf, pos := 0, taken := 0 } = some st := h
  unfold vsnprintfWith
  rw [hloop, Option.bind_eq_bind, Option.bind_some]
  change some _ = some _
  congr 2
  change (if st.pos < size then _ else _) = _
  split
  · next hlt => rw [Nat.min_eq_left (Nat.le_sub_one_of_lt (BitVec.lt_def.mp hlt))]
  · next hge =>
      have hle : size.toNat ≤ st.pos.toNat :=
        Nat.not_lt.mp fun hlt => hge (BitVec.lt_def.mpr hlt)
      rw [hlast, Nat.min_eq_right (by omega)]

theorem prescribed_iff_puts (f : Formatter) (ap : VaList) (items : List Item)
    (buf : Nat → UInt8) (hsize : 0 < size) :
    (∃ p, vsnprintfWith f buf size (render items) ap = some p ∧ Prescribed ap size items p) ↔
      (text ap 0 items).length < 2 ^ 31 ∧
        Puts ap size items (.start buf) (putItems f ap size items (.start buf)) := by
  have hlast := toNat_size_sub_one hsize
  have hzero : (PrintState.start buf).pos.toNat = 0 := rfl
  rw [vsnprintfWith_of_loop hsize (vsnprintfLoop_render f ap size le_rfl (.start buf))]
  generalize putItems f ap size items (.start buf) = st
  have hcond := BitVec.toInt_eq_toNat_cond st.pos
  have hlt := st.pos.isLt
  constructor
  · rintro ⟨p, hp, htaken, hret, hbytes, -⟩
    obtain rfl := Option.some.inj hp
    dsimp only at htaken hret hbytes
    have hpos : st.pos.toNat = (text ap 0 items).length := by
      split at hcond
      · omega
      · omega
    have hshort : (text ap 0 items).length < 2 ^ 31 := by
      split at hcond
      · omega
      · omega
    refine ⟨hshort, ?_, ?_, ?_⟩
    · rw [htaken]
      exact (Nat.zero_add _).symm
    · rw [hpos, hzero, Nat.zero_add]
      rfl
    · intro k c hk hc
      rw [hzero, Nat.zero_add] at hk ⊢
      have hlen : k < (text ap 0 items).length := (List.getElem?_eq_some_iff.mp hc).1
      have hbyte := hbytes k (by omega) c hc
      rwa [Function.update_of_ne (by omega)] at hbyte
  · rintro ⟨hshort, htaken, hpos, hbytes⟩
    have hend : st.pos.toNat = (text ap 0 items).length := by
      rw [hpos, hzero, Nat.zero_add]
      rfl
    refine ⟨_, rfl, ?_, ?_, ?_, ?_⟩
    · rw [htaken]
      exact Nat.zero_add _
    · rw [hcond, if_pos (by omega), hend]
    · intro n hn c hc
      have hlen : n < (text ap 0 items).length := (List.getElem?_eq_some_iff.mp hc).1
      have hbyte := hbytes n c (by omega) hc
      rw [hzero, Nat.zero_add] at hbyte
      dsimp only
      rwa [Function.update_of_ne (by omega)]
    · dsimp only
      rw [hend, Function.update_self]

/-- What holds of the same items holds along the same lists. -/
theorem along_congr {P Q : Nat → Nat → Item → Prop} {i room : Nat}
    (hlen : (text ap i items).length < 2 ^ 31)
    (h : ∀ i room item, 0 < room → (item.text ap i).length < 2 ^ 31 →
      (P i room item ↔ Q i room item)) : Along P ap i room items ↔ Along Q ap i room items := by
  induction items generalizing i room with
  | nil => exact Iff.rfl
  | cons item items ih =>
      rw [length_text_cons] at hlen
      apply and_congr_right
      intro hroom
      exact and_congr (h i room item hroom (by omega)) (ih (by omega))

/-- One call does what the standard says just for plain items that fit. -/
theorem prescribed_iff (upperHex : Bool)
    (hf : f.hex = if upperHex then hexDigitUpper else hexDigit) (buf : Nat → UInt8)
    (hsize : 0 < size) :
    (∃ p, vsnprintfWith f buf size (render items) ap = some p ∧ Prescribed ap size items p) ↔
      (text ap 0 items).length < 2 ^ 31 ∧ (text ap 0 items).length < size.toNat ∧
        Along (Item.Plain upperHex ap) ap 0 (size.toNat - 1) items := by
  rw [prescribed_iff_puts f ap items buf hsize]
  apply and_congr_right
  intro hshort
  have hlaid := laid_start size buf
  have hpositive : 0 < size.toNat := BitVec.lt_def.mp hsize
  have hlast := toNat_size_sub_one hsize
  have hagrees : Along (Item.Agrees f ap) ap 0 (size.toNat - 1) items ↔
      Along (Item.Plain upperHex ap) ap 0 (size.toNat - 1) items := by
    apply along_congr hshort
    intro i room item hroom hitem
    cases item with
    | literal c hpercent hnul => exact Item.plain_literal hpercent hnul
    | directive d => exact d.agrees_iff hf hroom hitem
  rw [← hagrees, ← hlast]
  constructor
  · intro h
    obtain ⟨halong, hfit⟩ := along_of_puts hlaid (Nat.zero_le _) hshort h
    rw [List.length_nil, Nat.zero_add, hlast] at hfit
    exact ⟨Nat.lt_of_le_sub_one hpositive hfit, halong⟩
  · rintro ⟨hfit, halong⟩
    obtain ⟨hall, htaken⟩ := puts_of_along hlaid halong (by
      rw [List.length_nil, Nat.zero_add, hlast]
      exact Nat.le_sub_one_of_lt hfit)
    rw [List.nil_append] at hall
    have hzero : (PrintState.start buf).pos.toNat = 0 := rfl
    refine ⟨htaken, ?_, ?_⟩
    · rw [hall.pos, hzero, Nat.zero_add]
    · intro k c hk hc
      rw [hzero, Nat.zero_add] at hk ⊢
      exact hall.bytes k c hk hc

/-- Without capitals for `%x` there is less that goes wrong. -/
theorem along_plain_of_upperHex {i room : Nat} (h : Along (Item.Plain true ap) ap i room items) :
    Along (Item.Plain false ap) ap i room items := by
  induction items generalizing i room with
  | nil => trivial
  | cons item items ih =>
      obtain ⟨hroom, hitem, hrest⟩ := h
      refine ⟨hroom, ?_, ih hrest⟩
      cases item with
      | literal => trivial
      | directive d =>
          change d.Plain true ap i room at hitem
          change d.Plain false ap i room
          unfold Directive.Plain at hitem ⊢
          cases hconv : d.conv with
          | hex upper => exact fun h => absurd h Bool.false_ne_true
          | _ =>
              rw [hconv] at hitem
              exact hitem

/-- The same string, result and arguments. -/
structure SamePrinted (n : Nat) (p p' : Printed) : Prop where
  ret : p.ret = p'.ret
  taken : p.taken = p'.taken
  bytes : ∀ i ≤ n, p.buf i = p'.buf i

theorem Prescribed.same {p p' : Printed} (h : Prescribed ap size items p)
    (h' : Prescribed ap size items p') :
    SamePrinted (min (text ap 0 items).length (size.toNat - 1)) p p' where
  ret := BitVec.toInt_inj.mp (h.ret.trans h'.ret.symm)
  taken := h.taken.trans h'.taken.symm
  bytes i hi := by
    rcases Nat.lt_or_eq_of_le hi with hlt | rfl
    · have hget := List.getElem?_eq_getElem (l := text ap 0 items) (i := i) (by omega)
      rw [h.bytes i (by omega) _ hget, h'.bytes i (by omega) _ hget]
    · rw [h.nul, h'.nul]

/-- Both formatters do what the standard says, and so the same, if and only if the result is
an `int`, the text fits, there is room before the last item, and every item is plain. -/
theorem vsnprintf_iff (ap : VaList) (items : List Item) (size : BitVec 32)
    (buf buf' : Nat → UInt8) (hsize : 0 < size) :
    (∃ p p', kVsnprintf buf size (render items) ap = some p ∧
      vsnprintf buf' size (render items) ap = some p' ∧ Prescribed ap size items p ∧
      Prescribed ap size items p' ∧
      SamePrinted (min (text ap 0 items).length (size.toNat - 1)) p p') ↔
    (text ap 0 items).length < 2 ^ 31 ∧ (text ap 0 items).length < size.toNat ∧
      Along (Item.Plain true ap) ap 0 (size.toNat - 1) items := by
  have hkernel : (∃ p, kVsnprintf buf size (render items) ap = some p ∧
      Prescribed ap size items p) ↔ _ := prescribed_iff true rfl buf hsize
  constructor
  · rintro ⟨p, p', hp, hp', hok, hok', -⟩
    exact hkernel.mp ⟨p, hp, hok⟩
  · intro h
    have hlibc : (text ap 0 items).length < 2 ^ 31 ∧ (text ap 0 items).length < size.toNat ∧
        Along (Item.Plain false ap) ap 0 (size.toNat - 1) items :=
      ⟨h.1, h.2.1, along_plain_of_upperHex h.2.2⟩
    obtain ⟨p, hp, hok⟩ := hkernel.mpr h
    obtain ⟨p', hp', hok'⟩ := (prescribed_iff (f := libcFormatter) false rfl buf' hsize).mpr hlibc
    exact ⟨p, p', hp, hp', hok, hok', hok.same hok'⟩

/-- `%5d`, or `%05d`. -/
def fiveWide (zero : Bool) : Directive where
  zero := zero
  digits := [53]
  length := .int
  conv := .signed false
  allDigits c hc := by
    rw [List.mem_singleton.mp hc]
    rfl
  noFlag _ := by simp [digitZero]

def minusThree : VaList where
  words _ := -3
  strings _ := []

/-- Zeros do go behind the sign. -/
theorem vsnprintf_zeros : ∃ p p',
    kVsnprintf (fun _ => 0) 16 (render [.directive (fiveWide true)]) minusThree = some p ∧
      vsnprintf (fun _ => 0) 16 (render [.directive (fiveWide true)]) minusThree = some p' ∧
      Prescribed minusThree 16 [.directive (fiveWide true)] p ∧
      Prescribed minusThree 16 [.directive (fiveWide true)] p' ∧
      SamePrinted (min (text minusThree 0 [.directive (fiveWide true)]).length
        ((16 : BitVec 32).toNat - 1)) p p' := by
  apply (vsnprintf_iff minusThree [.directive (fiveWide true)] 16 (fun _ => 0) (fun _ => 0)
    (by decide)).mpr
  exact ⟨by decide +kernel, by decide +kernel, by decide, ⟨by decide, .inr (.inl rfl)⟩, trivial⟩

/-- Blanks go behind the sign, too. -/
theorem vsnprintf_blanks : ¬ ∃ p p',
    kVsnprintf (fun _ => 0) 16 (render [.directive (fiveWide false)]) minusThree = some p ∧
      vsnprintf (fun _ => 0) 16 (render [.directive (fiveWide false)]) minusThree = some p' ∧
      Prescribed minusThree 16 [.directive (fiveWide false)] p ∧
      Prescribed minusThree 16 [.directive (fiveWide false)] p' ∧
      SamePrinted (min (text minusThree 0 [.directive (fiveWide false)]).length
        ((16 : BitVec 32).toNat - 1)) p p' := by
  rintro ⟨p, p', hp, -, hok, -⟩
  have hfirst : (text minusThree 0 [.directive (fiveWide false)])[0]? = some space := by
    decide +kernel
  have hspace := hok.bytes 0 (by decide) space hfirst
  have hminus : (kVsnprintf (fun _ => 0) 16 (render [.directive (fiveWide false)])
      minusThree).map (fun p => p.buf 0) = some minus := by
    decide +kernel
  rw [hp, Option.map_some, hspace] at hminus
  exact absurd hminus (by decide)

end Calls

end Punix
