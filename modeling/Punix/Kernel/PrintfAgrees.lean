import Punix.Kernel.PrintfItems

/-!
The items for which a formatter puts what the standard says, in whatever the buffer has
room for.
-/

namespace Punix

open Format

namespace Format

/-- The formatter takes the right words for the item, counts the right number of
characters, and puts the first `room` of them right. -/
structure Item.Agrees (f : Formatter) (ap : VaList) (i room : Nat) (item : Item) : Prop where
  taken : item.taken = item.words
  length : (item.chars f ap i).length = (item.text ap i).length
  shown : (item.chars f ap i).take room = (item.text ap i).take room

/-- There is no combination that the formatter gets wrong: two words for a signed argument,
blanks before a sign, blanks before a character or a string, and, with digits in upper case
(`upperHex`), a letter of `%x` that is shown. -/
def Directive.Plain (upperHex : Bool) (ap : VaList) (i room : Nat) (d : Directive) : Prop :=
  match d.conv with
  | .percent | .unsigned => True
  | .char => d.width ≤ 1
  | .string => d.width ≤ (ap.string i).length
  | .signed _ => d.length ≠ .longLong ∧ (0 ≤ d.signedArg ap i ∨ d.zero = true ∨
      d.width ≤ 1 + (number 10 decDigit (d.signedArg ap i).natAbs).length)
  | .hex upper => upperHex = true → upper = false →
      ∀ c ∈ (d.text ap i).take room, c < 'a'.toUInt8

def Item.Plain (upperHex : Bool) (ap : VaList) (i room : Nat) : Item → Prop
  | .literal _ _ _ => True
  | .directive d => d.Plain upperHex ap i room

/-- `P` holds of every item, at its first argument and for the room that is left, which is
not nothing. -/
def Along (P : Nat → Nat → Item → Prop) (ap : VaList) : Nat → Nat → List Item → Prop
  | _, _, [] => True
  | i, room, item :: items =>
      0 < room ∧ P i room item ∧ Along P ap (i + item.words) (room - (item.text ap i).length) items

end Format

/-- A sign and digits, with the padding between them. -/
def inner (zero : Bool) (width : Nat) (sign digits : List UInt8) : List UInt8 :=
  sign ++ List.replicate (width - (sign ++ digits).length) (if zero then digitZero else space) ++
    digits

section Field

variable {d : Directive} {zero : Bool} {width : Nat} {sign digits : List UInt8}

theorem length_field : (field zero width sign digits).length =
    max width (sign ++ digits).length := by
  unfold field
  cases zero <;> simp <;> omega

/-- Nothing is left to be padded. -/
theorem field_of_le (h : width ≤ (sign ++ digits).length) :
    field zero width sign digits = sign ++ digits := by
  have hpad : width - (sign ++ digits).length = 0 := by omega
  unfold field
  dsimp only
  rw [hpad]
  cases zero <;> simp

/-- The width is an `int`. -/
theorem pad_eq (h : d.width < 2 ^ 31) (len : Nat) :
    d.flags.pad len = List.replicate (d.width - len) (if d.zero then digitZero else space) := by
  have hwidth : d.flags.width.toInt = d.width := by
    change (BitVec.ofNat 32 d.width).toInt = _
    rw [BitVec.toInt_eq_toNat_of_lt, BitVec.toNat_ofNat]
    · omega
    · rw [BitVec.toNat_ofNat]
      omega
  unfold PrintFlags.pad
  rw [hwidth]
  dsimp only
  have hlen : (if (d.width : Int) > len then ((d.width : Int) - len).toNat else 0) =
      d.width - len := by
    split <;> omega
  rw [hlen]
  rfl

theorem paddedDigits_eq (h : d.width < 2 ^ 31) (digits : List UInt8) :
    (paddedDigits d.flags digits).map Put.char = field d.zero d.width [] digits := by
  unfold paddedDigits field
  rw [List.map_append, Put.map_char_plain, Put.map_char_stepping, pad_eq h]
  cases d.zero <;> simp

theorem width_le_field : width ≤ (field zero width sign digits).length := by
  rw [length_field]
  exact Nat.le_max_left _ _

/-- The sign goes first, whatever the padding is. -/
theorem signedChars_eq (h : d.width < 2 ^ 31) (v : BitVec 32) :
    (signedChars d.flags v).map Put.char = inner d.zero d.width (if v.toInt < 0 then [minus] else [])
      (number 10 decDigit v.toInt.natAbs) := by
  have hv := v.isLt
  have habs : (if v.toInt < 0 then -v else v).toNat = v.toInt.natAbs := by
    have hint := BitVec.toInt_eq_toNat_cond v
    split
    · rw [BitVec.toNat_neg]
      split at hint <;> omega
    · split at hint <;> omega
  have hsmall : v.toInt.natAbs < 10 ^ 16 := by
    rw [← habs]
    exact (BitVec.isLt _).trans (by decide)
  unfold signedChars
  dsimp only
  rw [List.map_append, Put.map_char_plain, Put.map_char_stepping, habs,
    tmpDigits_eq decDigit (by decide) hsmall, pad_eq h, inner]
  split
  · simp [Nat.add_comm]
  · simp

end Field

section Agrees

variable {f : Formatter} {ap : VaList} {i room : Nat} {d : Directive}

theorem Format.Item.words_le (item : Item) : item.taken ≤ item.words := by
  cases item with
  | literal => exact le_rfl
  | directive d =>
      change d.taken ≤ d.words
      unfold Directive.taken Directive.words
      cases d.conv with
      | signed isI =>
          dsimp only
          split
          · decide
          · decide
      | _ => exact le_rfl

theorem Format.Item.plain_literal {upperHex : Bool} {c : UInt8} (hpercent : c ≠ percent)
    (hnul : c ≠ 0) : (Item.literal c hpercent hnul).Agrees f ap i room ↔
      (Item.literal c hpercent hnul).Plain upperHex ap i room :=
  ⟨fun _ => trivial, fun _ => ⟨rfl, rfl, rfl⟩⟩

/-- A text without its padding. -/
theorem agrees_unpadded {width : Nat} {text : List UInt8} :
    text.length = (field false width [] text).length ∧
      text.take room = (field false width [] text).take room ↔ width ≤ text.length := by
  constructor
  · rintro ⟨hlength, -⟩
    rw [length_field] at hlength
    simp only [List.nil_append] at hlength
    omega
  · intro h
    rw [field_of_le h]
    exact ⟨rfl, rfl⟩

def upperCase (c : UInt8) : UInt8 := if 'a'.toUInt8 ≤ c then c - 32 else c

theorem upperCase_eq_self_iff (c : UInt8) : upperCase c = c ↔ c < 'a'.toUInt8 := by
  unfold upperCase
  split
  · next hle =>
      constructor
      · intro heq
        have hc := congrArg UInt8.toNat heq
        rw [UInt8.toNat_sub_of_le _ _ (UInt8.le_trans (by decide) hle)] at hc
        have hpos : 97 ≤ c.toNat := hle
        change c.toNat - 32 = _ at hc
        omega
      · intro hlt
        exact absurd hle (UInt8.not_le.mpr hlt)
  · next hnot => simpa using hnot

theorem number_upperCase (n : Nat) :
    number 16 hexDigitUpper n = (number 16 hexDigit n).map upperCase := by
  unfold number
  split
  · rfl
  · rw [List.map_map]
    apply List.map_congr_left
    intro digit hdigit
    have hlt : digit < 16 := Nat.digits_lt_base (by decide) (List.mem_reverse.mp hdigit)
    have hall : ∀ e < 16, hexDigitUpper e = upperCase (hexDigit e) := by decide
    exact hall digit hlt

theorem field_upperCase (zero : Bool) (width : Nat) (digits : List UInt8) :
    field zero width [] (digits.map upperCase) = (field zero width [] digits).map upperCase := by
  have hzero : upperCase digitZero = digitZero := by decide
  have hspace : upperCase space = space := by decide
  unfold field
  cases zero <;> simp [hzero, hspace]

/-- Only letters tell the cases apart. -/
theorem agrees_upperCase (text : List UInt8) :
    (text.map upperCase).take room = text.take room ↔ ∀ c ∈ text.take room, c < 'a'.toUInt8 := by
  have hself := List.map_inj_left (f := upperCase) (g := id) (l := text.take room)
  rw [List.map_id] at hself
  rw [← List.map_take, hself]
  exact forall₂_congr fun c _ => upperCase_eq_self_iff c

theorem length_inner (zero : Bool) (width : Nat) (sign digits : List UInt8) :
    (inner zero width sign digits).length = (field zero width sign digits).length := by
  rw [length_field, inner]
  simp only [List.length_append, List.length_replicate]
  omega

theorem inner_eq_field {zero : Bool} {width : Nat} {sign digits : List UInt8}
    (h : sign = [] ∨ zero = true ∨ width ≤ (sign ++ digits).length) :
    inner zero width sign digits = field zero width sign digits := by
  rcases h with rfl | rfl | hle
  · cases zero <;> simp [inner, field]
  · rfl
  · rw [field_of_le hle, inner, Nat.sub_eq_zero_of_le hle]
    simp

/-- Blanks belong in front of the sign, and already the first character shows them. -/
theorem inner_ne_field {width : Nat} {digits : List UInt8} (hroom : 0 < room)
    (hwidth : 1 + digits.length < width) :
    (inner false width [minus] digits).take room ≠ (field false width [minus] digits).take room := by
  obtain ⟨room, rfl⟩ := Nat.exists_eq_add_one.mpr hroom
  obtain ⟨pad, hpad⟩ : ∃ pad, width - ([minus] ++ digits).length = pad + 1 := by
    apply Nat.exists_eq_add_one.mpr
    simp only [List.length_append, List.length_singleton]
    omega
  unfold field inner
  dsimp only
  rw [hpad]
  simp [List.replicate_succ, minus, space]

theorem agrees_signed {zero : Bool} {width : Nat} {n : Int} {digits : List UInt8}
    (hroom : 0 < room) :
    (inner zero width (if n < 0 then [minus] else []) digits).take room =
        (field zero width (if n < 0 then [minus] else []) digits).take room ↔
      0 ≤ n ∨ zero = true ∨ width ≤ 1 + digits.length := by
  constructor
  · intro heq
    by_contra hnot
    simp only [not_or, Bool.not_eq_true, not_le] at hnot
    obtain ⟨hneg, rfl, hwidth⟩ := hnot
    rw [if_pos hneg] at heq
    exact inner_ne_field hroom hwidth heq
  · intro h
    congr 1
    apply inner_eq_field
    rcases h with hn | hzero | hwidth
    · exact .inl (if_neg (not_lt.mpr hn))
    · exact .inr (.inl hzero)
    · split
      · right
        right
        simp only [List.length_append, List.length_singleton]
        exact hwidth
      · exact .inl rfl

/-- The width of what is padded is no more than the length of the text. -/
theorem width_lt (hpad : d.conv ≠ .percent) (h : (d.text ap i).length < 2 ^ 31) :
    d.width < 2 ^ 31 := by
  apply Nat.lt_of_le_of_lt _ h
  unfold Directive.text
  cases hconv : d.conv with
  | percent => exact absurd hconv hpad
  | _ => exact width_le_field

theorem Format.Directive.agrees_iff {upperHex : Bool}
    (hf : f.hex = if upperHex then hexDigitUpper else hexDigit) (hroom : 0 < room)
    (h : (d.text ap i).length < 2 ^ 31) :
    (Item.directive d).Agrees f ap i room ↔ d.Plain upperHex ap i room := by
  have hparts : (Item.directive d).Agrees f ap i room ↔ d.taken = d.words ∧
      ((d.puts f ap i).map Put.char).length = (d.text ap i).length ∧
        ((d.puts f ap i).map Put.char).take room = (d.text ap i).take room :=
    ⟨fun ⟨htaken, hlength, hshown⟩ => ⟨htaken, hlength, hshown⟩,
      fun ⟨htaken, hlength, hshown⟩ => ⟨htaken, hlength, hshown⟩⟩
  rw [hparts]
  have hwidth (hpad : d.conv ≠ .percent) := width_lt hpad h
  unfold Directive.taken Directive.words Directive.puts Directive.Plain
  cases hconv : d.conv with
  | percent =>
      have htext : d.text ap i = [percent] := by rw [Directive.text, hconv]
      dsimp only
      rw [Put.map_char_plain]
      simp [htext]
  | char =>
      have htext : d.text ap i = field false d.width [] [UInt8.ofNat (ap.words i).toNat] := by
        rw [Directive.text, hconv]
      dsimp only
      rw [Put.map_char_plain, htext, and_iff_right rfl, agrees_unpadded]
      rfl
  | string =>
      have htext : d.text ap i = field false d.width [] (ap.string i) := by
        rw [Directive.text, hconv]
      dsimp only
      rw [Put.map_char_stepping, htext, and_iff_right rfl, agrees_unpadded]
  | signed isI =>
      have htext : d.text ap i = field d.zero d.width (if d.signedArg ap i < 0 then [minus] else [])
          (number 10 decDigit (d.signedArg ap i).natAbs) := by
        rw [Directive.text, hconv]
        rfl
      rcases eq_or_ne d.length .longLong with hlong | hshort
      · -- two words are due, and one is taken
        simp [hlong]
      · have harg : d.signedArg ap i = (ap.words i).toInt := if_neg hshort
        dsimp only
        rw [if_neg hshort, and_iff_right rfl, and_iff_right hshort, htext, harg,
          signedChars_eq (hwidth (by simp [hconv])), and_iff_right (length_inner _ _ _ _)]
        exact agrees_signed hroom
  | unsigned =>
      have htext : d.text ap i =
          field d.zero d.width [] (number 10 decDigit (d.unsignedArg ap i)) := by
        rw [Directive.text, hconv]
      dsimp only
      rw [htext, paddedDigits_eq (hwidth (by simp [hconv]))]
      simp
  | hex upper =>
      have htext : d.text ap i = field d.zero d.width []
          (number 16 (if upper then hexDigitUpper else hexDigit) (d.unsignedArg ap i)) := by
        rw [Directive.text, hconv]
      dsimp only
      rw [htext, paddedDigits_eq (hwidth (by simp [hconv])), and_iff_right rfl, hf]
      cases upper with
      | true => simp
      | false =>
          cases upperHex with
          | false => simp
          | true =>
              have hupper := field_upperCase d.zero d.width
                (number 16 hexDigit (d.unsignedArg ap i))
              rw [← number_upperCase] at hupper
              simp only [if_true, Bool.false_eq_true, if_false, true_imp_iff]
              rw [hupper, and_iff_right (List.length_map ..)]
              exact agrees_upperCase _

/-- Without a missing word the formatter never puts too much. -/
theorem Format.Item.length_chars_le {item : Item} (htaken : item.taken = item.words)
    (h : (item.text ap i).length < 2 ^ 31) :
    (item.chars f ap i).length ≤ (item.text ap i).length := by
  cases item with
  | literal => exact le_rfl
  | directive d =>
      have hwidth (hpad : d.conv ≠ .percent) := width_lt hpad h
      change d.taken = d.words at htaken
      change ((d.puts f ap i).map Put.char).length ≤ (d.text ap i).length
      unfold Directive.taken Directive.words at htaken
      unfold Directive.puts Directive.text
      cases hconv : d.conv with
      | percent => exact le_rfl
      | char =>
          dsimp only
          rw [Put.map_char_plain, length_field]
          exact Nat.le_max_right _ _
      | string =>
          dsimp only
          rw [Put.map_char_stepping, length_field]
          exact Nat.le_max_right _ _
      | signed isI =>
          rw [hconv] at htaken
          have hshort : d.length ≠ .longLong := by
            intro hlong
            simp [hlong] at htaken
          have harg : d.signedArg ap i = (ap.words i).toInt := if_neg hshort
          dsimp only
          rw [signedChars_eq (hwidth (by simp [hconv])), length_inner, Directive.sign, harg]
      | unsigned =>
          dsimp only
          rw [paddedDigits_eq (hwidth (by simp [hconv]))]
      | hex upper =>
          dsimp only
          rw [paddedDigits_eq (hwidth (by simp [hconv])), length_field, length_field]
          apply le_of_eq
          simp only [List.nil_append, number]
          split
          · rfl
          · simp

theorem exists_concat_stepping {cs : List UInt8} (h : cs ≠ []) (qs : List Put) :
    ∃ ps p, qs ++ Put.stepping cs = ps ++ [p] ∧ p.steps = true := by
  obtain ⟨init, c, rfl⟩ := (List.eq_nil_or_concat' cs).resolve_left h
  refine ⟨qs ++ Put.stepping init, ⟨c, true⟩, ?_, rfl⟩
  rw [Put.stepping, List.map_append, ← List.append_assoc]
  rfl

/-- What an item puts is a single character, or it ends with a loop. -/
theorem Format.Item.puts_cases (f : Formatter) (ap : VaList) (i : Nat) (item : Item) :
    (item.chars f ap i).length ≤ 1 ∨
      ∃ ps p, item.puts f ap i = ps ++ [p] ∧ p.steps = true := by
  cases item with
  | literal => exact .inl le_rfl
  | directive d =>
      have hdigits (v : Nat) : tmpDigits 10 decDigit 16 v ≠ [] := by
        unfold tmpDigits
        split
        · exact List.cons_ne_nil _ _
        · next hne =>
            rw [digitsRev, if_pos (Nat.pos_of_ne_zero hne)]
            exact List.reverse_ne_nil_iff.mpr (List.cons_ne_nil _ _)
      change ((d.puts f ap i).map Put.char).length ≤ 1 ∨
        ∃ ps p, d.puts f ap i = ps ++ [p] ∧ p.steps = true
      unfold Directive.puts
      cases d.conv with
      | percent => exact .inl le_rfl
      | char => exact .inl le_rfl
      | string =>
          rcases eq_or_ne (ap.string i) [] with hnil | hne
          · left
            dsimp only
            rw [hnil]
            exact Nat.zero_le 1
          · exact .inr (exists_concat_stepping hne [])
      | signed isI => exact .inr (exists_concat_stepping (hdigits _) _)
      | unsigned => exact .inr (exists_concat_stepping (number_ne_nil _) _)
      | hex upper => exact .inr (exists_concat_stepping (number_ne_nil _) _)

/-- Every item puts something or takes something. -/
theorem Format.Item.words_ne_zero {item : Item} (h : (item.text ap i).length = 0) :
    item.words ≠ 0 := by
  cases item with
  | literal => cases h
  | directive d =>
      change d.words ≠ 0
      change (d.text ap i).length = 0 at h
      unfold Directive.text at h
      unfold Directive.words
      cases hconv : d.conv with
      | percent =>
          rw [hconv] at h
          cases h
      | char => exact one_ne_zero
      | string => exact one_ne_zero
      | _ =>
          dsimp only
          split
          · exact two_ne_zero
          · exact one_ne_zero

end Agrees

end Punix
