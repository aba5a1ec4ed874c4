import Punix.Kernel.Printf

/-!
The loops of the formatters over `PUT_CHAR`. A character that does not fit is put at the begin of
the buffer if the step to the next one is in the argument of the macro: the loop goes on until
`pos` has wrapped. Such a text is laid around the buffer, lap by lap.
-/

namespace Punix

variable {size : BitVec 32} {st : PrintState} {p : Put} {ps : List Put} {lap : List UInt8}

theorem toNat_size_sub_one (hsize : 0 < size) : (size - 1).toNat = size.toNat - 1 := by
  have hpos : (1 : BitVec 32) ≤ size := BitVec.le_def.mpr (BitVec.lt_def.mp hsize)
  rw [BitVec.toNat_sub_of_le hpos]
  rfl

theorem room_pos (h : st.pos < size - 1) : 0 < size - 1 :=
  BitVec.lt_def.mpr (Nat.zero_lt_of_lt (BitVec.lt_def.mp h))

/-- The characters of a loop, without the loop. -/
theorem Put.map_char_plain (cs : List UInt8) : (Put.plain cs).map Put.char = cs := by
  rw [Put.plain, List.map_map]
  exact List.map_id cs

theorem Put.map_char_stepping (cs : List UInt8) : (Put.stepping cs).map Put.char = cs := by
  rw [Put.stepping, List.map_map]
  exact List.map_id cs

namespace PrintState

/-- The state behind a `PUT_CHAR`, with the rounds in which `pos` moves on alone. -/
def place (size : BitVec 32) (st : PrintState) (p : Put) : PrintState :=
  if p.steps ∧ ¬ st.pos < size - 1 then { st with pos := 0 }.putChar size p.char
  else st.putChar size p.char

def placeAll (size : BitVec 32) (st : PrintState) (ps : List Put) : PrintState :=
  ps.foldl (place size) st

/-- From a full buffer on there are `k` rounds until `pos` is 0, where there is room. -/
theorem putNext_full (hroom : 0 < size - 1) (c : UInt8) {k fuel : Nat} (hfuel : k < fuel)
    (hk : st.pos.toNat + k = 2 ^ 32) (hfull : ¬ st.pos < size - 1) :
    putNext size c fuel st = some ({ st with pos := 0 }.putChar size c) := by
  induction k generalizing st fuel with
  | zero =>
      have hlt := st.pos.isLt
      omega
  | succ k ih =>
      obtain ⟨fuel, rfl⟩ := Nat.exists_eq_add_one.mpr (Nat.zero_lt_of_lt hfuel)
      have hpos : (st.pos + 1).toNat = (st.pos.toNat + 1) % 2 ^ 32 := BitVec.toNat_add st.pos 1
      rw [putNext, if_neg hfull]
      rcases Nat.eq_zero_or_pos k with rfl | hmore
      · -- `pos` wraps
        have hzero : st.pos + 1 = 0 := by
          apply BitVec.eq_of_toNat_eq
          rw [hpos, hk]
          rfl
        obtain ⟨fuel, rfl⟩ := Nat.exists_eq_add_one.mpr (Nat.lt_of_succ_lt_succ hfuel)
        rw [hzero, putNext]
        exact if_pos hroom
      · have hnext : (st.pos + 1).toNat = st.pos.toNat + 1 := by omega
        apply @ih { st with pos := st.pos + 1 } fuel (Nat.lt_of_succ_lt_succ hfuel)
        · dsimp only
          omega
        · intro hlt
          have hless := BitVec.lt_def.mp hlt
          dsimp only at hless
          exact hfull (BitVec.lt_def.mpr (by omega))

theorem put_eq (hroom : 0 < size - 1) (st : PrintState) (p : Put) :
    st.put size p = some (st.place size p) := by
  unfold put place
  rcases Classical.em (p.steps = true) with hsteps | hplain
  · rw [if_pos hsteps]
    rcases Classical.em (st.pos < size - 1) with hlt | hfull
    · rw [if_neg fun h => h.2 hlt]
      exact if_pos hlt
    · rw [if_pos ⟨hsteps, hfull⟩]
      have hge : (size - 1).toNat ≤ st.pos.toNat :=
        Nat.not_lt.mp fun h => hfull (BitVec.lt_def.mpr h)
      have hpositive : 0 < (size - 1).toNat := BitVec.lt_def.mp hroom
      exact putNext_full hroom p.char (by omega)
        (Nat.add_sub_cancel' st.pos.isLt.le) hfull
  · rw [if_neg hplain, if_neg fun h => hplain h.1]

/-- The loops of a conversion come to an end. -/
theorem puts_eq (hroom : 0 < size - 1) (st : PrintState) (ps : List Put) :
    st.puts size ps = some (st.placeAll size ps) := by
  induction ps generalizing st with
  | nil => rfl
  | cons p ps ih =>
      rw [puts, List.foldlM_cons, put_eq hroom]
      exact ih _

theorem toNat_putChar_pos_le (size : BitVec 32) (st : PrintState) (c : UInt8) :
    (st.putChar size c).pos.toNat ≤ st.pos.toNat + 1 := by
  change (st.pos + 1).toNat ≤ _
  rw [BitVec.toNat_add]
  exact Nat.mod_le _ _

theorem toNat_place_pos_le (size : BitVec 32) (st : PrintState) (p : Put) :
    (st.place size p).pos.toNat ≤ st.pos.toNat + 1 := by
  unfold place
  split
  · exact Nat.succ_le_succ (Nat.zero_le _)
  · exact toNat_putChar_pos_le size st p.char

theorem toNat_placeAll_pos_le (size : BitVec 32) (st : PrintState) (ps : List Put) :
    (st.placeAll size ps).pos.toNat ≤ st.pos.toNat + ps.length := by
  induction ps generalizing st with
  | nil => exact le_rfl
  | cons p ps ih =>
      have hfirst := toNat_place_pos_le size st p
      have hrest := ih (st.place size p)
      rw [List.length_cons]
      change ((st.place size p).placeAll size ps).pos.toNat ≤ _
      omega

/-- A character in a loop is in the buffer. -/
theorem toNat_place_pos_le_room (hroom : 0 < size - 1) (h : p.steps = true) (st : PrintState) :
    (st.place size p).pos.toNat ≤ (size - 1).toNat := by
  unfold place
  split
  · exact BitVec.lt_def.mp hroom
  · next hnot =>
      have hlt := BitVec.lt_def.mp (not_not.mp fun hfull => hnot ⟨h, hfull⟩)
      have hle := toNat_putChar_pos_le size st p.char
      omega

theorem placeAll_append (size : BitVec 32) (st : PrintState) (ps ps' : List Put) :
    st.placeAll size (ps ++ ps') = (st.placeAll size ps).placeAll size ps' := List.foldl_append

/-- With a loop at its end a conversion never leaves `pos` behind the buffer. -/
theorem toNat_placeAll_pos_le_room (hroom : 0 < size - 1) (h : p.steps = true)
    (st : PrintState) (ps : List Put) :
    (st.placeAll size (ps ++ [p])).pos.toNat ≤ (size - 1).toNat := by
  rw [placeAll_append]
  exact toNat_place_pos_le_room hroom h _

theorem putChar_outside {i : Nat} (hi : (size - 1).toNat ≤ i) (st : PrintState) (c : UInt8) :
    (st.putChar size c).buf i = st.buf i := by
  change (if st.pos < size - 1 then Function.update st.buf st.pos.toNat c else st.buf) i = _
  split
  · next hroom =>
      have hlt := BitVec.lt_def.mp hroom
      exact Function.update_of_ne (by omega) _ _
  · rfl

theorem placeAll_outside {i : Nat} (hi : (size - 1).toNat ≤ i) (st : PrintState)
    (ps : List Put) : (st.placeAll size ps).buf i = st.buf i := by
  induction ps generalizing st with
  | nil => rfl
  | cons p ps ih =>
      refine (ih (st.place size p)).trans ?_
      unfold place
      split
      · exact putChar_outside hi _ _
      · exact putChar_outside hi _ _

end PrintState

/-- The characters that have been put since `pos` was 0, with one more. There are `room` places
for them, and `2 ^ 32` are counted. -/
def layPut (room : Nat) (lap : List UInt8) (p : Put) : List UInt8 :=
  if p.steps ∧ room ≤ lap.length then [p.char]
  else if lap.length + 1 = 2 ^ 32 then []
  else lap ++ [p.char]

def lay (room : Nat) (lap : List UInt8) (ps : List Put) : List UInt8 := ps.foldl (layPut room) lap

/-- What has been put since `pos` was 0 is in the buffer, as far as there is room. -/
structure Laid (size : BitVec 32) (lap : List UInt8) (st : PrintState) : Prop where
  pos : st.pos.toNat = lap.length
  bytes : ∀ i c, i < (size - 1).toNat → lap[i]? = some c → st.buf i = c

theorem Laid.lt_iff (h : Laid size lap st) : st.pos < size - 1 ↔ lap.length < (size - 1).toNat := by
  rw [BitVec.lt_def, h.pos]

theorem Laid.length_lt (h : Laid size lap st) : lap.length < 2 ^ 32 := h.pos ▸ st.pos.isLt

/-- One more character. -/
theorem Laid.putChar (h : Laid size lap st) (c : UInt8) :
    Laid size (if lap.length + 1 = 2 ^ 32 then [] else lap ++ [c]) (st.putChar size c) := by
  have hlt := h.length_lt
  have hpos : (st.putChar size c).pos.toNat = (lap.length + 1) % 2 ^ 32 := by
    rw [← h.pos]
    exact BitVec.toNat_add st.pos 1
  split
  · next hwrap =>
      refine ⟨?_, fun i c _ hc => by cases hc⟩
      rw [hpos, hwrap]
      rfl
  · next hnowrap =>
      refine ⟨?_, ?_⟩
      · rw [hpos, Nat.mod_eq_of_lt (by omega), List.length_append, List.length_singleton]
      · intro i d hi hd
        change (if st.pos < size - 1 then Function.update st.buf st.pos.toNat c else st.buf) i = _
        rcases Nat.lt_or_ge i lap.length with hin | hout
        · rw [List.getElem?_append_left hin] at hd
          have hbyte := h.bytes i d hi hd
          have hne : i ≠ st.pos.toNat := by
            rw [h.pos]
            exact hin.ne
          split
          · rwa [Function.update_of_ne hne]
          · exact hbyte
        · have hlast : i < lap.length + 1 := by
            have hlen := (List.getElem?_eq_some_iff.mp hd).1
            rwa [List.length_append, List.length_singleton] at hlen
          obtain rfl : i = lap.length := by omega
          rw [List.getElem?_append_right le_rfl, Nat.sub_self] at hd
          rw [if_pos (h.lt_iff.mpr hi), ← h.pos, Function.update_self]
          exact Option.some.inj hd

theorem Laid.place (h : Laid size lap st) (p : Put) :
    Laid size (layPut (size - 1).toNat lap p) (st.place size p) := by
  unfold layPut PrintState.place
  have hfull : ¬ st.pos < size - 1 ↔ (size - 1).toNat ≤ lap.length :=
    (not_congr h.lt_iff).trans Nat.not_lt
  simp only [hfull]
  split
  · have hempty : Laid size [] { st with pos := 0 } := ⟨rfl, fun i c _ hc => by cases hc⟩
    exact hempty.putChar p.char
  · exact h.putChar p.char

theorem Laid.placeAll (h : Laid size lap st) (ps : List Put) :
    Laid size (lay (size - 1).toNat lap ps) (st.placeAll size ps) := by
  induction ps generalizing lap st with
  | nil => exact h
  | cons p ps ih => exact ih (h.place p)

/-- The buffer tells what has been put. -/
theorem Laid.eq_of_bytes {cs ds rest : List UInt8} (h : Laid size (lap ++ cs ++ rest) st)
    (hlength : cs.length = ds.length) (hfit : lap.length + cs.length ≤ (size - 1).toNat)
    (hbytes : ∀ k c, lap.length + k < (size - 1).toNat → ds[k]? = some c →
      st.buf (lap.length + k) = c) : cs = ds := by
  apply List.ext_getElem hlength
  intro k hk hk'
  have hget : (lap ++ cs ++ rest)[lap.length + k]? = some cs[k] := by
    rw [List.append_assoc, List.getElem?_append_right (Nat.le_add_right _ _),
      Nat.add_sub_cancel_left, List.getElem?_append_left hk, List.getElem?_eq_getElem]
  have hchar := h.bytes (lap.length + k) cs[k] (by omega) hget
  have hbyte := hbytes k ds[k] (by omega) (List.getElem?_eq_getElem hk')
  exact hchar.symm.trans hbyte

/-- What fits goes on with the lap. -/
theorem lay_of_fits {room : Nat} (hroom : room < 2 ^ 32) (h : lap.length + ps.length ≤ room) :
    lay room lap ps = lap ++ ps.map Put.char := by
  induction ps generalizing lap with
  | nil => exact (List.append_nil lap).symm
  | cons p ps ih =>
      rw [List.length_cons] at h
      have hnext : layPut room lap p = lap ++ [p.char] := by
        rw [layPut, if_neg (by omega), if_neg (by omega)]
      change lay room (layPut room lap p) ps = _
      rw [hnext, ih (by rw [List.length_append, List.length_singleton]; omega), List.map_cons,
        List.append_assoc, List.singleton_append]

end Punix
