import Mathlib.Tactic

/-!
Rows of cells that are stored one behind the other: filling a range of an array, and
moving its contents down by a fixed distance, cell by cell upwards.
-/

namespace Punix.Lib.Cells

variable {α : Type*}

/-- Stores `x` to `n` cells from `start` on. -/
def fill (f : Nat → α) (start : Nat) (x : α) : Nat → Nat → α
  | 0 => f
  | n + 1 => Function.update (fill f start x n) (start + n) x

/-- Stores to each of the first `n` cells what is `dist` cells further on. -/
def shift (f : Nat → α) (dist : Nat) : Nat → Nat → α
  | 0 => f
  | n + 1 => Function.update (shift f dist n) n (shift f dist n (n + dist))

theorem fill_apply (f : Nat → α) (start : Nat) (x : α) (n i : Nat) :
    fill f start x n i = if start ≤ i ∧ i < start + n then x else f i := by
  induction n with
  | zero =>
      rw [if_neg (by omega)]
      rfl
  | succ n ih =>
      rw [fill]
      rcases eq_or_ne i (start + n) with rfl | hne
      · rw [Function.update_self, if_pos (by omega)]
      · rw [Function.update_of_ne hne, ih]
        exact if_congr (by omega) rfl rfl

/-- What is read has not been overwritten yet. -/
theorem shift_apply (f : Nat → α) {dist : Nat} (hdist : 0 < dist) (n i : Nat) :
    shift f dist n i = if i < n then f (i + dist) else f i := by
  induction n generalizing i with
  | zero => rfl
  | succ n ih =>
      rw [shift]
      rcases eq_or_ne i n with rfl | hne
      · rw [Function.update_self, if_pos (by omega), ih, if_neg (by omega)]
      · rw [Function.update_of_ne hne, ih]
        exact if_congr (by omega) rfl rfl

def loadIn (size : Nat) (f : Nat → α) (i : Nat) : Option α :=
  if i < size then some (f i) else none

def storeIn (size : Nat) (f : Nat → α) (i : Nat) (x : α) : Option (Nat → α) :=
  if i < size then some (Function.update f i x) else none

/-- `fill` in an array of `size` cells. -/
def fillIn (size : Nat) (f : Nat → α) (start : Nat) (x : α) : Nat → Option (Nat → α)
  | 0 => some f
  | n + 1 => (fillIn size f start x n).bind fun f => storeIn size f (start + n) x

/-- `shift` in an array of `size` cells. -/
def shiftIn (size : Nat) (f : Nat → α) (dist : Nat) : Nat → Option (Nat → α)
  | 0 => some f
  | n + 1 =>
      (shiftIn size f dist n).bind fun f =>
        (loadIn size f (n + dist)).bind fun x => storeIn size f n x

theorem storeIn_of_lt {size i : Nat} (h : i < size) (f : Nat → α) (x : α) :
    storeIn size f i x = some (Function.update f i x) := if_pos h

theorem fillIn_of_le {size start n : Nat} (h : start + n ≤ size) (f : Nat → α) (x : α) :
    fillIn size f start x n = some (fill f start x n) := by
  induction n with
  | zero => rfl
  | succ n ih =>
      rw [fillIn, ih (by omega), Option.bind_some, storeIn_of_lt (by omega)]
      rfl

theorem shiftIn_of_le {size dist n : Nat} (h : n + dist ≤ size) (f : Nat → α) :
    shiftIn size f dist n = some (shift f dist n) := by
  induction n with
  | zero => rfl
  | succ n ih =>
      have hload : loadIn size (shift f dist n) (n + dist) = some _ := if_pos (by omega)
      rw [shiftIn, ih (by omega), Option.bind_some, hload, Option.bind_some,
        storeIn_of_lt (by omega)]
      rfl

section Rows

variable {cols r r' c c' : Nat}

/-- Cells of different places have different indices. -/
theorem index_inj (hc : c < cols) (hc' : c' < cols) :
    r * cols + c = r' * cols + c' ↔ r = r' ∧ c = c' := by
  constructor
  · intro h
    have hrow : r = r' := by
      have hdiv := congrArg (· / cols) h
      simpa [Nat.add_div_of_dvd_right (Nat.dvd_mul_left cols _), Nat.div_eq_of_lt hc,
        Nat.div_eq_of_lt hc', Nat.mul_div_cancel _ (Nat.zero_lt_of_lt hc)] using hdiv
    subst hrow
    exact ⟨rfl, by omega⟩
  · rintro ⟨rfl, rfl⟩
    rfl

/-- The rows above the row `n` are the cells before its first one. -/
theorem index_lt_iff {n : Nat} (hc : c < cols) : r * cols + c < n * cols ↔ r < n := by
  constructor
  · intro h
    by_contra hle
    have hmul := Nat.mul_le_mul_right cols (Nat.not_lt.mp hle)
    omega
  · intro h
    have hmul := Nat.mul_le_mul_right cols (Nat.succ_le_of_lt h)
    rw [Nat.succ_mul] at hmul
    omega

variable {β : Type*} {rel : α → β → Prop} {f : Nat → α} {g : Nat → Nat → β} {rows row col : Nat}

/-- The array shows the grid: each cell is related to that of its row and column. -/
def Shows (rel : α → β → Prop) (rows cols : Nat) (f : Nat → α) (g : Nat → Nat → β) : Prop :=
  ∀ r < rows, ∀ c < cols, rel (f (r * cols + c)) (g r c)

theorem Shows.store (h : Shows rel rows cols f g) (hcol : col < cols) {x : α} {y : β}
    (hxy : rel x y) :
    Shows rel rows cols (Function.update f (row * cols + col) x)
      (Function.update g row (Function.update (g row) col y)) := by
  intro r hr c hc
  by_cases hsame : r = row ∧ c = col
  · obtain ⟨rfl, rfl⟩ := hsame
    rw [Function.update_self, Function.update_self, Function.update_self]
    exact hxy
  · have hindex : r * cols + c ≠ row * cols + col :=
      fun heq => hsame ((index_inj hc hcol).mp heq)
    have hgrid : Function.update g row (Function.update (g row) col y) r c = g r c := by
      rcases eq_or_ne r row with rfl | hne
      · have hcol' : c ≠ col := fun heq => hsame ⟨rfl, heq⟩
        rw [Function.update_self, Function.update_of_ne hcol']
      · rw [Function.update_of_ne hne]
    rw [Function.update_of_ne hindex, hgrid]
    exact h r hr c hc

theorem Shows.clear (f : Nat → α) {x : α} {y : β} (hxy : rel x y) :
    Shows rel rows cols (fill f 0 x (cols * rows)) fun _ _ => y := by
  intro r hr c hc
  have hlt := (index_lt_iff hc).mpr hr
  rw [fill_apply, Nat.mul_comm cols rows, if_pos (by omega)]
  exact hxy

/-- Every row moves up by one, and the last one is filled. -/
theorem Shows.scroll (h : Shows rel rows cols f g) (hcols : 0 < cols) {x : α} {y : β}
    (hxy : rel x y) :
    Shows rel rows cols
      (fill (shift f cols ((rows - 1) * cols)) ((rows - 1) * cols) x cols)
      (fun r => if r < rows - 1 then g (r + 1) else if r = rows - 1 then fun _ => y else g r) := by
  intro r hr c hc
  have habove := index_lt_iff (r := r) (n := rows - 1) hc
  rw [fill_apply, shift_apply _ hcols]
  dsimp only
  rcases Nat.lt_or_ge r (rows - 1) with hlt | hge
  · have hbefore := habove.mpr hlt
    have hnext : r * cols + c + cols = (r + 1) * cols + c := by
      rw [Nat.succ_mul]
      omega
    rw [if_neg (by omega), if_pos hbefore, if_pos hlt, hnext]
    exact h (r + 1) (by omega) c hc
  · obtain rfl : r = rows - 1 := by omega
    rw [if_pos (by omega), if_neg (lt_irrefl _), if_pos rfl]
    exact hxy

end Rows

end Punix.Lib.Cells
