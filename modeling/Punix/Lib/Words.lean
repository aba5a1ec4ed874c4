import Mathlib.Tactic

/-!
The words of a text: it is split at the spaces outside of quotes, and the quotes are taken
off. A quote that is not closed reaches to the end of the text.
-/

namespace Punix.Lib.Words

variable {α : Type*} [DecidableEq α] (space quote : α)

/-- Each letter, and whether there is an open quote before it. -/
def marked : Bool → List α → List (α × Bool)
  | _, [] => []
  | inside, c :: s => (c, inside) :: marked (if c = quote then !inside else inside) s

def separates (x : α × Bool) : Bool := x.1 = space ∧ x.2 = false

/-- The letters without the quotes. -/
def plain (chunk : List (α × Bool)) : List α := (chunk.map Prod.fst).filter (· ≠ quote)

/-- A word may be empty, if it is between quotes. -/
def words (s : List α) : List (List α) :=
  (((marked quote false s).splitOnP (separates space)).filter (· ≠ [])).map (plain quote)

/-- What is behind a word: nothing, or a space outside of quotes. -/
def Ends (inside : Bool) (rest : List α) : Prop :=
  rest = [] ∨ inside = false ∧ ∃ s, rest = space :: s

section Lemmas

variable {space quote : α} {inside : Bool} {s rest : List α} {chunk : List (α × Bool)}

@[simp]
theorem length_marked (quote : α) (inside : Bool) (s : List α) :
    (marked quote inside s).length = s.length := by
  induction s generalizing inside with
  | nil => rfl
  | cons c s ih => rw [marked, List.length_cons, List.length_cons, ih]

theorem plain_cons (x : α × Bool) (chunk : List (α × Bool)) :
    plain quote (x :: chunk) = if x.1 = quote then plain quote chunk
      else x.1 :: plain quote chunk := by
  unfold plain
  rw [List.map_cons, List.filter_cons]
  split
  · next h => rw [if_neg (of_decide_eq_true h)]
  · next h => rw [if_pos (by simpa using h)]

theorem length_plain_le (quote : α) (chunk : List (α × Bool)) :
    (plain quote chunk).length ≤ chunk.length := by
  unfold plain
  apply (List.length_filter_le _ _).trans
  rw [List.length_map]

theorem mem_of_mem_plain {c : α} (h : c ∈ plain quote chunk) : c ∈ chunk.map Prod.fst :=
  List.mem_of_mem_filter h

theorem map_fst_marked (quote : α) (inside : Bool) (s : List α) :
    (marked quote inside s).map Prod.fst = s := by
  induction s generalizing inside with
  | nil => rfl
  | cons c s ih => rw [marked, List.map_cons, ih]

theorem marked_space (hne : space ≠ quote) (s : List α) :
    marked quote false (space :: s) = (space, false) :: marked quote false s := by
  rw [marked, if_neg hne]

theorem separates_space (space : α) : separates space (space, false) = true :=
  decide_eq_true ⟨rfl, rfl⟩

/-- A space makes no word. -/
theorem words_space (hne : space ≠ quote) (s : List α) :
    words space quote (space :: s) = words space quote s := by
  have hsplit : ((space, false) :: marked quote false s).splitOnP (separates space) =
      [] :: (marked quote false s).splitOnP (separates space) :=
    List.splitOnP_append_cons_of_forall_mem (List.forall_mem_nil _) _ (separates_space space) _
  unfold words
  rw [marked_space hne, hsplit, List.filter_cons_of_neg (by simp)]

theorem words_dropWhile (hne : space ≠ quote) (s : List α) :
    words space quote (s.dropWhile (· = space)) = words space quote s := by
  induction s with
  | nil => rfl
  | cons c s ih =>
      rcases eq_or_ne c space with rfl | hc
      · rw [List.dropWhile_cons_of_pos (by simp), ih, words_space hne]
      · rw [List.dropWhile_cons_of_neg (by simpa using hc)]

/-- The first word is the letters before the first space outside of quotes. -/
theorem words_chunk (hne : space ≠ quote) (hchunk : chunk ≠ [])
    (hfree : ∀ x ∈ chunk, separates space x = false) (hends : Ends space inside rest)
    (h : marked quote false s = chunk ++ marked quote inside rest) :
    words space quote s = plain quote chunk :: words space quote rest := by
  rcases hends with rfl | ⟨rfl, s', rfl⟩
  · have hsplit : (marked quote false s).splitOnP (separates space) = [chunk] := by
      rw [h, marked, List.append_nil]
      exact List.splitOnP_eq_singleton hfree
    unfold words
    rw [hsplit, List.filter_cons_of_pos (by simpa using hchunk)]
    rfl
  · have hsplit : (marked quote false s).splitOnP (separates space) =
        chunk :: (marked quote false s').splitOnP (separates space) := by
      rw [h, marked_space hne]
      exact List.splitOnP_append_cons_of_forall_mem hfree _ (separates_space space) _
    rw [words_space hne]
    unfold words
    rw [hsplit, List.filter_cons_of_pos (by simpa using hchunk), List.map_cons]

end Lemmas

end Punix.Lib.Words
