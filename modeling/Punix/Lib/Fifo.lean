import Mathlib.Tactic

/-!
First in, first out: what a queue does, in terms of the list of the items it
holds. An item is put in only while it is not there. Nothing here refers to an
implementation.
-/

namespace Punix.Lib

/-- The calls of a queue. -/
inductive FifoCall (α : Type*) where
  | push (item : α)
  | poll

namespace Fifo

variable {α : Type*}

/-- What the calls leave in a queue that holds `items`, and what the calls of
`poll` return. -/
def calls : List α → List (FifoCall α) → List α × List (Option α)
  | items, [] => (items, [])
  | items, .push item :: rest => calls (items ++ [item]) rest
  | items, .poll :: rest =>
      let (left, returned) := calls items.tail rest
      (left, items.head? :: returned)

/-- No item is pushed that is in the queue. -/
def Admissible : List α → List (FifoCall α) → Prop
  | _, [] => True
  | items, .push item :: rest => item ∉ items ∧ Admissible (items ++ [item]) rest
  | items, .poll :: rest => Admissible items.tail rest

/-- The items that are pushed, in this order. -/
def pushed : List (FifoCall α) → List α
  | [] => []
  | .push item :: rest => item :: pushed rest
  | .poll :: rest => pushed rest

/-- What was in the queue and what is pushed comes out in this order, up to what
is left. -/
theorem returned_append_left (items : List α) (cs : List (FifoCall α)) :
    (calls items cs).2.filterMap id ++ (calls items cs).1 = items ++ pushed cs := by
  induction cs generalizing items with
  | nil => simp [calls, pushed]
  | cons c rest ih =>
      cases c with
      | push item =>
          have hrest := ih (items ++ [item])
          simpa [calls, pushed] using hrest
      | poll =>
          have hrest := ih items.tail
          cases items with
          | nil => simpa [calls, pushed] using hrest
          | cons first items =>
              simpa [calls, pushed] using hrest

end Fifo

end Punix.Lib
