import Mathlib.Tactic

/-!
Intrusive linked lists. The links are a function from a node to the node after
it, as `next` fields of the nodes themselves would be. `Segment next p xs q`
says that following the links from the pointer `p` visits exactly the nodes of
`xs` and arrives at the pointer `q`; a chain is a segment that arrives at the
null pointer.
-/

namespace Punix.Lib

variable {α : Type*}

/-- Following `next` from `p` visits `xs` in order and arrives at `q`. -/
def Segment (next : α → Option α) : Option α → List α → Option α → Prop
  | p, [], q => p = q
  | p, x :: xs, q => p = some x ∧ Segment next (next x) xs q

/-- Following `next` from `p` visits `xs` in order and ends. -/
def Chain (next : α → Option α) (p : Option α) (xs : List α) : Prop :=
  Segment next p xs none

namespace Segment

variable {next next' : α → Option α} {p q r : Option α} {xs ys : List α} {x : α}

@[simp] theorem nil_iff : Segment next p [] q ↔ p = q := Iff.rfl

@[simp] theorem cons_iff :
    Segment next p (x :: xs) q ↔ p = some x ∧ Segment next (next x) xs q := Iff.rfl

theorem append_iff :
    Segment next p (xs ++ ys) r ↔ ∃ q, Segment next p xs q ∧ Segment next q ys r := by
  induction xs generalizing p with
  | nil => simp
  | cons x xs ih =>
      simp only [List.cons_append, cons_iff, ih]
      constructor
      · rintro ⟨hp, q, hfirst, hrest⟩
        exact ⟨q, ⟨hp, hfirst⟩, hrest⟩
      · rintro ⟨q, ⟨hp, hfirst⟩, hrest⟩
        exact ⟨hp, q, hfirst, hrest⟩

/-- Only the links of the visited nodes matter. -/
theorem congr (h : Segment next p xs q) (heq : ∀ x ∈ xs, next' x = next x) :
    Segment next' p xs q := by
  induction xs generalizing p with
  | nil => exact h
  | cons x xs ih =>
      refine ⟨h.1, ?_⟩
      rw [heq x (by simp)]
      exact ih h.2 fun y hy => heq y (by simp [hy])

/-- The pointer a segment starts from is its first node. -/
theorem head?_eq (h : Segment next p xs q) (hne : xs ≠ []) : p = xs.head? := by
  cases xs with
  | nil => exact absurd rfl hne
  | cons x xs => exact h.1

/-- The last node of a segment links to the pointer it arrives at. -/
theorem last_link (h : Segment next p (xs ++ [x]) q) : next x = q := by
  obtain ⟨_, _, _, hlink⟩ := append_iff.mp h
  exact hlink

end Segment

namespace Chain

variable {next next' : α → Option α} {p : Option α} {xs ys : List α} {x y : α}

@[simp] theorem nil_iff : Chain next p [] ↔ p = none := Iff.rfl

@[simp] theorem cons_iff :
    Chain next p (x :: xs) ↔ p = some x ∧ Chain next (next x) xs := Iff.rfl

@[simp] theorem none_iff : Chain next none xs ↔ xs = [] := by
  cases xs with
  | nil => simp
  | cons x xs => simp

theorem head?_eq (h : Chain next p xs) : p = xs.head? := by
  cases xs with
  | nil => exact h
  | cons x xs => exact h.1

/-- Only the links of the nodes of a chain matter. -/
theorem congr (h : Chain next p xs) (heq : ∀ x ∈ xs, next' x = next x) :
    Chain next' p xs := Segment.congr h heq

/-- Links determine the nodes that a pointer leads to. -/
theorem unique (hx : Chain next p xs) (hy : Chain next p ys) : xs = ys := by
  induction xs generalizing p ys with
  | nil =>
      subst hx
      exact (none_iff.mp hy).symm
  | cons x xs ih =>
      obtain ⟨rfl, hx⟩ := hx
      cases ys with
      | nil => cases hy
      | cons y ys =>
          obtain ⟨hp, hy⟩ := hy
          obtain rfl : x = y := Option.some.inj hp
          rw [ih hx hy]

/-- A chain that ends visits no node twice: from the second visit on, the
links would have to spell the same remainder again. -/
theorem nodup (h : Chain next p xs) : xs.Nodup := by
  induction xs generalizing p with
  | nil => exact List.nodup_nil
  | cons x xs ih =>
      obtain ⟨_, htail⟩ := h
      refine List.nodup_cons.mpr ⟨?_, ih htail⟩
      intro hmem
      obtain ⟨before, after, rfl⟩ := List.append_of_mem hmem
      obtain ⟨_, _, _, hagain⟩ := Segment.append_iff.mp htail
      have hlen := congrArg List.length (unique htail hagain)
      simp at hlen
      omega

/-- The last node of a chain links to nothing. -/
theorem last_link (h : Chain next p (xs ++ [x])) : next x = none := Segment.last_link h

/-- A chain whose nodes split has a chain of the later nodes. -/
theorem drop_append (h : Chain next p (xs ++ ys)) :
    ∃ q, Segment next p xs q ∧ Chain next q ys := Segment.append_iff.mp h

/-- A node of a chain links to the node after it. -/
theorem link_eq_head? (h : Chain next p (xs ++ x :: ys)) : next x = ys.head? := by
  obtain ⟨_, _, hrest⟩ := drop_append h
  exact head?_eq (cons_iff.mp hrest).2

/-- The first `fuel` nodes that following the links visits. -/
def walk (next : α → Option α) : Nat → Option α → List α
  | 0, _ => []
  | _ + 1, none => []
  | fuel + 1, some x => x :: walk next fuel (next x)

theorem walk_eq {fuel : Nat} (h : Chain next p xs) (hfuel : xs.length ≤ fuel) :
    walk next fuel p = xs := by
  induction xs generalizing p fuel with
  | nil =>
      rw [nil_iff] at h
      subst h
      cases fuel <;> rfl
  | cons x xs ih =>
      obtain ⟨rfl, hrest⟩ := cons_iff.mp h
      cases fuel with
      | zero => simp at hfuel
      | succ fuel =>
          rw [walk, ih hrest (by simpa using hfuel)]

section Update

variable [DecidableEq α]

/-- Writing the link of a node outside a chain leaves the chain as it is. -/
theorem update_of_notMem (h : Chain next p xs) (hx : x ∉ xs) (q : Option α) :
    Chain (Function.update next x q) p xs :=
  h.congr fun _ hy => Function.update_of_ne (ne_of_mem_of_not_mem hy hx) q next

/-- Linking a fresh node behind the last node of a chain appends it. -/
theorem append_last (h : Chain next p (xs ++ [x])) (hy : y ∉ xs ++ [x])
    (hend : next y = none) :
    Chain (Function.update next x (some y)) p (xs ++ [x] ++ [y]) := by
  have hnodup := h.nodup
  have hyx : y ≠ x := fun heq => hy (by simp [heq])
  have hxs : x ∉ xs := fun hmem =>
    List.disjoint_of_nodup_append hnodup hmem (by simp)
  obtain ⟨q, hbefore, hlast⟩ := drop_append h
  obtain ⟨rfl, _⟩ := cons_iff.mp hlast
  rw [List.append_assoc]
  refine Segment.append_iff.mpr ⟨some x, hbefore.congr ?_, ?_⟩
  · intro z hz
    exact Function.update_of_ne (ne_of_mem_of_not_mem hz hxs) _ _
  · simp [Segment, Function.update_of_ne hyx, hend]

/-- Bypassing a node inside a chain removes it. -/
theorem remove_inner {before : α} (h : Chain next p (xs ++ before :: x :: ys)) :
    Chain (Function.update next before (next x)) p (xs ++ before :: ys) := by
  have hnodup := h.nodup
  obtain ⟨q, hfirst, hrest⟩ := drop_append h
  obtain ⟨rfl, hlink, htail⟩ := hrest
  obtain ⟨hxs, hmid, hdisj⟩ := List.nodup_append.mp hnodup
  have hbefore : before ∉ xs := fun hmem => hdisj before hmem before (by simp) rfl
  have hys : before ∉ ys := fun hmem => (List.nodup_cons.mp hmid).1 (by simp [hmem])
  refine Segment.append_iff.mpr ⟨some before, hfirst.congr ?_, rfl, ?_⟩
  · intro z hz
    exact Function.update_of_ne (ne_of_mem_of_not_mem hz hbefore) _ _
  · rw [Function.update_self]
    exact update_of_notMem htail hys _

/-- The links once `x` is taken out of a list: the node before it, if there is one, links to the
node behind it, and `x` to nothing. -/
def bypass (next : α → Option α) (x : α) (before after : Option α) : α → Option α :=
  Function.update
    (match before with
      | some before => Function.update next before after
      | none => next) x none

theorem bypass_of_notMem {before : Option α} (h : Chain next p xs) (hx : x ∉ xs)
    (hbefore : ∀ b ∈ before, b ∉ xs) (after : Option α) :
    Chain (bypass next x before after) p xs := by
  apply update_of_notMem _ hx
  cases before with
  | none => exact h
  | some b => exact h.update_of_notMem (hbefore b rfl) after

/-- The list goes on without `x`. Its first node may be another one then. -/
theorem bypass_of_mem (h : Chain next p (xs ++ x :: ys)) :
    Chain (bypass next x xs.getLast? ys.head?) (if xs.getLast? = none then ys.head? else p)
      (xs ++ ys) := by
  have hnodup := h.nodup
  have hlink := h.link_eq_head?
  have hx : x ∉ xs ++ ys := (List.nodup_cons.mp (List.nodup_middle.mp hnodup)).1
  rcases List.eq_nil_or_concat xs with rfl | ⟨front, before, rfl⟩
  · have htail : Chain next (next x) ys := h.2
    rw [hlink] at htail
    exact htail.update_of_notMem hx none
  · rw [List.concat_eq_append] at *
    rw [List.getLast?_concat, if_neg (Option.some_ne_none _), ← hlink]
    rw [List.append_assoc] at h hx ⊢
    exact (remove_inner h).update_of_notMem hx none

end Update

end Chain

end Punix.Lib
