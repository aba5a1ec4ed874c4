import Mathlib.Data.Finmap
import Mathlib.Tactic

/-!
Lists of records that are found by a key, as a finite map: a record is replaced
in its place, appended, or taken out, and no two records have the same key.
Nothing here refers to a particular kind of record.
-/

namespace Punix.Lib.KeyedList

variable {α κ β : Type*} [DecidableEq κ] (key : α → κ) (val : α → β)

/-- The first record with a key. -/
def lookup (xs : List α) (k : κ) : Option α := xs.find? fun a => key a = k

/-- The keys are pairwise distinct, and the records are what the map holds. -/
structure Represents (xs : List α) (m : Finmap fun _ : κ => β) : Prop where
  distinct : (xs.map key).Nodup
  lookup : ∀ k, m.lookup k = (lookup key xs k).map val

theorem lookup_insert_eq_ite (m : Finmap fun _ : κ => β) (k k' : κ) (b : β) :
    (m.insert k b).lookup k' = if k = k' then some b else m.lookup k' := by
  rcases eq_or_ne k k' with rfl | hk
  · rw [Finmap.lookup_insert, if_pos rfl]
  · rw [Finmap.lookup_insert_of_ne _ hk.symm, if_neg hk]

variable {key val} {xs pre post : List α} {a b : α} {k : κ}

theorem lookup_eq_none_iff : lookup key xs k = none ↔ k ∉ xs.map key := by
  simp [lookup]

/-- A record between others, none of which has its key. -/
theorem lookup_between (h : key a ∉ pre.map key) :
    lookup key (pre ++ a :: post) k = if key a = k then some a else lookup key (pre ++ post) k := by
  rw [lookup, List.find?_append, List.find?_cons]
  split
  · next hk =>
      have hkey : key a = k := of_decide_eq_true hk
      have hnone : pre.find? (fun a => key a = k) = none := lookup_eq_none_iff.mpr (hkey ▸ h)
      rw [if_pos hkey, hnone, Option.none_or]
  · next hk =>
      rw [if_neg (of_decide_eq_false hk), lookup, List.find?_append]

omit [DecidableEq κ] in
theorem nodup_between :
    ((pre ++ a :: post).map key).Nodup ↔
      key a ∉ (pre ++ post).map key ∧ ((pre ++ post).map key).Nodup := by
  rw [List.map_append, List.map_cons, List.nodup_middle, List.nodup_cons, List.map_append]

omit [DecidableEq κ] in
theorem notMem_before (h : ((pre ++ a :: post).map key).Nodup) : key a ∉ pre.map key := by
  intro hmem
  exact (nodup_between.mp h).1 (by simpa using Or.inl (List.mem_map.mp hmem))

theorem lookup_of_mem (h : (xs.map key).Nodup) (ha : a ∈ xs) : lookup key xs (key a) = some a := by
  obtain ⟨pre, post, rfl⟩ := List.append_of_mem ha
  rw [lookup_between (notMem_before h), if_pos rfl]

namespace Represents

variable {m : Finmap fun _ : κ => β}

theorem empty : Represents key val [] ∅ where
  distinct := List.nodup_nil
  lookup k := Finmap.lookup_empty k

/-- The map has as many keys as there are records. -/
theorem card_keys (h : Represents key val xs m) : m.keys.card = xs.length := by
  have hkeys : m.keys = (xs.map key).toFinset := by
    ext k
    rw [Finmap.mem_keys, ← not_iff_not, ← Finmap.lookup_eq_none, h.lookup, List.mem_toFinset,
      Option.map_eq_none_iff, lookup_eq_none_iff]
  rw [hkeys, List.toFinset_card_of_nodup h.distinct, List.length_map]

/-- A record is replaced in its place by another one with its key. -/
theorem replace (h : Represents key val (pre ++ a :: post) m) (hkey : key b = key a) :
    Represents key val (pre ++ b :: post) (m.insert (key a) (val b)) := by
  obtain ⟨hout, hnodup⟩ := nodup_between.mp h.distinct
  have hpre := notMem_before h.distinct
  refine ⟨nodup_between.mpr ⟨hkey ▸ hout, hnodup⟩, fun k => ?_⟩
  rw [lookup_insert_eq_ite, h.lookup, lookup_between hpre, lookup_between (hkey ▸ hpre), hkey]
  split <;> rfl

/-- A record with a new key is appended. -/
theorem append (h : Represents key val xs m) (hb : key b ∉ xs.map key) :
    Represents key val (xs ++ [b]) (m.insert (key b) (val b)) := by
  refine ⟨nodup_between.mpr (by simpa using ⟨by simpa using hb, h.distinct⟩), fun k => ?_⟩
  rw [lookup_insert_eq_ite, h.lookup, lookup_between hb, List.append_nil]
  split <;> rfl

/-- A record is taken out. -/
theorem erase (h : Represents key val (pre ++ a :: post) m) :
    Represents key val (pre ++ post) (m.erase (key a)) := by
  obtain ⟨hout, hnodup⟩ := nodup_between.mp h.distinct
  have hpre := notMem_before h.distinct
  refine ⟨hnodup, fun k => ?_⟩
  rcases eq_or_ne (key a) k with rfl | hk
  · rw [Finmap.lookup_erase, lookup_eq_none_iff.mpr hout]
    rfl
  · rw [Finmap.lookup_erase_ne hk.symm, h.lookup, lookup_between hpre, if_neg hk]

end Represents

end Punix.Lib.KeyedList
