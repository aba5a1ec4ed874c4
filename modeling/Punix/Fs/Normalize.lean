import Punix.Lib.PathName
import Punix.Fs.Path

/-!
What `vfs_normalize_path` computes. `canonicalPath` says what a path means; the
scan is shown to compute the components of the canonical form as segments of the
array, and the rebuild to put them down one after the other. A canonical form
that fills the array loses its last byte.
-/

namespace Punix

open Lib

def canonicalPath (path : List UInt8) : List UInt8 := PathName.canonical slash dot path

/-- The bytes of a segment. -/
def PathSegment.slice (path : List UInt8) (seg : PathSegment) : List UInt8 :=
  (path.drop seg.start).take seg.len

/-- The segments stand in order between `lo` and `stop`, with at least one byte
between two of them. -/
def Spaced (stop : Nat) : Nat → List PathSegment → Prop
  | _, [] => True
  | lo, seg :: rest =>
      lo ≤ seg.start ∧ 0 < seg.len ∧ seg.start + seg.len ≤ stop ∧
        Spaced stop (seg.start + seg.len + 1) rest

namespace Spaced

variable {stop lo : Nat} {segs : List PathSegment}

theorem mono {stop' : Nat} (h : Spaced stop lo segs) (hle : stop ≤ stop') :
    Spaced stop' lo segs := by
  induction segs generalizing lo with
  | nil => trivial
  | cons seg segs ih =>
      obtain ⟨hlo, hpos, hin, hrest⟩ := h
      exact ⟨hlo, hpos, hin.trans hle, ih hrest⟩

theorem weaken (h : Spaced stop lo segs) {lo' : Nat} (hle : lo' ≤ lo) : Spaced stop lo' segs := by
  cases segs with
  | nil => trivial
  | cons seg segs =>
      obtain ⟨hlo, hrest⟩ := h
      exact ⟨hle.trans hlo, hrest⟩

/-- What the segments hold does not depend on the bytes in front of them. -/
theorem map_slice_congr {path path' : List UInt8} (h : Spaced stop lo segs)
    (heq : path'.drop lo = path.drop lo) :
    segs.map (PathSegment.slice path') = segs.map (PathSegment.slice path) := by
  induction segs generalizing lo with
  | nil => rfl
  | cons seg segs ih =>
      obtain ⟨hlo, hpos, hin, hrest⟩ := h
      have hdrop : ∀ m, lo ≤ m → path'.drop m = path.drop m := by
        intro m hm
        rw [← Nat.add_sub_cancel' hm, ← List.drop_drop, heq, List.drop_drop]
      have hhead : PathSegment.slice path' seg = PathSegment.slice path seg := by
        rw [PathSegment.slice, hdrop _ hlo, PathSegment.slice]
      rw [List.map_cons, List.map_cons, hhead, ih hrest (hdrop _ (by omega))]

theorem snoc {i : Nat} {seg : PathSegment} (h : Spaced i lo segs) (hlo : lo ≤ seg.start)
    (hi : i < seg.start) (hpos : 0 < seg.len) (hin : seg.start + seg.len ≤ stop) :
    Spaced stop lo (segs ++ [seg]) := by
  induction segs generalizing lo with
  | nil => exact ⟨hlo, hpos, hin, trivial⟩
  | cons first segs ih =>
      obtain ⟨hlo', hpos', hin', hrest⟩ := h
      exact ⟨hlo', hpos', by omega, ih hrest (by omega)⟩

theorem dropLast (h : Spaced stop lo segs) : Spaced stop lo segs.dropLast := by
  induction segs generalizing lo with
  | nil => trivial
  | cons seg segs ih =>
      obtain ⟨hlo, hpos, hin, hrest⟩ := h
      cases segs with
      | nil => trivial
      | cons next segs => exact ⟨hlo, hpos, hin, ih hrest⟩

/-- Every segment takes a byte of its own. -/
theorem length_le (h : Spaced stop lo segs) : segs.length ≤ stop + 1 - lo := by
  induction segs generalizing lo with
  | nil => simp
  | cons seg segs ih =>
      obtain ⟨hlo, hpos, hin, hrest⟩ := h
      have hle := ih hrest
      simp only [List.length_cons]
      omega

end Spaced

theorem drop_length_takeWhile (p : UInt8 → Bool) (s : List UInt8) :
    s.drop (s.takeWhile p).length = s.dropWhile p :=
  calc s.drop (s.takeWhile p).length
    _ = (s.takeWhile p ++ s.dropWhile p).drop (s.takeWhile p).length := by
      rw [List.takeWhile_append_dropWhile]
    _ = s.dropWhile p := List.drop_left

theorem drop_advance (p : UInt8 → Bool) (path : List UInt8) (len i : Nat) :
    (path.take len).drop (advance p path len i) = ((path.take len).drop i).dropWhile p := by
  rw [advance, ← List.drop_drop, drop_length_takeWhile]

theorem advance_le {p : UInt8 → Bool} {path : List UInt8} {len i : Nat} (hi : i ≤ len)
    (hlen : len ≤ path.length) : advance p path len i ≤ len := by
  have hle := (List.takeWhile_sublist p (l := (path.take len).drop i)).length_le
  simp only [List.length_drop, List.length_take] at hle
  rw [advance]
  omega

/-- The bytes up to the next separator. -/
theorem slice_advance (p : UInt8 → Bool) {path : List UInt8} {len i : Nat} (hi : i ≤ len)
    (hlen : len ≤ path.length) :
    PathSegment.slice path ⟨i, advance p path len i - i⟩ =
      ((path.take len).drop i).takeWhile p := by
  have hle := advance_le (p := p) hi hlen
  have hcount : advance p path len i - i = (((path.take len).drop i).takeWhile p).length := by
    rw [advance]
    omega
  have htake : (path.drop i).take (advance p path len i - i) =
      ((path.take len).drop i).take (advance p path len i - i) := by
    rw [List.drop_take, List.take_take, Nat.min_eq_left (by omega)]
  rw [PathSegment.slice, htake, hcount]
  exact (List.prefix_iff_eq_take.mp (List.takeWhile_prefix p)).symm

theorem length_slice {path : List UInt8} {seg : PathSegment} {stop : Nat}
    (hin : seg.start + seg.len ≤ stop) (hstop : stop ≤ path.length) :
    (PathSegment.slice path seg).length = seg.len := by
  rw [PathSegment.slice, List.length_take, List.length_drop]
  omega

theorem pushSegment_room {path : List UInt8} {start n : Nat} {segs : List PathSegment}
    (hroom : segs.length < vfsMaxSegments) (hin : start + n ≤ path.length) :
    (pushSegment path start n segs).map (PathSegment.slice path) =
      PathName.resolve dot (segs.map (PathSegment.slice path))
        (PathSegment.slice path ⟨start, n⟩) := by
  obtain ⟨component, hcomp⟩ : ∃ component, path.drop start = component := ⟨_, rfl⟩
  have h0 : path.getD start 0 = component.getD 0 0 := by simp [← hcomp]
  have h1 : path.getD (start + 1) 0 = component.getD 1 0 := by simp [← hcomp]
  have hlen : n ≤ component.length := by
    rw [← hcomp, List.length_drop]
    omega
  simp only [pushSegment, PathName.resolve, h0, h1, hroom, if_true, apply_ite (List.map _),
    List.map_append, List.map_dropLast, List.map_cons, List.map_nil, PathSegment.slice, hcomp]
  rcases n with _ | _ | _ | n
  · simp
  · rcases component with _ | ⟨a, rest⟩
    · simp at hlen
    · simp
  · rcases component with _ | ⟨a, _ | ⟨b, rest⟩⟩
    · simp at hlen
    · simp at hlen
    · simp
  · rcases component with _ | ⟨a, _ | ⟨b, _ | ⟨c, rest⟩⟩⟩
    · simp at hlen
    · simp at hlen
    · simp at hlen
    · simp

/-- As long as the components that are left over fit, there is room for each of them. -/
theorem pushSegment_spec {path : List UInt8} {start n : Nat} {segs : List PathSegment}
    (hroom : (PathName.resolve dot (segs.map (PathSegment.slice path))
      (PathSegment.slice path ⟨start, n⟩)).length ≤ vfsMaxSegments)
    (hin : start + n ≤ path.length) :
    (pushSegment path start n segs).map (PathSegment.slice path) =
      PathName.resolve dot (segs.map (PathSegment.slice path))
        (PathSegment.slice path ⟨start, n⟩) := by
  rcases Nat.lt_or_ge segs.length vfsMaxSegments with hlt | hge
  · exact pushSegment_room hlt hin
  -- without room, the component is one that is not recorded
  have hlen : (PathSegment.slice path ⟨start, n⟩).length = n := length_slice hin le_rfl
  have hget (i : Nat) (hi : i < n) :
      path.getD (start + i) 0 = (PathSegment.slice path ⟨start, n⟩).getD i 0 := by
    simp [PathSegment.slice, hi]
  generalize PathSegment.slice path ⟨start, n⟩ = component at *
  subst hlen
  unfold PathName.resolve at hroom ⊢
  split_ifs at hroom with hskip hup
  · rw [if_pos hskip]
    rcases hskip with rfl | rfl
    · rfl
    · have hdot : path.getD start 0 = dot := hget 0 (by decide)
      rw [pushSegment, if_neg (by decide), if_pos ⟨rfl, hdot⟩]
  · rw [if_neg hskip, if_pos hup]
    subst hup
    have hdot : path.getD start 0 = dot := hget 0 (by decide)
    have hdots : path.getD (start + 1) 0 = dot := hget 1 (by decide)
    rw [pushSegment, if_neg (by decide), if_neg (fun h => absurd h.1 (by decide)),
      if_pos ⟨rfl, hdot, hdots⟩, List.map_dropLast]
  · rw [List.length_append, List.length_map, List.length_singleton] at hroom
    omega

theorem pushSegment_spaced (path : List UInt8) {start i lo : Nat} (n : Nat)
    {segs : List PathSegment} (h : Spaced i lo segs) (hi : i < start) (hlo : lo ≤ start) :
    Spaced (start + n) lo (pushSegment path start n segs) := by
  have hmono : Spaced (start + n) lo segs := h.mono (by omega)
  unfold pushSegment
  split_ifs with hn
  · exact hmono
  · exact hmono
  · exact hmono.dropLast
  · exact h.snoc hlo hi (by dsimp only; omega) le_rfl
  · exact hmono

theorem drop_take_eq_nil {path : List UInt8} {len i : Nat} (h : len ≤ i) :
    (path.take len).drop i = [] := by
  rw [List.drop_eq_nil_iff, List.length_take]
  omega

theorem drop_take_eq_cons {path : List UInt8} {len i : Nat} (hi : i < len)
    (hlen : len ≤ path.length) :
    (path.take len).drop i = path.getD i 0 :: (path.take len).drop (i + 1) := by
  have hlt : i < (path.take len).length := by
    rw [List.length_take]
    omega
  have hget : (path.take len)[i] = path.getD i 0 := by
    rw [List.getElem_take, List.getElem_eq_getD]
  rw [← hget]
  exact List.drop_eq_getElem_cons hlt

/-- The component loop stops on a separator or at the end. -/
theorem getD_advance_ne {path : List UInt8} {len i : Nat} (hlen : len ≤ path.length)
    (hlt : advance (· ≠ slash) path len i < len) :
    path.getD (advance (· ≠ slash) path len i) 0 = slash := by
  have hhead := List.head?_dropWhile_not (· ≠ slash) ((path.take len).drop i)
  rw [← drop_advance, drop_take_eq_cons hlt hlen] at hhead
  simpa using hhead

/-- At no point of `path` are more components pending than there is room for. -/
def Pending (stack : List (List UInt8)) (path : List UInt8) : Prop :=
  ∀ j, (PathName.resolveAll slash dot stack (path.take j)).length ≤ vfsMaxSegments

/-- The scan resolves what is left of the path on top of the recorded segments.
Whenever it is not at the end it stands on a separator, which keeps a recorded
segment apart from the ones before it. -/
theorem scanSegments_spec (path : List UInt8) {len : Nat} (hlen : len ≤ path.length) :
    ∀ fuel i segs, len - i ≤ fuel → i ≤ len → (i < len → path.getD i 0 = slash) →
      Spaced i 1 segs → Pending (segs.map (PathSegment.slice path)) ((path.take len).drop i) →
      Spaced len 1 (scanSegments path len fuel i segs) ∧
        (scanSegments path len fuel i segs).map (PathSegment.slice path) =
          PathName.resolveAll slash dot (segs.map (PathSegment.slice path))
            ((path.take len).drop i) := by
  intro fuel
  induction fuel with
  | zero =>
      intro i segs hfuel hi _ hsegs _
      rw [drop_take_eq_nil (by omega), PathName.resolveAll_nil]
      exact ⟨hsegs.mono hi, rfl⟩
  | succ fuel ih =>
      intro i segs hfuel hi hslash hsegs hpending
      unfold scanSegments
      rcases Nat.lt_or_ge i len with hlt | hge
      · -- the separators, then the component behind them
        have hstart_le := advance_le (p := (· = slash)) hi hlen
        have hi_lt : i < advance (· = slash) path len i := by
          rw [advance, drop_take_eq_cons hlt hlen, hslash hlt]
          simp
        have hrest := drop_advance (· = slash) path len i
        rw [if_pos hlt]
        dsimp only
        generalize advance (· = slash) path len i = start at *
        have hstop_le := advance_le (p := (· ≠ slash)) hstart_le hlen
        have hle_stop : start ≤ advance (· ≠ slash) path len start := by
          rw [advance]
          omega
        have hslice := slice_advance (· ≠ slash) hstart_le hlen
        have htail := drop_advance (· ≠ slash) path len start
        have hboundary := getD_advance_ne (i := start) hlen
        generalize advance (· ≠ slash) path len start = stop at *
        have hahead : Pending (PathName.resolve dot (segs.map (PathSegment.slice path))
            (PathSegment.slice path ⟨start, stop - start⟩)) ((path.take len).drop stop) := by
          intro j
          have hpart := hpending (((path.take len).drop i).length -
            ((((path.take len).drop i).dropWhile (· = slash)).dropWhile (· ≠ slash)).length + j)
          rwa [PathName.resolveAll_take, ← hrest, ← htail, ← hslice] at hpart
        have hroom := hahead 0
        rw [List.take_zero, PathName.resolveAll_nil] at hroom
        have hpushed := pushSegment_spec hroom (by omega)
        have hpush := pushSegment_spaced path (stop - start) hsegs hi_lt (by omega)
        rw [Nat.add_sub_cancel' hle_stop] at hpush
        obtain ⟨hspaced, hmap⟩ := ih stop (pushSegment path start (stop - start) segs) (by omega)
          hstop_le hboundary hpush (by rw [hpushed]; exact hahead)
        refine ⟨hspaced, ?_⟩
        rw [hmap, hpushed, hslice, htail,
          PathName.resolveAll_takeWhile, hrest, PathName.resolveAll_dropWhile]
      · rw [if_neg (by omega), drop_take_eq_nil hge, PathName.resolveAll_nil]
        exact ⟨hsegs.mono hi, rfl⟩

/-- A segment and a separator are put down, and the segments behind them stay as they are. -/
theorem rebuildPath_next {size stop pos : Nat} {path : List UInt8} {seg next : PathSegment}
    {segs : List PathSegment} (hsize : size < 2 ^ 31) (hstop : stop ≤ path.length)
    (hspaced : Spaced stop pos (seg :: next :: segs)) (hroom : pos + seg.len + 1 < size) :
    ∃ path', rebuildPath size (seg :: next :: segs) path pos =
        rebuildPath size (next :: segs) path' (pos + seg.len + 1) ∧
      path'.length = path.length ∧ Spaced stop (pos + seg.len + 1) (next :: segs) ∧
      (next :: segs).map (PathSegment.slice path') =
        (next :: segs).map (PathSegment.slice path) ∧
      path'.take (pos + seg.len + 1) = path.take pos ++ PathSegment.slice path seg ++ [slash] := by
  obtain ⟨hlo, hlen, hin, hrest⟩ := hspaced
  have hsizeInt : asInt size = size := asInt_of_lt hsize
  have htake := take_kMemcpyWithin hlo (hin.trans hstop)
  have hcopied := length_kMemcpyWithin path pos seg.start seg.len
  have hfull : ¬ asInt size ≤ (pos + seg.len + 1 : Nat) := by omega
  have hspaced : Spaced stop (pos + seg.len + 1) (next :: segs) := hrest.weaken (by omega)
  -- the copy and the separator behind it leave the segments that follow alone
  have hdrop : ((kMemcpyWithin path pos seg.start seg.len).set (pos + seg.len) slash).drop
      (pos + seg.len + 1) = path.drop (pos + seg.len + 1) := by
    rw [List.drop_set_of_lt (by omega), drop_kMemcpyWithin (by omega)]
  have hinside : pos + seg.len < path.length := by
    obtain ⟨hnext, _, hnextIn, _⟩ := hrest
    omega
  refine ⟨(kMemcpyWithin path pos seg.start seg.len).set (pos + seg.len) slash, ?_, ?_, hspaced,
    hspaced.map_slice_congr hdrop, ?_⟩
  · rw [rebuildPath]
    simp only [hfull, decide_false, Bool.false_eq_true, false_and, if_false, reduceCtorEq]
  · rw [List.length_set, hcopied]
  · rw [List.take_add_one, List.take_set_of_le le_rfl, htake, List.getElem?_set_self (by omega)]
    rfl

theorem rebuildPath_spec (size : Nat) {stop : Nat} (hsize : size < 2 ^ 31) :
    ∀ (segs : List PathSegment) (path : List UInt8) (pos : Nat), stop ≤ path.length →
      pos ≤ path.length → Spaced stop pos segs →
      pos + (PathName.join slash (segs.map (PathSegment.slice path))).length + 1 < size →
      (rebuildPath size segs path pos).2 =
          pos + (PathName.join slash (segs.map (PathSegment.slice path))).length ∧
        (rebuildPath size segs path pos).1.length = path.length ∧
        (rebuildPath size segs path pos).1.take (rebuildPath size segs path pos).2 =
          path.take pos ++ PathName.join slash (segs.map (PathSegment.slice path)) := by
  intro segs
  induction segs with
  | nil =>
      intro path pos hstop hpos _ _
      simp [rebuildPath, PathName.join]
  | cons seg segs ih =>
      intro path pos hstop hpos hspaced hfit
      have hslice := length_slice hspaced.2.2.1 hstop
      cases segs with
      | nil =>
          obtain ⟨hlo, hlen, hin, hrest⟩ := hspaced
          have hsizeInt : asInt size = size := asInt_of_lt hsize
          simp only [List.map_cons, List.map_nil, PathName.join_singleton, hslice] at hfit ⊢
          have hfull : ¬ asInt size ≤ (pos + seg.len + 1 : Nat) := by omega
          simp only [rebuildPath, hfull, decide_false, Bool.false_eq_true, false_and, if_false,
            if_true]
          exact ⟨trivial, length_kMemcpyWithin .., take_kMemcpyWithin hlo (hin.trans hstop)⟩
      | cons next segs =>
          simp only [List.map_cons, PathName.join_cons_cons, List.length_append,
            List.length_cons, hslice] at hfit ⊢
          obtain ⟨path', hnext, hlen, hspaced', hslices, hwritten⟩ :=
            rebuildPath_next hsize hstop hspaced (by omega)
          have hinside : pos + seg.len + 1 ≤ path'.length := by
            obtain ⟨hlo, _, hin, _⟩ := hspaced'
            omega
          obtain ⟨hpos', hlen', htake'⟩ := ih path' (pos + seg.len + 1) (by omega) hinside hspaced'
            (by rw [hslices, List.map_cons]; omega)
          rw [hslices, List.map_cons] at hpos' htake'
          rw [hnext]
          refine ⟨?_, hlen'.trans hlen, ?_⟩
          · rw [hpos']
            omega
          · rw [htake', hwritten]
            simp

/-- The last byte of the last segment is cut off. A segment of one byte is not put down. -/
theorem rebuildPath_last_full {size stop pos : Nat} {path : List UInt8} {seg : PathSegment}
    (hsize : size < 2 ^ 31) (hstop : stop ≤ path.length) (hspaced : Spaced stop pos [seg])
    (hroom : pos + 2 ≤ size) (htotal : pos + seg.len + 1 = size) :
    (rebuildPath size [seg] path pos).2 = size - 2 ∧
      (rebuildPath size [seg] path pos).1.length = path.length ∧
      (rebuildPath size [seg] path pos).1.take (size - 2) =
        (path.take pos ++ PathSegment.slice path seg).take (size - 2) := by
  obtain ⟨hlo, hlen, hin, hrest⟩ := hspaced
  have hsizeInt : asInt size = size := asInt_of_lt hsize
  have hfull : decide ((size : Int) ≤ (pos + seg.len + 1 : Nat)) = true :=
    decide_eq_true (by omega)
  simp only [rebuildPath, hsizeInt, hfull, true_and, if_true]
  have hpos : (path.take pos).length = pos := by
    rw [List.length_take]
    omega
  rcases Nat.lt_or_ge (pos + 2) size with hlt | hge
  · have hallowed : ((size : Int) - pos - 2).toNat = seg.len - 1 := by omega
    have hend : size - 2 = pos + (seg.len - 1) := by omega
    rw [if_neg (by omega), hallowed, hend]
    refine ⟨rfl, length_kMemcpyWithin .., ?_⟩
    rw [take_kMemcpyWithin hlo (by omega), List.take_append, hpos, List.take_take,
      Nat.add_sub_cancel_left, PathSegment.slice, List.take_take]
    congr 2 <;> omega
  · rw [if_pos (by omega)]
    have hend : size - 2 = pos := by omega
    refine ⟨by omega, rfl, ?_⟩
    rw [hend, List.take_append_of_le_length hpos.ge, List.take_take, Nat.min_self]

/-- When the canonical form takes one byte more than there is room for, that byte is cut off. -/
theorem rebuildPath_full (size : Nat) {stop : Nat} (hsize : size < 2 ^ 31) :
    ∀ (segs : List PathSegment) (path : List UInt8) (pos : Nat), stop ≤ path.length →
      Spaced stop pos segs → segs ≠ [] → pos + 2 ≤ size →
      pos + (PathName.join slash (segs.map (PathSegment.slice path))).length + 1 = size →
      (rebuildPath size segs path pos).2 = size - 2 ∧
        (rebuildPath size segs path pos).1.length = path.length ∧
        (rebuildPath size segs path pos).1.take (size - 2) =
          (path.take pos ++ PathName.join slash (segs.map (PathSegment.slice path))).take
            (size - 2) := by
  intro segs
  induction segs with
  | nil =>
      intro path pos _ _ hne
      exact absurd rfl hne
  | cons seg segs ih =>
      intro path pos hstop hspaced _ hroom htotal
      have hslice := length_slice hspaced.2.2.1 hstop
      cases segs with
      | nil =>
          rw [List.map_cons, List.map_nil, PathName.join_singleton] at htotal ⊢
          rw [hslice] at htotal
          exact rebuildPath_last_full hsize hstop hspaced hroom htotal
      | cons next segs =>
          simp only [List.map_cons, PathName.join_cons_cons, List.length_append,
            List.length_cons, hslice] at htotal ⊢
          have hnextSlice := length_slice hspaced.2.2.2.2.2.1 hstop
          have hnextLen := hspaced.2.2.2.2.1
          have hnextPos := PathName.length_le_join slash (PathSegment.slice path next)
            (segs.map (PathSegment.slice path))
          obtain ⟨path', hnext, hlen, hspaced', hslices, hwritten⟩ :=
            rebuildPath_next hsize hstop hspaced (by omega)
          obtain ⟨hpos', hlen', htake'⟩ := ih path' (pos + seg.len + 1) (by omega) hspaced' nofun
            (by omega) (by rw [hslices, List.map_cons]; omega)
          rw [hslices, List.map_cons, hwritten] at htake'
          rw [hnext]
          refine ⟨hpos', hlen'.trans hlen, htake'.trans ?_⟩
          congr 1
          simp

theorem take_length_strBytes (buf : List UInt8) :
    buf.take (strBytes buf).length = strBytes buf :=
  (List.prefix_iff_eq_take.mp (List.takeWhile_prefix _)).symm

theorem Spaced.mem_take {buf : List UInt8} {stop lo : Nat} {segs : List PathSegment}
    (h : Spaced stop lo segs) {component : List UInt8} {b : UInt8}
    (hmem : component ∈ segs.map (PathSegment.slice buf)) (hb : b ∈ component) :
    b ∈ buf.take stop := by
  induction segs generalizing lo with
  | nil => simp at hmem
  | cons seg segs ih =>
      obtain ⟨hlo, hpos, hin, hrest⟩ := h
      rw [List.map_cons, List.mem_cons] at hmem
      rcases hmem with rfl | hmem
      · have hslice : PathSegment.slice buf seg = ((buf.take stop).drop seg.start).take seg.len := by
          rw [PathSegment.slice, List.drop_take, List.take_take, Nat.min_eq_left (by omega)]
        rw [hslice] at hb
        exact List.mem_of_mem_drop (List.mem_of_mem_take hb)
      · exact ih hrest hmem

theorem notMem_join {buf : List UInt8} {stop lo : Nat} {segs : List PathSegment}
    (h : Spaced stop lo segs) (hnul : 0 ∉ buf.take stop) :
    0 ∉ PathName.join slash (segs.map (PathSegment.slice buf)) := by
  intro hmem
  rcases PathName.mem_join hmem with hslash | ⟨component, hcomponent, hb⟩
  · exact absurd hslash (by decide)
  · exact hnul (h.mem_take hcomponent hb)

/-- The segments with their separators take no more than the place they are taken from. -/
theorem Spaced.length_join {buf : List UInt8} {stop lo : Nat} {segs : List PathSegment}
    (h : Spaced stop lo segs) (hstop : stop ≤ buf.length) (hne : segs ≠ []) :
    lo + (PathName.join slash (segs.map (PathSegment.slice buf))).length ≤ stop := by
  induction segs generalizing lo with
  | nil => exact absurd rfl hne
  | cons seg segs ih =>
      obtain ⟨hlo, hpos, hin, hrest⟩ := h
      have hslice := length_slice hin hstop
      cases segs with
      | nil =>
          rw [List.map_cons, List.map_nil, PathName.join_singleton]
          omega
      | cons next segs =>
          have hle := ih hrest nofun
          simp only [List.map_cons, PathName.join_cons_cons, List.length_append,
            List.length_cons] at hle ⊢
          omega

/-- A path that is shorter than the array of the segments. -/
theorem pending_of_length {path : List UInt8} (h : path.length < vfsMaxSegments) :
    Pending [] path := by
  intro j
  have hspread := PathName.spread_resolveAll_le slash dot [] (path.take j)
  have hcount := PathName.length_le_spread (PathName.resolveAll slash dot [] (path.take j))
  have hempty : PathName.spread ([] : List (List UInt8)) = 0 := rfl
  have htake := List.length_take_le' j path
  omega

section Normalize

variable {buf : List UInt8}

/-- The segments that the scan records are the components of the canonical form. -/
theorem scanSegments_path (habs : buf.getD 0 0 = slash)
    (hnul : (strBytes buf).length < buf.length) (hpending : Pending [] (strBytes buf)) :
    Spaced (strBytes buf).length 1
        (scanSegments buf (strBytes buf).length (strBytes buf).length 0 []) ∧
      canonicalPath (strBytes buf) = slash :: PathName.join slash
        ((scanSegments buf (strBytes buf).length (strBytes buf).length 0 []).map
          (PathSegment.slice buf)) := by
  have hwhole : (buf.take (strBytes buf).length).drop 0 = strBytes buf := by
    rw [List.drop_zero, take_length_strBytes]
  obtain ⟨hspaced, hmap⟩ := scanSegments_spec buf hnul.le (strBytes buf).length 0 [] (by omega)
    (by omega) (fun _ => habs) trivial (by rw [hwhole]; exact hpending)
  rw [hwhole] at hmap
  refine ⟨hspaced, ?_⟩
  rw [hmap]
  rfl

theorem set_zero_slash (habs : buf.getD 0 0 = slash) : buf.set 0 slash = buf := by
  cases buf with
  | nil => rfl
  | cons b buf =>
      rw [List.getD_cons_zero] at habs
      rw [habs]
      rfl

theorem take_one (habs : buf.getD 0 0 = slash) (hpos : buf.length ≠ 0) : buf.take 1 = [slash] := by
  cases buf with
  | nil => exact absurd rfl hpos
  | cons b buf => simpa using habs

/-- The array of a path without components. -/
theorem strBytes_root (habs : buf.getD 0 0 = slash) (hlong : 1 < buf.length) :
    strBytes (buf.set 1 0) = [slash] := by
  have hfirst := take_one habs (by omega)
  rw [strBytes_set_nul hlong (by rw [hfirst]; decide), hfirst]

/-- On an absolute path the array ends up with the canonical form, of which a last byte
is cut off if it leaves no room for one byte more than the terminator. -/
theorem strBytes_vfsNormalizePath (hmax : buf.length < 2 ^ 31)
    (habs : buf.getD 0 0 = slash) (hnul : (strBytes buf).length < buf.length)
    (hpending : Pending [] (strBytes buf)) (hroom : 2 < buf.length) :
    strBytes (vfsNormalizePath buf buf.length) =
      (canonicalPath (strBytes buf)).take (buf.length - 2) := by
  have hlen : (asInt (kStrlen buf)).toNat = (strBytes buf).length := by
    rw [asInt_of_lt (by rw [kStrlen]; omega)]
    rfl
  have hset := set_zero_slash habs
  obtain ⟨hspaced, hcanonical⟩ := scanSegments_path habs hnul hpending
  rw [hcanonical]
  have hslash : ¬ buf.getD 0 0 ≠ slash := fun h => h habs
  have hne : buf.getD 0 0 ≠ 0 := by
    rw [habs]
    decide
  have hpos : buf.length ≠ 0 := by omega
  simp only [vfsNormalizePath, hpos, hne, hslash, if_false, false_and, hlen, hset]
  generalize scanSegments buf (strBytes buf).length (strBytes buf).length 0 [] = segs at *
  have hfirst := take_one habs hpos
  rcases eq_or_ne segs [] with rfl | hsegs
  · have hlong : buf.length > 1 := by omega
    simp only [if_true, hlong, List.map_nil, PathName.join_nil]
    rw [strBytes_root habs hlong, List.take_of_length_le (by rw [List.length_singleton]; omega)]
  · rw [if_neg hsegs]
    have hjoined : 0 ∉ slash :: PathName.join slash (segs.map (PathSegment.slice buf)) := by
      rw [List.mem_cons, not_or]
      refine ⟨by decide, notMem_join hspaced fun hmem => noNul_strBytes buf ?_⟩
      exact take_length_strBytes buf ▸ hmem
    have htotal := hspaced.length_join hnul.le hsegs
    -- the position and the bytes in front of it when the rebuild is done
    have hrebuilt : (rebuildPath buf.length segs buf 1).2 ≤ buf.length - 2 ∧
        (rebuildPath buf.length segs buf 1).1.length = buf.length ∧
        (rebuildPath buf.length segs buf 1).1.take (rebuildPath buf.length segs buf 1).2 =
          (slash :: PathName.join slash (segs.map (PathSegment.slice buf))).take
            (buf.length - 2) := by
      rcases Nat.lt_or_ge (1 + (PathName.join slash (segs.map
          (PathSegment.slice buf))).length + 1) buf.length with hlt | hge
      · obtain ⟨hend, hlen', htake⟩ :=
          rebuildPath_spec buf.length (by omega) segs buf 1 hnul.le (by omega) hspaced hlt
        rw [hfirst, List.singleton_append] at htake
        refine ⟨by omega, hlen', ?_⟩
        rw [htake, List.take_of_length_le (by rw [List.length_cons]; omega)]
      · obtain ⟨hend, hlen', htake⟩ :=
          rebuildPath_full buf.length (by omega) segs buf 1 hnul.le hspaced hsegs hroom (by omega)
        rw [hfirst, List.singleton_append] at htake
        exact ⟨hend.le, hlen', hend ▸ htake⟩
    obtain ⟨hend, hlen', htake⟩ := hrebuilt
    have hnotFull : ¬ asInt buf.length ≤ (rebuildPath buf.length segs buf 1).2 := by
      rw [asInt_of_lt (by omega)]
      omega
    rw [if_neg hnotFull, strBytes_set_nul, htake]
    · omega
    · rw [htake]
      exact fun hmem => hjoined (List.mem_of_mem_take hmem)

theorem scanSegments_eq_nil (habs : buf.getD 0 0 = slash)
    (hnul : (strBytes buf).length < buf.length) (hpending : Pending [] (strBytes buf))
    (hroot : canonicalPath (strBytes buf) = [slash]) :
    scanSegments buf (strBytes buf).length (strBytes buf).length 0 [] = [] := by
  obtain ⟨hspaced, hcanonical⟩ := scanSegments_path habs hnul hpending
  cases hsegs : scanSegments buf (strBytes buf).length (strBytes buf).length 0 [] with
  | nil => rfl
  | cons seg segs =>
      rw [hsegs] at hspaced hcanonical
      have hslice := length_slice hspaced.2.2.1 hnul.le
      have hpos := hspaced.2.1
      have hjoin := (List.cons.inj (hcanonical.symm.trans hroot)).2
      have hmem (b : UInt8) (hb : b ∈ PathSegment.slice buf seg) : False := by
        have hin : b ∈ PathName.join slash ((seg :: segs).map (PathSegment.slice buf)) :=
          PathName.mem_join_of_mem List.mem_cons_self hb
        rw [hjoin] at hin
        cases hin
      rw [List.eq_nil_iff_forall_not_mem.mpr hmem, List.length_nil] at hslice
      omega

theorem strBytes_vfsNormalizePath_root (hmin : 2 ≤ buf.length) (hmax : buf.length < 2 ^ 31)
    (habs : buf.getD 0 0 = slash) (hnul : (strBytes buf).length < buf.length)
    (hpending : Pending [] (strBytes buf)) (hroot : canonicalPath (strBytes buf) = [slash]) :
    strBytes (vfsNormalizePath buf buf.length) = [slash] := by
  have hlen : (asInt (kStrlen buf)).toNat = (strBytes buf).length := by
    rw [asInt_of_lt (by rw [kStrlen]; omega)]
    rfl
  have hslash : ¬ buf.getD 0 0 ≠ slash := fun h => h habs
  have hne : buf.getD 0 0 ≠ 0 := by
    rw [habs]
    decide
  have hpos : buf.length ≠ 0 := by omega
  have hlong : buf.length > 1 := by omega
  simp only [vfsNormalizePath, hpos, hne, hslash, if_false, false_and, hlen, set_zero_slash habs,
    scanSegments_eq_nil habs hnul hpending hroot, hlong, if_true]
  exact strBytes_root habs hlong

/-- From `2 ^ 31` bytes on the size is negative as an `int`, and no segment is put down. -/
theorem strBytes_vfsNormalizePath_huge (hmin : 2 ^ 31 ≤ buf.length) (hmax : buf.length < 2 ^ 32)
    (habs : buf.getD 0 0 = slash) (hnul : (strBytes buf).length < buf.length)
    (hpending : Pending [] (strBytes buf)) :
    strBytes (vfsNormalizePath buf buf.length) = canonicalPath (strBytes buf) ↔
      canonicalPath (strBytes buf) = [slash] := by
  have hneg := asInt_of_ge hmin hmax
  have hset := set_zero_slash habs
  have hslash : ¬ buf.getD 0 0 ≠ slash := fun h => h habs
  have hne : buf.getD 0 0 ≠ 0 := by
    rw [habs]
    decide
  have hpos : buf.length ≠ 0 := by omega
  have hlong : buf.length > 1 := by omega
  simp only [vfsNormalizePath, hpos, hne, hslash, if_false, false_and, hset, hlong, if_true]
  split
  · rw [strBytes_root habs hlong, eq_comm]
  next hsegs =>
  obtain ⟨seg, segs, hcons⟩ := List.exists_cons_of_ne_nil hsegs
  have hbroken : rebuildPath buf.length (seg :: segs) buf 1 = (buf, 1) := by
    rw [rebuildPath]
    simp only [hneg]
    rw [if_pos]
    constructor
    · rw [decide_eq_true_eq]
      omega
    · omega
  have hfull : asInt buf.length ≤ ((1 : Nat) : Int) := by omega
  have hend : (asInt buf.length - 1).toNat = 0 := by omega
  rw [hcons, hbroken]
  simp only [hfull, if_true, hend]
  have hempty : strBytes (buf.set 0 0) = [] := by
    cases buf with
    | nil => rfl
    | cons b buf => rfl
  rw [hempty]
  refine iff_of_false nofun ?_
  -- the scan has found components
  intro hroot
  rcases Nat.lt_or_ge (strBytes buf).length (2 ^ 31) with hlt | hge
  · have hlen : (asInt (kStrlen buf)).toNat = (strBytes buf).length := by
      rw [kStrlen, asInt_of_lt hlt]
      rfl
    rw [hlen] at hsegs
    exact hsegs (scanSegments_eq_nil habs hnul hpending hroot)
  · have hnone : (asInt (kStrlen buf)).toNat = 0 := by
      rw [kStrlen, asInt_of_ge hge (by omega)]
      omega
    rw [hnone] at hsegs
    exact hsegs rfl

theorem exists_strBytes_cons (habs : buf.getD 0 0 = slash) : ∃ rest, strBytes buf = slash :: rest := by
  cases buf with
  | nil => exact absurd habs (by decide)
  | cons b buf =>
      obtain rfl : b = slash := habs
      exact ⟨strBytes buf, rfl⟩

/-- The buffer holds the canonical form of an absolute path afterwards unless that is the
path itself and fills the buffer, or the size of the buffer is no `int`. -/
theorem vfsNormalizePath_canonical_iff (hmin : 2 ≤ buf.length) (hmax : buf.length < 2 ^ 32)
    (habs : buf.getD 0 0 = slash) (hnul : (strBytes buf).length < buf.length)
    (hpending : Pending [] (strBytes buf)) :
    strBytes (vfsNormalizePath buf buf.length) = canonicalPath (strBytes buf) ↔
      canonicalPath (strBytes buf) = [slash] ∨
        buf.length < 2 ^ 31 ∧
          ¬ ((strBytes buf).length + 1 = buf.length ∧
            canonicalPath (strBytes buf) = strBytes buf) := by
  rcases Nat.lt_or_ge buf.length (2 ^ 31) with hsize | hhuge
  · rw [and_iff_right hsize]
    obtain ⟨rest, hrest⟩ := exists_strBytes_cons habs
    have hle : (canonicalPath (strBytes buf)).length ≤ (strBytes buf).length := by
      rw [hrest]
      exact PathName.length_canonical_le rest
    have hself (hlen : (canonicalPath (strBytes buf)).length = (strBytes buf).length) :
        canonicalPath (strBytes buf) = strBytes buf := by
      rw [hrest] at hlen ⊢
      exact PathName.canonical_eq_self hlen
    obtain ⟨components, hcons⟩ : ∃ components, canonicalPath (strBytes buf) = slash :: components :=
      ⟨_, rfl⟩
    rcases Nat.lt_or_ge 2 buf.length with hroom | hsmall
    · rw [strBytes_vfsNormalizePath hsize habs hnul hpending hroom, List.take_eq_self_iff]
      constructor
      · intro hfits
        right
        rintro ⟨hfull, heq⟩
        rw [heq] at hfits
        omega
      · rintro (hroot | hshort)
        · rw [hroot, List.length_singleton]
          omega
        · by_contra hlong
          have hlen : (canonicalPath (strBytes buf)).length = (strBytes buf).length := by omega
          exact hshort ⟨by omega, hself hlen⟩
    · -- only the root fits into two bytes
      have hroot : canonicalPath (strBytes buf) = [slash] := by
        rw [hcons, List.length_cons] at hle
        have hempty : components = [] := List.eq_nil_of_length_eq_zero (by omega)
        rw [hcons, hempty]
      refine iff_of_true ?_ (.inl hroot)
      rw [hroot]
      exact strBytes_vfsNormalizePath_root hmin hsize habs hnul hpending hroot
  · rw [strBytes_vfsNormalizePath_huge hhuge hmax habs hnul hpending]
    constructor
    · exact .inl
    · rintro (hroot | ⟨hsmall, _⟩)
      · exact hroot
      · omega

/-- The path of a file whose name takes all of the room. -/
def fullBuffer : List UInt8 := slash :: List.replicate 62 97 ++ [0]

/-- A path with a parent directory. -/
def binBuffer : List UInt8 := cstr "/sbin/../bin//ls/" ++ List.replicate 47 0

theorem vfsNormalizePath_canonical_iff_bin :
    strBytes (vfsNormalizePath binBuffer binBuffer.length) = canonicalPath (strBytes binBuffer) := by
  have hlen : binBuffer.length = 64 := by decide
  have hshort : (strBytes binBuffer).length = 17 := by decide
  rw [vfsNormalizePath_canonical_iff (by rw [hlen]; decide) (by rw [hlen]; decide) rfl
    (by rw [hlen, hshort]; decide) (pending_of_length (by rw [hshort]; decide)), hlen, hshort]
  right
  exact ⟨by decide, fun h => absurd h.1 (by decide)⟩

/-- The last byte is missing. -/
theorem vfsNormalizePath_cut :
    fullBuffer.length = 64 ∧ fullBuffer.getD 0 0 = slash ∧ (strBytes fullBuffer).length = 63 ∧
      Pending [] (strBytes fullBuffer) ∧
      canonicalPath (strBytes fullBuffer) = strBytes fullBuffer ∧
      strBytes (vfsNormalizePath fullBuffer 64) ≠ canonicalPath (strBytes fullBuffer) := by
  have hlen : (strBytes fullBuffer).length = 63 := by decide
  refine ⟨by decide, rfl, hlen, pending_of_length (by rw [hlen]; decide), ?_, ?_⟩
  · decide
  · decide +kernel

end Normalize

end Punix
