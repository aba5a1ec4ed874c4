import Punix.Fs.Mounts

/-!
`path_to_fs` on any table of mounts. The comparison of the bytes, the test of the byte
behind them and the special case of the root together ask whether the mount is an ancestor
of the path, component by component; the loop keeps the longest one, and the first of those
that are equally long.
-/

namespace Punix

open Lib

/-- A mount with the components of its path. -/
abbrev Registration : Type := List (List UInt8) × Fs

/-- The place of the table holds this mount, or is free. -/
def MountPoint.Holds (mount : MountPoint) : Option Registration → Prop
  | some (components, fs) =>
      mount.active = true ∧ mount.path.bytes = pathOf components ∧ mount.fs = some fs
  | none => mount.active = false

/-- The mounts of the table in the order of their registration. -/
structure Registered (vfs : Vfs) (mounts : List Registration) : Prop where
  count : mounts.length ≤ maxMounts
  plain : ∀ mount ∈ mounts, ∀ c ∈ mount.1, PlainName c
  holds : ∀ i : Fin maxMounts, (vfs.mounts i).Holds mounts[i.val]?

/-- The `i`-th mount is the longest ancestor of the path, and the first with its path. -/
structure Wins (mounts : List Registration) (components : List (List UInt8)) (i : Nat)
    (mount : Registration) : Prop where
  isAt : mounts[i]? = some mount
  ancestor : mount.1 <+: components
  longest : ∀ other ∈ mounts, other.1 <+: components → other.1 <+: mount.1
  first : ∀ j < i, ∀ other, mounts[j]? = some other → other.1 ≠ mount.1

theorem length_pathOf {components : List (List UInt8)} (h : components ≠ []) :
    (pathOf components).length = PathName.spread components := by
  rw [← PathName.length_spell slash, PathName.spell_eq_join slash h]
  rfl

/-- An ancestor that is not shorter is the path itself. -/
theorem eq_of_length_le {ancestor components : List (List UInt8)}
    (h : ancestor <+: components) (hplain : ∀ c ∈ components, PlainName c)
    (hle : (pathOf components).length ≤ (pathOf ancestor).length) : ancestor = components := by
  by_contra hne
  have hlt := PathName.spread_lt_of_prefix h hne
  cases components with
  | nil => exact hne (List.prefix_nil.mp h)
  | cons name components =>
      have hname := List.length_pos_of_ne_nil (hplain name List.mem_cons_self).ne_nil
      rw [length_pathOf (List.cons_ne_nil _ _)] at hle
      cases ancestor with
      | nil =>
          have hroot : (pathOf []).length = 1 := rfl
          have hspread : PathName.spread (name :: components) =
              name.length + 1 + PathName.spread components := rfl
          omega
      | cons first ancestor =>
          rw [length_pathOf (List.cons_ne_nil _ _)] at hle
          omega

theorem length_pathOf_mono {ancestor components : List (List UInt8)}
    (h : ancestor <+: components) : (pathOf ancestor).length ≤ (pathOf components).length := by
  rcases eq_or_ne ancestor components with rfl | hne
  · exact le_rfl
  · have hlt := PathName.spread_lt_of_prefix h hne
    have hcomponents : components ≠ [] := by
      rintro rfl
      exact hne (List.prefix_nil.mp h)
    rw [length_pathOf hcomponents]
    cases ancestor with
    | nil =>
        have hroot : (pathOf []).length = 1 := rfl
        omega
    | cons first ancestor =>
        rw [length_pathOf (List.cons_ne_nil _ _)]
        omega

/-- What `path_to_fs` asks of a mount is whether it is an ancestor of the path. -/
theorem mount_matches_iff_prefix {ancestor components : List (List UInt8)}
    (hancestor : ∀ c ∈ ancestor, PlainName c) (hcomponents : ∀ c ∈ components, PlainName c)
    (hpath : 0 ∉ pathOf ancestor) (hnul : 0 ∉ pathOf components) :
    (kStrncmp (pathOf ancestor).length (pathOf components) (pathOf ancestor) = 0 ∧
        ((pathOf components).getD (pathOf ancestor).length 0 = 0 ∨
          (pathOf components).getD (pathOf ancestor).length 0 = slash ∨
            (pathOf ancestor).length = 1)) ↔
      ancestor <+: components := by
  rw [kStrncmp_eq_zero hpath]
  rcases eq_or_ne ancestor [] with rfl | hne
  · exact iff_of_true ⟨⟨_, rfl⟩, .inr (.inr rfl)⟩ List.nil_prefix
  have hspell : pathOf ancestor = PathName.spell slash ancestor :=
    (PathName.spell_eq_join slash hne).symm
  have hlong : 1 < (pathOf ancestor).length := by
    cases ancestor with
    | nil => exact absurd rfl hne
    | cons name ancestor =>
        have hname := List.length_pos_of_ne_nil (hancestor name List.mem_cons_self).ne_nil
        have hspread : PathName.spread (name :: ancestor) =
            name.length + 1 + PathName.spread ancestor := rfl
        rw [length_pathOf hne]
        omega
  rcases eq_or_ne components [] with rfl | hcne
  · rw [List.prefix_nil]
    apply iff_of_false
    · rintro ⟨hinitial, -⟩
      have hle := hinitial.length_le
      have hroot : (pathOf []).length = 1 := rfl
      omega
    · exact hne
  have hspell' : pathOf components = PathName.spell slash components :=
    (PathName.spell_eq_join slash hcne).symm
  rw [← PathName.spell_append_iff (fun c hc => (hancestor c hc).sep_notMem)
    (fun c hc => (hcomponents c hc).sep_notMem), ← hspell, ← hspell']
  have hnext {rest : List UInt8} (heq : pathOf ancestor ++ rest = pathOf components) :
      (pathOf components).getD (pathOf ancestor).length 0 = rest.headD 0 := by
    rw [← heq]
    cases rest <;> simp
  constructor
  · rintro ⟨⟨rest, heq⟩, hend⟩
    refine ⟨rest, ?_, heq⟩
    rw [hnext heq] at hend
    cases rest with
    | nil => exact fun x hx => absurd hx (Option.not_mem_none x)
    | cons b rest =>
        intro x hx
        obtain rfl := Option.some.inj hx
        rcases hend with hzero | hslash | hone
        · have hmem : (0 : UInt8) ∈ pathOf components := by
            rw [← heq, ← show b = 0 from hzero]
            exact List.mem_append_right _ List.mem_cons_self
          exact absurd hmem hnul
        · exact hslash
        · omega
  · rintro ⟨rest, hhead, heq⟩
    refine ⟨⟨rest, heq⟩, ?_⟩
    rw [hnext heq]
    cases rest with
    | nil => exact .inl rfl
    | cons b rest => exact .inr (.inl (hhead b rfl))

section Loop

variable {vfs : Vfs} {mounts : List Registration} {components : List (List UInt8)}

/-- What the loop has found among the mounts so far. -/
def BestOf (mounts : List Registration) (components : List (List UInt8))
    (best : Option Fs × Nat) : Prop :=
  best = (none, 0) ∧ (∀ mount ∈ mounts, ¬ mount.1 <+: components) ∨
    ∃ i mount, Wins mounts components i mount ∧
      best = (some mount.2, (pathOf mount.1).length)

/-- One round of the loop. -/
def registrationRound (components : List (List UInt8)) (best : Option Fs × Nat)
    (mount : Registration) : Option Fs × Nat :=
  if mount.1 <+: components ∧ best.2 < (pathOf mount.1).length then
    (some mount.2, (pathOf mount.1).length)
  else best

theorem mountRound_holds {point : MountPoint} {mount : Registration}
    (hholds : point.Holds (some mount)) (hmount : ∀ c ∈ mount.1, PlainName c)
    (hcomponents : ∀ c ∈ components, PlainName c) (hnul : 0 ∉ pathOf components)
    (best : Option Fs × Nat) :
    mountRound (pathOf components) best point = registrationRound components best mount := by
  obtain ⟨hactive, hpath, hfs⟩ := hholds
  have hfree : 0 ∉ pathOf mount.1 := hpath ▸ point.path.noNul
  have hmatch := mount_matches_iff_prefix hmount hcomponents hfree hnul
  unfold mountRound registrationRound
  rw [hpath, hfs]
  dsimp only
  apply if_congr _ rfl rfl
  rw [hactive, ← hmatch, and_assoc]
  exact and_iff_right rfl

/-- Of two ancestors of one path the one is an ancestor of the other. -/
theorem prefix_total {a b : List (List UInt8)} (ha : a <+: components) (hb : b <+: components) :
    a <+: b ∨ b <+: a := by
  rcases Nat.le_total a.length b.length with hle | hle
  · exact .inl (List.prefix_of_prefix_length_le ha hb hle)
  · exact .inr (List.prefix_of_prefix_length_le hb ha hle)

/-- A mount that is not longer than the best one changes nothing. -/
theorem Wins.append {i : Nat} {best mount : Registration} (h : Wins mounts components i best)
    (hmount : mount.1 <+: components → mount.1 <+: best.1) :
    Wins (mounts ++ [mount]) components i best where
  isAt := by
    obtain ⟨hlt, -⟩ := List.getElem?_eq_some_iff.mp h.isAt
    rw [List.getElem?_append_left hlt, h.isAt]
  ancestor := h.ancestor
  longest other hmem hother := by
    rcases List.mem_append.mp hmem with hold | hnew
    · exact h.longest other hold hother
    · obtain rfl := List.mem_singleton.mp hnew
      exact hmount hother
  first j hj other hother := by
    obtain ⟨hlt, -⟩ := List.getElem?_eq_some_iff.mp h.isAt
    rw [List.getElem?_append_left (hj.trans hlt)] at hother
    exact h.first j hj other hother

/-- A mount behind all others wins if it is a longer ancestor than they are. -/
theorem wins_last {mount : Registration} (hmount : mount.1 <+: components)
    (hlonger : ∀ other ∈ mounts, other.1 <+: components →
      other.1 <+: mount.1 ∧ other.1 ≠ mount.1) :
    Wins (mounts ++ [mount]) components mounts.length mount where
  isAt := by rw [List.getElem?_append_right le_rfl, Nat.sub_self]; rfl
  ancestor := hmount
  longest other hmem hother := by
    rcases List.mem_append.mp hmem with hold | hnew
    · exact (hlonger other hold hother).1
    · obtain rfl := List.mem_singleton.mp hnew
      exact List.prefix_rfl
  first j hj other hother heq := by
    rw [List.getElem?_append_left hj] at hother
    have hmem := List.mem_of_getElem? hother
    exact (hlonger other hmem (heq ▸ hmount)).2 heq

theorem BestOf.round {best : Option Fs × Nat} {mount : Registration}
    (h : BestOf mounts components best) (hmount : ∀ c ∈ mount.1, PlainName c) :
    BestOf (mounts ++ [mount]) components (registrationRound components best mount) := by
  unfold registrationRound
  rcases h with ⟨rfl, hnone⟩ | ⟨i, winner, hwins, rfl⟩
  · split
    · next hround =>
        refine .inr ⟨mounts.length, mount, wins_last hround.1 ?_, rfl⟩
        exact fun other hmem hother => absurd hother (hnone other hmem)
    · next hround =>
        refine .inl ⟨rfl, ?_⟩
        intro other hmem hother
        rcases List.mem_append.mp hmem with hold | hnew
        · exact hnone other hold hother
        · obtain rfl := List.mem_singleton.mp hnew
          exact hround ⟨hother, Nat.succ_pos _⟩
  · split
    · next hround =>
        obtain ⟨hancestor, hlt⟩ := hround
        refine .inr ⟨mounts.length, mount, wins_last hancestor ?_, rfl⟩
        intro other hmem hother
        have hwinner := hwins.longest other hmem hother
        have hshorter := length_pathOf_mono hwinner
        have hne : other.1 ≠ mount.1 := by
          intro heq
          rw [heq] at hshorter
          exact absurd hlt (Nat.not_lt.mpr hshorter)
        rcases prefix_total hother hancestor with hle | hge
        · exact ⟨hle, hne⟩
        · exact absurd hlt (Nat.not_lt.mpr ((length_pathOf_mono hge).trans hshorter))
    · next hround =>
        refine .inr ⟨i, winner, hwins.append ?_, rfl⟩
        intro hancestor
        rcases prefix_total hancestor hwins.ancestor with hle | hge
        · exact hle
        · have hshort : (pathOf mount.1).length ≤ (pathOf winner.1).length :=
            Nat.not_lt.mp fun hlt => hround ⟨hancestor, hlt⟩
          rw [eq_of_length_le hge hmount hshort]

theorem bestOf_foldl (hplain : ∀ mount ∈ mounts, ∀ c ∈ mount.1, PlainName c) :
    BestOf mounts components (mounts.foldl (registrationRound components) (none, 0)) := by
  induction mounts using List.reverseRecOn with
  | nil => exact .inl ⟨rfl, fun mount hmem => absurd hmem List.not_mem_nil⟩
  | append_singleton mounts mount ih =>
      rw [List.foldl_append]
      exact (ih fun other hmem => hplain other (List.mem_append_left _ hmem)).round
        (hplain mount (List.mem_append_right _ (List.mem_singleton_self mount)))

/-- The loop runs over the mounts; the free places behind them are skipped. -/
theorem pathToFs_eq (h : Registered vfs mounts) (hcomponents : ∀ c ∈ components, PlainName c)
    (hnul : 0 ∉ pathOf components) :
    pathToFs vfs (pathOf components) =
      (mounts.foldl (registrationRound components) (none, 0)).1 := by
  have hrounds (k : Nat) (hk : k ≤ maxMounts) (best : Option Fs × Nat) :
      ((List.finRange maxMounts).take k).foldl
          (fun best i => mountRound (pathOf components) best (vfs.mounts i)) best =
        (mounts.take k).foldl (registrationRound components) best := by
    induction k with
    | zero => rfl
    | succ k ih =>
        have hget : (List.finRange maxMounts)[k]? = some ⟨k, hk⟩ := by
          rw [List.getElem?_eq_getElem (by rw [List.length_finRange]; exact hk)]
          simp
        rw [List.take_add_one, List.take_add_one, List.foldl_append, List.foldl_append,
          ih (by omega), hget]
        have hholds := h.holds ⟨k, hk⟩
        dsimp only at hholds
        cases hmount : mounts[k]? with
        | none =>
            rw [hmount] at hholds
            exact mountRound_inactive hholds _ _
        | some mount =>
            rw [hmount] at hholds
            exact mountRound_holds hholds (h.plain mount (List.mem_of_getElem? hmount))
              hcomponents hnul _
  have hall := hrounds maxMounts le_rfl (none, 0)
  rw [List.take_of_length_le (by rw [List.length_finRange]),
    List.take_of_length_le h.count] at hall
  rw [← hall]
  rfl

/-- There is one winner. -/
theorem Wins.unique {i j : Nat} {mount mount' : Registration} (h : Wins mounts components i mount)
    (h' : Wins mounts components j mount') : mount = mount' := by
  have hmem := List.mem_of_getElem? h.isAt
  have hmem' := List.mem_of_getElem? h'.isAt
  have hpath : mount.1 = mount'.1 :=
    (h'.longest mount hmem h.ancestor).eq_of_length_le
      (h.longest mount' hmem' h'.ancestor).length_le
  have hindex : i = j := by
    rcases lt_trichotomy i j with hlt | heq | hgt
    · exact absurd hpath (h'.first i hlt mount h.isAt)
    · exact heq
    · exact absurd hpath.symm (h.first j hgt mount' h'.isAt)
  have hsame := h'.isAt.symm.trans (hindex ▸ h.isAt)
  exact (Option.some.inj hsame).symm

/-- The filesystem of a canonical path is that of the longest mount that is an ancestor of the
path, the first one of those with the same path, and there is none if no mount is. -/
theorem pathToFs_registered (h : Registered vfs mounts)
    (hcomponents : ∀ c ∈ components, PlainName c) (hnul : 0 ∉ pathOf components) :
    (pathToFs vfs (pathOf components) = none ↔ ∀ mount ∈ mounts, ¬ mount.1 <+: components) ∧
      ∀ fs, pathToFs vfs (pathOf components) = some fs ↔
        ∃ i mount, Wins mounts components i mount ∧ mount.2 = fs := by
  rw [pathToFs_eq h hcomponents hnul]
  have hbest : BestOf mounts components _ := bestOf_foldl h.plain
  rcases hbest with ⟨hbest, hnone⟩ | ⟨i, winner, hwins, hbest⟩
  · rw [hbest]
    constructor
    · exact iff_of_true rfl hnone
    · intro fs
      apply iff_of_false
      · exact Option.some_ne_none fs ∘ Eq.symm
      · rintro ⟨j, mount, hmount, -⟩
        exact hnone mount (List.mem_of_getElem? hmount.isAt) hmount.ancestor
  · rw [hbest]
    constructor
    · apply iff_of_false
      · exact Option.some_ne_none _
      · exact fun hnone => hnone winner (List.mem_of_getElem? hwins.isAt) hwins.ancestor
    · intro fs
      constructor
      · intro heq
        exact ⟨i, winner, hwins, Option.some.inj heq⟩
      · rintro ⟨j, mount, hmount, rfl⟩
        rw [hwins.unique hmount]

end Loop

theorem registered_vfsInit : Registered vfsInit [] where
  count := Nat.zero_le _
  plain := fun _ hmem => absurd hmem List.not_mem_nil
  holds _ := rfl

/-- A path that fits is stored as it is. -/
theorem bytes_vfsNormalizePath {components : List (List UInt8)}
    (hplain : ∀ c ∈ components, PlainName c) (hnul : 0 ∉ pathOf components)
    (hfits : (pathOf components).length ≤ maxFilenameLen - 2) :
    (CharArray.ofBytes maxFilenameLen (vfsNormalizePath
      (copyTerminated (List.replicate maxFilenameLen 0) (pathOf components))
      maxFilenameLen)).bytes = pathOf components := by
  have hlong : 2 ≤ maxFilenameLen := by decide
  have hself : strBytes (pathOf components) = pathOf components := strBytes_eq_self hnul
  have hstr : strBytes (copyTerminated (List.replicate maxFilenameLen 0) (pathOf components)) =
      pathOf components := by
    rw [strBytes_copyTerminated (by rw [List.length_replicate]; omega), List.length_replicate,
      hself, List.take_of_length_le (by omega)]
  have hcanonical : canonicalPath (pathOf components) = pathOf components :=
    PathName.canonical_join hplain
  rw [bytes_normalized (by rw [length_copyTerminated, List.length_replicate]) hstr
    (by rw [hstr]; omega), hstr, hcanonical, List.take_of_length_le hfits]

/-- Every mount is put behind those that are there. -/
theorem Registered.mount {vfs : Vfs} {mounts : List Registration} (h : Registered vfs mounts)
    (hroom : mounts.length < maxMounts) {components : List (List UInt8)}
    (hplain : ∀ c ∈ components, PlainName c) (hnul : 0 ∉ pathOf components)
    (hfits : (pathOf components).length ≤ maxFilenameLen - 2) (fs : Fs) :
    (vfsMount vfs (pathOf components) fs).2 = 0 ∧
      Registered (vfsMount vfs (pathOf components) fs).1 (mounts ++ [(components, fs)]) := by
  have hfind : ((List.finRange maxMounts).find? fun i => ¬ (vfs.mounts i).active) =
      some ⟨mounts.length, hroom⟩ := by
    rw [List.find?_eq_some_iff_getElem]
    constructor
    · have hfree := h.holds ⟨mounts.length, hroom⟩
      dsimp only at hfree
      rw [List.getElem?_eq_none le_rfl] at hfree
      rw [show (vfs.mounts ⟨mounts.length, hroom⟩).active = false from hfree]
      rfl
    · refine ⟨mounts.length, by rw [List.length_finRange]; exact hroom, by simp, ?_⟩
      intro j hj
      have htaken := h.holds ⟨j, hj.trans hroom⟩
      dsimp only at htaken
      rw [List.getElem?_eq_getElem hj] at htaken
      simp [htaken.1]
  unfold vfsMount
  rw [hfind]
  refine ⟨rfl, ?_, ?_, ?_⟩
  · rw [List.length_append, List.length_singleton]
    exact hroom
  · intro mount hmem
    rcases List.mem_append.mp hmem with hold | hnew
    · exact h.plain mount hold
    · obtain rfl := List.mem_singleton.mp hnew
      exact hplain
  · intro i
    dsimp only
    rcases lt_trichotomy i.val mounts.length with hlt | heq | hgt
    · rw [Function.update_of_ne (fun h => hlt.ne (congrArg Fin.val h)),
        List.getElem?_append_left hlt]
      exact h.holds i
    · obtain rfl : i = ⟨mounts.length, hroom⟩ := Fin.ext heq
      rw [Function.update_self, List.getElem?_append_right le_rfl, Nat.sub_self]
      exact ⟨rfl, bytes_vfsNormalizePath hplain hnul hfits, rfl⟩
    · have hholds := h.holds i
      rw [List.getElem?_eq_none hgt.le] at hholds
      rw [Function.update_of_ne (fun h => hgt.ne' (congrArg Fin.val h)),
        List.getElem?_eq_none (by rw [List.length_append, List.length_singleton]; exact hgt)]
      exact hholds

/-- A mount at `/proc` does not capture `/procfoo`. -/
theorem pathToFs_registered_procfoo :
    pathToFs (vfsMount (vfsMount vfsInit (pathOf []) .root).1 (pathOf [cstr "proc"]) .proc).1
      (pathOf [cstr "procfoo"]) = some .root := by
  have hname : ∀ c ∈ [cstr "proc"], PlainName c :=
    List.forall_mem_singleton.mpr ⟨by decide, by decide, by decide, by decide⟩
  have hlonger : ∀ c ∈ [cstr "procfoo"], PlainName c :=
    List.forall_mem_singleton.mpr ⟨by decide, by decide, by decide, by decide⟩
  have hroot := (registered_vfsInit.mount (by decide) (List.forall_mem_nil _) (by decide)
    (by decide) .root).2
  have hproc := (hroot.mount (by decide) hname (by decide) (by decide) .proc).2
  apply ((pathToFs_registered hproc hlonger (by decide)).2 .root).mpr
  refine ⟨0, ([], .root), ⟨rfl, List.nil_prefix, ?_, ?_⟩, rfl⟩
  · intro other hmem hother
    rcases List.mem_cons.mp hmem with rfl | hmem
    · exact List.prefix_rfl
    · obtain rfl := List.mem_singleton.mp hmem
      exact absurd hother (by decide)
  · exact fun j hj => absurd hj (Nat.not_lt_zero j)

end Punix
