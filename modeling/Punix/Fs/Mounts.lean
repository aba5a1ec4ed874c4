import Punix.Fs.Resolve

/-!
The filesystem that a path belongs to, after the mounts of `kmain`. A canonical
path is the path of its components, and the first of them decides.
-/

namespace Punix

open Lib

theorem toNat_ne_zero {b : UInt8} (h : b ≠ 0) : b.toNat ≠ 0 :=
  fun heq => h (UInt8.toNat_inj.mp heq)

theorem kStrcmp_eq_zero_iff {s1 s2 : List UInt8} :
    kStrcmp s1 s2 = 0 ↔ strBytes s1 = strBytes s2 := by
  induction s1 generalizing s2 with
  | nil =>
      cases s2 with
      | nil => simp [kStrcmp]
      | cons y s2 =>
          by_cases hy : y = 0
          · simp [kStrcmp, strBytes, hy]
          · simp [kStrcmp, strBytes, hy, toNat_ne_zero hy]
  | cons x s1 ih =>
      cases s2 with
      | nil =>
          by_cases hx : x = 0
          · simp [kStrcmp, strBytes, hx]
          · simp [kStrcmp, strBytes, hx, toNat_ne_zero hx]
      | cons y s2 =>
          rw [kStrcmp]
          split
          · next h =>
              obtain ⟨hx, rfl⟩ := h
              rw [ih]
              simp [strBytes, hx]
          · next h =>
              rcases eq_or_ne x y with rfl | hne
              · obtain rfl : x = 0 := by simpa using h
                simp [strBytes]
              · have hdiff : x.toNat ≠ y.toNat := fun heq => hne (UInt8.toNat_inj.mp heq)
                refine iff_of_false (by omega) fun heq => ?_
                by_cases hx : x = 0 <;> by_cases hy : y = 0 <;> simp_all [strBytes]

/-- Whole strings are compared. -/
theorem kStrcmp_eq_zero {s1 s2 : List UInt8} (h1 : 0 ∉ s1) (h2 : 0 ∉ s2) :
    kStrcmp s1 s2 = 0 ↔ s1 = s2 := by
  rw [kStrcmp_eq_zero_iff, strBytes_eq_self h1, strBytes_eq_self h2]

theorem kStrncmp_cons (n : Nat) (x y : UInt8) (s1 s2 : List UInt8) :
    kStrncmp (n + 1) (x :: s1) (y :: s2) =
      if x ≠ y ∨ x = 0 ∨ y = 0 then (x.toNat : Int) - y.toNat else kStrncmp n s1 s2 := rfl

/-- A comparison up to the length of a string asks for a prefix. -/
theorem kStrncmp_eq_zero {s1 s2 : List UInt8} (h2 : 0 ∉ s2) :
    kStrncmp s2.length s1 s2 = 0 ↔ s2 <+: s1 := by
  induction s2 generalizing s1 with
  | nil => simp [kStrncmp]
  | cons y s2 ih =>
      rw [List.mem_cons, not_or] at h2
      obtain ⟨hy, hs2⟩ := h2
      rw [List.length_cons]
      cases s1 with
      | nil =>
          have hne := toNat_ne_zero (Ne.symm hy)
          simp only [kStrncmp, List.headD_nil, List.headD_cons, ne_eq, or_true, true_or, if_true,
            List.prefix_nil, reduceCtorEq, iff_false]
          simpa using hne
      | cons x s1 =>
          rw [kStrncmp_cons]
          rcases eq_or_ne x y with rfl | hne
          · rw [if_neg (by simp [Ne.symm hy]), ih hs2, List.cons_prefix_cons]
            simp
          · have hdiff : x.toNat ≠ y.toNat := fun heq => hne (UInt8.toNat_inj.mp heq)
            rw [if_pos (.inl hne), List.cons_prefix_cons]
            refine iff_of_false (by omega) fun h => hne h.1.symm

/-- A component as it stands in a canonical path. -/
abbrev PlainName (name : List UInt8) : Prop := PathName.Plain slash dot name

/-- The path that names the components one inside the other. -/
def pathOf (components : List (List UInt8)) : List UInt8 := slash :: PathName.join slash components

theorem exists_pathOf_canonical (path : List UInt8) :
    ∃ components : List (List UInt8), (∀ c ∈ components, PlainName c) ∧
      canonicalPath path = pathOf components :=
  PathName.exists_plain_canonical path

theorem pathOf_singleton (name : List UInt8) : pathOf [name] = slash :: name := by
  rw [pathOf, PathName.join_singleton]

theorem pathOf_cons (name next : List UInt8) (components : List (List UInt8)) :
    pathOf (name :: next :: components) = slash :: name ++ pathOf (next :: components) := by
  rw [pathOf, PathName.join_cons_cons, pathOf, List.cons_append]

/-- What stands in front of the second separator. -/
theorem takeWhile_join {components : List (List UInt8)} (h : ∀ c ∈ components, PlainName c) :
    (PathName.join slash components).takeWhile (· ≠ slash) = components.headD [] := by
  cases components with
  | nil => rfl
  | cons name components =>
      have hname : ∀ b ∈ name, decide (b ≠ slash) = true := by
        intro b hb
        have hne : b ≠ slash := fun heq => (h name List.mem_cons_self).sep_notMem (heq ▸ hb)
        simpa using hne
      cases components with
      | nil => simpa using List.takeWhile_eq_self_iff.mpr hname
      | cons next components =>
          rw [PathName.join_cons_cons, List.takeWhile_append_of_pos hname]
          simp

theorem notMem_of_pathOf {components : List (List UInt8)} (h : 0 ∉ pathOf components) :
    ∀ c ∈ components, 0 ∉ c := fun _ hc hmem =>
  h (List.mem_cons_of_mem _ (PathName.mem_join_of_mem hc hmem))

theorem pathOf_inj {components components' : List (List UInt8)}
    (h : ∀ c ∈ components, PlainName c) (h' : ∀ c ∈ components', PlainName c)
    (heq : pathOf components = pathOf components') : components = components' := by
  have hresolved := congrArg (PathName.resolveAll slash dot [])
    (List.tail_eq_of_cons_eq heq)
  rwa [PathName.resolveAll_join h, PathName.resolveAll_join h', List.nil_append,
    List.nil_append] at hresolved

/-- The mounts are those of `kmain`. -/
def BootMounts (vfs : Vfs) : Prop := vfs.mounts = (kernelInit []).vfs.mounts

/-- The filesystem of a path with the given first component. -/
def topFs (name : List UInt8) : Fs :=
  if name = cstr "sys" then .sys
  else if name = cstr "proc" then .proc
  else if name = cstr "dev" then .dev
  else if name = cstr "bin" then .bin
  else .root

theorem topFs_eq_iff {name : List UInt8} :
    (topFs name = .sys ↔ name = cstr "sys") ∧ (topFs name = .proc ↔ name = cstr "proc") ∧
      (topFs name = .dev ↔ name = cstr "dev") ∧ (topFs name = .bin ↔ name = cstr "bin") := by
  unfold topFs
  split_ifs with hsys hproc hdev hbin
  · subst hsys
    decide
  · subst hproc
    decide
  · subst hdev
    decide
  · subst hbin
    decide
  · simp [hsys, hproc, hdev, hbin]

/-- What `path_to_fs` asks of a mount point one level below the root. -/
theorem mount_matches_iff {name rest : List UInt8} (hname : 0 ∉ name) (hslash : slash ∉ name)
    (hrest : 0 ∉ rest) :
    (kStrncmp (slash :: name).length (slash :: rest) (slash :: name) = 0 ∧
        ((slash :: rest).getD (slash :: name).length 0 = 0 ∨
          (slash :: rest).getD (slash :: name).length 0 = slash ∨
            (slash :: name).length = 1)) ↔
      rest.takeWhile (· ≠ slash) = name ∨ name = [] := by
  have hnul : 0 ∉ slash :: name := by
    rw [List.mem_cons, not_or]
    exact ⟨by decide, hname⟩
  rw [kStrncmp_eq_zero hnul, List.cons_prefix_cons, List.length_cons, List.getD_cons_succ]
  have hfree : ∀ b ∈ name, decide (b ≠ slash) = true := by
    intro b hb
    have hne : b ≠ slash := fun heq => hslash (heq ▸ hb)
    simpa using hne
  constructor
  · rintro ⟨⟨_, more, rfl⟩, hend⟩
    rcases eq_or_ne name [] with rfl | hne
    · exact .inr rfl
    left
    have hlen : name.length + 1 ≠ 1 := by simpa using hne
    have hat : (name ++ more).getD name.length 0 = more.headD 0 := by
      cases more <;> simp
    rw [hat] at hend
    rw [List.takeWhile_append_of_pos hfree]
    cases more with
    | nil => simp
    | cons b more =>
        have hb : b ≠ 0 := fun heq => hrest (by simp [heq])
        have hbslash : b = slash := by
          rcases hend with h | h | h
          · exact absurd h hb
          · exact h
          · exact absurd h hlen
        simp [hbslash]
  · rintro (rfl | rfl)
    · refine ⟨⟨rfl, List.takeWhile_prefix _⟩, ?_⟩
      have hsplit := List.takeWhile_append_dropWhile (p := (· ≠ slash)) (l := rest)
      rcases PathName.dropWhile_eq_nil_or_cons slash rest with hdrop | ⟨more, hdrop⟩
      · left
        rw [hdrop, List.append_nil] at hsplit
        rw [hsplit]
        simp
      · right; left
        rw [hdrop] at hsplit
        generalize rest.takeWhile (· ≠ slash) = name at hsplit
        subst hsplit
        simp
    · exact ⟨⟨rfl, List.nil_prefix⟩, by simp⟩

/-- One round of the loop of `path_to_fs`. -/
def mountRound (pathname : List UInt8) (best : Option Fs × Nat) (mount : MountPoint) :
    Option Fs × Nat :=
  let path := mount.path.bytes
  let len := path.length
  if mount.active ∧ kStrncmp len pathname path = 0 ∧
      (pathname.getD len 0 = 0 ∨ pathname.getD len 0 = slash ∨ len = 1) ∧ len > best.2
  then (mount.fs, len) else best

theorem mountRound_inactive {mount : MountPoint} (h : mount.active = false)
    (pathname : List UInt8) (best : Option Fs × Nat) : mountRound pathname best mount = best := by
  rw [mountRound, h, if_neg fun hmatch => Bool.false_ne_true hmatch.1]

theorem mountRound_active {mount : MountPoint} {name rest : List UInt8}
    (h : mount.active = true) (hpath : mount.path.bytes = slash :: name)
    (hslash : slash ∉ name) (hrest : 0 ∉ rest) (best : Option Fs × Nat) :
    mountRound (slash :: rest) best mount =
      if (rest.takeWhile (· ≠ slash) = name ∨ name = []) ∧ best.2 < name.length + 1 then
        (mount.fs, name.length + 1)
      else best := by
  have hname : 0 ∉ name := by
    have hnul := mount.path.noNul
    rw [hpath, List.mem_cons, not_or] at hnul
    exact hnul.2
  have hmatch := mount_matches_iff hname hslash hrest
  simp only [mountRound, h, hpath, true_and, ← and_assoc, gt_iff_lt]
  simp only [and_assoc]
  simp only [← hmatch, and_assoc, List.length_cons]

/-- The mount of `kmain` at a path. -/
def bootMount (path : List UInt8) (fs : Fs) : MountPoint :=
  { path := CharArray.ofBytes maxFilenameLen path, fs := some fs, active := true }

def freeMount : MountPoint :=
  { path := CharArray.ofBytes maxFilenameLen [], fs := none, active := false }

/-- The mounts of `kmain` and behind them the free places. -/
theorem boot_mounts : (List.finRange maxMounts).map (kernelInit []).vfs.mounts =
    [bootMount (cstr "/") .root, bootMount (cstr "/sys") .sys, bootMount (cstr "/proc") .proc,
      bootMount (cstr "/dev") .dev, bootMount (cstr "/bin") .bin] ++
    List.replicate 11 freeMount := by
  decide +kernel

theorem pathToFs_boot {vfs : Vfs} (hboot : BootMounts vfs) {rest : List UInt8} (hrest : 0 ∉ rest) :
    pathToFs vfs (slash :: rest) = some (topFs (rest.takeWhile (· ≠ slash))) := by
  have hrounds : pathToFs vfs (slash :: rest) =
      (((List.finRange maxMounts).map vfs.mounts).foldl (mountRound (slash :: rest)) (none, 0)).1 := by
    rw [List.foldl_map]
    rfl
  have hfirst : mountRound (slash :: rest) (none, 0) (bootMount (cstr "/") .root) =
      (some .root, 1) := by
    have hpath : (bootMount (cstr "/") .root).path.bytes = slash :: [] := rfl
    rw [mountRound_active rfl hpath (by decide) hrest, if_pos ⟨.inr rfl, by decide⟩]
    rfl
  have hround (path name : List UInt8) (fs : Fs) (best : Option Fs × Nat)
      (hpath : (bootMount path fs).path.bytes = slash :: name) (hslash : slash ∉ name)
      (hne : name ≠ []) : mountRound (slash :: rest) best (bootMount path fs) =
        if rest.takeWhile (· ≠ slash) = name ∧ best.2 < name.length + 1 then
          (some fs, name.length + 1)
        else best := by
    rw [mountRound_active rfl hpath hslash hrest]
    simp only [hne, or_false]
    rfl
  have hfree (n : Nat) (best : Option Fs × Nat) :
      (List.replicate n freeMount).foldl (mountRound (slash :: rest)) best = best := by
    induction n with
    | zero => rfl
    | succ n ih => rw [List.replicate_succ, List.foldl_cons, mountRound_inactive rfl, ih]
  rw [hrounds, hboot, boot_mounts, List.foldl_append, hfree]
  simp only [List.foldl_cons, List.foldl_nil]
  rw [hfirst, hround (cstr "/sys") (cstr "sys") .sys _ (by decide) (by decide) nofun,
    hround (cstr "/proc") (cstr "proc") .proc _ (by decide) (by decide) nofun,
    hround (cstr "/dev") (cstr "dev") .dev _ (by decide) (by decide) nofun,
    hround (cstr "/bin") (cstr "bin") .bin _ (by decide) (by decide) nofun]
  generalize rest.takeWhile (· ≠ slash) = name
  by_cases hsys : name = cstr "sys"
  · subst hsys
    decide
  by_cases hproc : name = cstr "proc"
  · subst hproc
    decide
  by_cases hdev : name = cstr "dev"
  · subst hdev
    decide
  by_cases hbin : name = cstr "bin"
  · subst hbin
    decide
  simp only [topFs, hsys, hproc, hdev, hbin, if_false, false_and]

/-- The first component decides. -/
theorem pathToFs_pathOf {vfs : Vfs} (hboot : BootMounts vfs) {components : List (List UInt8)}
    (h : ∀ c ∈ components, PlainName c) (hnul : 0 ∉ pathOf components) :
    pathToFs vfs (pathOf components) = some (topFs (components.headD [])) := by
  have hrest : 0 ∉ PathName.join slash components := fun hmem =>
    hnul (List.mem_cons_of_mem _ hmem)
  rw [pathOf, pathToFs_boot hboot hrest, takeWhile_join h]

end Punix
