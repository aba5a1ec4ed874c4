import Mathlib.Data.List.TakeWhile
import Mathlib.Tactic

/-!
Path names over an arbitrary alphabet with a separator and a dot. The components
of a path are what stands between separators; empty components and a single dot
are skipped, and a double dot removes the component before it, if there is one.
The canonical form of a path is a separator followed by the components that are
left. A path of plain components is its own canonical form.
-/

namespace Punix.Lib.PathName

variable {α : Type*}

/-- The components with a separator between each two of them. -/
def join (sep : α) (components : List (List α)) : List α := [sep].intercalate components

@[simp] theorem join_nil (sep : α) : join sep [] = [] := rfl

@[simp] theorem join_singleton (sep : α) (component : List α) : join sep [component] = component :=
  List.intercalate_singleton

theorem length_le_join (sep : α) (component : List α) (components : List (List α)) :
    component.length ≤ (join sep (component :: components)).length := by
  cases components with
  | nil => rw [join_singleton]
  | cons next components => simp [join, List.intercalate_cons_cons]

theorem join_cons_cons (sep : α) (component next : List α) (components : List (List α)) :
    join sep (component :: next :: components) =
      component ++ sep :: join sep (next :: components) := by
  simp [join, List.intercalate_cons_cons]

theorem mem_join {sep x : α} {components : List (List α)} (h : x ∈ join sep components) :
    x = sep ∨ ∃ component ∈ components, x ∈ component := by
  induction components with
  | nil => simp at h
  | cons component components ih =>
      cases components with
      | nil => exact .inr ⟨component, by simp, by simpa using h⟩
      | cons next components =>
          rw [join_cons_cons, List.mem_append, List.mem_cons] at h
          rcases h with hmem | rfl | hmem
          · exact .inr ⟨component, by simp, hmem⟩
          · exact .inl rfl
          · rcases ih hmem with hsep | ⟨found, hfound, hx⟩
            · exact .inl hsep
            · exact .inr ⟨found, List.mem_cons_of_mem _ hfound, hx⟩

theorem mem_join_of_mem {sep x : α} {component : List α} {components : List (List α)}
    (h : component ∈ components) (hx : x ∈ component) : x ∈ join sep components := by
  induction components with
  | nil => cases h
  | cons first components ih =>
      cases components with
      | nil =>
          obtain rfl := List.mem_singleton.mp h
          rwa [join_singleton]
      | cons next components =>
          rw [join_cons_cons, List.mem_append, List.mem_cons]
          rcases List.mem_cons.mp h with rfl | hmem
          · exact .inl hx
          · exact .inr (.inr (ih hmem))

/-- The length of the components with a separator in front of each. -/
def spread (components : List (List α)) : Nat :=
  (components.map fun component => component.length + 1).sum

@[simp] theorem spread_append (components more : List (List α)) :
    spread (components ++ more) = spread components + spread more := by
  simp [spread]

theorem spread_snoc (stack : List (List α)) (component : List α) :
    spread (stack ++ [component]) = spread stack + component.length + 1 := by
  simp [spread]
  omega

theorem length_le_spread (components : List (List α)) : components.length ≤ spread components := by
  induction components with
  | nil => exact le_rfl
  | cons component components ih =>
      rw [spread, List.map_cons, List.sum_cons, List.length_cons]
      rw [spread] at ih
      omega

theorem spread_dropLast_le (components : List (List α)) :
    spread components.dropLast ≤ spread components := by
  rcases components.eq_nil_or_concat with rfl | ⟨init, last, rfl⟩
  · exact le_rfl
  · simp

variable (sep) in
theorem length_join_cons (component : List α) (components : List (List α)) :
    (join sep (component :: components)).length + 1 = spread (component :: components) := by
  induction components generalizing component with
  | nil => simp [spread]
  | cons next components ih =>
      have hrest := ih next
      rw [join_cons_cons, List.length_append, List.length_cons, hrest]
      simp only [spread, List.map_cons, List.sum_cons]
      omega

/-- The components with a separator in front of each. -/
def spell (sep : α) (components : List (List α)) : List α :=
  components.flatMap fun component => sep :: component

theorem spell_cons (sep : α) (component : List α) (components : List (List α)) :
    spell sep (component :: components) = sep :: (component ++ spell sep components) := rfl

theorem spell_eq_join (sep : α) {components : List (List α)} (h : components ≠ []) :
    spell sep components = sep :: join sep components := by
  induction components with
  | nil => exact absurd rfl h
  | cons component components ih =>
      rw [spell_cons]
      cases components with
      | nil => rw [join_singleton, spell, List.flatMap_nil, List.append_nil]
      | cons next components => rw [ih (List.cons_ne_nil _ _), join_cons_cons]

theorem length_spell (sep : α) (components : List (List α)) :
    (spell sep components).length = spread components := by
  rw [spell, List.length_flatMap]
  rfl

theorem head?_spell (sep : α) (components : List (List α)) :
    ∀ x ∈ (spell sep components).head?, x = sep := by
  cases components with
  | nil => exact fun x hx => absurd hx (Option.not_mem_none x)
  | cons component components => exact fun x hx => (Option.some.inj hx).symm

/-- The first components of two spellings are read off one after the other. -/
theorem append_inj_of_sep {sep : α} {component component' rest rest' : List α}
    (h : sep ∉ component) (h' : sep ∉ component') (hrest : ∀ x ∈ rest.head?, x = sep)
    (hrest' : ∀ x ∈ rest'.head?, x = sep) :
    component ++ rest = component' ++ rest' ↔ component = component' ∧ rest = rest' := by
  constructor
  · intro heq
    induction component generalizing component' with
    | nil =>
        cases component' with
        | nil => exact ⟨rfl, heq⟩
        | cons x component' =>
            rw [List.nil_append] at heq
            have hx := hrest x (by rw [heq]; rfl)
            exact absurd (hx ▸ List.mem_cons_self) h'
    | cons y component ih =>
        cases component' with
        | nil =>
            rw [List.nil_append] at heq
            have hy := hrest' y (by rw [← heq]; rfl)
            exact absurd (hy ▸ List.mem_cons_self) h
        | cons x component' =>
            obtain ⟨rfl, htail⟩ := List.cons.inj heq
            obtain ⟨rfl, hrests⟩ := ih (fun hmem => h (List.mem_cons_of_mem _ hmem))
              (fun hmem => h' (List.mem_cons_of_mem _ hmem)) htail
            exact ⟨rfl, hrests⟩
  · rintro ⟨rfl, rfl⟩
    rfl

/-- An ancestor is a spelling that ends where a component ends. -/
theorem spell_append_iff {sep : α} {ancestor components : List (List α)}
    (hancestor : ∀ c ∈ ancestor, sep ∉ c) (hcomponents : ∀ c ∈ components, sep ∉ c) :
    (∃ rest : List α, (∀ x ∈ rest.head?, x = sep) ∧
        spell sep ancestor ++ rest = spell sep components) ↔
      ancestor <+: components := by
  induction ancestor generalizing components with
  | nil => exact iff_of_true ⟨_, head?_spell sep components, rfl⟩ List.nil_prefix
  | cons name ancestor ih =>
      cases components with
      | nil =>
          rw [List.prefix_nil]
          apply iff_of_false
          · rintro ⟨rest, -, heq⟩
            cases heq
          · exact List.cons_ne_nil _ _
      | cons name' components =>
          rw [List.cons_prefix_cons, ← ih (fun c hc => hancestor c (List.mem_cons_of_mem _ hc))
            (fun c hc => hcomponents c (List.mem_cons_of_mem _ hc)), ← exists_and_left]
          apply exists_congr
          intro rest
          rw [← and_assoc, and_comm (a := name = name'), and_assoc]
          apply and_congr_right
          intro hrest
          have hhead : ∀ x ∈ (spell sep ancestor ++ rest).head?, x = sep := by
            cases ancestor with
            | nil => exact hrest
            | cons next ancestor => exact fun x hx => (Option.some.inj hx).symm
          have hsplit := append_inj_of_sep (hancestor name List.mem_cons_self)
            (hcomponents name' List.mem_cons_self) hhead (head?_spell sep components)
          rw [spell_cons, spell_cons, List.cons_append, List.cons_inj_right, List.append_assoc]
          exact hsplit

/-- A longer path of components that are not empty is longer when it is spelled. -/
theorem spread_lt_of_prefix {ancestor components : List (List α)}
    (h : ancestor <+: components) (hne : ancestor ≠ components) :
    spread ancestor < spread components := by
  obtain ⟨rest, rfl⟩ := h
  have hrest : rest ≠ [] := by
    rintro rfl
    exact hne (List.append_nil _).symm
  have hpos := List.length_pos_of_ne_nil hrest
  have hle := length_le_spread rest
  rw [spread_append]
  omega

variable [DecidableEq α] (sep dot : α)

/-- What one component does to the components before it. -/
def resolve (stack : List (List α)) (component : List α) : List (List α) :=
  if component = [] ∨ component = [dot] then stack
  else if component = [dot, dot] then stack.dropLast
  else stack ++ [component]

/-- What all components of `path` do to `stack`. -/
def resolveAll (stack : List (List α)) (path : List α) : List (List α) :=
  (path.splitOnP (· = sep)).foldl (resolve dot) stack

/-- The absolute path without empty, `.` and `..` components that `path` stands for. -/
def canonical (path : List α) : List α := sep :: join sep (resolveAll sep dot [] path)

variable {sep dot} {stack : List (List α)} {path rest : List α}

@[simp] theorem resolve_nil : resolve dot stack [] = stack := by simp [resolve]

@[simp] theorem resolveAll_nil : resolveAll sep dot stack [] = stack := by
  simp [resolveAll]

/-- Both sides of a separator count one after the other. -/
theorem resolveAll_append_sep :
    resolveAll sep dot stack (path ++ sep :: rest) =
      resolveAll sep dot (resolveAll sep dot stack path) rest := by
  have hsplit := List.splitOnP_append_cons path rest (p := (· = sep)) (decide_eq_true (rfl : sep = sep))
  rw [resolveAll, hsplit, List.foldl_append]
  rfl

@[simp] theorem resolveAll_sep_cons :
    resolveAll sep dot stack (sep :: rest) = resolveAll sep dot stack rest := by
  have happend : resolveAll sep dot stack ([] ++ sep :: rest) =
      resolveAll sep dot (resolveAll sep dot stack []) rest := resolveAll_append_sep
  simpa using happend

/-- A path without a separator is one component. -/
theorem resolveAll_of_notMem (h : sep ∉ path) : resolveAll sep dot stack path = resolve dot stack path := by
  have hsplit : path.splitOnP (· = sep) = [path] := by
    apply List.splitOnP_eq_singleton
    intro x hx
    simpa using fun heq : x = sep => h (heq ▸ hx)
  simp [resolveAll, hsplit]

/-- Behind the component in front there is nothing or a separator. -/
theorem dropWhile_eq_nil_or_cons (sep : α) (path : List α) :
    path.dropWhile (· ≠ sep) = [] ∨ ∃ rest, path.dropWhile (· ≠ sep) = sep :: rest := by
  cases hrest : path.dropWhile (· ≠ sep) with
  | nil => exact .inl rfl
  | cons x rest =>
      have hhead := List.head?_dropWhile_not (· ≠ sep) path
      rw [hrest] at hhead
      obtain rfl : x = sep := by simpa using hhead
      exact .inr ⟨rest, rfl⟩

/-- Separators in front are skipped. -/
theorem resolveAll_dropWhile :
    resolveAll sep dot stack (path.dropWhile (· = sep)) = resolveAll sep dot stack path := by
  induction path with
  | nil => rfl
  | cons x path ih =>
      rcases eq_or_ne x sep with rfl | hx
      · simpa using ih
      · simp [hx]

theorem resolveAll_component_append {component : List α} (hfree : sep ∉ component)
    (hrest : rest = [] ∨ ∃ more, rest = sep :: more) :
    resolveAll sep dot stack (component ++ rest) =
      resolveAll sep dot (resolve dot stack component) rest := by
  rcases hrest with rfl | ⟨more, rfl⟩
  · rw [List.append_nil, resolveAll_of_notMem hfree, resolveAll_nil]
  · rw [resolveAll_append_sep, resolveAll_of_notMem hfree, resolveAll_sep_cons]

theorem notMem_takeWhile_ne (sep : α) (path : List α) : sep ∉ path.takeWhile (· ≠ sep) := by
  intro hmem
  simpa using List.mem_takeWhile_imp hmem

/-- The component in front counts first. -/
theorem resolveAll_takeWhile :
    resolveAll sep dot (resolve dot stack (path.takeWhile (· ≠ sep))) (path.dropWhile (· ≠ sep)) =
      resolveAll sep dot stack path := by
  have hpath := List.takeWhile_append_dropWhile (p := (· ≠ sep)) (l := path)
  rw [← resolveAll_component_append (notMem_takeWhile_ne sep path)
    (dropWhile_eq_nil_or_cons sep path), hpath]

theorem resolveAll_seps_append {seps : List α} (h : ∀ x ∈ seps, x = sep) :
    resolveAll sep dot stack (seps ++ path) = resolveAll sep dot stack path := by
  induction seps with
  | nil => rfl
  | cons x seps ih =>
      obtain rfl := h x List.mem_cons_self
      rw [List.cons_append, resolveAll_sep_cons, ih fun y hy => h y (List.mem_cons_of_mem x hy)]

/-- A part of the path that goes beyond its first component. -/
theorem resolveAll_take (j : Nat) :
    resolveAll sep dot stack (path.take (path.length -
        ((path.dropWhile (· = sep)).dropWhile (· ≠ sep)).length + j)) =
      resolveAll sep dot (resolve dot stack ((path.dropWhile (· = sep)).takeWhile (· ≠ sep)))
        (((path.dropWhile (· = sep)).dropWhile (· ≠ sep)).take j) := by
  have hseps : ∀ x ∈ path.takeWhile (· = sep), x = sep := by
    intro x hx
    simpa using List.mem_takeWhile_imp hx
  have hpath := List.takeWhile_append_dropWhile (p := (· = sep)) (l := path)
  have hfirst := List.takeWhile_append_dropWhile (p := (· ≠ sep)) (l := path.dropWhile (· = sep))
  have hfree := notMem_takeWhile_ne sep (path.dropWhile (· = sep))
  have hrest := dropWhile_eq_nil_or_cons sep (path.dropWhile (· = sep))
  generalize (path.dropWhile (· = sep)).takeWhile (· ≠ sep) = component at *
  generalize (path.dropWhile (· = sep)).dropWhile (· ≠ sep) = rest at *
  generalize path.takeWhile (· = sep) = seps at *
  rw [← hfirst] at hpath
  have htake : path.take (path.length - rest.length + j) = seps ++ (component ++ rest.take j) := by
    have hlen : path.length - rest.length = (seps ++ component).length := by
      rw [← hpath]
      simp only [List.length_append]
      omega
    rw [hlen, ← hpath, ← List.append_assoc, List.take_length_add_append, List.append_assoc]
  rw [htake, resolveAll_seps_append hseps, resolveAll_component_append hfree]
  rcases hrest with rfl | ⟨more, rfl⟩
  · exact .inl List.take_nil
  · cases j with
    | zero => exact .inl rfl
    | succ j => exact .inr ⟨more.take j, rfl⟩

variable (sep dot) in
/-- A component that stands for itself. -/
structure Plain (component : List α) : Prop where
  ne_nil : component ≠ []
  ne_dot : component ≠ [dot]
  ne_dots : component ≠ [dot, dot]
  sep_notMem : sep ∉ component

theorem resolve_of_plain {component : List α} (h : Plain sep dot component) :
    resolve dot stack component = stack ++ [component] := by
  rw [resolve, if_neg (not_or.mpr ⟨h.ne_nil, h.ne_dot⟩), if_neg h.ne_dots]

theorem plain_resolve {component : List α} (hstack : ∀ c ∈ stack, Plain sep dot c)
    (hsep : sep ∉ component) : ∀ c ∈ resolve dot stack component, Plain sep dot c := by
  unfold resolve
  split_ifs with hskip hup
  · exact hstack
  · exact fun c hc => hstack c (List.dropLast_subset stack hc)
  · intro c hc
    rcases List.mem_append.mp hc with hold | hnew
    · exact hstack c hold
    · obtain rfl := List.mem_singleton.mp hnew
      exact ⟨fun h => hskip (.inl h), fun h => hskip (.inr h), hup, hsep⟩

theorem plain_resolveAll (path : List α) (hstack : ∀ c ∈ stack, Plain sep dot c) :
    ∀ c ∈ resolveAll sep dot stack path, Plain sep dot c := by
  induction hn : path.length using Nat.strong_induction_on generalizing path stack with
  | _ n ih =>
      subst hn
      rw [← resolveAll_takeWhile]
      have hstack' := plain_resolve hstack (notMem_takeWhile_ne sep path)
      have hlen := (List.dropWhile_sublist (p := (· ≠ sep)) (l := path)).length_le
      rcases dropWhile_eq_nil_or_cons sep path with hrest | ⟨rest, hrest⟩
      · rw [hrest, resolveAll_nil]
        exact hstack'
      · rw [hrest, List.length_cons] at hlen
        rw [hrest, resolveAll_sep_cons]
        exact ih rest.length (by omega) rest hstack' rfl

/-- Plain components are put behind those that are there. -/
theorem resolveAll_join {components : List (List α)} (h : ∀ c ∈ components, Plain sep dot c) :
    resolveAll sep dot stack (join sep components) = stack ++ components := by
  induction components generalizing stack with
  | nil => simp
  | cons component components ih =>
      have hfirst := h component List.mem_cons_self
      have hrest := fun c hc => h c (List.mem_cons_of_mem component hc)
      cases components with
      | nil => rw [join_singleton, resolveAll_of_notMem hfirst.sep_notMem, resolve_of_plain hfirst]
      | cons next components =>
          rw [join_cons_cons, resolveAll_append_sep, resolveAll_of_notMem hfirst.sep_notMem,
            resolve_of_plain hfirst, ih hrest, List.append_assoc, List.singleton_append]

theorem canonical_join {components : List (List α)} (h : ∀ c ∈ components, Plain sep dot c) :
    canonical sep dot (sep :: join sep components) = sep :: join sep components := by
  rw [canonical, resolveAll_sep_cons, resolveAll_join h, List.nil_append]

theorem exists_plain_canonical (path : List α) :
    ∃ components : List (List α), (∀ c ∈ components, Plain sep dot c) ∧
      canonical sep dot path = sep :: join sep components :=
  ⟨_, plain_resolveAll path (List.forall_mem_nil _), rfl⟩

variable (dot) in
/-- A component is put down, or what is there does not grow. -/
theorem resolve_eq_or_spread_le (stack : List (List α)) (component : List α) :
    resolve dot stack component = stack ++ [component] ∨
      spread (resolve dot stack component) ≤ spread stack := by
  unfold resolve
  split_ifs
  · exact .inr le_rfl
  · exact .inr (spread_dropLast_le stack)
  · exact .inl rfl

variable (dot) in
theorem spread_resolve_le (stack : List (List α)) (component : List α) :
    spread (resolve dot stack component) ≤ spread stack + component.length + 1 := by
  rcases resolve_eq_or_spread_le dot stack component with heq | hle
  · rw [heq, spread_snoc]
  · omega

variable (sep dot) in
theorem spread_resolveAll_le (stack : List (List α)) (path : List α) :
    spread (resolveAll sep dot stack path) ≤ spread stack + path.length + 1 := by
  induction hn : path.length using Nat.strong_induction_on generalizing path stack with
  | _ n ih =>
      subst hn
      have hlen := congrArg List.length (List.takeWhile_append_dropWhile (p := (· ≠ sep)) (l := path))
      have hfirst := spread_resolve_le dot stack (path.takeWhile (· ≠ sep))
      rw [List.length_append] at hlen
      rw [← resolveAll_takeWhile]
      rcases dropWhile_eq_nil_or_cons sep path with hrest | ⟨rest, hrest⟩
      · rw [hrest, List.length_nil] at hlen
        rw [hrest, resolveAll_nil]
        omega
      · rw [hrest, List.length_cons] at hlen
        have hlater := ih rest.length (by omega)
          (resolve dot stack (path.takeWhile (· ≠ sep))) rest rfl
        rw [hrest, resolveAll_sep_cons]
        omega

variable (sep dot) in
/-- The components take all of the path only if none of them is left out. -/
theorem join_of_spread_eq (stack : List (List α)) (path : List α)
    (h : spread (resolveAll sep dot stack path) = spread stack + path.length + 1) :
    ∃ components, components ≠ [] ∧ resolveAll sep dot stack path = stack ++ components ∧
      join sep components = path := by
  induction hn : path.length using Nat.strong_induction_on generalizing path stack with
  | _ n ih =>
      subst hn
      have hpath := List.takeWhile_append_dropWhile (p := (· ≠ sep)) (l := path)
      have hlen := congrArg List.length hpath
      rw [List.length_append] at hlen
      rw [← resolveAll_takeWhile] at h ⊢
      have hkept : resolve dot stack (path.takeWhile (· ≠ sep)) =
          stack ++ [path.takeWhile (· ≠ sep)] := by
        apply (resolve_eq_or_spread_le dot stack _).resolve_right
        intro hle
        have hrest : spread (resolveAll sep dot (resolve dot stack (path.takeWhile (· ≠ sep)))
            (path.dropWhile (· ≠ sep))) ≤ spread stack + path.length := by
          rcases dropWhile_eq_nil_or_cons sep path with hnil | ⟨more, hcons⟩
          · rw [hnil, resolveAll_nil]
            omega
          · rw [hcons, List.length_cons] at hlen
            have hmore := spread_resolveAll_le sep dot
              (resolve dot stack (path.takeWhile (· ≠ sep))) more
            rw [hcons, resolveAll_sep_cons]
            omega
        omega
      have hgrown := spread_snoc stack (path.takeWhile (· ≠ sep))
      rw [hkept] at h ⊢
      generalize path.takeWhile (· ≠ sep) = component at *
      rcases dropWhile_eq_nil_or_cons sep path with hnil | ⟨more, hcons⟩
      · rw [hnil, List.append_nil] at hpath
        rw [hnil, resolveAll_nil]
        exact ⟨[component], nofun, rfl, by rw [join_singleton, hpath]⟩
      · rw [hcons] at hpath hlen
        rw [List.length_cons] at hlen
        rw [hcons, resolveAll_sep_cons] at h ⊢
        obtain ⟨components, hne, hall, hjoin⟩ :=
          ih more.length (by omega) (stack ++ [component]) more (by omega) rfl
        refine ⟨component :: components, nofun, ?_, ?_⟩
        · rw [hall, List.append_assoc, List.singleton_append]
        · obtain ⟨next, rest, rfl⟩ := List.exists_cons_of_ne_nil hne
          rw [join_cons_cons, hjoin, hpath]

/-- The canonical form of an absolute path is not longer than the path. -/
theorem length_canonical_le (rest : List α) :
    (canonical sep dot (sep :: rest)).length ≤ rest.length + 1 := by
  have hle := spread_resolveAll_le sep dot [] rest
  have hempty : spread ([] : List (List α)) = 0 := rfl
  rw [canonical, resolveAll_sep_cons, List.length_cons]
  cases hcomps : resolveAll sep dot [] rest with
  | nil => simp
  | cons component components =>
      have hjoin := length_join_cons sep component components
      rw [hcomps] at hle
      omega

/-- It is shorter unless the path is canonical. -/
theorem canonical_eq_self (h : (canonical sep dot (sep :: rest)).length = rest.length + 1) :
    canonical sep dot (sep :: rest) = sep :: rest := by
  rw [canonical, resolveAll_sep_cons, List.length_cons] at h
  rw [canonical, resolveAll_sep_cons]
  cases hcomps : resolveAll sep dot [] rest with
  | nil =>
      rw [hcomps, join_nil, List.length_nil] at h
      have hrest : rest = [] := List.eq_nil_of_length_eq_zero (by omega)
      rw [join_nil, hrest]
  | cons component components =>
      have hjoin := length_join_cons sep component components
      have hempty : spread ([] : List (List α)) = 0 := rfl
      rw [hcomps] at h
      obtain ⟨components', _, hall, hpath⟩ := join_of_spread_eq sep dot [] rest
        (by rw [hcomps]; omega)
      rw [hcomps, List.nil_append] at hall
      rw [hall, hpath]

end Punix.Lib.PathName
