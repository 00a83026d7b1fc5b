import CeDrive.Lookup

/-!
# Paths by bare names

`path` spells the bare names from the root down to a node (`path_eq_some_iff`), `resolve`
follows listed names from the root. A listed name starts with the bare name, so a path that
resolves is at least as long as the bare path of the node it finds, and of the same length
only if every node on the way is listed under its bare name
(`Replayed.slashed_le_of_resolve`).
-/

open Forest

namespace CeDrive

section Split

variable {α : Type*} {p : α → Bool} {l : List α}

/-- A list with a separator is the pieces before it and the pieces after. -/
theorem splitOnP_cases (p : α → Bool) (l : List α) :
    (∀ c ∈ l, p c = false) ∧ l.splitOnP p = [l] ∨
      ∃ a c b, l = a ++ c :: b ∧ p c ∧ l.splitOnP p = a.splitOnP p ++ b.splitOnP p := by
  by_cases h : ∃ c ∈ l, p c
  · obtain ⟨c, hc, hp⟩ := h
    obtain ⟨a, b, rfl⟩ := List.append_of_mem hc
    exact Or.inr ⟨a, c, b, rfl, hp, List.splitOnP_append_cons a b hp⟩
  · have hfree : ∀ c ∈ l, p c = false := by simpa using h
    exact Or.inl ⟨hfree, List.splitOnP_eq_singleton hfree⟩

/-- A piece is a run without separators. -/
theorem mem_splitOnP {t : List α} (h : t ∈ l.splitOnP p) : t <:+: l ∧ ∀ c ∈ t, p c = false := by
  induction hn : l.length using Nat.strong_induction_on generalizing l with
  | _ n ih =>
    obtain ⟨hfree, heq⟩ | ⟨a, c, b, rfl, -, heq⟩ := splitOnP_cases p l
    · obtain rfl := List.mem_singleton.1 (heq ▸ h)
      exact ⟨List.infix_rfl, hfree⟩
    · rw [heq, List.mem_append] at h
      rw [List.length_append, List.length_cons] at hn
      rcases h with h | h
      · obtain ⟨hpart, hfree⟩ := ih a.length (by omega) h rfl
        exact ⟨hpart.trans (List.prefix_append ..).isInfix, hfree⟩
      · obtain ⟨hpart, hfree⟩ := ih b.length (by omega) h rfl
        exact ⟨hpart.trans ((List.suffix_cons ..).trans (List.suffix_append ..)).isInfix, hfree⟩

theorem not_mem_of_mem_splitOn [BEq α] [LawfulBEq α] {a : α} {x : List α}
    (h : x ∈ l.splitOn a) : a ∉ x := by
  intro ha
  have hfree := (mem_splitOnP h).2 a ha
  simp at hfree

/-- A text without a separator lengthens the last piece of a split. -/
theorem exists_splitOn_append (l : List Char) :
    ∃ init piece, ∀ t, '/' ∉ t → (l ++ t).splitOn '/' = init ++ [piece ++ t] := by
  induction hn : l.length using Nat.strong_induction_on generalizing l with
  | _ n ih =>
    by_cases hl : '/' ∈ l
    · obtain ⟨a, b, rfl⟩ := List.append_of_mem hl
      rw [List.length_append, List.length_cons] at hn
      obtain ⟨init, piece, heq⟩ := ih b.length (by omega) b rfl
      refine ⟨a.splitOn '/' ++ init, piece, fun t ht => ?_⟩
      rw [List.append_assoc, List.cons_append, List.splitOn_append_cons_self, heq t ht,
        List.append_assoc]
    · refine ⟨[], l, fun t ht => List.splitOnP_eq_singleton fun c hc => ?_⟩
      have hne : c ≠ '/' := by
        rintro rfl
        exact (List.mem_append.1 hc).elim hl ht
      simpa using hne

end Split

namespace DriveTree

variable {t t' : DriveTree} {n q : NodeId} {b path : String} {names names' comps : List String}

/-! ## Components of a path -/

/-- The components `resolve` follows. -/
def components (path : String) : List String :=
  if trimSlashes path = "" then [] else splitSlash (trimSlashes path)

theorem resolve_eq (t : DriveTree) (path : String) :
    t.resolve path = t.resolveFrom ROOT (components path) := by
  unfold resolve components
  split_ifs <;> rfl

/-- A name that is a single component of a path. -/
def IsComponent (name : String) : Prop :=
  name ≠ "" ∧ '/' ∉ name.toList

/-- The names, each after a slash. -/
def slashed (names : List String) : List Char :=
  names.flatMap fun b => '/' :: b.toList

@[simp] theorem slashed_nil : slashed [] = [] := rfl

@[simp] theorem slashed_append (names names' : List String) :
    slashed (names ++ names') = slashed names ++ slashed names' :=
  List.flatMap_append

@[simp] theorem slashed_singleton (b : String) : slashed [b] = '/' :: b.toList := by
  simp [slashed]

/-- The absolute path of a sequence of names. -/
def pathString (names : List String) : String :=
  "/" ++ "/".intercalate names

theorem slash_cons_intercalate {ls : List (List Char)} (h : ls ≠ []) :
    '/' :: ['/'].intercalate ls = ls.flatMap fun l => '/' :: l := by
  induction ls with
  | nil => exact absurd rfl h
  | cons l ls ih =>
    cases ls with
    | nil => simp
    | cons l' ls => rw [List.intercalate_cons_cons, List.flatMap_cons, ← ih (by simp)]; simp

theorem toList_pathString (h : names ≠ []) : (pathString names).toList = slashed names := by
  rw [pathString, String.toList_append, String.toList_intercalate]
  have hcons := @slash_cons_intercalate (names.map String.toList) (by simpa using h)
  simpa [slashed, List.flatMap_map] using hcons

/-- `l` without the slashes around it. -/
def stripped (l : List Char) : List Char :=
  (l.dropWhile (· = '/')).rdropWhile (· = '/')

/-- The components between the slashes of `l`. -/
def partsOf (l : List Char) : List String :=
  if stripped l = [] then [] else ((stripped l).splitOn '/').map String.ofList

theorem components_eq (path : String) : components path = partsOf path.toList := by
  have hempty : trimSlashes path = "" ↔ stripped path.toList = [] := by
    rw [trimSlashes, String.ofList_eq]
    rfl
  rw [components, partsOf, splitSlash, trimSlashes, String.toList_ofList]
  exact if_congr hempty rfl rfl

theorem components_pathString (names : List String) :
    components (pathString names) = partsOf (slashed names) := by
  by_cases h : names = []
  · subst h
    decide
  · rw [← toList_pathString h, components_eq]

/-- The slashes may be taken off the right end first. -/
theorem stripped_eq (l : List Char) :
    stripped l = (l.rdropWhile (· = '/')).dropWhile (· = '/') := by
  induction l using List.reverseRecOn with
  | nil => rfl
  | append_singleton l c ih =>
    rw [stripped] at ih
    by_cases hc : c = '/'
    · rw [stripped, List.dropWhile_append, List.rdropWhile_concat_pos _ _ _ (by simpa using hc), ← ih]
      split_ifs with hl
      · rw [List.isEmpty_iff.1 hl]
        simp [hc]
      · rw [List.rdropWhile_concat_pos _ _ _ (by simpa using hc)]
    · have hlast : ∀ u : List Char, (u ++ [c]).rdropWhile (· = '/') = u ++ [c] := fun u =>
        List.rdropWhile_concat_neg _ u c (by simpa using hc)
      rw [stripped, List.dropWhile_append, hlast, List.dropWhile_append]
      split_ifs with hl
      · simp [hc, List.rdropWhile_singleton]
      · exact hlast _

@[simp] theorem stripped_slash_cons (l : List Char) : stripped ('/' :: l) = stripped l := by
  simp [stripped]

@[simp] theorem stripped_append_slash (l : List Char) : stripped (l ++ ['/']) = stripped l := by
  rw [stripped_eq, stripped_eq, List.rdropWhile_concat_pos _ _ _ (by simp)]

theorem stripped_rdropWhile (l : List Char) : stripped (l.rdropWhile (· = '/')) = stripped l := by
  rw [stripped_eq, stripped_eq, List.rdropWhile_idempotent]

theorem stripped_stripped (l : List Char) : stripped (stripped l) = stripped l := by
  rw [stripped_eq (stripped l), stripped, List.rdropWhile_idempotent, ← stripped, stripped_eq,
    List.dropWhile_idempotent]

/-- A component after a path that does not end in a slash. -/
theorem stripped_append_slash_cons {w b : List Char} (hw : w.rdropWhile (· = '/') = w)
    (hb : b ≠ []) (hslash : '/' ∉ b) : stripped (w ++ '/' :: b) =
      if stripped w = [] then b else stripped w ++ '/' :: b := by
  have hlast : ∀ u, (u ++ b).rdropWhile (· = '/') = u ++ b := by
    intro u
    refine List.rdropWhile_eq_self_iff.2 fun hne => ?_
    rw [List.getLast_append_of_ne_nil _ hb, decide_eq_true_eq]
    intro heq
    exact hslash (heq ▸ List.getLast_mem hb)
  have hfirst : b.dropWhile (· = '/') = b := by
    cases b with
    | nil => rfl
    | cons c b =>
      have hc : c ≠ '/' := by
        rintro rfl
        exact hslash List.mem_cons_self
      simp [hc]
  have happend : w ++ '/' :: b = (w ++ ['/']) ++ b := by simp
  rw [stripped_eq, stripped_eq, hw, happend, hlast, ← happend, List.dropWhile_append]
  simp [List.isEmpty_iff, hfirst]

theorem partsOf_append_slash_cons {w b : List Char} (hw : w.rdropWhile (· = '/') = w)
    (hb : b ≠ []) (hslash : '/' ∉ b) : partsOf (w ++ '/' :: b) = partsOf w ++ [String.ofList b] := by
  rw [partsOf, partsOf, stripped_append_slash_cons hw hb hslash]
  by_cases hempty : stripped w = []
  · simp [hempty, hb, List.splitOn_eq_singleton hslash]
  · simp [hempty, List.splitOn_append_cons_self, List.splitOn_eq_singleton hslash]

/-- The components spell the path again, without the slashes around it. -/
theorem slashed_partsOf (l : List Char) : slashed (partsOf l) =
    if stripped l = [] then [] else '/' :: stripped l := by
  rw [partsOf]
  split_ifs with hempty
  · rfl
  · have h := slash_cons_intercalate (List.splitOn_ne_nil '/' (stripped l))
    rw [List.intercalate_splitOn] at h
    rw [h, slashed, List.flatMap_map]
    simp

theorem slash_cons_dropWhile_suffix (l : List Char) :
    '/' :: l.dropWhile (· = '/') <:+ '/' :: l := by
  induction l with
  | nil => exact List.suffix_rfl
  | cons c l ih =>
    by_cases hc : c = '/'
    · subst hc
      simpa using ih.trans (List.suffix_cons '/' ('/' :: l))
    · simp [hc]

theorem isInfix_slashed_components (names : List String) :
    slashed (components (pathString names)) <:+: slashed names := by
  rw [components_pathString, slashed_partsOf]
  split_ifs with hempty
  · exact List.nil_infix
  · obtain ⟨l, hl⟩ : ∃ l, slashed names = '/' :: l := by
      cases names with
      | nil => exact absurd rfl hempty
      | cons b names => exact ⟨_, rfl⟩
    rw [hl, stripped_slash_cons]
    have hpre : stripped l <+: l.dropWhile (· = '/') := List.rdropWhile_prefix _ _
    exact (List.cons_prefix_cons.2 ⟨rfl, hpre⟩).isInfix.trans (slash_cons_dropWhile_suffix l).isInfix

/-- The components of a path, and one more name. -/
theorem components_pathString_append (path : String) (hb : IsComponent b) :
    components (pathString (components path ++ [b])) = components path ++ [b] := by
  have hb' : b.toList ≠ [] := fun h => hb.1 (String.toList_eq_nil_iff.1 h)
  have hw : (slashed (components path)).rdropWhile (· = '/') = slashed (components path) := by
    rw [components_eq, slashed_partsOf]
    split_ifs with hempty
    · rfl
    · refine List.rdropWhile_eq_self_iff.2 fun hne => ?_
      rw [List.getLast_cons hempty]
      exact List.rdropWhile_last_not _ _ hempty
  have hself : partsOf (slashed (components path)) = components path := by
    rw [components_eq, slashed_partsOf]
    split_ifs with hempty
    · have hnil : partsOf path.toList = [] := if_pos hempty
      rw [hnil]
      rfl
    · rw [partsOf, stripped_slash_cons, stripped_stripped, partsOf]
  rw [components_pathString, slashed_append, slashed_singleton,
    partsOf_append_slash_cons hw hb' hb.2, hself, String.ofList_toList]

/-- Names survive being joined to a path. -/
theorem components_pathString_of_isComponent (h : ∀ b ∈ names, IsComponent b) :
    components (pathString names) = names := by
  induction names using List.reverseRecOn with
  | nil => decide
  | append_singleton names b ih =>
    have hnames := ih fun b' hb' => h b' (List.mem_append_left _ hb')
    have happend := components_pathString_append (pathString names) (h b (by simp))
    rwa [hnames] at happend

theorem pathString_injective (h : ∀ b ∈ names, IsComponent b) (h' : ∀ b ∈ names', IsComponent b)
    (heq : pathString names = pathString names') : names = names' := by
  rw [← components_pathString_of_isComponent h, heq, components_pathString_of_isComponent h']

/-- A number of slashes. -/
def slashes (k : ℕ) : String :=
  String.ofList (List.replicate k '/')

theorem stripped_slashes (i j : ℕ) (l : List Char) :
    stripped (List.replicate i '/' ++ l ++ List.replicate j '/') = stripped l := by
  have hright : stripped (l ++ List.replicate j '/') = stripped l := by
    induction j with
    | zero => simp
    | succ j ih => rw [List.replicate_succ', ← List.append_assoc, stripped_append_slash, ih]
  induction i with
  | zero => simpa using hright
  | succ i ih => rw [List.replicate_succ, List.cons_append, List.cons_append, stripped_slash_cons, ih]

/-- Slashes around a path are of no account. -/
theorem components_slashes (i j : ℕ) (names : List String) :
    components (slashes i ++ "/".intercalate names ++ slashes j) = components (pathString names) := by
  have hparts : ∀ {l l' : List Char}, stripped l = stripped l' → partsOf l = partsOf l' :=
    fun h => by rw [partsOf, partsOf, h]
  rw [components_eq, components_eq]
  refine hparts ?_
  rw [pathString, String.toList_append, String.toList_append, String.toList_append, slashes, slashes,
    String.toList_ofList, String.toList_ofList, stripped_slashes]
  exact (stripped_slash_cons _).symm

theorem slash_not_mem_components {r : String} (h : r ∈ components path) : '/' ∉ r.toList := by
  rw [components_eq, partsOf] at h
  split_ifs at h with hempty
  · cases h
  · obtain ⟨x, hx, rfl⟩ := List.mem_map.1 h
    rw [String.toList_ofList]
    exact not_mem_of_mem_splitOn hx

/-- An empty last name is lost. -/
theorem components_pathString_append_empty (names : List String) :
    components (pathString (names ++ [""])) = components (pathString names) := by
  rw [components_pathString, components_pathString, partsOf, partsOf]
  simp

/-! ## Bare paths -/

/-- `names` are the bare names from the root down to a node. -/
inductive PathTo (t : DriveTree) : List String → NodeId → Prop
  | root : t.PathTo [] ROOT
  | child {names : List String} {n : NodeId} {e : Edge} (h : t.PathTo names e.parent)
      (he : t.edges[n]? = some e) : t.PathTo (names ++ [e.name]) n

theorem PathTo.climb (h : t.PathTo names n) : climb t.parentOf names.length n = some ROOT := by
  induction h with
  | root => rfl
  | @child names n e _ he ih =>
    rw [List.length_append, List.length_singleton, climb_succ_of_parent (parentOf_of_edge he)]
    exact ih

theorem PathTo.reaches (h : t.PathTo names n) : Reaches t.parentOf n ROOT :=
  reaches_of_climb h.climb

theorem PathTo.unique (hg : t.Grounded) (h : t.PathTo names n) (h' : t.PathTo names' n) :
    names = names' := by
  induction h generalizing names' with
  | root =>
    cases h' with
    | root => rfl
    | child h he => exact absurd h.reaches (hg.not_reaches_of_up (parentOf_of_edge he))
  | child h he ih =>
    cases h' with
    | root => exact absurd h.reaches (hg.not_reaches_of_up (parentOf_of_edge he))
    | child h' he' =>
      obtain rfl := Option.some_injective _ (he.symm.trans he')
      rw [ih h']

/-- A bare path depends on the edges of the nodes on it. -/
theorem PathTo.of_edges (h : t.PathTo names n)
    (hedges : ∀ m, Reaches t.parentOf n m → t'.edges[m]? = t.edges[m]?) : t'.PathTo names n := by
  induction h with
  | root => exact .root
  | @child names n e _ he ih =>
    exact .child (ih fun m hm => hedges m (hm.head (parentOf_of_edge he)))
      ((hedges n (Reaches.refl n)).trans he)

theorem pathTo_of_pathWalk {k : ℕ} {parts : List String} {u : String}
    (h : pathWalk t.edges k n parts = some u) :
    ∃ names, t.PathTo names n ∧ u = pathString (names ++ parts.reverse) := by
  induction k generalizing n parts with
  | zero => cases h
  | succ k ih =>
    rw [pathWalk] at h
    cases he : t.edges[n]? with
    | none => simp [he] at h
    | some e =>
      simp only [he] at h
      split_ifs at h with hroot
      · refine ⟨[] ++ [e.name], .child (hroot ▸ .root) he, ?_⟩
        rw [← Option.some_injective _ h, pathString]
        simp
      · obtain ⟨names, hp, rfl⟩ := ih h
        exact ⟨names ++ [e.name], .child hp he, by simp⟩

/-- The walk of `path` ends within as many steps as there are names. -/
theorem PathTo.pathWalk (hg : t.Grounded) (h : t.PathTo names n) (hn : n ≠ ROOT) {k : ℕ}
    (hk : names.length ≤ k) (parts : List String) :
    pathWalk t.edges k n parts = some (pathString (names ++ parts.reverse)) := by
  induction h generalizing k parts with
  | root => exact absurd rfl hn
  | @child names n e h he ih =>
    rw [List.length_append, List.length_singleton] at hk
    obtain ⟨k, rfl⟩ : ∃ j, k = j + 1 := ⟨k - 1, by omega⟩
    rw [DriveTree.pathWalk]
    simp only [he]
    split_ifs with hroot
    · obtain rfl := (hroot ▸ h).unique hg .root
      simp [pathString]
    · rw [ih hroot (by omega)]
      simp

/-- `path` spells the bare path. -/
theorem Grounded.path_eq_some_iff (hg : t.Grounded) {u : String} :
    t.path n = some u ↔ ∃ names, t.PathTo names n ∧ u = pathString names := by
  unfold path
  split_ifs with hn
  · subst hn
    constructor
    · intro h
      exact ⟨[], .root, (Option.some_injective _ h).symm⟩
    · rintro ⟨names, h, rfl⟩
      rw [h.unique hg .root]
      rfl
  · constructor
    · intro h
      obtain ⟨names, hp, rfl⟩ := pathTo_of_pathWalk h
      exact ⟨names, hp, by simp⟩
    · rintro ⟨names, h, rfl⟩
      have hlen : names.length ≤ t.edges.size :=
        (le_card_of_climb hg mem_keys_of_parentOf h.climb).trans t.card_keys_le
      simpa using h.pathWalk hg hn (Nat.le_succ_of_le hlen) []

/-! ## Listed paths against bare paths -/

/-- The nodes on a path that resolves are listed under names that start with their bare
names. -/
theorem Replayed.pathTo_of_resolveFrom (h : t.Replayed) {cur : NodeId} (hcur : t.PathTo names cur)
    (hr : t.resolveFrom cur comps = some n) : ∃ names', t.PathTo (names ++ names') n ∧
      List.Forall₂ (fun b r : String => b.toList <+: r.toList) names' comps := by
  induction comps generalizing cur names with
  | nil =>
    obtain rfl := Option.some_injective _ hr
    exact ⟨[], by simpa using hcur, .nil⟩
  | cons r rest ih =>
    rw [resolveFrom] at hr
    cases hl : t.lookupChild cur r with
    | none => simp [hl] at hr
    | some next =>
      have hlists := lists_of_lookupChild hl
      obtain ⟨b, hb⟩ := h.called_of_lists hlists
      obtain ⟨⟨e, he, rfl, rfl⟩, -⟩ := h.mirror.called_iff.1 hb
      obtain ⟨names', hp, hpre⟩ := ih (hcur.child he) (by simpa [hl] using hr)
      exact ⟨e.name :: names', by simpa using hp, .cons (h.prefix_of_lists hlists hb) hpre⟩

theorem slashed_le_of_prefixes
    (h : List.Forall₂ (fun b r : String => b.toList <+: r.toList) names comps) :
    (slashed names).length ≤ (slashed comps).length ∧
      ((slashed names).length = (slashed comps).length → names = comps) := by
  induction h with
  | nil => exact ⟨le_rfl, fun _ => rfl⟩
  | @cons b r names comps hbr _ ih =>
    have hcons : ∀ (b : String) (names : List String),
        (slashed (b :: names)).length = 1 + b.toList.length + (slashed names).length := by
      intro b names
      simp only [slashed, List.flatMap_cons, List.length_append, List.length_cons]
      omega
    have hlen := hbr.length_le
    rw [hcons, hcons]
    refine ⟨by omega, fun heq => ?_⟩
    rw [String.toList_inj.1 (hbr.eq_of_length (by omega)), ih.2 (by omega)]

/-- A path that resolves is at least as long as the bare path of the node it finds. If it is
of that length, its components are the bare names. -/
theorem Replayed.slashed_le_of_resolve (h : t.Replayed)
    (hr : t.resolve (pathString names) = some n) (hp : t.PathTo names' n) :
    (slashed names').length ≤ (slashed names).length ∧
      ((slashed names').length = (slashed names).length → components (pathString names) = names') := by
  rw [resolve_eq] at hr
  obtain ⟨names'', hp', hpre⟩ := h.pathTo_of_resolveFrom .root hr
  obtain rfl := hp.unique h.grounded (by simpa using hp')
  obtain ⟨hle, heq⟩ := slashed_le_of_prefixes hpre
  have hinfix := (isInfix_slashed_components names).length_le
  exact ⟨hle.trans hinfix, fun hlen => (heq (by omega)).symm⟩

/-- A node found by its own bare path is reached by bare names. -/
theorem Replayed.components_of_resolve (h : t.Replayed) (hp : t.PathTo names n)
    (hr : t.resolve (pathString names) = some n) : components (pathString names) = names :=
  (h.slashed_le_of_resolve hr hp).2 rfl

theorem resolveFrom_singleton (t : DriveTree) (p : NodeId) (r : String) :
    t.resolveFrom p [r] = t.lookupChild p r := by
  rw [resolveFrom]
  cases t.lookupChild p r <;> rfl

theorem Replayed.exists_of_resolveFrom_append (ht : t.Replayed) {r : String}
    (h : t.resolveFrom ROOT (comps ++ [r]) = some n) :
    ∃ q, t.resolveFrom ROOT comps = some q ∧ t.Lists q r n ∧ t.parentOf n = some q ∧ n ≠ ROOT := by
  rw [resolveFrom_append] at h
  obtain ⟨q, hq, h⟩ := Option.bind_eq_some_iff.1 h
  rw [resolveFrom_singleton] at h
  obtain ⟨e, he, rfl, -⟩ := ht.mirror.edge_of_lookupChild h
  have hup := parentOf_of_edge he
  refine ⟨e.parent, hq, lists_of_lookupChild h, hup, ?_⟩
  rintro rfl
  exact ht.grounded.not_reaches_of_up hup (ht.mirror.reaches_of_resolveFrom hq)

/-- No path leads to the trash. -/
theorem Replayed.ne_trash_of_resolve (ht : t.Replayed) (h : t.resolve path = some n) : n ≠ TRASH := by
  rw [resolve_eq] at h
  rcases List.eq_nil_or_concat' (components path) with hnil | ⟨l, r, hcomps⟩
  · rw [hnil] at h
    exact Option.some_injective _ h ▸ by decide
  · rw [hcomps] at h
    obtain ⟨q, -, hlists, -⟩ := ht.exists_of_resolveFrom_append h
    obtain ⟨b, hb⟩ := ht.called_of_lists hlists
    exact ne_trash_of_called ht hb

/-- A component more is one more lookup. -/
theorem resolve_append (t : DriveTree) (hnames : components path = names) (hb : IsComponent b) :
    t.resolve (pathString (names ++ [b])) =
      (t.resolveFrom ROOT names).bind fun p => t.lookupChild p b := by
  subst hnames
  simp only [resolve_eq, components_pathString_append path hb, resolveFrom_append,
    resolveFrom_singleton]

end DriveTree

end CeDrive
