import CeDrive.ListedPaths

/-!
# The walk of the listings

`drive_file_paths` goes through the listings by paths : it asks for the entries of a directory by
its path, and goes on to the directories among them. `Walked q n` : the names `q` lead there. In a
legible tree every entry met on the way is told by its name. Its path resolves to it
(`Legible.resolve_of_walked`), and the file paths met are those of the files walked to
(`Legible.listedFile_iff`).
-/

open Forest

namespace CeDrive

namespace DriveTree

/-- The names lead from the root to the node, through directories. -/
inductive Walked (t : DriveTree) : List String → NodeId → Prop
  | root : Walked t [] ROOT
  | child {q : List String} {p : NodeId} {r : String} {c : NodeId} (hq : Walked t q p)
      (hdir : t.IsDir p) (hl : t.Lists p r c) : Walked t (q ++ [r]) c

/-- In the directories the walk gets to, each entry has a name that no other has, and that is one
component of a path. -/
structure Legible (t : DriveTree) : Prop where
  component : ∀ ⦃q p r m⦄, t.Walked q p → t.IsDir p → t.Lists p r m → IsComponent r
  clear : ∀ ⦃q p r m m'⦄, t.Walked q p → t.IsDir p → t.Lists p r m → t.Lists p r m' → m = m'

variable {t : DriveTree} {n c m p : NodeId} {q q' : List String} {r b : String}

theorem walked_cases (h : t.Walked q n) : (q = [] ∧ n = ROOT) ∨
    ∃ q' p r, q = q' ++ [r] ∧ t.Walked q' p ∧ t.IsDir p ∧ t.Lists p r n := by
  cases h with
  | root => exact Or.inl ⟨rfl, rfl⟩
  | child hq hdir hl => exact Or.inr ⟨_, _, _, rfl, hq, hdir, hl⟩

theorem walked_nil : t.Walked [] n ↔ n = ROOT := by
  constructor
  · intro h
    rcases walked_cases h with ⟨-, hn⟩ | ⟨q', p, r, hq, -⟩
    · exact hn
    · simp at hq
  · rintro rfl
    exact .root

theorem walked_append_singleton :
    t.Walked (q ++ [r]) c ↔ ∃ p, t.Walked q p ∧ t.IsDir p ∧ t.Lists p r c := by
  constructor
  · intro h
    rcases walked_cases h with ⟨hq, -⟩ | ⟨q', p, r', hq, hp, hdir, hl⟩
    · simp at hq
    · obtain ⟨rfl, hr⟩ := List.append_inj' hq rfl
      obtain rfl : r = r' := by simpa using hr
      exact ⟨p, hp, hdir, hl⟩
  · rintro ⟨p, hp, hdir, hl⟩
    exact .child hp hdir hl

theorem exists_walked_of_append (hq : t.Walked (q ++ q') n) (hne : q' ≠ []) :
    ∃ p, t.Walked q p ∧ t.IsDir p := by
  induction q' using List.reverseRecOn generalizing n with
  | nil => exact absurd rfl hne
  | append_singleton q' r ih =>
    rw [← List.append_assoc] at hq
    obtain ⟨m, hm, hdir, -⟩ := walked_append_singleton.1 hq
    rcases eq_or_ne q' [] with rfl | hne'
    · exact ⟨m, by simpa using hm, hdir⟩
    · exact ih hm hne'

theorem Walked.listedAt (h : t.Walked q n) : t.ListedAt q n := by
  induction h with
  | root => exact .root
  | child _ _ hl ih => exact .child ih hl

theorem not_isDir_of_file (h : ¬t.IsDir n) : n ≠ ROOT := fun heq => h (Or.inl heq)

section

variable (ht : t.Replayed)
include ht

/-- The root is not an entry of what lies below it. -/
theorem ne_root_of_walked (hq : t.Walked q p) (hl : t.Lists p r c) : c ≠ ROOT := by
  rintro rfl
  obtain ⟨e, he, rfl, -⟩ := ht.edge_of_lists hl
  exact ht.grounded.not_reaches_of_up (parentOf_of_edge he) (ht.reaches_of_listedAt hq.listedAt)

theorem ne_trash_of_walked (hq : t.Walked q n) : n ≠ TRASH := by
  rcases walked_cases hq with ⟨-, rfl⟩ | ⟨q', p, r, -, -, -, hl⟩
  · decide
  · obtain ⟨b, hb⟩ := ht.called_of_lists hl
    exact ne_trash_of_called ht hb

theorem not_trashed_of_walked (hlive : t.isTrashed ROOT = false) (hq : t.Walked q n) :
    t.isTrashed n = false := by
  rcases walked_cases hq with ⟨-, rfl⟩ | ⟨q', p, r, -, hp, -, hl⟩
  · exact hlive
  · obtain ⟨e, -, -, hs⟩ := ht.edge_of_lists hl
    exact hs.resolve_left (ne_trash_of_walked ht hp)

/-- A node is walked to by one path only. -/
theorem Walked.unique (hq : t.Walked q n) (hq' : t.Walked q' n) : q = q' := by
  induction hq generalizing q' with
  | root =>
    rcases walked_cases hq' with ⟨rfl, -⟩ | ⟨q₁, p, r, rfl, hp, -, hl⟩
    · rfl
    · exact absurd rfl (ne_root_of_walked ht hp hl)
  | child hq _ hl ih =>
    rcases walked_cases hq' with ⟨rfl, rfl⟩ | ⟨q₁, p, r, rfl, hp, -, hl'⟩
    · exact absurd rfl (ne_root_of_walked ht hq hl)
    · obtain ⟨rfl, rfl⟩ := ht.lists_unique hl hl'
      rw [ih hp]

/-- Nothing that is walked to lies below a file that is. -/
theorem not_reaches_of_walked (hc : t.Walked q' c) (hfile : ¬t.IsDir c) (hn : t.Walked q n)
    (hne : n ≠ c) : ¬Reaches t.parentOf n c := by
  induction hn with
  | root =>
    intro hr
    exact hne (ht.grounded.antisymm hr (ht.reaches_of_listedAt hc.listedAt))
  | @child q p r n hp hdir hl ih =>
    obtain ⟨e, he, rfl, -⟩ := ht.edge_of_lists hl
    rw [reaches_iff_of_parent (parentOf_of_edge he)]
    refine not_or.2 ⟨Ne.symm hne, ih ?_⟩
    rintro rfl
    exact hfile hdir

end

namespace Legible

variable (h : t.Legible)
include h

theorem walked_unique (hq : t.Walked q n) (hq' : t.Walked q m) : n = m := by
  induction hq generalizing m with
  | root => exact (walked_nil.1 hq').symm
  | child hq hdir hl ih =>
    obtain ⟨p, hp, -, hl'⟩ := walked_append_singleton.1 hq'
    obtain rfl := ih hp
    exact h.clear hq hdir hl hl'

theorem lookupChild_eq_some (hq : t.Walked q p) (hdir : t.IsDir p) :
    t.lookupChild p r = some c ↔ t.Lists p r c :=
  ⟨lists_of_lookupChild, fun hl => lookupChild_of_unique hl fun _ hm => h.clear hq hdir hm hl⟩

theorem resolveFrom_of_walked (hq : t.Walked q n) : t.resolveFrom ROOT q = some n := by
  induction hq with
  | root => rfl
  | child hq hdir hl ih =>
    rw [resolveFrom_append, ih, Option.bind_some, resolveFrom_singleton]
    exact (h.lookupChild_eq_some hq hdir).2 hl

theorem isComponent (hq : t.Walked q n) : ∀ r ∈ q, IsComponent r := by
  induction hq with
  | root => simp
  | child hq hdir hl ih =>
    intro r hr
    rcases List.mem_append.1 hr with hr | hr
    · exact ih r hr
    · exact List.mem_singleton.1 hr ▸ h.component hq hdir hl

theorem resolve_of_walked (hq : t.Walked q n) : t.resolve (pathBelow "/" q) = some n := by
  have hroot : components "/" = [] := by decide
  rw [resolve_eq, components_pathBelow (h.isComponent hq), hroot, List.nil_append,
    h.resolveFrom_of_walked hq]

/-- What a path resolves to below a directory that is walked to. -/
theorem resolve_child (hq : t.Walked q p) (hdir : t.IsDir p) (hr : IsComponent r) :
    t.resolve (pathBelow "/" (q ++ [r])) = some n ↔ t.Lists p r n := by
  have hroot : components "/" = [] := by decide
  have hcomps : ∀ b ∈ q ++ [r], IsComponent b := by
    intro b hb
    rcases List.mem_append.1 hb with hb | hb
    · exact h.isComponent hq b hb
    · exact List.mem_singleton.1 hb ▸ hr
  rw [resolve_eq, components_pathBelow hcomps, hroot, List.nil_append, resolveFrom_append,
    h.resolveFrom_of_walked hq, Option.bind_some, resolveFrom_singleton]
  exact h.lookupChild_eq_some hq hdir

/-- What lies above a node that is walked to is a directory. -/
theorem isDir_of_append (hq : t.Walked (q ++ q') n) (hne : q' ≠ []) (hp : t.Walked q p) :
    t.IsDir p := by
  obtain ⟨m, hm, hdir⟩ := exists_walked_of_append hq hne
  exact h.walked_unique hm hp ▸ hdir

end Legible

namespace Tidy

variable (h : t.Tidy)
include h

/-- In a tidy tree all listed paths are walked. -/
theorem walked_iff : t.Walked q n ↔ t.ListedAt q n := by
  refine ⟨Walked.listedAt, fun hq => ?_⟩
  induction hq with
  | root => exact .root
  | child hq hl ih => exact .child ih (h.leaf hq hl) hl

theorem legible : t.Legible :=
  ⟨fun _ _ _ _ hq _ hl => h.component hq.listedAt hl,
    fun _ _ _ _ _ hq _ hl hl' => h.clear hq.listedAt hl hl'⟩

end Tidy

end DriveTree

/-! ## The walk of the file paths -/

/-- A file path met on a walk of the listings from `path`. -/
inductive Drive.ListedFile (d : Drive) : String → String → Prop
  | here {path : String} {entries : List DirEntry} {e : DirEntry} (hls : d.ls path = .ok entries)
      (he : e ∈ entries) (hfile : e.isDir = false) : ListedFile d path (joinPath path e.name)
  | deeper {path p : String} {entries : List DirEntry} {e : DirEntry}
      (hls : d.ls path = .ok entries) (he : e ∈ entries) (hdir : e.isDir = true)
      (h : ListedFile d (joinPath path e.name) p) : ListedFile d path p

namespace Drive

variable {d : Drive} {k : ℕ} {path p : String} {paths : List String} {n : NodeId} {q : List String}

theorem listedFile_iff_of_ls {entries : List DirEntry} (hls : d.ls path = .ok entries) :
    d.ListedFile path p ↔ ∃ e ∈ entries, (e.isDir = false ∧ p = joinPath path e.name) ∨
      (e.isDir = true ∧ d.ListedFile (joinPath path e.name) p) := by
  constructor
  · intro h
    cases h with
    | here hls' he hfile =>
      obtain rfl := Except.ok.inj (hls.symm.trans hls')
      exact ⟨_, he, Or.inl ⟨hfile, rfl⟩⟩
    | deeper hls' he hdir h =>
      obtain rfl := Except.ok.inj (hls.symm.trans hls')
      exact ⟨_, he, Or.inr ⟨hdir, h⟩⟩
  · rintro ⟨e, he, ⟨hfile, rfl⟩ | ⟨hdir, h⟩⟩
    · exact .here hls he hfile
    · exact .deeper hls he hdir h

theorem mem_collect_iff {α β : Type*} {f : α → Option (List β)} {P : α → Prop} {l : List α}
    {bs : List β} {b : β} (hf : ∀ a ∈ l, ∀ b', f a = some b' → (b ∈ b' ↔ P a))
    (h : collect f l = some bs) : b ∈ bs ↔ ∃ a ∈ l, P a := by
  induction l generalizing bs with
  | nil =>
    obtain rfl := Option.some_injective _ h
    simp
  | cons a l ih =>
    obtain ⟨b₁, b₂, h₁, h₂, rfl⟩ := collect_cons_eq_some.1 h
    rw [List.mem_append, hf a List.mem_cons_self b₁ h₁,
      ih (fun a ha => hf a (List.mem_cons_of_mem _ ha)) h₂, List.exists_mem_cons_iff]

/-- A walk that ends within its bound meets the listed files. -/
theorem mem_driveFilePaths (h : d.driveFilePaths k path = some paths) :
    p ∈ paths ↔ d.ListedFile path p := by
  induction k generalizing path paths with
  | zero => cases h
  | succ k ih =>
    rw [driveFilePaths] at h
    split at h
    · rename_i e hls
      obtain rfl := Option.some_injective _ h
      refine iff_of_false (by simp) fun hp => ?_
      cases hp with
      | here hls' => rw [hls'] at hls; cases hls
      | deeper hls' => rw [hls'] at hls; cases hls
    · rename_i entries hls
      rw [listedFile_iff_of_ls hls]
      refine mem_collect_iff (fun e _ b hb => ?_) h
      unfold entryFilePaths at hb
      dsimp only at hb
      split_ifs at hb with hdir
      · rw [ih hb]
        simp [hdir]
      · obtain rfl := Option.some_injective _ hb
        simp [hdir]

end Drive

namespace DriveTree.Legible

variable {d : Drive} {p : String} {n : NodeId} {q : List String} (h : d.tree.Legible)
include h

/-- The listing of a directory that is walked to. -/
theorem ls_of_walked (hq : d.tree.Walked q n) (hdir : d.tree.IsDir n) :
    d.ls (pathBelow "/" q) = .ok ((d.tree.readdir n).map fun entry =>
      ⟨entry.1, entry.2.2 = .dir, d.content[entry.2.1]?, entry.2.1⟩) := by
  have hres : d.resolveDir (pathBelow "/" q) = .ok n := by
    have hcheck : ¬(n ≠ ROOT ∧ (d.tree.edge n).map Edge.kind ≠ some .dir) := fun hne =>
      hdir.elim hne.1 hne.2
    rw [Drive.resolveDir, h.resolve_of_walked hq]
    exact if_neg hcheck
  rw [Drive.ls, hres]

/-- An entry of such a listing. -/
theorem mem_ls_of_walked (ht : d.tree.Replayed) {entries : List DirEntry} {e : DirEntry}
    (hq : d.tree.Walked q n) (hdir : d.tree.IsDir n) (hls : d.ls (pathBelow "/" q) = .ok entries)
    (he : e ∈ entries) : d.tree.Walked (q ++ [e.name]) e.nodeId ∧
      (e.isDir = true ↔ d.tree.IsDir e.nodeId) := by
  rw [h.ls_of_walked hq hdir] at hls
  obtain rfl := Except.ok.inj hls
  obtain ⟨⟨r, c, kind⟩, hmem, rfl⟩ := List.mem_map.1 he
  obtain ⟨-, -, rfl, -⟩ := DriveTree.shown_of_mem_readdir hmem
  have hl : d.tree.Lists n r c := ⟨_, hmem⟩
  obtain ⟨e, hedge, -⟩ := ht.edge_of_lists hl
  refine ⟨.child hq hdir hl, ?_⟩
  rw [DriveTree.isDir_iff_of_edge hedge (DriveTree.ne_root_of_walked ht hq hl)]
  exact decide_eq_true_iff

/-- In a legible tree the walk meets the files it gets to. -/
theorem listedFile_iff (ht : d.tree.Replayed) {q₀ : List String} (hq : d.tree.Walked q₀ n)
    (hdir : d.tree.IsDir n) : d.ListedFile (pathBelow "/" q₀) p ↔ ∃ q m, q ≠ [] ∧
      d.tree.Walked (q₀ ++ q) m ∧ ¬d.tree.IsDir m ∧ p = pathBelow "/" (q₀ ++ q) := by
  constructor
  · generalize hpath : pathBelow "/" q₀ = path
    intro hfile
    induction hfile generalizing q₀ n with
    | @here path entries e hls he hfile =>
      subst hpath
      obtain ⟨hc, hkind⟩ := h.mem_ls_of_walked ht hq hdir hls he
      refine ⟨[e.name], e.nodeId, by simp, hc, fun hd => ?_, by simp⟩
      rw [hkind.2 hd] at hfile
      cases hfile
    | @deeper path p entries e hls he hd _ ih =>
      subst hpath
      obtain ⟨hc, hkind⟩ := h.mem_ls_of_walked ht hq hdir hls he
      obtain ⟨q, m, -, hm, hfile, rfl⟩ := ih hc (hkind.1 hd) (by simp)
      exact ⟨e.name :: q, m, by simp, by simpa using hm, hfile, by simp⟩
  · rintro ⟨q, m, hne, hm, hfile, rfl⟩
    induction q generalizing q₀ n with
    | nil => exact absurd rfl hne
    | cons r q ih =>
      rw [List.append_cons] at hm ⊢
      obtain ⟨c, hc⟩ : ∃ c, d.tree.Walked (q₀ ++ [r]) c := by
        rcases eq_or_ne q [] with rfl | hq'
        · exact ⟨m, by simpa using hm⟩
        · exact (DriveTree.exists_walked_of_append hm hq').imp fun _ => And.left
      obtain ⟨n', hn', -, hl⟩ := DriveTree.walked_append_singleton.1 hc
      obtain rfl := h.walked_unique hn' hq
      obtain ⟨kind, hmem⟩ := hl
      have hls := h.ls_of_walked hq hdir
      have he := List.mem_map_of_mem (f := fun entry : DriveTree.Listed => (⟨entry.1,
        entry.2.2 = .dir, d.content[entry.2.1]?, entry.2.1⟩ : DirEntry)) hmem
      obtain ⟨-, hkind⟩ := h.mem_ls_of_walked ht hq hdir hls he
      rcases eq_or_ne q [] with rfl | hq'
      · obtain rfl := h.walked_unique hc (by simpa using hm)
        have hnot := mt hkind.1 hfile
        simpa using Drive.ListedFile.here hls he (by simpa using hnot)
      · have hsub := ih hc (h.isDir_of_append hm hq' hc) hq' hm
        rw [pathBelow_append "/" q₀ [r]] at hsub
        exact .deeper hls he (hkind.2 (h.isDir_of_append hm hq' hc)) hsub

/-- The file paths of a drive. -/
theorem listedFile_root_iff (ht : d.tree.Replayed) :
    d.ListedFile "/" p ↔ ∃ x n, d.tree.Walked x n ∧ ¬d.tree.IsDir n ∧ p = pathBelow "/" x := by
  have hroot := h.listedFile_iff (p := p) ht .root (Or.inl rfl)
  rw [pathBelow_nil] at hroot
  rw [hroot]
  constructor
  · rintro ⟨x, n, -, hn, hfile, rfl⟩
    exact ⟨x, n, hn, hfile, rfl⟩
  · rintro ⟨x, n, hn, hfile, rfl⟩
    refine ⟨x, n, ?_, hn, hfile, rfl⟩
    rintro rfl
    exact hfile (Or.inl (DriveTree.walked_nil.1 hn))

end DriveTree.Legible

end CeDrive
