import CeDrive.DistinctNames
import CeDrive.Reserved
import CeDrive.Settled

/-!
# Listed paths

`ListedAt q n` : the names `q` lead through listings from the root to `n`. In a tidy tree only
directories list entries, each name is listed once, and is one component of a path; there a
path resolves exactly to what it is listed at (`Tidy.resolve_pathBelow`).
-/

open Std (ExtTreeMap)
open Forest

namespace CeDrive

namespace DriveTree

/-- A directory, as `resolve_dir` checks it. -/
def IsDir (t : DriveTree) (n : NodeId) : Prop :=
  n = ROOT ∨ (t.edge n).map Edge.kind = some .dir

/-- The names lead through listings from the root to the node. -/
inductive ListedAt (t : DriveTree) : List String → NodeId → Prop
  | root : ListedAt t [] ROOT
  | child {q : List String} {p : NodeId} {r : String} {c : NodeId} (hq : ListedAt t q p)
      (hl : t.Lists p r c) : ListedAt t (q ++ [r]) c

variable {t : DriveTree} {n c m p : NodeId} {q q' : List String} {r b : String}

theorem listedAt_cases (h : t.ListedAt q n) : (q = [] ∧ n = ROOT) ∨
    ∃ q' p r, q = q' ++ [r] ∧ t.ListedAt q' p ∧ t.Lists p r n := by
  cases h with
  | root => exact Or.inl ⟨rfl, rfl⟩
  | child hq hl => exact Or.inr ⟨_, _, _, rfl, hq, hl⟩

theorem listedAt_nil : t.ListedAt [] n ↔ n = ROOT := by
  constructor
  · intro h
    rcases listedAt_cases h with ⟨-, hn⟩ | ⟨q', p, r, hq, -⟩
    · exact hn
    · simp at hq
  · rintro rfl
    exact .root

theorem listedAt_append_singleton :
    t.ListedAt (q ++ [r]) c ↔ ∃ p, t.ListedAt q p ∧ t.Lists p r c := by
  constructor
  · intro h
    rcases listedAt_cases h with ⟨hq, -⟩ | ⟨q', p, r', hq, hp, hl⟩
    · simp at hq
    · obtain ⟨rfl, hr⟩ := List.append_inj' hq rfl
      obtain rfl : r = r' := by simpa using hr
      exact ⟨p, hp, hl⟩
  · rintro ⟨p, hp, hl⟩
    exact .child hp hl

theorem exists_listedAt_of_append (hq : t.ListedAt (q ++ q') n) : ∃ p, t.ListedAt q p := by
  induction q' using List.reverseRecOn generalizing n with
  | nil => exact ⟨n, by simpa using hq⟩
  | append_singleton q' r ih =>
    rw [← List.append_assoc] at hq
    obtain ⟨m, hm, -⟩ := listedAt_append_singleton.1 hq
    exact ih hm

theorem listedAt_of_resolveFrom (h : t.resolveFrom ROOT q = some n) : t.ListedAt q n := by
  induction q using List.reverseRecOn generalizing n with
  | nil =>
    obtain rfl := Option.some_injective _ h
    exact .root
  | append_singleton q r ih =>
    rw [resolveFrom_append] at h
    obtain ⟨p, hp, h⟩ := Option.bind_eq_some_iff.1 h
    rw [resolveFrom_singleton] at h
    exact .child (ih hp) (lists_of_lookupChild h)

theorem Replayed.edge_of_lists (h : t.Replayed) (hl : t.Lists p r c) :
    ∃ e, t.edges[c]? = some e ∧ e.parent = p ∧ t.Shown p c := by
  obtain ⟨b, hb⟩ := h.called_of_lists hl
  obtain ⟨⟨e, he, hp, -⟩, hs⟩ := h.mirror.called_iff.1 hb
  exact ⟨e, he, hp, hs⟩

theorem Replayed.reaches_of_listedAt (h : t.Replayed) (hq : t.ListedAt q n) :
    Reaches t.parentOf n ROOT := by
  induction hq with
  | root => exact Reaches.refl _
  | child _ hl ih =>
    obtain ⟨e, he, rfl, -⟩ := h.edge_of_lists hl
    exact ih.head (parentOf_of_edge he)

/-- What the listings need for paths to tell nodes apart. -/
structure Tidy (t : DriveTree) : Prop where
  reserved : t.ReservedFree
  leaf : ∀ ⦃q n r m⦄, t.ListedAt q n → t.Lists n r m → t.IsDir n
  component : ∀ ⦃q p r m⦄, t.ListedAt q p → t.Lists p r m → IsComponent r
  clear : ∀ ⦃q p r m m'⦄, t.ListedAt q p → t.Lists p r m → t.Lists p r m' → m = m'

section

variable (ht : t.Replayed) (hfree : t.ReservedFree)
include ht hfree

/-- A listed node lies below no other reserved node than the root. -/
theorem not_reaches_of_listedAt {top : NodeId} (hq : t.ListedAt q n) (htop : Reserved top)
    (hroot : top ≠ ROOT) : ¬Reaches t.parentOf n top := fun hr =>
  hroot (eq_of_reaches_tops hr (ht.reaches_of_listedAt hq) (hfree.parentOf_eq_none htop)
    (hfree.parentOf_eq_none (Or.inl rfl)))

theorem not_trashed_of_listedAt (hq : t.ListedAt q n) : t.isTrashed n = false := by
  rw [← Bool.not_eq_true, isTrashed, ht.grounded.isAncestor_iff]
  exact not_reaches_of_listedAt ht hfree hq (Or.inr (Or.inl rfl)) (by decide)

theorem not_limbo_of_listedAt (hq : t.ListedAt q n) : t.isLimbo n = false := by
  rw [← Bool.not_eq_true, isLimbo, ht.grounded.isAncestor_iff]
  exact not_reaches_of_listedAt ht hfree hq (Or.inr (Or.inr rfl)) (by decide)

theorem ne_trash_of_listedAt (hq : t.ListedAt q n) : n ≠ TRASH := by
  rintro rfl
  have htrash := not_trashed_of_listedAt ht hfree hq
  rw [← Bool.not_eq_true, isTrashed, ht.grounded.isAncestor_iff] at htrash
  exact htrash (Reaches.refl _)

theorem ne_root_of_lists (hl : t.Lists p r c) : c ≠ ROOT := by
  rintro rfl
  obtain ⟨e, he, -⟩ := ht.edge_of_lists hl
  exact hfree.not_reserved he (Or.inl rfl)

/-- A node is listed at one path only. -/
theorem ListedAt.unique (hq : t.ListedAt q n) (hq' : t.ListedAt q' n) : q = q' := by
  induction hq generalizing q' with
  | root =>
    rcases listedAt_cases hq' with ⟨rfl, -⟩ | ⟨q₁, p, r, rfl, -, hl⟩
    · rfl
    · exact absurd rfl (ne_root_of_lists ht hfree hl)
  | child hq hl ih =>
    rcases listedAt_cases hq' with ⟨rfl, rfl⟩ | ⟨q₁, p, r, rfl, hp, hl'⟩
    · exact absurd rfl (ne_root_of_lists ht hfree hl)
    · obtain ⟨rfl, rfl⟩ := ht.lists_unique hl hl'
      rw [ih hp]

end

namespace Tidy

variable (h : t.Tidy)
include h

theorem listedAt_unique (hq : t.ListedAt q n) (hq' : t.ListedAt q m) : n = m := by
  induction hq generalizing m with
  | root => exact (listedAt_nil.1 hq').symm
  | child hq hl ih =>
    obtain ⟨p, hp, hl'⟩ := listedAt_append_singleton.1 hq'
    obtain rfl := ih hp
    exact h.clear hq hl hl'

theorem lookupChild_eq_some (hq : t.ListedAt q p) : t.lookupChild p r = some c ↔ t.Lists p r c :=
  ⟨lists_of_lookupChild, fun hl => lookupChild_of_unique hl fun _ hm => h.clear hq hm hl⟩

/-- A path of names resolves to what it is listed at. -/
theorem resolveFrom_eq_some : t.resolveFrom ROOT q = some n ↔ t.ListedAt q n := by
  refine ⟨listedAt_of_resolveFrom, fun hq => ?_⟩
  induction hq with
  | root => rfl
  | child hq hl ih =>
    rw [resolveFrom_append, ih, Option.bind_some, resolveFrom_singleton]
    exact (h.lookupChild_eq_some hq).2 hl

theorem isComponent (hq : t.ListedAt q n) : ∀ r ∈ q, IsComponent r := by
  induction hq with
  | root => simp
  | child hq hl ih =>
    intro r hr
    rcases List.mem_append.1 hr with hr | hr
    · exact ih r hr
    · exact List.mem_singleton.1 hr ▸ h.component hq hl

theorem resolve_pathBelow (hq : ∀ r ∈ q, IsComponent r) :
    t.resolve (pathBelow "/" q) = some n ↔ t.ListedAt q n := by
  have hroot : components "/" = [] := by decide
  rw [resolve_eq, components_pathBelow hq, hroot, List.nil_append, h.resolveFrom_eq_some]

theorem resolve_of_listedAt (hq : t.ListedAt q n) : t.resolve (pathBelow "/" q) = some n :=
  (h.resolve_pathBelow (h.isComponent hq)).2 hq

/-- What lies above a listed node is a directory. -/
theorem isDir_of_append (hq : t.ListedAt (q ++ q') n) (hne : q' ≠ []) (hp : t.ListedAt q p) :
    t.IsDir p := by
  induction q' using List.reverseRecOn generalizing n with
  | nil => exact absurd rfl hne
  | append_singleton q' r ih =>
    rw [← List.append_assoc] at hq
    obtain ⟨m, hm, hl⟩ := listedAt_append_singleton.1 hq
    rcases eq_or_ne q' [] with rfl | hne'
    · rw [List.append_nil] at hm
      exact h.listedAt_unique hm hp ▸ h.leaf hm hl
    · exact ih hm hne'

end Tidy

/-- The kind of a node with an edge. -/
theorem isDir_iff_of_edge {e : Edge} (he : t.edges[n]? = some e) (hn : n ≠ ROOT) :
    t.IsDir n ↔ t.kindOf n = .dir := by
  simp [IsDir, hn, edge, he, kindOf]

end DriveTree

end CeDrive
