import CeDrive.CompactTree
import Mathlib.Data.List.Pairwise

/-!
# The listings after compaction

Compaction keeps a set of nodes and stamps them anew, in breadth-first order, under the
replica of this drive. A listing depends on the nodes and, where several share a name, on
their stamps : the one moved last has the name, and the others show their stamps in their
conflict names.

`ListsAsEmitted` says that all this is as compaction will leave it : directories below the
root list kept nodes only, colliding nodes are ranked and stamped in the order of compaction
already, and no path leads through a file. It is the exact condition under which compaction
preserves the listings and what paths resolve to (`compact_preserves_listings_iff`).
-/

open Std (ExtTreeMap ExtTreeSet)
open SortedLog Forest

namespace CeDrive

open DriveTree

namespace Drive

variable {d : Drive} {n c p : NodeId} {e : Edge} {name : String} {ids : List NodeId}

/-! ## The order of stamps -/

theorem Inv.pairwise_restamp (h : d.Inv) :
    d.visits.Pairwise fun v w => d.restamp v.1 < d.restamp w.1 := by
  rw [List.pairwise_iff_forall_sublist]
  intro v w hvw
  obtain ⟨l, l', heq, hv, hw⟩ := List.cons_sublist_iff.1 hvw
  obtain ⟨pre, mid, rfl⟩ := List.append_of_mem hv
  obtain ⟨mid', post, rfl⟩ := List.append_of_mem (List.singleton_sublist.1 hw)
  have heq' : d.visits = pre ++ v :: ((mid ++ mid') ++ w :: post) := by simp [heq]
  exact h.restamp_lt heq'

/-- In a directory that compaction visits, colliding nodes are stamped in the order of their
ids. -/
theorem Inv.restamp_lt_of_lt (h : d.Inv) (hp : p ∈ d.dirOrder) {a b : NodeId}
    (ha : a ∈ groupOf (d.liveKids p) name) (hb : b ∈ groupOf (d.liveKids p) name) (hab : a < b) :
    d.restamp a < d.restamp b := by
  have hsub : (d.visitsOf p).Sublist d.visits :=
    List.sublist_flatten_of_mem (List.mem_map_of_mem hp)
  have hkids := h.pairwise_restamp.sublist hsub
  rw [visitsOf, List.pairwise_map] at hkids
  have hgroup : (groupOf (d.liveKids p) name).Pairwise fun x y => d.restamp x < d.restamp y :=
    List.pairwise_map.2 (hkids.sublist List.filter_sublist)
  have hboth := (pairwise_groupOf (d.ascending_liveKids p) name).and hgroup
  let R : NodeId → NodeId → Prop := fun x y =>
    (x < y → d.restamp x < d.restamp y) ∧ (y < x → d.restamp y < d.restamp x)
  have : Std.Symm R := ⟨fun x y hxy => ⟨hxy.2, hxy.1⟩⟩
  have hR : (groupOf (d.liveKids p) name).Pairwise R :=
    hboth.imp fun hxy => ⟨fun _ => hxy.2, fun hlt => absurd hlt hxy.1.not_gt⟩
  exact (hR.forall ha hb hab.ne).1 hab

/-! ## Shown children -/

theorem Inv.mem_shownChildren_compact (h : d.Inv) : (name, c) ∈ d.compact.tree.shownChildren p ↔
    (name, c) ∈ d.tree.rawChildren p ∧ d.tree.Kept c := by
  have hraw : (name, c) ∈ d.compact.tree.rawChildren p ↔
      (name, c) ∈ d.tree.rawChildren p ∧ d.tree.Kept c := by
    rw [(inv_compact d).replayed.mirror.mem_rawChildren, h.replayed.mirror.mem_rawChildren]
    simp only [h.getElem?_edges_compact]
    constructor
    · rintro ⟨e, ⟨he, hk⟩, hp⟩
      exact ⟨⟨e, he, hp⟩, hk⟩
    · rintro ⟨⟨e, he, hp⟩, hk⟩
      exact ⟨e, ⟨he, hk⟩, hp⟩
  rw [mem_shownChildren, hraw, and_iff_left_iff_imp]
  rintro ⟨-, hk⟩
  refine Or.inr ?_
  by_contra htr
  rw [Bool.not_eq_false] at htr
  have hreach := h.restricts_compact.reaches
    ((inv_compact d).replayed.grounded.isAncestor_iff.1 htr)
  have htrash := hk.trashed
  rw [isTrashed, h.replayed.grounded.isAncestor_iff.2 hreach] at htrash
  cases htrash

/-- A directory all of whose shown children are kept shows the same children after
compaction, and these are the ones compaction emits. -/
theorem Inv.shownChildren_compact (h : d.Inv)
    (hkept : ∀ name c, (name, c) ∈ d.tree.shownChildren p → d.tree.Kept c) :
    d.compact.tree.shownChildren p = d.tree.shownChildren p ∧
      d.tree.shownChildren p = d.liveKids p := by
  refine ⟨(ascending_shownChildren _ p).ext (ascending_shownChildren _ p) ?_,
    (ascending_shownChildren _ p).ext (d.ascending_liveKids p) ?_⟩
  · rintro ⟨name, c⟩
    rw [h.mem_shownChildren_compact]
    refine ⟨fun hc => ?_, fun hc => ⟨(mem_shownChildren.1 hc).1, hkept name c hc⟩⟩
    exact mem_shownChildren.2 ⟨hc.1, Or.inr hc.2.trashed⟩
  · rintro ⟨name, c⟩
    rw [mem_liveKids]
    constructor
    · intro hc
      have hk := hkept name c hc
      exact ⟨(mem_shownChildren.1 hc).1, hk.trashed, hk.limbo⟩
    · exact fun hc => mem_shownChildren.2 ⟨hc.1, Or.inr hc.2.1⟩

/-- The parent of a kept node is visited. -/
theorem Inv.mem_dirOrder_of_kept (h : d.Inv) (hc : (name, c) ∈ d.tree.rawChildren p)
    (hk : d.tree.Kept c) : p ∈ d.dirOrder := by
  obtain ⟨e, he, rfl, -⟩ := h.replayed.mirror.mem_rawChildren.1 hc
  rw [mem_dirOrder h.replayed.mirror h.replayed.grounded]
  exact ((h.replayed.grounded.kept_iff_of_edge he hk.ne_root).1 hk).2.2

/-! ## Collisions -/

/-- Nodes that share a name, ranked and stamped as compaction will leave them : the one with
the greatest id was moved last, and each other was moved by a replica shown as this one, at
the tick of its place in the order of compaction. -/
def EmittedOrder (d : Drive) (ids : List NodeId) : Prop :=
  ∀ c ∈ ids,
    ((∀ b ∈ ids, b ≤ c) → ∀ b ∈ ids, d.tree.definingTs b ≤ d.tree.definingTs c) ∧
    ((∃ b ∈ ids, c < b) → short (d.tree.definingTs c).replica = short d.state.replica ∧
      (d.tree.definingTs c).lamport = d.restamp c)

section Group

variable (h : d.Inv) (hkept : ∀ c ∈ ids, d.tree.Kept c)
  (hrestamp : ∀ a ∈ ids, ∀ b ∈ ids, a < b → d.restamp a < d.restamp b)
include h hkept hrestamp

theorem definingTs_compact_le {a b : NodeId} (ha : a ∈ ids) (hb : b ∈ ids) :
    d.compact.tree.definingTs b ≤ d.compact.tree.definingTs a ↔ b ≤ a := by
  rw [h.definingTs_compact (hkept a ha), h.definingTs_compact (hkept b hb)]
  rcases lt_trichotomy a b with hab | rfl | hab
  · exact iff_of_false (not_le_of_gt (Timestamp.lt_of_lamport_lt (hrestamp a ha b hb hab)))
      (not_le_of_gt hab)
  · exact iff_of_true le_rfl le_rfl
  · exact iff_of_true (Timestamp.lt_of_lamport_lt (hrestamp b hb a ha hab)).le hab.le

omit hrestamp in
theorem definingTs_injective_of_kept {a b : NodeId} (ha : a ∈ ids) (hb : b ∈ ids)
    (hts : d.tree.definingTs a = d.tree.definingTs b) : a = b := by
  obtain ⟨e, he⟩ := (hkept a ha).exists_edge
  obtain ⟨e', he'⟩ := (hkept b hb).exists_edge
  exact h.replayed.definingTs_injective he he' hts

/-- In the order of compaction, the live tree ranks a group as the compacted one does. -/
theorem EmittedOrder.definingTs_le (hord : d.EmittedOrder ids) {a b : NodeId} (ha : a ∈ ids)
    (hb : b ∈ ids) : d.tree.definingTs b ≤ d.tree.definingTs a ↔ b ≤ a := by
  have hlt : ∀ x ∈ ids, ∀ y ∈ ids, x < y → d.tree.definingTs x < d.tree.definingTs y := by
    intro x hx y hy hxy
    have hx' := (hord x hx).2 ⟨y, hy, hxy⟩
    by_cases hmax : ∀ z ∈ ids, z ≤ y
    · refine lt_of_le_of_ne ((hord y hy).1 hmax x hx) fun hts => hxy.ne ?_
      exact definingTs_injective_of_kept h hkept hx hy hts
    · obtain ⟨z, hz, hyz⟩ : ∃ z ∈ ids, y < z := by simpa using hmax
      have hy' := (hord y hy).2 ⟨z, hz, hyz⟩
      refine Timestamp.lt_of_lamport_lt ?_
      rw [hx'.2, hy'.2]
      exact hrestamp x hx y hy hxy
  rcases lt_trichotomy a b with hab | rfl | hab
  · exact iff_of_false (not_le_of_gt (hlt a ha b hb hab)) (not_le_of_gt hab)
  · exact iff_of_true le_rfl le_rfl
  · exact iff_of_true (hlt b hb a ha hab).le hab.le

/-- A group in the order of compaction is rendered alike. -/
theorem EmittedOrder.renderGroup (hord : d.EmittedOrder ids) (hnodup : ids.Nodup) (name : String) :
    d.compact.tree.renderGroup name ids = d.tree.renderGroup name ids := by
  refine renderGroup_congr hnodup (fun c hc => h.kindOf_compact (hkept c hc)) (fun a ha b hb => ?_)
    fun c hc b hb hne hle => ?_
  · rw [definingTs_compact_le h hkept hrestamp ha hb, hord.definingTs_le h hkept hrestamp ha hb]
  · have hcb := (definingTs_compact_le h hkept hrestamp hb hc).1 hle
    obtain ⟨hshort, hlamport⟩ := (hord c hc).2 ⟨b, hb, lt_of_le_of_ne hcb hne.symm⟩
    rw [h.definingTs_compact (hkept c hc), conflictName, conflictName, hshort, hlamport]

/-- A group whose members are rendered alike is in the order of compaction. -/
theorem emittedOrder_of_rendered (hnodup : ids.Nodup)
    (hrender : ∀ c ∈ ids, ∃ r k k', (r, c, k) ∈ d.tree.renderGroup name ids ∧
      (r, c, k') ∈ d.compact.tree.renderGroup name ids) : d.EmittedOrder ids := by
  by_cases hids : ∃ c, ids = [c]
  · obtain ⟨c, rfl⟩ := hids
    intro b hb
    obtain rfl := List.mem_singleton.1 hb
    refine ⟨fun _ x hx => by rw [List.mem_singleton.1 hx], ?_⟩
    rintro ⟨x, hx, hlt⟩
    rw [List.mem_singleton.1 hx] at hlt
    exact absurd hlt (lt_irrefl b)
  have hids' : ∀ c, ids ≠ [c] := fun c h => hids ⟨c, h⟩
  have hle := fun {a b : NodeId} => definingTs_compact_le h hkept hrestamp (a := a) (b := b)
  intro c hc
  obtain ⟨r, k, k', hlive, hcomp⟩ := hrender c hc
  have hlive := mem_renderGroup hids' hnodup
    (fun a ha b hb => definingTs_injective_of_kept h hkept ha hb) hlive
  have hcomp := mem_renderGroup hids' hnodup
    (fun a ha b hb hts => le_antisymm ((hle hb ha).1 hts.le) ((hle ha hb).1 hts.ge)) hcomp
  have hwin : ∀ b ∈ ids, ¬d.tree.definingTs b ≤ d.tree.definingTs c →
      r = conflictName name (d.tree.definingTs c) := fun b hb hlt =>
    hlive.2 b hb (lt_of_not_ge hlt)
  constructor
  · intro hmax
    have hr := hcomp.1 fun b hb => (hle hc hb).2 (hmax b hb)
    intro b hb
    by_contra hlt
    exact conflictName_ne name _ ((hwin b hb hlt).symm.trans hr)
  · rintro ⟨b, hb, hcb⟩
    have hlt : d.compact.tree.definingTs c < d.compact.tree.definingTs b :=
      lt_of_not_ge (mt (hle hc hb).1 (not_le_of_gt hcb))
    have hr := hcomp.2 b hb hlt
    rw [h.definingTs_compact (hkept c hc)] at hr
    have hlose : ∃ b ∈ ids, ¬d.tree.definingTs b ≤ d.tree.definingTs c := by
      by_contra hmax
      have hmax' : ∀ b ∈ ids, d.tree.definingTs b ≤ d.tree.definingTs c := by
        simpa using hmax
      exact conflictName_ne name _ (hr.symm.trans (hlive.1 hmax'))
    obtain ⟨b', hb', hlt'⟩ := hlose
    have hsame := DriveTree.conflictName_injective ((hwin b' hb' hlt').symm.trans hr)
    exact hsame

end Group

/-! ## Paths -/

/-- A directory below the root, or the root. -/
def DirUnderRoot (d : Drive) (p : NodeId) : Prop :=
  p = ROOT ∨ Reaches d.tree.parentOf p ROOT ∧ d.tree.kindOf p = .dir

/-- If the listings of the directories are kept, so is a path that leads through
directories. Induction on the path, for a node below the root : under a file the compacted
tree has no nodes. -/
theorem Inv.resolveFrom_compact (h : d.Inv)
    (hlist : ∀ p, d.DirUnderRoot p → d.compact.tree.readdir p = d.tree.readdir p) {cur : NodeId}
    {comps : List String} (hcur : Reaches d.tree.parentOf cur ROOT)
    (hpaths : ∀ n, d.tree.resolveFrom cur comps = some n → d.tree.DirsAbove n) :
    d.compact.tree.resolveFrom cur comps = d.tree.resolveFrom cur comps := by
  have hm := h.replayed.mirror
  have hg := h.replayed.grounded
  induction comps generalizing cur with
  | nil => rfl
  | cons comp rest ih =>
    rw [resolveFrom] at hpaths
    rw [resolveFrom, resolveFrom]
    by_cases hdir : d.DirUnderRoot cur
    · have hlookup : d.compact.tree.lookupChild cur comp = d.tree.lookupChild cur comp := by
        rw [lookupChild, lookupChild, hlist cur hdir]
      rw [hlookup]
      cases hc : d.tree.lookupChild cur comp with
      | none => rfl
      | some next =>
        obtain ⟨e, he, rfl, -⟩ := hm.edge_of_lookupChild hc
        exact ih (hcur.head (parentOf_of_edge he)) (by simpa [hc] using hpaths)
    · obtain ⟨hroot, hkind⟩ := not_or.1 hdir
      have hnone : d.compact.tree.lookupChild cur comp = none := by
        by_contra hne
        obtain ⟨c, hc⟩ := Option.ne_none_iff_exists'.1 hne
        obtain ⟨e, he, rfl, -⟩ := (inv_compact d).replayed.mirror.edge_of_lookupChild hc
        obtain ⟨he, hk⟩ := h.getElem?_edges_compact.1 he
        rcases ((hg.kept_iff_of_edge he hk.ne_root).1 hk).2.2 with hp | hp
        · exact hroot hp
        · exact hkind ⟨hcur, hp.2⟩
      rw [hnone]
      cases hc : d.tree.lookupChild cur comp with
      | none => rfl
      | some next =>
        obtain ⟨e, he, rfl, -⟩ := hm.edge_of_lookupChild hc
        cases hn : d.tree.resolveFrom next rest with
        | none => exact hn.symm
        | some n =>
          have hnext := hm.reaches_of_resolveFrom hn
          have hup : Up d.tree.parentOf next e.parent := parentOf_of_edge he
          refine absurd ⟨hcur, hpaths n (by simpa [hc] using hn) e.parent (hnext.tail hup) hcur ?_
            hroot⟩ hkind
          rintro rfl
          exact Acyclic.not_reaches_of_up hg hup hnext

/-! ## The condition -/

/-- The listings of directories below the root, and what paths resolve to, are as before. -/
def PreservesListings (d d' : Drive) : Prop :=
  (∀ p, d.DirUnderRoot p → d'.tree.readdir p = d.tree.readdir p) ∧
    ∀ path, d'.tree.resolve path = d.tree.resolve path

/-- Directories list kept nodes only, colliding nodes are in the order of compaction, and
paths lead through directories. -/
structure ListsAsEmitted (d : Drive) : Prop where
  kept : ∀ p, d.DirUnderRoot p → ∀ name c, (name, c) ∈ d.tree.shownChildren p → d.tree.Kept c
  ranked : ∀ p, d.DirUnderRoot p → ∀ name, d.EmittedOrder (groupOf (d.tree.shownChildren p) name)
  paths : ∀ path n, d.tree.resolve path = some n → d.tree.DirsAbove n

/-- The groups of a directory that shows kept nodes only. -/
theorem Inv.group_kept (h : d.Inv)
    (hkept : ∀ name c, (name, c) ∈ d.tree.shownChildren p → d.tree.Kept c) (name : String) :
    (∀ c ∈ groupOf (d.tree.shownChildren p) name, d.tree.Kept c) ∧
      ∀ a ∈ groupOf (d.tree.shownChildren p) name, ∀ b ∈ groupOf (d.tree.shownChildren p) name,
        a < b → d.restamp a < d.restamp b := by
  refine ⟨fun c hc => hkept name c (mem_groupOf.1 hc), fun a ha b hb hab => ?_⟩
  have hp := h.mem_dirOrder_of_kept (mem_shownChildren.1 (mem_groupOf.1 ha)).1
    (hkept name a (mem_groupOf.1 ha))
  rw [(h.shownChildren_compact hkept).2] at ha hb
  exact h.restamp_lt_of_lt hp ha hb hab

theorem nodup_group (d : Drive) (p : NodeId) (name : String) :
    (groupOf (d.tree.shownChildren p) name).Nodup :=
  (pairwise_groupOf (ascending_shownChildren d.tree p) name).imp fun hab => hab.ne

theorem Inv.listsAsEmitted (h : d.Inv) (hp : PreservesListings d d.compact) : d.ListsAsEmitted := by
  have hkept : ∀ p, d.DirUnderRoot p → ∀ name c, (name, c) ∈ d.tree.shownChildren p →
      d.tree.Kept c := by
    intro p hdir name c hc
    obtain ⟨r, hr, -⟩ := exists_mem_readdir hc
    rw [← hp.1 p hdir] at hr
    obtain ⟨name', hc', -⟩ := shown_of_mem_readdir hr
    exact (h.mem_shownChildren_compact.1 hc').2
  refine ⟨hkept, fun p hdir name => ?_, fun path n hn => ?_⟩
  · obtain ⟨hgroup, hrestamp⟩ := h.group_kept (hkept p hdir) name
    refine emittedOrder_of_rendered h hgroup hrestamp (d.nodup_group p name) fun c hc =>
      (?_ : ∃ r k k', (r, c, k) ∈ d.tree.renderGroup name _ ∧ _)
    obtain ⟨r, hr, hlive⟩ := exists_mem_readdir (mem_groupOf.1 hc)
    rw [← hp.1 p hdir] at hr
    obtain ⟨name', hc', -, hcomp⟩ := shown_of_mem_readdir hr
    obtain ⟨rfl, -⟩ := h.replayed.mirror.name_unique (h.mem_shownChildren_compact.1 hc').1
      (mem_shownChildren.1 (mem_groupOf.1 hc)).1
    rw [(h.shownChildren_compact (hkept p hdir)).1] at hcomp
    exact ⟨r, _, _, hlive, hcomp⟩
  · rw [← hp.2] at hn
    rcases (inv_compact d).replayed.mirror.edge_of_resolve hn with rfl | ⟨e, he⟩
    · intro x hx hxr hne _
      exact absurd (Acyclic.antisymm h.replayed.grounded hx hxr).symm hne
    · exact (h.getElem?_edges_compact.1 he).2.dirs

theorem ListsAsEmitted.preserves (hl : d.ListsAsEmitted) (h : d.Inv) :
    PreservesListings d d.compact := by
  have hlist : ∀ p, d.DirUnderRoot p → d.compact.tree.readdir p = d.tree.readdir p := by
    intro p hdir
    have hkept := hl.kept p hdir
    rw [DriveTree.readdir, DriveTree.readdir, (h.shownChildren_compact hkept).1]
    refine congrArg _ (List.flatMap_congr fun g hg => ?_)
    obtain ⟨hids, -⟩ := mem_byName.1 (hg : (g.1, g.2) ∈ _)
    obtain ⟨hgroup, hrestamp⟩ := h.group_kept hkept g.1
    rw [hids]
    exact (hl.ranked p hdir g.1).renderGroup h hgroup hrestamp (d.nodup_group p g.1) g.1
  refine ⟨hlist, fun path => ?_⟩
  have hpath := hl.paths path
  unfold DriveTree.resolve at hpath ⊢
  split_ifs at hpath ⊢
  · rfl
  · exact h.resolveFrom_compact hlist (Reaches.refl ROOT) hpath

/-- Compaction preserves the listings of all directories below the root, and what every path
resolves to, exactly when they are as it will leave them. -/
theorem compact_preserves_listings_iff (h : d.Reachable) :
    PreservesListings d d.compact ↔ d.ListsAsEmitted :=
  ⟨h.inv.listsAsEmitted, fun hl => hl.preserves h.inv⟩

/-- Two directories, the older renamed to the name of the younger. -/
def collidingRun : List Event :=
  [.exec 0 (.mkdir "/" "a"), .exec 1 (.mkdir "/" "b"), .exec 2 (.mv "/a" "/" "b")]

/-- After compaction the name stands for the other directory. -/
theorem compact_swaps_names :
    let d := ((init "d" "a").performAll collidingRun).get (by decide +kernel)
    d.Reachable ∧ ¬PreservesListings d d.compact := by
  intro d
  refine ⟨⟨"d", "a", collidingRun, (Option.some_get _).symm⟩, fun h => ?_⟩
  have hpath := h.2 "/b"
  revert hpath
  decide +kernel

/-- Two directories with different names. -/
theorem compact_preserves_listings_iff_distinct :
    let d := ((init "d" "a").performAll (collidingRun.take 2)).get (by decide +kernel)
    PreservesListings d d.compact ↔ d.ListsAsEmitted := by
  intro d
  exact compact_preserves_listings_iff ⟨"d", "a", collidingRun.take 2, (Option.some_get _).symm⟩

end Drive

end CeDrive
