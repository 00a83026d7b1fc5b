import CeDrive.LocalMove
import CeDrive.Reserved

/-!
# Live, trashed, or purged

The runs of one writer, who restores only nodes that have an edge. In all of them the root,
the trash and limbo have no edge and every other parent has one (`Drive.Grown`), so the
parents of a node lead to exactly one of the three. `path`, `is_live`, `is_trashed` and
`is_limbo` walk the same parents, each with its own rule to stop, and agree on which it is
(`node_place`).
-/

open Relation Forest

namespace CeDrive

namespace DriveTree

variable {t t' : DriveTree} {n c p r : NodeId} {name : String} {k : NodeKind} {e : Edge}

/-- The parents of `n` lead up to `r`, which has none. -/
def EndsAt (t : DriveTree) (n r : NodeId) : Prop :=
  Reaches t.parentOf n r ∧ t.parentOf r = none

/-- A node that may be a parent : a reserved one, or one with an edge. -/
def Held (t : DriveTree) (n : NodeId) : Prop :=
  Reserved n ∨ ∃ e, t.edges[n]? = some e

/-- Every parent is reserved or has an edge. -/
def Rooted (t : DriveTree) : Prop :=
  ∀ ⦃n : NodeId⦄ ⦃e : Edge⦄, t.edges[n]? = some e → t.Held e.parent

theorem rooted_new : new.Rooted := fun n e he => by
  simp [new] at he

/-- A move to a node that may be a parent. -/
theorem Rooted.moved (h : t.Rooted) (hm : Moved t t' c p name k) (hp : t.Held p) : t'.Rooted := by
  have hheld : ∀ m, t.Held m → t'.Held m := by
    intro m hheld
    refine hheld.imp_right fun ⟨e, he⟩ => ?_
    by_cases hmc : m = c
    · subst hmc
      by_cases hr : Reaches t.parentOf p m
      · exact ⟨e, by rw [hm.skipped hr, he]⟩
      · exact ⟨_, hm.edge_self hr⟩
    · exact ⟨e, (hm.edge_of_ne hmc).trans he⟩
  intro n e he
  by_cases hr : Reaches t.parentOf p c
  · rw [hm.skipped hr] at he
    exact hheld _ (h he)
  · by_cases hn : n = c
    · subst hn
      obtain rfl := Option.some_injective _ ((hm.edge_self hr).symm.trans he)
      exact hheld _ hp
    · rw [hm.edge_of_ne hn] at he
      exact hheld _ (h he)

/-- The way up from a node ends at exactly one reserved node. -/
theorem Rooted.existsUnique_endsAt (hrooted : t.Rooted) (hg : t.Grounded)
    (he : t.edges[n]? = some e) : ∃! r, t.EndsAt n r ∧ Reserved r := by
  obtain ⟨r, hr, htop⟩ := exists_top hg mem_keys_of_parentOf n
  have hreserved : Reserved r := by
    rcases ReflTransGen.cases_tail hr with rfl | ⟨m, -, hm⟩
    · rw [DriveTree.parentOf, he] at htop
      cases htop
    · obtain ⟨e', he', rfl⟩ := parentOf_eq_some.1 hm
      rcases hrooted he' with hreserved | ⟨e'', hedge⟩
      · exact hreserved
      · rw [DriveTree.parentOf, hedge] at htop
        cases htop
  refine ⟨r, ⟨⟨hr, htop⟩, hreserved⟩, ?_⟩
  rintro r' ⟨⟨hr', htop'⟩, -⟩
  exact eq_of_reaches_tops hr' hr htop' htop

theorem EndsAt.reaches_iff (hr : t.EndsAt n r) (hfree : t.ReservedFree) {s : NodeId}
    (hs : Reserved s) : Reaches t.parentOf n s ↔ s = r := by
  constructor
  · exact fun h => eq_of_reaches_tops h hr.1 (hfree.parentOf_eq_none hs) hr.2
  · rintro rfl
    exact hr.1

/-- Bare names lead to a node exactly if its parents lead to the root. -/
theorem exists_pathTo_iff : (∃ names, t.PathTo names n) ↔ Reaches t.parentOf n ROOT := by
  constructor
  · rintro ⟨names, h⟩
    exact h.reaches
  · intro h
    induction h using ReflTransGen.head_induction_on with
    | refl => exact ⟨[], .root⟩
    | head hup _ ih =>
      obtain ⟨e, he, rfl⟩ := parentOf_eq_some.1 hup
      obtain ⟨names, hp⟩ := ih
      exact ⟨_, hp.child he⟩

theorem Grounded.isSome_path_iff (hg : t.Grounded) :
    (t.path n).isSome = true ↔ Reaches t.parentOf n ROOT := by
  rw [Option.isSome_iff_exists, ← exists_pathTo_iff]
  constructor
  · rintro ⟨u, hu⟩
    obtain ⟨names, hp, -⟩ := hg.path_eq_some_iff.1 hu
    exact ⟨names, hp⟩
  · rintro ⟨names, hp⟩
    exact ⟨_, hg.path_eq_some_iff.2 ⟨names, hp, rfl⟩⟩

end DriveTree

namespace Drive

variable {d d' : Drive} {ctr ctr' : ℕ} {n : NodeId} {e : Edge}

/-! ## Where operations move nodes -/

/-- One append of a local operation : a move to the trash, to limbo or to a directory found by
a path, or a write. -/
inductive Appends : Drive → Drive → Prop
  | move (d : Drive) (child newParent : NodeId) (newName : String) (kind : NodeKind)
      (h : newParent = TRASH ∨ newParent = LIMBO ∨ ∃ path, d.resolveDir path = .ok newParent) :
      Appends d (d.moved child newParent newName kind)
  | write (d : Drive) (op : ContentOp) : Appends d (d.wrote op)

theorem appends_hardDelete {ids : List NodeId} (hd : d.hardDelete ids = some d') :
    ReflTransGen Appends d d' := by
  induction ids generalizing d with
  | nil => exact Option.some_injective _ hd ▸ .refl
  | cons id ids ih =>
    obtain ⟨d₁, h₁, hd⟩ := Runs.cons_eq_some.1 hd
    have hmove : Appends d (d.moved id LIMBO id (d.tree.kindOf id)) :=
      .move d id LIMBO id _ (Or.inr (Or.inl rfl))
    obtain rfl := hardDeleteOne_eq_some h₁
    split_ifs at hd
    · exact .head hmove (.head (.write _ _) (ih hd))
    · exact .head hmove (ih hd)

theorem appends_emptyTrash {ids : List NodeId} (he : d.emptyTrash = some (ids, d')) :
    ReflTransGen Appends d d' := by
  obtain ⟨d₁, hd, hr⟩ := Option.bind_eq_some_iff.1 he
  obtain ⟨rfl, rfl⟩ := Prod.mk.inj (Option.some_injective _ hr)
  exact appends_hardDelete hd

theorem appends_exec {op : LocalOp} (he : d.exec ctr op = some (d', ctr')) :
    ReflTransGen Appends d d' := by
  cases op with
  | mkdir parentPath name =>
    obtain ⟨r, hr, heq⟩ := Option.map_eq_some_iff.1 he
    obtain rfl : r.2.1 = d' := congrArg Prod.fst heq
    obtain ⟨e, -, rfl⟩ | ⟨parent, hc, rfl⟩ := mkdir_eq_some hr
    · exact .refl
    · exact .single (.move _ _ _ _ _ (Or.inr (Or.inr ⟨_, resolveDir_of_mkdirCheck hc⟩)))
  | addFile parentPath name content =>
    obtain ⟨r, hr, heq⟩ := Option.map_eq_some_iff.1 he
    obtain rfl : r.2.1 = d' := congrArg Prod.fst heq
    obtain ⟨e, -, rfl⟩ | ⟨parent, existing, -, rfl⟩ | ⟨parent, hc, rfl⟩ := addFile_eq_some hr
    · exact .refl
    · exact .single (.write _ _)
    · exact .tail (.single (.move _ _ _ _ _ (Or.inr (Or.inr ⟨_, resolveDir_of_addFileCheck hc⟩))))
        (.write _ _)
  | mv src dstParent dstName =>
    obtain ⟨r, hr, heq⟩ := Option.map_eq_some_iff.1 he
    obtain rfl : r.2 = d' := congrArg Prod.fst heq
    obtain ⟨e, -, rfl⟩ | ⟨node, parent, hc, rfl⟩ := mv_eq_some hr
    · exact .refl
    · exact .single (.move _ _ _ _ _ (Or.inr (Or.inr ⟨_, (mvCheck_eq_ok hc).2.2⟩)))
  | rm path =>
    obtain ⟨r, hr, heq⟩ := Option.map_eq_some_iff.1 he
    obtain rfl : r.2 = d' := congrArg Prod.fst heq
    obtain ⟨e, -, rfl⟩ | ⟨node, -, rfl⟩ := rm_eq_some hr
    · exact .refl
    · exact .single (.move _ _ _ _ _ (Or.inl rfl))
  | restore id dstParent dstName =>
    obtain ⟨r, hr, heq⟩ := Option.map_eq_some_iff.1 he
    obtain rfl : r.2 = d' := congrArg Prod.fst heq
    obtain ⟨e, -, rfl⟩ | ⟨parent, name, hc, -, rfl⟩ := restore_eq_some hr
    · exact .refl
    · exact .single (.move _ _ _ _ _ (Or.inr (Or.inr ⟨_, (restoreCheck_eq_ok hc).2.2.1⟩)))
  | emptyTrash =>
    obtain ⟨⟨ids, d₁⟩, hr, heq⟩ := Option.map_eq_some_iff.1 he
    exact (Prod.mk.inj heq).1 ▸ appends_emptyTrash hr
  | gcTrash now retention =>
    obtain ⟨⟨ids, d₁⟩, hr, heq⟩ := Option.map_eq_some_iff.1 he
    obtain rfl := (Prod.mk.inj heq).1
    unfold gcTrash at hr
    split_ifs at hr
    · exact appends_emptyTrash hr
    · obtain ⟨d₂, hd, hr⟩ := Option.bind_eq_some_iff.1 hr
      obtain ⟨rfl, rfl⟩ := Prod.mk.inj (Option.some_injective _ hr)
      exact appends_hardDelete hd
  | setContent id content =>
    obtain ⟨d₁, hr, heq⟩ := Option.map_eq_some_iff.1 he
    obtain rfl := pushContent_eq_some hr
    exact (Prod.mk.inj heq).1 ▸ .single (.write _ _)
  | restoreVersion path cid now =>
    obtain ⟨r, hr, heq⟩ := Option.map_eq_some_iff.1 he
    obtain rfl : r.2 = d' := congrArg Prod.fst heq
    obtain ⟨e, -, rfl⟩ | ⟨node, c, -, -, rfl⟩ := restoreVersion_eq_some hr
    · exact .refl
    · exact .single (.write _ _)

theorem Inv.rooted_appends (h : d.Inv) (hrooted : d.tree.Rooted) (ha : Appends d d') :
    d'.Inv ∧ d'.tree.Rooted := by
  cases ha with
  | move child newParent newName kind hp =>
    refine ⟨h.moved .., hrooted.moved (DriveTree.moved_of_inv h child newParent newName kind) ?_⟩
    rcases hp with rfl | rfl | ⟨path, hpath⟩
    · exact Or.inl (Or.inr (Or.inl rfl))
    · exact Or.inl (Or.inr (Or.inr rfl))
    · rcases h.replayed.mirror.edge_of_resolve (resolveDir_eq_ok hpath).1 with rfl | hedge
      · exact Or.inl (Or.inl rfl)
      · exact Or.inr hedge
  | write op => exact ⟨h.wrote op, hrooted⟩

/-! ## The runs of one writer -/

/-- A local operation or a compaction; a restore names a node that has an edge. -/
def Own (d : Drive) : Event → Prop
  | .exec _ (.restore id _ _) => (d.tree.edges[id]?).isSome = true
  | .exec _ _ => True
  | .remoteMove _ => False
  | .remoteContent _ => False
  | .compact => True

/-- The drives one writer reaches. -/
inductive OwnReachable : Drive → Prop
  | init (name : String) (replica : ReplicaId) : OwnReachable (init name replica)
  | step {d d' : Drive} {e : Event} (h : OwnReachable d) (hown : d.Own e)
      (he : d.perform e = some d') : OwnReachable d'

/-- The invariant of these drives. -/
structure Grown (d : Drive) : Prop where
  inv : d.Inv
  free : d.tree.ReservedFree
  rooted : d.tree.Rooted

theorem Own.keepsReserved {ev : Event} (hown : d.Own ev) (hfree : d.tree.ReservedFree) :
    d.KeepsReserved ev := by
  cases ev with
  | exec ctr op =>
    cases op with
    | restore id dstParent dstName =>
      rintro rfl
      have hedge : (d.tree.edges[TRASH]?).isSome = true := hown
      rw [hfree TRASH (Or.inr (Or.inl rfl))] at hedge
      cases hedge
    | _ => trivial
  | remoteMove op => exact hown.elim
  | remoteContent op => exact hown.elim
  | compact => trivial

/-- Compaction keeps the parents of the nodes it keeps. -/
theorem Inv.rooted_compact (h : d.Inv) : d.compact.tree.Rooted := by
  intro n e he
  obtain ⟨hedge, hkept⟩ := h.getElem?_edges_compact.1 he
  obtain ⟨-, -, hp⟩ := (h.replayed.grounded.kept_iff_of_edge hedge hkept.ne_root).1 hkept
  rcases hp with hp | ⟨hp, -⟩
  · exact Or.inl (Or.inl hp)
  · obtain ⟨e', he'⟩ := hp.exists_edge
    exact Or.inr ⟨e', h.getElem?_edges_compact.2 ⟨he', hp⟩⟩

theorem Grown.perform (h : d.Grown) {ev : Event} (hown : d.Own ev) (he : d.perform ev = some d') :
    d'.Grown := by
  refine ⟨h.inv.perform he,
    (h.inv.reservedFree_perform h.free he).2 (hown.keepsReserved h.free), ?_⟩
  cases ev with
  | exec ctr op =>
    obtain ⟨⟨d₁, ctr'⟩, hr, rfl⟩ := Option.map_eq_some_iff.1 he
    suffices d₁.Inv ∧ d₁.tree.Rooted from this.2
    have hrun := appends_exec hr
    clear hr he hown
    induction hrun with
    | refl => exact ⟨h.inv, h.rooted⟩
    | tail _ hstep ih => exact ih.1.rooted_appends ih.2 hstep
  | remoteMove op => exact hown.elim
  | remoteContent op => exact hown.elim
  | compact => exact Option.some_injective _ he ▸ h.inv.rooted_compact

theorem OwnReachable.grown (h : d.OwnReachable) : d.Grown := by
  induction h with
  | init name replica =>
    exact ⟨inv_init name replica, DriveTree.reservedFree_new, DriveTree.rooted_new⟩
  | step _ hown he ih => exact ih.perform hown he

/-- Every node with an edge is live, trashed or purged : its parents end in exactly one of the
root, the trash and limbo, and it has a path exactly if it is live, that is neither trashed nor
in limbo. -/
theorem node_place (d : Drive) (h : d.OwnReachable) (n : NodeId) (e : Edge)
    (he : d.tree.edges[n]? = some e) : (∃! r, d.tree.EndsAt n r ∧ Reserved r) ∧
      ((d.tree.path n).isSome = true ↔ d.tree.isLive n = true) ∧
      (d.tree.isLive n = true ↔ d.tree.isTrashed n = false ∧ d.tree.isLimbo n = false) := by
  obtain ⟨hinv, hfree, hrooted⟩ := h.grown
  have hg := hinv.replayed.grounded
  have hunique := hrooted.existsUnique_endsAt hg he
  have hlive : d.tree.isLive n = true ↔
      d.tree.isTrashed n = false ∧ d.tree.isLimbo n = false := by
    simp [DriveTree.isLive, he, DriveTree.isTrashed, DriveTree.isLimbo]
  refine ⟨hunique, ?_, hlive⟩
  obtain ⟨r, ⟨hr, hreserved⟩, -⟩ := hunique
  have hiff : ∀ {s}, Reserved s → (Reaches d.tree.parentOf n s ↔ s = r) :=
    hr.reaches_iff hfree
  rw [hlive, hg.isSome_path_iff, ← Bool.not_eq_true, ← Bool.not_eq_true, DriveTree.isTrashed,
    DriveTree.isLimbo, hg.isAncestor_iff, hg.isAncestor_iff, hiff (Or.inl rfl),
    hiff (Or.inr (Or.inl rfl)), hiff (Or.inr (Or.inr rfl))]
  rcases hreserved with rfl | rfl | rfl <;> decide

/-- A file in a deleted directory. -/
theorem node_place_deleted : ∃ d : Drive, (init "d" "a").performAll [.exec 0 (.mkdir "/" "a"),
      .exec 1 (.addFile "/a" "f" (.new "c" 1 0 1)), .exec 2 (.rm "/a")] = some d ∧
    (∃! r, d.tree.EndsAt "00000000000200000001" r ∧ Reserved r) ∧
    ((d.tree.path "00000000000200000001").isSome = true ↔
      d.tree.isLive "00000000000200000001" = true) ∧
    (d.tree.isLive "00000000000200000001" = true ↔
      d.tree.isTrashed "00000000000200000001" = false ∧
        d.tree.isLimbo "00000000000200000001" = false) := by
  have hrun : ((init "d" "a").performAll [.exec 0 (.mkdir "/" "a"),
      .exec 1 (.addFile "/a" "f" (.new "c" 1 0 1)), .exec 2 (.rm "/a")]).any (fun d =>
        d.tree.edges["00000000000200000001"]? = some ⟨"00000000000100000000", "f", .file⟩) = true := by
    decide +kernel
  obtain ⟨d, hd, he⟩ := (Option.any_eq_true _ _).1 hrun
  have hreach : d.OwnReachable := by
    refine Runs.invariant OwnReachable (.init "d" "a") hd fun ev hev s s' hs hstep => ?_
    refine hs.step ?_ hstep
    simp only [List.mem_cons, List.not_mem_nil, or_false] at hev
    rcases hev with rfl | rfl | rfl <;> trivial
  exact ⟨d, hd, node_place d hreach _ _ (by simpa using he)⟩

end Drive

end CeDrive
