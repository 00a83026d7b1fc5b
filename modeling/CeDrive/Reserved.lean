import CeDrive.CompactTree
import CeDrive.FreshIds
import CeDrive.Paths
import CeDrive.Trash

/-!
# The reserved nodes

The root, the trash and limbo are no keys of the edge map : they stand above all other
nodes. Local operations move nodes that have an edge, or mint an id, so they keep the three
out, but for a restore of the trash, which counts as trashed itself. A received move may name
any node. All states of a run are free of reserved keys exactly if the run restores the trash
nowhere and the cycle check refuses all moves of reserved nodes (`reservedFree_iff`).
-/

open SortedLog Relation Forest

namespace CeDrive

/-- The ids that stand for the root, the trash and limbo. -/
def Reserved (n : NodeId) : Prop :=
  n = ROOT ∨ n = TRASH ∨ n = LIMBO

instance (n : NodeId) : Decidable (Reserved n) :=
  inferInstanceAs (Decidable (_ ∨ _))

theorem not_reserved_freshNodeId (l c : ℕ) : ¬Reserved (freshNodeId l c).1 := by
  rintro (h | h | h)
  · exact freshNodeId_ne (by decide) l c h
  · exact freshNodeId_ne (by decide) l c h
  · exact freshNodeId_ne (by decide) l c h

namespace DriveTree

variable {t : DriveTree} {op : MoveOp} {n : NodeId} {e : Edge}

/-- No reserved node is a key of the edge map. -/
def ReservedFree (t : DriveTree) : Prop :=
  ∀ n, Reserved n → t.edges[n]? = none

/-- Performing the log from `t`, the cycle check refuses each move of a reserved node. -/
def RefusesReserved (t : DriveTree) : List MoveOp → Prop
  | [] => True
  | op :: log => (Reserved op.child → t.Skips op) ∧ RefusesReserved (t.doPush op) log

instance decidableRefusesReserved (t : DriveTree) : (log : List MoveOp) →
    Decidable (t.RefusesReserved log)
  | [] => inferInstanceAs (Decidable True)
  | op :: log =>
    have := decidableRefusesReserved (t.doPush op) log
    inferInstanceAs (Decidable (_ ∧ _))

theorem reservedFree_new : new.ReservedFree := fun n _ => by
  simp [new]

theorem ReservedFree.not_reserved (h : t.ReservedFree) (he : t.edges[n]? = some e) : ¬Reserved n :=
  fun hn => by simp [h n hn] at he

theorem ReservedFree.parentOf_eq_none (h : t.ReservedFree) (hn : Reserved n) : t.parentOf n = none := by
  simp [parentOf, h n hn]

theorem reservedFree_doPush : (t.doPush op).ReservedFree ↔
    t.ReservedFree ∧ (Reserved op.child → t.Skips op) := by
  have hpush : (t.doPush op).edges = (t.doMove op).2.edges := rfl
  have hother : ∀ n, op.child ≠ n → (t.doPush op).edges[n]? = t.edges[n]? := fun n hn => by
    rw [hpush, getElem?_edges_doMove_of_ne hn]
  by_cases hs : t.Skips op
  · have hsame : (t.doPush op).edges = t.edges := by rw [hpush, doMove_of_skips hs]
    rw [ReservedFree, ReservedFree, hsame]
    exact (and_iff_left fun _ => hs).symm
  · have hset : (t.doPush op).edges[op.child]? = some op.edge := by
      rw [hpush, getElem?_edges_doMove_self hs]
    constructor
    · intro hfree
      have hchild : ¬Reserved op.child := hfree.not_reserved hset
      refine ⟨fun n hn => ?_, fun hn => absurd hn hchild⟩
      rw [← hother n fun hc => hchild (hc ▸ hn)]
      exact hfree n hn
    · rintro ⟨hfree, hchild⟩ n hn
      rw [hother n fun hc => hs (hchild (hc ▸ hn))]
      exact hfree n hn

theorem reservedFree_foldl_doPush (log : List MoveOp) :
    (log.foldl doPush t).ReservedFree ↔ t.ReservedFree ∧ t.RefusesReserved log := by
  induction log generalizing t with
  | nil => exact (and_iff_left trivial).symm
  | cons op log ih => rw [List.foldl_cons, ih, reservedFree_doPush, RefusesReserved, and_assoc]

/-- The tree is free of reserved keys exactly if its log, performed from the start, refuses
the moves of reserved nodes. -/
theorem Replayed.reservedFree_iff_refuses (h : t.Replayed) :
    t.ReservedFree ↔ new.RefusesReserved t.logOps := by
  rw [ReservedFree, h.alike_foldl_doPush.view.1, ← ReservedFree, reservedFree_foldl_doPush]
  exact and_iff_right reservedFree_new

end DriveTree

namespace Drive

variable {d d' : Drive} {ctr ctr' : ℕ} {n : NodeId}

theorem Inv.reservedFree_moved (h : d.Inv) (child newParent : NodeId) (newName : String)
    (kind : NodeKind) : (d.moved child newParent newName kind).tree.ReservedFree ↔
      d.tree.ReservedFree ∧
        (Reserved child → d.tree.Skips ⟨d.nextTs, child, newParent, newName, kind⟩) := by
  rw [h.tree_moved, DriveTree.reservedFree_doPush]

/-- A move of another node. -/
theorem Inv.reservedFree_moved_of_not (h : d.Inv) (hfree : d.tree.ReservedFree) {child : NodeId}
    (hchild : ¬Reserved child) (newParent : NodeId) (newName : String) (kind : NodeKind) :
    (d.moved child newParent newName kind).tree.ReservedFree :=
  (h.reservedFree_moved ..).2 ⟨hfree, fun hn => absurd hn hchild⟩

theorem Inv.reservedFree_hardDelete (h : d.Inv) (hfree : d.tree.ReservedFree) {ids : List NodeId}
    (hids : ∀ id ∈ ids, ¬Reserved id) (hd : d.hardDelete ids = some d') : d'.tree.ReservedFree := by
  induction ids generalizing d with
  | nil => exact Option.some_injective _ hd ▸ hfree
  | cons id ids ih =>
    obtain ⟨d₁, h₁, hd⟩ := Runs.cons_eq_some.1 hd
    refine ih (h.hardDeleteOne h₁) ?_ (fun i hi => hids i (List.mem_cons_of_mem _ hi)) hd
    have htree : d₁.tree = (d.moved id LIMBO id (d.tree.kindOf id)).tree := by
      rw [hardDeleteOne_eq_some h₁]
      split <;> rfl
    rw [htree]
    exact h.reservedFree_moved_of_not hfree (hids id List.mem_cons_self) _ _ _

/-- A node in the trash, and a node found by a path, have edges. -/
theorem Inv.not_reserved_of_mem_trashIds (h : d.Inv) (hfree : d.tree.ReservedFree)
    (hn : n ∈ d.trashIds) : ¬Reserved n := by
  obtain ⟨e, he, -⟩ := DriveTree.parentOf_eq_some.1 (h.mem_trashIds.1 hn)
  exact hfree.not_reserved he

theorem Inv.not_reserved_of_resolveNode (h : d.Inv) (hfree : d.tree.ReservedFree)
    {path action : String} (hn : d.resolveNode path action = .ok n) : ¬Reserved n := by
  obtain ⟨hres, hne⟩ := resolveNode_eq_ok hn
  obtain ⟨e, he⟩ := (h.replayed.mirror.edge_of_resolve hres).resolve_left hne
  exact hfree.not_reserved he

theorem Inv.reservedFree_emptyTrash (h : d.Inv) (hfree : d.tree.ReservedFree) {ids : List NodeId}
    (he : d.emptyTrash = some (ids, d')) : d'.tree.ReservedFree := by
  obtain ⟨d₁, hd, hr⟩ := Option.bind_eq_some_iff.1 he
  obtain ⟨rfl, rfl⟩ := Prod.mk.inj (Option.some_injective _ hr)
  exact h.reservedFree_hardDelete hfree (fun id hid => h.not_reserved_of_mem_trashIds hfree hid) hd

/-- Trashed nodes have edges, but for the trash. -/
theorem Inv.not_reserved_of_isTrashed (h : d.Inv) (hfree : d.tree.ReservedFree) (hne : n ≠ TRASH)
    (ht : d.tree.isTrashed n = true) : ¬Reserved n := by
  rcases ReflTransGen.cases_head (h.replayed.grounded.isAncestor_iff.1 ht) with heq | ⟨y, hy, -⟩
  · exact absurd heq hne
  · obtain ⟨e, he, -⟩ := DriveTree.parentOf_eq_some.1 hy
    exact hfree.not_reserved he

/-- A directory found by a path is not below the trash, if the root is not. -/
theorem Inv.not_reaches_trash (h : d.Inv) (hfree : d.tree.ReservedFree) {path : String}
    (hres : d.tree.resolve path = some n) : ¬Reaches d.tree.parentOf n TRASH := by
  intro htrash
  rw [DriveTree.resolve_eq] at hres
  obtain ⟨names, hpath, -⟩ := h.replayed.pathTo_of_resolveFrom .root hres
  have heq : TRASH = ROOT := eq_of_reaches_tops htrash hpath.reaches
    (hfree.parentOf_eq_none (Or.inr (Or.inl rfl))) (hfree.parentOf_eq_none (Or.inl rfl))
  exact absurd heq (by decide)

/-- The trash is not restored; performed with a received move, the log has its moves of
reserved nodes refused. -/
def KeepsReserved (d : Drive) : Event → Prop
  | .exec _ (.restore id dstParent dstName) =>
    id = TRASH → (d.restoreCheck id dstParent dstName).isOk = false
  | .exec _ _ => True
  | .remoteMove op => DriveTree.new.RefusesReserved (deliver MoveOp.ts d.tree.logOps op)
  | .remoteContent _ => True
  | .compact => True

/-- A local operation keeps the reserved keys out exactly if it is no restore of the trash. -/
theorem Inv.reservedFree_exec (h : d.Inv) (hfree : d.tree.ReservedFree) {op : LocalOp}
    (he : d.exec ctr op = some (d', ctr')) :
    d'.tree.ReservedFree ↔ d.KeepsReserved (.exec ctr op) := by
  cases op with
  | mkdir parentPath name =>
    refine iff_of_true ?_ trivial
    obtain ⟨r, hr, heq⟩ := Option.map_eq_some_iff.1 he
    obtain rfl : r.2.1 = d' := congrArg Prod.fst heq
    obtain ⟨e, -, rfl⟩ | ⟨parent, -, rfl⟩ := mkdir_eq_some hr
    · exact hfree
    · exact h.reservedFree_moved_of_not hfree (not_reserved_freshNodeId _ _) _ _ _
  | addFile parentPath name content =>
    refine iff_of_true ?_ trivial
    obtain ⟨r, hr, heq⟩ := Option.map_eq_some_iff.1 he
    obtain rfl : r.2.1 = d' := congrArg Prod.fst heq
    obtain ⟨e, -, rfl⟩ | ⟨parent, existing, -, rfl⟩ | ⟨parent, -, rfl⟩ := addFile_eq_some hr
    · exact hfree
    · exact hfree
    · exact h.reservedFree_moved_of_not hfree (not_reserved_freshNodeId _ _) _ _ _
  | mv src dstParent dstName =>
    refine iff_of_true ?_ trivial
    obtain ⟨r, hr, heq⟩ := Option.map_eq_some_iff.1 he
    obtain rfl : r.2 = d' := congrArg Prod.fst heq
    obtain ⟨e, -, rfl⟩ | ⟨node, parent, hc, rfl⟩ := mv_eq_some hr
    · exact hfree
    · have hnode := h.not_reserved_of_resolveNode hfree (mvCheck_eq_ok hc).2.1
      exact h.reservedFree_moved_of_not hfree hnode _ _ _
  | rm path =>
    refine iff_of_true ?_ trivial
    obtain ⟨r, hr, heq⟩ := Option.map_eq_some_iff.1 he
    obtain rfl : r.2 = d' := congrArg Prod.fst heq
    obtain ⟨e, -, rfl⟩ | ⟨node, hc, rfl⟩ := rm_eq_some hr
    · exact hfree
    · exact h.reservedFree_moved_of_not hfree (h.not_reserved_of_resolveNode hfree hc) _ _ _
  | restore id dstParent dstName =>
    obtain ⟨r, hr, heq⟩ := Option.map_eq_some_iff.1 he
    obtain rfl : r.2 = d' := congrArg Prod.fst heq
    obtain ⟨e, hc, rfl⟩ | ⟨parent, name, hc, htr, rfl⟩ := restore_eq_some hr
    · exact iff_of_true hfree fun _ => by rw [hc]; rfl
    · have hkeeps : d.KeepsReserved (.exec ctr (.restore id dstParent dstName)) ↔ id ≠ TRASH := by
        rw [KeepsReserved, hc]
        exact ⟨fun hk hid => Bool.noConfusion (hk hid), fun hne hid => absurd hid hne⟩
      rw [hkeeps]
      constructor
      · rintro hfree' rfl
        obtain ⟨hres, -⟩ := resolveDir_eq_ok (restoreCheck_eq_ok hc).2.2.1
        have hskips := ((h.reservedFree_moved ..).1 hfree').2 (Or.inr (Or.inl rfl))
        exact h.not_reaches_trash hfree hres (h.replayed.grounded.skips_iff.1 hskips)
      · intro hne
        exact h.reservedFree_moved_of_not hfree (h.not_reserved_of_isTrashed hfree hne htr) _ _ _
  | emptyTrash =>
    refine iff_of_true ?_ trivial
    obtain ⟨⟨ids, d₁⟩, hr, heq⟩ := Option.map_eq_some_iff.1 he
    obtain rfl : d₁ = d' := congrArg Prod.fst heq
    exact h.reservedFree_emptyTrash hfree hr
  | gcTrash now retention =>
    refine iff_of_true ?_ trivial
    obtain ⟨⟨ids, d₁⟩, hr, heq⟩ := Option.map_eq_some_iff.1 he
    obtain rfl : d₁ = d' := congrArg Prod.fst heq
    unfold gcTrash at hr
    split_ifs at hr
    · exact h.reservedFree_emptyTrash hfree hr
    · obtain ⟨d₂, hd, hr⟩ := Option.bind_eq_some_iff.1 hr
      obtain ⟨rfl, rfl⟩ := Prod.mk.inj (Option.some_injective _ hr)
      exact h.reservedFree_hardDelete hfree
        (fun id hid => h.not_reserved_of_mem_trashIds hfree (List.mem_of_mem_filter hid)) hd
  | setContent id content =>
    refine iff_of_true ?_ trivial
    obtain ⟨d₁, hr, heq⟩ := Option.map_eq_some_iff.1 he
    obtain rfl : d₁ = d' := congrArg Prod.fst heq
    exact pushContent_eq_some hr ▸ hfree
  | restoreVersion path cid now =>
    refine iff_of_true ?_ trivial
    obtain ⟨r, hr, heq⟩ := Option.map_eq_some_iff.1 he
    obtain rfl : r.2 = d' := congrArg Prod.fst heq
    obtain ⟨e, -, rfl⟩ | ⟨node, c, -, -, rfl⟩ := restoreVersion_eq_some hr
    · exact hfree
    · exact hfree

/-- One step keeps the reserved keys out exactly if it meets the condition. -/
theorem Inv.reservedFree_perform (h : d.Inv) (hfree : d.tree.ReservedFree) {e : Event}
    (he : d.perform e = some d') : d'.tree.ReservedFree ↔ d.KeepsReserved e := by
  cases e with
  | exec ctr op =>
    obtain ⟨⟨d₁, ctr'⟩, hr, rfl⟩ := Option.map_eq_some_iff.1 he
    exact h.reservedFree_exec hfree hr
  | remoteMove op =>
    rw [(h.perform he).replayed.reservedFree_iff_refuses, applyRemoteMove_eq_some he]
    exact iff_of_eq (congrArg _ (h.replayed.integrate op).2)
  | remoteContent op =>
    rw [applyRemoteContent_eq_some he]
    exact iff_of_true hfree trivial
  | compact =>
    obtain rfl := Option.some_injective _ he
    refine iff_of_true (fun n hn => ?_) trivial
    refine Option.eq_none_iff_forall_not_mem.2 fun e hedge => ?_
    exact hfree.not_reserved (h.getElem?_edges_compact.1 hedge).1 hn

/-! ## Runs -/

/-- Every step of the run from `d` meets the condition. -/
def RunKeepsReserved : Drive → List Event → Prop
  | _, [] => True
  | d, e :: es => d.KeepsReserved e ∧ ∀ d', d.perform e = some d' → RunKeepsReserved d' es

theorem condition_keepsReserved : Runs.Condition perform KeepsReserved RunKeepsReserved :=
  ⟨fun _ => trivial, fun _ _ _ => Iff.rfl⟩

/-- The reserved nodes. In all drives of a run none of the root, the trash and limbo is a key
of the edge map, if and only if no step of it restores the trash with success, and each move it
receives leaves a log that, performed in order, has all moves of the three refused by the cycle
check. -/
theorem reservedFree_iff (name : String) (replica : ReplicaId) (es : List Event) (d : Drive)
    (hd : (init name replica).performAll es = some d) :
    (∀ pre d', pre <+: es → (init name replica).performAll pre = some d' → d'.tree.ReservedFree) ↔
      (init name replica).RunKeepsReserved es := by
  refine condition_keepsReserved.always_iff (fun _ => Drive.Inv) (fun d => d.tree.ReservedFree)
    (inv_init name replica) DriveTree.reservedFree_new hd (fun _ _ _ _ h _ he => h.perform he) ?_
  exact fun _ _ _ _ h hfree he => h.reservedFree_perform hfree he

/-- A directory is deleted and restored, and the trash moved under itself by another writer. -/
theorem reservedFree_iff_restored :
    let es : List Event := [.exec 0 (.mkdir "/" "a"), .exec 1 (.rm "/a"),
      .exec 1 (.restore "00000000000100000000" none none),
      .remoteMove ⟨⟨9, "b"⟩, TRASH, TRASH, "x", .dir⟩]
    ∀ pre d', pre <+: es → (init "d" "a").performAll pre = some d' → d'.tree.ReservedFree := by
  intro es
  have hrun : ((init "d" "a").performAll es).isSome = true := by decide +kernel
  refine (reservedFree_iff "d" "a" es _ (Option.some_get hrun).symm).2 ?_
  refine condition_keepsReserved.cons_of trivial (by decide +kernel) ?_
  refine condition_keepsReserved.cons_of trivial (by decide +kernel) ?_
  refine condition_keepsReserved.cons_of (fun h => absurd h (by decide)) (by decide +kernel) ?_
  refine condition_keepsReserved.cons_of ?_ (by decide +kernel) trivial
  unfold KeepsReserved
  decide +kernel

/-- The trash restored into the root of a fresh drive. -/
theorem trash_restored :
    ¬∀ pre d', pre <+: [.exec 0 (.restore TRASH none (some "x"))] →
      (init "d" "a").performAll pre = some d' → d'.tree.ReservedFree := by
  intro h
  have hrun : ((init "d" "a").performAll [.exec 0 (.restore TRASH none (some "x"))]).any
      (fun d => (d.tree.edges[TRASH]?).isSome) = true := by decide +kernel
  obtain ⟨d, hd, hkey⟩ := (Option.any_eq_true _ _).1 hrun
  rw [h _ d List.prefix_rfl hd TRASH (by decide)] at hkey
  cases hkey

end Drive

end CeDrive
