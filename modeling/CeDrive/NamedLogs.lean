import CeDrive.CompactTree
import CeDrive.FreshIds
import CeDrive.Paths
import CeDrive.Trash

/-!
# The names in a log

The local operations check the names they take. A received move is not checked. If `N` holds of
the valid names and of the received ones, and `B` of the replica ids, then every name that is
listed satisfies `N`, or is the conflict name of such a name and such a replica id
(`Inv.named_of_lists`). This needs that the limbo is not moved : what is in it is named by its id.
-/

open Std (ExtTreeMap)
open SortedLog Forest

namespace CeDrive

/-- The move is not one of the limbo, its new name satisfies `N` and its replica id `B`. What is
moved to the limbo is named by its id. -/
structure MoveOp.Named (N : String → Prop) (B : ReplicaId → Prop) (op : MoveOp) : Prop where
  child : op.child ≠ LIMBO
  replica : B op.ts.replica
  name : op.newParent = LIMBO ∨ N op.newName

namespace Drive

variable {N : String → Prop} {B : ReplicaId → Prop} {d d' : Drive} {ctr ctr' : ℕ} {n p : NodeId}
  {e : Edge} {r path : String}

/-- A received move is named so. -/
def Event.Named (N : String → Prop) (B : ReplicaId → Prop) : Event → Prop
  | .remoteMove op => op.Named N B
  | _ => True

/-- All moves of the log are named so, and those of the next operations will be. -/
structure NamedLog (N : String → Prop) (B : ReplicaId → Prop) (d : Drive) : Prop where
  replica : B d.state.replica
  moves : ∀ op ∈ d.state.moveLog, op.Named N B

theorem NamedLog.moved (h : d.NamedLog N B) {child newParent : NodeId} {newName : String}
    (hchild : child ≠ LIMBO) (hname : newParent = LIMBO ∨ N newName) (kind : NodeKind) :
    (d.moved child newParent newName kind).NamedLog N B where
  replica := h.replica
  moves := forall_mem_append_singleton.2 ⟨h.moves, hchild, h.replica, hname⟩

theorem NamedLog.wrote (h : d.NamedLog N B) (op : ContentOp) : (d.wrote op).NamedLog N B :=
  ⟨h.replica, h.moves⟩

/-- The edges of a drive whose log is named so. -/
theorem Inv.named_of_edge (h : d.Inv) (hp : d.NamedLog N B) (he : d.tree.edges[n]? = some e) :
    n ≠ LIMBO ∧ (e.parent = LIMBO ∨ N e.name) := by
  obtain ⟨op, hop, rfl, rfl⟩ := h.replayed.exists_op_of_edge he
  rw [h.tree, DriveTree.logOps_applyAll] at hop
  have hnamed := hp.moves op (mem_of_mem_deliverAll hop)
  exact ⟨hnamed.child, hnamed.name⟩

/-- The limbo has no edge, so no path leads to it. -/
theorem Inv.ne_limbo_of_resolve (h : d.Inv) (hp : d.NamedLog N B)
    (hr : d.tree.resolve path = some n) : n ≠ LIMBO := by
  rcases h.replayed.mirror.edge_of_resolve hr with rfl | ⟨e, he⟩
  · decide
  · exact (h.named_of_edge hp he).1

/-- The names that are listed in a directory that a path leads to. -/
theorem Inv.named_of_lists (h : d.Inv) (hp : d.NamedLog N B) (hne : p ≠ LIMBO)
    (hl : d.tree.Lists p r n) :
    N r ∨ ∃ name ts, N name ∧ B ts.replica ∧ r = DriveTree.conflictName name ts := by
  have ht := h.replayed
  obtain ⟨b, hb, hcase⟩ := ht.lists_iff.1 hl
  obtain ⟨⟨e, he, rfl, rfl⟩, -⟩ := ht.mirror.called_iff.1 hb
  have hname := (h.named_of_edge hp he).2.resolve_left hne
  rcases hcase with ⟨-, rfl⟩ | ⟨-, rfl⟩
  · exact Or.inl hname
  · obtain ⟨op, hop, -, hts⟩ := ht.exists_op_of_definingTs he
    rw [h.tree, DriveTree.logOps_applyAll] at hop
    exact Or.inr ⟨_, _, hname, hts ▸ (hp.moves op (mem_of_mem_deliverAll hop)).replica, rfl⟩

/-! ## Runs -/

theorem freshNodeId_ne_limbo (lamport ctr : ℕ) : (freshNodeId lamport ctr).1 ≠ LIMBO :=
  freshNodeId_ne (by decide) lamport ctr

/-- The bare name of a node that a path leads to. -/
theorem Inv.named_nameOf (h : d.Inv) (hp : d.NamedLog N B) (hr : d.tree.resolve path = some n)
    (hne : n ≠ ROOT) : n ≠ LIMBO ∧ N (d.nameOf n) := by
  have ht := h.replayed
  rw [DriveTree.resolve_eq] at hr
  rcases List.eq_nil_or_concat' (DriveTree.components path) with hnil | ⟨l, r, hcomps⟩
  · rw [hnil] at hr
    exact absurd (Option.some_injective _ hr).symm hne
  · rw [hcomps] at hr
    obtain ⟨q, hq, -, hup, -⟩ := ht.exists_of_resolveFrom_append hr
    obtain ⟨e, he, rfl⟩ := DriveTree.parentOf_eq_some.1 hup
    have hparent : e.parent ≠ LIMBO := by
      rcases ht.mirror.edge_of_resolveFrom hq with heq | ⟨e', he'⟩
      · rw [heq]
        decide
      · exact (h.named_of_edge hp he').1
    obtain ⟨hlimbo, hname⟩ := h.named_of_edge hp he
    have hnameOf : d.nameOf n = e.name := by simp [nameOf, DriveTree.edge, he]
    exact ⟨hlimbo, hnameOf ▸ hname.resolve_left hparent⟩

theorem NamedLog.hardDelete (h : d.Inv) (hp : d.NamedLog N B) {ids : List NodeId}
    (hids : ∀ id ∈ ids, id ≠ LIMBO) (hd : d.hardDelete ids = some d') : d'.NamedLog N B := by
  induction ids generalizing d with
  | nil => exact Option.some_injective _ hd ▸ hp
  | cons id ids ih =>
    obtain ⟨d₁, h₁, hd⟩ := Runs.cons_eq_some.1 hd
    refine ih (h.hardDeleteOne h₁) ?_ (fun i hi => hids i (List.mem_cons_of_mem _ hi)) hd
    have hmoved : (d.moved id LIMBO id (d.tree.kindOf id)).NamedLog N B :=
      hp.moved (hids id List.mem_cons_self) (Or.inl rfl) _
    rw [hardDeleteOne_eq_some h₁]
    split
    · exact hmoved.wrote _
    · exact hmoved

theorem Inv.ne_limbo_of_mem_trashIds (h : d.Inv) (hp : d.NamedLog N B) (hn : n ∈ d.trashIds) :
    n ≠ LIMBO := by
  obtain ⟨e, he, -⟩ := DriveTree.parentOf_eq_some.1 (h.mem_trashIds.1 hn)
  exact (h.named_of_edge hp he).1

theorem NamedLog.emptyTrash (h : d.Inv) (hp : d.NamedLog N B) {ids : List NodeId}
    (he : d.emptyTrash = some (ids, d')) : d'.NamedLog N B := by
  obtain ⟨d₁, hd, hr⟩ := Option.bind_eq_some_iff.1 he
  obtain ⟨rfl, rfl⟩ := Prod.mk.inj (Option.some_injective _ hr)
  exact hp.hardDelete h (fun id hid => h.ne_limbo_of_mem_trashIds hp hid) hd

/-- A local operation checks the names it takes, or keeps one. -/
theorem NamedLog.exec (hN : ∀ r, validateName r = .ok () → N r) (h : d.Inv)
    (hp : d.NamedLog N B) {op : LocalOp} (he : d.exec ctr op = some (d', ctr')) :
    d'.NamedLog N B := by
  cases op with
  | mkdir parentPath name =>
    obtain ⟨r, hr, heq⟩ := Option.map_eq_some_iff.1 he
    obtain rfl : r.2.1 = d' := congrArg Prod.fst heq
    obtain ⟨e, -, rfl⟩ | ⟨parent, hc, rfl⟩ := mkdir_eq_some hr
    · exact hp
    · exact hp.moved (freshNodeId_ne_limbo _ _) 
        (Or.inr (hN _ (checkName_ok_iff.1 (mkdirCheck_eq_ok.1 hc).1))) _
  | addFile parentPath name content =>
    obtain ⟨r, hr, heq⟩ := Option.map_eq_some_iff.1 he
    obtain rfl : r.2.1 = d' := congrArg Prod.fst heq
    obtain ⟨e, -, rfl⟩ | ⟨parent, existing, -, rfl⟩ | ⟨parent, hc, rfl⟩ := addFile_eq_some hr
    · exact hp
    · exact hp.wrote _
    · have hname := hN _ (checkName_ok_iff.1 (addFileCheck_eq_ok.1 hc).1)
      exact (hp.moved (freshNodeId_ne_limbo _ _) (Or.inr hname) _).wrote _
  | mv src dstParent dstName =>
    obtain ⟨r, hr, heq⟩ := Option.map_eq_some_iff.1 he
    obtain rfl : r.2 = d' := congrArg Prod.fst heq
    obtain ⟨e, -, rfl⟩ | ⟨node, parent, hc, rfl⟩ := mv_eq_some hr
    · exact hp
    · obtain ⟨hname, hnode, -⟩ := mvCheck_eq_ok hc
      have hres := (resolveNode_eq_ok hnode).1
      exact hp.moved (h.ne_limbo_of_resolve hp hres) (Or.inr (hN _ (checkName_ok_iff.1 hname))) _
  | rm path =>
    obtain ⟨r, hr, heq⟩ := Option.map_eq_some_iff.1 he
    obtain rfl : r.2 = d' := congrArg Prod.fst heq
    obtain ⟨e, -, rfl⟩ | ⟨node, hc, rfl⟩ := rm_eq_some hr
    · exact hp
    · obtain ⟨hres, hne⟩ := resolveNode_eq_ok hc
      obtain ⟨hlimbo, hname⟩ := h.named_nameOf hp hres hne
      exact hp.moved hlimbo (Or.inr hname) _
  | restore id dstParent dstName =>
    obtain ⟨r, hr, heq⟩ := Option.map_eq_some_iff.1 he
    obtain rfl : r.2 = d' := congrArg Prod.fst heq
    obtain ⟨e, -, rfl⟩ | ⟨parent, name, hc, htr, rfl⟩ := restore_eq_some hr
    · exact hp
    · have hid : id ≠ LIMBO := by
        rcases Relation.ReflTransGen.cases_head (h.replayed.grounded.isAncestor_iff.1 htr) with
          rfl | ⟨y, hy, -⟩
        · decide
        · obtain ⟨e, he, -⟩ := DriveTree.parentOf_eq_some.1 hy
          exact (h.named_of_edge hp he).1
      exact hp.moved hid (Or.inr (hN _ (checkName_ok_iff.1 (restoreCheck_eq_ok hc).2.1))) _
  | emptyTrash =>
    obtain ⟨⟨ids, d₁⟩, hr, heq⟩ := Option.map_eq_some_iff.1 he
    obtain rfl : d₁ = d' := congrArg Prod.fst heq
    exact hp.emptyTrash h hr
  | gcTrash now retention =>
    obtain ⟨⟨ids, d₁⟩, hr, heq⟩ := Option.map_eq_some_iff.1 he
    obtain rfl : d₁ = d' := congrArg Prod.fst heq
    unfold gcTrash at hr
    split_ifs at hr
    · exact hp.emptyTrash h hr
    · obtain ⟨d₂, hd, hr⟩ := Option.bind_eq_some_iff.1 hr
      obtain ⟨rfl, rfl⟩ := Prod.mk.inj (Option.some_injective _ hr)
      exact hp.hardDelete h
        (fun id hid => h.ne_limbo_of_mem_trashIds hp (List.mem_of_mem_filter hid)) hd
  | setContent id content =>
    obtain ⟨d₁, hr, heq⟩ := Option.map_eq_some_iff.1 he
    obtain rfl : d₁ = d' := congrArg Prod.fst heq
    exact pushContent_eq_some hr ▸ hp.wrote _
  | restoreVersion path cid now =>
    obtain ⟨r, hr, heq⟩ := Option.map_eq_some_iff.1 he
    obtain rfl : r.2 = d' := congrArg Prod.fst heq
    obtain ⟨e, -, rfl⟩ | ⟨node, c, -, -, rfl⟩ := restoreVersion_eq_some hr
    · exact hp
    · exact hp.wrote _

/-- Compaction writes the edges of kept nodes. -/
theorem NamedLog.compact (h : d.Inv) (hp : d.NamedLog N B) : d.compact.NamedLog N B where
  replica := hp.replica
  moves op hop := by
    obtain ⟨hlimbo, hname⟩ := h.named_of_edge hp (h.edge_of_mem_compacted hop).1
    exact ⟨hlimbo, (d.replica_of_mem_compacted hop).symm ▸ hp.replica, hname⟩

theorem NamedLog.perform (hN : ∀ r, validateName r = .ok () → N r) (h : d.Inv)
    (hp : d.NamedLog N B) {e : Event} (hnamed : e.Named N B)
    (he : d.perform e = some d') : d'.NamedLog N B := by
  cases e with
  | exec ctr op =>
    obtain ⟨⟨d₁, ctr'⟩, hr, rfl⟩ := Option.map_eq_some_iff.1 he
    exact hp.exec hN h hr
  | remoteMove op =>
    obtain rfl := applyRemoteMove_eq_some he
    exact ⟨hp.replica, forall_mem_append_singleton.2 ⟨hp.moves, hnamed⟩⟩
  | remoteContent op =>
    obtain rfl := applyRemoteContent_eq_some he
    exact ⟨hp.replica, hp.moves⟩
  | compact => exact Option.some_injective _ he ▸ hp.compact h

/-- A run in which every received move is named so keeps the log so. -/
theorem namedLog_performAll {name : String} {replica : ReplicaId} {es : List Event}
    (hN : ∀ r, validateName r = .ok () → N r) (hreplica : B replica) (hes : ∀ e ∈ es, e.Named N B)
    (hrun : (init name replica).performAll es = some d) : d.NamedLog N B := by
  have hstart : (init name replica).Inv ∧ (init name replica).NamedLog N B :=
    ⟨inv_init name replica, hreplica, by simp [init]⟩
  exact (Runs.invariant (fun d => d.Inv ∧ d.NamedLog N B) hstart hrun
    fun e hmem _ _ h he => ⟨h.1.perform he, h.2.perform hN h.1 (hes e hmem) he⟩).2

end Drive

end CeDrive
