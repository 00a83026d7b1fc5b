import CeDrive.Drive
import CeDrive.Listing
import Mathlib.Algebra.GroupWithZero.Nat

/-!
# What compaction emits

`compactLoop` walks the live tree and appends to two logs on the way. Here the walk is
separated from the appending : `visits d` is the list of nodes emitted, each with its edge,
and the compacted log is a fold over it (`compacted_eq_foldl`).

The nodes emitted are those `Kept` : not trashed, not in limbo, and below the root through
directories only (`mem_visits`). None is emitted twice (`nodup_visits`). The stamp of a
node counts the operations before it (`mem_moves_foldl_emit`), and both logs come out
strictly ascending (`stamped_compacted`).
-/

open Std SortedLog Forest

namespace CeDrive

namespace DriveTree

variable {t : DriveTree} {c n p : NodeId} {e : Edge}

/-- The proper ancestors of `c` below the root are directories. -/
def DirsAbove (t : DriveTree) (c : NodeId) : Prop :=
  ∀ x, Reaches t.parentOf c x → Reaches t.parentOf x ROOT → x ≠ c → x ≠ ROOT → t.kindOf x = .dir

/-- The nodes compaction keeps. -/
structure Kept (t : DriveTree) (c : NodeId) : Prop where
  ne_root : c ≠ ROOT
  reaches : Reaches t.parentOf c ROOT
  trashed : t.isTrashed c = false
  limbo : t.isLimbo c = false
  dirs : t.DirsAbove c

/-- A node is trashed with its parent. -/
theorem Grounded.isTrashed_of_edge (hg : t.Grounded) (he : t.edges[c]? = some e) :
    t.isTrashed c = true ↔ c = TRASH ∨ t.isTrashed e.parent = true := by
  rw [isTrashed, isTrashed, hg.isAncestor_iff, hg.isAncestor_iff,
    reaches_iff_of_parent (parentOf_of_edge he), eq_comm]

theorem Grounded.isLimbo_of_edge (hg : t.Grounded) (he : t.edges[c]? = some e) :
    t.isLimbo c = true ↔ c = LIMBO ∨ t.isLimbo e.parent = true := by
  rw [isLimbo, isLimbo, hg.isAncestor_iff, hg.isAncestor_iff,
    reaches_iff_of_parent (parentOf_of_edge he), eq_comm]

theorem kindOf_of_edge (he : t.edges[c]? = some e) : t.kindOf c = e.kind := by
  simp [kindOf, he]

/-- A node is kept if it is live and its parent is the root or a directory that is kept. -/
theorem Grounded.kept_iff_of_edge (hg : t.Grounded) (he : t.edges[c]? = some e) (hc : c ≠ ROOT) :
    t.Kept c ↔ t.isTrashed c = false ∧ t.isLimbo c = false ∧
      (e.parent = ROOT ∨ t.Kept e.parent ∧ t.kindOf e.parent = .dir) := by
  have hup : Up t.parentOf c e.parent := parentOf_of_edge he
  constructor
  · intro h
    refine ⟨h.trashed, h.limbo, or_iff_not_imp_left.2 fun hp => ?_⟩
    have hreach : Reaches t.parentOf e.parent ROOT :=
      ((reaches_iff_of_parent hup).1 h.reaches).resolve_left fun heq => hc heq.symm
    have hne : e.parent ≠ c := (Acyclic.ne_of_up hg hup).symm
    refine ⟨⟨hp, hreach, ?_, ?_, ?_⟩, h.dirs _ (Relation.ReflTransGen.single hup) hreach hne hp⟩
    · by_contra htr
      exact absurd ((hg.isTrashed_of_edge he).2 (Or.inr (by simpa using htr))) (by simp [h.trashed])
    · by_contra hl
      exact absurd ((hg.isLimbo_of_edge he).2 (Or.inr (by simpa using hl))) (by simp [h.limbo])
    · intro x hx hxr _ hxroot
      refine h.dirs x (hx.head hup) hxr ?_ hxroot
      rintro rfl
      exact Acyclic.not_reaches_of_up hg hup hx
  · rintro ⟨htr, hl, hp⟩
    have hreach : Reaches t.parentOf e.parent ROOT := by
      rcases hp with hp | hp
      · rw [hp]
      · exact hp.1.reaches
    refine ⟨hc, hreach.head hup, htr, hl, fun x hx hxr hxc hxroot => ?_⟩
    have hx' := ((reaches_iff_of_parent hup).1 hx).resolve_left hxc
    rcases hp with hp | hp
    · exact absurd (Acyclic.antisymm hg (hp ▸ hx') hxr).symm hxroot
    · by_cases hxp : x = e.parent
      · exact hxp ▸ hp.2
      · exact hp.1.dirs x hx' hxr hxp hxroot

/-- A kept node has an edge. -/
theorem Kept.exists_edge (h : t.Kept c) : ∃ e, t.edges[c]? = some e := by
  rcases Relation.ReflTransGen.cases_head h.reaches with heq | ⟨y, hy, -⟩
  · exact absurd heq h.ne_root
  · obtain ⟨e, he, -⟩ := parentOf_eq_some.1 hy
    exact ⟨e, he⟩

end DriveTree

namespace Drive

variable {d : Drive} {c n p : NodeId} {e : Edge} {name : String}

/-! ## The walk -/

/-- The children of a directory that are neither trashed nor in limbo. -/
def liveKids (d : Drive) (parent : NodeId) : List (String × NodeId) :=
  (d.sortedKids parent).filter fun kid => !(d.tree.isTrashed kid.2 || d.tree.isLimbo kid.2)

/-- Those of them that are directories. -/
def liveDirs (d : Drive) (parent : NodeId) : List NodeId :=
  ((d.liveKids parent).filter fun kid => d.tree.kindOf kid.2 = .dir).map Prod.snd

/-- The directories in the order compaction takes them from its queue. -/
def dirOrder (d : Drive) : List NodeId :=
  bfs d.liveDirs (d.tree.edges.size + 1) [ROOT]

/-- The nodes emitted for one directory, with their edges. -/
def visitsOf (d : Drive) (parent : NodeId) : List (NodeId × Edge) :=
  (d.liveKids parent).map fun kid => (kid.2, ⟨parent, kid.1, d.tree.kindOf kid.2⟩)

/-- The nodes compaction emits, in order. -/
def visits (d : Drive) : List (NodeId × Edge) :=
  d.dirOrder.flatMap d.visitsOf

/-- The content operations emitted for a node. -/
def recordOps (d : Drive) (id : NodeId) : List ContentOp :=
  match d.content[id]? with
  | some c => historyOps id c
  | none => []

theorem target_of_mem_recordOps {d : Drive} {id : NodeId} {op : ContentOp} (h : op ∈ d.recordOps id) :
    op.target = id := by
  unfold recordOps at h
  split at h
  · unfold historyOps at h
    rcases List.mem_append.1 h with h | h
    · obtain ⟨v, -, rfl⟩ := List.mem_map.1 h
      rfl
    · rcases List.mem_cons.1 h with rfl | h
      · rfl
      · obtain ⟨docId, -, rfl⟩ := List.mem_map.1 h
        rfl
  · cases h

/-- Emit one node : its move, then its content. -/
def emit (d : Drive) (out : Compaction) (v : NodeId × Edge) : Compaction :=
  (d.recordOps v.1).foldl (Compaction.pushContent d.state.replica)
    (out.pushMove d.state.replica v.1 v.2.parent v.2.name v.2.kind)

theorem foldl_compactKid (d : Drive) (parent : NodeId) (kids : List (String × NodeId))
    (out : Compaction) (queue : List NodeId) :
    let live := kids.filter fun kid => !(d.tree.isTrashed kid.2 || d.tree.isLimbo kid.2)
    kids.foldl (d.compactKid parent) (out, queue) =
      ((live.map fun kid => (kid.2, ⟨parent, kid.1, d.tree.kindOf kid.2⟩)).foldl d.emit out,
        queue ++ (live.filter fun kid => d.tree.kindOf kid.2 = .dir).map Prod.snd) := by
  induction kids generalizing out queue with
  | nil => simp
  | cons kid kids ih =>
    rw [List.foldl_cons]
    by_cases hlive : (d.tree.isTrashed kid.2 || d.tree.isLimbo kid.2) = true
    · rw [compactKid, if_pos hlive, List.filter_cons_of_neg (by simp [hlive])]
      exact ih out queue
    · have hkid : d.compactKid parent (out, queue) kid =
          (d.emit out (kid.2, ⟨parent, kid.1, d.tree.kindOf kid.2⟩),
            if d.tree.kindOf kid.2 = .dir then queue ++ [kid.2] else queue) := by
        rw [compactKid, if_neg hlive, emit, recordOps]
        cases d.content[kid.2]? <;> rfl
      rw [hkid, ih, List.filter_cons_of_pos (by simp [hlive])]
      by_cases hdir : d.tree.kindOf kid.2 = .dir <;> simp [hdir]

/-- The loop is the fold of `emit` over the nodes of the breadth-first order. -/
theorem compactLoop_eq (d : Drive) (k : ℕ) (queue : List NodeId) (out : Compaction) :
    d.compactLoop k queue out = ((bfs d.liveDirs k queue).flatMap d.visitsOf).foldl d.emit out := by
  induction k generalizing queue out with
  | zero => rfl
  | succ k ih =>
    cases queue with
    | nil => rfl
    | cons parent queue =>
      rw [compactLoop, foldl_compactKid, ih, bfs, List.flatMap_cons, List.foldl_append]
      rfl

theorem compacted_eq_foldl (d : Drive) : d.compacted = d.visits.foldl d.emit ⟨0, [], []⟩ :=
  d.compactLoop_eq _ _ _

/-! ## The nodes visited -/

theorem mem_sortedKids : (name, c) ∈ d.sortedKids p ↔ (name, c) ∈ d.tree.rawChildren p := by
  rw [sortedKids, List.mem_insertionSort]

theorem mem_liveKids : (name, c) ∈ d.liveKids p ↔
    (name, c) ∈ d.tree.rawChildren p ∧ d.tree.isTrashed c = false ∧ d.tree.isLimbo c = false := by
  rw [liveKids, List.mem_filter, mem_sortedKids]
  simp

/-- Compaction takes the children as they come : they are sorted already. -/
theorem ascending_liveKids (d : Drive) (p : NodeId) : Ascending toLex (d.liveKids p) := by
  have h := DriveTree.ascending_rawChildren d.tree p
  rw [liveKids, sortedKids, h.insertionSort_eq]
  exact h.sublist List.filter_sublist

section

variable (hm : d.tree.Mirror)
include hm

theorem nodup_map_liveKids (p : NodeId) : ((d.liveKids p).map Prod.snd).Nodup := by
  refine (d.ascending_liveKids p).nodup.map_on ?_
  rintro ⟨name, c⟩ hc ⟨name', c'⟩ hc' rfl
  rw [(hm.name_unique (mem_liveKids.1 hc).1 (mem_liveKids.1 hc').1).1]

theorem mem_liveDirs : c ∈ d.liveDirs p ↔ ∃ e, d.tree.edges[c]? = some e ∧ e.parent = p ∧
    d.tree.isTrashed c = false ∧ d.tree.isLimbo c = false ∧ d.tree.kindOf c = .dir := by
  rw [liveDirs, List.mem_map]
  constructor
  · rintro ⟨⟨name, c⟩, hc, rfl⟩
    obtain ⟨hkid, hdir⟩ := List.mem_filter.1 hc
    obtain ⟨hraw, htr, hl⟩ := mem_liveKids.1 hkid
    obtain ⟨e, he, hp, -⟩ := hm.mem_rawChildren.1 hraw
    exact ⟨e, he, hp, htr, hl, by simpa using hdir⟩
  · rintro ⟨e, he, hp, htr, hl, hdir⟩
    refine ⟨(e.name, c), List.mem_filter.2 ⟨mem_liveKids.2 ⟨?_, htr, hl⟩, by simpa using hdir⟩, rfl⟩
    exact hm.mem_rawChildren.2 ⟨e, he, hp, rfl⟩

theorem downward_liveDirs : Downward d.tree.parentOf d.liveDirs where
  up p c hc := by
    obtain ⟨e, he, rfl, -⟩ := (mem_liveDirs hm).1 hc
    exact DriveTree.parentOf_of_edge he
  nodup p := (nodup_map_liveKids hm p).sublist (List.filter_sublist.map _)

variable (hg : d.tree.Grounded)
include hg

/-- The bound of the loop is enough : when it ends nothing waits in the queue. -/
theorem front_dirOrder : Front d.tree.parentOf d.liveDirs ROOT d.dirOrder [] :=
  front_bfs hg (downward_liveDirs hm) DriveTree.mem_keys_of_parentOf
    (Nat.lt_succ_of_le d.tree.card_keys_le) ROOT

theorem mem_dirOrder :
    p ∈ d.dirOrder ↔ p = ROOT ∨ d.tree.Kept p ∧ d.tree.kindOf p = .dir := by
  have hfront := front_dirOrder hm hg
  constructor
  · intro hp
    have hreach := hfront.reaches p (by simpa using hp)
    induction hreach using Relation.ReflTransGen.head_induction_on with
    | refl => exact Or.inl rfl
    | @head p q hpq _ ih =>
      refine or_iff_not_imp_left.2 fun hne => ?_
      obtain ⟨y, hy, hpy⟩ := (hfront.found p (by simpa using hp)).resolve_left hne
      obtain ⟨e, he, rfl, htr, hl, hdir⟩ := (mem_liveDirs hm).1 hpy
      obtain rfl := hpq.unique (DriveTree.parentOf_of_edge he)
      exact ⟨(hg.kept_iff_of_edge he hne).2 ⟨htr, hl, ih hy⟩, hdir⟩
  · rintro (rfl | ⟨hk, hdir⟩)
    · exact List.mem_cons_self
    · have hreach := hk.reaches
      induction hreach using Relation.ReflTransGen.head_induction_on with
      | refl => exact absurd rfl hk.ne_root
      | @head p q hpq _ ih =>
        obtain ⟨e, he, rfl⟩ := DriveTree.parentOf_eq_some.1 hpq
        obtain ⟨htr, hl, hq⟩ := (hg.kept_iff_of_edge he hk.ne_root).1 hk
        have hqmem : e.parent ∈ d.dirOrder := by
          rcases hq with hq | hq
          · rw [hq]
            exact List.mem_cons_self
          · exact ih hq.1 hq.2
        have hmem := hfront.closed _ hqmem p ((mem_liveDirs hm).2 ⟨e, he, rfl, htr, hl, hdir⟩)
        simpa using hmem

/-- Compaction emits the kept nodes, with their edges. -/
theorem mem_visits : (c, e) ∈ d.visits ↔ d.tree.edges[c]? = some e ∧ d.tree.Kept c := by
  have hmem : (c, e) ∈ d.visits ↔ e.parent ∈ d.dirOrder ∧ d.tree.edges[c]? = some e ∧
      d.tree.isTrashed c = false ∧ d.tree.isLimbo c = false := by
    rw [visits, List.mem_flatMap]
    constructor
    · rintro ⟨p, hp, hv⟩
      obtain ⟨⟨name, c'⟩, hkid, heq⟩ := List.mem_map.1 hv
      obtain ⟨rfl, rfl⟩ := Prod.mk.inj heq
      obtain ⟨hraw, htr, hl⟩ := mem_liveKids.1 hkid
      obtain ⟨e, he, rfl, rfl⟩ := hm.mem_rawChildren.1 hraw
      exact ⟨hp, by rw [he, DriveTree.kindOf_of_edge he], htr, hl⟩
    · rintro ⟨hp, he, htr, hl⟩
      refine ⟨e.parent, hp, List.mem_map.2 ⟨(e.name, c), mem_liveKids.2 ⟨?_, htr, hl⟩, ?_⟩⟩
      · exact hm.mem_rawChildren.2 ⟨e, he, rfl, rfl⟩
      · rw [DriveTree.kindOf_of_edge he]
  rw [hmem, mem_dirOrder hm hg]
  constructor
  · rintro ⟨hp, he, htr, hl⟩
    refine ⟨he, (hg.kept_iff_of_edge he ?_).2 ⟨htr, hl, hp⟩⟩
    rintro rfl
    have hup : Up d.tree.parentOf ROOT e.parent := DriveTree.parentOf_of_edge he
    refine Acyclic.not_reaches_of_up hg hup ?_
    rcases hp with hp | hp
    · rw [hp]
    · exact hp.1.reaches
  · rintro ⟨he, hk⟩
    obtain ⟨htr, hl, hp⟩ := (hg.kept_iff_of_edge he hk.ne_root).1 hk
    exact ⟨hp, he, htr, hl⟩

/-- No node is emitted twice. -/
theorem nodup_visits : (d.visits.map Prod.fst).Nodup := by
  have hmap : d.visits.map Prod.fst = d.dirOrder.flatMap fun p => (d.liveKids p).map Prod.snd := by
    simp [visits, visitsOf, List.map_flatMap, Function.comp_def]
  have hnodup : d.dirOrder.Nodup := by simpa using (front_dirOrder hm hg).nodup
  rw [hmap, List.nodup_flatMap]
  refine ⟨fun p _ => nodup_map_liveKids hm p, hnodup.imp fun {p q} hpq => ?_⟩
  intro c hc hc'
  obtain ⟨⟨name, c⟩, hkid, rfl⟩ := List.mem_map.1 hc
  obtain ⟨⟨name', c⟩, hkid', rfl⟩ := List.mem_map.1 hc'
  exact hpq (hm.name_unique (mem_liveKids.1 hkid).1 (mem_liveKids.1 hkid').1).2

end

/-! ## The logs emitted -/

/-- The number of operations emitted for a node. -/
def weight (d : Drive) (v : NodeId × Edge) : ℕ :=
  (d.recordOps v.1).length + 1

theorem lamport_foldl_pushContent (r : ReplicaId) (ops : List ContentOp) (out : Compaction) :
    (ops.foldl (Compaction.pushContent r) out).lamport = out.lamport + ops.length := by
  induction ops generalizing out with
  | nil => rfl
  | cons op ops ih =>
    rw [List.foldl_cons, ih, List.length_cons, add_comm ops.length, ← add_assoc]
    rfl

theorem moves_foldl_pushContent (r : ReplicaId) (ops : List ContentOp) (out : Compaction) :
    (ops.foldl (Compaction.pushContent r) out).moves = out.moves := by
  induction ops generalizing out with
  | nil => rfl
  | cons op ops ih => exact ih _

theorem content_foldl_pushContent (r : ReplicaId) (ops : List ContentOp) (out : Compaction) :
    (ops.foldl (Compaction.pushContent r) out).content.map StampedContentOp.op =
      out.content.map StampedContentOp.op ++ ops := by
  induction ops generalizing out with
  | nil => simp
  | cons op ops ih => simp [ih, Compaction.pushContent]

/-- The move emitted for a node when the clock is at `lamport`. -/
def moveAt (d : Drive) (lamport : ℕ) (v : NodeId × Edge) : MoveOp :=
  ⟨⟨lamport + 1, d.state.replica⟩, v.1, v.2.parent, v.2.name, v.2.kind⟩

theorem moves_emit (d : Drive) (out : Compaction) (v : NodeId × Edge) :
    (d.emit out v).moves = out.moves ++ [d.moveAt out.lamport v] := by
  rw [emit, moves_foldl_pushContent]
  rfl

theorem lamport_emit (d : Drive) (out : Compaction) (v : NodeId × Edge) :
    (d.emit out v).lamport = out.lamport + d.weight v := by
  rw [emit, lamport_foldl_pushContent, weight, add_comm (d.recordOps v.1).length, ← add_assoc]
  rfl

theorem lamport_foldl_emit (d : Drive) (vs : List (NodeId × Edge)) (out : Compaction) :
    (vs.foldl d.emit out).lamport = out.lamport + (vs.map d.weight).sum := by
  induction vs generalizing out with
  | nil => rfl
  | cons v vs ih => rw [List.foldl_cons, ih, lamport_emit, List.map_cons, List.sum_cons, add_assoc]

/-- Each node is stamped after the operations of the nodes before it. -/
theorem mem_moves_foldl_emit {d : Drive} {vs : List (NodeId × Edge)} {out : Compaction} {op : MoveOp} :
    op ∈ (vs.foldl d.emit out).moves ↔ op ∈ out.moves ∨
      ∃ pre v post, vs = pre ++ v :: post ∧ op = d.moveAt (out.lamport + (pre.map d.weight).sum) v := by
  induction vs using List.reverseRecOn with
  | nil => simp
  | append_singleton vs v ih =>
    rw [List.foldl_append, List.foldl_cons, List.foldl_nil, moves_emit, List.mem_append, ih,
      List.mem_singleton, lamport_foldl_emit, or_assoc]
    refine or_congr_right ⟨?_, ?_⟩
    · rintro (⟨pre, w, post, rfl, rfl⟩ | rfl)
      · exact ⟨pre, w, post ++ [v], by simp, rfl⟩
      · exact ⟨vs, v, [], rfl, rfl⟩
    · rintro ⟨pre, w, post, heq, rfl⟩
      rcases List.eq_nil_or_concat post with rfl | ⟨post', y, rfl⟩
      · obtain ⟨rfl, hv⟩ := List.append_inj' heq rfl
        exact Or.inr (by rw [List.singleton_inj.1 hv])
      · have heq' : vs ++ [v] = (pre ++ w :: post') ++ [y] := by simpa using heq
        obtain ⟨rfl, -⟩ := List.append_inj' heq' rfl
        exact Or.inl ⟨pre, w, post', rfl, rfl⟩

theorem map_moves_foldl_emit (d : Drive) (vs : List (NodeId × Edge)) (out : Compaction) :
    (vs.foldl d.emit out).moves.map (fun op => (op.child, op.edge)) =
      out.moves.map (fun op => (op.child, op.edge)) ++ vs := by
  induction vs generalizing out with
  | nil => simp
  | cons v vs ih =>
    rw [List.foldl_cons, ih, moves_emit]
    simp [moveAt, MoveOp.edge]

theorem map_content_foldl_emit (d : Drive) (vs : List (NodeId × Edge)) (out : Compaction) :
    (vs.foldl d.emit out).content.map StampedContentOp.op =
      out.content.map StampedContentOp.op ++ vs.flatMap fun v => d.recordOps v.1 := by
  induction vs generalizing out with
  | nil => simp
  | cons v vs ih =>
    rw [List.foldl_cons, ih, emit, content_foldl_pushContent, List.flatMap_cons, List.append_assoc]
    rfl

/-- Both logs ascend and stay below the clock. -/
structure Compaction.Stamped (out : Compaction) : Prop where
  moves : Ascending MoveOp.ts out.moves
  content : Ascending StampedContentOp.ts out.content
  move_le : ∀ op ∈ out.moves, op.ts.lamport ≤ out.lamport
  content_le : ∀ s ∈ out.content, s.ts.lamport ≤ out.lamport

theorem Compaction.Stamped.pushMove {out : Compaction} (h : out.Stamped) (r : ReplicaId)
    (child newParent : NodeId) (newName : String) (kind : NodeKind) :
    (out.pushMove r child newParent newName kind).Stamped where
  moves := h.moves.append_singleton fun op hop =>
    Timestamp.lt_of_lamport_lt (Nat.lt_succ_of_le (h.move_le op hop))
  content := h.content
  move_le := by
    intro op hop
    rcases List.mem_append.1 hop with hop | hop
    · exact (h.move_le op hop).trans (Nat.le_succ _)
    · rw [List.mem_singleton.1 hop]
      exact le_rfl
  content_le s hs := (h.content_le s hs).trans (Nat.le_succ _)

theorem Compaction.Stamped.pushContent {out : Compaction} (h : out.Stamped) (r : ReplicaId)
    (op : ContentOp) : (out.pushContent r op).Stamped where
  moves := h.moves
  content := h.content.append_singleton fun s hs =>
    Timestamp.lt_of_lamport_lt (Nat.lt_succ_of_le (h.content_le s hs))
  move_le op hop := (h.move_le op hop).trans (Nat.le_succ _)
  content_le := by
    intro s hs
    rcases List.mem_append.1 hs with hs | hs
    · exact (h.content_le s hs).trans (Nat.le_succ _)
    · rw [List.mem_singleton.1 hs]
      exact le_rfl

theorem Compaction.Stamped.foldl_emit {out : Compaction} (h : out.Stamped) (d : Drive)
    (vs : List (NodeId × Edge)) : (vs.foldl d.emit out).Stamped := by
  refine List.foldlRecOn (motive := Stamped) vs d.emit h fun out h v _ => ?_
  exact List.foldlRecOn (motive := Stamped) _ _ (h.pushMove ..) fun out h op _ => h.pushContent _ op

theorem stamped_compacted (d : Drive) : d.compacted.Stamped := by
  rw [compacted_eq_foldl]
  refine Compaction.Stamped.foldl_emit ⟨?_, ?_, ?_, ?_⟩ d d.visits
  all_goals simp [Ascending]

/-- Compaction stamps with the drive's own replica id. -/
theorem replica_of_mem_compacted (d : Drive) {op : MoveOp} (hop : op ∈ d.compacted.moves) :
    op.ts.replica = d.state.replica := by
  let Own (out : Compaction) : Prop := ∀ op ∈ out.moves, op.ts.replica = d.state.replica
  have hall : Own d.compacted := by
    rw [compacted_eq_foldl]
    refine List.foldlRecOn (motive := Own) _ _ (by simp [Own]) fun out h v _ => ?_
    refine List.foldlRecOn (motive := Own) _ _ (fun op hop => ?_) fun out h op _ => h
    rcases List.mem_append.1 hop with hop | hop
    · exact h op hop
    · rw [List.mem_singleton.1 hop]
  exact hall op hop

end Drive

end CeDrive
