import CeDrive.DriveRun

/-!
# The tree after compaction

Every move that compaction emits sets an edge the live tree has. A set of moves that agree
with an acyclic tree is never skipped, in whatever order it is performed
(`edges_foldl_doPush_of_agree`), so the compacted tree is the live tree restricted to the
kept nodes (`getElem?_edges_compact`). Each kept node is stamped once, by its place in the
breadth-first order (`definingTs_compact`).
-/

open Std SortedLog Forest

namespace CeDrive

namespace DriveTree

variable {t t' : DriveTree} {n c : NodeId} {e : Edge}

/-- Moves that set edges of an acyclic tree are all performed. -/
theorem edges_foldl_doPush_of_agree (hg : t.Grounded) {ops : List MoveOp}
    (hops : ∀ op ∈ ops, t.edges[op.child]? = some op.edge) :
    (ops.foldl doPush new).edges[n]? = some e ↔
      t.edges[n]? = some e ∧ ∃ op ∈ ops, op.child = n := by
  induction ops using List.reverseRecOn generalizing n e with
  | nil => simp [new]
  | append_singleton ops op ih =>
    have ih := fun {n e} => ih (n := n) (e := e) fun o ho => hops o (List.mem_append_left _ ho)
    have hop := hops op (by simp)
    set s := ops.foldl doPush new
    have hs : s.Grounded := (grounded_new.run ops).congr (foldl_doPush new ops).2.1.symm
    have hsub : Restricts s.parentOf t.parentOf := by
      intro x y hxy
      obtain ⟨e, he, rfl⟩ := parentOf_eq_some.1 hxy
      exact parentOf_of_edge (ih.1 he).1
    have hkeep : ¬Reaches s.parentOf op.newParent op.child := fun hr =>
      Acyclic.not_reaches_of_up hg (parentOf_of_edge hop) (hsub.reaches hr)
    rw [List.foldl_append, List.foldl_cons, List.foldl_nil]
    classical
    rw [hs.edges_doPush, if_neg hkeep, ExtTreeMap.getElem?_insert]
    by_cases hn : op.child = n
    · subst hn
      rw [if_pos ReflCmp.compare_self, hop, iff_self_and]
      exact fun _ => ⟨op, by simp, rfl⟩
    · rw [if_neg (mt LawfulEqCmp.compare_eq_iff_eq.1 hn), ih]
      simp [or_and_right, exists_or, hn]

end DriveTree

namespace Drive

variable {d : Drive} {n c p : NodeId} {e : Edge}

/-- The log of the compacted tree is the log compaction emits. -/
theorem logOps_compact (d : Drive) : d.compact.tree.logOps = d.compacted.moves := by
  have htree : d.compact.tree = DriveTree.applyAll d.compacted.moves := rfl
  rw [htree, DriveTree.logOps_applyAll]
  exact deliverAll_eq_of_mem_iff d.stamped_compacted.moves fun _ => Iff.rfl

theorem map_moves_compacted (d : Drive) :
    d.compacted.moves.map (fun op => (op.child, op.edge)) = d.visits := by
  rw [compacted_eq_foldl, map_moves_foldl_emit, List.map_nil, List.nil_append]

theorem mem_visits_iff {v : NodeId × Edge} :
    v ∈ d.visits ↔ ∃ op ∈ d.compacted.moves, (op.child, op.edge) = v := by
  rw [← d.map_moves_compacted, List.mem_map]

/-- Compaction emits the edges of the kept nodes. -/
theorem Inv.edge_of_mem_compacted (h : d.Inv) {op : MoveOp} (hop : op ∈ d.compacted.moves) :
    d.tree.edges[op.child]? = some op.edge ∧ d.tree.Kept op.child :=
  (mem_visits h.replayed.mirror h.replayed.grounded).1 (mem_visits_iff.2 ⟨op, hop, rfl⟩)

/-- The compacted tree is the live tree restricted to the kept nodes. -/
theorem Inv.getElem?_edges_compact (h : d.Inv) :
    d.compact.tree.edges[n]? = some e ↔ d.tree.edges[n]? = some e ∧ d.tree.Kept n := by
  rw [(inv_compact d).replayed.alike_foldl_doPush.view.1, logOps_compact,
    DriveTree.edges_foldl_doPush_of_agree h.replayed.grounded fun op hop =>
      (h.edge_of_mem_compacted hop).1]
  refine and_congr_right fun he => ?_
  constructor
  · rintro ⟨op, hop, rfl⟩
    exact (h.edge_of_mem_compacted hop).2
  · intro hk
    obtain ⟨op, hop, heq⟩ :=
      mem_visits_iff.1 ((mem_visits h.replayed.mirror h.replayed.grounded).2 ⟨he, hk⟩)
    exact ⟨op, hop, congrArg Prod.fst heq⟩

theorem Inv.parentOf_compact (h : d.Inv) : d.compact.tree.parentOf n = some p ↔
    d.tree.parentOf n = some p ∧ d.tree.Kept n := by
  simp only [DriveTree.parentOf_eq_some, h.getElem?_edges_compact]
  constructor
  · rintro ⟨e, ⟨he, hk⟩, hp⟩
    exact ⟨⟨e, he, hp⟩, hk⟩
  · rintro ⟨⟨e, he, hp⟩, hk⟩
    exact ⟨e, ⟨he, hk⟩, hp⟩

theorem Inv.restricts_compact (h : d.Inv) : Restricts d.compact.tree.parentOf d.tree.parentOf :=
  fun _ _ hxy => (h.parentOf_compact.1 hxy).1

theorem Inv.kindOf_compact (h : d.Inv) (hk : d.tree.Kept n) :
    d.compact.tree.kindOf n = d.tree.kindOf n := by
  obtain ⟨e, he⟩ := hk.exists_edge
  rw [DriveTree.kindOf_of_edge he, DriveTree.kindOf_of_edge (h.getElem?_edges_compact.2 ⟨he, hk⟩)]

/-! ## Stamps -/

/-- The tick a kept node is stamped with : one more than the number of operations emitted for
the nodes before it. -/
def restamp (d : Drive) (n : NodeId) : ℕ :=
  ((d.visits.takeWhile fun v => v.1 ≠ n).map d.weight).sum + 1

theorem takeWhile_eq_of_nodup {α β : Type*} [DecidableEq β] {f : α → β} {l pre post : List α}
    {x : α} (hl : (l.map f).Nodup) (heq : l = pre ++ x :: post) :
    l.takeWhile (fun y => f y ≠ f x) = pre := by
  subst heq
  rw [List.map_append, List.map_cons, List.nodup_append] at hl
  have hpre : ∀ y ∈ pre, f y ≠ f x := fun y hy => hl.2.2 _ (List.mem_map_of_mem hy) _ (by simp)
  rw [List.takeWhile_append_of_pos (by simpa using hpre)]
  simp

/-- A node before `v` in the order of compaction. -/
theorem Inv.restamp_eq (h : d.Inv) {pre post : List (NodeId × Edge)} {v : NodeId × Edge}
    (heq : d.visits = pre ++ v :: post) : d.restamp v.1 = (pre.map d.weight).sum + 1 := by
  rw [restamp, takeWhile_eq_of_nodup (nodup_visits h.replayed.mirror h.replayed.grounded) heq]

/-- The stamps ascend along the order of compaction. -/
theorem Inv.restamp_lt (h : d.Inv) {pre mid post : List (NodeId × Edge)} {v w : NodeId × Edge}
    (heq : d.visits = pre ++ v :: (mid ++ w :: post)) : d.restamp v.1 < d.restamp w.1 := by
  have heq' : d.visits = (pre ++ v :: mid) ++ w :: post := by simp [heq]
  rw [h.restamp_eq heq, h.restamp_eq heq', List.map_append, List.map_cons, List.sum_append,
    List.sum_cons, weight]
  omega

theorem Inv.definingTs_compact (h : d.Inv) (hk : d.tree.Kept n) :
    d.compact.tree.definingTs n = ⟨d.restamp n, d.state.replica⟩ := by
  obtain ⟨e, he⟩ := hk.exists_edge
  have hmem := (mem_visits h.replayed.mirror h.replayed.grounded).2 ⟨he, hk⟩
  obtain ⟨pre, post, heq⟩ := List.append_of_mem hmem
  have hmoves : ∀ op, op ∈ d.compact.tree.logOps ↔ ∃ pre v post, d.visits = pre ++ v :: post ∧
      op = d.moveAt (pre.map d.weight).sum v := by
    intro op
    rw [logOps_compact, compacted_eq_foldl, mem_moves_foldl_emit]
    simp
  have hop := (hmoves _).2 ⟨pre, (n, e), post, heq, rfl⟩
  have hts := DriveTree.definingTs_of_unique hop ?_
  · rw [h.restamp_eq (v := (n, e)) heq]
    exact hts
  · intro o ho hc
    have hnodup : (d.compact.tree.logOps.map MoveOp.child).Nodup := by
      have hmap : d.compact.tree.logOps.map MoveOp.child = d.visits.map Prod.fst := by
        rw [logOps_compact, ← d.map_moves_compacted, List.map_map]
        rfl
      rw [hmap]
      exact nodup_visits h.replayed.mirror h.replayed.grounded
    exact List.inj_on_of_nodup_map hnodup ho hop hc

end Drive

end CeDrive
