import CeDrive.Convergence
import CeDrive.Lookup
import Mathlib.Data.Finset.Max

/-!
# The move that placed a node

A move that the cycle check skips places nothing. `placements` are the moves of the log that
are not skipped when it is replayed, and the last of them for a node set its edge
(`Replayed.exists_placement`). A listing ranks children by their last logged move instead,
skipped or not, and `readdir_bareName_iff` says when that is the same.
-/

open Std (ExtTreeMap)
open SortedLog

namespace CeDrive

namespace DriveTree

variable {t : DriveTree} {p c n : NodeId} {b : String} {op : MoveOp} {e : Edge}

/-- The moves of a log that are not skipped when it is performed on `t`. -/
def effective (t : DriveTree) : List MoveOp → List MoveOp
  | [] => []
  | op :: log =>
    if t.Skips op then effective (t.doPush op) log else op :: effective (t.doPush op) log

/-- The moves of the log that took effect. -/
def placements (t : DriveTree) : List MoveOp :=
  effective new t.logOps

/-- Timestamp of the move that placed a node. -/
def placedTs (t : DriveTree) (node : NodeId) : Timestamp :=
  ((t.placements.reverse.find? fun op => op.child = node).map MoveOp.ts).getD ⟨0, ""⟩

theorem effective_append_singleton (t : DriveTree) (log : List MoveOp) (op : MoveOp) :
    effective t (log ++ [op]) =
      effective t log ++ if (log.foldl doPush t).Skips op then [] else [op] := by
  induction log generalizing t with
  | nil => rfl
  | cons o log ih =>
    rw [List.cons_append, effective, effective, ih, List.foldl_cons]
    split_ifs <;> simp

theorem effective_sublist (t : DriveTree) (log : List MoveOp) : (effective t log).Sublist log := by
  induction log generalizing t with
  | nil => exact List.Sublist.refl _
  | cons op log ih =>
    rw [effective]
    split_ifs
    · exact (ih _).cons op
    · exact (ih _).cons_cons op

/-- The last effective move of a node set its edge. -/
theorem getElem?_edges_foldl_doPush (log : List MoveOp) (n : NodeId) :
    (log.foldl doPush new).edges[n]? =
      ((effective new log).reverse.find? fun op => op.child = n).map MoveOp.edge := by
  induction log using List.reverseRecOn with
  | nil => simp [effective, new]
  | append_singleton log op ih =>
    have hpush : ((log ++ [op]).foldl doPush new).edges =
        ((log.foldl doPush new).doMove op).2.edges := by
      rw [List.foldl_append]
      rfl
    rw [hpush, effective_append_singleton, List.reverse_append]
    by_cases hs : (log.foldl doPush new).Skips op
    · rw [if_pos hs, doMove_of_skips hs, ih]
      rfl
    · rw [if_neg hs, List.reverse_singleton, List.singleton_append, List.find?_cons]
      by_cases hn : op.child = n
      · subst hn
        simpa using getElem?_edges_doMove_self hs
      · simpa [hn] using (getElem?_edges_doMove_of_ne hn).trans ih

theorem mem_logOps_of_mem_placements (h : op ∈ t.placements) : op ∈ t.logOps :=
  (effective_sublist new t.logOps).subset h

theorem Replayed.ascending_placements (h : t.Replayed) : Ascending MoveOp.ts t.placements :=
  h.ascending.sublist (effective_sublist new t.logOps)

/-- The edge of a node was set by its last move that took effect. -/
theorem Replayed.exists_placement (h : t.Replayed) (he : t.edges[c]? = some e) :
    ∃ op ∈ t.placements, op.child = c ∧ op.edge = e ∧ op.ts = t.placedTs c ∧
      ∀ o ∈ t.placements, o.child = c → o.ts ≤ op.ts := by
  rw [h.alike_foldl_doPush.view.1, getElem?_edges_foldl_doPush] at he
  obtain ⟨op, hfind, hedge⟩ := Option.map_eq_some_iff.1 he
  have hlast := h.ascending_placements.find?_reverse_eq_some.1 hfind
  refine ⟨op, hlast.1, of_decide_eq_true hlast.2.1, hedge, ?_, fun o ho hc =>
    hlast.2.2 o ho (decide_eq_true hc)⟩
  rw [placedTs, placements, hfind]
  rfl

/-- A logged move of a node is not later than its stamp. -/
theorem Replayed.le_definingTs (h : t.Replayed) (hop : op ∈ t.logOps) :
    op.ts ≤ t.definingTs op.child := by
  rw [definingTs_eq]
  cases hf : t.logOps.reverse.find? fun o => o.child = op.child with
  | none => exact absurd (decide_eq_true rfl) (List.find?_eq_none.1 hf op (List.mem_reverse.2 hop))
  | some o => exact (h.ascending.find?_reverse_eq_some.1 hf).2.2 op hop (decide_eq_true rfl)

theorem Replayed.placedTs_le (h : t.Replayed) (hc : t.Called p b c) :
    t.placedTs c ≤ t.definingTs c := by
  obtain ⟨⟨e, he, -⟩, -⟩ := h.mirror.called_iff.1 hc
  obtain ⟨op, hop, rfl, -, hts, -⟩ := h.exists_placement he
  rw [← hts]
  exact h.le_definingTs (mem_logOps_of_mem_placements hop)

/-- Some child of a bare name was placed last. -/
theorem exists_placed_last (hc : t.Called p b c) :
    ∃ m, t.Called p b m ∧ ∀ m', t.Called p b m' → t.placedTs m' ≤ t.placedTs m := by
  obtain ⟨m, hm, hmax⟩ := Finset.exists_max_image (groupOf (t.shownChildren p) b).toFinset t.placedTs
    ⟨c, List.mem_toFinset.2 (mem_groupOf.2 hc)⟩
  exact ⟨m, mem_groupOf.1 (List.mem_toFinset.1 hm), fun m' hm' =>
    hmax m' (List.mem_toFinset.2 (mem_groupOf.2 hm'))⟩

/-- Of the shown children of one bare name the one moved last is listed under it. -/
theorem Replayed.lists_bareName_iff (h : t.Replayed) (hc : t.Called p b c) :
    t.Lists p b c ↔ ∀ m, t.Called p b m → t.definingTs m ≤ t.definingTs c := by
  refine ⟨fun hl m hm => h.definingTs_le hl hc hm, fun hmax => ?_⟩
  exact (h.lists_iff_of_called hc).2 (Or.inl ⟨hmax, rfl⟩)

/-- Bare names and placements. After any deliveries, and for the shown children of one
directory that share a bare name : exactly the child placed last is listed under it, if and
only if for that child every skipped move of one of them is followed by, or is, a logged move
of the child itself. -/
theorem readdir_bareName_iff (ops : List MoveOp) (p : NodeId) (b : String) :
    let t := applyAll ops
    (∀ c, t.Called p b c →
        (t.Lists p b c ↔ ∀ m, t.Called p b m → t.placedTs m ≤ t.placedTs c)) ↔
      ∀ c, t.Called p b c → (∀ m, t.Called p b m → t.placedTs m ≤ t.placedTs c) →
        ∀ op ∈ t.logOps, op ∉ t.placements → t.Called p b op.child →
          ∃ o ∈ t.logOps, o.child = c ∧ op.ts ≤ o.ts := by
  intro t
  have h : t.Replayed := replayed_applyAll ops
  constructor
  · intro hnamed c hc hmax op hop _ hm
    have hle := h.definingTs_le ((hnamed c hc).2 hmax) hc hm
    obtain ⟨⟨e, he, -⟩, -⟩ := h.mirror.called_iff.1 hc
    obtain ⟨o, ho, hchild, hts⟩ := h.exists_op_of_definingTs he
    exact ⟨o, ho, hchild, hts ▸ (h.le_definingTs hop).trans hle⟩
  · intro hcond
    have hlast : ∀ c, t.Called p b c → (∀ m, t.Called p b m → t.placedTs m ≤ t.placedTs c) →
        t.Lists p b c := by
      intro c hc hmax
      refine (h.lists_bareName_iff hc).2 fun m hm => ?_
      obtain ⟨⟨e, he, -⟩, -⟩ := h.mirror.called_iff.1 hm
      obtain ⟨op, hop, rfl, hts⟩ := h.exists_op_of_definingTs he
      rw [← hts]
      by_cases hplaced : op ∈ t.placements
      · obtain ⟨o, -, -, -, ho, hlast⟩ := h.exists_placement he
        calc op.ts ≤ o.ts := hlast op hplaced rfl
          _ = t.placedTs op.child := ho
          _ ≤ t.placedTs c := hmax _ hm
          _ ≤ t.definingTs c := h.placedTs_le hc
      · obtain ⟨o, ho, rfl, hle⟩ := hcond c hc hmax op hop hplaced hm
        exact hle.trans (h.le_definingTs ho)
    intro c hc
    refine ⟨fun hl => ?_, hlast c hc⟩
    obtain ⟨m, hm, hmax⟩ := exists_placed_last hc
    have hle := h.definingTs_le hl hc hm
    have hge := h.definingTs_le (hlast m hm hmax) hm hc
    rwa [h.eq_of_definingTs_eq hc hm (le_antisymm hge hle)]

/-- Two directories named `x`. The one placed first is then moved below its own child, which is
skipped, and takes the bare name. -/
theorem readdir_bareName_skipped :
    let t := applyAll [⟨⟨1, "r"⟩, "A", ROOT, "x", .dir⟩, ⟨⟨2, "r"⟩, "B", ROOT, "x", .dir⟩,
      ⟨⟨3, "r"⟩, "C", "A", "y", .dir⟩, ⟨⟨4, "r"⟩, "A", "C", "x", .dir⟩]
    t.placedTs "A" < t.placedTs "B" ∧ t.lookupChild ROOT "x" = some "A" ∧
      ¬∀ c, t.Called ROOT "x" c →
        (t.Lists ROOT "x" c ↔ ∀ m, t.Called ROOT "x" m → t.placedTs m ≤ t.placedTs c) := by
  intro t
  have hA : ("x", "A") ∈ t.shownChildren ROOT := by decide +kernel
  have hB : ("x", "B") ∈ t.shownChildren ROOT := by decide +kernel
  have hlt : t.placedTs "A" < t.placedTs "B" := by decide +kernel
  have hl : t.lookupChild ROOT "x" = some "A" := by decide +kernel
  refine ⟨hlt, hl, fun h => ?_⟩
  exact absurd ((h "A" hA).1 (lists_of_lookupChild hl) "B" hB) (not_le_of_gt hlt)

end DriveTree

end CeDrive
