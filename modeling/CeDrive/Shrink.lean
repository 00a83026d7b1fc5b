import CeDrive.CompactContent
import CeDrive.Versions

/-!
# Compaction never grows the log

Compaction emits a move for each live node, and for its record one operation for each version,
one for the current content and one for the document. Each of these was paid for : the edge
of a node by a move of that node, the record by the operations on that node, none of which
adds more than one to what it costs (`cost_applyRecord_le`). Different nodes are paid for by
different operations (`sum_le_length_of_keys`), so the new log is no longer than the old one
(`opCount_compact_le`).
-/

open SortedLog

namespace CeDrive

/-- If each key costs no more than the elements with that key are, then together they cost no
more than the list is long. -/
theorem sum_le_length_of_keys {α β : Type*} [DecidableEq β] (key : α → β) {l : List α}
    {price : β → ℕ} {ks : List β} (hks : ks.Nodup)
    (hprice : ∀ k ∈ ks, price k ≤ (l.filter fun a => key a = k).length) :
    (ks.map price).sum ≤ l.length := by
  induction ks generalizing l with
  | nil => exact Nat.zero_le _
  | cons k ks ih =>
    obtain ⟨hk, hks⟩ := List.nodup_cons.1 hks
    have hrest : ∀ k' ∈ ks, price k' ≤
        ((l.filter fun a => !decide (key a = k)).filter fun a => key a = k').length := by
      intro k' hk'
      have hne : k' ≠ k := fun h => hk (h ▸ hk')
      have hfilter : ((l.filter fun a => !decide (key a = k)).filter fun a => key a = k') =
          l.filter fun a => key a = k' := by
        rw [List.filter_filter]
        exact List.filter_congr fun a _ => by grind
      exact hfilter ▸ hprice k' (List.mem_cons_of_mem _ hk')
    have hfirst := hprice k List.mem_cons_self
    have hothers := ih hks hrest
    have hsplit := List.length_eq_length_filter_add (fun a => decide (key a = k)) (l := l)
    rw [List.map_cons, List.sum_cons]
    omega

/-- What a record costs the log after compaction. -/
def cost : Option FileContent → ℕ
  | some c => c.versions.length + 1 + c.docId.toList.length
  | none => 0

namespace FileContent

variable {c : FileContent}

theorem length_versions_pushVersion_le (c : FileContent) (v : Version) :
    (c.pushVersion v).versions.length ≤ c.versions.length + 1 := by
  rw [versions_pushVersion_eq]
  exact Capped.length_push_le

theorem cost_record_le (c : FileContent) (cid : String) (size mtimeMs : ℕ) :
    cost (some (c.record cid size mtimeMs).2) ≤ cost (some c) + 1 := by
  have hpush := fun v => c.length_versions_pushVersion_le v
  unfold record
  split_ifs <;> simp only [cost, docId_pushVersion]
  all_goals grind

theorem cost_restore_le (c : FileContent) (cid : String) (nowMs : ℕ) :
    cost (some (c.restore cid nowMs).2) ≤ cost (some c) + 1 := by
  have hpush := fun v => c.length_versions_pushVersion_le v
  unfold restore
  split <;> simp only [cost, docId_pushVersion]
  all_goals grind

end FileContent

/-- An operation adds at most one to the cost of a record. -/
theorem cost_applyRecord_le (r : Option FileContent) (op : ContentOp) :
    cost (ContentMap.applyRecord r op) ≤ cost r + 1 := by
  cases op with
  | set id cid size mode mtimeMs =>
    cases r with
    | none => exact le_rfl
    | some c => exact FileContent.cost_record_le { c with mode := mode } cid size mtimeMs
  | restore id cid nowMs =>
    cases r with
    | none => exact Nat.zero_le _
    | some c => exact c.cost_restore_le cid nowMs
  | remove id => exact Nat.zero_le _
  | setDoc id docId =>
    cases r with
    | none => exact Nat.zero_le _
    | some c => simp [ContentMap.applyRecord, cost]

/-- A record costs no more than the operations on it are. -/
theorem cost_foldl_applyRecord_le (ops : List ContentOp) (r : Option FileContent) :
    cost (ops.foldl ContentMap.applyRecord r) ≤ cost r + ops.length := by
  induction ops generalizing r with
  | nil => exact le_rfl
  | cons op ops ih =>
    have hstep := cost_applyRecord_le r op
    have hrest := ih (ContentMap.applyRecord r op)
    rw [List.foldl_cons, List.length_cons]
    omega

namespace Drive

variable {d : Drive} {n : NodeId}

theorem length_recordOps (d : Drive) (n : NodeId) :
    (d.recordOps n).length = cost d.content[n]? := by
  unfold recordOps
  cases d.content[n]? with
  | none => rfl
  | some c =>
    simp only [historyOps, cost, List.length_append, List.length_map, List.length_cons]
    omega

/-- The record of a node is paid for by the operations on the node. -/
theorem Inv.length_recordOps_le (h : d.Inv) (n : NodeId) : (d.recordOps n).length ≤
    ((d.state.contentLog.map StampedContentOp.op).filter fun op => op.target = n).length := by
  rw [length_recordOps, h.getElem?_content, foldRecord]
  exact (cost_foldl_applyRecord_le _ none).trans_eq (Nat.zero_add _)

/-- An edge is paid for by a move of its node. -/
theorem Inv.one_le_length_moves (h : d.Inv) {e : Edge} (he : d.tree.edges[n]? = some e) :
    1 ≤ (d.state.moveLog.filter fun op => op.child = n).length := by
  obtain ⟨op, hop, hc, -⟩ := h.replayed.exists_op_of_edge he
  rw [h.tree, DriveTree.logOps_applyAll] at hop
  exact List.length_pos_of_mem
    (List.mem_filter.2 ⟨mem_of_mem_deliverAll hop, decide_eq_true hc⟩)

theorem length_moves_compacted (d : Drive) : d.compacted.moves.length = d.visits.length := by
  rw [← d.map_moves_compacted, List.length_map]

theorem length_content_compacted (d : Drive) : d.compacted.content.length =
    ((d.visits.map Prod.fst).map fun n => (d.recordOps n).length).sum := by
  rw [← List.length_map StampedContentOp.op, compacted_eq_foldl, map_content_foldl_emit,
    List.map_nil, List.nil_append, List.length_flatMap, List.map_map]
  rfl

theorem Inv.nodup_visits (h : d.Inv) : (d.visits.map Prod.fst).Nodup :=
  Drive.nodup_visits h.replayed.mirror h.replayed.grounded

theorem Inv.length_moves_compacted_le (h : d.Inv) :
    d.compacted.moves.length ≤ d.state.moveLog.length := by
  have hpaid : ((d.visits.map Prod.fst).map fun _ => 1).sum ≤ d.state.moveLog.length := by
    refine sum_le_length_of_keys MoveOp.child h.nodup_visits fun n hn => ?_
    obtain ⟨⟨n, e⟩, hv, rfl⟩ := List.mem_map.1 hn
    have he := ((mem_visits h.replayed.mirror h.replayed.grounded).1 hv).1
    exact h.one_le_length_moves he
  simpa [length_moves_compacted, Function.comp_def] using hpaid

theorem Inv.length_content_compacted_le (h : d.Inv) :
    d.compacted.content.length ≤ d.state.contentLog.length := by
  rw [length_content_compacted, ← List.length_map StampedContentOp.op]
  exact sum_le_length_of_keys ContentOp.target h.nodup_visits fun n _ => h.length_recordOps_le n

/-- Compaction never grows the log. -/
theorem opCount_compact_le (d : Drive) (h : d.Reachable) : d.compact.opCount ≤ d.opCount :=
  Nat.add_le_add h.inv.length_moves_compacted_le h.inv.length_content_compacted_le

/-- A file saved, and then renamed. -/
theorem opCount_compact_le_renamed :
    let d := ((init "d" "a").performAll [.exec 0 (.addFile "/" "f" (.new "c1" 1 0 100)),
      .exec 1 (.mv "/f" "/" "g")]).get (by decide +kernel)
    d.compact.opCount ≤ d.opCount := by
  intro d
  exact opCount_compact_le d ⟨"d", "a", _, (Option.some_get _).symm⟩

end Drive

end CeDrive
