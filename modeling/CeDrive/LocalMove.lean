import CeDrive.DriveRun
import CeDrive.Lookup

/-!
# One local move

`Moved` says what a local move does to the tree, whatever operation makes it : the node gets
its new edge unless that would put it under itself, and it is now the one stamped last. From
this follows what the listings show : the other children of a directory that is not below
the node are as before (`Moved.called_iff`), and a move within a directory leaves the
listings of all other directories (`Moved.lookupChild_of_parent`).
-/

open Std (ExtTreeMap)
open Forest

namespace CeDrive

namespace DriveTree

variable {t t' : DriveTree} {c m p x : NodeId} {b name r : String} {k : NodeKind}

/-! ## The move -/

/-- `t'` is `t` after a local move of `c`, which is later than all moves before. -/
structure Moved (t t' : DriveTree) (c p : NodeId) (name : String) (k : NodeKind) : Prop where
  replayed : t'.Replayed
  skipped : Reaches t.parentOf p c → t'.edges = t.edges
  placed : ¬Reaches t.parentOf p c → t'.edges = t.edges.insert c ⟨p, name, k⟩
  stamp : ∀ m, m ≠ c → t'.definingTs m = t.definingTs m
  latest : ∀ m, m ≠ c → t'.definingTs m < t'.definingTs c

theorem definingTs_doPush (t : DriveTree) (op : MoveOp) (n : NodeId) :
    (t.doPush op).definingTs n = if op.child = n then op.ts else t.definingTs n := by
  rw [definingTs, definingTs, doPush, List.reverse_append, List.reverse_singleton,
    List.singleton_append, List.find?_cons]
  by_cases hn : op.child = n <;> simp [hn]

theorem moved_of_inv {d : Drive} (h : d.Inv) (c p : NodeId) (name : String) (k : NodeKind) :
    Moved d.tree (d.moved c p name k).tree c p name k := by
  classical
  have hedges := h.replayed.grounded.edges_doPush ⟨d.nextTs, c, p, name, k⟩
  have hts := definingTs_doPush d.tree ⟨d.nextTs, c, p, name, k⟩
  rw [← h.tree_moved] at hedges hts
  have hlt : ∀ m, d.tree.definingTs m < d.nextTs := by
    intro m
    rw [definingTs_eq]
    cases hf : d.tree.logOps.reverse.find? fun o => o.child = m with
    | none => exact Timestamp.lt_of_lamport_lt (Nat.succ_pos _)
    | some o =>
      have ho := List.mem_reverse.1 (List.mem_of_find?_eq_some hf)
      rw [h.tree, logOps_applyAll] at ho
      exact Timestamp.lt_of_lamport_lt
        (Nat.lt_succ_of_le (h.move_le o (SortedLog.mem_of_mem_deliverAll ho)))
  refine ⟨(h.moved ..).replayed, fun hr => hedges.trans (if_pos hr),
    fun hr => hedges.trans (if_neg hr), fun m hm => ?_, fun m hm => ?_⟩
  · rw [hts, if_neg (Ne.symm hm)]
  · rw [hts, hts, if_neg (Ne.symm hm), if_pos rfl]
    exact hlt m

section

variable (h : Moved t t' c p name k)
include h

theorem Moved.edge_of_ne (hm : m ≠ c) : t'.edges[m]? = t.edges[m]? := by
  by_cases hr : Reaches t.parentOf p c
  · rw [h.skipped hr]
  · rw [h.placed hr, ExtTreeMap.getElem?_insert, if_neg (by simpa using Ne.symm hm)]

theorem Moved.edge_self (hr : ¬Reaches t.parentOf p c) : t'.edges[c]? = some ⟨p, name, k⟩ := by
  rw [h.placed hr, ExtTreeMap.getElem?_insert_self]

theorem Moved.parentOf_eq (hr : ¬Reaches t.parentOf p c) :
    t'.parentOf = Function.update t.parentOf c (some p) := by
  have hplace : t'.parentOf = (t.place c ⟨p, name, k⟩).parentOf := parentOf_congr (h.placed hr)
  rw [hplace, parentOf_place]

/-- A move within a directory leaves the parents as they are. -/
theorem Moved.parentOf_of_parent (hp : t.parentOf c = some p) : t'.parentOf = t.parentOf := by
  by_cases hr : Reaches t.parentOf p c
  · exact parentOf_congr (h.skipped hr)
  · rw [h.parentOf_eq hr, Function.update_eq_self_iff.2 hp.symm]

/-- A move to where the node is leaves all edges. -/
theorem Moved.edges_of_self (ht : t.Replayed) {e : Edge} (he : t.edges[c]? = some e)
    (hp : e.parent = p) (hname : e.name = name) (hk : k = t.kindOf c) (m : NodeId) :
    t'.edges[m]? = t.edges[m]? := by
  subst hp hname hk
  by_cases hm : m = c
  · rw [hm, h.edge_self (ht.grounded.not_reaches_of_up (parentOf_of_edge he)), he, kindOf, he]
    rfl
  · exact h.edge_of_ne hm

/-- Ancestors of a node that is not below `c` stay. -/
theorem Moved.reaches_iff (hx : ¬Reaches t.parentOf x c) :
    Reaches t'.parentOf x m ↔ Reaches t.parentOf x m := by
  by_cases hr : Reaches t.parentOf p c
  · rw [parentOf_congr (h.skipped hr)]
  · rw [h.parentOf_eq hr, reaches_update_of_not_reaches hx]

/-! ## What the listings show -/

/-- A directory that is not below the node moved shows the same other children. -/
theorem Moved.called_iff (ht : t.Replayed) (hx : ¬Reaches t.parentOf x c) (hm : m ≠ c) :
    t'.Called x b m ↔ t.Called x b m := by
  have hbelow : ∀ e, t.edges[m]? = some e → e.parent = x → ¬Reaches t.parentOf m c := by
    rintro e he rfl
    rw [reaches_iff_of_parent (parentOf_of_edge he)]
    exact not_or.2 ⟨Ne.symm hm, hx⟩
  exact called_iff_of_edge ht.mirror ht.grounded h.replayed.mirror h.replayed.grounded
    (h.edge_of_ne hm) fun e he hp => h.reaches_iff (hbelow e he hp)

/-- The node moved is shown in its new directory. -/
theorem Moved.called_self (ht : t.Replayed) (hr : ¬Reaches t.parentOf p c)
    (hp : t.isTrashed p = false) (hc : c ≠ TRASH) : t'.Called p name c := by
  have hedge := h.edge_self hr
  refine h.replayed.mirror.called_iff.2 ⟨⟨_, hedge, rfl, rfl⟩, Or.inr ?_⟩
  rw [← Bool.not_eq_true, isTrashed, ht.grounded.isAncestor_iff] at hp
  rw [← Bool.not_eq_true, isTrashed, h.replayed.grounded.isAncestor_iff,
    reaches_iff_of_parent (parentOf_of_edge hedge)]
  exact not_or.2 ⟨Ne.symm hc, fun hr' => hp ((h.reaches_iff hr).1 hr')⟩

/-- A move within a directory leaves the listings of all other directories. -/
theorem Moved.lookupChild_of_parent (ht : t.Replayed) (hp : t.parentOf c = some p) (hx : x ≠ p)
    (r : String) : t'.lookupChild x r = t.lookupChild x r := by
  have hparent := h.parentOf_of_parent hp
  have hne : ∀ {u : DriveTree} {b m}, u.Replayed → u.parentOf c = some p → u.Called x b m → m ≠ c := by
    rintro u b m hu hup hm rfl
    obtain ⟨⟨e, he, rfl, -⟩, -⟩ := hu.mirror.called_iff.1 hm
    exact hx (Up.unique (parentOf_of_edge he) hup)
  have hcalled : ∀ b m, t.Called x b m ↔ t'.Called x b m := by
    intro b m
    by_cases hm : m = c
    · exact iff_of_false (fun hc => hne ht hp hc hm)
        fun hc => hne h.replayed (hparent ▸ hp) hc hm
    · rw [h.replayed.mirror.called_iff, ht.mirror.called_iff, h.edge_of_ne hm, Shown, Shown,
        ← Bool.not_eq_true, ← Bool.not_eq_true, isTrashed, isTrashed,
        h.replayed.grounded.isAncestor_iff, ht.grounded.isAncestor_iff, hparent]
  refine (lookupChild_congr hcalled (fun b m hm => ?_) (fun b m hm => ?_) r).symm
  · exact (h.stamp m (hne ht hp hm)).symm
  · rw [kindOf, kindOf, h.edge_of_ne (hne ht hp hm)]

/-- What is in the trash stays there when a node is moved to the trash. -/
theorem Moved.isTrashed (ht : t.Replayed) (hp : p = TRASH) (hm : t.isTrashed m = true) :
    t'.isTrashed m = true := by
  subst hp
  rw [DriveTree.isTrashed, ht.grounded.isAncestor_iff] at hm
  rw [DriveTree.isTrashed, h.replayed.grounded.isAncestor_iff]
  by_cases hr : Reaches t.parentOf TRASH c
  · rwa [parentOf_congr (h.skipped hr)]
  · rw [h.parentOf_eq hr]
    exact reaches_update_top hm

theorem Moved.isTrashed_self (hp : p = TRASH) (hr : ¬Reaches t.parentOf p c) :
    t'.isTrashed c = true := by
  subst hp
  exact h.replayed.grounded.isAncestor_iff.2
    ((Reaches.refl _).head (parentOf_of_edge (h.edge_self hr)))

end

theorem not_trashed_of_called (ht : t.Replayed) (hp : p ≠ TRASH) (hc : t.Called p b c) :
    t.isTrashed c = false :=
  (ht.mirror.called_iff.1 hc).2.resolve_left hp

/-- A child of a trashed node is trashed. -/
theorem isTrashed_of_parent (ht : t.Replayed) (hp : t.parentOf c = some p)
    (htr : t.isTrashed p = true) : t.isTrashed c = true :=
  ht.grounded.isAncestor_iff.2 ((ht.grounded.isAncestor_iff.1 htr).head hp)

/-- A directory that is not trashed shows its children. -/
theorem called_of_edge (ht : t.Replayed) {e : Edge} (he : t.edges[c]? = some e)
    (hp : t.isTrashed e.parent = false) (hc : c ≠ TRASH) : t.Called e.parent e.name c := by
  refine ht.mirror.called_iff.2 ⟨⟨e, he, rfl, rfl⟩, Or.inr ?_⟩
  rw [← Bool.not_eq_true, isTrashed, ht.grounded.isAncestor_iff] at hp ⊢
  rw [reaches_iff_of_parent (parentOf_of_edge he)]
  exact not_or.2 ⟨Ne.symm hc, hp⟩

end DriveTree

end CeDrive
