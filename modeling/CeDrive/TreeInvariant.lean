import CeDrive.Forest
import CeDrive.Tree
import Mathlib.Data.Finset.Card

/-!
# Invariants of one move

`Mirror` : the children index holds exactly the edges. `Grounded` : the parent pointers
are acyclic, and the bounded walk of `isAncestor` is therefore exact
(`Grounded.isAncestor_iff`). Both are kept by `place`, by `doMove` and by `undoMove`, and
undoing a move restores the edges and every child set (`undoMove_doMove`).

`moveMachine` packages moves as an `Undoable` machine, and `integrate` is its
undo–do–redo (`integrate_of_new`) : the tree always replays its own log (`Replayed`).
-/

open Std UndoLog SortedLog Forest

namespace CeDrive

namespace DriveTree

variable {t t' : DriveTree} {c n p a : NodeId} {op : MoveOp} {e : Edge}

/-! ## Edges and the children index -/

@[simp] theorem parentOf_new (n : NodeId) : new.parentOf n = none := by
  simp [parentOf, new]

theorem parentOf_eq_some : t.parentOf n = some p ↔ ∃ e, t.edges[n]? = some e ∧ e.parent = p := by
  simp [parentOf]

theorem parentOf_of_edge (h : t.edges[n]? = some e) : t.parentOf n = some e.parent := by
  simp [parentOf, h]

theorem parentOf_congr (h : t.edges = t'.edges) : t.parentOf = t'.parentOf := by
  funext n
  rw [parentOf, parentOf, h]

/-- The index holds exactly the edges. -/
def Mirror (t : DriveTree) : Prop :=
  ∀ p name c, (name, c) ∈ t.childSet p ↔
    ∃ e, t.edges[c]? = some e ∧ e.parent = p ∧ e.name = name

theorem mirror_new : Mirror new := by
  simp [Mirror, childSet, new]

/-- A mirrored index is a function of the edges. -/
theorem Mirror.childSet_congr (h : t.Mirror) (h' : t'.Mirror) (he : t.edges = t'.edges)
    (p : NodeId) : t.childSet p = t'.childSet p := by
  refine ExtTreeSet.ext_mem fun x => ?_
  rw [h p x.1 x.2, h' p x.1 x.2, he]

theorem mem_unindex (t : DriveTree) (c : NodeId) (x : String × NodeId) (p : NodeId) :
    x ∈ (t.unindex c).getD p ∅ ↔
      x ∈ t.childSet p ∧ ∀ e, t.edges[c]? = some e → e.parent = p → x ≠ (e.name, c) := by
  unfold unindex childSet
  cases he : t.edges[c]? with
  | none => simp
  | some e =>
    cases hs : t.children[e.parent]? with
    | none =>
      suffices x ∈ t.children.getD p ∅ → e.parent = p → x ≠ (e.name, c) by simpa [hs]
      rintro hx rfl
      simp [ExtTreeMap.getD_eq_getD_getElem?, hs] at hx
    | some set =>
      by_cases hp : e.parent = p
      · subst hp
        have hne : (¬(e.name, c) = x) ↔ x ≠ (e.name, c) := not_congr eq_comm
        simp [ExtTreeMap.getD_eq_getD_getElem?, hs, hne, and_comm]
      · simp [ExtTreeMap.getD_eq_getD_getElem?, ExtTreeMap.getElem?_insert, hs, hp]

/-- Without the entry of `c`, the index holds the edges of the other nodes. -/
theorem Mirror.mem_unindex (h : t.Mirror) (name : String) (x : NodeId) :
    (name, x) ∈ (t.unindex c).getD p ∅ ↔
      x ≠ c ∧ ∃ e, t.edges[x]? = some e ∧ e.parent = p ∧ e.name = name := by
  rw [DriveTree.mem_unindex, h p name x]
  constructor
  · rintro ⟨⟨e, he, hp, hn⟩, hne⟩
    refine ⟨?_, e, he, hp, hn⟩
    rintro rfl
    exact hne e he hp (by rw [hn])
  · rintro ⟨hx, e, he, hp, hn⟩
    exact ⟨⟨e, he, hp, hn⟩, fun e' _ _ heq => hx (Prod.mk.inj heq).2⟩

@[simp] theorem edges_place : (t.place c e).edges = t.edges.insert c e := rfl

theorem parentOf_place : (t.place c e).parentOf = Function.update t.parentOf c (some e.parent) := by
  funext n
  by_cases hn : n = c
  · subst hn
    simp [parentOf]
  · rw [Function.update_of_ne hn]
    simp [parentOf, ExtTreeMap.getElem?_insert, Ne.symm hn]

theorem Mirror.place (h : t.Mirror) (c : NodeId) (e : Edge) : (t.place c e).Mirror := by
  intro p name x
  have hmem : (name, x) ∈ (t.place c e).childSet p ↔
      (e.parent = p ∧ e.name = name ∧ c = x) ∨ (name, x) ∈ (t.unindex c).getD p ∅ := by
    rw [childSet, DriveTree.place, ExtTreeMap.getD_insert]
    by_cases hp : e.parent = p
    · subst hp
      simp
    · simp [hp]
  rw [hmem, h.mem_unindex, edges_place, ExtTreeMap.getElem?_insert]
  by_cases hx : c = x
  · subst hx
    simp
  · simp [hx, Ne.symm hx]

theorem Mirror.erase (h : t.Mirror) (c : NodeId) :
    Mirror { t with children := t.unindex c, edges := t.edges.erase c } := by
  intro p name x
  rw [childSet, h.mem_unindex, ExtTreeMap.getElem?_erase]
  by_cases hx : c = x
  · subst hx
    simp
  · simp [hx, Ne.symm hx]

/-! ## The cycle check -/

theorem isAncestorWalk_eq_within (t : DriveTree) (a : NodeId) (k : ℕ) (n : NodeId) :
    isAncestorWalk t.edges a k n = within t.parentOf a k n := by
  induction k generalizing n with
  | zero => rfl
  | succ k ih =>
    rw [isAncestorWalk, within]
    cases h : t.edges[n]? with
    | none => simp [parentOf, h]
    | some e => simp [parentOf, h, ih]

/-- The parent pointers are acyclic. -/
def Grounded (t : DriveTree) : Prop :=
  Acyclic t.parentOf

theorem grounded_new : Grounded new := by
  intro x hx
  obtain ⟨y, hxy, -⟩ := Relation.TransGen.head'_iff.1 hx
  simp [Up] at hxy

theorem Grounded.congr (h : t.Grounded) (he : t.edges = t'.edges) : t'.Grounded := by
  rw [Grounded, ← parentOf_congr he]
  exact h

/-- The nodes with a parent are keys of the edge map. -/
theorem mem_keys_of_parentOf (x : NodeId) (hx : t.parentOf x ≠ none) :
    x ∈ t.edges.keys.toFinset := by
  rw [List.mem_toFinset, ExtTreeMap.mem_keys, ExtTreeMap.mem_iff_isSome_getElem?]
  cases he : t.edges[x]? with
  | none => simp [parentOf, he] at hx
  | some e => rfl

theorem card_keys_le (t : DriveTree) : t.edges.keys.toFinset.card ≤ t.edges.size :=
  (List.toFinset_card_le _).trans ExtTreeMap.length_keys.le

/-- On a grounded tree the bounded walk finds exactly the ancestors : there are no more
nodes with a parent than edges. -/
theorem Grounded.isAncestor_iff (h : t.Grounded) :
    t.isAncestor a n = true ↔ Reaches t.parentOf n a := by
  rw [isAncestor, isAncestorWalk_eq_within]
  exact within_iff_reaches h mem_keys_of_parentOf (Nat.lt_succ_of_le t.card_keys_le)

theorem isAncestor_congr (h : t.edges = t'.edges) (a n : NodeId) :
    t.isAncestor a n = t'.isAncestor a n := by
  rw [isAncestor, isAncestor, h]

/-- A move is skipped when its new parent is the node itself or below it. -/
def Skips (t : DriveTree) (op : MoveOp) : Prop :=
  op.newParent = op.child ∨ t.isAncestor op.child op.newParent = true

instance (t : DriveTree) (op : MoveOp) : Decidable (t.Skips op) :=
  inferInstanceAs (Decidable (_ ∨ _))

theorem Grounded.skips_iff (h : t.Grounded) :
    t.Skips op ↔ Reaches t.parentOf op.newParent op.child := by
  rw [Skips, h.isAncestor_iff]
  refine or_iff_right_of_imp ?_
  intro heq
  rw [heq]

theorem doMove_of_skips (h : t.Skips op) : t.doMove op = (t.edges[op.child]?, t) :=
  if_pos h

theorem doMove_of_not_skips (h : ¬t.Skips op) :
    t.doMove op = (t.edges[op.child]?, t.place op.child op.edge) :=
  if_neg h

@[simp] theorem doMove_fst : (t.doMove op).1 = t.edges[op.child]? := by
  unfold doMove
  split <;> rfl

theorem Mirror.doMove (h : t.Mirror) (op : MoveOp) : (t.doMove op).2.Mirror := by
  by_cases hs : t.Skips op
  · rwa [doMove_of_skips hs]
  · rw [doMove_of_not_skips hs]
    exact h.place _ _

theorem Grounded.doMove (h : t.Grounded) (op : MoveOp) : (t.doMove op).2.Grounded := by
  by_cases hs : t.Skips op
  · rwa [doMove_of_skips hs]
  · rw [doMove_of_not_skips hs, Grounded, parentOf_place]
    exact acyclic_update h fun hr => hs (h.skips_iff.2 hr)

theorem Mirror.undoMove (h : t.Mirror) (entry : LogEntry) : (t.undoMove entry).Mirror := by
  unfold DriveTree.undoMove
  split
  · exact h.place _ _
  · exact h.erase _

/-- `undoMove` is the exact inverse of `doMove` on the edges. -/
theorem edges_undoMove_doMove (t : DriveTree) (op : MoveOp) :
    ((t.doMove op).2.undoMove ⟨op, (t.doMove op).1⟩).edges = t.edges := by
  have hrestore : ∀ s : DriveTree, (∀ x, op.child ≠ x → s.edges[x]? = t.edges[x]?) →
      (s.undoMove ⟨op, t.edges[op.child]?⟩).edges = t.edges := by
    intro s hs
    refine ExtTreeMap.ext_getElem? fun x => ?_
    unfold undoMove
    by_cases hx : op.child = x
    · subst hx
      cases he : t.edges[op.child]? <;> simp
    · cases he : t.edges[op.child]? <;>
        simp [ExtTreeMap.getElem?_insert, ExtTreeMap.getElem?_erase, hx, hs x hx]
  rw [doMove_fst]
  refine hrestore _ fun x hx => ?_
  by_cases hs : t.Skips op
  · rw [doMove_of_skips hs]
  · simp [doMove_of_not_skips hs, ExtTreeMap.getElem?_insert, hx]

/-! ## The machine of moves -/

/-- Equal edges and equal child sets; the logs may differ. -/
def SameView (t t' : DriveTree) : Prop :=
  t.edges = t'.edges ∧ ∀ p, t.childSet p = t'.childSet p

theorem SameView.mirror (h : t.Mirror) (hs : t.SameView t') : t'.Mirror := by
  intro p name c
  rw [← hs.1, ← hs.2]
  exact h p name c

theorem Mirror.sameView (h : t.Mirror) (h' : t'.Mirror) (he : t.edges = t'.edges) :
    t.SameView t' :=
  ⟨he, h.childSet_congr h' he⟩

theorem SameView.unindex (h : t.SameView t') (c p : NodeId) :
    (t.unindex c).getD p ∅ = (t'.unindex c).getD p ∅ := by
  refine ExtTreeSet.ext_mem fun x => ?_
  rw [DriveTree.mem_unindex, DriveTree.mem_unindex, h.1, h.2]

theorem SameView.place (h : t.SameView t') (c : NodeId) (e : Edge) :
    (t.place c e).SameView (t'.place c e) := by
  refine ⟨by rw [edges_place, edges_place, h.1], fun p => ?_⟩
  simp only [childSet, DriveTree.place, ExtTreeMap.getD_insert, h.unindex c]

theorem SameView.doMove (h : t.SameView t') (op : MoveOp) :
    (t.doMove op).1 = (t'.doMove op).1 ∧ (t.doMove op).2.SameView (t'.doMove op).2 := by
  have hskip : t.Skips op ↔ t'.Skips op := by
    rw [Skips, Skips, isAncestor_congr h.1]
  refine ⟨by rw [doMove_fst, doMove_fst, h.1], ?_⟩
  by_cases hs : t.Skips op
  · rwa [doMove_of_skips hs, doMove_of_skips (hskip.1 hs)]
  · rw [doMove_of_not_skips hs, doMove_of_not_skips (mt hskip.2 hs)]
    exact h.place _ _

theorem SameView.undoMove (h : t.SameView t') (entry : LogEntry) :
    (t.undoMove entry).SameView (t'.undoMove entry) := by
  unfold DriveTree.undoMove
  split
  · exact h.place _ _
  · exact ⟨by rw [h.1], fun p => h.unindex _ p⟩

/-- Moves as revertible operations. -/
def moveMachine : Undoable DriveTree MoveOp (Option Edge) where
  perform := doMove
  revert := undoMove
  Valid := Mirror
  Same := SameView
  same_equivalence :=
    { refl := fun _ => ⟨rfl, fun _ => rfl⟩
      symm := fun h => ⟨h.1.symm, fun p => (h.2 p).symm⟩
      trans := fun h h' => ⟨h.1.trans h'.1, fun p => (h.2 p).trans (h'.2 p)⟩ }
  valid_of_same := fun h hs => hs.mirror h
  perform_valid := fun op h => h.doMove op
  perform_same := fun op hs => hs.doMove op
  revert_same := fun e hs => hs.undoMove e
  revert_perform := fun op h =>
    ((h.doMove op).undoMove _).sameView h (edges_undoMove_doMove _ op)

/-- A run of moves keeps the tree grounded. -/
theorem Grounded.run (h : t.Grounded) (ops : List MoveOp) :
    (moveMachine.run t ops).2.Grounded := by
  induction ops generalizing t with
  | nil => exact h
  | cons op ops ih => exact ih (h.doMove op)

/-! ## Integration -/

theorem SameView.withLog (t : DriveTree) (l : List LogEntry) : SameView { t with log := l } t :=
  ⟨rfl, fun _ => rfl⟩

theorem sameView_doPush (t : DriveTree) (op : MoveOp) :
    (t.doPush op).SameView (t.doMove op).2 :=
  SameView.withLog _ _

/-- Pushing a sequence of moves is running them, with the run appended to the log. -/
theorem foldl_doPush (t : DriveTree) (ops : List MoveOp) :
    (ops.foldl doPush t).log = t.log ++ (moveMachine.run t ops).1 ∧
      (ops.foldl doPush t).SameView (moveMachine.run t ops).2 := by
  induction ops generalizing t with
  | nil => exact ⟨(List.append_nil _).symm, Undoable.Same.refl moveMachine t⟩
  | cons op ops ih =>
    obtain ⟨hlog, hview⟩ := ih (t.doPush op)
    obtain ⟨hr, hv⟩ := moveMachine.run_same (sameView_doPush t op) ops
    refine ⟨?_, Undoable.Same.trans (M := moveMachine) hview hv⟩
    rw [List.foldl_cons, hlog, hr]
    simp [doPush, Undoable.run, moveMachine]

/-- The moves of the log, in order. -/
def logOps (t : DriveTree) : List MoveOp :=
  t.log.map Entry.op

/-- The log is sorted, and log and tree are what performing its moves in order gives. -/
structure Replayed (t : DriveTree) : Prop where
  ascending : Ascending MoveOp.ts t.logOps
  replays : moveMachine.Replays new t.log t

theorem replayed_new : Replayed new :=
  ⟨List.Pairwise.nil, rfl, Undoable.Same.refl moveMachine new⟩

theorem Replayed.mirror (h : t.Replayed) : t.Mirror :=
  h.replays.valid mirror_new

theorem Replayed.grounded (h : t.Replayed) : t.Grounded :=
  (grounded_new.run _).congr h.replays.2.1.symm

theorem log_undoMove (t : DriveTree) (entry : LogEntry) : (t.undoMove entry).log = t.log := by
  unfold undoMove
  split <;> rfl

theorem log_unwind (t : DriveTree) (es : List LogEntry) : (moveMachine.unwind t es).log = t.log := by
  induction es with
  | nil => rfl
  | cons e es ih => exact (log_undoMove _ e).trans ih

/-- `integrate` inserts the move into the sorted log, and the tree replays the new log :
the displaced edges of the redone entries are those of the new order. -/
theorem Replayed.integrate (h : t.Replayed) (op : MoveOp) :
    (t.integrate op).Replayed ∧ (t.integrate op).logOps = deliver MoveOp.ts t.logOps op := by
  have hpos : partitionPoint (fun o : MoveOp => o.ts < op.ts) t.logOps =
      partitionPoint (fun e : LogEntry => e.op.ts < op.ts) t.log := by
    rw [partitionPoint, partitionPoint, logOps, List.findIdx_map]
    rfl
  have hdup : ((t.logOps[partitionPoint (fun o : MoveOp => o.ts < op.ts) t.logOps]?).any
      fun o => o.ts = op.ts) = (t.log[partitionPoint (fun e : LogEntry => e.op.ts < op.ts)
        t.log]?).any fun e => e.op.ts = op.ts := by
    rw [hpos, logOps, List.getElem?_map, Option.any_map]
  unfold DriveTree.integrate
  by_cases hd : ((t.log[partitionPoint (fun e : LogEntry => e.op.ts < op.ts) t.log]?).any
      fun e => e.op.ts = op.ts) = true
  · rw [if_pos hd]
    exact ⟨h, (if_pos (hdup.trans hd)).symm⟩
  rw [if_neg hd]
  set pos := partitionPoint (fun e : LogEntry => e.op.ts < op.ts) t.log
  set s : DriveTree := { t with log := t.log.take pos }
  have hundone : (t.log.drop pos).reverse.foldl undoMove s =
      moveMachine.unwind s (t.log.drop pos) := List.foldl_reverse
  have hs : moveMachine.Replays new (t.log.take pos ++ t.log.drop pos) s := by
    rw [List.take_append_drop]
    exact ⟨h.replays.1, Undoable.Same.trans (SameView.withLog t _) h.replays.2⟩
  have hins := hs.insert mirror_new op
  obtain ⟨hlog, hview⟩ := foldl_doPush (moveMachine.unwind s (t.log.drop pos))
    (op :: (t.log.drop pos).map Entry.op)
  rw [log_unwind] at hlog
  simp only [hundone, ← List.foldl_map (f := Entry.op) (g := doPush), ← List.foldl_cons]
  have hops : ((op :: (t.log.drop pos).map Entry.op).foldl doPush
      (moveMachine.unwind s (t.log.drop pos))).logOps = deliver MoveOp.ts t.logOps op := by
    rw [logOps, hlog, List.map_append, Undoable.run_ops, deliver, if_neg (by rwa [hdup]), hpos,
      logOps, List.map_take, List.map_drop]
  refine ⟨⟨?_, ?_⟩, hops⟩
  · rw [hops]
    exact h.ascending.deliver op
  · rw [hlog]
    exact ⟨hins.1, Undoable.Same.trans hview hins.2⟩

theorem replayed_foldl (h : t.Replayed) (ops : List MoveOp) :
    (ops.foldl apply t).Replayed ∧
      (ops.foldl apply t).logOps = ops.foldl (deliver MoveOp.ts) t.logOps := by
  induction ops generalizing t with
  | nil => exact ⟨h, rfl⟩
  | cons op ops ih =>
    obtain ⟨hr, hl⟩ := ih (h.integrate op).1
    exact ⟨hr, hl.trans (by rw [(h.integrate op).2, List.foldl_cons])⟩

/-- A move later than the whole log is performed at once. -/
theorem apply_of_forall_lt (h : ∀ o ∈ t.logOps, o.ts < op.ts) : t.apply op = t.doPush op := by
  have h' : ∀ e ∈ t.log, e.op.ts < op.ts := fun e he => h _ (List.mem_map_of_mem he)
  have hpos : partitionPoint (fun e : LogEntry => e.op.ts < op.ts) t.log = t.log.length :=
    List.findIdx_eq_length_of_false (by simpa using h')
  simp [apply, DriveTree.integrate, hpos]

theorem getElem?_edges_doMove_of_ne (h : op.child ≠ n) :
    (t.doMove op).2.edges[n]? = t.edges[n]? := by
  by_cases hs : t.Skips op
  · rw [doMove_of_skips hs]
  · rw [doMove_of_not_skips hs, edges_place, ExtTreeMap.getElem?_insert, if_neg (by simpa using h)]

theorem getElem?_edges_doMove_self (h : ¬t.Skips op) :
    (t.doMove op).2.edges[op.child]? = some op.edge := by
  rw [doMove_of_not_skips h, edges_place, ExtTreeMap.getElem?_insert_self]

/-- The edges after a move that is pushed on the log. -/
theorem Grounded.edges_doPush (h : t.Grounded) (op : MoveOp)
    [Decidable (Reaches t.parentOf op.newParent op.child)] :
    (t.doPush op).edges = if Reaches t.parentOf op.newParent op.child then t.edges
      else t.edges.insert op.child op.edge := by
  have hpush : (t.doPush op).edges = (t.doMove op).2.edges := rfl
  rw [hpush]
  split_ifs with hr
  · rw [doMove_of_skips (h.skips_iff.2 hr)]
  · rw [doMove_of_not_skips (mt h.skips_iff.1 hr), edges_place]

theorem Grounded.parentOf_doPush (h : t.Grounded) (op : MoveOp)
    [Decidable (Reaches t.parentOf op.newParent op.child)] :
    (t.doPush op).parentOf = if Reaches t.parentOf op.newParent op.child then t.parentOf
      else Function.update t.parentOf op.child (some op.newParent) := by
  have hedges := h.edges_doPush op
  split_ifs at hedges ⊢ with hr
  · exact parentOf_congr hedges
  · have hplace : (t.doPush op).parentOf = (t.place op.child op.edge).parentOf :=
      parentOf_congr hedges
    rw [hplace, parentOf_place]
    rfl

/-- An edge was there before the run, or a move of the run set it. -/
theorem exists_op_of_edge_run (ops : List MoveOp)
    (h : (moveMachine.run t ops).2.edges[n]? = some e) :
    t.edges[n]? = some e ∨ ∃ op ∈ ops, op.child = n ∧ op.edge = e := by
  induction ops generalizing t with
  | nil => exact Or.inl h
  | cons op ops ih =>
    rcases ih h with h | ⟨o, ho, hc⟩
    · by_cases hn : op.child = n
      · subst hn
        by_cases hs : t.Skips op
        · exact Or.inl (by rwa [show moveMachine.perform t op = t.doMove op from rfl,
            doMove_of_skips hs] at h)
        · exact Or.inr ⟨op, by simp, rfl,
            Option.some_injective _ ((getElem?_edges_doMove_self hs).symm.trans h)⟩
      · exact Or.inl ((getElem?_edges_doMove_of_ne hn).symm.trans h)
    · exact Or.inr ⟨o, List.mem_cons_of_mem _ ho, hc⟩

/-- Every edge was set by a move of the log. -/
theorem Replayed.exists_op_of_edge (h : t.Replayed) (he : t.edges[n]? = some e) :
    ∃ op ∈ t.logOps, op.child = n ∧ op.edge = e := by
  rw [h.replays.2.1] at he
  exact (exists_op_of_edge_run _ he).resolve_left (by simp [new])

/-- Every tree reachable by deliveries replays its log. -/
theorem replayed_applyAll (ops : List MoveOp) : (applyAll ops).Replayed :=
  (replayed_foldl replayed_new ops).1

theorem logOps_applyAll (ops : List MoveOp) :
    (applyAll ops).logOps = deliverAll MoveOp.ts ops :=
  (replayed_foldl replayed_new ops).2

end DriveTree

end CeDrive
