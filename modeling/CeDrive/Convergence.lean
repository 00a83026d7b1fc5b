import CeDrive.TreeInvariant

/-!
# The tree converges and stays acyclic

`replayAscending ops` performs each move of `ops` once, in ascending timestamp order. Any
sequence that delivers exactly these moves, in any order and with any duplicates, leaves a
tree with its log, its edges and its child sets (`applyAll_eq_replayAscending`) : the log
is the strictly ascending list of the moves, and a tree always replays its own log.

Every reachable tree is acyclic, and the walk of `isAncestor`, bounded by the number of
edges, finds exactly the ancestors (`applyAll_acyclic`).
-/

open Std UndoLog SortedLog Forest

namespace CeDrive

namespace DriveTree

variable {t t' : DriveTree}

/-! ## What a listing depends on -/

/-- Equal views with equal logs : nothing a query returns tells the trees apart. -/
structure Alike (t t' : DriveTree) : Prop where
  log : t.log = t'.log
  view : t.SameView t'

theorem Alike.symm (h : t.Alike t') : t'.Alike t :=
  ⟨h.log.symm, Undoable.Same.symm (M := moveMachine) h.view⟩

theorem Alike.trans {t'' : DriveTree} (h : t.Alike t') (h' : t'.Alike t'') : t.Alike t'' :=
  ⟨h.log.trans h'.log, Undoable.Same.trans (M := moveMachine) h.view h'.view⟩

theorem Alike.renderGroup (h : t.Alike t') (name : String) (ids : List NodeId) :
    t.renderGroup name ids = t'.renderGroup name ids := by
  have hts : t.definingTs = t'.definingTs := by
    funext n
    rw [definingTs, definingTs, h.log]
  have hkind : t.kindOf = t'.kindOf := by
    funext n
    rw [kindOf, kindOf, h.view.1]
  unfold DriveTree.renderGroup ranked
  rw [hts, hkind]

theorem Alike.readdir (h : t.Alike t') (parent : NodeId) : t.readdir parent = t'.readdir parent := by
  have hshown : t.shownChildren parent = t'.shownChildren parent := by
    rw [shownChildren, shownChildren, rawChildren, rawChildren, h.view.2]
    refine List.filter_congr fun kid _ => ?_
    rw [isTrashed, isTrashed, isAncestor_congr h.view.1]
  simp only [DriveTree.readdir, hshown, h.renderGroup]

theorem Alike.resolve (h : t.Alike t') (path : String) : t.resolve path = t'.resolve path := by
  have hchild : ∀ dir comp, t.lookupChild dir comp = t'.lookupChild dir comp := fun dir comp => by
    rw [lookupChild, lookupChild, h.readdir]
  have hfrom : ∀ (comps : List String) (cur : NodeId),
      t.resolveFrom cur comps = t'.resolveFrom cur comps := by
    intro comps
    induction comps with
    | nil => exact fun _ => rfl
    | cons comp rest ih => exact fun cur => by simp only [resolveFrom, hchild, ih]
  rw [DriveTree.resolve, DriveTree.resolve, hfrom]

theorem Alike.path (h : t.Alike t') (node : NodeId) : t.path node = t'.path node := by
  rw [DriveTree.path, DriveTree.path, h.view.1]

/-! ## Convergence -/

/-- Each move performed once, in ascending timestamp order. -/
def replayAscending (ops : List MoveOp) : DriveTree :=
  (ops.insertionSort fun a b => a.ts ≤ b.ts).foldl doPush new

/-- A replayed tree is alike to the run of its own log. -/
theorem Replayed.alike_foldl_doPush (h : t.Replayed) : t.Alike (t.logOps.foldl doPush new) := by
  obtain ⟨hlog, hview⟩ := foldl_doPush new t.logOps
  exact ⟨h.replays.1.trans hlog.symm,
    Undoable.Same.trans h.replays.2 (Undoable.Same.symm hview)⟩

/-- Trees that hold the same moves are alike. -/
theorem Replayed.alike (h : t.Replayed) (h' : t'.Replayed)
    (hmem : ∀ op, op ∈ t.logOps ↔ op ∈ t'.logOps) : t.Alike t' := by
  refine h.alike_foldl_doPush.trans ?_
  rw [h.ascending.ext h'.ascending hmem]
  exact h'.alike_foldl_doPush.symm

/-- Deliveries of moves with distinct timestamps leave exactly these moves in the log. -/
theorem mem_logOps_applyAll {ops : List MoveOp}
    (h : ∀ a ∈ ops, ∀ b ∈ ops, a.ts = b.ts → a = b) (op : MoveOp) :
    op ∈ (applyAll ops).logOps ↔ op ∈ ops := by
  rw [logOps_applyAll]
  exact mem_deliverAll h

/-- Two deliveries of the same moves, which have distinct timestamps, leave alike trees. -/
theorem alike_applyAll {ops ops' : List MoveOp}
    (h : ∀ a ∈ ops, ∀ b ∈ ops, a.ts = b.ts → a = b) (hmem : ∀ op, op ∈ ops ↔ op ∈ ops') :
    (applyAll ops).Alike (applyAll ops') := by
  have h' : ∀ a ∈ ops', ∀ b ∈ ops', a.ts = b.ts → a = b := fun a ha b hb =>
    h a ((hmem a).2 ha) b ((hmem b).2 hb)
  refine (replayed_applyAll ops).alike (replayed_applyAll ops') fun op => ?_
  rw [mem_logOps_applyAll h, mem_logOps_applyAll h', hmem]

/-- Tree convergence. Let `ops` be moves with pairwise distinct timestamps and `ds` a
sequence that delivers each of them at least once and nothing else. The tree after `ds` has
the sorted log, the edges and the children index of the ascending replay of `ops`, and
every other such sequence gives the same edges, paths, listings and resolutions. -/
theorem applyAll_eq_replayAscending (ops : List MoveOp)
    (hdist : ops.Pairwise fun a b => a.ts ≠ b.ts) (ds : List MoveOp)
    (hds : ∀ op, op ∈ ds ↔ op ∈ ops) :
    (applyAll ds).log = (replayAscending ops).log ∧
      (applyAll ds).logOps = ops.insertionSort (fun a b => a.ts ≤ b.ts) ∧
      (applyAll ds).edges = (replayAscending ops).edges ∧
      (∀ p, (applyAll ds).childSet p = (replayAscending ops).childSet p) ∧
      ∀ ds' : List MoveOp, (∀ op, op ∈ ds' ↔ op ∈ ops) →
        (applyAll ds').edges = (applyAll ds).edges ∧
          (∀ n, (applyAll ds').path n = (applyAll ds).path n) ∧
          (∀ p, (applyAll ds').readdir p = (applyAll ds).readdir p) ∧
          ∀ s, (applyAll ds').resolve s = (applyAll ds).resolve s := by
  have hasc := ascending_insertionSort hdist
  have hmem : ∀ op, op ∈ ds ↔ op ∈ ops.insertionSort fun a b => a.ts ≤ b.ts := fun op => by
    rw [hds, List.mem_insertionSort]
  have hinj : ∀ a ∈ ds, ∀ b ∈ ds, a.ts = b.ts → a = b := fun a ha b hb =>
    hasc.key_injective ((hmem a).1 ha) ((hmem b).1 hb)
  have hlog : (applyAll ds).logOps = ops.insertionSort fun a b => a.ts ≤ b.ts := by
    rw [logOps_applyAll]
    exact deliverAll_eq_of_mem_iff hasc hmem
  have halike := (replayed_applyAll ds).alike_foldl_doPush
  rw [hlog] at halike
  refine ⟨halike.log, hlog, halike.view.1, halike.view.2, fun ds' hds' => ?_⟩
  have h := (alike_applyAll hinj fun op => (hds op).trans (hds' op).symm).symm
  exact ⟨h.view.1, h.path, h.readdir, h.resolve⟩

/-- Two directories moved under each other, the later delivery first and twice. -/
theorem applyAll_eq_replayAscending_swap :
    let a : MoveOp := ⟨⟨1, "a"⟩, "A", ROOT, "A", .dir⟩
    let b : MoveOp := ⟨⟨1, "b"⟩, "B", ROOT, "B", .dir⟩
    let x : MoveOp := ⟨⟨5, "a"⟩, "A", "B", "A", .dir⟩
    let y : MoveOp := ⟨⟨6, "b"⟩, "B", "A", "B", .dir⟩
    (applyAll [y, b, y, x, a]).log = (replayAscending [a, b, x, y]).log ∧
      (applyAll [y, b, y, x, a]).edges = (replayAscending [a, b, x, y]).edges := by
  intro a b x y
  have h := applyAll_eq_replayAscending [a, b, x, y] (by decide) [y, b, y, x, a]
    (fun op => by simp; tauto)
  exact ⟨h.1, h.2.2.1⟩

/-! ## Acyclicity -/

/-- Acyclicity. After any sequence of deliveries no node is its own proper ancestor, and
`isAncestor a n` holds exactly when `a` is `n` or is reached from `n` by parent pointers. -/
theorem applyAll_acyclic (ops : List MoveOp) :
    Acyclic (applyAll ops).parentOf ∧
      ∀ a n, (applyAll ops).isAncestor a n = true ↔ Reaches (applyAll ops).parentOf n a :=
  have h := (replayed_applyAll ops).grounded
  ⟨h, fun _ _ => h.isAncestor_iff⟩

end DriveTree

end CeDrive
