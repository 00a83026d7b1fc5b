import CeDrive.Listing

/-!
# The children index during a delivery

`DriveTree::integrate` of `crates/ce-drive-core/src/tree.rs` undoes the later entries of the
log, does the move and redoes them. `integrateStages` are the trees it passes through, the
last of them its result (`getLast?_integrateStages`). In each of them the children index holds
exactly the edges (`mem_rawChildren_iff`).
-/

open SortedLog

namespace CeDrive

namespace DriveTree

variable {t : DriveTree} {op : MoveOp}

/-- The trees `integrate` passes through : the log cut off at the move's place, the tree after
each undo, after the move and after each redo. -/
def integrateStages (t : DriveTree) (op : MoveOp) : List DriveTree :=
  let pos := partitionPoint (fun e : LogEntry => e.op.ts < op.ts) t.log
  if (t.log[pos]?).any fun e => e.op.ts = op.ts then [t]
  else
    let tail := t.log.drop pos
    let cut : DriveTree := { t with log := t.log.take pos }
    tail.reverse.scanl undoMove cut ++
      tail.scanl (fun t entry => t.doPush entry.op) ((tail.reverse.foldl undoMove cut).doPush op)

/-- The last stage is the result. -/
theorem getLast?_integrateStages (t : DriveTree) (op : MoveOp) :
    (t.integrateStages op).getLast? = some (t.integrate op) := by
  simp only [integrateStages, integrate]
  split_ifs
  · rfl
  · rw [List.getLast?_append, List.getLast?_scanl, Option.some_or]

theorem Mirror.withLog (h : t.Mirror) (log : List LogEntry) : Mirror { t with log := log } :=
  h

theorem Mirror.doPush (h : t.Mirror) (op : MoveOp) : (t.doPush op).Mirror :=
  (h.doMove op).withLog _

theorem forall_mem_scanl {σ ε : Type*} {P : σ → Prop} {step : σ → ε → σ}
    (hstep : ∀ s e, P s → P (step s e)) {s : σ} (h : P s) (es : List ε) :
    ∀ s' ∈ es.scanl step s, P s' := by
  induction es generalizing s with
  | nil => simpa using h
  | cons e es ih =>
    rw [List.scanl_cons, List.forall_mem_cons]
    exact ⟨h, ih (hstep s e h)⟩

theorem Mirror.integrateStages (h : t.Mirror) (op : MoveOp) :
    ∀ s ∈ t.integrateStages op, s.Mirror := by
  have hundo : ∀ (s : DriveTree) (entry : LogEntry), s.Mirror → (s.undoMove entry).Mirror :=
    fun _ entry hs => hs.undoMove entry
  have hredo : ∀ (s : DriveTree) (entry : LogEntry), s.Mirror → (s.doPush entry.op).Mirror :=
    fun _ entry hs => hs.doPush entry.op
  simp only [DriveTree.integrateStages]
  split_ifs
  · simpa using h
  · set pos := partitionPoint (fun e : LogEntry => e.op.ts < op.ts) t.log
    have hundone := forall_mem_scanl hundo (h.withLog (t.log.take pos)) (t.log.drop pos).reverse
    have hlast := hundone _ (List.mem_of_getLast? List.getLast?_scanl)
    rw [List.forall_mem_append]
    exact ⟨hundone, forall_mem_scanl hredo (hlast.doPush op) _⟩

/-- The index mirrors the edges. After any sequence of deliveries, and at every stage of the
next one, `(name, c)` is among the children of `p` exactly when the edge of `c` has the parent
`p` and the name `name`. -/
theorem mem_rawChildren_iff (ops : List MoveOp) (op : MoveOp) :
    ∀ s ∈ applyAll ops :: (applyAll ops).integrateStages op, ∀ p name c,
      (name, c) ∈ s.rawChildren p ↔ ∃ e, s.edges[c]? = some e ∧ e.parent = p ∧ e.name = name := by
  have h := (replayed_applyAll ops).mirror
  intro s hs p name c
  rcases List.mem_cons.1 hs with rfl | hs
  · exact h.mem_rawChildren
  · exact (h.integrateStages op s hs).mem_rawChildren

/-- A node is moved twice, the second time under its own child, which is skipped; then a move
with a timestamp before both arrives. -/
def lateMoves : List MoveOp :=
  [⟨⟨2, "r"⟩, "a", ROOT, "x", .dir⟩, ⟨⟨3, "r"⟩, "b", "a", "y", .dir⟩, ⟨⟨4, "r"⟩, "a", "b", "z", .dir⟩]

/-- Once all three are undone, nothing is listed. -/
theorem mem_rawChildren_iff_late :
    let s := ((applyAll lateMoves).integrateStages ⟨⟨1, "r"⟩, "a", TRASH, "w", .dir⟩).get
      ⟨3, by decide +kernel⟩
    ("x", "a") ∉ s.rawChildren ROOT := by
  intro s
  have hs : s ∈ applyAll lateMoves :: (applyAll lateMoves).integrateStages
      ⟨⟨1, "r"⟩, "a", TRASH, "w", .dir⟩ :=
    List.mem_cons_of_mem _ (List.get_mem _ _)
  have hnone : s.edges["a"]? = none := by decide +kernel
  rw [mem_rawChildren_iff _ _ s hs, hnone]
  rintro ⟨e, he, -⟩
  cases he

end DriveTree

end CeDrive
