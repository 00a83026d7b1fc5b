import CeDrive.Logs

/-!
# The change feed

`crates/ce-drive-core/src/changes.rs`. A poll reads the two logs of a drive, keeps what is
after its cursor, and returns it by timestamp with the cursor of the next poll. The first
move of a node in the move log is its creation, so a poll scans the whole log.

The move log is in order of arrival. Two drives that received the same operations have the
same feed exactly if for each node the move that arrived first is the same on both, or is a
deletion on both (`changesSince_eq_iff`).
-/

open SortedLog

namespace CeDrive

/-- The highest timestamp delivered. -/
structure Cursor where
  last : Option Timestamp
  deriving DecidableEq

namespace Cursor

def beginning : Cursor := ⟨none⟩

/-- Just after `ts` (`Cursor::at`). -/
def atTs (ts : Timestamp) : Cursor := ⟨some ts⟩

/-- Strictly after the cursor. -/
def admits (c : Cursor) (ts : Timestamp) : Bool :=
  match c.last with
  | none => true
  | some seen => seen < ts

@[simp] theorem admits_atTs {ts ts' : Timestamp} : (atTs ts).admits ts' = true ↔ ts < ts' := by
  simp [admits, atTs]

end Cursor

inductive ChangeKind
  | created (isDir : Bool)
  | moved
  | trashed
  | contentChanged (cid : String) (size : ℕ)
  | contentRemoved
  deriving DecidableEq

/-- One change : what happened to a node and when, with its current path and name. -/
structure Change where
  ts : Timestamp
  nodeId : NodeId
  kind : ChangeKind
  path : Option String
  name : Option String
  deriving DecidableEq

/-- The feed over two logs. -/
structure ChangeLog where
  moveLog : List MoveOp
  contentLog : List StampedContentOp
  tree : DriveTree

namespace ChangeLog

def new (state : DriveState) (tree : DriveTree) : ChangeLog :=
  ⟨state.moveLog, state.contentLog, tree⟩

def moveKind (first : Bool) (op : MoveOp) : ChangeKind :=
  if op.newParent = TRASH then .trashed
  else if first then .created (op.kind = .dir)
  else .moved

def moveChange (first : Bool) (op : MoveOp) : Change :=
  ⟨op.ts, op.child, moveKind first op, none, some op.newName⟩

/-- Scan the move log; `seen` is the nodes met so far. -/
def structural (cursor : Cursor) : List NodeId → List MoveOp → List Change
  | _, [] => []
  | seen, op :: log =>
    if cursor.admits op.ts then
      moveChange (op.child ∉ seen) op :: structural cursor (op.child :: seen) log
    else structural cursor (op.child :: seen) log

def contentKind : ContentOp → ChangeKind
  | .set _ cid size _ _ => .contentChanged cid size
  | .restore _ cid _ => .contentChanged cid 0
  | .remove _ => .contentRemoved
  | .setDoc _ _ => .contentChanged "" 0

def contentChange (s : StampedContentOp) : Change :=
  ⟨s.ts, s.op.target, contentKind s.op, none, none⟩

/-- The changes after the cursor, in one order across both logs. -/
def merged (f : ChangeLog) (cursor : Cursor) : List Change :=
  (structural cursor [] f.moveLog ++
    (f.contentLog.filter fun s => cursor.admits s.ts).map contentChange).insertionSort
      fun a b => a.ts ≤ b.ts

/-- Fill in the path and the name from the tree. -/
def fill (f : ChangeLog) (c : Change) : Change :=
  { c with
    path := c.path <|> f.tree.path c.nodeId
    name := c.name <|> (f.tree.edge c.nodeId).map Edge.name }

/-- The changes after the cursor, at most `limit` of them unless it is 0, and the next
cursor. -/
def changesSince (f : ChangeLog) (cursor : Cursor) (limit : ℕ) : List Change × Cursor :=
  let page := if limit ≠ 0 ∧ (f.merged cursor).length > limit then (f.merged cursor).take limit
    else f.merged cursor
  let changes := page.map f.fill
  (changes, ((changes.getLast?).map fun c => Cursor.atTs c.ts).getD cursor)

variable {f f' : ChangeLog} {cursor : Cursor} {c : Change} {seen : List NodeId} {log : List MoveOp}

/-! ## What a poll reports -/

/-- Every reported move is one of the log, after the cursor. -/
theorem of_mem_structural (h : c ∈ structural cursor seen log) :
    ∃ op ∈ log, cursor.admits op.ts = true ∧ ∃ first, c = moveChange first op := by
  induction log generalizing seen with
  | nil => cases h
  | cons op log ih =>
    unfold structural at h
    split_ifs at h with hop
    · rcases List.mem_cons.1 h with rfl | h
      · exact ⟨op, List.mem_cons_self, hop, _, rfl⟩
      · obtain ⟨o, ho, hc⟩ := ih h
        exact ⟨o, List.mem_cons_of_mem _ ho, hc⟩
    · obtain ⟨o, ho, hc⟩ := ih h
      exact ⟨o, List.mem_cons_of_mem _ ho, hc⟩

/-- Every move after the cursor is reported. -/
theorem exists_mem_structural {op : MoveOp} (hop : op ∈ log) (ha : cursor.admits op.ts = true) :
    ∃ first, moveChange first op ∈ structural cursor seen log := by
  induction log generalizing seen with
  | nil => cases hop
  | cons o log ih =>
    unfold structural
    rcases List.mem_cons.1 hop with rfl | hop
    · rw [if_pos ha]
      exact ⟨_, List.mem_cons_self⟩
    · obtain ⟨first, hfirst⟩ : ∃ first, moveChange first op ∈
          structural cursor (o.child :: seen) log := ih hop
      split_ifs
      · exact ⟨first, List.mem_cons_of_mem _ hfirst⟩
      · exact ⟨first, hfirst⟩

/-- The first move of its node in the log. -/
def IsFirst (log : List MoveOp) (op : MoveOp) : Prop :=
  log.find? (fun o => o.child = op.child) = some op

instance (log : List MoveOp) (op : MoveOp) : Decidable (IsFirst log op) :=
  inferInstanceAs (Decidable (_ = some op))

theorem IsFirst.mem {op : MoveOp} (h : IsFirst log op) : op ∈ log :=
  List.mem_of_find?_eq_some h

theorem isFirst_cons {o op : MoveOp} (hne : o ≠ op) :
    IsFirst (o :: log) op ↔ o.child ≠ op.child ∧ IsFirst log op := by
  by_cases hc : o.child = op.child
  · simp [IsFirst, hc, hne]
  · simp [IsFirst, hc]

theorem isFirst_cons_self {op : MoveOp} : IsFirst (op :: log) op := by
  simp [IsFirst]

/-- In a log with distinct timestamps, the scan tells exactly which moves are the first of
their node. -/
theorem mem_structural (h : log.Pairwise fun a b => a.ts ≠ b.ts) :
    c ∈ structural cursor seen log ↔ ∃ op ∈ log, cursor.admits op.ts = true ∧
      c = moveChange (op.child ∉ seen ∧ IsFirst log op) op := by
  induction log generalizing seen with
  | nil => simp [structural]
  | cons o log ih =>
    obtain ⟨ho, hlog⟩ := List.pairwise_cons.1 h
    have hrest : c ∈ structural cursor (o.child :: seen) log ↔
        ∃ op ∈ log, cursor.admits op.ts = true ∧
          c = moveChange (op.child ∉ seen ∧ IsFirst (o :: log) op) op := by
      rw [ih hlog]
      refine exists_congr fun op => and_congr_right fun hop => ?_
      have hne : o ≠ op := fun heq => ho op hop (congrArg _ heq)
      -- a later move is not the first one if the head moves its node
      have hfirst : (op.child ∉ o.child :: seen ∧ IsFirst log op) ↔
          (op.child ∉ seen ∧ IsFirst (o :: log) op) := by
        rw [isFirst_cons hne, List.mem_cons, not_or, ne_comm]
        tauto
      rw [decide_eq_decide.2 hfirst]
    unfold structural
    split_ifs with ha
    · rw [List.mem_cons, hrest, List.exists_mem_cons_iff]
      simp [ha, isFirst_cons_self]
    · rw [hrest, List.exists_mem_cons_iff]
      simp [ha]

theorem mem_merged : c ∈ f.merged cursor ↔ c ∈ structural cursor [] f.moveLog ∨
    ∃ s ∈ f.contentLog, cursor.admits s.ts = true ∧ c = contentChange s := by
  rw [merged, List.mem_insertionSort, List.mem_append, List.mem_map]
  refine or_congr_right (exists_congr fun s => ?_)
  rw [List.mem_filter, and_assoc]
  exact and_congr_right fun _ => and_congr_right fun _ => eq_comm

theorem pairwise_structural (h : log.Pairwise fun a b => a.ts ≠ b.ts) :
    (structural cursor seen log).Pairwise fun a b => a.ts ≠ b.ts := by
  induction log generalizing seen with
  | nil => exact List.Pairwise.nil
  | cons op log ih =>
    obtain ⟨hop, hlog⟩ := List.pairwise_cons.1 h
    unfold structural
    split_ifs
    · refine List.pairwise_cons.2 ⟨fun c hc => ?_, ih hlog⟩
      obtain ⟨o, ho, -, first, rfl⟩ := of_mem_structural hc
      exact hop o ho
    · exact ih hlog

/-- The timestamps of the two logs are distinct, within each and across. -/
structure Distinct (f : ChangeLog) : Prop where
  moves : f.moveLog.Pairwise fun a b => a.ts ≠ b.ts
  content : Ascending StampedContentOp.ts f.contentLog
  apart : ∀ op ∈ f.moveLog, ∀ s ∈ f.contentLog, op.ts ≠ s.ts

theorem Distinct.move_injective (h : f.Distinct) {a b : MoveOp} (ha : a ∈ f.moveLog)
    (hb : b ∈ f.moveLog) (hts : a.ts = b.ts) : a = b :=
  List.inj_on_of_nodup_map (List.pairwise_map.2 h.moves) ha hb hts

theorem admits_of_mem_merged (h : c ∈ f.merged cursor) : cursor.admits c.ts = true := by
  rcases mem_merged.1 h with h | ⟨s, -, ha, rfl⟩
  · obtain ⟨op, -, ha, first, rfl⟩ := of_mem_structural h
    exact ha
  · exact ha

/-- Changes with distinct timestamps are in ascending order. -/
theorem ascending_merged_of (hmoves : f.moveLog.Pairwise fun a b => a.ts ≠ b.ts)
    (hcontent : f.contentLog.Pairwise fun a b => a.ts ≠ b.ts)
    (hapart : ∀ op ∈ f.moveLog, ∀ s ∈ f.contentLog, op.ts ≠ s.ts) (cursor : Cursor) :
    Ascending Change.ts (f.merged cursor) := by
  refine ascending_insertionSort (List.pairwise_append.2 ⟨pairwise_structural hmoves, ?_, ?_⟩)
  · exact List.pairwise_map.2 (hcontent.sublist List.filter_sublist)
  · intro a ha b hb
    obtain ⟨op, hop, -, first, rfl⟩ := of_mem_structural ha
    obtain ⟨s, hs, rfl⟩ := List.mem_map.1 hb
    exact hapart op hop s (List.mem_of_mem_filter hs)

theorem Distinct.ascending_merged (h : f.Distinct) (cursor : Cursor) :
    Ascending Change.ts (f.merged cursor) :=
  ascending_merged_of h.moves (h.content.imp ne_of_lt) h.apart cursor

/-- Without a limit a poll returns all changes. -/
theorem changesSince_zero (f : ChangeLog) (cursor : Cursor) :
    (f.changesSince cursor 0).1 = (f.merged cursor).map f.fill := by
  simp [changesSince]

/-! ## Two feeds of the same operations -/

/-- A poll depends on the merged changes and on what fills them in. -/
theorem changesSince_congr (hmerged : f.merged cursor = f'.merged cursor) (hfill : f.fill = f'.fill)
    (limit : ℕ) : f.changesSince cursor limit = f'.changesSince cursor limit := by
  simp only [changesSince, hmerged, hfill]

/-- A move that is no deletion is the first of its node in both logs or in neither. -/
def SameFirst (log log' : List MoveOp) : Prop :=
  ∀ op ∈ log, op.newParent ≠ TRASH → (IsFirst log op ↔ IsFirst log' op)

instance (log log' : List MoveOp) : Decidable (SameFirst log log') :=
  inferInstanceAs (Decidable (∀ op ∈ log, _))

theorem SameFirst.symm {log' : List MoveOp} (h : SameFirst log log')
    (hmem : ∀ op, op ∈ log ↔ op ∈ log') : SameFirst log' log :=
  fun op hop ht => (h op ((hmem op).2 hop) ht).symm

/-- Being first shows in the kind of a move, unless it is a deletion. -/
theorem moveKind_inj {first first' : Bool} {op : MoveOp} :
    moveKind first op = moveKind first' op ↔ op.newParent = TRASH ∨ first = first' := by
  by_cases ht : op.newParent = TRASH
  · simp [moveKind, ht]
  · cases first <;> cases first' <;> simp [moveKind, ht]

/-- Scans of the same moves report the same changes if the first moves agree. -/
theorem SameFirst.mem_structural {log' : List MoveOp} (h : SameFirst log log')
    (hdist : log.Pairwise fun a b => a.ts ≠ b.ts) (hdist' : log'.Pairwise fun a b => a.ts ≠ b.ts)
    (hmem : ∀ op, op ∈ log ↔ op ∈ log') (hc : c ∈ structural cursor [] log) :
    c ∈ structural cursor [] log' := by
  obtain ⟨op, hop, ha, rfl⟩ := (ChangeLog.mem_structural hdist).1 hc
  refine (ChangeLog.mem_structural hdist').2 ⟨op, (hmem op).1 hop, ha, ?_⟩
  rw [moveChange, moveChange, moveKind_inj.2 (or_iff_not_imp_left.2 fun ht => ?_)]
  exact decide_eq_decide.2 (and_congr_right fun _ => h op hop ht)

/-- If the first polls report the same, a move that is first in one log only is a
deletion. -/
theorem trash_of_first (hf : f.Distinct) (hf' : f'.Distinct) {op : MoveOp} (hop : op ∈ f'.moveLog)
    (h : (f.changesSince Cursor.beginning 0).1 = (f'.changesSince Cursor.beginning 0).1)
    (hfirst : IsFirst f.moveLog op) (hlater : ¬IsFirst f'.moveLog op) : op.newParent = TRASH := by
  rw [changesSince_zero, changesSince_zero] at h
  have hc : moveChange true op ∈ f.merged Cursor.beginning :=
    mem_merged.2 (Or.inl ((mem_structural hf.moves).2 ⟨op, hfirst.mem, rfl, by simp [hfirst]⟩))
  obtain ⟨c, hc, heq⟩ := List.mem_map.1 (h ▸ List.mem_map_of_mem (f := f.fill) hc)
  have hts : c.ts = op.ts := congrArg Change.ts heq
  rcases mem_merged.1 hc with hc | ⟨s, hs, -, rfl⟩
  · obtain ⟨o, ho, -, rfl⟩ := (mem_structural hf'.moves).1 hc
    obtain rfl : o = op := hf'.move_injective ho hop hts
    have hkind := moveKind_inj.1 (congrArg Change.kind heq)
    simpa [hlater] using hkind
  · exact absurd hts.symm (hf'.apart op hop s hs)

/-- If the first polls report the same, the first moves agree. -/
theorem sameFirst_of_changesSince (hf : f.Distinct) (hf' : f'.Distinct)
    (hmem : ∀ op, op ∈ f.moveLog ↔ op ∈ f'.moveLog)
    (h : (f.changesSince Cursor.beginning 0).1 = (f'.changesSince Cursor.beginning 0).1) :
    SameFirst f.moveLog f'.moveLog := by
  intro op hop ht
  constructor
  · intro hfirst
    by_contra hlater
    exact ht (trash_of_first hf hf' ((hmem op).1 hop) h hfirst hlater)
  · intro hfirst
    by_contra hlater
    exact ht (trash_of_first hf' hf hop h.symm hfirst hlater)

/-- Two feeds of the same operations, with trees alike, report the same at every cursor if
and only if the first moves agree. -/
theorem changesSince_eq_iff_sameFirst (hf : f.Distinct) (hf' : f'.Distinct)
    (hmem : ∀ op, op ∈ f.moveLog ↔ op ∈ f'.moveLog) (hcontent : f.contentLog = f'.contentLog)
    (htree : f.tree.Alike f'.tree) :
    (∀ cursor limit, f.changesSince cursor limit = f'.changesSince cursor limit) ↔
      SameFirst f.moveLog f'.moveLog := by
  refine ⟨fun h => sameFirst_of_changesSince hf hf' hmem (congrArg Prod.fst (h _ _)),
    fun h cursor limit => ?_⟩
  have hfill : f.fill = f'.fill := by
    funext c
    simp only [fill, htree.path, DriveTree.edge, htree.view.1]
  refine changesSince_congr ?_ hfill limit
  refine (hf.ascending_merged cursor).ext (hf'.ascending_merged cursor) fun c => ?_
  rw [mem_merged, mem_merged, hcontent]
  refine or_congr_left ⟨h.mem_structural hf.moves hf'.moves hmem, ?_⟩
  exact (h.symm hmem).mem_structural hf'.moves hf.moves fun op => (hmem op).symm

end ChangeLog

namespace Drive

variable {d d' : Drive} {ops : List DriveOp}

def changesSince (d : Drive) (cursor : Cursor) (limit : ℕ) : List Change × Cursor :=
  (ChangeLog.new d.state d.tree).changesSince cursor limit

/-- The logs of a fresh drive that received operations with distinct timestamps hold exactly
these. -/
theorem logs_receiveAll {name : String} {replica : ReplicaId}
    (hdist : ops.Pairwise fun a b => a.ts ≠ b.ts)
    (hr : (init name replica).receiveAll ops = some d) :
    d.Inv ∧ d.state.moveLog = ops.filterMap DriveOp.move? ∧
      (∀ s, s ∈ d.state.contentLog ↔ DriveOp.content s ∈ ops) ∧
      (ChangeLog.new d.state d.tree).Distinct := by
  obtain ⟨hinv, hmoves, hcontent⟩ := (inv_init name replica).receiveAll hr
  have hmoves : d.state.moveLog = ops.filterMap DriveOp.move? := hmoves
  have hinj : ∀ a ∈ ops, ∀ b ∈ ops, a.ts = b.ts → a = b := fun a ha b hb =>
    List.inj_on_of_nodup_map (List.pairwise_map.2 hdist) ha hb
  have hmem : ∀ s, s ∈ d.state.contentLog ↔ DriveOp.content s ∈ ops := by
    intro s
    have hlog : s ∈ deliverAll StampedContentOp.ts (ops.filterMap DriveOp.content?) ↔
        s ∈ ops.filterMap DriveOp.content? := by
      refine mem_deliverAll fun x hx y hy hts => ?_
      simp only [List.mem_filterMap, DriveOp.content?_eq_some, exists_eq_right] at hx hy
      exact DriveOp.content.inj (hinj _ hx _ hy hts)
    rw [hcontent]
    refine hlog.trans ?_
    simp only [List.mem_filterMap, DriveOp.content?_eq_some, exists_eq_right]
  refine ⟨hinv, hmoves, hmem, ?_, hinv.ascending, fun op hop s hs hts => ?_⟩
  · have hmoves' : (ops.filterMap DriveOp.move?).Pairwise fun a b => a.ts ≠ b.ts := by
      refine List.pairwise_filterMap.2 (hdist.imp fun hab a ha b hb => ?_)
      rw [DriveOp.move?_eq_some.1 ha, DriveOp.move?_eq_some.1 hb] at hab
      exact hab
    rwa [← hmoves] at hmoves'
  · have hop : op ∈ d.state.moveLog := hop
    rw [hmoves] at hop
    simp only [List.mem_filterMap, DriveOp.move?_eq_some, exists_eq_right] at hop
    have := hinj _ hop _ ((hmem s).1 hs) hts
    cases this

/-- The change feed over arrival orders. Two fresh drives that receive the same operations,
which have distinct timestamps, in the orders `ops` and `ops'` return the same changes and
the same next cursor for every cursor and limit, if and only if for each node the moves that
arrive first are the same or both deletions. -/
theorem changesSince_eq_iff (name name' : String) (replica replica' : ReplicaId)
    (ops ops' : List DriveOp) (hdist : ops.Pairwise fun a b => a.ts ≠ b.ts) (hperm : ops.Perm ops')
    (d d' : Drive) (hd : (init name replica).receiveAll ops = some d)
    (hd' : (init name' replica').receiveAll ops' = some d') :
    (∀ cursor limit, d.changesSince cursor limit = d'.changesSince cursor limit) ↔
      ChangeLog.SameFirst (ops.filterMap DriveOp.move?) (ops'.filterMap DriveOp.move?) := by
  have hdist' : ops'.Pairwise fun a b => a.ts ≠ b.ts := hdist.perm hperm fun h => Ne.symm h
  obtain ⟨hinv, hmoves, hcontent, hlog⟩ := logs_receiveAll hdist hd
  obtain ⟨hinv', hmoves', hcontent', hlog'⟩ := logs_receiveAll hdist' hd'
  have hmem : ∀ op, op ∈ d.state.moveLog ↔ op ∈ d'.state.moveLog := fun op => by
    rw [hmoves, hmoves']
    exact (hperm.filterMap _).mem_iff
  rw [← hmoves, ← hmoves']
  refine ChangeLog.changesSince_eq_iff_sameFirst hlog hlog' hmem ?_ ?_
  · refine hinv.ascending.ext hinv'.ascending fun s => ?_
    exact (hcontent s).trans (hperm.mem_iff.trans (hcontent' s).symm)
  · have hinj : ∀ a ∈ d.state.moveLog, ∀ b ∈ d.state.moveLog, a.ts = b.ts → a = b :=
      fun a ha b hb => hlog.move_injective ha hb
    have halike := DriveTree.alike_applyAll hinj hmem
    rwa [← hinv.tree, ← hinv'.tree] at halike

/-- A file created, saved and moved into a directory, the directory last. -/
def feedOps : List DriveOp :=
  [.move ⟨⟨1, "a"⟩, "f", ROOT, "f", .file⟩, .content ⟨⟨2, "a"⟩, .set "f" "c1" 1 0 100⟩,
    .move ⟨⟨4, "b"⟩, "f", "d", "g", .file⟩, .move ⟨⟨3, "a"⟩, "d", ROOT, "d", .dir⟩]

/-- The directory arrives before the move into it, or after it. -/
theorem changesSince_eq_iff_late :
    let ops' := feedOps.take 2 ++ (feedOps.drop 2).reverse
    let d := ((init "d" "x").receiveAll feedOps).get (by decide +kernel)
    let d' := ((init "d" "y").receiveAll ops').get (by decide +kernel)
    ∀ cursor limit, d.changesSince cursor limit = d'.changesSince cursor limit := by
  intro ops' d d'
  refine (changesSince_eq_iff "d" "d" "x" "y" feedOps ops' (by decide) (by decide) d d'
    (Option.some_get _).symm (Option.some_get _).symm).2 (by decide)

/-- The move of the file arrives before its creation : one drive reports a creation at the
earlier time, the other at the later one. -/
theorem changesSince_depends_on_arrival :
    let d := ((init "d" "x").receiveAll feedOps).get (by decide +kernel)
    let d' := ((init "d" "y").receiveAll feedOps.reverse).get (by decide +kernel)
    d.changesSince .beginning 0 ≠ d'.changesSince .beginning 0 := by
  decide +kernel

end Drive

end CeDrive
