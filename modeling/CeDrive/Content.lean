import CeDrive.Tree

/-!
# The content map

`crates/ce-drive-core/src/content.rs`. The content of a file is its current pointer and a
capped list of prior versions. `record` is last-writer-wins on `(mtime_ms, cid)`; `restore`
makes a prior version current. A content operation reads and writes the record of one node,
so folding a log is folding, node by node, the operations on that node (`getElem?_foldl`).
-/

open Std SortedLog

namespace CeDrive

/-- How many prior versions a file keeps. -/
def MAX_VERSIONS : ℕ := 32

/-- One prior content of a file. -/
structure Version where
  setAtMs : ℕ
  cid : String
  size : ℕ
  /-- A concurrent edit that lost, not ordinary history. -/
  conflict : Bool
  deriving DecidableEq, Repr

/-- The content of one file. -/
structure FileContent where
  cid : String
  size : ℕ
  mode : ℕ
  mtimeMs : ℕ
  /-- Prior versions, oldest first. -/
  versions : List Version
  docId : Option String
  deriving DecidableEq, Repr

namespace FileContent

def new (cid : String) (size mode mtimeMs : ℕ) : FileContent :=
  ⟨cid, size, mode, mtimeMs, [], none⟩

/-- Append a version, unless the last one has its cid, and drop the oldest over the cap. -/
def pushVersion (c : FileContent) (v : Version) : FileContent :=
  if (c.versions.getLast?).any fun l => l.cid = v.cid then c
  else if (c.versions ++ [v]).length > MAX_VERSIONS then
    { c with versions := (c.versions ++ [v]).drop ((c.versions ++ [v]).length - MAX_VERSIONS) }
  else { c with versions := c.versions ++ [v] }

/-- Record a save. Returns whether it became current. -/
def record (c : FileContent) (cid : String) (size mtimeMs : ℕ) : Bool × FileContent :=
  if cid = c.cid then (false, c)
  else if ¬(mtimeMs > c.mtimeMs ∨ mtimeMs = c.mtimeMs ∧ cid > c.cid) then
    -- the save loses : it goes to the history, as a conflict if it is not older
    (false, c.pushVersion ⟨mtimeMs, cid, size, decide (mtimeMs ≥ c.mtimeMs)⟩)
  else
    (true, { c.pushVersion ⟨c.mtimeMs, c.cid, c.size, decide (mtimeMs = c.mtimeMs)⟩ with
      cid := cid
      size := size
      mtimeMs := mtimeMs })

/-- Make a prior version current. Returns whether there is one. -/
def restore (c : FileContent) (cid : String) (nowMs : ℕ) : Bool × FileContent :=
  match c.versions.find? fun v => v.cid = cid with
  | some v =>
    (true, { c.pushVersion ⟨c.mtimeMs, c.cid, c.size, false⟩ with
      cid := v.cid
      size := v.size
      mtimeMs := nowMs })
  | none => (false, c)

variable {c : FileContent} {v : Version}

@[simp] theorem cid_pushVersion : (c.pushVersion v).cid = c.cid := by
  unfold pushVersion
  split_ifs <;> rfl

@[simp] theorem mode_pushVersion : (c.pushVersion v).mode = c.mode := by
  unfold pushVersion
  split_ifs <;> rfl

@[simp] theorem docId_pushVersion : (c.pushVersion v).docId = c.docId := by
  unfold pushVersion
  split_ifs <;> rfl

/-- A save is ignored, loses, or becomes current. -/
theorem record_cases (c : FileContent) (cid : String) (size mtimeMs : ℕ) :
    (cid = c.cid ∧ (c.record cid size mtimeMs).2 = c) ∨
    (cid ≠ c.cid ∧ ¬(mtimeMs > c.mtimeMs ∨ mtimeMs = c.mtimeMs ∧ cid > c.cid) ∧
      ∃ v, (c.record cid size mtimeMs).2 = c.pushVersion v) ∨
    (cid ≠ c.cid ∧ (mtimeMs > c.mtimeMs ∨ mtimeMs = c.mtimeMs ∧ cid > c.cid) ∧
      (c.record cid size mtimeMs).2 =
        { c.pushVersion ⟨c.mtimeMs, c.cid, c.size, decide (mtimeMs = c.mtimeMs)⟩ with
          cid := cid
          size := size
          mtimeMs := mtimeMs }) := by
  unfold record
  split_ifs with hcid hwin
  · exact Or.inl ⟨hcid, rfl⟩
  · exact Or.inr (Or.inr ⟨hcid, hwin, rfl⟩)
  · exact Or.inr (Or.inl ⟨hcid, hwin, _, rfl⟩)

/-- A save is current afterwards if its cid was, or if it wins. -/
theorem cid_record_eq_iff (c : FileContent) (cid : String) (size mtimeMs : ℕ) :
    (c.record cid size mtimeMs).2.cid = cid ↔
      c.cid = cid ∨ c.mtimeMs < mtimeMs ∨ c.mtimeMs = mtimeMs ∧ c.cid < cid := by
  have hwins : (mtimeMs > c.mtimeMs ∨ mtimeMs = c.mtimeMs ∧ cid > c.cid) ↔
      (c.mtimeMs < mtimeMs ∨ c.mtimeMs = mtimeMs ∧ c.cid < cid) := by
    rw [gt_iff_lt, gt_iff_lt, eq_comm]
  rcases record_cases c cid size mtimeMs with ⟨hcid, heq⟩ | ⟨hcid, hl, v, heq⟩ | ⟨hcid, hw, heq⟩
  · exact iff_of_true (by rw [heq, hcid]) (Or.inl hcid.symm)
  · rw [heq, cid_pushVersion]
    exact ⟨Or.inl, fun h => h.resolve_right fun hw => hl (hwins.2 hw)⟩
  · exact iff_of_true (by rw [heq]) (Or.inr (hwins.1 hw))

/-- `Vec::dedup` : drop an element equal to the one before it. -/
def dedup : List String → List String
  | a :: b :: l => if a = b then dedup (b :: l) else a :: dedup (b :: l)
  | l => l

theorem mem_dedup {x : String} : ∀ {l : List String}, x ∈ dedup l ↔ x ∈ l
  | [] => Iff.rfl
  | [_] => Iff.rfl
  | a :: b :: l => by
    by_cases hab : a = b
    · subst hab
      simp [dedup, mem_dedup (l := a :: l)]
    · rw [dedup, if_neg hab, List.mem_cons, List.mem_cons, mem_dedup]

/-- The distinct cids of the current pointer and the history. -/
def allCids (c : FileContent) : List String :=
  dedup ((c.cid :: c.versions.map Version.cid).insertionSort (· ≤ ·))

end FileContent

/-- A mutation of the content map. -/
inductive ContentOp
  | set (id : NodeId) (cid : String) (size mode mtimeMs : ℕ)
  | restore (id : NodeId) (cid : String) (nowMs : ℕ)
  | remove (id : NodeId)
  | setDoc (id : NodeId) (docId : String)
  deriving DecidableEq, Repr

/-- The node an operation targets (`op_target`). -/
def ContentOp.target : ContentOp → NodeId
  | set id .. => id
  | restore id .. => id
  | remove id => id
  | setDoc id _ => id

abbrev ContentMap := ExtTreeMap NodeId FileContent

namespace ContentMap

/-- `StateMachine::apply`. -/
def apply (m : ContentMap) : ContentOp → ContentMap
  | .set id cid size mode mtimeMs =>
    match m[id]? with
    | some existing => m.insert id ({ existing with mode := mode }.record cid size mtimeMs).2
    | none => m.insert id (FileContent.new cid size mode mtimeMs)
  | .restore id cid nowMs =>
    match m[id]? with
    | some c => m.insert id (c.restore cid nowMs).2
    | none => m
  | .remove id => m.erase id
  | .setDoc id docId =>
    match m[id]? with
    | some c => m.insert id { c with docId := some docId }
    | none => m

/-- The distinct cids of all files. -/
def allCids (m : ContentMap) : List String :=
  FileContent.dedup ((m.toList.flatMap fun e => e.2.allCids).insertionSort (· ≤ ·))

theorem mem_allCids {m : ContentMap} {x : String} :
    x ∈ m.allCids ↔ ∃ (id : NodeId) (c : FileContent), m[id]? = some c ∧ x ∈ c.allCids := by
  simp [allCids, FileContent.mem_dedup, ExtTreeMap.mem_toList_iff_getElem?_eq_some]

/-! ## One record at a time -/

/-- What an operation does to the record of its target. -/
def applyRecord (r : Option FileContent) : ContentOp → Option FileContent
  | .set _ cid size mode mtimeMs =>
    match r with
    | some existing => some ({ existing with mode := mode }.record cid size mtimeMs).2
    | none => some (FileContent.new cid size mode mtimeMs)
  | .restore _ cid nowMs => r.map fun c => (c.restore cid nowMs).2
  | .remove _ => none
  | .setDoc _ docId => r.map fun c => { c with docId := some docId }

/-- An operation changes the record of its target only. -/
theorem getElem?_apply (m : ContentMap) (op : ContentOp) (id : NodeId) :
    (m.apply op)[id]? = if op.target = id then applyRecord m[id]? op else m[id]? := by
  by_cases hid : op.target = id
  · subst hid
    rw [if_pos rfl]
    cases op with
    | remove => simp [apply, applyRecord, ContentOp.target]
    | set id => cases h : m[id]? <;> simp [apply, applyRecord, ContentOp.target, h]
    | restore id => cases h : m[id]? <;> simp [apply, applyRecord, ContentOp.target, h]
    | setDoc id => cases h : m[id]? <;> simp [apply, applyRecord, ContentOp.target, h]
  · rw [if_neg hid]
    cases op with
    | remove id' => simp [apply, ExtTreeMap.getElem?_erase, show ¬id' = id from hid]
    | set id' =>
      cases h : m[id']? <;> simp [apply, h, ExtTreeMap.getElem?_insert, show ¬id' = id from hid]
    | restore id' =>
      cases h : m[id']? <;> simp [apply, h, ExtTreeMap.getElem?_insert, show ¬id' = id from hid]
    | setDoc id' =>
      cases h : m[id']? <;> simp [apply, h, ExtTreeMap.getElem?_insert, show ¬id' = id from hid]

/-- Folding operations is folding, node by node, the operations on that node. -/
theorem getElem?_foldl (m : ContentMap) (ops : List ContentOp) (id : NodeId) :
    (ops.foldl apply m)[id]? =
      (ops.filter fun op => op.target = id).foldl applyRecord m[id]? := by
  induction ops generalizing m with
  | nil => rfl
  | cons op ops ih =>
    rw [List.foldl_cons, ih, getElem?_apply]
    by_cases hid : op.target = id
    · rw [if_pos hid, List.filter_cons_of_pos (by simpa using hid), List.foldl_cons]
    · rw [if_neg hid, List.filter_cons_of_neg (by simpa using hid)]

end ContentMap

/-- A content operation with its total-order key. -/
structure StampedContentOp where
  ts : Timestamp
  op : ContentOp
  deriving DecidableEq

/-- Fold a log in ascending timestamp order (`fold_content`). -/
def foldContent (log : List StampedContentOp) : ContentMap :=
  (log.insertionSort fun a b => a.ts ≤ b.ts).foldl (fun m s => m.apply s.op) ∅

/-- Fold again the record of one node, from the operations that target it (`refold_key`). -/
def refoldKey (content : ContentMap) (log : List StampedContentOp) (id : NodeId) : ContentMap :=
  ((log.filter fun s => s.op.target = id).insertionSort fun a b => a.ts ≤ b.ts).foldl
    (fun m s => m.apply s.op) (content.erase id)

/-- The record a log leaves for one node. -/
def foldRecord (log : List StampedContentOp) (id : NodeId) : Option FileContent :=
  ((log.map StampedContentOp.op).filter fun op => op.target = id).foldl ContentMap.applyRecord none

theorem foldContent_of_ascending {log : List StampedContentOp}
    (h : Ascending StampedContentOp.ts log) :
    foldContent log = (log.map StampedContentOp.op).foldl ContentMap.apply ∅ := by
  rw [foldContent, h.insertionSort_eq, List.foldl_map]

/-- The map a sorted log folds to, node by node. -/
theorem getElem?_foldContent {log : List StampedContentOp}
    (h : Ascending StampedContentOp.ts log) (id : NodeId) :
    (foldContent log)[id]? = foldRecord log id := by
  rw [foldContent_of_ascending h, ContentMap.getElem?_foldl, foldRecord]
  simp

/-- A delivered operation does not change the records of other nodes. -/
theorem foldRecord_deliver_of_ne {log : List StampedContentOp} {s : StampedContentOp} {n : NodeId}
    (h : Ascending StampedContentOp.ts log) (hn : s.op.target ≠ n) :
    foldRecord (deliver StampedContentOp.ts log s) n = foldRecord log n := by
  by_cases hdup : ∃ s' ∈ log, s'.ts = s.ts
  · rw [h.deliver_of_mem hdup]
  · rw [h.deliver_of_not_mem fun s' hs' he => hdup ⟨s', hs', he⟩, foldRecord, foldRecord,
      List.map_append, List.map_cons, List.filter_append,
      List.filter_cons_of_neg (by simpa using hn), ← List.filter_append, ← List.map_append,
      List.takeWhile_append_dropWhile]

/-- Appending an operation to a sorted log applies it to the folded map. -/
theorem foldContent_append {log : List StampedContentOp} {s : StampedContentOp}
    (h : Ascending StampedContentOp.ts (log ++ [s])) :
    foldContent (log ++ [s]) = (foldContent log).apply s.op := by
  rw [foldContent_of_ascending h,
    foldContent_of_ascending (h.sublist (List.sublist_append_left log [s]))]
  simp

/-- Refolding one node of a sorted log agrees with the full fold there, and leaves the
other nodes alone. -/
theorem getElem?_refoldKey {log : List StampedContentOp} (h : Ascending StampedContentOp.ts log)
    (m : ContentMap) (id n : NodeId) :
    (refoldKey m log id)[n]? = if n = id then foldRecord log id else m[n]? := by
  have hsub : Ascending StampedContentOp.ts (log.filter fun s => s.op.target = id) :=
    h.sublist List.filter_sublist
  have hmap : (log.filter fun s => s.op.target = id).map StampedContentOp.op =
      (log.map StampedContentOp.op).filter fun op => op.target = id := by
    rw [List.filter_map]
    rfl
  rw [refoldKey, hsub.insertionSort_eq, ← List.foldl_map (f := StampedContentOp.op), hmap,
    ContentMap.getElem?_foldl, List.filter_filter]
  by_cases hn : n = id
  · subst hn
    simp [foldRecord]
  · have hnone : ∀ op ∈ log.map StampedContentOp.op,
        ¬(decide (op.target = n) && decide (op.target = id)) = true := by
      rintro op - hop
      simp only [Bool.and_eq_true, decide_eq_true_eq] at hop
      exact hn (hop.1.symm.trans hop.2)
    rw [if_neg hn, List.filter_eq_nil_iff.2 hnone]
    simp [ExtTreeMap.getElem?_erase, Ne.symm hn]

end CeDrive
