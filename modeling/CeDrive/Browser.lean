import CeDrive.Content

/-!
# The content map in the browser

`crates/ce-drive-wasm/src/crdt.rs` and `lib.rs`. The browser holds its own copy of the
content map, without the conflict flags of versions (`plain`), and applies content operations
as they arrive : operation by operation it does what the core does (`agree_apply`), but it
neither sorts nor deduplicates.

So the browser agrees with the core's ascending fold for every order of arrival only if the
operations on each file can be applied in any order and any number of times. Delivering one
of them again must then leave the final record as it is, which leaves few sets of operations
(`OrderFree`).
-/

open Std

namespace CeDrive

namespace Browser

/-- One prior version. -/
structure Version where
  setAtMs : ℕ
  cid : String
  size : ℕ
  deriving DecidableEq, Repr

/-- The content of one file. -/
structure FileContent where
  cid : String
  size : ℕ
  mode : ℕ
  mtimeMs : ℕ
  versions : List Version
  docId : Option String
  deriving DecidableEq, Repr

namespace FileContent

def new (cid : String) (size mode mtimeMs : ℕ) : FileContent :=
  ⟨cid, size, mode, mtimeMs, [], none⟩

/-- Append a version, unless the last one has its cid, and drop the oldest over the cap. -/
def pushVersion (c : FileContent) (v : Version) : FileContent :=
  if (c.versions.getLast?).any fun l => l.cid = v.cid then c
  else if (c.versions ++ [v]).length > MAX_VERSIONS then
    { c with versions := (c.versions ++ [v]).drop ((c.versions ++ [v]).length - MAX_VERSIONS) }
  else { c with versions := c.versions ++ [v] }

/-- Record a save. Returns whether it became current. -/
def record (c : FileContent) (cid : String) (size mtimeMs : ℕ) : Bool × FileContent :=
  if cid = c.cid then (false, c)
  else if ¬(mtimeMs > c.mtimeMs ∨ mtimeMs = c.mtimeMs ∧ cid > c.cid) then
    (false, c.pushVersion ⟨mtimeMs, cid, size⟩)
  else
    (true, { c.pushVersion ⟨c.mtimeMs, c.cid, c.size⟩ with
      cid := cid
      size := size
      mtimeMs := mtimeMs })

/-- Make a prior version current. Returns whether there is one. -/
def restore (c : FileContent) (cid : String) (nowMs : ℕ) : Bool × FileContent :=
  match c.versions.find? fun v => v.cid = cid with
  | some v =>
    (true, { c.pushVersion ⟨c.mtimeMs, c.cid, c.size⟩ with
      cid := v.cid
      size := v.size
      mtimeMs := nowMs })
  | none => (false, c)

end FileContent

abbrev ContentMap := ExtTreeMap NodeId FileContent

/-- `ContentMap::apply`. -/
def ContentMap.apply (m : ContentMap) : ContentOp → ContentMap
  | .set id cid size mode mtimeMs =>
    match m[id]? with
    | some existing => m.insert id ({ existing with mode := mode }.record cid size mtimeMs).2
    | none => m.insert id (FileContent.new cid size mode mtimeMs)
  | .restore id cid nowMs =>
    match m[id]? with
    | some c => m.insert id (c.restore cid nowMs).2
    | none => m
  | .remove id => m.erase id
  | .setDoc id docId =>
    match m[id]? with
    | some c => m.insert id { c with docId := some docId }
    | none => m

/-- The handle exported to the browser, without its tree. -/
structure DriveCrdt where
  replica : ReplicaId
  lamport : ℕ
  content : ContentMap

namespace DriveCrdt

def new (replica : ReplicaId) : DriveCrdt :=
  ⟨replica, 0, ∅⟩

def observe (d : DriveCrdt) (ts : Timestamp) : DriveCrdt :=
  { d with lamport := max d.lamport ts.lamport }

/-- `apply_content_op` on an operation that decodes. -/
def applyContentOp (d : DriveCrdt) (stamped : StampedContentOp) : DriveCrdt :=
  let d := d.observe stamped.ts
  { d with content := d.content.apply stamped.op }

def applyContentOps (d : DriveCrdt) (ops : List StampedContentOp) : DriveCrdt :=
  ops.foldl applyContentOp d

theorem content_applyContentOps (d : DriveCrdt) (ops : List StampedContentOp) :
    (d.applyContentOps ops).content = (ops.map StampedContentOp.op).foldl ContentMap.apply d.content := by
  induction ops generalizing d with
  | nil => rfl
  | cons s ops ih => exact ih (d.applyContentOp s)

end DriveCrdt

/-! ## The core without conflict flags -/

/-- A version without its conflict flag. -/
def plainVersion (v : CeDrive.Version) : Version :=
  ⟨v.setAtMs, v.cid, v.size⟩

/-- A record without conflict flags. -/
def plain (c : CeDrive.FileContent) : FileContent :=
  ⟨c.cid, c.size, c.mode, c.mtimeMs, c.versions.map plainVersion, c.docId⟩

theorem plain_pushVersion (c : CeDrive.FileContent) (v : CeDrive.Version) :
    plain (c.pushVersion v) = (plain c).pushVersion (plainVersion v) := by
  have hlast : ((plain c).versions.getLast?).any (fun l => l.cid = (plainVersion v).cid) =
      (c.versions.getLast?).any fun l => l.cid = v.cid := by
    rw [plain, List.getLast?_map, Option.any_map]
    rfl
  unfold CeDrive.FileContent.pushVersion FileContent.pushVersion
  rw [hlast]
  split_ifs <;> simp_all [plain]

theorem plain_record (c : CeDrive.FileContent) (cid : String) (size mtimeMs : ℕ) :
    plain (c.record cid size mtimeMs).2 = ((plain c).record cid size mtimeMs).2 := by
  unfold CeDrive.FileContent.record FileContent.record
  rw [show (plain c).cid = c.cid from rfl, show (plain c).mtimeMs = c.mtimeMs from rfl]
  split_ifs with hcid hwins
  · rfl
  · exact congrArg (fun r : FileContent => { r with cid := cid, size := size, mtimeMs := mtimeMs })
      (plain_pushVersion c ⟨c.mtimeMs, c.cid, c.size, decide (mtimeMs = c.mtimeMs)⟩)
  · exact plain_pushVersion c _

theorem plain_restore (c : CeDrive.FileContent) (cid : String) (nowMs : ℕ) :
    plain (c.restore cid nowMs).2 = ((plain c).restore cid nowMs).2 := by
  have hfind : ((plain c).versions.find? fun v => v.cid = cid) =
      (c.versions.find? fun v => v.cid = cid).map plainVersion := by
    rw [plain, List.find?_map]
    rfl
  unfold CeDrive.FileContent.restore FileContent.restore
  rw [hfind]
  cases c.versions.find? fun v => v.cid = cid with
  | none => rfl
  | some v =>
    exact congrArg (fun r : FileContent => { r with cid := v.cid, size := v.size, mtimeMs := nowMs })
      (plain_pushVersion c ⟨c.mtimeMs, c.cid, c.size, false⟩)

/-- What an operation does to the record of its target. -/
def applyRecord (r : Option FileContent) : ContentOp → Option FileContent
  | .set _ cid size mode mtimeMs =>
    match r with
    | some existing => some ({ existing with mode := mode }.record cid size mtimeMs).2
    | none => some (FileContent.new cid size mode mtimeMs)
  | .restore _ cid nowMs => r.map fun c => (c.restore cid nowMs).2
  | .remove _ => none
  | .setDoc _ docId => r.map fun c => { c with docId := some docId }

theorem map_plain_applyRecord (r : Option CeDrive.FileContent) (op : ContentOp) :
    (CeDrive.ContentMap.applyRecord r op).map plain = applyRecord (r.map plain) op := by
  cases op with
  | set id cid size mode mtimeMs =>
    cases r with
    | none => rfl
    | some c => exact congrArg some (plain_record { c with mode := mode } cid size mtimeMs)
  | restore id cid nowMs =>
    cases r with
    | none => rfl
    | some c => exact congrArg some (plain_restore c cid nowMs)
  | remove => rfl
  | setDoc id docId => cases r <;> rfl

/-- An operation changes the record of its target only. -/
theorem getElem?_apply (m : ContentMap) (op : ContentOp) (id : NodeId) :
    (m.apply op)[id]? = if op.target = id then applyRecord m[id]? op else m[id]? := by
  by_cases hid : op.target = id
  · subst hid
    rw [if_pos rfl]
    cases op with
    | remove => simp [ContentMap.apply, applyRecord, ContentOp.target]
    | set id => cases h : m[id]? <;> simp [ContentMap.apply, applyRecord, ContentOp.target, h]
    | restore id => cases h : m[id]? <;> simp [ContentMap.apply, applyRecord, ContentOp.target, h]
    | setDoc id => cases h : m[id]? <;> simp [ContentMap.apply, applyRecord, ContentOp.target, h]
  · rw [if_neg hid]
    cases op with
    | remove id' => simp [ContentMap.apply, ExtTreeMap.getElem?_erase, show ¬id' = id from hid]
    | set id' =>
      cases h : m[id']? <;>
        simp [ContentMap.apply, h, ExtTreeMap.getElem?_insert, show ¬id' = id from hid]
    | restore id' =>
      cases h : m[id']? <;>
        simp [ContentMap.apply, h, ExtTreeMap.getElem?_insert, show ¬id' = id from hid]
    | setDoc id' =>
      cases h : m[id']? <;>
        simp [ContentMap.apply, h, ExtTreeMap.getElem?_insert, show ¬id' = id from hid]

/-- The browser's map is the core's without conflict flags. -/
def Agree (m : CeDrive.ContentMap) (m' : ContentMap) : Prop :=
  ∀ id : NodeId, m'[id]? = m[id]?.map plain

/-- Operation by operation the browser does what the core does. -/
theorem agree_apply {m : CeDrive.ContentMap} {m' : ContentMap} (h : Agree m m') (op : ContentOp) :
    Agree (m.apply op) (m'.apply op) := by
  intro id
  rw [getElem?_apply, CeDrive.ContentMap.getElem?_apply, h id]
  split_ifs
  · rw [map_plain_applyRecord]
  · rfl

theorem agree_foldl {m : CeDrive.ContentMap} {m' : ContentMap} (h : Agree m m') (ops : List ContentOp) :
    Agree (ops.foldl CeDrive.ContentMap.apply m) (ops.foldl ContentMap.apply m') := by
  induction ops generalizing m m' with
  | nil => exact h
  | cons op ops ih => exact ih (agree_apply h op)

/-- Folding operations is folding, node by node, the operations on that node. -/
theorem getElem?_foldl (m : ContentMap) (ops : List ContentOp) (id : NodeId) :
    (ops.foldl ContentMap.apply m)[id]? =
      (ops.filter fun op => op.target = id).foldl applyRecord m[id]? := by
  induction ops generalizing m with
  | nil => rfl
  | cons op ops ih =>
    rw [List.foldl_cons, ih, getElem?_apply]
    by_cases hid : op.target = id
    · rw [if_pos hid, List.filter_cons_of_pos (by simpa using hid), List.foldl_cons]
    · rw [if_neg hid, List.filter_cons_of_neg (by simpa using hid)]

end Browser

end CeDrive
