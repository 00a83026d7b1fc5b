import CeDrive.Content
import CeDrive.Names

/-!
# The drive

`crates/ce-drive-core/src/drive.rs`. A drive is its persisted state (a Lamport clock, a
move log and a content log) with two live views, the tree and the content map.

A public operation returns `none` when the clock would pass `u64::MAX` : the addition
panics in a build with overflow checks and no state is returned. Otherwise it returns its
`Result` with the drive after it. An error is the text the source gives it. The id counter
of the process is passed in and out of the operations that mint ids, the wall clock is a
parameter.
-/

open Std SortedLog

namespace CeDrive

/-- A number in hexadecimal, padded with zeros to `width` digits. -/
def hexPad (width n : ℕ) : String :=
  String.ofList ((Nat.toDigits 16 n).leftpad width '0')

/-- `fresh_node_id` : the tick and the process-wide counter, which it advances. -/
def freshNodeId (lamport ctr : ℕ) : NodeId × ℕ :=
  (hexPad 12 lamport ++ hexPad 8 ctr, (ctr + 1) % 2 ^ 64)

/-- `n + 1` in `u64`, or `none` for the overflow panic. -/
def checkedSucc (n : ℕ) : Option ℕ :=
  if n + 1 < 2 ^ 64 then some (n + 1) else none

theorem checkedSucc_eq_some {n m : ℕ} (h : checkedSucc n = some m) : m = n + 1 := by
  unfold checkedSucc at h
  split at h
  · exact (Option.some_injective _ h).symm
  · cases h

/-- The persisted state of a drive. -/
structure DriveState where
  name : String
  replica : ReplicaId
  lamport : ℕ
  moveLog : List MoveOp
  contentLog : List StampedContentOp

/-- A live drive. -/
structure Drive where
  state : DriveState
  tree : DriveTree
  content : ContentMap

namespace Drive

def init (name : String) (replica : ReplicaId) : Drive :=
  ⟨⟨name, replica, 0, [], []⟩, DriveTree.new, ∅⟩

/-- Rebuild the live views from a persisted state. -/
def fromState (state : DriveState) : Drive :=
  ⟨state, DriveTree.applyAll state.moveLog, foldContent state.contentLog⟩

/-! ## Appending operations -/

/-- Allocate the next timestamp. -/
def tick (d : Drive) : Option (Timestamp × Drive) := do
  let lamport ← checkedSucc d.state.lamport
  return (⟨lamport, d.state.replica⟩, { d with state := { d.state with lamport := lamport } })

def pushMove (d : Drive) (op : MoveOp) : Drive :=
  { d with
    tree := d.tree.apply op
    state := { d.state with moveLog := d.state.moveLog ++ [op] } }

/-- Stamp a content operation with the next tick, apply it and log it. -/
def pushContent (d : Drive) (op : ContentOp) : Option Drive := do
  let (ts, d) ← d.tick
  return { d with
    content := d.content.apply op
    state := { d.state with contentLog := d.state.contentLog ++ [⟨ts, op⟩] } }

/-- Merge a move of another writer. -/
def applyRemoteMove (d : Drive) (op : MoveOp) : Option Drive := do
  let lamport ← checkedSucc (max d.state.lamport op.ts.lamport)
  return { d with
    tree := d.tree.apply op
    state := { d.state with lamport := lamport, moveLog := d.state.moveLog ++ [op] } }

/-- Merge a content operation of another writer : insert it into the sorted log, unless its
timestamp is there, and refold the record of its target. -/
def applyRemoteContent (d : Drive) (op : StampedContentOp) : Option Drive := do
  let lamport ← checkedSucc (max d.state.lamport op.ts.lamport)
  let d := { d with state := { d.state with lamport := lamport } }
  let pos := partitionPoint (fun e : StampedContentOp => e.ts < op.ts) d.state.contentLog
  if (d.state.contentLog[pos]?).any fun e => e.ts = op.ts then return d
  else
    let log := d.state.contentLog.take pos ++ op :: d.state.contentLog.drop pos
    return { d with
      content := refoldKey d.content log op.op.target
      state := { d.state with contentLog := log } }

/-! ## Structural operations -/

/-- A path that must be an existing directory. -/
def resolveDir (d : Drive) (path : String) : Except String NodeId :=
  match d.tree.resolve path with
  | none => .error ("no such directory: " ++ path)
  | some node =>
    if node ≠ ROOT ∧ (d.tree.edge node).map Edge.kind ≠ some .dir then
      .error ("'" ++ path ++ "' is not a directory")
    else .ok node

/-- The live child of `parent` with a given bare name. -/
def childNamed (d : Drive) (parent : NodeId) (name : String) : Option NodeId :=
  ((d.tree.rawChildren parent).find? fun kid =>
    kid.1 = name && !d.tree.isTrashed kid.2).map Prod.snd

/-- A path that must exist and not be the root. -/
def resolveNode (d : Drive) (path action : String) : Except String NodeId :=
  match d.tree.resolve path with
  | none => .error ("no such path: " ++ path)
  | some node => if node = ROOT then .error ("cannot " ++ action ++ " the root") else .ok node

/-- The checks of `mkdir`, returning the parent directory. -/
def mkdirCheck (d : Drive) (parentPath name : String) : Except String NodeId := do
  checkName name
  let parent ← d.resolveDir parentPath
  if (d.childNamed parent name).isSome then
    throw ("'" ++ name ++ "' already exists in '" ++ parentPath ++ "'")
  return parent

/-- Create a directory. -/
def mkdir (d : Drive) (ctr : ℕ) (parentPath name : String) :
    Option (Except String NodeId × Drive × ℕ) :=
  match d.mkdirCheck parentPath name with
  | .error e => some (.error e, d, ctr)
  | .ok parent => do
    let (ts, d) ← d.tick
    let (id, ctr) := freshNodeId ts.lamport ctr
    return (.ok id, d.pushMove ⟨ts, id, parent, name, .dir⟩, ctr)

/-- The content operation that saves `content` on a node. -/
def setOp (id : NodeId) (content : FileContent) : ContentOp :=
  .set id content.cid content.size content.mode content.mtimeMs

/-- The checks of `add_file`, returning the parent directory and the file to edit, if the
name is taken by one. -/
def addFileCheck (d : Drive) (parentPath name : String) :
    Except String (NodeId × Option NodeId) := do
  checkName name
  let parent ← d.resolveDir parentPath
  match d.childNamed parent name with
  | none => return (parent, none)
  | some existing =>
    if (d.tree.edge existing).map Edge.kind = some .file then return (parent, some existing)
    else throw ("'" ++ name ++ "' already exists as a directory in '" ++ parentPath ++ "'")

/-- Add a file, or save a new version of the file of that name. -/
def addFile (d : Drive) (ctr : ℕ) (parentPath name : String) (content : FileContent) :
    Option (Except String NodeId × Drive × ℕ) :=
  match d.addFileCheck parentPath name with
  | .error e => some (.error e, d, ctr)
  | .ok (_, some existing) => do
    let d ← d.pushContent (setOp existing content)
    return (.ok existing, d, ctr)
  | .ok (parent, none) => do
    let (ts, d) ← d.tick
    let (id, ctr) := freshNodeId ts.lamport ctr
    let d := d.pushMove ⟨ts, id, parent, name, .file⟩
    let d ← d.pushContent (setOp id content)
    return (.ok id, d, ctr)

/-- Stamp a move with the next tick and apply it. -/
def relocate (d : Drive) (child newParent : NodeId) (newName : String) (kind : NodeKind) :
    Option Drive := do
  let (ts, d) ← d.tick
  return d.pushMove ⟨ts, child, newParent, newName, kind⟩

/-- The checks of `mv`, returning the node and the destination directory. -/
def mvCheck (d : Drive) (srcPath dstParentPath dstName : String) :
    Except String (NodeId × NodeId) := do
  checkName dstName
  let node ← d.resolveNode srcPath "move"
  let dstParent ← d.resolveDir dstParentPath
  return (node, dstParent)

/-- Move or rename a node. -/
def mv (d : Drive) (srcPath dstParentPath dstName : String) : Option (Except String Unit × Drive) :=
  match d.mvCheck srcPath dstParentPath dstName with
  | .error e => some (.error e, d)
  | .ok (node, dstParent) => do
    let d ← d.relocate node dstParent dstName (d.tree.kindOf node)
    return (.ok (), d)

/-- The bare name of a node, empty if it has no edge. -/
def nameOf (d : Drive) (node : NodeId) : String :=
  ((d.tree.edge node).map Edge.name).getD ""

/-- Delete a node : move it to the trash. -/
def rm (d : Drive) (path : String) : Option (Except String Unit × Drive) :=
  match d.resolveNode path "delete" with
  | .error e => some (.error e, d)
  | .ok node => do
    let d ← d.relocate node TRASH (d.nameOf node) (d.tree.kindOf node)
    return (.ok (), d)

/-- The checks of `restore`, returning the destination directory and name. -/
def restoreCheck (d : Drive) (nodeId : NodeId) (dstParentPath dstName : Option String) :
    Except String (NodeId × String) := do
  if !d.tree.isTrashed nodeId then
    throw ("node '" ++ nodeId ++ "' is not in the trash")
  let name := dstName.getD (d.nameOf nodeId)
  checkName name
  let parentPath := dstParentPath.getD "/"
  let parent ← d.resolveDir parentPath
  if (d.childNamed parent name).isSome then
    throw ("'" ++ name ++ "' already exists in '" ++ parentPath ++ "'")
  return (parent, name)

/-- Move a trashed node back to a live directory. -/
def restore (d : Drive) (nodeId : NodeId) (dstParentPath dstName : Option String) :
    Option (Except String Unit × Drive) :=
  match d.restoreCheck nodeId dstParentPath dstName with
  | .error e => some (.error e, d)
  | .ok (parent, name) => do
    let d ← d.relocate nodeId parent name (d.tree.kindOf nodeId)
    return (.ok (), d)

/-- Detach one node to limbo and remove its content record, if it has one. -/
def hardDeleteOne (d : Drive) (id : NodeId) : Option Drive := do
  let d ← d.relocate id LIMBO id (d.tree.kindOf id)
  if (d.content[id]?).isSome then d.pushContent (.remove id) else return d

/-- Detach the given nodes to limbo, with their content records. -/
def hardDelete (d : Drive) (ids : List NodeId) : Option Drive :=
  ids.foldlM hardDeleteOne d

/-- The nodes directly in the trash, as listed. -/
def trashIds (d : Drive) : List NodeId :=
  (d.tree.readdir TRASH).map fun e => e.2.1

def emptyTrash (d : Drive) : Option (List NodeId × Drive) := do
  let d' ← d.hardDelete d.trashIds
  return (d.trashIds, d')

/-- The cutoff of `gc_trash` in milliseconds. -/
def gcCutoffMs (nowSecs retentionSecs : ℕ) : ℕ :=
  min ((nowSecs - retentionSecs) * 1000) (2 ^ 64 - 1)

/-- A node without content is collected at once, a file once its mtime is not after the
cutoff. -/
def gcVictim (d : Drive) (cutoffMs : ℕ) (id : NodeId) : Bool :=
  match d.content[id]? with
  | some c => c.mtimeMs ≤ cutoffMs
  | none => true

def gcTrash (d : Drive) (nowSecs retentionSecs : ℕ) : Option (List NodeId × Drive) :=
  if retentionSecs = 0 then d.emptyTrash
  else do
    let victims := d.trashIds.filter (d.gcVictim (gcCutoffMs nowSecs retentionSecs))
    let d ← d.hardDelete victims
    return (victims, d)

/-- Save new content on a node, by id. -/
def setContent (d : Drive) (id : NodeId) (content : FileContent) : Option Drive :=
  d.pushContent (setOp id content)

/-- Make a prior version of a file current. -/
def restoreVersion (d : Drive) (path cid : String) (nowMs : ℕ) :
    Option (Except String Unit × Drive) :=
  match d.tree.resolve path with
  | none => some (.error ("no such path: " ++ path), d)
  | some node =>
    if (d.content[node]?).isNone then
      some (.error ("'" ++ path ++ "' has no content history"), d)
    else do
      let d ← d.pushContent (.restore node cid nowMs)
      return (.ok (), d)

/-! ## Compaction -/

/-- The compacted log under construction. Its clock counts the operations in the two logs,
so it stays far below `u64::MAX`. -/
structure Compaction where
  lamport : ℕ
  moves : List MoveOp
  content : List StampedContentOp

namespace Compaction

def pushMove (replica : ReplicaId) (out : Compaction) (child newParent : NodeId)
    (newName : String) (kind : NodeKind) : Compaction :=
  { out with
    lamport := out.lamport + 1
    moves := out.moves ++ [⟨⟨out.lamport + 1, replica⟩, child, newParent, newName, kind⟩] }

def pushContent (replica : ReplicaId) (out : Compaction) (op : ContentOp) : Compaction :=
  { out with
    lamport := out.lamport + 1
    content := out.content ++ [⟨⟨out.lamport + 1, replica⟩, op⟩] }

end Compaction

/-- The operations that stand for a content record : its versions, oldest first, its
current pointer, its document. -/
def historyOps (id : NodeId) (c : FileContent) : List ContentOp :=
  c.versions.map (fun v => .set id v.cid v.size c.mode v.setAtMs) ++
    .set id c.cid c.size c.mode c.mtimeMs :: c.docId.toList.map (.setDoc id)

/-- Emit one child of `parent` and queue it if it is a directory. -/
def compactKid (d : Drive) (parent : NodeId) (acc : Compaction × List NodeId)
    (kid : String × NodeId) : Compaction × List NodeId :=
  if d.tree.isTrashed kid.2 || d.tree.isLimbo kid.2 then acc
  else
    let kind := d.tree.kindOf kid.2
    let out := acc.1.pushMove d.state.replica kid.2 parent kid.1 kind
    let queue := if kind = .dir then acc.2 ++ [kid.2] else acc.2
    match d.content[kid.2]? with
    | some c => ((historyOps kid.2 c).foldl (Compaction.pushContent d.state.replica) out, queue)
    | none => (out, queue)

/-- The children of a directory in the order compaction emits them. -/
def sortedKids (d : Drive) (parent : NodeId) : List (String × NodeId) :=
  (d.tree.rawChildren parent).insertionSort fun a b => toLex a ≤ toLex b

/-- Breadth-first over the live tree, at most `k` directories. -/
def compactLoop (d : Drive) : ℕ → List NodeId → Compaction → Compaction
  | 0, _, out => out
  | _ + 1, [], out => out
  | k + 1, parent :: queue, out =>
    let acc := (d.sortedKids parent).foldl (d.compactKid parent) (out, queue)
    compactLoop d k acc.2 acc.1

/-- The compacted log. No directory is visited twice, so the loop ends within one step more
than there are edges. -/
def compacted (d : Drive) : Compaction :=
  d.compactLoop (d.tree.edges.size + 1) [ROOT] ⟨0, [], []⟩

/-- Replace both logs by a minimal equivalent and rebuild the views from it. -/
def compact (d : Drive) : Drive :=
  fromState { d.state with
    lamport := d.compacted.lamport
    moveLog := d.compacted.moves
    contentLog := d.compacted.content }

/-- The number of operations persisted. -/
def opCount (d : Drive) : ℕ :=
  d.state.moveLog.length + d.state.contentLog.length

end Drive

end CeDrive
