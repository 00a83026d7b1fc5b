import CeDrive.DriveRun
import CeDrive.Interner
import CeDrive.Paths

/-!
# The mount

`crates/ce-drive-mount/src/vfs.rs`. The state of the engine is a live drive, a table of
inodes that grows and never changes, and the buffers of the open files. Every call takes the
engine's lock for one or more critical sections; a section is one step here. The bytes a
section receives from the block store, fetched or uploaded while the lock is free, are an
argument of the step, as is the wall clock. The cache lifetimes of the kernel are left out.

A call performs operations of the drive and numbers nodes, or it replaces the drive
(`perform_cases`). So `Vfs.Inv` is an invariant : the drive keeps its own, and inodes and nodes
correspond.
-/

open Std (ExtTreeMap)
open Forest

namespace CeDrive

abbrev Ino := ℕ

def ROOT_INO : Ino := 1

/-- The attributes of one node. -/
structure Attr where
  ino : Ino
  size : ℕ
  mode : ℕ
  mtimeMs : ℕ
  isDir : Bool
  deriving DecidableEq, Repr

/-- One entry of `readdirplus`. -/
structure DirEntryPlus where
  name : String
  attr : Attr
  nodeId : NodeId

/-- An open file : its inode, and its bytes once they were fetched or written. -/
structure OpenFile where
  ino : Ino
  buf : Option (List UInt8)
  dirty : Bool
  deriving DecidableEq, Repr

/-- The guarded state of the engine, with its limit on the size of a file, zero for none. -/
structure Vfs where
  drive : Drive
  inoOf : ExtTreeMap NodeId Ino
  nodeOf : ExtTreeMap Ino NodeId
  nextIno : Ino
  openFiles : ExtTreeMap ℕ OpenFile
  nextFh : ℕ
  dirtyModel : Bool
  maxFileSize : ℕ

/-- `str::trim_end_matches('/')`. -/
def trimEndSlashes (s : String) : String :=
  String.ofList (s.toList.rdropWhile (· = '/'))

/-- `join_path`. -/
def joinPath (dir name : String) : String :=
  if dir = "/" then "/" ++ name else trimEndSlashes dir ++ "/" ++ name

theorem toList_joinPath (dir name : String) :
    (joinPath dir name).toList = dir.toList.rdropWhile (· = '/') ++ '/' :: name.toList := by
  unfold joinPath
  split_ifs with hroot
  · rw [hroot]
    simp
  · simp [trimEndSlashes]

theorem components_joinPath (dir : String) {name : String} (h : DriveTree.IsComponent name) :
    DriveTree.components (joinPath dir name) = DriveTree.components dir ++ [name] := by
  have hname : name.toList ≠ [] := fun hnil => h.1 (String.toList_eq_nil_iff.1 hnil)
  rw [DriveTree.components_eq, toList_joinPath, DriveTree.partsOf_append_slash_cons
    (List.rdropWhile_idempotent _ _) hname h.2, DriveTree.components_eq, DriveTree.partsOf,
    DriveTree.stripped_rdropWhile, String.ofList_toList, DriveTree.partsOf]

/-- A component joined to a path is looked up where the path leads. -/
theorem DriveTree.resolve_joinPath (t : DriveTree) (dir : String) {name : String}
    (h : DriveTree.IsComponent name) :
    t.resolve (joinPath dir name) = (t.resolve dir).bind fun p => t.lookupChild p name := by
  simp only [resolve_eq, components_joinPath dir h, resolveFrom_append, resolveFrom_singleton]

namespace Vfs

/-- An engine over a drive. -/
def new (drive : Drive) (maxFileSize : ℕ) : Vfs where
  drive := drive
  inoOf := (∅ : ExtTreeMap NodeId Ino).insert ROOT ROOT_INO
  nodeOf := (∅ : ExtTreeMap Ino NodeId).insert ROOT_INO ROOT
  nextIno := ROOT_INO + 1
  openFiles := ∅
  nextFh := 1
  dirtyModel := false
  maxFileSize := maxFileSize

/-- Replace the drive by one pulled from elsewhere. -/
def revalidate (v : Vfs) (state : DriveState) : Vfs :=
  { v with drive := Drive.fromState state, dirtyModel := false }

/-! ## Inodes -/

/-- The inode of a node, a fresh one on first sight. -/
def intern (v : Vfs) (node : NodeId) : Ino × Vfs :=
  match v.inoOf[node]? with
  | some ino => (ino, v)
  | none => (v.nextIno, { v with
      nextIno := v.nextIno + 1
      inoOf := v.inoOf.insert node v.nextIno
      nodeOf := v.nodeOf.insert v.nextIno node })

/-- The node of an inode, which the error calls `what`. -/
def nodeAt (v : Vfs) (ino : Ino) (what : String) : Except String NodeId :=
  match v.nodeOf[ino]? with
  | some node => .ok node
  | none => .error ("unknown " ++ what ++ " " ++ toString ino)

/-- The path of a node, which the error calls `what`. -/
def pathAt (v : Vfs) (node : NodeId) (what : String) : Except String String :=
  match v.drive.tree.path node with
  | some path => .ok path
  | none => .error (what ++ " not addressable")

/-- `getattr`. -/
def attrOf (v : Vfs) (ino : Ino) : Except String Attr :=
  if ino = ROOT_INO then .ok ⟨ROOT_INO, 0, 0o755, 0, true⟩
  else do
    let node ← v.nodeAt ino "inode"
    match v.drive.tree.edge node with
    | none => throw ("inode " ++ toString ino ++ " has no edge")
    | some edge =>
      let isDir := edge.kind = .dir
      match v.drive.content[node]? with
      | some c => return ⟨ino, c.size, c.mode, c.mtimeMs, isDir⟩
      | none => return ⟨ino, 0, if isDir then 0o755 else 0o644, 0, isDir⟩

/-! ## Reading the tree -/

/-- Intern a node and return its attributes. -/
def internAttr (v : Vfs) (node : NodeId) : Except String Attr × Vfs :=
  ((v.intern node).2.attrOf (v.intern node).1, (v.intern node).2)

def lookup (v : Vfs) (parent : Ino) (name : String) : Except String Attr × Vfs :=
  match v.nodeAt parent "parent inode" with
  | .error e => (.error e, v)
  | .ok parentNode =>
    match v.drive.tree.lookupChild parentNode name with
    | none => (.error ("no such entry '" ++ name ++ "'"), v)
    | some child => v.internAttr child

def lookupPath (v : Vfs) (path : String) : Except String Attr × Vfs :=
  if path = "/" ∨ path = "" then (v.attrOf ROOT_INO, v)
  else match v.drive.tree.resolve path with
    | none => (.error ("no such entry '" ++ path ++ "'"), v)
    | some node => v.internAttr node

/-- Give every entry of a listing its inode. -/
def internAll (v : Vfs) : List DriveTree.Listed → List (String × Ino × Bool) × Vfs
  | [] => ([], v)
  | (name, id, kind) :: entries =>
    let (out, v') := internAll (v.intern id).2 entries
    ((name, (v.intern id).1, kind = .dir) :: out, v')

def readdir (v : Vfs) (ino : Ino) : Except String (List (String × Ino × Bool)) × Vfs :=
  match v.nodeAt ino "inode" with
  | .error e => (.error e, v)
  | .ok node =>
    let (out, v') := v.internAll (v.drive.tree.readdir node)
    (.ok out, v')

/-- The attributes of every entry of a listing, up to the first error. -/
def attrAll (v : Vfs) : List DriveTree.Listed → Except String (List DirEntryPlus) × Vfs
  | [] => (.ok [], v)
  | (name, id, _) :: entries =>
    match v.internAttr id with
    | (.error e, v) => (.error e, v)
    | (.ok attr, v) =>
      match attrAll v entries with
      | (.error e, v) => (.error e, v)
      | (.ok out, v) => (.ok (⟨name, attr, id⟩ :: out), v)

def readdirplus (v : Vfs) (ino : Ino) : Except String (List DirEntryPlus) × Vfs :=
  match v.nodeAt ino "inode" with
  | .error e => (.error e, v)
  | .ok node => v.attrAll (v.drive.tree.readdir node)

/-! ## Open files -/

def openFile (v : Vfs) (ino : Ino) : Except String ℕ × Vfs :=
  match v.nodeAt ino "inode" with
  | .error e => (.error e, v)
  | .ok _ => (.ok v.nextFh, { v with
      nextFh := v.nextFh + 1
      openFiles := v.openFiles.insert v.nextFh ⟨ino, none, false⟩ })

/-- The last section of `hydrate` : keep the fetched bytes, unless there are bytes. -/
def fill (v : Vfs) (fh : ℕ) (bytes : List UInt8) : Vfs :=
  match v.openFiles[fh]? with
  | some f =>
    if f.buf.isNone then
      { v with openFiles := v.openFiles.insert fh { f with buf := some bytes } }
    else v
  | none => v

/-- `Vec::resize`, filling with zeros. -/
def resize (buf : List UInt8) (size : ℕ) : List UInt8 :=
  buf.take size ++ List.replicate (size - buf.length) 0

/-- Put `data` at `offset`, after growing the bytes to hold it. -/
def overwrite (buf : List UInt8) (offset : ℕ) (data : List UInt8) : List UInt8 :=
  let buf := if buf.length < offset + data.length then resize buf (offset + data.length) else buf
  buf.take offset ++ data ++ buf.drop (offset + data.length)

/-- Change the bytes of an open file. -/
def edit (v : Vfs) (fh : ℕ) (f : List UInt8 → List UInt8) : Except String Vfs :=
  match v.openFiles[fh]? with
  | none => .error ("bad file handle " ++ toString fh)
  | some file => .ok { v with
      openFiles := v.openFiles.insert fh
        { file with buf := some (f (file.buf.getD [])), dirty := true } }

/-- `write` on a file whose bytes were fetched. The end of the write is a `u64`, and `none` is the
overflow panic of a build that checks it. Others wrap. -/
def write (v : Vfs) (fh offset : ℕ) (data : List UInt8) : Option (Except String ℕ × Vfs) :=
  if 2 ^ 64 ≤ offset + data.length then none
  else if v.maxFileSize ≠ 0 ∧ v.maxFileSize < offset + data.length then
    some (.error ("write to " ++ toString (offset + data.length) ++ " bytes exceeds the " ++
      toString v.maxFileSize ++ "-byte per-file limit"), v)
  else match v.edit fh fun buf => overwrite buf offset data with
    | .error e => some (.error e, v)
    | .ok v => some (.ok data.length, v)

/-- `truncate` on a file whose bytes were fetched. -/
def truncate (v : Vfs) (fh size : ℕ) : Except String Unit × Vfs :=
  if v.maxFileSize ≠ 0 ∧ v.maxFileSize < size then
    (.error ("truncate to " ++ toString size ++ " bytes exceeds the " ++
      toString v.maxFileSize ++ "-byte per-file limit"), v)
  else match v.edit fh fun buf => resize buf size with
    | .error e => (.error e, v)
    | .ok v => (.ok (), v)

/-- The first section of `flush` : what is to be uploaded, if the file is dirty. -/
def snapshot (v : Vfs) (fh : ℕ) : Except String (Option (Ino × List UInt8)) :=
  match v.openFiles[fh]? with
  | none => .error ("bad file handle " ++ toString fh)
  | some f => .ok (if f.dirty then some (f.ino, f.buf.getD []) else none)

/-- The last section of `flush` : save the uploaded content on the node. -/
def record (v : Vfs) (fh : ℕ) (ino : Ino) (content : FileContent) :
    Option (Except String String × Vfs) :=
  match v.nodeOf[ino]? with
  | none => some (.error ("inode " ++ toString ino ++ " vanished"), v)
  | some node => do
    let d ← v.drive.setContent node content
    return (.ok content.cid, { v with
      drive := d
      dirtyModel := true
      openFiles := match v.openFiles[fh]? with
        | some f => v.openFiles.insert fh { f with dirty := false }
        | none => v.openFiles })

/-- The last section of `release`. -/
def close (v : Vfs) (fh : ℕ) : Vfs :=
  { v with openFiles := v.openFiles.erase fh }

/-! ## Changing the tree -/

/-- The path of a directory that is given by its inode. -/
def parentPath (v : Vfs) (parent : Ino) : Except String String := do
  let parentNode ← v.nodeAt parent "parent inode"
  v.pathAt parentNode "parent"

/-- Create an empty file and open it. -/
def create (v : Vfs) (ctr : ℕ) (parent : Ino) (name : String) (nowMs : ℕ) :
    Option (Except String (Attr × ℕ) × Vfs × ℕ) :=
  match v.parentPath parent with
  | .error e => some (.error e, v, ctr)
  | .ok parentPath => do
    let (r, d, ctr) ← v.drive.addFile ctr parentPath name (.new "" 0 0o644 nowMs)
    match r with
    | .error e => return (.error e, { v with drive := d }, ctr)
    | .ok id =>
      let (attr, v) := { v with drive := d, dirtyModel := true }.internAttr id
      match attr with
      | .error e => return (.error e, v, ctr)
      | .ok attr => return (.ok (attr, v.nextFh), { v with
          nextFh := v.nextFh + 1
          openFiles := v.openFiles.insert v.nextFh ⟨attr.ino, some [], true⟩ }, ctr)

def mkdir (v : Vfs) (ctr : ℕ) (parent : Ino) (name : String) :
    Option (Except String Attr × Vfs × ℕ) :=
  match v.parentPath parent with
  | .error e => some (.error e, v, ctr)
  | .ok parentPath => do
    let (r, d, ctr) ← v.drive.mkdir ctr parentPath name
    match r with
    | .error e => return (.error e, { v with drive := d }, ctr)
    | .ok id =>
      let (attr, v) := { v with drive := d, dirtyModel := true }.internAttr id
      return (attr, v, ctr)

/-- `unlink` and `rmdir`. -/
def unlink (v : Vfs) (parent : Ino) (name : String) : Option (Except String Unit × Vfs) :=
  match v.parentPath parent with
  | .error e => some (.error e, v)
  | .ok parentPath => do
    let (r, d) ← v.drive.rm (joinPath parentPath name)
    match r with
    | .error e => return (.error e, { v with drive := d })
    | .ok () => return (.ok (), { v with drive := d, dirtyModel := true })

/-- The checks of `rename`, returning the path of the source, the path of the destination
directory, and the source. -/
def renameCheck (v : Vfs) (parent : Ino) (name : String) (newParent : Ino) :
    Except String (String × String × NodeId) := do
  let parentNode ← v.nodeAt parent "parent inode"
  let newParentNode ← v.nodeAt newParent "new parent inode"
  let srcDir ← v.pathAt parentNode "src parent"
  let dstDir ← v.pathAt newParentNode "dst parent"
  match v.drive.tree.resolve (joinPath srcDir name) with
  | some srcNode => return (joinPath srcDir name, dstDir, srcNode)
  | none => throw ("rename source '" ++ joinPath srcDir name ++ "' does not exist")

/-- The node that a rename displaces, by path. -/
def displaced (v : Vfs) (dstDir newName : String) (srcNode : NodeId) : Option NodeId :=
  (v.drive.tree.resolve (joinPath dstDir newName)).filter (· ≠ srcNode)

/-- Move the source to its new name first, then trash the node that had the name, by its
path after the move. -/
def rename (v : Vfs) (parent : Ino) (name : String) (newParent : Ino) (newName : String) :
    Option (Except String Unit × Vfs) :=
  match v.renameCheck parent name newParent with
  | .error e => some (.error e, v)
  | .ok (src, dstDir, srcNode) => do
    let (r, d) ← v.drive.mv src dstDir newName
    match r with
    | .error e => return (.error e, { v with drive := d })
    | .ok () =>
      match v.displaced dstDir newName srcNode with
      | none => return (.ok (), { v with drive := d, dirtyModel := true })
      | some old =>
        let (_, d) ← d.rm ((d.tree.path old).getD (joinPath dstDir newName))
        return (.ok (), { v with drive := d, dirtyModel := true })

/-! ## Runs -/

/-- One critical section. Operations that mint ids take the counter of the process. -/
inductive Event
  | lookup (parent : Ino) (name : String)
  | lookupPath (path : String)
  | readdir (ino : Ino)
  | readdirplus (ino : Ino)
  | openFile (ino : Ino)
  | fill (fh : ℕ) (bytes : List UInt8)
  | write (fh offset : ℕ) (data : List UInt8)
  | truncate (fh size : ℕ)
  | record (fh : ℕ) (ino : Ino) (content : FileContent)
  | close (fh : ℕ)
  | create (ctr : ℕ) (parent : Ino) (name : String) (nowMs : ℕ)
  | mkdir (ctr : ℕ) (parent : Ino) (name : String)
  | unlink (parent : Ino) (name : String)
  | rename (parent : Ino) (name : String) (newParent : Ino) (newName : String)
  | revalidate (state : DriveState)

/-- A pulled state is the state of some drive. -/
def Event.Valid : Event → Prop
  | .revalidate state => ∃ d : Drive, d.Reachable ∧ d.state = state
  | _ => True

def perform (v : Vfs) : Event → Option Vfs
  | .lookup parent name => some (v.lookup parent name).2
  | .lookupPath path => some (v.lookupPath path).2
  | .readdir ino => some (v.readdir ino).2
  | .readdirplus ino => some (v.readdirplus ino).2
  | .openFile ino => some (v.openFile ino).2
  | .fill fh bytes => some (v.fill fh bytes)
  | .write fh offset data => (v.write fh offset data).map Prod.snd
  | .truncate fh size => some (v.truncate fh size).2
  | .record fh ino content => (v.record fh ino content).map Prod.snd
  | .close fh => some (v.close fh)
  | .create ctr parent name nowMs => (v.create ctr parent name nowMs).map fun r => r.2.1
  | .mkdir ctr parent name => (v.mkdir ctr parent name).map fun r => r.2.1
  | .unlink parent name => (v.unlink parent name).map Prod.snd
  | .rename parent name newParent newName => (v.rename parent name newParent newName).map Prod.snd
  | .revalidate state => some (v.revalidate state)

/-- The states reached from an engine over a reachable drive. -/
inductive Reachable : Vfs → Prop
  | new {d : Drive} (h : d.Reachable) (maxFileSize : ℕ) : Reachable (new d maxFileSize)
  | step {v v' : Vfs} (h : Reachable v) (e : Event) (he : e.Valid) (hv : v.perform e = some v') :
      Reachable v'

/-! ## The invariant -/

variable {v v' : Vfs}

/-- The drive keeps its invariant, and the inode table is a bijection that holds the root. -/
structure Inv (v : Vfs) : Prop where
  drive : v.drive.Inv
  table : ∀ (node : NodeId) (ino : Ino), v.inoOf[node]? = some ino ↔ v.nodeOf[ino]? = some node
  root : v.nodeOf[ROOT_INO]? = some ROOT
  below : ∀ (ino : Ino) (node : NodeId), v.nodeOf[ino]? = some node → ino < v.nextIno

/-- The inode table is an interner of nodes. -/
structure HasTable (v : Vfs) (t : Interner NodeId) : Prop where
  inoOf : v.inoOf = t.numOf
  nodeOf : v.nodeOf = t.keyOf
  nextIno : v.nextIno = t.next

variable {t : Interner NodeId}

theorem hasTable_new (d : Drive) (maxFileSize : ℕ) :
    (Vfs.new d maxFileSize).HasTable (.ofKeys [ROOT]) := by
  have hnone : (Interner.empty : Interner NodeId).numOf[ROOT]? = none := by simp [Interner.empty]
  have hkeys : Interner.ofKeys [ROOT] = Interner.empty.extend ROOT hnone :=
    congrArg Prod.snd (Interner.intern_of_none hnone)
  rw [hkeys]
  exact ⟨rfl, rfl, rfl⟩

/-- Interning a node numbers it. -/
theorem HasTable.intern (h : v.HasTable t) (node : NodeId) :
    (v.intern node).1 = (t.intern node).1 ∧ (v.intern node).2.HasTable (t.intern node).2 := by
  unfold Vfs.intern
  cases hnode : v.inoOf[node]? with
  | some ino =>
    rw [Interner.intern_of_some (h.inoOf ▸ hnode)]
    exact ⟨rfl, h⟩
  | none =>
    rw [Interner.intern_of_none (h.inoOf ▸ hnode)]
    exact ⟨h.nextIno, ⟨by simp [Interner.extend, h.inoOf, h.nextIno],
      by simp [Interner.extend, h.nodeOf, h.nextIno], by simp [Interner.extend, h.nextIno]⟩⟩

theorem Inv.exists_table (h : v.Inv) : ∃ t : Interner NodeId, v.HasTable t :=
  ⟨⟨v.inoOf, v.nodeOf, v.nextIno, h.table, fun n i hi => h.below i n ((h.table n i).1 hi)⟩,
    rfl, rfl, rfl⟩

theorem HasTable.inv (h : v.HasTable t) (hd : v.drive.Inv) (hroot : t.numOf[ROOT]? = some ROOT_INO) :
    v.Inv where
  drive := hd
  table := h.inoOf ▸ h.nodeOf ▸ t.inverse
  root := h.nodeOf ▸ (t.inverse ROOT ROOT_INO).1 hroot
  below ino node hino := h.nextIno ▸ t.below node ino ((t.inverse node ino).2 (h.nodeOf ▸ hino))

theorem Inv.new {d : Drive} (h : d.Inv) (maxFileSize : ℕ) : (Vfs.new d maxFileSize).Inv :=
  (hasTable_new d maxFileSize).inv h ((Interner.numOf_ofKeys [ROOT]).1 ROOT)

/-- The table changes only by interning, the drive only by its operations. -/
theorem Inv.of_table (h : v.Inv) (hd : v'.drive.Inv) (hino : v'.inoOf = v.inoOf)
    (hnode : v'.nodeOf = v.nodeOf) (hnext : v'.nextIno = v.nextIno) : v'.Inv where
  drive := hd
  table := hino ▸ hnode ▸ h.table
  root := hnode ▸ h.root
  below := hnode ▸ hnext ▸ h.below

@[simp] theorem drive_intern (v : Vfs) (node : NodeId) : (v.intern node).2.drive = v.drive := by
  unfold intern
  split <;> rfl

@[simp] theorem openFiles_intern (v : Vfs) (node : NodeId) :
    (v.intern node).2.openFiles = v.openFiles := by
  unfold intern
  split <;> rfl

theorem inoOf_intern_self (v : Vfs) (node : NodeId) :
    (v.intern node).2.inoOf[node]? = some (v.intern node).1 := by
  unfold intern
  split
  · assumption
  · simp

theorem Inv.intern (h : v.Inv) (node : NodeId) : (v.intern node).2.Inv := by
  obtain ⟨t, ht⟩ := h.exists_table
  refine (ht.intern node).2.inv ((drive_intern v node).symm ▸ h.drive) ?_
  exact Interner.numOf_intern (ht.inoOf ▸ (h.table _ _).2 h.root) node

/-! ## Interning -/

/-- Give inodes to nodes, in order. -/
def internNodes (v : Vfs) (nodes : List NodeId) : Vfs :=
  nodes.foldl (fun v node => (v.intern node).2) v

@[simp] theorem internNodes_nil (v : Vfs) : v.internNodes [] = v := rfl

@[simp] theorem internNodes_cons (v : Vfs) (node : NodeId) (nodes : List NodeId) :
    v.internNodes (node :: nodes) = (v.intern node).2.internNodes nodes := rfl

theorem internAll_snd (v : Vfs) (entries : List DriveTree.Listed) :
    (v.internAll entries).2 = v.internNodes (entries.map fun e => e.2.1) := by
  induction entries generalizing v with
  | nil => rfl
  | cons e entries ih => exact ih _

/-- A listing with attributes interns nodes up to the first error. -/
theorem exists_attrAll_snd (v : Vfs) (entries : List DriveTree.Listed) :
    ∃ nodes, (v.attrAll entries).2 = v.internNodes nodes := by
  induction entries generalizing v with
  | nil => exact ⟨[], rfl⟩
  | cons e entries ih =>
    obtain ⟨nodes, hrest⟩ := ih (v.internAttr e.2.1).2
    unfold Vfs.attrAll
    cases hattr : v.internAttr e.2.1 with
    | mk attr v₁ =>
      have hnode : (v.intern e.2.1).2 = v₁ := congrArg Prod.snd hattr
      rw [hattr] at hrest
      cases attr with
      | error err => exact ⟨[e.2.1], hnode.symm⟩
      | ok attr =>
        refine ⟨e.2.1 :: nodes, ?_⟩
        rw [internNodes_cons, hnode, ← hrest]
        dsimp only
        split <;> simp_all

theorem exists_lookup_snd (v : Vfs) (parent : Ino) (name : String) :
    ∃ nodes, (v.lookup parent name).2 = v.internNodes nodes := by
  unfold Vfs.lookup
  split
  · exact ⟨[], rfl⟩
  · split
    · exact ⟨[], rfl⟩
    · exact ⟨[_], rfl⟩

theorem exists_lookupPath_snd (v : Vfs) (path : String) :
    ∃ nodes, (v.lookupPath path).2 = v.internNodes nodes := by
  unfold Vfs.lookupPath
  split_ifs
  · exact ⟨[], rfl⟩
  · split
    · exact ⟨[], rfl⟩
    · exact ⟨[_], rfl⟩

theorem exists_readdir_snd (v : Vfs) (ino : Ino) :
    ∃ nodes, (v.readdir ino).2 = v.internNodes nodes := by
  unfold Vfs.readdir
  split
  · exact ⟨[], rfl⟩
  · exact ⟨_, internAll_snd v _⟩

theorem exists_readdirplus_snd (v : Vfs) (ino : Ino) :
    ∃ nodes, (v.readdirplus ino).2 = v.internNodes nodes := by
  unfold Vfs.readdirplus
  split
  · exact ⟨[], rfl⟩
  · exact exists_attrAll_snd v _

@[simp] theorem openFiles_internNodes (v : Vfs) (nodes : List NodeId) :
    (v.internNodes nodes).openFiles = v.openFiles := by
  induction nodes generalizing v with
  | nil => rfl
  | cons node nodes ih => exact (ih _).trans (openFiles_intern v node)

/-! ## Changes of the drive -/

/-- The engine with another drive that keeps its invariant. -/
theorem Inv.withDrive (h : v.Inv) {d : Drive} (hd : d.Inv) (dirty : Bool) :
    Inv { v with drive := d, dirtyModel := dirty } :=
  h.of_table hd rfl rfl rfl

theorem nodeAt_eq_ok {ino : Ino} {what : String} {node : NodeId} (h : v.nodeAt ino what = .ok node) :
    v.nodeOf[ino]? = some node := by
  unfold nodeAt at h
  split at h
  · rename_i hn
    rw [hn, Except.ok.inj h]
  · cases h

theorem pathAt_eq_ok {node : NodeId} {what path : String} (h : v.pathAt node what = .ok path) :
    v.drive.tree.path node = some path := by
  unfold pathAt at h
  split at h
  · rename_i hp
    rw [hp, Except.ok.inj h]
  · cases h

theorem renameCheck_eq_ok {parent newParent : Ino} {name src dstDir : String} {node : NodeId}
    (h : v.renameCheck parent name newParent = .ok (src, dstDir, node)) :
    ∃ parentNode newParentNode srcDir, v.nodeOf[parent]? = some parentNode ∧
      v.nodeOf[newParent]? = some newParentNode ∧ v.drive.tree.path parentNode = some srcDir ∧
      v.drive.tree.path newParentNode = some dstDir ∧ src = joinPath srcDir name ∧
      v.drive.tree.resolve src = some node := by
  unfold renameCheck at h
  cases hp : v.nodeAt parent "parent inode" with
  | error e => simp [hp, bind, Except.bind] at h
  | ok parentNode =>
    cases hq : v.nodeAt newParent "new parent inode" with
    | error e => simp [hp, hq, bind, Except.bind] at h
    | ok newParentNode =>
      cases hs : v.pathAt parentNode "src parent" with
      | error e => simp [hp, hq, hs, bind, Except.bind] at h
      | ok srcDir =>
        cases hd : v.pathAt newParentNode "dst parent" with
        | error e => simp [hp, hq, hs, hd, bind, Except.bind] at h
        | ok dst =>
          simp only [hp, hq, hs, hd, bind, Except.bind] at h
          split at h
          · rename_i srcNode hres
            obtain ⟨rfl, rfl, rfl⟩ : joinPath srcDir name = src ∧ dst = dstDir ∧ srcNode = node := by
              simpa [pure, Except.pure] using h
            exact ⟨parentNode, newParentNode, srcDir, nodeAt_eq_ok hp, nodeAt_eq_ok hq,
              pathAt_eq_ok hs, pathAt_eq_ok hd, rfl, hres⟩
          · cases h

/-- What a rename does : nothing, if it returns an error; otherwise it moves the node that
the source path resolves to, and deletes the path of the displaced node, if there is one. -/
theorem rename_eq_some {parent newParent : Ino} {name newName : String}
    {r : Except String Unit × Vfs} (hr : v.rename parent name newParent newName = some r) :
    (∃ e, r = (.error e, v)) ∨ ∃ src dstDir node dst d,
      v.renameCheck parent name newParent = .ok (src, dstDir, node) ∧
      v.drive.mvCheck src dstDir newName = .ok (node, dst) ∧
      r = (.ok (), { v with drive := d, dirtyModel := true }) ∧
      ((v.displaced dstDir newName node = none ∧
          d = v.drive.moved node dst newName (v.drive.tree.kindOf node)) ∨
        ∃ old e, v.displaced dstDir newName node = some old ∧
          (v.drive.moved node dst newName (v.drive.tree.kindOf node)).rm
            (((v.drive.moved node dst newName (v.drive.tree.kindOf node)).tree.path old).getD
              (joinPath dstDir newName)) = some (e, d)) := by
  unfold rename at hr
  split at hr
  · exact Or.inl ⟨_, (Option.some_injective _ hr).symm⟩
  · rename_i src dstDir srcNode hc
    obtain ⟨⟨res, d₁⟩, hm, hr⟩ := Option.bind_eq_some_iff.1 hr
    obtain ⟨e, -, heq⟩ | ⟨node, dst, hcheck, heq⟩ := Drive.mv_eq_some hm
    · obtain ⟨rfl, rfl⟩ := Prod.mk.inj heq
      exact Or.inl ⟨e, (Option.some_injective _ hr).symm⟩
    · obtain ⟨rfl, rfl⟩ := Prod.mk.inj heq
      obtain ⟨hres, -⟩ := Drive.resolveNode_eq_ok (Drive.mvCheck_eq_ok hcheck).2.1
      obtain ⟨-, -, -, -, -, -, -, -, hsrc⟩ := renameCheck_eq_ok hc
      obtain rfl := Option.some_injective _ (hsrc.symm.trans hres)
      simp only at hr
      refine Or.inr ?_
      split at hr
      · rename_i hnone
        exact ⟨_, _, _, _, _, hc, hcheck, (Option.some_injective _ hr).symm, Or.inl ⟨hnone, rfl⟩⟩
      · rename_i old hold
        obtain ⟨⟨e, d₂⟩, hrm, hr⟩ := Option.bind_eq_some_iff.1 hr
        exact ⟨_, _, _, _, _, hc, hcheck, (Option.some_injective _ hr).symm,
          Or.inr ⟨old, e, hold, hrm⟩⟩

/-! ## What a call does -/

/-- The engine's inodes are those of `t`, and perhaps more. -/
def Extends (v : Vfs) (t : Interner NodeId) : Prop :=
  ∃ t', t ≤ t' ∧ v.HasTable t'

theorem Extends.of_table {t : Interner NodeId} (h : v.Extends t) (hino : v'.inoOf = v.inoOf)
    (hnode : v'.nodeOf = v.nodeOf) (hnext : v'.nextIno = v.nextIno) : v'.Extends t := by
  obtain ⟨t', hle, ht⟩ := h
  exact ⟨t', hle, hino.trans ht.inoOf, hnode.trans ht.nodeOf, hnext.trans ht.nextIno⟩

/-- A call performs operations of the drive, and gives inodes to nodes. -/
structure Acts (v v' : Vfs) : Prop where
  drive : ∃ es, v.drive.performAll es = some v'.drive
  table : ∀ t, v.Extends t → v'.Extends t

theorem Acts.of_table {es : List Drive.Event} (hd : v.drive.performAll es = some v'.drive)
    (hino : v'.inoOf = v.inoOf) (hnode : v'.nodeOf = v.nodeOf) (hnext : v'.nextIno = v.nextIno) :
    v.Acts v' :=
  ⟨⟨es, hd⟩, fun _ ht => ht.of_table hino hnode hnext⟩

theorem Acts.of_drive_eq (hd : v'.drive = v.drive) (hino : v'.inoOf = v.inoOf)
    (hnode : v'.nodeOf = v.nodeOf) (hnext : v'.nextIno = v.nextIno) : v.Acts v' :=
  ⟨⟨[], congrArg some hd.symm⟩, fun _ ht => ht.of_table hino hnode hnext⟩

theorem Acts.refl (v : Vfs) : v.Acts v :=
  .of_drive_eq rfl rfl rfl rfl

theorem Acts.trans {v'' : Vfs} (h : v.Acts v') (h' : v'.Acts v'') : v.Acts v'' := by
  obtain ⟨es, hd⟩ := h.drive
  obtain ⟨es', hd'⟩ := h'.drive
  refine ⟨⟨es ++ es', ?_⟩, fun t ht => h'.table t (h.table t ht)⟩
  rw [Drive.performAll, List.foldlM_append]
  exact Option.bind_eq_some_iff.2 ⟨v'.drive, hd, hd'⟩

theorem acts_intern (v : Vfs) (node : NodeId) : v.Acts (v.intern node).2 := by
  refine ⟨⟨[], congrArg some (drive_intern v node).symm⟩, fun t => ?_⟩
  rintro ⟨t', hle, ht⟩
  exact ⟨(t'.intern node).2, hle.trans (t'.le_intern node), (ht.intern node).2⟩

theorem acts_internNodes (v : Vfs) (nodes : List NodeId) : v.Acts (v.internNodes nodes) := by
  induction nodes generalizing v with
  | nil => exact .refl v
  | cons node nodes ih => exact (acts_intern v node).trans (ih _)

theorem acts_internAttr (v : Vfs) (node : NodeId) : v.Acts (v.internAttr node).2 :=
  acts_intern v node

theorem acts_edit {fh : ℕ} {f : List UInt8 → List UInt8} (hv : v.edit fh f = .ok v') :
    v.Acts v' := by
  unfold edit at hv
  split at hv
  · cases hv
  · exact Except.ok.inj hv ▸ .of_drive_eq rfl rfl rfl rfl

theorem acts_record {fh : ℕ} {ino : Ino} {content : FileContent} {r : Except String String × Vfs}
    (hr : v.record fh ino content = some r) : v.Acts r.2 := by
  unfold record at hr
  split at hr
  · exact Option.some_injective _ hr ▸ .refl v
  · rename_i node _
    obtain ⟨d, hw, hr⟩ := Option.bind_eq_some_iff.1 hr
    have hd : v.drive.exec 0 (.setContent node content) = some (d, 0) := by simp [Drive.exec, hw]
    exact Option.some_injective _ hr ▸ .of_table (Drive.performAll_exec hd) rfl rfl rfl

theorem acts_create {ctr nowMs : ℕ} {parent : Ino} {name : String}
    {r : Except String (Attr × ℕ) × Vfs × ℕ} (hr : v.create ctr parent name nowMs = some r) :
    v.Acts r.2.1 := by
  unfold create at hr
  split at hr
  · exact Option.some_injective _ hr ▸ .refl v
  · rename_i dir _
    obtain ⟨⟨res, d, ctr'⟩, ha, hr⟩ := Option.bind_eq_some_iff.1 hr
    have hd : v.drive.exec ctr (.addFile dir name (.new "" 0 0o644 nowMs)) = some (d, ctr') := by
      simp [Drive.exec, ha]
    cases res with
    | error e => exact Option.some_injective _ hr ▸ .of_table (Drive.performAll_exec hd) rfl rfl rfl
    | ok id =>
      have hadded : v.Acts { v with drive := d, dirtyModel := true } :=
        .of_table (Drive.performAll_exec hd) rfl rfl rfl
      have hi := hadded.trans (acts_internAttr _ id)
      cases hattr : Vfs.internAttr { v with drive := d, dirtyModel := true } id with
      | mk attr v' =>
        rw [hattr] at hi
        simp only [hattr] at hr
        cases attr with
        | error e => exact Option.some_injective _ hr ▸ hi
        | ok attr =>
          exact Option.some_injective _ hr ▸ hi.trans (.of_drive_eq rfl rfl rfl rfl)

theorem acts_mkdir {ctr : ℕ} {parent : Ino} {name : String} {r : Except String Attr × Vfs × ℕ}
    (hr : v.mkdir ctr parent name = some r) : v.Acts r.2.1 := by
  unfold mkdir at hr
  split at hr
  · exact Option.some_injective _ hr ▸ .refl v
  · rename_i dir _
    obtain ⟨⟨res, d, ctr'⟩, hm, hr⟩ := Option.bind_eq_some_iff.1 hr
    have hd : v.drive.exec ctr (.mkdir dir name) = some (d, ctr') := by simp [Drive.exec, hm]
    cases res with
    | error e => exact Option.some_injective _ hr ▸ .of_table (Drive.performAll_exec hd) rfl rfl rfl
    | ok id =>
      have hadded : v.Acts { v with drive := d, dirtyModel := true } :=
        .of_table (Drive.performAll_exec hd) rfl rfl rfl
      exact Option.some_injective _ hr ▸ hadded.trans (acts_internAttr _ id)

theorem acts_unlink {parent : Ino} {name : String} {r : Except String Unit × Vfs}
    (hr : v.unlink parent name = some r) : v.Acts r.2 := by
  unfold unlink at hr
  split at hr
  · exact Option.some_injective _ hr ▸ .refl v
  · rename_i dir _
    obtain ⟨⟨res, d⟩, hm, hr⟩ := Option.bind_eq_some_iff.1 hr
    have hd : v.drive.exec 0 (.rm (joinPath dir name)) = some (d, 0) := by simp [Drive.exec, hm]
    cases res <;> exact Option.some_injective _ hr ▸ .of_table (Drive.performAll_exec hd) rfl rfl rfl

theorem acts_rename {parent newParent : Ino} {name newName : String}
    {r : Except String Unit × Vfs} (hr : v.rename parent name newParent newName = some r) :
    v.Acts r.2 := by
  unfold rename at hr
  split at hr
  · exact Option.some_injective _ hr ▸ .refl v
  · rename_i src dstDir srcNode _
    obtain ⟨⟨res, d⟩, hm, hr⟩ := Option.bind_eq_some_iff.1 hr
    have hd : v.drive.exec 0 (.mv src dstDir newName) = some (d, 0) := by simp [Drive.exec, hm]
    have hmoved : ∀ dirty, v.Acts { v with drive := d, dirtyModel := dirty } := fun dirty =>
      .of_table (Drive.performAll_exec hd) rfl rfl rfl
    cases res with
    | error e => exact Option.some_injective _ hr ▸ hmoved _
    | ok _ =>
      simp only at hr
      split at hr
      · exact Option.some_injective _ hr ▸ hmoved _
      · obtain ⟨⟨res, d'⟩, hrm, hr⟩ := Option.bind_eq_some_iff.1 hr
        have hd' : d.exec 0 (.rm _) = some (d', 0) := Option.map_eq_some_iff.2 ⟨_, hrm, rfl⟩
        exact Option.some_injective _ hr ▸
          (hmoved true).trans (.of_table (Drive.performAll_exec hd') rfl rfl rfl)

/-- A call acts on the drive and the inodes, or replaces the drive. -/
theorem perform_cases {e : Event} (he : v.perform e = some v') :
    v.Acts v' ∨ ∃ state, e = .revalidate state ∧ v' = v.revalidate state := by
  cases e with
  | lookup parent name =>
    obtain rfl := Option.some_injective _ he
    obtain ⟨nodes, heq⟩ := exists_lookup_snd v parent name
    exact Or.inl (heq ▸ acts_internNodes v nodes)
  | lookupPath path =>
    obtain rfl := Option.some_injective _ he
    obtain ⟨nodes, heq⟩ := exists_lookupPath_snd v path
    exact Or.inl (heq ▸ acts_internNodes v nodes)
  | readdir ino =>
    obtain rfl := Option.some_injective _ he
    obtain ⟨nodes, heq⟩ := exists_readdir_snd v ino
    exact Or.inl (heq ▸ acts_internNodes v nodes)
  | readdirplus ino =>
    obtain rfl := Option.some_injective _ he
    obtain ⟨nodes, heq⟩ := exists_readdirplus_snd v ino
    exact Or.inl (heq ▸ acts_internNodes v nodes)
  | openFile ino =>
    obtain rfl := Option.some_injective _ he
    unfold Vfs.openFile
    split
    · exact Or.inl (.refl v)
    · exact Or.inl (.of_drive_eq rfl rfl rfl rfl)
  | fill fh bytes =>
    obtain rfl := Option.some_injective _ he
    unfold Vfs.fill
    split
    · split_ifs
      · exact Or.inl (.of_drive_eq rfl rfl rfl rfl)
      · exact Or.inl (.refl v)
    · exact Or.inl (.refl v)
  | write fh offset data =>
    obtain ⟨r, hr, rfl⟩ := Option.map_eq_some_iff.1 he
    unfold Vfs.write at hr
    split_ifs at hr
    · exact Or.inl (Option.some_injective _ hr ▸ .refl v)
    · split at hr
      · exact Or.inl (Option.some_injective _ hr ▸ .refl v)
      · rename_i hv
        exact Or.inl (Option.some_injective _ hr ▸ acts_edit hv)
  | truncate fh size =>
    obtain rfl := Option.some_injective _ he
    unfold Vfs.truncate
    split_ifs
    · exact Or.inl (.refl v)
    · split
      · exact Or.inl (.refl v)
      · rename_i hv
        exact Or.inl (acts_edit hv)
  | record fh ino content =>
    obtain ⟨r, hr, rfl⟩ := Option.map_eq_some_iff.1 he
    exact Or.inl (acts_record hr)
  | close fh =>
    obtain rfl := Option.some_injective _ he
    exact Or.inl (.of_drive_eq rfl rfl rfl rfl)
  | create ctr parent name nowMs =>
    obtain ⟨r, hr, rfl⟩ := Option.map_eq_some_iff.1 he
    exact Or.inl (acts_create hr)
  | mkdir ctr parent name =>
    obtain ⟨r, hr, rfl⟩ := Option.map_eq_some_iff.1 he
    exact Or.inl (acts_mkdir hr)
  | unlink parent name =>
    obtain ⟨r, hr, rfl⟩ := Option.map_eq_some_iff.1 he
    exact Or.inl (acts_unlink hr)
  | rename parent name newParent newName =>
    obtain ⟨r, hr, rfl⟩ := Option.map_eq_some_iff.1 he
    exact Or.inl (acts_rename hr)
  | revalidate state => exact Or.inr ⟨state, rfl, (Option.some_injective _ he).symm⟩

theorem Inv.acts (h : v.Inv) (ha : v.Acts v') : v'.Inv := by
  obtain ⟨es, hd⟩ := ha.drive
  obtain ⟨t, ht⟩ := h.exists_table
  obtain ⟨t', hle, ht'⟩ := ha.table t ⟨t, le_rfl, ht⟩
  have hroot : t.numOf[ROOT]? = some ROOT_INO := ht.inoOf ▸ (h.table _ _).2 h.root
  exact ht'.inv (h.drive.performAll hd) (Interner.numOf_of_le hle hroot)

theorem Inv.perform (h : v.Inv) {e : Event} (hvalid : e.Valid) (he : v.perform e = some v') :
    v'.Inv := by
  obtain ha | ⟨_, rfl, rfl⟩ := perform_cases he
  · exact h.acts ha
  · obtain ⟨d, hd, rfl⟩ := hvalid
    exact h.withDrive (hd.inv.fromState_eq.symm ▸ hd.inv) false

theorem Reachable.inv (h : v.Reachable) : v.Inv := by
  induction h with
  | new h maxFileSize => exact .new h.inv maxFileSize
  | step _ e he hv ih => exact ih.perform he hv

/-- The drive under a mount is one that its own operations reach. -/
theorem Reachable.drive (h : v.Reachable) : v.drive.Reachable := by
  induction h with
  | new h => exact h
  | step _ e hvalid hv ih =>
    obtain ha | ⟨_, rfl, rfl⟩ := perform_cases hv
    · obtain ⟨name, replica, es, hes⟩ := ih
      obtain ⟨es', hes'⟩ := ha.drive
      refine ⟨name, replica, es ++ es', ?_⟩
      rw [Drive.performAll, List.foldlM_append]
      exact Option.bind_eq_some_iff.2 ⟨_, hes, hes'⟩
    · obtain ⟨d, hd, rfl⟩ := hvalid
      exact hd.inv.fromState_eq.symm ▸ hd

end Vfs

end CeDrive
