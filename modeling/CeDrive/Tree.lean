import CeDrive.OpLog
import Mathlib.Data.List.Sort
import Mathlib.Data.List.DropRight
import Mathlib.Data.Prod.Lex
import Mathlib.Data.String.Basic
import Std.Data.ExtTreeMap
import Std.Data.ExtTreeSet

/-!
# The directory tree

`crates/ce-drive-core/src/tree.rs`. A drive tree is a log of moves sorted by timestamp,
the current edge of every node, and an index of the children of every node. `doMove`
performs one move with its cycle check, `undoMove` reverts one, `integrate` inserts a move
into the sorted log by undoing the later ones, doing it, and redoing them.

Hash maps are finite maps with extensional equality, sorted sets likewise; nothing in the
source depends on the order of a hash map. The Rust standard library's stable sorts are
insertion sort, `partition_point` is `SortedLog.partitionPoint`.
-/

open Std UndoLog SortedLog

namespace CeDrive

/-! ## Identifiers, timestamps, moves -/

abbrev NodeId := String

abbrev ReplicaId := String

def ROOT : NodeId := "ROOT"

def TRASH : NodeId := "TRASH"

def LIMBO : NodeId := "LIMBO"

/-- Lamport clock, tie-broken by the replica. The clock is a `u64` in the source; the one
place where its width matters is the increment (`checkedSucc`). -/
structure Timestamp where
  lamport : ℕ
  replica : ReplicaId
  deriving Repr

namespace Timestamp

def key (t : Timestamp) : ℕ ×ₗ String :=
  toLex (t.lamport, t.replica)

theorem key_injective : Function.Injective key := by
  rintro ⟨l, r⟩ ⟨l', r'⟩ h
  simpa [key] using h

instance : LinearOrder Timestamp :=
  LinearOrder.lift' key key_injective

theorem lt_iff {a b : Timestamp} :
    a < b ↔ a.lamport < b.lamport ∨ a.lamport = b.lamport ∧ a.replica < b.replica :=
  Prod.Lex.lt_iff

theorem lt_of_lamport_lt {a b : Timestamp} (h : a.lamport < b.lamport) : a < b :=
  lt_iff.2 (Or.inl h)

end Timestamp

inductive NodeKind
  | dir
  | file
  deriving DecidableEq, Repr

/-- A move, the only structural mutation. -/
structure MoveOp where
  ts : Timestamp
  child : NodeId
  newParent : NodeId
  newName : String
  kind : NodeKind
  deriving DecidableEq, Repr

/-- Where a node currently lives. -/
structure Edge where
  parent : NodeId
  name : String
  kind : NodeKind
  deriving DecidableEq, Repr

/-- The edge a move sets. -/
def MoveOp.edge (op : MoveOp) : Edge :=
  ⟨op.newParent, op.newName, op.kind⟩

/-- A move with the edge it displaced. -/
abbrev LogEntry := Entry MoveOp (Option Edge)

/-- The order of a child set : by name, then by node. -/
def nameCmp : String × NodeId → String × NodeId → Ordering :=
  compareLex (compareOn Prod.fst) (compareOn Prod.snd)

instance : TransCmp nameCmp :=
  inferInstanceAs (TransCmp (compareLex (compareOn Prod.fst) (compareOn Prod.snd)))

instance : LawfulEqCmp nameCmp where
  eq_of_compare {a b} h := by
    obtain ⟨h₁, h₂⟩ := Ordering.then_eq_eq.1 h
    exact Prod.ext (LawfulEqCmp.eq_of_compare h₁) (LawfulEqCmp.eq_of_compare h₂)

abbrev ChildSet := ExtTreeSet (String × NodeId) nameCmp

abbrev ChildIndex := ExtTreeMap NodeId ChildSet

/-- The replicated directory tree. -/
structure DriveTree where
  /-- Moves, ascending in their timestamp. -/
  log : List LogEntry
  edges : ExtTreeMap NodeId Edge
  children : ChildIndex

namespace DriveTree

def new : DriveTree :=
  ⟨[], ∅, ∅⟩

/-! ## Moves -/

/-- Parent of a node, if it has an edge. -/
def parentOf (t : DriveTree) (n : NodeId) : Option NodeId :=
  (t.edges[n]?).map Edge.parent

/-- The walk of `isAncestor`, at most `k` nodes long. -/
def isAncestorWalk (edges : ExtTreeMap NodeId Edge) (ancestor : NodeId) : ℕ → NodeId → Bool
  | 0, _ => false
  | k + 1, cur =>
    if cur = ancestor then true
    else match edges[cur]? with
      | some edge => isAncestorWalk edges ancestor k edge.parent
      | none => false

/-- Is `ancestor` equal to `node` or above it? The walk visits at most one node more than
there are edges. -/
def isAncestor (t : DriveTree) (ancestor node : NodeId) : Bool :=
  isAncestorWalk t.edges ancestor (t.edges.size + 1) node

/-- The indexed children of `parent`. -/
def childSet (t : DriveTree) (parent : NodeId) : ChildSet :=
  t.children.getD parent ∅

/-- Drop the index entry of a node's current edge. -/
def unindex (t : DriveTree) (child : NodeId) : ChildIndex :=
  match t.edges[child]? with
  | some cur =>
    match t.children[cur.parent]? with
    | some set => t.children.insert cur.parent (set.erase (cur.name, child))
    | none => t.children
  | none => t.children

/-- Replace a node's edge, in the edge map and in the index. -/
def place (t : DriveTree) (child : NodeId) (edge : Edge) : DriveTree :=
  { t with
    children := (t.unindex child).insert edge.parent
      (((t.unindex child).getD edge.parent ∅).insert (edge.name, child))
    edges := t.edges.insert child edge }

/-- Perform a move, unless it would put a node under itself. Returns the displaced edge,
which is the current one if the move is skipped. -/
def doMove (t : DriveTree) (op : MoveOp) : Option Edge × DriveTree :=
  if op.newParent = op.child ∨ t.isAncestor op.child op.newParent = true then
    (t.edges[op.child]?, t)
  else (t.edges[op.child]?, t.place op.child op.edge)

/-- Put back the edge an entry displaced. -/
def undoMove (t : DriveTree) (entry : LogEntry) : DriveTree :=
  match entry.old with
  | some prev => t.place entry.op.child prev
  | none =>
    { t with children := t.unindex entry.op.child, edges := t.edges.erase entry.op.child }

/-- Perform a move and append it to the log with the edge it displaced. -/
def doPush (t : DriveTree) (op : MoveOp) : DriveTree :=
  { (t.doMove op).2 with log := t.log ++ [⟨op, (t.doMove op).1⟩] }

/-- Insert a move into the sorted log : undo the later entries, newest first, do the move,
redo the later entries. A timestamp that is already there is ignored. -/
def integrate (t : DriveTree) (op : MoveOp) : DriveTree :=
  let pos := partitionPoint (fun e : LogEntry => e.op.ts < op.ts) t.log
  if (t.log[pos]?).any fun e => e.op.ts = op.ts then t
  else
    let tail := t.log.drop pos
    let undone := tail.reverse.foldl undoMove { t with log := t.log.take pos }
    tail.foldl (fun t entry => t.doPush entry.op) (undone.doPush op)

/-- `StateMachine::apply`. -/
def apply (t : DriveTree) (op : MoveOp) : DriveTree :=
  t.integrate op

/-- The tree after a sequence of deliveries. -/
def applyAll (ops : List MoveOp) : DriveTree :=
  ops.foldl apply new

/-! ## Queries -/

def edge (t : DriveTree) (node : NodeId) : Option Edge :=
  t.edges[node]?

def isTrashed (t : DriveTree) (node : NodeId) : Bool :=
  t.isAncestor TRASH node

def isLimbo (t : DriveTree) (node : NodeId) : Bool :=
  t.isAncestor LIMBO node

def isLive (t : DriveTree) (node : NodeId) : Bool :=
  match t.edges[node]? with
  | some _ => !t.isAncestor TRASH node && !t.isAncestor LIMBO node
  | none => node = ROOT

/-- The children of `parent` by name, then by node. -/
def rawChildren (t : DriveTree) (parent : NodeId) : List (String × NodeId) :=
  (t.childSet parent).toList

/-- Timestamp of the last move of `node` in the log, skipped or not. -/
def definingTs (t : DriveTree) (node : NodeId) : Timestamp :=
  match t.log.reverse.find? fun e => e.op.child = node with
  | some e => e.op.ts
  | none => ⟨0, ""⟩

/-- The kind a listing shows. -/
def kindOf (t : DriveTree) (node : NodeId) : NodeKind :=
  ((t.edges[node]?).map Edge.kind).getD .file

/-- First eight characters of a replica id. -/
def short (s : String) : String :=
  String.ofList (s.toList.take 8)

/-- The name under which a node that lost its name to another is listed. -/
def conflictName (name : String) (ts : Timestamp) : String :=
  name ++ ".conflict-" ++ short ts.replica ++ "-" ++ toString ts.lamport

/-- Group children by bare name, keeping their order. -/
def byName (kids : List (String × NodeId)) : ExtTreeMap String (List NodeId) :=
  kids.foldl (fun m kid => m.insert kid.1 (m.getD kid.1 [] ++ [kid.2])) ∅

/-- One listing entry. -/
abbrev Listed := String × NodeId × NodeKind

/-- Children sharing a name, the one placed last first. -/
def ranked (t : DriveTree) (ids : List NodeId) : List (Timestamp × NodeId) :=
  (ids.map fun c => (t.definingTs c, c)).insertionSort fun a b => b.1 ≤ a.1

/-- List the children that share `name` : the one placed last keeps the name. -/
def renderGroup (t : DriveTree) (name : String) (ids : List NodeId) : List Listed :=
  match ids with
  | [child] => [(name, child, t.kindOf child)]
  | _ => (t.ranked ids).mapIdx fun i r =>
      if i = 0 then (name, r.2, t.kindOf r.2) else (conflictName name r.1, r.2, t.kindOf r.2)

/-- The children a listing of `parent` shows : a live directory hides trashed ones. -/
def shownChildren (t : DriveTree) (parent : NodeId) : List (String × NodeId) :=
  (t.rawChildren parent).filter fun kid => !(decide (parent ≠ TRASH) && t.isTrashed kid.2)

/-- List a directory by rendered name. -/
def readdir (t : DriveTree) (parent : NodeId) : List Listed :=
  ((byName (t.shownChildren parent)).toList.flatMap fun g => t.renderGroup g.1 g.2).insertionSort
    fun a b => a.1 ≤ b.1

/-- The walk of `path`, at most `k` nodes long; `parts` are the names met so far. -/
def pathWalk (edges : ExtTreeMap NodeId Edge) : ℕ → NodeId → List String → Option String
  | 0, _, _ => none
  | k + 1, cur, parts =>
    match edges[cur]? with
    | some edge =>
      if edge.parent = ROOT then some ("/" ++ "/".intercalate (parts ++ [edge.name]).reverse)
      else pathWalk edges k edge.parent (parts ++ [edge.name])
    | none => none

/-- Absolute path of a node by bare names, if its parents lead to the root. -/
def path (t : DriveTree) (node : NodeId) : Option String :=
  if node = ROOT then some "/" else pathWalk t.edges (t.edges.size + 1) node []

/-- `str::trim_matches('/')`. -/
def trimSlashes (s : String) : String :=
  String.ofList ((s.toList.dropWhile (· = '/')).rdropWhile (· = '/'))

/-- `str::split('/')`. -/
def splitSlash (s : String) : List String :=
  (s.toList.splitOn '/').map String.ofList

/-- The child of a directory listed under `comp`. -/
def lookupChild (t : DriveTree) (dir : NodeId) (comp : String) : Option NodeId :=
  ((t.readdir dir).find? fun e => e.1 = comp).map fun e => e.2.1

def resolveFrom (t : DriveTree) : NodeId → List String → Option NodeId
  | cur, [] => some cur
  | cur, comp :: rest =>
    match t.lookupChild cur comp with
    | some next => resolveFrom t next rest
    | none => none

/-- Follow a path from the root by rendered names. -/
def resolve (t : DriveTree) (path : String) : Option NodeId :=
  if trimSlashes path = "" then some ROOT
  else t.resolveFrom ROOT (splitSlash (trimSlashes path))

end DriveTree

end CeDrive
