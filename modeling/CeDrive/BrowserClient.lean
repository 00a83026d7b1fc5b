import CeDrive.Browser
import CeDrive.DistinctNames
import CeDrive.Lookup
import CeDrive.Synced

/-!
# The drive in the browser

`crates/ce-drive-wasm/src/lib.rs` and `crdt.rs`. The browser holds a tree of its own, a mirror
of the core's, beside its content map. It applies operations as they arrive, and mints
operations which its caller publishes : a call returns what it minted.

A call mints at most one move and one content operation, at the next ticks of the clock, and
the move is that of a node the tree has or of a node it creates (`Mints`). The collisions that
`conflicts` reports are those of the listing (`listing_of_conflicts`) : a child is listed under
a conflict name exactly if it is the loser of a collision.
-/

open Std (ExtTreeMap)
open SortedLog

namespace CeDrive

open DriveTree

namespace SyncedDrive

variable {t : DriveTree} {node parent : NodeId} {path dst : String}

/-- A node to move has an edge. -/
theorem edge_of_mvRead (ht : t.Mirror) (h : mvRead t path dst = .ok (node, parent)) :
    ∃ e, t.edges[node]? = some e := by
  unfold mvRead at h
  split at h
  · cases h
  · rename_i n hres
    split_ifs at h with hroot
    obtain ⟨p, -, hp⟩ : ∃ p, resolveDir t dst = .ok p ∧ (n, p) = (node, parent) := by
      cases hd : resolveDir t dst with
      | error e => simp [hd, Except.map] at h
      | ok p => exact ⟨p, rfl, by simpa [hd, Except.map] using h⟩
    obtain ⟨rfl, -⟩ := Prod.mk.inj hp
    exact (ht.edge_of_resolve hres).resolve_left hroot

/-- A node to delete has an edge. -/
theorem edge_of_rmRead (ht : t.Mirror) (h : rmRead t path = .ok node) :
    ∃ e, t.edges[node]? = some e := by
  unfold rmRead at h
  split at h
  · cases h
  · rename_i n hres
    split_ifs at h with hroot
    obtain rfl := Except.ok.inj h
    exact (ht.edge_of_resolve hres).resolve_left hroot

end SyncedDrive

namespace Browser

/-- The handle exported to the browser, with its tree. -/
structure Client extends DriveCrdt where
  tree : DriveTree

/-- What a creation or an edit minted, for the caller to publish. -/
structure MintResult where
  nodeId : NodeId
  moveOp : Option MoveOp
  contentOp : Option StampedContentOp

/-- One entry of a listing. -/
structure DirEntry where
  name : String
  nodeId : NodeId
  isDir : Bool
  content : Option FileContent

/-- A node that lost its name to another. -/
structure Conflict where
  name : String
  winner : NodeId
  loser : NodeId
  rendered : String
  deriving DecidableEq, Repr

/-! ## The tree -/

/-- `DriveTree::child_named`, as in the core. -/
def childNamed (t : DriveTree) (parent : NodeId) (name : String) : Option NodeId :=
  SyncedDrive.childNamed t parent name

/-- The collisions of one bare name. -/
def conflictGroup (t : DriveTree) (name : String) (ids : List NodeId) : List Conflict :=
  if ids.length < 2 then []
  else match t.ranked ids with
    | [] => []
    | winner :: losers =>
      losers.map fun r => ⟨name, winner.2, r.2, conflictName name r.1⟩

/-- The collisions in a directory. -/
def conflicts (t : DriveTree) (parent : NodeId) : List Conflict :=
  (byName (t.shownChildren parent)).toList.flatMap fun g => conflictGroup t g.1 g.2

/-- `fresh_node_id`, in the form of the synced drive. -/
def freshNodeId (ts : Timestamp) (ctr : ℕ) : NodeId × ℕ :=
  SyncedDrive.freshNodeId ts ctr

namespace Client

def new (replica : ReplicaId) : Client :=
  ⟨DriveCrdt.new replica, DriveTree.new⟩

/-! ## Ingest -/

def observe (c : Client) (ts : Timestamp) : Client :=
  { c with lamport := max c.lamport ts.lamport }

/-- `apply_move_op` on an operation that decodes. -/
def applyMoveOp (c : Client) (op : MoveOp) : Client :=
  { c.observe op.ts with tree := c.tree.apply op }

def applyMoveOps (c : Client) (ops : List MoveOp) : Client :=
  ops.foldl applyMoveOp c

/-- `apply_content_op` on an operation that decodes. -/
def applyContentOp (c : Client) (stamped : StampedContentOp) : Client :=
  ⟨c.toDriveCrdt.applyContentOp stamped, c.tree⟩

/-! ## Queries -/

/-- A path that must be an existing directory, with the errors of the synced drive. -/
def resolveDir (c : Client) (path : String) : Except String NodeId :=
  SyncedDrive.resolveDir c.tree path

def list (c : Client) (path : String) : Except String (List DirEntry) :=
  (c.resolveDir path).map fun dir => (c.tree.readdir dir).map fun e =>
    ⟨e.1, e.2.1, e.2.2 = .dir, c.content[e.2.1]?⟩

def conflicts (c : Client) (path : String) : Except String (List Conflict) :=
  (c.resolveDir path).map (Browser.conflicts c.tree)

def resolve (c : Client) (path : String) : Option NodeId :=
  c.tree.resolve path

def pathOf (c : Client) (nodeId : NodeId) : Option String :=
  c.tree.path nodeId

/-! ## Minting -/

def tick (c : Client) : Option (Timestamp × Client) := do
  let lamport ← checkedSucc c.lamport
  return (⟨lamport, c.replica⟩, { c with lamport := lamport })

def mintContent (c : Client) (op : ContentOp) : Option (StampedContentOp × Client) := do
  let (ts, c) ← c.tick
  return (⟨ts, op⟩, { c with content := c.content.apply op })

/-- What `mkdir` checks, returning the parent directory. -/
def mkdirCheck (c : Client) (parentPath name : String) : Except String NodeId := do
  let parent ← c.resolveDir parentPath
  if (childNamed c.tree parent name).isSome then
    throw ("'" ++ name ++ "' already exists in '" ++ parentPath ++ "'")
  return parent

/-- Create a directory. -/
def mkdir (c : Client) (ctr : ℕ) (parentPath name : String) :
    Option (Except String MintResult × Client × ℕ) :=
  match c.mkdirCheck parentPath name with
  | .error e => some (.error e, c, ctr)
  | .ok parent => do
    let (ts, c) ← c.tick
    let (id, ctr) := freshNodeId ts ctr
    let op : MoveOp := ⟨ts, id, parent, name, .dir⟩
    return (.ok ⟨id, some op, none⟩, { c with tree := c.tree.apply op }, ctr)

/-- What `add_file` checks, returning the parent directory and the file to edit, if the name is
taken by one. -/
def addFileCheck (c : Client) (parentPath name : String) :
    Except String (NodeId × Option NodeId) := do
  let parent ← c.resolveDir parentPath
  match childNamed c.tree parent name with
  | none => return (parent, none)
  | some existing =>
    if (c.tree.edge existing).map Edge.kind = some .file then return (parent, some existing)
    else throw ("'" ++ name ++ "' already exists as a directory")

/-- Add a file, or edit the one of that name. -/
def addFile (c : Client) (ctr : ℕ) (parentPath name cid : String) (size mode mtimeMs : ℕ) :
    Option (Except String MintResult × Client × ℕ) :=
  match c.addFileCheck parentPath name with
  | .error e => some (.error e, c, ctr)
  | .ok (_, some existing) => do
    let (content, c) ← c.mintContent (.set existing cid size mode mtimeMs)
    return (.ok ⟨existing, none, some content⟩, c, ctr)
  | .ok (parent, none) => do
    let (ts, c) ← c.tick
    let (id, ctr) := freshNodeId ts ctr
    let mv : MoveOp := ⟨ts, id, parent, name, .file⟩
    let c := { c with tree := c.tree.apply mv }
    let (content, c) ← c.mintContent (.set id cid size mode mtimeMs)
    return (.ok ⟨id, some mv, some content⟩, c, ctr)

/-- Record new content of a node. -/
def setContent (c : Client) (nodeId cid : String) (size mode mtimeMs : ℕ) :
    Option (StampedContentOp × Client) :=
  c.mintContent (.set nodeId cid size mode mtimeMs)

/-- Move or rename a node. It reads what the core's `mv` reads. -/
def moveNode (c : Client) (srcPath dstParentPath dstName : String) :
    Option (Except String MoveOp × Client) :=
  match SyncedDrive.mvRead c.tree srcPath dstParentPath with
  | .error e => some (.error e, c)
  | .ok (node, dstParent) => do
    let kind := c.tree.kindOf node
    let (ts, c) ← c.tick
    let op : MoveOp := ⟨ts, node, dstParent, dstName, kind⟩
    return (.ok op, { c with tree := c.tree.apply op })

/-- Delete a node : move it to the trash. -/
def remove (c : Client) (path : String) : Option (Except String MoveOp × Client) :=
  match SyncedDrive.rmRead c.tree path with
  | .error e => some (.error e, c)
  | .ok node => do
    let name := ((c.tree.edge node).map Edge.name).getD ""
    let kind := c.tree.kindOf node
    let (ts, c) ← c.tick
    let op : MoveOp := ⟨ts, node, TRASH, name, kind⟩
    return (.ok op, { c with tree := c.tree.apply op })

end Client

/-! ## Calls -/

/-- A call that mints. -/
inductive Call
  | mkdir (parentPath name : String)
  | addFile (parentPath name cid : String) (size mode mtimeMs : ℕ)
  | setContent (nodeId cid : String) (size mode mtimeMs : ℕ)
  | moveNode (srcPath dstParentPath dstName : String)
  | remove (path : String)

/-- The operations a call hands to its caller. -/
structure Minted where
  moves : List MoveOp
  content : List StampedContentOp

/-- What a creation or an edit returned, as operations to publish. -/
def MintResult.minted : Except String MintResult → Minted
  | .ok r => ⟨r.moveOp.toList, r.contentOp.toList⟩
  | .error _ => ⟨[], []⟩

/-- What a move returned. -/
def mintedMove : Except String MoveOp → Minted
  | .ok op => ⟨[op], []⟩
  | .error _ => ⟨[], []⟩

namespace Client

/-- Perform a call, from a handle and an id counter to those after it, with what it minted. -/
def call (c : Client) (ctr : ℕ) : Call → Option (Minted × Client × ℕ)
  | .mkdir parentPath name =>
    (c.mkdir ctr parentPath name).map fun r => (MintResult.minted r.1, r.2)
  | .addFile parentPath name cid size mode mtimeMs =>
    (c.addFile ctr parentPath name cid size mode mtimeMs).map fun r =>
      (MintResult.minted r.1, r.2)
  | .setContent nodeId cid size mode mtimeMs =>
    (c.setContent nodeId cid size mode mtimeMs).map fun r => (⟨[], [r.1]⟩, r.2, ctr)
  | .moveNode srcPath dstParentPath dstName =>
    (c.moveNode srcPath dstParentPath dstName).map fun r => (mintedMove r.1, r.2, ctr)
  | .remove path => (c.remove path).map fun r => (mintedMove r.1, r.2, ctr)

variable {c c' : Client} {ctr ctr' : ℕ}

/-- The timestamp of the next mint. -/
def nextTs (c : Client) : Timestamp :=
  ⟨c.lamport + 1, c.replica⟩

/-- The handle after it mints a move. -/
def moved (c : Client) (op : MoveOp) : Client :=
  { c with lamport := c.lamport + 1, tree := c.tree.apply op }

/-- The handle after it mints a content operation. -/
def wrote (c : Client) (op : ContentOp) : Client :=
  { c with lamport := c.lamport + 1, content := c.content.apply op }

theorem tick_eq_some {r : Timestamp × Client} (h : c.tick = some r) :
    r = (c.nextTs, { c with lamport := c.lamport + 1 }) := by
  obtain ⟨l, hl, h⟩ := Option.bind_eq_some_iff.1 h
  obtain rfl := checkedSucc_eq_some hl
  exact (Option.some_injective _ h).symm

theorem mintContent_eq_some {op : ContentOp} {r : StampedContentOp × Client}
    (h : c.mintContent op = some r) : r = (⟨c.nextTs, op⟩, c.wrote op) := by
  obtain ⟨s, hs, h⟩ := Option.bind_eq_some_iff.1 h
  obtain rfl := tick_eq_some hs
  exact (Option.some_injective _ h).symm

/-- A call mints nothing, or at the next ticks a move of a node that the tree has or that it
creates, a content operation, or a creation with its content. -/
inductive Mints (c : Client) (ctr : ℕ) : Minted → Client → Prop
  | refused : Mints c ctr ⟨[], []⟩ c
  | move (op : MoveOp) (hts : op.ts = c.nextTs)
      (hchild : (∃ e, c.tree.edges[op.child]? = some e) ∨ op.child = (freshNodeId c.nextTs ctr).1) :
      Mints c ctr ⟨[op], []⟩ (c.moved op)
  | content (op : ContentOp) : Mints c ctr ⟨[], [⟨c.nextTs, op⟩]⟩ (c.wrote op)
  | create (op : MoveOp) (hts : op.ts = c.nextTs) (hchild : op.child = (freshNodeId c.nextTs ctr).1)
      (set : ContentOp) :
      Mints c ctr ⟨[op], [⟨(c.moved op).nextTs, set⟩]⟩ ((c.moved op).wrote set)

theorem mints_mkdir {parentPath name : String} {r : Except String MintResult × Client × ℕ}
    (h : c.mkdir ctr parentPath name = some r) : c.Mints ctr (MintResult.minted r.1) r.2.1 := by
  unfold mkdir at h
  split at h
  · exact Option.some_injective _ h ▸ .refused
  · obtain ⟨s, hs, h⟩ := Option.bind_eq_some_iff.1 h
    obtain rfl := tick_eq_some hs
    exact Option.some_injective _ h ▸ .move _ rfl (Or.inr rfl)

theorem mints_addFile {parentPath name cid : String} {size mode mtimeMs : ℕ}
    {r : Except String MintResult × Client × ℕ}
    (h : c.addFile ctr parentPath name cid size mode mtimeMs = some r) :
    c.Mints ctr (MintResult.minted r.1) r.2.1 := by
  unfold addFile at h
  split at h
  · exact Option.some_injective _ h ▸ .refused
  · obtain ⟨s, hs, h⟩ := Option.bind_eq_some_iff.1 h
    obtain rfl := mintContent_eq_some hs
    exact Option.some_injective _ h ▸ .content _
  · obtain ⟨s, hs, h⟩ := Option.bind_eq_some_iff.1 h
    obtain rfl := tick_eq_some hs
    obtain ⟨s, hs, h⟩ := Option.bind_eq_some_iff.1 h
    obtain rfl := mintContent_eq_some hs
    exact Option.some_injective _ h ▸ .create _ rfl rfl _

theorem mints_moveNode (ht : c.tree.Mirror) {srcPath dstParentPath dstName : String}
    {r : Except String MoveOp × Client} (h : c.moveNode srcPath dstParentPath dstName = some r) :
    c.Mints ctr (mintedMove r.1) r.2 := by
  unfold moveNode at h
  split at h
  · exact Option.some_injective _ h ▸ .refused
  · rename_i node dstParent hread
    obtain ⟨s, hs, h⟩ := Option.bind_eq_some_iff.1 h
    obtain rfl := tick_eq_some hs
    exact Option.some_injective _ h ▸ .move _ rfl (Or.inl (SyncedDrive.edge_of_mvRead ht hread))

theorem mints_remove (ht : c.tree.Mirror) {path : String} {r : Except String MoveOp × Client}
    (h : c.remove path = some r) : c.Mints ctr (mintedMove r.1) r.2 := by
  unfold remove at h
  split at h
  · exact Option.some_injective _ h ▸ .refused
  · rename_i node hread
    obtain ⟨s, hs, h⟩ := Option.bind_eq_some_iff.1 h
    obtain rfl := tick_eq_some hs
    exact Option.some_injective _ h ▸ .move _ rfl (Or.inl (SyncedDrive.edge_of_rmRead ht hread))

theorem mints_call (ht : c.tree.Mirror) {e : Call} {r : Minted × Client × ℕ}
    (h : c.call ctr e = some r) : c.Mints ctr r.1 r.2.1 := by
  cases e with
  | mkdir parentPath name =>
    obtain ⟨s, hs, rfl⟩ := Option.map_eq_some_iff.1 h
    exact mints_mkdir hs
  | addFile parentPath name cid size mode mtimeMs =>
    obtain ⟨s, hs, rfl⟩ := Option.map_eq_some_iff.1 h
    exact mints_addFile hs
  | setContent nodeId cid size mode mtimeMs =>
    obtain ⟨s, hs, rfl⟩ := Option.map_eq_some_iff.1 h
    obtain rfl := mintContent_eq_some hs
    exact .content _
  | moveNode srcPath dstParentPath dstName =>
    obtain ⟨s, hs, rfl⟩ := Option.map_eq_some_iff.1 h
    exact mints_moveNode ht hs
  | remove path =>
    obtain ⟨s, hs, rfl⟩ := Option.map_eq_some_iff.1 h
    exact mints_remove ht hs

end Client

/-! ## Collisions -/

variable {t t' : DriveTree} {p n : NodeId} {name r : String} {ids : List NodeId} {x : Conflict}

theorem nodup_map_ranked (t : DriveTree) (h : ids.Nodup) : ((t.ranked ids).map Prod.snd).Nodup := by
  rw [ranked_eq, List.map_map]
  refine (List.Perm.nodup_iff ?_).2 h
  simpa [Function.comp_def] using List.perm_insertionSort (fun a b => t.definingTs b ≤ t.definingTs a) ids

theorem length_ranked (t : DriveTree) (ids : List NodeId) : (t.ranked ids).length = ids.length := by
  rw [ranked, List.length_insertionSort, List.length_map]

/-- The collisions of a name are the pairs of the member placed last and another. -/
theorem mem_conflictGroup : x ∈ conflictGroup t name ids ↔ ∃ w losers, t.ranked ids = w :: losers ∧
    ∃ l ∈ losers, x = ⟨name, w.2, l.2, conflictName name l.1⟩ := by
  unfold conflictGroup
  have hlen := length_ranked t ids
  split_ifs with hids
  · refine iff_of_false List.not_mem_nil ?_
    rintro ⟨w, losers, hr, l, hl, -⟩
    have hpos := List.length_pos_of_mem hl
    rw [hr, List.length_cons] at hlen
    omega
  · cases t.ranked ids with
    | nil => simp
    | cons w losers =>
      rw [List.mem_map]
      constructor
      · rintro ⟨l, hl, rfl⟩
        exact ⟨w, losers, rfl, l, hl, rfl⟩
      · rintro ⟨w', losers', hr, l, hl, rfl⟩
        obtain ⟨rfl, rfl⟩ := List.cons.inj hr
        exact ⟨l, hl, rfl⟩

theorem mem_conflicts_iff_group : x ∈ conflicts t p ↔
    ∃ name, x ∈ conflictGroup t name (groupOf (t.shownChildren p) name) := by
  rw [conflicts, List.mem_flatMap]
  constructor
  · rintro ⟨⟨name, ids⟩, hg, hx⟩
    obtain ⟨rfl, -⟩ := mem_byName.1 hg
    exact ⟨name, hx⟩
  · rintro ⟨name, hx⟩
    refine ⟨(name, _), mem_byName.2 ⟨rfl, ?_⟩, hx⟩
    obtain ⟨w, losers, hr, -⟩ := mem_conflictGroup.1 hx
    rw [← List.length_pos_iff, ← length_ranked t, hr]
    exact Nat.succ_pos _

/-- A collision names the child of a bare name that was placed last, and another of it. -/
theorem mem_conflicts (h : t.Replayed) : x ∈ conflicts t p ↔
    t.Called p x.name x.winner ∧ t.Called p x.name x.loser ∧
      (∀ m, t.Called p x.name m → t.definingTs m ≤ t.definingTs x.winner) ∧
      x.loser ≠ x.winner ∧ x.rendered = conflictName x.name (t.definingTs x.loser) := by
  rw [mem_conflicts_iff_group]
  constructor
  · rintro ⟨name, hx⟩
    obtain ⟨w, losers, hr, l, hl, rfl⟩ := mem_conflictGroup.1 hx
    have hmem : ∀ y ∈ t.ranked (groupOf (t.shownChildren p) name),
        t.Called p name y.2 ∧ y.1 = t.definingTs y.2 := fun y hy =>
      (mem_ranked.1 hy).imp_left mem_groupOf.1
    have hnodup := nodup_map_ranked t (nodup_groupOf h.mirror p name)
    have hsort := pairwise_ranked t (groupOf (t.shownChildren p) name)
    rw [hr] at hmem hnodup hsort
    obtain ⟨hw, hwts⟩ := hmem w List.mem_cons_self
    obtain ⟨hlc, hlts⟩ := hmem l (List.mem_cons_of_mem _ hl)
    refine ⟨hw, hlc, fun m hm => ?_, fun heq => ?_, by rw [hlts]⟩
    · have hm' : (t.definingTs m, m) ∈ t.ranked (groupOf (t.shownChildren p) name) :=
        mem_ranked.2 ⟨mem_groupOf.2 hm, rfl⟩
      rw [hr] at hm'
      rcases List.mem_cons.1 hm' with rfl | hm'
      · exact le_rfl
      · exact hwts ▸ (List.pairwise_cons.1 hsort).1 _ hm'
    · have heq : l.2 = w.2 := heq
      exact (List.nodup_cons.1 hnodup).1 (heq ▸ List.mem_map_of_mem hl)
  · rintro ⟨hw, hl, hmax, hne, hname⟩
    refine ⟨x.name, mem_conflictGroup.2 ?_⟩
    have hl' : (t.definingTs x.loser, x.loser) ∈ t.ranked (groupOf (t.shownChildren p) x.name) :=
      mem_ranked.2 ⟨mem_groupOf.2 hl, rfl⟩
    have hw' : (t.definingTs x.winner, x.winner) ∈ t.ranked (groupOf (t.shownChildren p) x.name) :=
      mem_ranked.2 ⟨mem_groupOf.2 hw, rfl⟩
    have hsort := pairwise_ranked t (groupOf (t.shownChildren p) x.name)
    cases hr : t.ranked (groupOf (t.shownChildren p) x.name) with
    | nil =>
      rw [hr] at hl'
      cases hl'
    | cons w losers =>
      have hmem := mem_ranked.1 (hr ▸ List.mem_cons_self : w ∈ t.ranked _)
      rw [hr] at hl' hw' hsort
      -- the head of the ranking is placed last too, so it is the winner
      have hle : t.definingTs x.winner ≤ w.1 := by
        rcases List.mem_cons.1 hw' with rfl | hw'
        · exact le_rfl
        · exact (List.pairwise_cons.1 hsort).1 _ hw'
      have hhead : w.2 = x.winner := h.eq_of_definingTs_eq (mem_groupOf.1 hmem.1) hw
        (le_antisymm (hmax _ (mem_groupOf.1 hmem.1)) (hmem.2 ▸ hle))
      refine ⟨w, losers, rfl, _, (List.mem_cons.1 hl').resolve_left fun heq => ?_, ?_⟩
      · exact hne (hhead ▸ congrArg Prod.snd heq)
      · cases x
        simp_all

/-- The winner of a collision was placed later than the loser. -/
theorem lt_of_mem_conflicts (h : t.Replayed) (hx : x ∈ conflicts t p) :
    t.definingTs x.loser < t.definingTs x.winner := by
  obtain ⟨hw, hl, hmax, hne, -⟩ := (mem_conflicts h).1 hx
  exact lt_of_le_of_ne (hmax _ hl) fun hts => hne (h.eq_of_definingTs_eq hl hw hts)

/-- A child is the loser of a collision if another of its name was placed later. -/
theorem exists_conflict_iff (h : t.Replayed) (hc : t.Called p name n) :
    (∃ x ∈ conflicts t p, x.loser = n) ↔ ∃ m, t.Called p name m ∧ t.definingTs n < t.definingTs m := by
  constructor
  · rintro ⟨x, hx, rfl⟩
    have hlt := lt_of_mem_conflicts h hx
    obtain ⟨hw, hl, -⟩ := (mem_conflicts h).1 hx
    obtain rfl := h.mirror.called_unique hc hl
    exact ⟨_, hw, hlt⟩
  · rintro ⟨m, hm, hlt⟩
    -- the child that keeps the name wins
    obtain ⟨w, hw, hkeeps⟩ := h.exists_lists hm
    rcases (h.lists_iff_of_called hw).1 hkeeps with ⟨hmax, -⟩ | ⟨-, heq⟩
    · refine ⟨⟨name, w, n, conflictName name (t.definingTs n)⟩, (mem_conflicts h).2 ?_, rfl⟩
      have hne : n ≠ w := by
        rintro rfl
        exact absurd (hmax m hm) (not_le_of_gt hlt)
      exact ⟨hw, hc, hmax, hne, rfl⟩
    · exact absurd heq.symm (conflictName_ne _ _)

theorem length_conflictGroup (t : DriveTree) (name : String) (hids : ids ≠ []) :
    (t.renderGroup name ids).length = (conflictGroup t name ids).length + 1 := by
  have hrender : (t.renderGroup name ids).length = ids.length := by
    simpa using (map_renderGroup_perm t name ids).length_eq
  have hlen := length_ranked t ids
  have hpos := List.length_pos_iff.2 hids
  rw [hrender, conflictGroup]
  split_ifs with hlt
  · rw [List.length_nil]
    omega
  · cases hr : t.ranked ids with
    | nil =>
      rw [hr] at hlen
      simp only [List.length_nil] at hlen
      omega
    | cons w losers =>
      rw [hr, List.length_cons] at hlen
      rw [← hlen, List.length_map]

/-- The different bare names in a directory. -/
def bareNames (t : DriveTree) (p : NodeId) : List String :=
  ((t.shownChildren p).map Prod.fst).dedup

theorem map_byName_perm (kids : List (String × NodeId)) :
    ((byName kids).toList.map Prod.fst).Perm (kids.map Prod.fst).dedup := by
  refine (List.perm_ext_iff_of_nodup ?_ (List.nodup_dedup _)).2 fun name => ?_
  · have hkeys : (byName kids).toList.Pairwise fun g g' => compare g.1 g'.1 = .lt :=
      Std.ExtTreeMap.ordered_keys_toList
    exact List.pairwise_map.2 (hkeys.imp fun hlt => (compare_lt_iff_lt.1 hlt).ne)
  · rw [List.mem_dedup, List.mem_map, List.mem_map]
    constructor
    · rintro ⟨⟨name, ids⟩, hg, rfl⟩
      obtain ⟨rfl, hne⟩ := mem_byName.1 hg
      obtain ⟨c, hc⟩ := List.exists_mem_of_ne_nil _ hne
      exact ⟨(name, c), mem_groupOf.1 hc, rfl⟩
    · rintro ⟨⟨name, c⟩, hc, rfl⟩
      exact ⟨(name, _), mem_byName.2 ⟨rfl, List.ne_nil_of_mem (mem_groupOf.2 hc)⟩, rfl⟩

/-- A listing has an entry for each bare name, and one for each collision. -/
theorem length_readdir (t : DriveTree) (p : NodeId) :
    (t.readdir p).length = (bareNames t p).length + (conflicts t p).length := by
  have hgroups : ∀ gs : List (String × List NodeId), (∀ g ∈ gs, g.2 ≠ []) →
      (gs.flatMap fun g => t.renderGroup g.1 g.2).length =
        gs.length + (gs.flatMap fun g => conflictGroup t g.1 g.2).length := by
    intro gs hgs
    induction gs with
    | nil => rfl
    | cons g gs ih =>
      have hg := length_conflictGroup t g.1 (hgs g List.mem_cons_self)
      have hrest := ih fun g' hg' => hgs g' (List.mem_cons_of_mem _ hg')
      simp only [List.flatMap_cons, List.length_append, List.length_cons, hg, hrest]
      omega
  rw [readdir, List.length_insertionSort, hgroups _ fun g hg => (mem_byName.1 (hg : (g.1, g.2) ∈ _)).2,
    bareNames, ← (map_byName_perm (t.shownChildren p)).length_eq, List.length_map, conflicts]

/-- No node is the loser of two collisions. -/
theorem nodup_map_conflicts (h : t.Mirror) (p : NodeId) : ((conflicts t p).map Conflict.loser).Nodup := by
  have hgroup : ∀ g : String × List NodeId, g.2.Nodup →
      ((conflictGroup t g.1 g.2).map Conflict.loser).Nodup := by
    intro g hg
    have hnodup := nodup_map_ranked t hg
    unfold conflictGroup
    split_ifs
    · exact List.nodup_nil
    · cases hr : t.ranked g.2 with
      | nil => exact List.nodup_nil
      | cons w losers =>
        rw [hr] at hnodup
        simpa [Function.comp_def] using (List.nodup_cons.1 hnodup).2
  have hloser : ∀ g ∈ (byName (t.shownChildren p)).toList, ∀ c,
      c ∈ (conflictGroup t g.1 g.2).map Conflict.loser → t.Called p g.1 c := by
    intro g hg c hc
    obtain ⟨x, hx, rfl⟩ := List.mem_map.1 hc
    obtain ⟨w, losers, hr, l, hl, rfl⟩ := mem_conflictGroup.1 hx
    have hmem := (mem_ranked.1 (hr ▸ List.mem_cons_of_mem _ hl : l ∈ t.ranked g.2)).1
    rw [(mem_byName.1 (hg : (g.1, g.2) ∈ _)).1] at hmem
    exact mem_groupOf.1 hmem
  rw [conflicts, List.map_flatMap, List.nodup_flatMap]
  constructor
  · intro g hg
    refine hgroup g ?_
    rw [(mem_byName.1 (hg : (g.1, g.2) ∈ _)).1]
    exact nodup_groupOf h p g.1
  · have hkeys : (byName (t.shownChildren p)).toList.Pairwise fun g g' => compare g.1 g'.1 = .lt :=
      Std.ExtTreeMap.ordered_keys_toList
    refine hkeys.imp_of_mem fun {g g'} hg hg' hlt c hc hc' => ?_
    exact (compare_lt_iff_lt.1 hlt).ne (h.called_unique (hloser g hg c hc) (hloser g' hg' c hc'))

/-- Collisions and listings. In a tree after any deliveries, a directory lists a child under
a conflict name exactly if it is the loser of a reported collision, and under its bare name
otherwise. The winner of a collision is listed under the bare name, and of the children of that
name it is the one whose last logged move, skipped or not, is the latest. Every loser is reported
once, and the listing has one entry for each bare name and each collision. -/
theorem listing_of_conflicts (ops : List MoveOp) (p : NodeId) :
    let t := applyAll ops
    (∀ r c, t.Lists p r c ↔ (∃ x ∈ conflicts t p, x.rendered = r ∧ x.loser = c) ∨
        t.Called p r c ∧ ∀ x ∈ conflicts t p, x.loser ≠ c) ∧
      (∀ x ∈ conflicts t p, t.Lists p x.name x.winner ∧ t.Called p x.name x.loser ∧
        x.loser ≠ x.winner ∧ ∀ m, t.Called p x.name m → t.definingTs m ≤ t.definingTs x.winner) ∧
      ((conflicts t p).map Conflict.loser).Nodup ∧
      (t.readdir p).length = (bareNames t p).length + (conflicts t p).length := by
  intro t
  have h : t.Replayed := replayed_applyAll ops
  refine ⟨fun r c => ?_, fun x hx => ?_, ?_, length_readdir t p⟩
  · constructor
    · intro hr
      obtain ⟨b, hc, ⟨hmax, rfl⟩ | ⟨hlater, rfl⟩⟩ := h.lists_iff.1 hr
      · refine Or.inr ⟨hc, fun x hx hloser => ?_⟩
        obtain ⟨m, hm, hlt⟩ := (exists_conflict_iff h hc).1 ⟨x, hx, hloser⟩
        exact absurd (hmax m hm) (not_le_of_gt hlt)
      · obtain ⟨x, hx, rfl⟩ := (exists_conflict_iff h hc).2 hlater
        obtain ⟨-, hl, -, -, hrendered⟩ := (mem_conflicts h).1 hx
        obtain rfl := h.mirror.called_unique hc hl
        exact Or.inl ⟨x, hx, hrendered, rfl⟩
    · rintro (⟨x, hx, rfl, rfl⟩ | ⟨hc, hnone⟩)
      · obtain ⟨hw, hl, -, -, hrendered⟩ := (mem_conflicts h).1 hx
        exact (h.lists_iff_of_called hl).2 (Or.inr ⟨⟨_, hw, lt_of_mem_conflicts h hx⟩, hrendered⟩)
      · refine (h.lists_iff_of_called hc).2 (Or.inl ⟨fun m hm => ?_, rfl⟩)
        by_contra hlt
        obtain ⟨x, hx, hloser⟩ := (exists_conflict_iff h hc).2 ⟨m, hm, not_le.1 hlt⟩
        exact hnone x hx hloser
  · obtain ⟨hw, hl, hmax, hne, -⟩ := (mem_conflicts h).1 hx
    exact ⟨(h.lists_iff_of_called hw).2 (Or.inl ⟨hmax, rfl⟩), hl, hne, hmax⟩
  · exact nodup_map_conflicts h.mirror p

end Browser

end CeDrive
