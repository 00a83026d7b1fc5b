import CeDrive.Convergence
import CeDrive.Logs
import CeDrive.Runs

/-!
# The synced drive

`crates/ce-drive-core/src/sync.rs`. A device's handle of a drive with several writers. Each
of the two collections is a `Merged` log of the coordination library : the device's own
writer log and those of its peers. What is assumed of it is a `Folding` : it folds the union
of all operations, deduplicated by key, in ascending key order.

One clock stamps the operations of both collections. It is advanced past the moves of the
union when the tree is read, never past its content operations, and starts at zero on
`open`. A run's proposals come after everything in the unions exactly if the clock has
reached what it was not advanced past (`proposals_dominate_iff`).
-/

open SortedLog

namespace CeDrive

/-- One merged collection : the own writer log and the operations of the peers. -/
structure Merged (α : Type*) where
  own : List α
  peers : List α

namespace Merged

variable {α : Type*}

/-- All operations the collection has. -/
def ops (m : Merged α) : List α :=
  m.own ++ m.peers

def propose (m : Merged α) (op : α) : Merged α :=
  { m with own := m.own ++ [op] }

def arrive (m : Merged α) (op : α) : Merged α :=
  { m with peers := m.peers ++ [op] }

/-- Opened again, the own log is there and the operations of the peers are yet to arrive. -/
def reopen (m : Merged α) : Merged α :=
  { m with peers := [] }

end Merged

/-- The operations that `Merged` folds : each key once, in ascending order. -/
structure Folding {α K : Type*} [LinearOrder K] (key : α → K) where
  union : List α → List α
  ascending : ∀ ops, Ascending key (union ops)
  sound : ∀ ops, ∀ x ∈ union ops, x ∈ ops
  covers : ∀ ops, ∀ x ∈ ops, ∃ y ∈ union ops, key y = key x

/-- The first operation of each key. -/
def Folding.first {α K : Type*} [LinearOrder K] (key : α → K) : Folding key where
  union := deliverAll key
  ascending := ascending_deliverAll key
  sound _ _ := mem_of_mem_deliverAll
  covers _ _ := exists_mem_deliverAll

/-- The greatest timestamp in the log. -/
def DriveTree.logMaxTs (t : DriveTree) : Option Timestamp :=
  (t.log.getLast?).map fun e => e.op.ts

/-- A device's handle of the drive. -/
structure SyncedDrive where
  replica : ReplicaId
  lamport : ℕ
  tree : Merged MoveOp
  content : Merged StampedContentOp

namespace SyncedDrive

variable (F : Folding MoveOp.ts)

/-- The fold of the merged moves. -/
def readTree (s : SyncedDrive) : DriveTree :=
  DriveTree.applyAll (F.union s.tree.ops)

/-- `SyncedDrive::open` on a device whose writer logs are those of `s`. -/
def reopen (s : SyncedDrive) : SyncedDrive :=
  ⟨s.replica, 0, s.tree.reopen, s.content.reopen⟩

/-- Allocate the next timestamp. -/
def tick (s : SyncedDrive) : Option (Timestamp × SyncedDrive) := do
  let lamport ← checkedSucc s.lamport
  return (⟨lamport, s.replica⟩, { s with lamport := lamport })

def observe (s : SyncedDrive) (ts : Timestamp) : SyncedDrive :=
  { s with lamport := max s.lamport ts.lamport }

/-- Read the merged tree, and advance the clock past it. -/
def withTree (s : SyncedDrive) : DriveTree × SyncedDrive :=
  match (s.readTree F).logMaxTs with
  | some ts => (s.readTree F, s.observe ts)
  | none => (s.readTree F, s)

def proposeMove (s : SyncedDrive) (op : MoveOp) : SyncedDrive :=
  { s with tree := s.tree.propose op }

/-- Propose a content operation with a fresh timestamp. -/
def proposeContent (s : SyncedDrive) (op : ContentOp) : Option SyncedDrive := do
  let (ts, s) ← s.tick
  return { s with content := s.content.propose ⟨ts, op⟩ }

/-- `fresh_node_id` : the tick, the replica and the process-wide counter, which it
advances. -/
def freshNodeId (ts : Timestamp) (ctr : ℕ) : NodeId × ℕ :=
  (hexPad 12 ts.lamport ++ "-" ++ DriveTree.short ts.replica ++ "-" ++ hexPad 8 ctr,
    (ctr + 1) % 2 ^ 64)

/-- A path that must be an existing directory. -/
def resolveDir (t : DriveTree) (path : String) : Except String NodeId :=
  match t.resolve path with
  | none => .error ("no such directory: " ++ path)
  | some node =>
    if node ≠ ROOT ∧ (t.edge node).map Edge.kind ≠ some .dir then
      .error ("'" ++ path ++ "' is not a directory")
    else .ok node

/-- The live child of `parent` with a given bare name. -/
def childNamed (t : DriveTree) (parent : NodeId) (name : String) : Option NodeId :=
  ((t.rawChildren parent).find? fun kid => kid.1 = name && !t.isTrashed kid.2).map Prod.snd

/-- Create a directory. -/
def mkdir (s : SyncedDrive) (ctr : ℕ) (parentPath name : String) :
    Option (Except String NodeId × SyncedDrive × ℕ) :=
  let (t, s) := s.withTree F
  match resolveDir t parentPath with
  | .error e => some (.error e, s, ctr)
  | .ok parent => do
    let (ts, s) ← s.tick
    let (id, ctr) := freshNodeId ts ctr
    return (.ok id, s.proposeMove ⟨ts, id, parent, name, .dir⟩, ctr)

/-- What `add_file` reads : the parent directory and the child that has the name. -/
def addFileRead (t : DriveTree) (parentPath name : String) : Except String (NodeId × Option NodeId) := do
  let parent ← resolveDir t parentPath
  return (parent, childNamed t parent name)

/-- `add_file` up to the await after its first proposal, with the content operation that is
still to be proposed. -/
def addFile (s : SyncedDrive) (ctr : ℕ) (parentPath name : String) (content : FileContent) :
    Option (Except String NodeId × Option ContentOp × SyncedDrive × ℕ) :=
  let (t, s) := s.withTree F
  match addFileRead t parentPath name with
  | .error e => some (.error e, none, s, ctr)
  | .ok (_, some existing) => do
    let s ← s.proposeContent (Drive.setOp existing content)
    return (.ok existing, none, s, ctr)
  | .ok (parent, none) => do
    let (ts, s) ← s.tick
    let (id, ctr) := freshNodeId ts ctr
    return (.ok id, some (Drive.setOp id content), s.proposeMove ⟨ts, id, parent, name, .file⟩, ctr)

/-- What `mv` reads : the node and the destination directory. -/
def mvRead (t : DriveTree) (srcPath dstParentPath : String) : Except String (NodeId × NodeId) :=
  match t.resolve srcPath with
  | none => .error ("no such path: " ++ srcPath)
  | some node =>
    if node = ROOT then .error "cannot move the root"
    else (resolveDir t dstParentPath).map fun dstParent => (node, dstParent)

/-- Move or rename a node. -/
def mv (s : SyncedDrive) (srcPath dstParentPath dstName : String) :
    Option (Except String Unit × SyncedDrive) :=
  let (t, s) := s.withTree F
  match mvRead t srcPath dstParentPath with
  | .error e => some (.error e, s)
  | .ok (node, dstParent) => do
    let (ts, s) ← s.tick
    return (.ok (), s.proposeMove ⟨ts, node, dstParent, dstName, t.kindOf node⟩)

/-- What `rm` reads : the node. -/
def rmRead (t : DriveTree) (path : String) : Except String NodeId :=
  match t.resolve path with
  | none => .error ("no such path: " ++ path)
  | some node => if node = ROOT then .error "cannot delete the root" else .ok node

/-- Delete a node : move it to the trash. -/
def rm (s : SyncedDrive) (path : String) : Option (Except String Unit × SyncedDrive) :=
  let (t, s) := s.withTree F
  match rmRead t path with
  | .error e => some (.error e, s)
  | .ok node => do
    let (ts, s) ← s.tick
    return (.ok (), s.proposeMove
      ⟨ts, node, TRASH, ((t.edge node).map Edge.name).getD "", t.kindOf node⟩)

/-- Save new content on a node, by id. -/
def setContent (s : SyncedDrive) (id : NodeId) (content : FileContent) : Option SyncedDrive :=
  s.proposeContent (Drive.setOp id content)

end SyncedDrive

/-! ## Runs of a device -/

/-- An operation proposed, with what the merged unions held. -/
structure Proposal where
  op : DriveOp
  present : List DriveOp

/-- The operation comes after everything present. -/
def Proposal.Dominates (p : Proposal) : Prop :=
  ∀ x ∈ p.present, x.ts < p.op.ts

/-- A device : its handle, the content operations that calls of `add_file` have yet to
propose, and everything it proposed. -/
structure Device where
  drive : SyncedDrive
  pending : List ContentOp
  proposals : List Proposal

/-- A call on the handle, the second proposal of the `k`-th `add_file` that awaits it, a
query of the tree, the arrival of a peer's operation, or opening the drive again. -/
inductive SyncEvent
  | mkdir (ctr : ℕ) (parentPath name : String)
  | addFile (ctr : ℕ) (parentPath name : String) (content : FileContent)
  | addContent (k : ℕ)
  | mv (srcPath dstParentPath dstName : String)
  | rm (path : String)
  | setContent (id : NodeId) (content : FileContent)
  | query
  | arriveMove (op : MoveOp)
  | arriveContent (op : StampedContentOp)
  | reopen

namespace SyncedDrive

variable (F : Folding MoveOp.ts) (G : Folding StampedContentOp.ts)

/-- The operations in the merged unions. -/
def present (s : SyncedDrive) : List DriveOp :=
  (F.union s.tree.ops).map .move ++ (G.union s.content.ops).map .content

/-- The operations in the own writer logs. -/
def ownOps (s : SyncedDrive) : List DriveOp :=
  s.tree.own.map .move ++ s.content.own.map .content

/-- What was appended to the own writer logs between `s` and `s'`. -/
def proposed (s s' : SyncedDrive) : List DriveOp :=
  (s'.tree.own.drop s.tree.own.length).map .move ++
    (s'.content.own.drop s.content.own.length).map .content

/-- The clock after the tree is read. -/
def observed (s : SyncedDrive) : ℕ :=
  (s.withTree F).2.lamport

/-- Every move of the union comes before the next timestamp, the clock being at `l`. -/
def MovesBelow (s : SyncedDrive) (l : ℕ) : Prop :=
  ∀ x ∈ F.union s.tree.ops, x.ts < ⟨l + 1, s.replica⟩

/-- Every content operation of the union comes before the next timestamp. -/
def ContentBelow (s : SyncedDrive) (l : ℕ) : Prop :=
  ∀ x ∈ G.union s.content.ops, x.ts < ⟨l + 1, s.replica⟩

end SyncedDrive

namespace Device

variable (F : Folding MoveOp.ts) (G : Folding StampedContentOp.ts)

def start (replica : ReplicaId) : Device :=
  ⟨⟨replica, 0, ⟨[], []⟩, ⟨[], []⟩⟩, [], []⟩

/-- The handle becomes `s`; what it proposed on the way is recorded. -/
def record (dev : Device) (s : SyncedDrive) (pending : List ContentOp) : Device :=
  ⟨s, pending, dev.proposals ++ (dev.drive.proposed s).map fun op => ⟨op, dev.drive.present F G⟩⟩

def perform (dev : Device) : SyncEvent → Option Device
  | .mkdir ctr parentPath name =>
    (dev.drive.mkdir F ctr parentPath name).map fun r => dev.record F G r.2.1 dev.pending
  | .addFile ctr parentPath name content =>
    (dev.drive.addFile F ctr parentPath name content).map fun r =>
      dev.record F G r.2.2.1 (dev.pending ++ r.2.1.toList)
  | .addContent k => (dev.pending[k]?).bind fun op =>
    (dev.drive.proposeContent op).map fun s => dev.record F G s (dev.pending.eraseIdx k)
  | .mv srcPath dstParentPath dstName =>
    (dev.drive.mv F srcPath dstParentPath dstName).map fun r => dev.record F G r.2 dev.pending
  | .rm path => (dev.drive.rm F path).map fun r => dev.record F G r.2 dev.pending
  | .setContent id content =>
    (dev.drive.setContent id content).map fun s => dev.record F G s dev.pending
  | .query => some { dev with drive := (dev.drive.withTree F).2 }
  | .arriveMove op => some { dev with drive := { dev.drive with tree := dev.drive.tree.arrive op } }
  | .arriveContent op =>
    some { dev with drive := { dev.drive with content := dev.drive.content.arrive op } }
  | .reopen => some { dev with drive := dev.drive.reopen, pending := [] }

def performAll (dev : Device) (es : List SyncEvent) : Option Device :=
  es.foldlM (perform F G) dev

/-- A call that reads the tree, and is not refused, finds the clock past the content
operations. A call that does not read it finds the clock past both collections. -/
def Keeps (dev : Device) : SyncEvent → Prop
  | .mkdir _ parentPath _ =>
    (SyncedDrive.resolveDir (dev.drive.readTree F) parentPath).isOk = true →
      dev.drive.ContentBelow G (dev.drive.observed F)
  | .addFile _ parentPath name _ =>
    (SyncedDrive.addFileRead (dev.drive.readTree F) parentPath name).isOk = true →
      dev.drive.ContentBelow G (dev.drive.observed F)
  | .mv srcPath dstParentPath _ =>
    (SyncedDrive.mvRead (dev.drive.readTree F) srcPath dstParentPath).isOk = true →
      dev.drive.ContentBelow G (dev.drive.observed F)
  | .rm path =>
    (SyncedDrive.rmRead (dev.drive.readTree F) path).isOk = true →
      dev.drive.ContentBelow G (dev.drive.observed F)
  | .setContent .. | .addContent _ =>
    dev.drive.MovesBelow F dev.drive.lamport ∧ dev.drive.ContentBelow G dev.drive.lamport
  | .query | .arriveMove _ | .arriveContent _ | .reopen => True

/-- Every step of the run from `dev` meets the condition. -/
def RunKeeps : Device → List SyncEvent → Prop
  | _, [] => True
  | dev, e :: es => dev.Keeps F G e ∧ ∀ dev', dev.perform F G e = some dev' → RunKeeps dev' es

end Device

namespace SyncedDrive

variable {F : Folding MoveOp.ts} {G : Folding StampedContentOp.ts} {s s' : SyncedDrive}
  {x : MoveOp} {op : DriveOp}

/-! ## Reading the tree -/

/-- The greatest timestamp of the fold bounds the union. -/
theorem le_logMaxTs (hx : x ∈ F.union s.tree.ops) :
    ∃ ts, (s.readTree F).logMaxTs = some ts ∧ x.ts ≤ ts := by
  have hlog : (s.readTree F).logOps = F.union s.tree.ops := by
    rw [readTree, DriveTree.logOps_applyAll]
    exact deliverAll_eq_of_mem_iff (F.ascending _) fun _ => Iff.rfl
  have hlast : (s.readTree F).logMaxTs = ((F.union s.tree.ops).getLast?).map MoveOp.ts := by
    rw [← hlog, DriveTree.logMaxTs, DriveTree.logOps, List.getLast?_map, Option.map_map]
    rfl
  obtain ⟨y, hy, hle⟩ := (F.ascending s.tree.ops).le_getLast? hx
  exact ⟨y.ts, by rw [hlast, hy, Option.map_some], hle⟩

theorem withTree_eq (s : SyncedDrive) :
    s.withTree F = (s.readTree F, { s with lamport := s.observed F }) := by
  rw [observed, withTree]
  cases (s.readTree F).logMaxTs <;> rfl

/-- After the tree is read the clock is past the moves. -/
theorem movesBelow_observed (s : SyncedDrive) : s.MovesBelow F (s.observed F) := by
  intro x hx
  obtain ⟨ts, hts, hle⟩ := le_logMaxTs hx
  have hobs : ts.lamport ≤ s.observed F := by
    rw [observed, withTree, hts]
    exact le_max_right _ _
  exact hle.trans_lt (Timestamp.lt_of_lamport_lt (Nat.lt_succ_of_le hobs))

theorem dominates_iff {ts : Timestamp} (hop : op.ts = ts) :
    Proposal.Dominates ⟨op, s.present F G⟩ ↔
      (∀ x ∈ F.union s.tree.ops, x.ts < ts) ∧ ∀ x ∈ G.union s.content.ops, x.ts < ts := by
  subst hop
  simp [Proposal.Dominates, present, or_imp, forall_and, DriveOp.ts]

/-! ## What a call does -/

theorem tick_eq_some {t : Timestamp × SyncedDrive} (h : s.tick = some t) :
    t = (⟨s.lamport + 1, s.replica⟩, { s with lamport := s.lamport + 1 }) := by
  obtain ⟨l, hl, h⟩ := Option.bind_eq_some_iff.1 h
  obtain rfl := checkedSucc_eq_some hl
  exact (Option.some_injective _ h).symm

/-- With the clock at `l`, a call that is refused proposes nothing, and one that is accepted
proposes one operation at the next tick. -/
inductive Outcome (s : SyncedDrive) (l : ℕ) : Bool → SyncedDrive → Prop
  | refused : Outcome s l false { s with lamport := l }
  | move (op : MoveOp) (h : op.ts = ⟨l + 1, s.replica⟩) :
      Outcome s l true { s with lamport := l + 1, tree := s.tree.propose op }
  | content (op : StampedContentOp) (h : op.ts = ⟨l + 1, s.replica⟩) :
      Outcome s l true { s with lamport := l + 1, content := s.content.propose op }

theorem outcome_proposeContent {op : ContentOp} (h : s.proposeContent op = some s') :
    Outcome s s.lamport true s' := by
  obtain ⟨t, ht, h⟩ := Option.bind_eq_some_iff.1 h
  obtain rfl := tick_eq_some ht
  exact Option.some_injective _ h ▸ .content _ rfl

theorem outcome_mkdir {ctr : ℕ} {parentPath name : String}
    {r : Except String NodeId × SyncedDrive × ℕ} (h : s.mkdir F ctr parentPath name = some r) :
    Outcome s (s.observed F) (resolveDir (s.readTree F) parentPath).isOk r.2.1 := by
  simp only [mkdir, withTree_eq] at h
  cases hc : resolveDir (s.readTree F) parentPath with
  | error e =>
    simp only [hc] at h
    exact Option.some_injective _ h ▸ .refused
  | ok parent =>
    simp only [hc] at h
    obtain ⟨t, ht, h⟩ := Option.bind_eq_some_iff.1 h
    obtain rfl := tick_eq_some ht
    exact Option.some_injective _ h ▸ .move _ rfl

theorem outcome_addFile {ctr : ℕ} {parentPath name : String} {content : FileContent}
    {r : Except String NodeId × Option ContentOp × SyncedDrive × ℕ}
    (h : s.addFile F ctr parentPath name content = some r) :
    Outcome s (s.observed F) (addFileRead (s.readTree F) parentPath name).isOk r.2.2.1 := by
  simp only [addFile, withTree_eq] at h
  cases hc : addFileRead (s.readTree F) parentPath name with
  | error e =>
    simp only [hc] at h
    exact Option.some_injective _ h ▸ .refused
  | ok found =>
    obtain ⟨parent, existing⟩ := found
    cases existing with
    | some existing =>
      simp only [hc] at h
      obtain ⟨s₁, hp, h⟩ := Option.bind_eq_some_iff.1 h
      obtain ⟨t, ht, hp⟩ := Option.bind_eq_some_iff.1 hp
      obtain rfl := tick_eq_some ht
      obtain rfl := Option.some_injective _ hp
      exact Option.some_injective _ h ▸ .content _ rfl
    | none =>
      simp only [hc] at h
      obtain ⟨t, ht, h⟩ := Option.bind_eq_some_iff.1 h
      obtain rfl := tick_eq_some ht
      exact Option.some_injective _ h ▸ .move _ rfl

theorem outcome_mv {src dstParent dstName : String} {r : Except String Unit × SyncedDrive}
    (h : s.mv F src dstParent dstName = some r) :
    Outcome s (s.observed F) (mvRead (s.readTree F) src dstParent).isOk r.2 := by
  simp only [mv, withTree_eq] at h
  cases hc : mvRead (s.readTree F) src dstParent with
  | error e =>
    simp only [hc] at h
    exact Option.some_injective _ h ▸ .refused
  | ok found =>
    simp only [hc] at h
    obtain ⟨t, ht, h⟩ := Option.bind_eq_some_iff.1 h
    obtain rfl := tick_eq_some ht
    exact Option.some_injective _ h ▸ .move _ rfl

theorem outcome_rm {path : String} {r : Except String Unit × SyncedDrive}
    (h : s.rm F path = some r) :
    Outcome s (s.observed F) (rmRead (s.readTree F) path).isOk r.2 := by
  simp only [rm, withTree_eq] at h
  cases hc : rmRead (s.readTree F) path with
  | error e =>
    simp only [hc] at h
    exact Option.some_injective _ h ▸ .refused
  | ok node =>
    simp only [hc] at h
    obtain ⟨t, ht, h⟩ := Option.bind_eq_some_iff.1 h
    obtain rfl := tick_eq_some ht
    exact Option.some_injective _ h ▸ .move _ rfl

/-- A call proposes nothing if refused, one operation with the next timestamp if accepted. -/
theorem Outcome.proposed {l : ℕ} {accepted : Bool} (h : Outcome s l accepted s') :
    (accepted = false ∧ s.proposed s' = []) ∨
      (accepted = true ∧ ∃ op : DriveOp, op.ts = ⟨l + 1, s.replica⟩ ∧ s.proposed s' = [op]) := by
  cases h with
  | refused => exact Or.inl ⟨rfl, by simp [SyncedDrive.proposed]⟩
  | move op hts =>
    exact Or.inr ⟨rfl, .move op, hts, by simp [SyncedDrive.proposed, Merged.propose]⟩
  | content op hts =>
    exact Or.inr ⟨rfl, .content op, hts, by simp [SyncedDrive.proposed, Merged.propose]⟩

theorem Outcome.mem_ownOps {l : ℕ} {accepted : Bool} (h : Outcome s l accepted s') :
    op ∈ s'.ownOps ↔ op ∈ s.ownOps ∨ op ∈ s.proposed s' := by
  cases h with
  | refused => simp [SyncedDrive.proposed, ownOps]
  | move op hts =>
    simp only [SyncedDrive.proposed, ownOps, Merged.propose, List.map_append, List.drop_left',
      List.mem_append, List.drop_length, List.map_nil, List.append_nil, List.map_singleton]
    tauto
  | content op hts => simp [SyncedDrive.proposed, ownOps, Merged.propose, or_assoc]

/-- The unions hold every key of the own writer logs. -/
theorem ts_mem_present (hop : op ∈ s.ownOps) : ∃ x ∈ s.present F G, x.ts = op.ts := by
  rcases List.mem_append.1 hop with hop | hop
  · obtain ⟨x, hx, rfl⟩ := List.mem_map.1 hop
    obtain ⟨y, hy, hts⟩ := F.covers s.tree.ops x (List.mem_append_left _ hx)
    exact ⟨.move y, List.mem_append_left _ (List.mem_map_of_mem hy), hts⟩
  · obtain ⟨x, hx, rfl⟩ := List.mem_map.1 hop
    obtain ⟨y, hy, hts⟩ := G.covers s.content.ops x (List.mem_append_left _ hx)
    exact ⟨.content y, List.mem_append_right _ (List.mem_map_of_mem hy), hts⟩

end SyncedDrive

namespace Device

variable {F : Folding MoveOp.ts} {G : Folding StampedContentOp.ts} {dev dev' : Device}
  {e : SyncEvent} {es : List SyncEvent}

/-- A call's proposal comes after everything present if both collections are below it. -/
theorem record_dominates {s : SyncedDrive} {l : ℕ} {accepted : Bool}
    (h : dev.drive.Outcome l accepted s) :
    (∀ op ∈ dev.drive.proposed s, Proposal.Dominates ⟨op, dev.drive.present F G⟩) ↔
      (accepted = true → dev.drive.MovesBelow F l ∧ dev.drive.ContentBelow G l) := by
  rcases h.proposed with ⟨rfl, hnone⟩ | ⟨rfl, op, hts, hone⟩
  · simp [hnone]
  · rw [hone, List.forall_mem_singleton, SyncedDrive.dominates_iff hts]
    simp [SyncedDrive.MovesBelow, SyncedDrive.ContentBelow]

/-- A step is a call with its outcome, under the step's condition, or leaves the own writer
logs and the record alone. -/
theorem perform_cases (he : dev.perform F G e = some dev') :
    (∃ s l accepted pending, dev.drive.Outcome l accepted s ∧ dev' = dev.record F G s pending ∧
      (dev.Keeps F G e ↔
        (accepted = true → dev.drive.MovesBelow F l ∧ dev.drive.ContentBelow G l))) ∨
    (dev'.proposals = dev.proposals ∧ dev'.drive.ownOps = dev.drive.ownOps ∧
      dev.Keeps F G e) := by
  have hmoves := dev.drive.movesBelow_observed (F := F)
  cases e with
  | mkdir ctr parentPath name =>
    obtain ⟨r, hr, rfl⟩ := Option.map_eq_some_iff.1 he
    exact Or.inl ⟨_, _, _, _, SyncedDrive.outcome_mkdir hr, rfl, by simp [Keeps, hmoves]⟩
  | addFile ctr parentPath name content =>
    obtain ⟨r, hr, rfl⟩ := Option.map_eq_some_iff.1 he
    exact Or.inl ⟨_, _, _, _, SyncedDrive.outcome_addFile hr, rfl, by simp [Keeps, hmoves]⟩
  | mv src dstParent dstName =>
    obtain ⟨r, hr, rfl⟩ := Option.map_eq_some_iff.1 he
    exact Or.inl ⟨_, _, _, _, SyncedDrive.outcome_mv hr, rfl, by simp [Keeps, hmoves]⟩
  | rm path =>
    obtain ⟨r, hr, rfl⟩ := Option.map_eq_some_iff.1 he
    exact Or.inl ⟨_, _, _, _, SyncedDrive.outcome_rm hr, rfl, by simp [Keeps, hmoves]⟩
  | addContent k =>
    obtain ⟨op, -, he⟩ := Option.bind_eq_some_iff.1 he
    obtain ⟨s, hs, rfl⟩ := Option.map_eq_some_iff.1 he
    exact Or.inl ⟨_, _, _, _, SyncedDrive.outcome_proposeContent hs, rfl, by simp [Keeps]⟩
  | setContent id content =>
    obtain ⟨s, hs, rfl⟩ := Option.map_eq_some_iff.1 he
    exact Or.inl ⟨_, _, _, _, SyncedDrive.outcome_proposeContent hs, rfl, by simp [Keeps]⟩
  | query =>
    obtain rfl := Option.some_injective _ he
    exact Or.inr ⟨rfl, by rw [SyncedDrive.withTree_eq]; rfl, trivial⟩
  | arriveMove op =>
    obtain rfl := Option.some_injective _ he
    exact Or.inr ⟨rfl, rfl, trivial⟩
  | arriveContent op =>
    obtain rfl := Option.some_injective _ he
    exact Or.inr ⟨rfl, rfl, trivial⟩
  | reopen =>
    obtain rfl := Option.some_injective _ he
    exact Or.inr ⟨rfl, rfl, trivial⟩

/-- What a step proposes comes after everything present exactly if the step meets the
condition. -/
theorem perform_dominates (he : dev.perform F G e = some dev') :
    (∀ p ∈ dev'.proposals, p.Dominates) ↔
      (∀ p ∈ dev.proposals, p.Dominates) ∧ dev.Keeps F G e := by
  rcases perform_cases he with ⟨s, l, accepted, pending, hout, rfl, hkeeps⟩ | ⟨hsame, -, hkeeps⟩
  · rw [hkeeps, ← record_dominates hout]
    simp [record, or_imp, forall_and]
  · simp [hsame, hkeeps]

theorem condition : Runs.Condition (perform F G) (Keeps F G) (RunKeeps F G) :=
  ⟨fun _ => trivial, fun _ _ _ => Iff.rfl⟩

/-- Over a run : everything proposed comes after what was present exactly if every step
meets the condition. -/
theorem performAll_dominates (hrun : dev.performAll F G es = some dev') :
    (∀ p ∈ dev'.proposals, p.Dominates) ↔
      (∀ p ∈ dev.proposals, p.Dominates) ∧ dev.RunKeeps F G es :=
  condition.good_iff (fun _ => True) (fun dev => ∀ p ∈ dev.proposals, p.Dominates) trivial hrun
    (fun _ _ _ _ _ _ => trivial) fun _ _ _ _ he => perform_dominates he

/-! ## The keys of a run -/

/-- Everything proposed is in the own writer logs, and what was proposed earlier was then
present, by its key. -/
structure Recorded (dev : Device) : Prop where
  own : ∀ p ∈ dev.proposals, p.op ∈ dev.drive.ownOps
  present : dev.proposals.Pairwise fun p q => ∃ x ∈ q.present, x.ts = p.op.ts

theorem Recorded.perform (hrec : dev.Recorded) (he : dev.perform F G e = some dev') :
    dev'.Recorded := by
  rcases perform_cases he with ⟨s, l, accepted, pending, hout, rfl, -⟩ | ⟨hsame, hown, -⟩
  · constructor
    · intro p hp
      rw [record, hout.mem_ownOps]
      rcases List.mem_append.1 hp with hp | hp
      · exact Or.inl (hrec.own p hp)
      · obtain ⟨op, hop, rfl⟩ := List.mem_map.1 hp
        exact Or.inr hop
    · refine List.pairwise_append.2 ⟨hrec.present, ?_, ?_⟩
      · -- at most one proposal a call
        rcases hout.proposed with ⟨-, hnone⟩ | ⟨-, op, -, hone⟩
        · simp [hnone]
        · simp [hone]
      · intro p hp q hq
        obtain ⟨op, -, rfl⟩ := List.mem_map.1 hq
        exact SyncedDrive.ts_mem_present (hrec.own p hp)
  · exact ⟨by rw [hsame, hown]; exact hrec.own, by rw [hsame]; exact hrec.present⟩

theorem Recorded.performAll (hrec : dev.Recorded) (hrun : dev.performAll F G es = some dev') :
    dev'.Recorded :=
  Runs.invariant Recorded hrec hrun fun _ _ _ _ hrec he => hrec.perform he

/-- Proposals that come after everything present have ascending keys. -/
theorem Recorded.ascending (hrec : dev.Recorded) (hdom : ∀ p ∈ dev.proposals, p.Dominates) :
    (dev.proposals.map fun p => p.op.ts).Pairwise (· < ·) := by
  rw [List.pairwise_map]
  refine hrec.present.imp_of_mem fun {p q} _ hq => ?_
  rintro ⟨x, hx, hts⟩
  exact hts ▸ hdom q hq x hx

/-- Everything the device proposes comes after every operation in its merged unions, and no
two proposals share a key, exactly if every call finds the clock past what it was not
advanced past. -/
theorem proposals_dominate_iff (replica : ReplicaId)
    (hrun : (start replica).performAll F G es = some dev) :
    (∀ p ∈ dev.proposals, p.Dominates) ∧
        (dev.proposals.map fun p => p.op.ts).Pairwise (· < ·) ↔
      (start replica).RunKeeps F G es := by
  have hrec : dev.Recorded := Recorded.performAll ⟨by simp [start], by simp [start]⟩ hrun
  have hiff := performAll_dominates hrun
  rw [and_iff_left_of_imp hrec.ascending, hiff]
  simp [start]

instance (p : Proposal) : Decidable p.Dominates :=
  inferInstanceAs (Decidable (∀ x ∈ p.present, x.ts < p.op.ts))

instance (s : SyncedDrive) (l : ℕ) : Decidable (s.MovesBelow F l) :=
  inferInstanceAs (Decidable (∀ x ∈ F.union s.tree.ops, x.ts < ⟨l + 1, s.replica⟩))

instance (s : SyncedDrive) (l : ℕ) : Decidable (s.ContentBelow G l) :=
  inferInstanceAs (Decidable (∀ x ∈ G.union s.content.ops, x.ts < ⟨l + 1, s.replica⟩))

/-- A file is created, a peer's directory arrives, and a directory is created in it. -/
theorem proposals_dominate_iff_arrived :
    let dev := ((start "a").performAll (.first _) (.first _)
      [.addFile 0 "/" "f" (.new "c" 1 420 0), .addContent 0,
        .arriveMove ⟨⟨7, "b"⟩, "x", ROOT, "x", .dir⟩, .mkdir 1 "/x" "y"]).get (by decide +kernel)
    (∀ p ∈ dev.proposals, p.Dominates) ∧
      (dev.proposals.map fun p => p.op.ts).Pairwise (· < ·) := by
  intro dev
  refine (proposals_dominate_iff "a" (Option.some_get _).symm).2 ?_
  refine condition.cons_of (fun _ => by decide +kernel) (by decide +kernel) ?_
  refine condition.cons_of ⟨by decide +kernel, by decide +kernel⟩ (by decide +kernel) ?_
  refine condition.cons_of trivial (by decide +kernel) ?_
  exact condition.cons_of (fun _ => by decide +kernel) (by decide +kernel) trivial

/-- A file is created, the drive opened again, and the file saved twice. -/
def reopenedRun : List SyncEvent :=
  [.addFile 0 "/" "f" (.new "c" 1 420 0), .addContent 0, .reopen,
    .setContent "000000000001-a-00000000" (.new "d" 1 420 1),
    .setContent "000000000001-a-00000000" (.new "e" 1 420 2)]

/-- The second save has the key of the first content operation, and is not in the union. -/
theorem save_dropped :
    let dev := ((start "a").performAll (.first _) (.first _) reopenedRun).get (by decide +kernel)
    ¬((∀ p ∈ dev.proposals, p.Dominates) ∧
        (dev.proposals.map fun p => p.op.ts).Pairwise (· < ·)) ∧
      ∃ op ∈ dev.drive.content.own,
        op ∉ (Folding.first StampedContentOp.ts).union dev.drive.content.ops := by
  decide +kernel

end Device

end CeDrive
