import CeDrive.PushSteps

/-!
# Pushes, one operation at a time

A push that succeeds is a run of drive operations, each at a place of the disk : a save of a file
that is listed, a file that is created, a directory that is made, a file that is deleted. `PushOp`
says of each all that it does and where, so that what every operation keeps holds after a push
(`PushRun.invariant`).
-/

open Relation (ReflTransGen)

namespace CeDrive

namespace PushStep

open Drive

/-- A push is at the entry `r` of the directory at `q`. -/
structure At (store : ObjectStore) (disk : DiskDir) (s : PushState) (q : List String) (p : NodeId)
    (r : String) : Prop where
  ready : s.drive.Ready store disk
  inv : s.drive.Inv
  walked : s.drive.tree.Walked q p
  dir : s.drive.tree.IsDir p
  component : DriveTree.IsComponent r

/-- Nothing is listed at the entry, and the id for it is spare. -/
structure Vacant (store : ObjectStore) (disk : DiskDir) (s : PushState) (q : List String)
    (p : NodeId) (r : String) (kind : NodeKind) : Prop extends At store disk s q p r where
  live : s.drive.tree.isTrashed ROOT = false
  name : ∀ n, ¬s.drive.tree.Lists p r n
  spare : s.drive.Spare (s.drive.nextId s.ctr) kind

/-- The content saved for a file. -/
structure Saves (store : ObjectStore) (f : DiskFile) (content : FileContent) : Prop where
  cid : content.cid = store.cidOf f.bytes
  mtime : content.mtimeMs = f.mtimeMs

end PushStep

open PushStep in
/-- One operation of a push that succeeds. -/
inductive PushOp (store : ObjectStore) (disk : DiskDir) : PushState → PushState → Prop
  | keep (s : PushState) (uploads : List (List UInt8)) : PushOp store disk s { s with uploads }
  | edit {s : PushState} {q : List String} {p m : NodeId} {r : String} {f : DiskFile}
      {content : FileContent} (h : At store disk s q p r) (hf : disk.HasFile (q ++ [r]) f)
      (hl : s.drive.tree.Lists p r m) (hc : Saves store f content)
      (uploads : List (List UInt8)) (chunks : ℕ) : PushOp store disk s
        ⟨s.drive.wrote (Drive.setOp m content), s.ctr,
          ⟨s.report.changed + 1, s.report.removed, chunks⟩, uploads⟩
  | create {s : PushState} {q : List String} {p : NodeId} {r : String} {f : DiskFile}
      {content : FileContent} (h : Vacant store disk s q p r .file) (hf : disk.HasFile (q ++ [r]) f)
      (hc : Saves store f content) (uploads : List (List UInt8)) (chunks : ℕ) : PushOp store disk s
        ⟨(s.drive.moved (s.drive.nextId s.ctr) p r .file).wrote
          (Drive.setOp (s.drive.nextId s.ctr) content), (s.ctr + 1) % 2 ^ 64,
          ⟨s.report.changed + 1, s.report.removed, chunks⟩, uploads⟩
  | mkdir {s : PushState} {q : List String} {p : NodeId} {r : String}
      (h : Vacant store disk s q p r .dir) (hd : disk.HasDir (q ++ [r])) : PushOp store disk s
        { s with
          drive := s.drive.moved (s.drive.nextId s.ctr) p r .dir
          ctr := (s.ctr + 1) % 2 ^ 64 }
  | rm {s : PushState} {q : List String} {p c : NodeId} {r : String} (hinv : s.drive.Inv)
      (hparts : s.drive.tree.Parts q p r c) (hf : ∀ f, ¬disk.HasFile (q ++ [r]) f) :
      PushOp store disk s
        { s with
          drive := s.drive.moved c TRASH (s.drive.nameOf c) (s.drive.tree.kindOf c)
          report := { s.report with removed := s.report.removed + 1 } }

/-- Operations of a push, one after the other. -/
abbrev PushRun (store : ObjectStore) (disk : DiskDir) : PushState → PushState → Prop :=
  ReflTransGen (PushOp store disk)

/-- What every operation keeps holds after the run. -/
theorem PushRun.invariant {store : ObjectStore} {disk : DiskDir} {s s' : PushState}
    (h : PushRun store disk s s') (P : PushState → Prop) (hs : P s)
    (hop : ∀ s s', PushOp store disk s s' → P s → P s') : P s' := by
  induction h with
  | refl => exact hs
  | tail _ hlast ih => exact hop _ _ hlast ih

/-! ## A new node -/

namespace PushStep.Vacant

open Drive

variable {store : ObjectStore} {disk : DiskDir} {s : PushState} {q x : List String} {p n : NodeId}
  {r : String} {kind : NodeKind} (h : Vacant store disk s q p r kind)
include h

theorem ne (hn : s.drive.tree.Walked x n) : n ≠ s.drive.nextId s.ctr :=
  h.spare.unused.ne_of_walked h.inv.replayed
    (fun heq => not_reserved_freshNodeId _ _ (Or.inl heq)) hn

theorem isDir_iff (hn : s.drive.tree.Walked x n) :
    (s.drive.moved (s.drive.nextId s.ctr) p r kind).tree.IsDir n ↔ s.drive.tree.IsDir n :=
  (DriveTree.moved_of_inv h.inv _ p r kind).isDir_iff (h.ne hn)

theorem isDir_self :
    (s.drive.moved (s.drive.nextId s.ctr) p r kind).tree.IsDir (s.drive.nextId s.ctr) ↔
      kind = .dir :=
  isDir_moved_self kind h.inv h.spare.unused (not_reserved_freshNodeId _ _) h.walked

theorem grafted : Grafted s.drive (s.drive.moved (s.drive.nextId s.ctr) p r kind) q p r
    (s.drive.nextId s.ctr) :=
  grafted_moved kind h.inv h.live h.spare.unused (not_reserved_freshNodeId _ _) h.walked h.name h.dir

theorem childNamed_self :
    (s.drive.moved (s.drive.nextId s.ctr) p r kind).childNamed p r =
      some (s.drive.nextId s.ctr) :=
  childNamed_moved_self kind h.inv h.spare.unused (not_reserved_freshNodeId _ _) h.walked h.name
    h.live

theorem sameAt (hx : x ≠ q ++ [r]) :
    s.drive.SameAt (s.drive.moved (s.drive.nextId s.ctr) p r kind) x :=
  sameAt_moved kind h.inv h.live h.spare.unused (not_reserved_freshNodeId _ _) h.walked h.name h.dir
    hx

theorem ready_moved (hkind : kind = .file ↔ ∃ f, disk.HasFile (q ++ [r]) f) :
    (s.drive.moved (s.drive.nextId s.ctr) p r kind).Ready store disk :=
  h.ready.moved kind h.inv h.live h.spare.unused (not_reserved_freshNodeId _ _) h.walked h.name
    h.dir h.component hkind

theorem tidy_moved (htidy : s.drive.tree.Tidy) :
    (s.drive.moved (s.drive.nextId s.ctr) p r kind).tree.Tidy :=
  htidy.graft (DriveTree.moved_of_inv h.inv _ p r kind) h.inv.replayed h.spare.unused
    (fun heq => not_reserved_freshNodeId _ _ (Or.inr (Or.inl heq))) (h.ne h.walked) h.name
    h.walked.listedAt h.dir h.component
    (h.inv.reservedFree_moved_of_not htidy.reserved (not_reserved_freshNodeId _ _) _ _ _)

/-- Other spare ids are still spare. -/
theorem spare_moved {id : NodeId} {kind' : NodeKind} (hs : s.drive.Spare id kind')
    (hid : ¬Reserved id) (hne : id ≠ s.drive.nextId s.ctr) :
    (s.drive.moved (s.drive.nextId s.ctr) p r kind).Spare id kind' :=
  hs.moved kind h.inv h.spare.unused (not_reserved_freshNodeId _ _) h.walked hid hne

end PushStep.Vacant

end CeDrive
