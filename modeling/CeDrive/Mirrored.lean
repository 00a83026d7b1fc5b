import CeDrive.FreshIds
import CeDrive.Materialize
import CeDrive.Relabel
import CeDrive.Synced

/-!
# A synced drive that mirrors a drive

A synced drive with no peers mirrors a single-writer drive (`Mirrors`) if its clock is the
same and its two logs are those of the drive with the ids relabeled, each node created having
got, at one tick, an id of the one format on one side and of the other on the other. The
ticks come first in both formats, so the relabeling keeps the order of ids as long as ticks
fit the twelve digits they are printed in.

A mirror shows the same tree and the same content (`Mirrors.relabeled`, `Mirrors.content_eq`),
and is kept when both append the same move, the same creation or the same content operation.
-/

open Std (ExtTreeMap)
open SortedLog

namespace CeDrive

/-! ## Ids of both formats -/

/-- The id is of neither format, at any tick and counter. -/
structure Unminted (id : NodeId) : Prop where
  drive : ∀ l c, id ≠ (freshNodeId l c).1
  synced : ∀ ts c, id ≠ (SyncedDrive.freshNodeId ts c).1

theorem toList_hexPad (width n : ℕ) :
    (hexPad width n).toList = (Nat.toDigits 16 n).leftpad width '0' := by
  simp [hexPad]

theorem unminted_of_length {id : NodeId} (h : id.toList.length < 12) : Unminted id := by
  refine ⟨fun l c => (freshNodeId_ne (by omega) l c).symm, fun ts c => ?_⟩
  rintro rfl
  simp only [SyncedDrive.freshNodeId, String.toList_append, toList_hexPad, List.length_append,
    List.length_leftpad] at h
  omega

/-- An earlier tick makes a smaller id. -/
theorem freshNodeId_lt {l l' : ℕ} (hl' : l' < 16 ^ 12) (h : l < l') (c c' : ℕ) :
    (freshNodeId l c).1 < (freshNodeId l' c').1 := by
  rw [String.lt_iff_toList_lt, toList_freshNodeId, toList_freshNodeId]
  exact Digits.leftpad_toDigits_append_lt (by omega) le_rfl hl' h _ _

namespace SyncedDrive

theorem freshNodeId_lt {ts ts' : Timestamp} (hl' : ts'.lamport < 16 ^ 12)
    (h : ts.lamport < ts'.lamport) (c c' : ℕ) : (freshNodeId ts c).1 < (freshNodeId ts' c').1 := by
  simp only [freshNodeId, String.lt_iff_toList_lt, String.toList_append, List.append_assoc,
    toList_hexPad]
  exact Digits.leftpad_toDigits_append_lt (by omega) le_rfl hl' h _ _

/-! ## The synced drive with no peers -/

variable (F : Folding MoveOp.ts) (G : Folding StampedContentOp.ts)

/-- The fold of the merged content operations. -/
def readContent (s : SyncedDrive) : ContentMap :=
  (G.union s.content.ops).foldl (fun m o => m.apply o.op) ∅

/-- List a directory. -/
def ls (s : SyncedDrive) (path : String) : Except String (List DirEntry) × SyncedDrive :=
  let content := s.readContent G
  let (t, s) := s.withTree F
  match resolveDir t path with
  | .error e => (.error e, s)
  | .ok dir => (.ok ((t.readdir dir).map fun entry =>
      ⟨entry.1, entry.2.2 = .dir, content[entry.2.1]?, entry.2.1⟩), s)

/-- The id that the next creation mints. -/
def nextId (s : SyncedDrive) (ctr : ℕ) : NodeId :=
  (freshNodeId ⟨s.lamport + 1, s.replica⟩ ctr).1

/-- The drive after it stamped and proposed a move. -/
def moved (s : SyncedDrive) (child newParent : NodeId) (newName : String) (kind : NodeKind) :
    SyncedDrive :=
  { s with lamport := s.lamport + 1 }.proposeMove
    ⟨⟨s.lamport + 1, s.replica⟩, child, newParent, newName, kind⟩

/-- The drive after it stamped and proposed a content operation. -/
def wrote (s : SyncedDrive) (op : ContentOp) : SyncedDrive :=
  { s with lamport := s.lamport + 1, content := s.content.propose ⟨⟨s.lamport + 1, s.replica⟩, op⟩ }

end SyncedDrive

/-- A fold of ascending operations folds them as they stand. -/
theorem Folding.union_eq {α K : Type*} [LinearOrder K] {key : α → K} (F : Folding key)
    {ops : List α} (h : Ascending key ops) : F.union ops = ops := by
  refine (F.ascending ops).ext h fun x => ⟨F.sound ops x, fun hx => ?_⟩
  obtain ⟨y, hy, hk⟩ := F.covers ops x hx
  rwa [← h.key_injective (F.sound ops y hy) hx hk]

namespace Drive

/-- The nodes that were created. -/
def kids (d : Drive) : Set NodeId :=
  {n | ∃ op ∈ d.state.moveLog, op.child = n}

/-- The nodes that were created, and the ids that never are. -/
def knownIds (d : Drive) : Set NodeId :=
  {n | n ∈ d.kids ∨ Unminted n}

theorem knownIds_subset_moved (d : Drive) (c p : NodeId) (name : String) (kind : NodeKind) :
    d.knownIds ⊆ (d.moved c p name kind).knownIds := by
  rintro n (⟨op, hop, rfl⟩ | hu)
  · exact Or.inl ⟨op, List.mem_append_left _ hop, rfl⟩
  · exact Or.inr hu

theorem mem_knownIds_moved (d : Drive) (c p : NodeId) (name : String) (kind : NodeKind) :
    c ∈ (d.moved c p name kind).knownIds :=
  Or.inl ⟨_, List.mem_append_right _ (List.mem_singleton_self _), rfl⟩

/-- `n` was created at a tick that fits its field, as `ρ n` on the other side. -/
def Born (d : Drive) (ρ : NodeId → NodeId) (n : NodeId) : Prop :=
  ∃ l c c', (∃ op ∈ d.state.moveLog, op.ts = ⟨l, d.state.replica⟩ ∧ op.child = n) ∧
    n = (freshNodeId l c).1 ∧ ρ n = (SyncedDrive.freshNodeId ⟨l, d.state.replica⟩ c').1 ∧
    l < 16 ^ 12

end Drive

/-- `s` is `d` with its ids relabeled by `ρ`, and has no peers. -/
structure Mirrors (ρ : NodeId → NodeId) (d : Drive) (s : SyncedDrive) : Prop where
  inv : d.Inv
  ascending : Ascending MoveOp.ts d.state.moveLog
  replica : s.replica = d.state.replica
  lamport : s.lamport = d.state.lamport
  tree : s.tree = ⟨d.state.moveLog.map (MoveOp.relabel ρ), []⟩
  content : s.content = ⟨d.state.contentLog.map (StampedContentOp.relabel ρ), []⟩
  born : ∀ n ∈ d.kids, d.Born ρ n
  parent : ∀ op ∈ d.state.moveLog, op.newParent ∈ d.knownIds
  target : ∀ o ∈ d.state.contentLog, o.op.target ∈ d.knownIds
  fixed : ∀ n, Unminted n → ρ n = n

namespace Mirrors

variable {F : Folding MoveOp.ts} {G : Folding StampedContentOp.ts} {ρ : NodeId → NodeId} {d : Drive}
  {s : SyncedDrive} {n m : NodeId}

theorem init (name : String) (replica : ReplicaId) :
    Mirrors id (Drive.init name replica) ⟨replica, 0, ⟨[], []⟩, ⟨[], []⟩⟩ where
  inv := Drive.inv_init name replica
  ascending := List.Pairwise.nil
  replica := rfl
  lamport := rfl
  tree := rfl
  content := rfl
  born n hn := by
    obtain ⟨op, hop, -⟩ := hn
    cases hop
  parent op hop := by cases hop
  target o ho := by cases ho
  fixed _ _ := rfl

section

variable (h : Mirrors ρ d s)
include h

/-! ## The relabeling -/

theorem mono : StrictMonoOn ρ d.kids := by
  intro n hn m hm hnm
  obtain ⟨l, c, c', ⟨op, hop, hts, hchild⟩, hid, hid', hl⟩ := h.born n hn
  obtain ⟨l₁, c₁, c₁', ⟨op₁, hop₁, hts₁, hchild₁⟩, hid₁, hid₁', hl₁⟩ := h.born m hm
  rcases lt_trichotomy l l₁ with hlt | rfl | hgt
  · rw [hid', hid₁']
    exact SyncedDrive.freshNodeId_lt hl₁ hlt _ _
  · have hsame : op = op₁ := h.ascending.key_injective hop hop₁ (hts.trans hts₁.symm)
    rw [← hchild, ← hchild₁, hsame] at hnm
    exact absurd hnm (lt_irrefl _)
  · rw [hid, hid₁] at hnm
    exact absurd hnm (freshNodeId_lt hl hgt _ _).asymm

theorem not_unminted_relabel (hn : n ∈ d.kids) : ¬Unminted (ρ n) := by
  obtain ⟨l, c, c', -, -, hid', -⟩ := h.born n hn
  exact fun hu => hu.synced _ _ hid'

theorem injOn : Set.InjOn ρ d.knownIds := by
  rintro n (hn | hn) m (hm | hm) heq
  · exact h.mono.injOn hn hm heq
  · exact absurd (by rwa [heq, h.fixed m hm]) (h.not_unminted_relabel hn)
  · exact absurd (by rwa [← heq, h.fixed n hn]) (h.not_unminted_relabel hm)
  · rwa [h.fixed n hn, h.fixed m hm] at heq

theorem relabels : Relabels ρ d.kids d.knownIds where
  injOn := h.injOn
  mono := h.mono
  sub _ := Or.inl
  root :=
    have hu : Unminted ROOT := unminted_of_length (by decide)
    ⟨Or.inr hu, h.fixed _ hu⟩
  trash :=
    have hu : Unminted TRASH := unminted_of_length (by decide)
    ⟨Or.inr hu, h.fixed _ hu⟩

/-! ## What a mirror shows -/

theorem union_tree : F.union s.tree.ops = d.state.moveLog.map (MoveOp.relabel ρ) := by
  rw [h.tree, Merged.ops, List.append_nil]
  exact F.union_eq (List.pairwise_map.2 h.ascending)

theorem union_content : G.union s.content.ops = d.state.contentLog.map (StampedContentOp.relabel ρ) := by
  rw [h.content, Merged.ops, List.append_nil]
  exact G.union_eq (ascending_map_relabel h.inv.ascending)

/-- The tree that is read is the tree of the drive, relabeled. -/
theorem relabeled : DriveTree.Relabeled ρ d.kids d.knownIds d.tree (s.readTree F) := by
  have hlog : d.tree.logOps = d.state.moveLog := by
    rw [h.inv.tree, DriveTree.logOps_applyAll]
    exact deliverAll_eq_of_mem_iff h.ascending fun _ => Iff.rfl
  refine ⟨h.relabels, h.inv.replayed, DriveTree.replayed_applyAll _, ?_, ?_⟩
  · rw [hlog]
    exact fun op hop => ⟨⟨op, hop, rfl⟩, h.parent op hop⟩
  · rw [hlog, SyncedDrive.readTree, DriveTree.logOps_applyAll, h.union_tree]
    exact deliverAll_eq_of_mem_iff (List.pairwise_map.2 h.ascending) fun _ => Iff.rfl

theorem content_eq (hn : n ∈ d.knownIds) : (s.readContent G)[ρ n]? = d.content[n]? := by
  have hasc : Ascending StampedContentOp.ts (d.state.contentLog.map (StampedContentOp.relabel ρ)) :=
    ascending_map_relabel h.inv.ascending
  have hread : s.readContent G = foldContent (d.state.contentLog.map (StampedContentOp.relabel ρ)) := by
    rw [foldContent_of_ascending hasc, List.foldl_map, SyncedDrive.readContent, h.union_content]
  rw [hread, getElem?_foldContent hasc, h.inv.getElem?_content, foldRecord_relabel h.injOn h.target hn]

/-- Reading the tree leaves the clock, which is past all moves. -/
theorem withTree_eq : s.withTree F = (s.readTree F, s) := by
  have hobs : s.observed F = s.lamport := by
    rw [SyncedDrive.observed, SyncedDrive.withTree]
    cases hts : (s.readTree F).logMaxTs with
    | none => rfl
    | some ts =>
      refine max_eq_left ?_
      obtain ⟨e, he, rfl⟩ := Option.map_eq_some_iff.1 hts
      have hop : e.op ∈ (s.readTree F).logOps := List.mem_map_of_mem (List.mem_of_getLast? he)
      rw [SyncedDrive.readTree, DriveTree.logOps_applyAll] at hop
      have hop := mem_of_mem_deliverAll hop
      rw [h.union_tree] at hop
      obtain ⟨op, hmem, heq⟩ := List.mem_map.1 hop
      rw [h.lamport, ← heq]
      exact h.inv.move_le op hmem
  rw [SyncedDrive.withTree_eq, hobs]

theorem eq_root_iff (hn : n ∈ d.knownIds) : ρ n = ROOT ↔ n = ROOT := by
  conv_lhs => rw [← h.relabels.root.2]
  exact h.injOn.eq_iff hn h.relabels.root.1

theorem resolveDir_eq (path : String) :
    SyncedDrive.resolveDir (s.readTree F) path = (d.resolveDir path).map ρ := by
  have hrel := h.relabeled (F := F)
  rw [SyncedDrive.resolveDir, Drive.resolveDir, hrel.resolve]
  cases hn : d.tree.resolve path with
  | none => rfl
  | some n =>
    have hids := hrel.ids_of_resolve hn
    have hkind : ((s.readTree F).edge (ρ n)).map Edge.kind = (d.tree.edge n).map Edge.kind := by
      rw [DriveTree.edge, DriveTree.edge, hrel.getElem?_edges hids, Option.map_map]
      rfl
    simp only [Option.map_some, hkind, ne_eq, h.eq_root_iff hids]
    split_ifs <;> rfl

theorem ids_of_resolveDir {path : String} (hn : d.resolveDir path = .ok n) : n ∈ d.knownIds :=
  (h.relabeled (F := Folding.first _)).ids_of_resolve (Drive.resolveDir_eq_ok hn).1

theorem kids_of_resolveNode {path action : String} (hn : d.resolveNode path action = .ok n) :
    n ∈ d.kids :=
  have ⟨hres, hroot⟩ := Drive.resolveNode_eq_ok hn
  (h.relabeled (F := Folding.first _)).kids_of_resolve hres hroot

theorem rmRead_eq (path : String) :
    SyncedDrive.rmRead (s.readTree F) path = (d.resolveNode path "delete").map ρ := by
  have hrel := h.relabeled (F := F)
  rw [SyncedDrive.rmRead, Drive.resolveNode, hrel.resolve]
  cases hn : d.tree.resolve path with
  | none => rfl
  | some n =>
    simp only [Option.map_some, h.eq_root_iff (hrel.ids_of_resolve hn)]
    split_ifs <;> rfl

theorem mvRead_eq (src dstParent : String) : SyncedDrive.mvRead (s.readTree F) src dstParent =
    (d.resolveNode src "move").bind fun n => (d.resolveDir dstParent).map fun p => (ρ n, ρ p) := by
  have hrel := h.relabeled (F := F)
  rw [SyncedDrive.mvRead, Drive.resolveNode, hrel.resolve, h.resolveDir_eq]
  cases hn : d.tree.resolve src with
  | none => rfl
  | some n =>
    simp only [Option.map_some, h.eq_root_iff (hrel.ids_of_resolve hn)]
    split_ifs with hroot
    · rfl
    · cases d.resolveDir dstParent <;> rfl

theorem childNamed_eq {parent : NodeId} (hp : parent ∈ d.knownIds) (name : String) :
    SyncedDrive.childNamed (s.readTree F) (ρ parent) name = (d.childNamed parent name).map ρ := by
  have hrel := h.relabeled (F := F)
  have hfind : ∀ l : List (String × NodeId), (∀ kid ∈ l, kid.2 ∈ d.knownIds) →
      ((l.map (Prod.map id ρ)).find? fun kid => kid.1 = name && !(s.readTree F).isTrashed kid.2) =
        (l.find? fun kid => kid.1 = name && !d.tree.isTrashed kid.2).map (Prod.map id ρ) := by
    intro l hl
    induction l with
    | nil => rfl
    | cons kid l ih =>
      rw [List.map_cons, List.find?_cons, List.find?_cons,
        ih fun k hk => hl k (List.mem_cons_of_mem _ hk), Prod.map_fst, Prod.map_snd,
        hrel.isTrashed (hl kid List.mem_cons_self), id_eq]
      split <;> rfl
  rw [SyncedDrive.childNamed, Drive.childNamed, hrel.rawChildren hp, hfind _ fun kid hkid => ?_,
    Option.map_map, Option.map_map]
  · rfl
  · exact Or.inl (hrel.kids_of_mem_rawChildren (hkid : (kid.1, kid.2) ∈ _))

/-- Both list the same, but for the ids. -/
theorem ls_eq (path : String) : (s.ls F G path).1 =
    (d.ls path).map fun es => es.map fun e => { e with nodeId := ρ e.nodeId } := by
  have hrel := h.relabeled (F := F)
  rw [SyncedDrive.ls, Drive.ls, h.withTree_eq]
  dsimp only
  rw [h.resolveDir_eq]
  cases hdir : d.resolveDir path with
  | error e => rfl
  | ok dir =>
    have hids := hrel.ids_of_resolve (Drive.resolveDir_eq_ok hdir).1
    simp only [Except.map, hrel.readdir hids, List.map_map]
    refine congrArg _ (List.map_congr_left fun entry hentry => ?_)
    obtain ⟨name, hraw, -⟩ := DriveTree.mem_readdir_iff.1 ⟨entry.1, entry.2.2, hentry⟩
    have hkid : entry.2.1 ∈ d.knownIds := Or.inl (hrel.kids_of_mem_rawChildren hraw)
    simp only [Function.comp_apply, DriveTree.Listed.relabel, h.content_eq hkid]
    rfl

/-! ## What both append -/

/-- A node that is created gets an id that is not known. -/
theorem nextId_not_mem (hfit : d.state.lamport + 1 < 16 ^ 12) (ctr : ℕ) :
    d.nextId ctr ∉ d.knownIds := by
  rintro (hn | hu)
  · obtain ⟨l, c, c', ⟨op, hop, hts, -⟩, hid, -, hl⟩ := h.born _ hn
    have hle := h.inv.move_le op hop
    have htick := tick_injective hfit hl hid
    rw [hts] at hle
    dsimp only at hle
    omega
  · exact hu.drive _ _ rfl

/-- Both append one move, of a node that is or now becomes known. -/
theorem append_move {ρ' : NodeId → NodeId} {p : NodeId} {name : String} {kind : NodeKind}
    (hagree : ∀ x ∈ d.knownIds, ρ' x = ρ x) (hborn : (d.moved n p name kind).Born ρ' n)
    (hp : p ∈ d.knownIds) : Mirrors ρ' (d.moved n p name kind) (s.moved (ρ' n) (ρ p) name kind) := by
  have hkids : ∀ m ∈ (d.moved n p name kind).kids, m ∈ d.kids ∨ m = n := by
    rintro m ⟨op, hop, rfl⟩
    rcases List.mem_append.1 hop with hop | hop
    · exact Or.inl ⟨op, hop, rfl⟩
    · exact Or.inr (congrArg MoveOp.child (List.mem_singleton.1 hop))
  have hknown := d.knownIds_subset_moved n p name kind
  have hmoves : d.state.moveLog.map (MoveOp.relabel ρ') = d.state.moveLog.map (MoveOp.relabel ρ) := by
    refine List.map_congr_left fun op hop => ?_
    rw [MoveOp.relabel, MoveOp.relabel, hagree _ (Or.inl ⟨op, hop, rfl⟩), hagree _ (h.parent op hop)]
  have hcontent : d.state.contentLog.map (StampedContentOp.relabel ρ') =
      d.state.contentLog.map (StampedContentOp.relabel ρ) := by
    refine List.map_congr_left fun o ho => ?_
    rw [StampedContentOp.relabel, StampedContentOp.relabel,
      ContentOp.relabel_congr (hagree _ (h.target o ho))]
  refine ⟨h.inv.moved .., ?_, h.replica, congrArg Nat.succ h.lamport, ?_, ?_, fun m hm => ?_, ?_,
    fun o ho => hknown (h.target o ho), fun m hm => (hagree m (Or.inr hm)).trans (h.fixed m hm)⟩
  · exact h.ascending.append_singleton fun op hop =>
      Timestamp.lt_of_lamport_lt (Nat.lt_succ_of_le (h.inv.move_le op hop))
  · simp only [SyncedDrive.moved, SyncedDrive.proposeMove, Merged.propose, h.tree, Drive.moved,
      Drive.pushMove, List.map_append, hmoves, List.map_singleton, MoveOp.relabel, hagree p hp,
      Drive.nextTs, h.lamport, h.replica]
  · exact h.content.trans (congrArg (Merged.mk · []) hcontent.symm)
  · rcases hkids m hm with hm | rfl
    · obtain ⟨l, c, c', ⟨op, hop, hts, hchild⟩, hid, hid', hl⟩ := h.born m hm
      exact ⟨l, c, c', ⟨op, List.mem_append_left _ hop, hts, hchild⟩, hid,
        (hagree m (Or.inl hm)).trans hid', hl⟩
    · exact hborn
  · exact Drive.forall_mem_append_singleton.2 ⟨fun op hop => hknown (h.parent op hop), hknown hp⟩

theorem moved (hn : n ∈ d.kids) {p : NodeId} (hp : p ∈ d.knownIds) (name : String) (kind : NodeKind) :
    Mirrors ρ (d.moved n p name kind) (s.moved (ρ n) (ρ p) name kind) := by
  obtain ⟨l, c, c', ⟨op, hop, hts, hchild⟩, hid, hid', hl⟩ := h.born n hn
  exact h.append_move (fun _ _ => rfl)
    ⟨l, c, c', ⟨op, List.mem_append_left _ hop, hts, hchild⟩, hid, hid', hl⟩ hp

/-- Both create a node, with the next id of each. -/
theorem created (hfit : d.state.lamport + 1 < 16 ^ 12) {p : NodeId} (hp : p ∈ d.knownIds)
    (ctr ctr' : ℕ) (name : String) (kind : NodeKind) : ∃ ρ',
      Mirrors ρ' (d.moved (d.nextId ctr) p name kind) (s.moved (s.nextId ctr') (ρ p) name kind) ∧
      ρ' (d.nextId ctr) = s.nextId ctr' ∧ ∀ x ∈ d.knownIds, ρ' x = ρ x := by
  have hself : Function.update ρ (d.nextId ctr) (s.nextId ctr') (d.nextId ctr) = s.nextId ctr' :=
    Function.update_self ..
  have hagree : ∀ x ∈ d.knownIds, Function.update ρ (d.nextId ctr) (s.nextId ctr') x = ρ x := by
    intro x hx
    refine Function.update_of_ne ?_ _ _
    rintro rfl
    exact h.nextId_not_mem hfit ctr hx
  refine ⟨_, ?_, hself, hagree⟩
  have hborn : (d.moved (d.nextId ctr) p name kind).Born
      (Function.update ρ (d.nextId ctr) (s.nextId ctr')) (d.nextId ctr) := by
    refine ⟨d.state.lamport + 1, ctr, ctr',
      ⟨_, List.mem_append_right _ (List.mem_singleton_self _), rfl, rfl⟩, rfl, ?_, hfit⟩
    rw [hself, SyncedDrive.nextId, h.lamport, h.replica]
    rfl
  have happend := h.append_move hagree hborn hp
  rwa [hself] at happend

theorem wrote (op : ContentOp) (hop : op.target ∈ d.knownIds) :
    Mirrors ρ (d.wrote op) (s.wrote (op.relabel ρ)) := by
  refine ⟨h.inv.wrote op, h.ascending, h.replica, congrArg Nat.succ h.lamport, h.tree, ?_, h.born,
    h.parent, Drive.forall_mem_append_singleton.2 ⟨h.target, hop⟩, h.fixed⟩
  simp only [SyncedDrive.wrote, Merged.propose, h.content, Drive.wrote, List.map_append,
    List.map_singleton, StampedContentOp.relabel, Drive.nextTs, h.lamport, h.replica]

end

end Mirrors

end CeDrive
