import CeDrive.Interning

/-!
# Inodes after a remount

`crates/ce-drive-mount/src/vfs.rs` numbers the nodes as it meets them : the root has the inode
1, the others follow in the order of first sight (`numbered_readOps`). Two engines over one drive
agree on the inodes of a node exactly if both met it at the same place of that order
(`remount_iff`).
-/

open Std (ExtTreeMap)

namespace CeDrive

namespace Vfs

variable {v : Vfs} {d : Drive} {nodes : List NodeId} {node : NodeId}

/-- The nodes of the table are `nodes`, numbered in the order of their first occurrence. -/
structure Numbered (v : Vfs) (nodes : List NodeId) : Prop where
  inoOf : ∀ n : NodeId, v.inoOf[n]? =
    if n ∈ nodes then some (nodes.eraseDups.idxOf n + 1) else none
  nextIno : v.nextIno = nodes.eraseDups.length + 1

theorem HasTable.numbered (h : v.HasTable (.ofKeys nodes)) : v.Numbered nodes where
  inoOf n := h.inoOf ▸ (Interner.numOf_ofKeys nodes).1 n
  nextIno := h.nextIno.trans (Interner.numOf_ofKeys nodes).2

/-! ## Reading -/

/-- The read-only operations. -/
inductive ReadOp
  | lookup (parent : Ino) (name : String)
  | lookupPath (path : String)
  | readdir (ino : Ino)
  | readdirplus (ino : Ino)
  | getattr (ino : Ino)

/-- The engine after a read-only operation, whatever it returns. -/
def readOp (v : Vfs) : ReadOp → Vfs
  | .lookup parent name => (v.lookup parent name).2
  | .lookupPath path => (v.lookupPath path).2
  | .readdir ino => (v.readdir ino).2
  | .readdirplus ino => (v.readdirplus ino).2
  | .getattr _ => v

def readOps (v : Vfs) (ops : List ReadOp) : Vfs :=
  ops.foldl readOp v

/-- The nodes that a read-only operation meets, in order. -/
def sights (v : Vfs) : ReadOp → List NodeId
  | .lookup parent name => ((v.nodeOf[parent]?).bind fun p => v.drive.tree.lookupChild p name).toList
  | .lookupPath path => if path = "/" ∨ path = "" then [] else (v.drive.tree.resolve path).toList
  | .readdir ino | .readdirplus ino =>
    ((v.nodeOf[ino]?).map fun p => (v.drive.tree.readdir p).map fun e => e.2.1).getD []
  | .getattr _ => []

/-- The nodes that a sequence of read-only operations meets, in order. -/
def allSights (v : Vfs) : List ReadOp → List NodeId
  | [] => []
  | op :: ops => v.sights op ++ (v.readOp op).allSights ops

/-- The nodes in the order in which they were first met, the root first. -/
def firstSights (v : Vfs) (ops : List ReadOp) : List NodeId :=
  (ROOT :: v.allSights ops).eraseDups

/-- A listing has attributes for all its entries. -/
theorem Inv.attrAll_snd (h : v.Inv) {entries : List DriveTree.Listed}
    (hedge : ∀ e ∈ entries, v.drive.tree.edge e.2.1 ≠ none) :
    (v.attrAll entries).2 = v.internNodes (entries.map fun e => e.2.1) := by
  induction entries generalizing v with
  | nil => rfl
  | cons e entries ih =>
    obtain ⟨he, hrest⟩ := List.forall_mem_cons.1 hedge
    have hok := h.isOk_internAttr.2 (Or.inr he)
    have hmore := ih (h.intern e.2.1) (by simpa using hrest)
    unfold Vfs.attrAll
    cases hattr : v.internAttr e.2.1 with
    | mk attr v₁ =>
      rw [hattr] at hok
      obtain rfl : (v.intern e.2.1).2 = v₁ := congrArg Prod.snd hattr
      cases attr with
      | error err => cases hok
      | ok attr =>
        dsimp only
        cases hall : (v.intern e.2.1).2.attrAll entries with
        | mk res v₂ =>
          rw [hall] at hmore
          cases res <;> exact hmore

theorem Inv.edge_of_mem_readdir (h : v.Inv) {e : DriveTree.Listed}
    (he : e ∈ v.drive.tree.readdir node) : v.drive.tree.edge e.2.1 ≠ none := by
  obtain ⟨name, hraw, -⟩ := DriveTree.mem_readdir_iff.1 ⟨e.1, e.2.2, he⟩
  obtain ⟨edge, hedge, -⟩ := h.drive.replayed.mirror.mem_rawChildren.1 hraw
  rw [DriveTree.edge, hedge]
  simp

/-- A read-only operation gives inodes to the nodes it meets. -/
theorem Inv.readOp_eq (h : v.Inv) (op : ReadOp) : v.readOp op = v.internNodes (v.sights op) := by
  cases op with
  | lookup parent name =>
    simp only [readOp, Vfs.lookup, sights, nodeAt]
    cases v.nodeOf[parent]? with
    | none => rfl
    | some p => cases hc : v.drive.tree.lookupChild p name <;> simp [hc, Vfs.internAttr]
  | lookupPath path =>
    simp only [readOp, Vfs.lookupPath, sights]
    split_ifs
    · rfl
    · cases v.drive.tree.resolve path <;> rfl
  | readdir ino =>
    simp only [readOp, Vfs.readdir, sights, nodeAt]
    cases v.nodeOf[ino]? with
    | none => rfl
    | some p => exact internAll_snd v _
  | readdirplus ino =>
    simp only [readOp, Vfs.readdirplus, sights, nodeAt]
    cases v.nodeOf[ino]? with
    | none => rfl
    | some p => exact h.attrAll_snd fun e he => h.edge_of_mem_readdir he
  | getattr ino => rfl

theorem Inv.readOps_eq (h : v.Inv) (ops : List ReadOp) :
    v.readOps ops = v.internNodes (v.allSights ops) := by
  induction ops generalizing v with
  | nil => rfl
  | cons op ops ih =>
    have hop := h.readOp_eq op
    have hinv : (v.readOp op).Inv := hop ▸ h.internNodes _
    have happend : ∀ l l' : List NodeId, v.internNodes (l ++ l') = (v.internNodes l).internNodes l' :=
      fun l l' => List.foldl_append
    rw [readOps, List.foldl_cons]
    refine (ih hinv).trans ?_
    rw [allSights, happend, ← hop]

/-- The inodes after reading are the places in the order of first sight. -/
theorem numbered_readOps (h : d.Inv) (maxFileSize : ℕ) (ops : List ReadOp) :
    ((new d maxFileSize).readOps ops).Numbered (ROOT :: (new d maxFileSize).allSights ops) := by
  have htable := (hasTable_new d maxFileSize).internNodes ((new d maxFileSize).allSights ops)
  rw [Interner.internAll_ofKeys, ← (Inv.new h maxFileSize).readOps_eq] at htable
  exact htable.numbered

theorem Numbered.inoOf_eq_some (h : v.Numbered nodes) {ino : Ino} : v.inoOf[node]? = some ino ↔
    node ∈ nodes ∧ nodes.eraseDups.idxOf node + 1 = ino := by
  rw [h.inoOf]
  split_ifs with hmem <;> simp [hmem]

/-- Inodes after a remount. Two engines over one drive, after any read-only operations, agree on
the inodes of the nodes that have one in both, if and only if each of these nodes has the same
place among the nodes in the order in which they were first met. -/
theorem remount_iff (h : d.Reachable) (maxFileSize maxFileSize' : ℕ) (ops ops' : List ReadOp) :
    (∀ (node : NodeId) (ino ino' : Ino),
        ((new d maxFileSize).readOps ops).inoOf[node]? = some ino →
        ((new d maxFileSize').readOps ops').inoOf[node]? = some ino' → ino = ino') ↔
      ∀ node ∈ (new d maxFileSize).firstSights ops, node ∈ (new d maxFileSize').firstSights ops' →
        ((new d maxFileSize).firstSights ops).idxOf node =
          ((new d maxFileSize').firstSights ops').idxOf node := by
  have hnum := numbered_readOps h.inv maxFileSize ops
  have hnum' := numbered_readOps h.inv maxFileSize' ops'
  simp only [firstSights, List.mem_eraseDups]
  constructor
  · intro hsame node hmem hmem'
    have heq := hsame node _ _ (hnum.inoOf_eq_some.2 ⟨hmem, rfl⟩) (hnum'.inoOf_eq_some.2 ⟨hmem', rfl⟩)
    exact Nat.succ_injective heq
  · intro hsame node ino ino' hino hino'
    obtain ⟨hmem, rfl⟩ := hnum.inoOf_eq_some.1 hino
    obtain ⟨hmem', rfl⟩ := hnum'.inoOf_eq_some.1 hino'
    rw [hsame node hmem hmem']

/-- A drive with two directories in the root. -/
def twoDirs : Drive :=
  ((Drive.init "d" "r").performAll [.exec 0 (.mkdir "/" "a"), .exec 1 (.mkdir "/" "b")]).get
    (by decide +kernel)

theorem reachable_twoDirs : twoDirs.Reachable :=
  ⟨"d", "r", _, (Option.some_get _).symm⟩

/-- One engine lists the root, the other first looks up the directory listed first. -/
theorem remount_iff_listed :
    let v := (new twoDirs 0).readOps [.readdir ROOT_INO]
    let v' := (new twoDirs 0).readOps [.lookup ROOT_INO "a", .readdirplus ROOT_INO]
    ∃ ino, v.inoOf["00000000000200000001"]? = some ino ∧
      v'.inoOf["00000000000200000001"]? = some ino := by
  intro v v'
  have hino : v.inoOf["00000000000200000001"]? = some 3 := by decide +kernel
  have hino' : v'.inoOf["00000000000200000001"]? ≠ none := by decide +kernel
  obtain ⟨ino, hino'⟩ := Option.ne_none_iff_exists'.1 hino'
  have heq := (remount_iff reachable_twoDirs 0 0 [.readdir ROOT_INO]
    [.lookup ROOT_INO "a", .readdirplus ROOT_INO]).2 (by decide +kernel) _ _ _ hino hino'
  exact ⟨3, hino, heq ▸ hino'⟩

/-- One engine looks up `a`, the other `b` before it. -/
theorem remount_renumbers :
    let v := (new twoDirs 0).readOps [.lookup ROOT_INO "a"]
    let v' := (new twoDirs 0).readOps [.lookup ROOT_INO "b", .lookup ROOT_INO "a"]
    twoDirs.Reachable ∧ v.inoOf["00000000000100000000"]? = some 2 ∧
      v'.inoOf["00000000000100000000"]? = some 3 := by
  intro v v'
  exact ⟨reachable_twoDirs, by decide +kernel, by decide +kernel⟩

end Vfs

end CeDrive
