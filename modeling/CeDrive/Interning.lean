import CeDrive.Listing
import CeDrive.Vfs

/-!
# Inodes by first sight

Every call of the mount that reads the tree gives inodes to the nodes it meets, and changes
nothing else (`Inv.undisturbed_internNodes`). The nodes of a table are numbered in the order
in which they were first met, the root first (`Numbered`). A listing that is read again is the
same, and leaves the engine as it is (`Inv.readdir_again`, `Inv.readdirplus_again`).
-/

open Std (ExtTreeMap)

namespace CeDrive

namespace Vfs

variable {v v' v'' : Vfs} {ino : Ino} {node : NodeId} {nodes : List NodeId}

/-- The same drive and open files, and all inodes that there were. -/
structure Undisturbed (v v' : Vfs) : Prop where
  drive : v'.drive = v.drive
  openFiles : v'.openFiles = v.openFiles
  inoOf : ∀ (node : NodeId) (ino : Ino), v.inoOf[node]? = some ino → v'.inoOf[node]? = some ino
  nodeOf : ∀ (ino : Ino) (node : NodeId), v.nodeOf[ino]? = some node → v'.nodeOf[ino]? = some node

theorem Undisturbed.refl (v : Vfs) : v.Undisturbed v :=
  ⟨rfl, rfl, fun _ _ h => h, fun _ _ h => h⟩

theorem Undisturbed.trans (h : v.Undisturbed v') (h' : v'.Undisturbed v'') : v.Undisturbed v'' :=
  ⟨h'.drive.trans h.drive, h'.openFiles.trans h.openFiles,
    fun n i hi => h'.inoOf n i (h.inoOf n i hi), fun i n hn => h'.nodeOf i n (h.nodeOf i n hn)⟩

/-! ## Interning -/

theorem intern_of_some (h : v.inoOf[node]? = some ino) : v.intern node = (ino, v) := by
  unfold intern
  rw [h]

theorem Inv.undisturbed_intern (h : v.Inv) (node : NodeId) : v.Undisturbed (v.intern node).2 := by
  obtain ⟨t, ht⟩ := h.exists_table
  have ht' := (ht.intern node).2
  have hle := t.le_intern node
  refine ⟨drive_intern v node, openFiles_intern v node, fun n ino hn => ?_, fun ino n hn => ?_⟩
  · rw [ht'.inoOf]
    exact Interner.numOf_of_le hle (ht.inoOf ▸ hn)
  · rw [ht'.nodeOf]
    exact Interner.keyOf_of_le hle (ht.nodeOf ▸ hn)

theorem HasTable.internNodes {t : Interner NodeId} (h : v.HasTable t) (nodes : List NodeId) :
    (v.internNodes nodes).HasTable (t.internAll nodes) := by
  induction nodes generalizing v t with
  | nil => exact h
  | cons node nodes ih => exact ih (h.intern node).2

theorem Inv.internNodes (h : v.Inv) (nodes : List NodeId) : (v.internNodes nodes).Inv := by
  induction nodes generalizing v with
  | nil => exact h
  | cons node nodes ih => exact ih (h.intern node)

theorem Inv.undisturbed_internNodes (h : v.Inv) (nodes : List NodeId) :
    v.Undisturbed (v.internNodes nodes) := by
  induction nodes generalizing v with
  | nil => exact .refl v
  | cons node nodes ih => exact (h.undisturbed_intern node).trans (ih (h.intern node))

/-! ## Attributes -/

/-- Only the root has attributes without an edge. -/
theorem Inv.isOk_internAttr (h : v.Inv) :
    (v.internAttr node).1.isOk = true ↔ node = ROOT ∨ v.drive.tree.edge node ≠ none := by
  have hi := h.intern node
  have hino := inoOf_intern_self v node
  have hnode := (hi.table node _).1 hino
  by_cases hroot : node = ROOT
  · have hone : (v.intern node).1 = ROOT_INO :=
      Option.some_injective _ (hino.symm.trans ((hi.table node _).2 (hroot ▸ hi.root)))
    rw [Vfs.internAttr, attrOf, if_pos hone]
    exact iff_of_true rfl (Or.inl hroot)
  · have hne : (v.intern node).1 ≠ ROOT_INO := fun heq =>
      hroot (Option.some_injective _ ((heq ▸ hnode).symm.trans hi.root))
    simp only [Vfs.internAttr, attrOf, if_neg hne, nodeAt, hnode, drive_intern, bind, Except.bind]
    cases v.drive.tree.edge node with
    | none => simp [throw, throwThe, MonadExceptOf.throw, Except.isOk, Except.toBool, hroot]
    | some edge =>
      dsimp only
      split <;> simp [pure, Except.pure, Except.isOk, Except.toBool]

/-! ## Listings -/

theorem Undisturbed.nodeAt (h : v.Undisturbed v') {what : String}
    (hn : v.nodeAt ino what = .ok node) : v'.nodeAt ino what = .ok node := by
  rw [Vfs.nodeAt, h.nodeOf ino node (nodeAt_eq_ok hn)]

theorem Undisturbed.attrOf (h : v.Undisturbed v') {attr : Attr} (ha : v.attrOf ino = .ok attr) :
    v'.attrOf ino = .ok attr := by
  unfold Vfs.attrOf at ha ⊢
  split_ifs at ha ⊢ with hroot
  · exact ha
  · cases hn : v.nodeAt ino "inode" with
    | error e => simp [hn, bind, Except.bind] at ha
    | ok node =>
      rw [hn] at ha
      rw [h.nodeAt hn, h.drive]
      exact ha

/-- A node that has its inode is not met for the first time. -/
theorem Undisturbed.intern_again (hv : (v.intern node).2.Undisturbed v') :
    v'.intern node = ((v.intern node).1, v') :=
  intern_of_some (hv.inoOf _ _ (inoOf_intern_self v node))

theorem Inv.internAll_again (h : v.Inv) {entries : List DriveTree.Listed}
    (hv : (v.internAll entries).2.Undisturbed v') :
    v'.internAll entries = ((v.internAll entries).1, v') := by
  induction entries generalizing v with
  | nil => rfl
  | cons e entries ih =>
    have hi := h.intern e.2.1
    have hrest : (v.intern e.2.1).2.Undisturbed ((v.intern e.2.1).2.internAll entries).2 := by
      rw [internAll_snd]
      exact hi.undisturbed_internNodes _
    have hnode := (hrest.trans hv).intern_again
    simp only [Vfs.internAll, hnode, ih hi hv]

theorem Inv.attrAll_again (h : v.Inv) {entries : List DriveTree.Listed} {out : List DirEntryPlus}
    (ha : v.attrAll entries = (.ok out, v')) (hv : v'.Undisturbed v'') :
    v.Undisturbed v' ∧ v''.attrAll entries = (.ok out, v'') := by
  induction entries generalizing v out with
  | nil =>
    obtain ⟨hout, rfl⟩ := Prod.mk.inj ha
    obtain rfl := Except.ok.inj hout
    exact ⟨.refl v, rfl⟩
  | cons e entries ih =>
    have hi := h.intern e.2.1
    unfold Vfs.attrAll at ha
    cases hattr : (v.intern e.2.1).2.attrOf (v.intern e.2.1).1 with
    | error err => simp [Vfs.internAttr, hattr] at ha
    | ok attr =>
      simp only [Vfs.internAttr, hattr] at ha
      cases hrest : (v.intern e.2.1).2.attrAll entries with
      | mk res v₁ =>
        cases res with
        | error err => simp [hrest] at ha
        | ok rest =>
          simp only [hrest, Prod.mk.injEq, Except.ok.injEq] at ha
          obtain ⟨rfl, rfl⟩ := ha
          obtain ⟨hmore, hagain⟩ := ih hi hrest
          have hnode := (hmore.trans hv).intern_again
          have hsame := (hmore.trans hv).attrOf hattr
          refine ⟨(h.undisturbed_intern _).trans hmore, ?_⟩
          simp only [Vfs.attrAll, Vfs.internAttr, hnode, hsame, hagain]

/-- A directory that is read again has the same entries, and all of them have their inodes. -/
theorem Inv.readdir_again (h : v.Inv) {out : List (String × Ino × Bool)}
    (hr : v.readdir ino = (.ok out, v')) : v.Undisturbed v' ∧ v'.readdir ino = (.ok out, v') := by
  unfold Vfs.readdir at hr
  cases hn : v.nodeAt ino "inode" with
  | error e => simp [hn] at hr
  | ok node =>
    simp only [hn, Prod.mk.injEq, Except.ok.injEq] at hr
    obtain ⟨rfl, rfl⟩ := hr
    have hv : v.Undisturbed (v.internAll (v.drive.tree.readdir node)).2 := by
      rw [internAll_snd]
      exact h.undisturbed_internNodes _
    refine ⟨hv, ?_⟩
    simp only [Vfs.readdir, hv.nodeAt hn, hv.drive, h.internAll_again (.refl _)]

theorem Inv.readdirplus_again (h : v.Inv) {out : List DirEntryPlus}
    (hr : v.readdirplus ino = (.ok out, v')) :
    v.Undisturbed v' ∧ v'.readdirplus ino = (.ok out, v') := by
  unfold Vfs.readdirplus at hr
  cases hn : v.nodeAt ino "inode" with
  | error e => simp [hn] at hr
  | ok node =>
    simp only [hn] at hr
    obtain ⟨hv, hagain⟩ := h.attrAll_again hr (.refl _)
    refine ⟨hv, ?_⟩
    simp only [Vfs.readdirplus, hv.nodeAt hn, hv.drive, hagain]

end Vfs

end CeDrive
