import CeDrive.Vfs

/-!
# The inode table

`crates/ce-drive-mount/src/vfs.rs` interns the nodes that its calls meet, and changes the maps
of inodes nowhere else, also when another drive takes the place of its own. So whatever the
calls and the drives, the table is an interner that only grows (`Run.extends`), and a node
keeps the inode it was given first (`inodes_stable`).
-/

open Std (ExtTreeMap)

namespace CeDrive

namespace Vfs

/-- Runs of one engine, with any drives. A call that panics releases the lock with the inodes
as they were, whatever it has done to the drive and the files. -/
inductive Run : Vfs → Vfs → Prop
  | refl (v : Vfs) : Run v v
  | call {v v' v'' : Vfs} (h : Run v v') (e : Event) (he : v'.perform e = some v'') : Run v v''
  | panic {v v' : Vfs} (h : Run v v') (e : Event) (he : v'.perform e = none) (drive : Drive)
      (openFiles : ExtTreeMap ℕ OpenFile) :
      Run v { v' with drive := drive, openFiles := openFiles }

variable {d : Drive} {maxFileSize : ℕ} {v v' : Vfs} {t : Interner NodeId}

theorem Extends.perform (h : v.Extends t) {e : Event} (he : v.perform e = some v') :
    v'.Extends t := by
  obtain ha | ⟨state, -, rfl⟩ := perform_cases he
  · exact ha.table t h
  · exact h.of_table rfl rfl rfl

/-- The table of a run is an extension of the one it started with. -/
theorem Run.extends (h : Run v v') (ht : v.HasTable t) : v'.Extends t := by
  induction h with
  | refl => exact ⟨t, le_rfl, ht⟩
  | call _ e he ih => exact ih.perform he
  | panic _ e _ drive openFiles ih => exact ih.of_table rfl rfl rfl

theorem Run.of_calls {es : List Event} (h : es.foldlM perform v = some v') : Run v v' :=
  Runs.invariant (Run v) (.refl v) h fun e _ _ _ hrun he => hrun.call e he

/-- The counter is ahead of the entries of the table by one, so it does not overflow before
memory is full. -/
theorem Run.nextIno_eq (h : Run (new d maxFileSize) v) : v.nextIno = v.nodeOf.size + 1 := by
  obtain ⟨t, ⟨ks, rfl⟩, ht⟩ := h.extends (hasTable_new d maxFileSize)
  rw [ht.nextIno, ht.nodeOf, Interner.internAll_ofKeys]
  exact Interner.next_ofKeys _

/-- The inode table is a stable bijection. In every state of a run its two maps are inverse to
each other, the root has the inode 1, and all inodes are below the next one; in every later
state a node has the inode it had, and no other node has it. -/
theorem inodes_stable (h : Run (new d maxFileSize) v) (h' : Run v v') :
    (∀ (node : NodeId) (ino : Ino), v.inoOf[node]? = some ino ↔ v.nodeOf[ino]? = some node) ∧
      (v.inoOf[ROOT]? = some ROOT_INO ∧ v.nodeOf[ROOT_INO]? = some ROOT) ∧
      (∀ (node : NodeId) (ino : Ino), v.inoOf[node]? = some ino → ino < v.nextIno) ∧
      ∀ (node : NodeId) (ino : Ino), v.inoOf[node]? = some ino →
        v'.inoOf[node]? = some ino ∧
          ∀ other : NodeId, v'.inoOf[other]? = some ino → other = node := by
  obtain ⟨t, hle, ht⟩ := h.extends (hasTable_new d maxFileSize)
  obtain ⟨t', hle', ht'⟩ := h'.extends ht
  rw [ht.inoOf, ht.nodeOf, ht.nextIno, ht'.inoOf]
  have hroot : t.numOf[ROOT]? = some ROOT_INO :=
    Interner.numOf_of_le hle ((Interner.numOf_ofKeys [ROOT]).1 ROOT)
  refine ⟨t.inverse, ⟨hroot, (t.inverse _ _).1 hroot⟩, t.below, fun node ino hino => ⟨?_, ?_⟩⟩
  · exact Interner.numOf_of_le hle' hino
  · exact fun other hother => Interner.eq_of_le hle' hino hother

/-- A file is created, deleted and created again, and an empty drive takes the place of its
own. -/
theorem inodes_stable_recreated :
    let d := Drive.init "d" "r"
    let v := ([Event.create 0 ROOT_INO "f" 0].foldlM perform (new d 0)).get (by decide +kernel)
    let v' := ([.unlink ROOT_INO "f", .create 1 ROOT_INO "f" 0, .revalidate d.state].foldlM
      perform v).get (by decide +kernel)
    v'.inoOf["00000000000100000000"]? = some 2 ∧
      ∀ other : NodeId, v'.inoOf[other]? = some 2 → other = "00000000000100000000" := by
  intro d v v'
  have hv : Run (new d 0) v := .of_calls (Option.some_get _).symm
  have hv' : Run v v' := .of_calls (Option.some_get _).symm
  exact (inodes_stable hv hv').2.2.2 _ 2 (by decide +kernel)

end Vfs

end CeDrive
