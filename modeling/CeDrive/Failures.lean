import CeDrive.FreshIds
import CeDrive.InodeOps
import CeDrive.Interning
import CeDrive.Received
import CeDrive.WriteBack

/-!
# Failed operations

The operations of a drive check all their arguments before the first tick : if one returns an
error, the drive is as it was (`Drive.attempt_error`). The calls of the mount that fail leave
the drive, the open files and the inodes as they were, but for two : `create` and `mkdir` add
the node first and read its attributes then, which fails if the cycle check refused to place
it. It does where the id just minted, which has no edge, is the id of the directory or of one
above it (`failures_iff`). There is such a directory once the root was moved.
-/

open Std (ExtTreeMap)
open Forest

namespace CeDrive

namespace Drive

variable {d d' : Drive} {ctr : ℕ} {n dir : NodeId}

/-- Perform a local operation : its error, or nothing, and the drive after it. -/
def attempt (d : Drive) (ctr : ℕ) : LocalOp → Option (Except String Unit × Drive)
  | .mkdir parentPath name =>
    (d.mkdir ctr parentPath name).map fun r => (r.1.map fun _ => (), r.2.1)
  | .addFile parentPath name content =>
    (d.addFile ctr parentPath name content).map fun r => (r.1.map fun _ => (), r.2.1)
  | .mv src dstParent dstName => d.mv src dstParent dstName
  | .rm path => d.rm path
  | .restore id dstParent dstName => d.restore id dstParent dstName
  | .emptyTrash => d.emptyTrash.map fun r => (.ok (), r.2)
  | .gcTrash now retention => (d.gcTrash now retention).map fun r => (.ok (), r.2)
  | .setContent id content => (d.setContent id content).map fun d => (.ok (), d)
  | .restoreVersion path cid now => d.restoreVersion path cid now

/-- An operation that returns an error does nothing. -/
theorem attempt_error {op : LocalOp} {e : String} (h : d.attempt ctr op = some (.error e, d')) :
    d' = d := by
  cases op with
  | mkdir parentPath name =>
    obtain ⟨r, hr, heq⟩ := Option.map_eq_some_iff.1 h
    obtain ⟨e, -, rfl⟩ | ⟨parent, -, rfl⟩ := mkdir_eq_some hr
    · exact (Prod.mk.inj heq).2.symm
    · cases (Prod.mk.inj heq).1
  | addFile parentPath name content =>
    obtain ⟨r, hr, heq⟩ := Option.map_eq_some_iff.1 h
    obtain ⟨e, -, rfl⟩ | ⟨parent, existing, -, rfl⟩ | ⟨parent, -, rfl⟩ := addFile_eq_some hr
    · exact (Prod.mk.inj heq).2.symm
    · cases (Prod.mk.inj heq).1
    · cases (Prod.mk.inj heq).1
  | mv src dstParent dstName =>
    obtain ⟨e, -, heq⟩ | ⟨node, parent, -, heq⟩ := mv_eq_some h
    · exact (Prod.mk.inj heq).2
    · cases (Prod.mk.inj heq).1
  | rm path =>
    obtain ⟨e, -, heq⟩ | ⟨node, -, heq⟩ := rm_eq_some h
    · exact (Prod.mk.inj heq).2
    · cases (Prod.mk.inj heq).1
  | restore id dstParent dstName =>
    obtain ⟨e, -, heq⟩ | ⟨parent, name, -, -, heq⟩ := restore_eq_some h
    · exact (Prod.mk.inj heq).2
    · cases (Prod.mk.inj heq).1
  | restoreVersion path cid now =>
    obtain ⟨e, -, heq⟩ | ⟨node, c, -, -, heq⟩ := restoreVersion_eq_some h
    · exact (Prod.mk.inj heq).2
    · cases (Prod.mk.inj heq).1
  | emptyTrash =>
    obtain ⟨r, -, heq⟩ := Option.map_eq_some_iff.1 h
    cases (Prod.mk.inj heq).1
  | gcTrash now retention =>
    obtain ⟨r, -, heq⟩ := Option.map_eq_some_iff.1 h
    cases (Prod.mk.inj heq).1
  | setContent id content =>
    obtain ⟨r, -, heq⟩ := Option.map_eq_some_iff.1 h
    cases (Prod.mk.inj heq).1

/-- The id the next creation mints has no edge, and is that of `dir` or of a directory above
it. -/
def Unplaceable (d : Drive) (ctr : ℕ) (dir : NodeId) : Prop :=
  d.tree.edge (d.nextId ctr) = none ∧ d.tree.isAncestor (d.nextId ctr) dir = true

instance (d : Drive) (ctr : ℕ) (dir : NodeId) : Decidable (d.Unplaceable ctr dir) :=
  inferInstanceAs (Decidable (_ ∧ _))

/-- The new node has no edge exactly if it could not be placed. -/
theorem Inv.edge_moved_nextId (h : d.Inv) (ctr : ℕ) (dir : NodeId) (name : String) (k : NodeKind) :
    (d.moved (d.nextId ctr) dir name k).tree.edge (d.nextId ctr) = none ↔
      d.Unplaceable ctr dir := by
  have hm := DriveTree.moved_of_inv h (d.nextId ctr) dir name k
  rw [Unplaceable, h.replayed.grounded.isAncestor_iff, DriveTree.edge, DriveTree.edge]
  by_cases hr : Reaches d.tree.parentOf dir (d.nextId ctr)
  · rw [hm.skipped hr, and_iff_left hr]
  · rw [hm.edge_self hr]
    simp [hr]

/-- A directory is created unless the clock overflows. -/
theorem mkdir_of_check (ctr : ℕ) {path name : String} (hc : d.mkdirCheck path name = .ok dir) :
    d.mkdir ctr path name = if d.state.lamport + 1 < 2 ^ 64 then
      some (.ok (d.nextId ctr), d.moved (d.nextId ctr) dir name .dir, (ctr + 1) % 2 ^ 64)
    else none := by
  rw [mkdir_of_ok hc, checkedSucc]
  split_ifs <;> rfl

/-- A file is created unless the clock overflows at one of the two ticks. -/
theorem addFile_of_check (ctr : ℕ) {path name : String} (content : FileContent)
    (hc : d.addFileCheck path name = .ok (dir, none)) :
    d.addFile ctr path name content = if d.state.lamport + 2 < 2 ^ 64 then
      some (.ok (d.nextId ctr), (d.moved (d.nextId ctr) dir name .file).wrote
        (setOp (d.nextId ctr) content), (ctr + 1) % 2 ^ 64)
    else none := by
  rw [addFile_of_ok_none hc, checkedSucc, checkedSucc]
  by_cases hclock : d.state.lamport + 2 < 2 ^ 64
  · rw [if_pos hclock, if_pos (by omega), if_pos (by omega)]
    rfl
  · rw [if_neg hclock, if_neg (show ¬d.state.lamport + 1 + 1 < 2 ^ 64 by omega)]
    split_ifs <;> rfl

theorem nextId_ne_root : d.nextId ctr ≠ ROOT :=
  freshNodeId_ne (by decide) _ _

end Drive

namespace Vfs

variable {v v' : Vfs} {id : NodeId} {ctr nowMs : ℕ} {parent : Ino} {name : String}
  {putBytes : List UInt8 → Except String String}

/-! ## The calls -/

/-- A call of the mount that changes the tree or saves a file. -/
inductive Call
  | create (ctr : ℕ) (parent : Ino) (name : String) (nowMs : ℕ)
  | mkdir (ctr : ℕ) (parent : Ino) (name : String)
  | unlink (parent : Ino) (name : String)
  | rename (parent : Ino) (name : String) (newParent : Ino) (newName : String)
  | flush (fh nowMs : ℕ)

/-- `flush`, whatever the store answers. -/
def flushWith (putBytes : List UInt8 → Except String String) (v : Vfs) (fh nowMs : ℕ) :
    Option (Except String (Option String) × Vfs) :=
  match v.snapshot fh with
  | .error e => some (.error e, v)
  | .ok none => some (.ok none, v)
  | .ok (some (ino, bytes)) =>
    match putBytes bytes with
    | .error e => some (.error e, v)
    | .ok cid => (v.record fh ino (.new cid bytes.length 0o644 nowMs)).map fun r =>
      (r.1.map some, r.2)

theorem flush_eq_flushWith (store : BlockStore) (v : Vfs) (fh nowMs : ℕ) :
    v.flush store fh nowMs = v.flushWith store.putBytes fh nowMs := rfl

/-- Perform a call : its error, or nothing, and the engine after it. -/
def attempt (putBytes : List UInt8 → Except String String) (v : Vfs) :
    Call → Option (Except String Unit × Vfs)
  | .create ctr parent name nowMs =>
    (v.create ctr parent name nowMs).map fun r => (r.1.map fun _ => (), r.2.1)
  | .mkdir ctr parent name => (v.mkdir ctr parent name).map fun r => (r.1.map fun _ => (), r.2.1)
  | .unlink parent name => v.unlink parent name
  | .rename parent name newParent newName => v.rename parent name newParent newName
  | .flush fh nowMs => (v.flushWith putBytes fh nowMs).map fun r => (r.1.map fun _ => (), r.2)

/-- A node that the call creates is placed in its directory. -/
def Places (v : Vfs) : Call → Prop
  | .create ctr parent name _ => ∀ path dir, v.parentPath parent = .ok path →
      v.drive.addFileCheck path name = .ok (dir, none) → v.drive.state.lamport + 2 < 2 ^ 64 →
        ¬v.drive.Unplaceable ctr dir
  | .mkdir ctr parent name => ∀ path dir, v.parentPath parent = .ok path →
      v.drive.mkdirCheck path name = .ok dir → v.drive.state.lamport + 1 < 2 ^ 64 →
        ¬v.drive.Unplaceable ctr dir
  | _ => True

/-! ## Adding a node -/

theorem isOk_map {ε α β : Type*} (f : α → β) (r : Except ε α) : (r.map f).isOk = r.isOk := by
  cases r <;> rfl

/-- A call that added a node succeeds if the node has attributes. -/
theorem Inv.attempt_mkdir_of_ok (h : v.Inv) (putBytes : List UInt8 → Except String String)
    {path : String} {d : Drive} {ctr' : ℕ}
    (hp : v.parentPath parent = .ok path)
    (hm : v.drive.mkdir ctr path name = some (.ok id, d, ctr')) :
    ∃ res v', v.attempt putBytes (.mkdir ctr parent name) = some (res, v') ∧ v'.drive = d ∧
      (res.isOk = true ↔ id = ROOT ∨ d.tree.edge id ≠ none) := by
  have hv : Inv { v with drive := d, dirtyModel := true } := h.withDrive (h.drive.mkdir hm) true
  refine ⟨_, _, by simp only [attempt, Vfs.mkdir, hp, hm]; rfl, drive_intern _ id, ?_⟩
  rw [isOk_map]
  exact hv.isOk_internAttr

theorem Inv.attempt_create_of_ok (h : v.Inv) (putBytes : List UInt8 → Except String String)
    {path : String} {d : Drive} {ctr' : ℕ}
    (hp : v.parentPath parent = .ok path)
    (ha : v.drive.addFile ctr path name (.new "" 0 0o644 nowMs) = some (.ok id, d, ctr')) :
    ∃ res v', v.attempt putBytes (.create ctr parent name nowMs) = some (res, v') ∧ v'.drive = d ∧
      (res.isOk = true ↔ id = ROOT ∨ d.tree.edge id ≠ none) := by
  have hv : Inv { v with drive := d, dirtyModel := true } := h.withDrive (h.drive.addFile ha) true
  rw [← hv.isOk_internAttr]
  have hdrive : (Vfs.internAttr { v with drive := d, dirtyModel := true } id).2.drive = d :=
    drive_intern _ id
  cases hattr : (Vfs.internAttr { v with drive := d, dirtyModel := true } id).1 with
  | error e =>
    refine ⟨.error e, _, ?_, hdrive, Iff.rfl⟩
    simp only [attempt, Vfs.create, hp, ha, Option.bind_eq_bind, Option.bind_some, hattr]
    rfl
  | ok attr =>
    let v₁ := (Vfs.internAttr { v with drive := d, dirtyModel := true } id).2
    refine ⟨.ok (), { v₁ with
      nextFh := v₁.nextFh + 1
      openFiles := v₁.openFiles.insert v₁.nextFh ⟨attr.ino, some [], true⟩ }, ?_, hdrive, Iff.rfl⟩
    simp only [attempt, Vfs.create, hp, ha, Option.bind_eq_bind, Option.bind_some, hattr]
    rfl

/-- A call that adds a node leaves all alone if it fails, exactly if it does not fail once the
node is added. -/
theorem forall_error_iff {c : Call} {res : Except String Unit} {d : Drive}
    (hc : v.attempt putBytes c = some (res, v')) (hdrive : v'.drive = d)
    (hd : d ≠ v.drive) :
    (∀ e v', v.attempt putBytes c = some (.error e, v') → v.Undisturbed v') ↔ res.isOk = true := by
  rw [hc]
  cases res with
  | ok u => exact iff_of_true (fun e v' h => by cases h) rfl
  | error e =>
    refine iff_of_false (fun h => hd ?_) (by simp [Except.isOk, Except.toBool])
    exact hdrive.symm.trans (h e v' rfl).drive

theorem ne_of_lamport {d d' : Drive} {k : ℕ} (h : d'.state.lamport = d.state.lamport + k)
    (hk : 0 < k) : d' ≠ d := by
  rintro rfl
  omega

theorem Inv.mkdir_undisturbed_iff (h : v.Inv) :
    (∀ e v', v.attempt putBytes (.mkdir ctr parent name) = some (.error e, v') →
      v.Undisturbed v') ↔ v.Places (.mkdir ctr parent name) := by
  cases hp : v.parentPath parent with
  | error e =>
    refine iff_of_true (fun e' v' he => ?_) fun path dir hpath => by simp [hp] at hpath
    simp only [attempt, Vfs.mkdir, hp, Option.map_some, Option.some.injEq, Prod.mk.injEq] at he
    exact he.2 ▸ .refl v
  | ok path =>
    cases hc : v.drive.mkdirCheck path name with
    | error e =>
      refine iff_of_true (fun e' v' he => ?_) fun path' dir hpath hcheck => ?_
      · simp only [attempt, Vfs.mkdir, hp, Drive.mkdir, hc, Option.bind_eq_bind, Option.bind_some] at he
        obtain rfl := (Prod.mk.inj (Option.some_injective _ he)).2
        exact .refl v
      · simp only [hp, Except.ok.injEq] at hpath
        obtain rfl := hpath
        simp [hc] at hcheck
    | ok dir =>
      have hm := Drive.mkdir_of_check ctr hc
      have hplaces : v.Places (.mkdir ctr parent name) ↔
          (v.drive.state.lamport + 1 < 2 ^ 64 → ¬v.drive.Unplaceable ctr dir) := by
        refine ⟨fun h => h path dir hp hc, fun h path' dir' hp' hc' => ?_⟩
        obtain rfl := Except.ok.inj (hp.symm.trans hp')
        obtain rfl := Except.ok.inj (hc.symm.trans hc')
        exact h
      rw [hplaces]
      split_ifs at hm with hclock
      · obtain ⟨res, v₁, hrun, hdrive, hres⟩ := h.attempt_mkdir_of_ok putBytes hp hm
        rw [forall_error_iff hrun hdrive (ne_of_lamport rfl Nat.one_pos), hres,
          or_iff_right Drive.nextId_ne_root, Ne, h.drive.edge_moved_nextId]
        exact ⟨fun hu _ => hu, fun hu => hu hclock⟩
      · refine iff_of_true (fun e v' he => ?_) fun hlt => absurd hlt hclock
        simp [attempt, Vfs.mkdir, hp, hm] at he

/-- A file that is there has an edge, so that a new version of it does not fail. -/
theorem Inv.create_undisturbed_iff (h : v.Inv) :
    (∀ e v', v.attempt putBytes (.create ctr parent name nowMs) = some (.error e, v') →
      v.Undisturbed v') ↔ v.Places (.create ctr parent name nowMs) := by
  cases hp : v.parentPath parent with
  | error e =>
    refine iff_of_true (fun e' v' he => ?_) fun path dir hpath => by simp [hp] at hpath
    simp only [attempt, Vfs.create, hp, Option.map_some, Option.some.injEq, Prod.mk.injEq] at he
    exact he.2 ▸ .refl v
  | ok path =>
    cases hc : v.drive.addFileCheck path name with
    | error e =>
      refine iff_of_true (fun e' v' he => ?_) fun path' dir hpath hcheck => ?_
      · simp only [attempt, Vfs.create, hp, Drive.addFile, hc, Option.bind_eq_bind, Option.bind_some] at he
        obtain rfl := (Prod.mk.inj (Option.some_injective _ he)).2
        exact .refl v
      · simp only [hp, Except.ok.injEq] at hpath
        obtain rfl := hpath
        simp [hc] at hcheck
    | ok found =>
      obtain ⟨dir, _ | existing⟩ := found
      · have ha := Drive.addFile_of_check ctr (.new "" 0 0o644 nowMs) hc
        have hplaces : v.Places (.create ctr parent name nowMs) ↔
            (v.drive.state.lamport + 2 < 2 ^ 64 → ¬v.drive.Unplaceable ctr dir) := by
          refine ⟨fun h => h path dir hp hc, fun h path' dir' hp' hc' => ?_⟩
          obtain rfl := Except.ok.inj (hp.symm.trans hp')
          obtain rfl := (Prod.mk.inj (Except.ok.inj (hc.symm.trans hc'))).1
          exact h
        rw [hplaces]
        split_ifs at ha with hclock
        · obtain ⟨res, v₁, hrun, hdrive, hres⟩ := h.attempt_create_of_ok putBytes hp ha
          have hedge := h.drive.edge_moved_nextId ctr dir name .file
          rw [forall_error_iff hrun hdrive (ne_of_lamport rfl Nat.two_pos), hres,
            or_iff_right Drive.nextId_ne_root, Ne]
          exact ⟨fun hu _ => mt hedge.2 hu, fun hu => mt hedge.1 (hu hclock)⟩
        · refine iff_of_true (fun e v' he => ?_) fun hlt => absurd hlt hclock
          simp [attempt, Vfs.create, hp, ha] at he
      · refine iff_of_true (fun e v' he => ?_) fun path' dir' hp' hc' => ?_
        · obtain ⟨edge, hedge, -⟩ := h.drive.replayed.mirror.mem_rawChildren.1
            (Drive.addFileCheck_eq_some hc)
          cases ha : v.drive.addFile ctr path name (.new "" 0 0o644 nowMs) with
          | none => simp [attempt, Vfs.create, hp, ha] at he
          | some r =>
            obtain ⟨e₁, hc₁, -⟩ | ⟨dir₁, existing₁, hc₁, rfl⟩ | ⟨dir₁, hc₁, -⟩ :=
              Drive.addFile_eq_some ha
            · simp [hc] at hc₁
            · simp only [hc, Except.ok.injEq, Prod.mk.injEq, Option.some.injEq] at hc₁
              obtain ⟨rfl, rfl⟩ := hc₁
              obtain ⟨res, v₁, hrun, -, hres⟩ := h.attempt_create_of_ok putBytes hp ha
              have hok : res.isOk = true := hres.2 (Or.inr fun hnone => by
                exact absurd (hedge.symm.trans hnone) (by simp))
              obtain ⟨rfl, -⟩ := Prod.mk.inj (Option.some_injective _ (hrun.symm.trans he))
              cases hok
            · simp [hc] at hc₁
        · obtain rfl := Except.ok.inj (hp.symm.trans hp')
          simp [hc] at hc'

/-- A deletion looks its path up first. -/
theorem unlink_error {e : String} (h : v.unlink parent name = some (.error e, v')) : v' = v := by
  unfold unlink at h
  split at h
  · exact (Prod.mk.inj (Option.some_injective _ h)).2.symm
  · obtain ⟨⟨res, d⟩, hm, h⟩ := Option.bind_eq_some_iff.1 h
    obtain ⟨e₁, -, heq⟩ | ⟨node, -, heq⟩ := Drive.rm_eq_some hm
    · obtain ⟨rfl, rfl⟩ := Prod.mk.inj heq
      exact (Prod.mk.inj (Option.some_injective _ h)).2.symm
    · obtain ⟨rfl, rfl⟩ := Prod.mk.inj heq
      cases (Prod.mk.inj (Option.some_injective _ h)).1

/-- A flush saves after everything that can fail, the upload included. -/
theorem flushWith_error {fh : ℕ} {e : String}
    (h : v.flushWith putBytes fh nowMs = some (.error e, v')) : v' = v := by
  unfold flushWith at h
  cases hsnap : v.snapshot fh with
  | error e₁ =>
    simp only [hsnap] at h
    exact (Prod.mk.inj (Option.some_injective _ h)).2.symm
  | ok found =>
    obtain _ | ⟨ino, bytes⟩ := found
    · simp only [hsnap] at h
      cases (Prod.mk.inj (Option.some_injective _ h)).1
    cases hput : putBytes bytes with
    | error e₁ =>
      simp only [hsnap, hput] at h
      exact (Prod.mk.inj (Option.some_injective _ h)).2.symm
    | ok cid =>
      simp only [hsnap, hput] at h
      obtain ⟨r, hr, heq⟩ := Option.map_eq_some_iff.1 h
      unfold record at hr
      split at hr
      · obtain rfl := Option.some_injective _ hr
        exact (Prod.mk.inj heq).2.symm
      · obtain ⟨d, -, hr⟩ := Option.bind_eq_some_iff.1 hr
        obtain rfl := Option.some_injective _ hr
        cases (Prod.mk.inj heq).1

/-- Failed operations. An operation of the drive that returns an error leaves the drive as it
was. A call of the mount that does leaves the drive, the open files and all inodes as they
were, for `unlink`, `rename` and `flush` always, for `create` and `mkdir` if and only if the
id they mint has an edge or is not that of the directory or of one above it. -/
theorem failures_iff (h : v.Reachable) (putBytes : List UInt8 → Except String String) :
    (∀ (d : Drive) ctr op e d', d.attempt ctr op = some (.error e, d') → d' = d) ∧
      ∀ c, (∀ e v', v.attempt putBytes c = some (.error e, v') → v.Undisturbed v') ↔
        v.Places c := by
  refine ⟨fun d ctr op e d' => Drive.attempt_error, fun c => ?_⟩
  cases c with
  | create ctr parent name nowMs => exact h.inv.create_undisturbed_iff
  | mkdir ctr parent name => exact h.inv.mkdir_undisturbed_iff
  | unlink parent name =>
    exact iff_of_true (fun e v' he => unlink_error he ▸ .refl v) trivial
  | rename parent name newParent newName =>
    refine iff_of_true (fun e v' he => ?_) trivial
    obtain ⟨e₁, heq⟩ | ⟨_, _, _, _, _, -, -, heq, -⟩ := rename_eq_some he
    · exact (Prod.mk.inj heq).2 ▸ .refl v
    · cases (Prod.mk.inj heq).1
  | flush fh nowMs =>
    refine iff_of_true (fun e v' he => ?_) trivial
    obtain ⟨⟨res, v₁⟩, hr, heq⟩ := Option.map_eq_some_iff.1 he
    obtain ⟨hres, rfl⟩ := Prod.mk.inj heq
    cases res with
    | error e₁ => exact flushWith_error hr ▸ .refl v
    | ok cid => cases hres

/-- A drive that received a move of the root under the id that is minted next. -/
def movedRoot : Drive :=
  ((Drive.init "d" "r").performAll
    [.remoteMove ⟨⟨1, "q"⟩, ROOT, "00000000000300000000", "x", .dir⟩]).get (by decide +kernel)

/-- A file is created in the root. The call fails, and the clock has ticked twice. -/
theorem create_fails_disturbed :
    let v := Vfs.new movedRoot 0
    let r := (v.attempt (fun _ => .ok "c") (.create 0 ROOT_INO "f" 100)).get (by decide +kernel)
    v.Reachable ∧ r.1 = .error "inode 2 has no edge" ∧ ¬v.Undisturbed r.2 := by
  intro v r
  refine ⟨.new ⟨"d", "r", _, (Option.some_get _).symm⟩ 0, by decide +kernel, fun h => ?_⟩
  have hclock : r.2.drive.state.lamport = v.drive.state.lamport := by rw [h.drive]
  revert hclock
  decide +kernel

/-- A directory is to be created with a name that is not allowed. -/
theorem failures_iff_slash :
    let v := Vfs.new (.init "d" "r") 0
    ∃ e v', v.attempt (fun _ => .ok "c") (.mkdir 0 ROOT_INO "a/b") = some (.error e, v') ∧
      v.Undisturbed v' := by
  intro v
  have hreach : v.Reachable := .new ⟨"d", "r", [], rfl⟩ 0
  have hrun : v.attempt (fun _ => .ok "c") (.mkdir 0 ROOT_INO "a/b") = some (.error _, v) := rfl
  refine ⟨_, _, hrun, ((failures_iff hreach fun _ => .ok "c").2 _).2 ?_ _ _ hrun⟩
  intro path dir hp hc
  obtain rfl : "/" = path := Except.ok.inj hp
  cases hc

end Vfs

end CeDrive
