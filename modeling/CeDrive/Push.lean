import CeDrive.Disk
import CeDrive.Materialize

/-!
# Pushing a directory of the disk

`push` of `crates/ce-drive-mount/src/materialize.rs`. It walks a directory of the disk, saves
every file whose cid is not the recorded one, and deletes every listed file that is not on the
disk. The disk is a value, as it does not change under the push; the store may fail, and its
answers may depend on the uploads so far.

As for the operations of a drive, `none` is the overflow panic of the clock. It is also a walk
of the listings deeper than `k`.
-/

namespace CeDrive

structure PutResult where
  content : FileContent
  uploadedChunks : ℕ

/-- What `put_bytes` answers after the uploads so far. The cid is that of the bytes. -/
structure ObjectStore where
  cidOf : List UInt8 → String
  putBytes : List (List UInt8) → List UInt8 → ℕ → ℕ → Except String PutResult
  content_eq : ∀ {uploads bytes mode mtimeMs put}, putBytes uploads bytes mode mtimeMs = .ok put →
    put.content = .new (cidOf bytes) bytes.length mode mtimeMs

structure PushReport where
  changed : ℕ
  removed : ℕ
  uploadedChunks : ℕ
  deriving DecidableEq

/-- The cid recorded for the file a path leads to. -/
def Drive.existingCid (d : Drive) (path : String) : Option String :=
  (d.tree.resolve path).bind fun id => (d.content[id]?).map FileContent.cid

/-- A drive under a push, the id counter, the report, and the uploads so far. -/
structure PushState where
  drive : Drive
  ctr : ℕ
  report : PushReport
  uploads : List (List UInt8)

/-- A part of a push. -/
abbrev PushStep := PushState → Option (Except String Unit × PushState)

namespace PushStep

/-- The second part runs unless the first fails. -/
def andThen (f g : PushStep) : PushStep := fun s =>
  match f s with
  | some (.ok (), s) => g s
  | r => r

/-- `with_context` : an error is reported as `e`. -/
def orError (f : PushStep) (e : String) : PushStep := fun s =>
  (f s).map fun r => (r.1.mapError fun _ => e, r.2)

/-- A part that succeeds as the drive operation does. -/
def mkdir (path name : String) : PushStep := fun s =>
  (s.drive.mkdir s.ctr path name).map fun r =>
    (r.1.map fun _ => (), { s with drive := r.2.1, ctr := r.2.2 })

def addFile (path name : String) (content : FileContent) : PushStep := fun s =>
  (s.drive.addFile s.ctr path name content).map fun r =>
    (r.1.map fun _ => (), { s with drive := r.2.1, ctr := r.2.2 })

def rm (path : String) : PushStep := fun s =>
  (s.drive.rm path).map fun r => (r.1, { s with drive := r.2 })

/-- A change of the report. -/
def count (f : PushReport → PushReport) : PushStep := fun s =>
  some (.ok (), { s with report := f s.report })

/-- Make the missing directories along a path, component by component. -/
def ensureComponents : String → List String → PushStep
  | _, [] => fun s => some (.ok (), s)
  | cur, comp :: comps => fun s =>
    let child := joinPath cur comp
    if s.drive.tree.resolve child = none then
      (mkdir cur comp).andThen (ensureComponents child comps) s
    else ensureComponents child comps s

def ensureDirPath (dir : String) : PushStep := fun s =>
  if dir = "/" ∨ (s.drive.tree.resolve dir).isSome then some (.ok (), s)
  else ensureComponents "/"
    ((DriveTree.splitSlash (DriveTree.trimSlashes dir)).filter fun comp => comp ≠ "") s

/-- Ensure a single child directory exists. -/
def ensureDir (parent name : String) : PushStep := fun s =>
  if s.drive.tree.resolve (joinPath parent name) = none then
    (ensureDirPath parent).andThen (mkdir parent name) s
  else some (.ok (), s)

variable (store : ObjectStore)

/-- One file of the disk : upload it, and save it unless its cid is recorded. -/
def pushFile (path name : String) (f : DiskFile) : PushStep := fun s =>
  let child := joinPath path name
  let existing := s.drive.existingCid child
  match store.putBytes s.uploads f.bytes f.mode f.mtimeMs with
  | .error e => some (.error e, s)
  | .ok put =>
    let s := { s with uploads := s.uploads ++ [f.bytes] }
    if existing = some put.content.cid then some (.ok (), s)
    else (ensureDirPath path).andThen (((addFile path name put.content).orError
      ("record " ++ child)).andThen (count fun r => { r with
        changed := r.changed + 1
        uploadedChunks := r.uploadedChunks + put.uploadedChunks })) s

/-- The entries of a directory, one after the other. -/
def pushDir : DiskDir → String → PushStep
  | .nil, _ => fun s => some (.ok (), s)
  | .file name f rest, path => (pushFile store path name f).andThen (pushDir rest path)
  | .dir name entries rest, path =>
    ((ensureDir path name).andThen (pushDir entries (joinPath path name))).andThen
      (pushDir rest path)

end PushStep

/-- Every file path under a directory of the disk. -/
def collectDiskPaths : DiskDir → String → List String
  | .nil, _ => []
  | .file name _ rest, path => joinPath path name :: collectDiskPaths rest path
  | .dir name entries rest, path =>
    collectDiskPaths entries (joinPath path name) ++ collectDiskPaths rest path

/-- What the elements give, one after the other. -/
def collect {α β : Type*} (f : α → Option (List β)) : List α → Option (List β)
  | [] => some []
  | a :: l => do return (← f a) ++ (← collect f l)

theorem collect_cons_eq_some {α β : Type*} {f : α → Option (List β)} {a : α} {l : List α}
    {bs : List β} : collect f (a :: l) = some bs ↔
      ∃ b₁ b₂, f a = some b₁ ∧ collect f l = some b₂ ∧ b₁ ++ b₂ = bs := by
  simp [collect, Option.bind_eq_some_iff]

theorem exists_mem_of_collect {α β : Type*} {f : α → Option (List β)} {l : List α} {bs : List β}
    {b : β} (h : collect f l = some bs) (hb : b ∈ bs) :
    ∃ a ∈ l, ∃ b', f a = some b' ∧ b ∈ b' ∧ b'.Sublist bs := by
  induction l generalizing bs with
  | nil =>
    obtain rfl := Option.some_injective _ h
    cases hb
  | cons a l ih =>
    obtain ⟨b₁, b₂, h₁, h₂, rfl⟩ := collect_cons_eq_some.1 h
    rcases List.mem_append.1 hb with hb | hb
    · exact ⟨a, List.mem_cons_self, b₁, h₁, hb, List.sublist_append_left ..⟩
    · obtain ⟨a', ha', b', hf, hmem, hsub⟩ := ih h₂ hb
      exact ⟨a', List.mem_cons_of_mem _ ha', b', hf, hmem, hsub.trans (List.sublist_append_right ..)⟩

/-- What holds of every element holds of all. -/
theorem collect_map {α β γ : Type*} {f : α → Option (List β)} {g : α → Option (List γ)}
    {h : List β → List γ} (hnil : h [] = []) (happend : ∀ b b', h (b ++ b') = h b ++ h b')
    {l : List α} {bs : List β} (hfg : ∀ a ∈ l, ∀ b, f a = some b → g a = some (h b))
    (hf : collect f l = some bs) : collect g l = some (h bs) := by
  induction l generalizing bs with
  | nil =>
    obtain rfl := Option.some_injective _ hf
    exact congrArg some hnil.symm
  | cons a l ih =>
    obtain ⟨b₁, b₂, h₁, h₂, rfl⟩ := collect_cons_eq_some.1 hf
    exact collect_cons_eq_some.2 ⟨h b₁, h b₂, hfg a List.mem_cons_self b₁ h₁,
      ih (fun a ha => hfg a (List.mem_cons_of_mem _ ha)) h₂, (happend b₁ b₂).symm⟩

namespace Drive

/-- The listed file paths of one entry. -/
def entryFilePaths (visit : String → Option (List String)) (path : String) (e : DirEntry) :
    Option (List String) :=
  let child := joinPath path e.name
  if e.isDir then visit child else some [child]

/-- Every listed file path, at most `k` directories deep; `none` if a listing goes deeper. -/
def driveFilePaths (d : Drive) : ℕ → String → Option (List String)
  | 0, _ => none
  | k + 1, path =>
    match d.ls path with
    | .error _ => some []
    | .ok entries => collect (entryFilePaths (driveFilePaths d k) path) entries

/-- A deeper bound finds the same paths. -/
theorem driveFilePaths_mono {d : Drive} {k k' : ℕ} {path : String} {paths : List String}
    (h : d.driveFilePaths k path = some paths) (hk : k ≤ k') :
    d.driveFilePaths k' path = some paths := by
  induction k generalizing k' path paths with
  | zero => cases h
  | succ k ih =>
    obtain ⟨k', rfl⟩ : ∃ j, k' = j + 1 := ⟨k' - 1, by omega⟩
    rw [driveFilePaths] at h ⊢
    split at h
    · exact h
    · refine collect_map (h := id) rfl (fun _ _ => rfl) (fun e _ b hb => ?_) h
      unfold entryFilePaths at hb ⊢
      dsimp only at hb ⊢
      split_ifs at hb ⊢
      · exact ih hb (by omega)
      · exact hb

end Drive

namespace PushStep

/-- Delete the listed files that are not on the disk. -/
def removeMissing (onDisk : List String) : List String → PushStep
  | [] => fun s => some (.ok (), s)
  | p :: ps =>
    if p ∈ onDisk then removeMissing onDisk ps
    else ((rm p).orError ("trash " ++ p)).andThen
      ((count fun r => { r with removed := r.removed + 1 }).andThen (removeMissing onDisk ps))

/-- The second part of a push. -/
def removePaths (k : ℕ) (onDisk : List String) : PushStep := fun s =>
  match s.drive.driveFilePaths k "/" with
  | none => none
  | some paths => removeMissing onDisk paths s

end PushStep

/-- Push a directory of the disk into a drive. -/
def Drive.push (store : ObjectStore) (k : ℕ) (disk : DiskDir) (d : Drive) (ctr : ℕ)
    (uploads : List (List UInt8)) : Option (Except String PushReport × PushState) :=
  ((PushStep.pushDir store disk "/").andThen (PushStep.removePaths k (collectDiskPaths disk "/"))
    ⟨d, ctr, ⟨0, 0, 0⟩, uploads⟩).map fun r => (r.1.map fun _ => r.2.report, r.2)

end CeDrive
