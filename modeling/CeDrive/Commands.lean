import CeDrive.Audit
import CeDrive.PlainNames
import CeDrive.Push

/-!
# Commands

The commands of `crates/ce-drive-cli/src/main.rs` that change a file. Those that change the
drive perform operations of it, one after the other, so that the drive they save is reached
from the one they load (`Drive.leadsTo_command`).
-/

namespace CeDrive

/-! ## Commands -/

/-- Split an absolute path into the directory and the name. -/
def splitPath (path : String) : Except String (String × String) :=
  let trimmed := (trimEndSlashes path).toList
  let parent := trimmed.rdropWhile (· ≠ '/')
  let name := trimmed.rtakeWhile (· ≠ '/')
  if parent = [] ∨ name = [] then
    .error ("invalid destination path '" ++ path ++ "' (expected /dir/name)")
  else .ok (if parent.dropLast = [] then "/" else String.ofList parent.dropLast, String.ofList name)

/-- The commands that change a file. A file to add was stored as `content`. -/
inductive Command
  | init (identity : List UInt8)
  | add (content : FileContent) (fileName dest : Option String)
  | mv (src dest : String)
  | rm (path : String)
  | restore (nodeId : NodeId) (toDir name : Option String)
  | emptyTrash (nowSecs olderThan : ℕ)
  | push (store : ObjectStore) (k : ℕ) (disk : DiskDir)
  | compact
  | share (identity : List UInt8) (o : ShareOptions) (clock : ℕ × ℕ × ℕ)

namespace Drive

variable (d : Drive)

def cmdAdd (content : FileContent) (fileName dest : Option String) : Option (Except String Drive) :=
  match splitPath (dest.getD ("/" ++ fileName.getD "file")) with
  | .error e => some (.error e)
  | .ok (parent, name) =>
    ((PushStep.ensureDirPath parent).andThen (PushStep.addFile parent name content)
      ⟨d, 0, ⟨0, 0, 0⟩, []⟩).map fun r => r.1.map fun _ => r.2.drive

def cmdMv (src dest : String) : Option (Except String Drive) :=
  match splitPath dest with
  | .error e => some (.error e)
  | .ok (parent, name) => (d.mv src parent name).map fun r => r.1.map fun _ => r.2

def cmdRm (path : String) : Option (Except String Drive) :=
  (d.rm path).map fun r => r.1.map fun _ => r.2

def cmdRestore (nodeId : NodeId) (toDir name : Option String) : Option (Except String Drive) :=
  (d.restore nodeId toDir name).map fun r => r.1.map fun _ => r.2

def cmdEmptyTrash (nowSecs olderThan : ℕ) : Option (Except String Drive) :=
  (if olderThan = 0 then d.emptyTrash else d.gcTrash nowSecs olderThan).map fun r => .ok r.2

def cmdPush (store : ObjectStore) (k : ℕ) (disk : DiskDir) : Option (Except String Drive) :=
  (d.push store k disk 0 []).map fun r => r.1.map fun _ => r.2.drive

/-- The commands that change a loaded drive. -/
def command : Command → Option (Except String Drive)
  | .add content fileName dest => d.cmdAdd content fileName dest
  | .mv src dest => d.cmdMv src dest
  | .rm path => d.cmdRm path
  | .restore nodeId toDir name => d.cmdRestore nodeId toDir name
  | .emptyTrash nowSecs olderThan => d.cmdEmptyTrash nowSecs olderThan
  | .push store k disk => d.cmdPush store k disk
  | .compact => some (.ok d.compact)
  | .init _ | .share .. => some (.ok d)

end Drive

/-! ## Commands are runs of operations -/

namespace Drive

variable {d d' d'' : Drive}

/-- The event is not of another writer. -/
def Event.Local : Event → Prop
  | .exec .. | .compact => True
  | .remoteMove _ | .remoteContent _ => False

theorem Event.Local.plain {e : Event} (h : e.Local) : e.Plain := by
  cases e with
  | remoteMove op => exact h.elim
  | exec | compact | remoteContent => trivial

/-- Events of one writer lead from a drive to another. -/
def LeadsTo (d d' : Drive) : Prop :=
  ∃ es, (∀ e ∈ es, e.Local) ∧ d.performAll es = some d'

theorem LeadsTo.refl (d : Drive) : d.LeadsTo d :=
  ⟨[], fun _ he => absurd he List.not_mem_nil, rfl⟩

theorem LeadsTo.trans (h : d.LeadsTo d') (h' : d'.LeadsTo d'') : d.LeadsTo d'' := by
  obtain ⟨es, hlocal, hes⟩ := h
  obtain ⟨es', hlocal', hes'⟩ := h'
  refine ⟨es ++ es', fun e he => (List.mem_append.1 he).elim (hlocal e) (hlocal' e), ?_⟩
  rw [performAll] at hes hes' ⊢
  rw [List.foldlM_append, hes]
  exact hes'

/-- What a new drive leads to is reached from it. -/
theorem LeadsTo.reachable {name : String} {replica : ReplicaId}
    (h : (init name replica).LeadsTo d) : d.Reachable := by
  obtain ⟨es, -, hes⟩ := h
  exact ⟨name, replica, es, hes⟩

/-- The moves of one writer are plain. -/
theorem LeadsTo.plainLog (h : d.LeadsTo d') (hinv : d.Inv) (hp : d.PlainLog) : d'.PlainLog := by
  obtain ⟨es, hlocal, hes⟩ := h
  exact (Runs.invariant (fun d => d.Inv ∧ d.PlainLog) ⟨hinv, hp⟩ hes fun e hmem _ _ h he =>
    ⟨h.1.perform he, h.2.perform (fun _ => plain_of_validateName) h.1 (hlocal e hmem).plain he⟩).2

/-- An operation whose result the drive is part of. -/
theorem leadsTo_of_exec {α : Type*} {o : Option α} {f : α → Drive × ℕ} {a : α} (ctr : ℕ)
    (op : LocalOp) (hexec : d.exec ctr op = o.map f) (h : o = some a) : d.LeadsTo (f a).1 :=
  ⟨[.exec ctr op], List.forall_mem_singleton.2 trivial,
    performAll_exec (hexec.trans (congrArg (Option.map f) h))⟩

end Drive

namespace PushStep

variable {f g : PushStep}

/-- A step leads from a drive to one that is reached from it. -/
def Moves (f : PushStep) : Prop :=
  ∀ ⦃s r s'⦄, f s = some (r, s') → s.drive.LeadsTo s'.drive

theorem Moves.andThen (hf : f.Moves) (hg : g.Moves) : (f.andThen g).Moves := by
  intro s r s' h
  unfold PushStep.andThen at h
  split at h
  · rename_i s₁ h₁
    exact (hf h₁).trans (hg h)
  · exact hf h

theorem Moves.orError (hf : f.Moves) (e : String) : (f.orError e).Moves := by
  intro s r s' h
  obtain ⟨⟨r₁, s₁⟩, h₁, heq⟩ := Option.map_eq_some_iff.1 h
  obtain ⟨-, rfl⟩ := Prod.mk.inj heq
  exact hf h₁

theorem moves_mkdir (path name : String) : (mkdir path name).Moves := by
  intro s r s' h
  obtain ⟨⟨r₁, d₁, ctr₁⟩, h₁, heq⟩ := Option.map_eq_some_iff.1 h
  obtain ⟨-, rfl⟩ := Prod.mk.inj heq
  exact Drive.leadsTo_of_exec s.ctr (.mkdir path name) rfl h₁

theorem moves_addFile (path name : String) (content : FileContent) :
    (addFile path name content).Moves := by
  intro s r s' h
  obtain ⟨⟨r₁, d₁, ctr₁⟩, h₁, heq⟩ := Option.map_eq_some_iff.1 h
  obtain ⟨-, rfl⟩ := Prod.mk.inj heq
  exact Drive.leadsTo_of_exec s.ctr (.addFile path name content) rfl h₁

theorem moves_rm (path : String) : (rm path).Moves := by
  intro s r s' h
  obtain ⟨⟨r₁, d₁⟩, h₁, heq⟩ := Option.map_eq_some_iff.1 h
  obtain ⟨-, rfl⟩ := Prod.mk.inj heq
  exact Drive.leadsTo_of_exec s.ctr (.rm path) rfl h₁

theorem moves_count (f : PushReport → PushReport) : (count f).Moves := by
  intro s r s' h
  obtain ⟨-, rfl⟩ := Prod.mk.inj (Option.some_injective _ h)
  exact .refl s.drive

theorem moves_done : Moves fun s => some (.ok (), s) := by
  intro s r s' h
  obtain ⟨-, rfl⟩ := Prod.mk.inj (Option.some_injective _ h)
  exact .refl s.drive

theorem moves_ensureComponents (cur : String) (comps : List String) :
    (ensureComponents cur comps).Moves := by
  induction comps generalizing cur with
  | nil => exact moves_done
  | cons comp comps ih =>
    intro s r s' h
    rw [ensureComponents] at h
    dsimp only at h
    split_ifs at h
    · exact (moves_mkdir _ _).andThen (ih _) h
    · exact ih _ h

theorem moves_ensureDirPath (dir : String) : (ensureDirPath dir).Moves := by
  intro s r s' h
  unfold ensureDirPath at h
  split_ifs at h
  · exact moves_done h
  · exact moves_ensureComponents _ _ h

theorem moves_ensureDir (path name : String) : (ensureDir path name).Moves := by
  intro s r s' h
  unfold ensureDir at h
  split_ifs at h
  · exact (moves_ensureDirPath _).andThen (moves_mkdir _ _) h
  · exact moves_done h

theorem moves_pushFile (store : ObjectStore) (path name : String) (file : DiskFile) :
    (pushFile store path name file).Moves := by
  intro s r s' h
  unfold pushFile at h
  dsimp only at h
  split at h
  · obtain ⟨-, rfl⟩ := Prod.mk.inj (Option.some_injective _ h)
    exact .refl s.drive
  · split_ifs at h
    · obtain ⟨-, rfl⟩ := Prod.mk.inj (Option.some_injective _ h)
      exact .refl s.drive
    · have hmoves := (moves_ensureDirPath path).andThen
        (((moves_addFile path name _).orError _).andThen (moves_count _)) h
      exact hmoves

theorem moves_pushDir (store : ObjectStore) (disk : DiskDir) (path : String) :
    (pushDir store disk path).Moves := by
  induction disk generalizing path with
  | nil => exact moves_done
  | file name f rest ih => exact (moves_pushFile store path name f).andThen (ih path)
  | dir name entries rest ihe ihr =>
    exact ((moves_ensureDir path name).andThen (ihe _)).andThen (ihr path)

theorem moves_removeMissing (onDisk paths : List String) : (removeMissing onDisk paths).Moves := by
  induction paths with
  | nil => exact moves_done
  | cons p ps ih =>
    rw [removeMissing]
    split_ifs
    · exact ih
    · exact ((moves_rm p).orError _).andThen ((moves_count _).andThen ih)

theorem moves_removePaths (k : ℕ) (onDisk : List String) : (removePaths k onDisk).Moves := by
  intro s r s' h
  unfold removePaths at h
  split at h
  · cases h
  · exact moves_removeMissing _ _ h

end PushStep

namespace Drive

variable {d d' : Drive}

theorem leadsTo_push {store : ObjectStore} {k : ℕ} {disk : DiskDir} {ctr : ℕ}
    {uploads : List (List UInt8)} {r : Except String PushReport × PushState}
    (h : d.push store k disk ctr uploads = some r) : d.LeadsTo r.2.drive := by
  obtain ⟨⟨r₁, s₁⟩, h₁, rfl⟩ := Option.map_eq_some_iff.1 h
  have hmoves := (PushStep.moves_pushDir store disk "/").andThen (PushStep.moves_removePaths _ _) h₁
  exact hmoves

/-- A command that succeeds leads to a drive that is reached from the one it loads. -/
theorem leadsTo_command {cmd : Command} (h : d.command cmd = some (.ok d')) : d.LeadsTo d' := by
  cases cmd with
  | init identity | share identity o clock =>
    obtain rfl := Except.ok.inj (Option.some_injective _ h)
    exact .refl d
  | add content fileName dest =>
    rw [command, cmdAdd] at h
    split at h
    · cases h
    · rename_i parent name _
      obtain ⟨⟨r, s⟩, hr, heq⟩ := Option.map_eq_some_iff.1 h
      obtain ⟨-, -, rfl⟩ := map_eq_ok heq
      have hmoves := (PushStep.moves_ensureDirPath parent).andThen
        (PushStep.moves_addFile parent name content) hr
      exact hmoves
  | mv src dest =>
    rw [command, cmdMv] at h
    split at h
    · cases h
    · rename_i parent name _
      obtain ⟨⟨r, d₁⟩, hr, heq⟩ := Option.map_eq_some_iff.1 h
      obtain ⟨-, -, rfl⟩ := map_eq_ok heq
      exact leadsTo_of_exec 0 (.mv src parent name) rfl hr
  | rm path =>
    obtain ⟨⟨r, d₁⟩, hr, heq⟩ := Option.map_eq_some_iff.1 h
    obtain ⟨-, -, rfl⟩ := map_eq_ok heq
    exact leadsTo_of_exec 0 (.rm path) rfl hr
  | restore nodeId toDir name =>
    obtain ⟨⟨r, d₁⟩, hr, heq⟩ := Option.map_eq_some_iff.1 h
    obtain ⟨-, -, rfl⟩ := map_eq_ok heq
    exact leadsTo_of_exec 0 (.restore nodeId toDir name) rfl hr
  | emptyTrash nowSecs olderThan =>
    rw [command, cmdEmptyTrash] at h
    obtain ⟨⟨ids, d₁⟩, hr, heq⟩ := Option.map_eq_some_iff.1 h
    obtain rfl := Except.ok.inj heq
    split_ifs at hr
    · exact leadsTo_of_exec 0 .emptyTrash rfl hr
    · exact leadsTo_of_exec 0 (.gcTrash nowSecs olderThan) rfl hr
  | push store k disk =>
    obtain ⟨⟨r, s⟩, hr, heq⟩ := Option.map_eq_some_iff.1 h
    obtain ⟨-, -, rfl⟩ := map_eq_ok heq
    exact leadsTo_push hr
  | compact =>
    obtain rfl := Except.ok.inj (Option.some_injective _ h)
    exact ⟨[.compact], List.forall_mem_singleton.2 trivial, rfl⟩

end Drive

end CeDrive
