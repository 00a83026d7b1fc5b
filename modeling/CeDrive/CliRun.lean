import CeDrive.Commands
import CeDrive.StateFile

/-!
# Runs of the command line

`crates/ce-drive-cli/src/main.rs`. Every command is a process of its own : it loads the state
or the journal, changes it in memory, and saves it, unless it fails. A process may be killed at
any call, and the power may fail between two processes.

On the two files of a drive a command is one step (`Stored.perform`) : whatever happens, they
hold what a run of whole commands leaves. A command takes effect once its file is renamed, and
a power loss takes back the last of the commands since the one before (`TookEffect`).
-/

open Volumes

namespace CeDrive

/-! ## What is loaded and saved -/

/-- What a process may load. -/
structure Stored where
  isThere : Bool
  state : Except String DriveState
  journal : Except String AuditJournal

/-- What a process saves. -/
inductive Save
  | state (s : DriveState)
  | journal (j : AuditJournal)

/-- What is loaded after a save. -/
def Stored.put (s : Stored) : Save → Stored
  | .state st => { s with isThere := true, state := .ok st }
  | .journal j => { s with journal := .ok j }

def Paths.cmdInit (C : Codec) (p : Paths) (s : Stored) (identity : List UInt8) :
    Option (Except String Save) :=
  if s.isThere then
    some (.error ("drive '" ++ p.name ++ "' already exists at " ++ p.stateFile.display))
  else some (.ok (.state (Drive.init p.name (Workspace.mk C.ids identity).rootIdHex).state))

def Stored.cmdShare (C : Codec) (s : Stored) (identity : List UInt8) (o : ShareOptions)
    (clock : ℕ × ℕ × ℕ) : Option (Except String Save) :=
  match s.state with
  | .error e => some (.error e)
  | .ok st =>
    if (Drive.fromState st).tree.resolve o.path = none then
      some (.error ("no such path in drive: " ++ o.path))
    else ((Workspace.mk C.ids identity).share o clock).map fun r =>
      r.bind fun record => s.journal.map fun j => .journal (j.recordGrant record)

/-- What a command saves, given what it may load. -/
def Paths.save (C : Codec) (p : Paths) (s : Stored) : Command → Option (Except String Save)
  | .init identity => p.cmdInit C s identity
  | .share identity o clock => s.cmdShare C identity o clock
  | cmd =>
    match s.state with
    | .error e => some (.error e)
    | .ok st => ((Drive.fromState st).command cmd).map fun r => r.map fun d => .state d.state

/-! ## Processes -/

def Codec.encode (C : Codec) : Save → Except String Bytes
  | .state s => C.encodeState s
  | .journal j => C.encodeJournal j

/-- A process that may be killed, or a power loss. -/
inductive CliEvent
  | run (cmd : Command) (killed : Option (ℕ × Bytes))
  | powerLoss (k : ℕ) (junk : ℕ → Bytes)

namespace Paths

variable (C : Codec) (p : Paths) (v : DataDir)

/-- What can be loaded from the disk. -/
def stored (read : OsPath → Option Bytes) : Stored :=
  ⟨p.isThere read, p.loadState C read, p.loadJournal C read⟩

def calls (bytes : Bytes) : Save → List (Volumes.Call OsPath Bytes)
  | .state _ => p.saveCalls v bytes
  | .journal _ => p.saveJournalCalls bytes

def perform : CliEvent → DataDir
  | .run cmd killed =>
    match p.save C (p.stored C v.read) cmd with
    | some (.ok s) =>
      match C.encode s with
      | .ok bytes => v.applyAll (Volumes.cut (p.calls v bytes s) killed)
      | .error _ => v
    | _ => v
  | .powerLoss k junk => v.powerLoss k junk

def performAll (es : List CliEvent) : DataDir :=
  es.foldl (perform C p) v

end Paths

/-- A command as one step. -/
def Stored.perform (C : Codec) (p : Paths) (s : Stored) (cmd : Command) : Stored :=
  match p.save C s cmd with
  | some (.ok new) =>
    match C.encode new with
    | .ok _ => s.put new
    | .error _ => s
  | _ => s

/-! ## A save is one step -/

open Classical in
/-- Read a kept path. -/
noncomputable def reader (w : {q // Kept q} → Option Bytes) (q : OsPath) : Option Bytes :=
  if h : Kept q then w ⟨q, h⟩ else none

theorem reader_of_kept {w : {q // Kept q} → Option Bytes} {q : OsPath} (h : Kept q) :
    reader w q = w ⟨q, h⟩ :=
  dif_pos h

namespace Paths

section Stored

variable (C : Codec) {p : Paths} {read read' : OsPath → Option Bytes}

/-- Only the three files are read. -/
theorem stored_congr (hs : read p.stateFile = read' p.stateFile)
    (hl : read p.legacyJson = read' p.legacyJson) (hj : read p.journalFile = read' p.journalFile) :
    p.stored C read = p.stored C read' := by
  rw [stored, stored, isThere, isThere, loadState, loadState, loadJournal, loadJournal, hs, hl, hj]

/-- With a new state file the state is that of the file. -/
theorem stored_state {st : DriveState} {bytes : Bytes} (henc : C.encodeState st = .ok bytes)
    (hs : read' p.stateFile = some bytes) (hj : read' p.journalFile = read p.journalFile) :
    p.stored C read' = (p.stored C read).put (.state st) := by
  simp only [stored, isThere, loadState, loadJournal, hs, hj, Option.isSome_some, Bool.true_or,
    C.decodeState_of_encodeState henc]
  rfl

theorem stored_journal {j : AuditJournal} {bytes : Bytes} (henc : C.encodeJournal j = .ok bytes)
    (hs : read' p.stateFile = read p.stateFile) (hl : read' p.legacyJson = read p.legacyJson)
    (hj : read' p.journalFile = some bytes) :
    p.stored C read' = (p.stored C read).put (.journal j) := by
  simp only [stored, isThere, loadState, loadJournal, hs, hl, hj,
    C.decodeJournal_of_encodeJournal henc]
  rfl

end Stored

variable (C : Codec) (base : OsPath) (name : String) {v : DataDir}

/-- What can be loaded if the kept paths hold `w`. -/
noncomputable def storedOf (p : Paths) (w : {q // Kept q} → Option Bytes) : Stored :=
  p.stored C (reader w)

theorem storedOf_view (v : DataDir) :
    (resolve base name).storedOf C (view Kept v v.dir) = (resolve base name).stored C v.read :=
  stored_congr C (reader_of_kept (kept_stateFile base name))
    (reader_of_kept (kept_legacyJson base name)) (reader_of_kept (kept_journalFile base name))

/-- Once the state file is there, the file of an earlier version is not read. -/
theorem storedOf_remove {w : {q // Kept q} → Option Bytes}
    (hw : (w ⟨(resolve base name).stateFile, kept_stateFile base name⟩).isSome = true) :
    (resolve base name).storedOf C
        (fun x => if (x : OsPath) = (resolve base name).legacyJson then none else w x) =
      (resolve base name).storedOf C w := by
  have hs := kept_stateFile base name
  have hj := kept_journalFile base name
  obtain ⟨b, hb⟩ := Option.isSome_iff_exists.1 hw
  have hstate : reader w (resolve base name).stateFile = some b := (reader_of_kept hs).trans hb
  have hstate' : reader (fun x : {x // Kept x} =>
      if (x : OsPath) = (resolve base name).legacyJson then none else w x)
      (resolve base name).stateFile = some b := by
    rw [reader_of_kept hs, if_neg (stateFile_ne_legacyJson base name)]
    exact hb
  have hjournal : reader (fun x : {x // Kept x} =>
      if (x : OsPath) = (resolve base name).legacyJson then none else w x)
      (resolve base name).journalFile = reader w (resolve base name).journalFile := by
    rw [reader_of_kept hj, reader_of_kept hj, if_neg (legacyJson_ne_journalFile base name).symm]
  simp only [storedOf, stored, isThere, loadState, loadJournal, hstate, hstate', hjournal,
    Option.isSome_some, Bool.true_or]

/-- The process is killed before the file is renamed. -/
def Early (killed : Option (ℕ × Bytes)) : Prop :=
  ∃ k torn, killed = some (k, torn) ∧ k < 4

/-- A save replaces the file, unless it is killed early. -/
theorem views_save (h : Safe Kept v) {s : Save} {bytes : Bytes} (henc : C.encode s = .ok bytes)
    (killed : Option (ℕ × Bytes)) :
    let p := resolve base name
    let v' := v.applyAll (Volumes.cut (p.calls v bytes s) killed)
    Safe Kept v' ∧ ∃ n m, (views Kept v').map (p.storedOf C) =
        List.replicate n ((p.stored C v.read).put s) ++
          (List.replicate m (p.stored C v.read) ++ (views Kept v).map (p.storedOf C)) ∧
      (n = 0 ↔ Early killed) := by
  intro p v'
  have hs := kept_stateFile base name
  have hl := kept_legacyJson base name
  have hj := kept_journalFile base name
  have hsl := stateFile_ne_legacyJson base name
  have hsj := stateFile_ne_journalFile base name
  have hlj := legacyJson_ne_journalFile base name
  cases s with
  | state st =>
    have hnew : p.storedOf C (Function.update (view Kept v v.dir) ⟨p.stateFile, hs⟩ (some bytes)) =
        (p.stored C v.read).put (.state st) := by
      rw [← storedOf_view]
      refine stored_state C henc ?_ ?_
      · rw [reader_of_kept hs, Function.update_self]
      · rw [reader_of_kept hj, reader_of_kept hj,
          Function.update_of_ne fun heq => hsj (congrArg Subtype.val heq).symm]
    have hne : p.stateFile ∉ if (v.read p.legacyJson).isSome then [p.legacyJson] else [] := by
      split_ifs
      · exact fun hmem => hsl (List.mem_singleton.1 hmem)
      · exact List.not_mem_nil
    have hold : ∀ w : {q // Kept q} → Option Bytes, (w ⟨p.stateFile, hs⟩).isSome = true →
        ∀ q ∈ (if (v.read p.legacyJson).isSome then [p.legacyJson] else []),
          p.storedOf C (fun x => if (x : OsPath) = q then none else w x) = p.storedOf C w := by
      intro w hw q hq
      have hql : q = p.legacyJson := by
        split_ifs at hq
        · exact List.mem_singleton.1 hq
        · cases hq
      exact hql ▸ storedOf_remove C base name hw
    obtain ⟨hsafe, n, m, heq, hiff⟩ := h.replace hs (p.storedOf C) (not_kept_tmp_state base name) []
      bytes hne hold killed
    rw [hnew, storedOf_view] at heq
    exact ⟨hsafe, n, m, heq, hiff⟩
  | journal j =>
    have hnew :
        p.storedOf C (Function.update (view Kept v v.dir) ⟨p.journalFile, hj⟩ (some bytes)) =
          (p.stored C v.read).put (.journal j) := by
      rw [← storedOf_view]
      refine stored_journal C henc ?_ ?_ ?_
      · rw [reader_of_kept hs, reader_of_kept hs,
          Function.update_of_ne fun heq => hsj (congrArg Subtype.val heq)]
      · rw [reader_of_kept hl, reader_of_kept hl,
          Function.update_of_ne fun heq => hlj (congrArg Subtype.val heq)]
      · rw [reader_of_kept hj, Function.update_self]
    have hnone : p.journalFile ∉ ([] : List OsPath) := List.not_mem_nil
    obtain ⟨hsafe, n, m, heq, hiff⟩ := h.replace hj (p.storedOf C)
      (not_kept_tmp_journal base name) [] bytes hnone (fun _ _ q hq => absurd hq List.not_mem_nil) killed
    rw [hnew, storedOf_view, List.map_nil, List.append_nil] at heq
    rw [List.map_nil, List.append_nil] at hsafe
    exact ⟨hsafe, n, m, heq, hiff⟩

/-- What can be loaded after a save, and after a power loss that follows it. -/
structure Saved (p : Paths) (v v' : DataDir) (new : Save) (killed : Option (ℕ × Bytes)) : Prop where
  safe : Safe Kept v'
  early : Early killed → p.stored C v'.read = p.stored C v.read
  late : ¬Early killed → p.stored C v'.read = (p.stored C v.read).put new
  back : ∀ w ∈ views Kept v', (¬Early killed ∧ p.storedOf C w = (p.stored C v.read).put new) ∨
    ∃ w' ∈ views Kept v, p.storedOf C w = p.storedOf C w'

theorem saved (h : Safe Kept v) {new : Save} {bytes : Bytes} (henc : C.encode new = .ok bytes)
    (killed : Option (ℕ × Bytes)) : Saved C (resolve base name) v
      (v.applyAll (Volumes.cut ((resolve base name).calls v bytes new) killed)) new killed := by
  obtain ⟨hsafe, n, m, hviews, hiff⟩ := views_save C base name h henc killed
  generalize hv' : v.applyAll (Volumes.cut ((resolve base name).calls v bytes new) killed) = v' at *
  have hhead (v : DataDir) : ((views Kept v).map ((resolve base name).storedOf C)).head? =
      some ((resolve base name).stored C v.read) := congrArg some (storedOf_view C base name v)
  have hafter := hhead v'
  rw [hviews] at hafter
  refine ⟨hsafe, fun hk => ?_, fun hk => ?_, fun w hw => ?_⟩
  · rw [hiff.2 hk, List.replicate_zero, List.nil_append] at hafter
    cases m with
    | zero => exact Option.some_injective _ (hafter.symm.trans (hhead v))
    | succ m => exact (Option.some_injective _ hafter).symm
  · cases n with
    | zero => exact absurd (hiff.1 rfl) hk
    | succ n => exact (Option.some_injective _ hafter).symm
  · have hmem : (resolve base name).storedOf C w ∈
        (views Kept v').map ((resolve base name).storedOf C) := List.mem_map_of_mem hw
    rw [hviews] at hmem
    rcases List.mem_append.1 hmem with hmem | hmem
    · obtain ⟨hn, heq⟩ := List.mem_replicate.1 hmem
      exact Or.inl ⟨mt hiff.2 hn, heq⟩
    · refine Or.inr ?_
      rcases List.mem_append.1 hmem with hmem | hmem
      · exact ⟨_, List.mem_map_of_mem v.mem_dirs_self,
          (List.mem_replicate.1 hmem).2.trans (storedOf_view C base name v).symm⟩
      · obtain ⟨w', hw', heq⟩ := List.mem_map.1 hmem
        exact ⟨w', hw', heq.symm⟩

end Paths

/-! ## Runs -/

/-- After the events the commands `durable` and `since` took effect, and a power loss may take
back the last of `since`. -/
inductive TookEffect : List CliEvent → List Command → List Command → Prop
  | nil : TookEffect [] [] []
  | early {es : List CliEvent} {durable since : List Command} (cmd : Command)
      {killed : Option (ℕ × Bytes)} (h : TookEffect es durable since) (hk : Paths.Early killed) :
      TookEffect (es ++ [.run cmd killed]) durable since
  | run {es : List CliEvent} {durable since : List Command} (cmd : Command)
      {killed : Option (ℕ × Bytes)} (h : TookEffect es durable since) (hk : ¬Paths.Early killed) :
      TookEffect (es ++ [.run cmd killed]) durable (since ++ [cmd])
  | powerLoss {es : List CliEvent} {durable since kept : List Command} (k : ℕ) (junk : ℕ → Bytes)
      (h : TookEffect es durable since) (hk : kept <+: since) :
      TookEffect (es ++ [.powerLoss k junk]) (durable ++ kept) []

namespace Paths

variable (C : Codec) (base : OsPath) (name : String) {v₀ v : DataDir}

/-- What a run of whole commands leaves. -/
def ran (s : Stored) (cmds : List Command) : Stored :=
  cmds.foldl (Stored.perform C (resolve base name)) s

/-- What can be loaded is what the commands leave, and in a directory that a power loss may
give back it is what the durable ones leave and some of the later. -/
structure Follows (s : Stored) (v : DataDir) (durable since : List Command) : Prop where
  safe : Safe Kept v
  now : (resolve base name).stored C v.read = ran C base name s (durable ++ since)
  back : ∀ w ∈ views Kept v, ∃ kept, kept <+: since ∧
    (resolve base name).storedOf C w = ran C base name s (durable ++ kept)

variable {s : Stored} {durable since : List Command}

/-- A command saves something, or leaves the disk as it is. -/
theorem perform_run (p : Paths) (v : DataDir) (cmd : Command) (killed : Option (ℕ × Bytes)) :
    (p.perform C v (.run cmd killed) = v ∧
        (p.stored C v.read).perform C p cmd = p.stored C v.read) ∨
      ∃ new bytes, C.encode new = .ok bytes ∧
        p.perform C v (.run cmd killed) = v.applyAll (Volumes.cut (p.calls v bytes new) killed) ∧
        (p.stored C v.read).perform C p cmd = (p.stored C v.read).put new := by
  unfold perform Stored.perform
  dsimp only
  split
  · rename_i new hsave
    cases henc : C.encode new with
    | error e => exact Or.inl ⟨rfl, rfl⟩
    | ok bytes => exact Or.inr ⟨new, bytes, henc, rfl, rfl⟩
  · exact Or.inl ⟨rfl, rfl⟩

/-- A command that is killed early has no effect. -/
theorem Follows.early (h : Follows C base name s v durable since) (cmd : Command)
    {killed : Option (ℕ × Bytes)} (hk : Early killed) :
    Follows C base name s ((resolve base name).perform C v (.run cmd killed)) durable since := by
  obtain ⟨hv, -⟩ | ⟨new, bytes, henc, hv, -⟩ := perform_run C (resolve base name) v cmd killed
  · exact hv.symm ▸ h
  · have hs := saved C base name h.safe henc killed
    rw [← hv] at hs
    refine ⟨hs.safe, (hs.early hk).trans h.now, fun w hw => ?_⟩
    obtain ⟨hlate, -⟩ | ⟨w', hw', heq⟩ := hs.back w hw
    · exact absurd hk hlate
    · obtain ⟨kept, hkept, hw'⟩ := h.back w' hw'
      exact ⟨kept, hkept, heq.trans hw'⟩

/-- A command that is not killed early is done. -/
theorem Follows.run (h : Follows C base name s v durable since) (cmd : Command)
    {killed : Option (ℕ × Bytes)} (hk : ¬Early killed) : Follows C base name s
      ((resolve base name).perform C v (.run cmd killed)) durable (since ++ [cmd]) := by
  have hran : ran C base name s (durable ++ (since ++ [cmd])) =
      ((resolve base name).stored C v.read).perform C (resolve base name) cmd := by
    rw [h.now, ran, ran, ← List.append_assoc, List.foldl_append]
    rfl
  have hold : ∀ w ∈ views Kept v, ∃ kept, kept <+: since ++ [cmd] ∧
      (resolve base name).storedOf C w = ran C base name s (durable ++ kept) := fun w hw =>
    have ⟨kept, hkept, heq⟩ := h.back w hw
    ⟨kept, hkept.trans (List.prefix_append ..), heq⟩
  obtain ⟨hv, hsame⟩ | ⟨new, bytes, henc, hv, hput⟩ :=
    perform_run C (resolve base name) v cmd killed
  · rw [hv]
    exact ⟨h.safe, hsame.symm.trans hran.symm, hold⟩
  · have hs := saved C base name h.safe henc killed
    rw [← hv] at hs
    refine ⟨hs.safe, (hs.late hk).trans (hput.symm.trans hran.symm), fun w hw => ?_⟩
    obtain ⟨-, heq⟩ | ⟨w', hw', heq⟩ := hs.back w hw
    · exact ⟨since ++ [cmd], List.prefix_rfl, heq.trans (hput.symm.trans hran.symm)⟩
    · obtain ⟨kept, hkept, hw'⟩ := hold w' hw'
      exact ⟨kept, hkept, heq.trans hw'⟩

/-- A power loss takes back the last commands. -/
theorem Follows.powerLoss (h : Follows C base name s v durable since) (k : ℕ) (junk : ℕ → Bytes) :
    ∃ kept, kept <+: since ∧ Follows C base name s (v.powerLoss k junk) (durable ++ kept) [] := by
  obtain ⟨hsafe, w, hw, hviews⟩ := h.safe.powerLoss k junk
  obtain ⟨kept, hkept, heq⟩ := h.back w hw
  have hview : view Kept (v.powerLoss k junk) (v.powerLoss k junk).dir = w :=
    (List.cons.inj hviews).1
  refine ⟨kept, hkept, hsafe, ?_, fun w' hw' => ⟨[], List.prefix_rfl, ?_⟩⟩
  · rw [← storedOf_view, hview, heq, List.append_nil]
  · rw [hviews, List.mem_singleton] at hw'
    rw [hw', heq, List.append_nil]

theorem follows_performAll (h : Safe Kept v) (hpast : v.past = []) (es : List CliEvent) :
    ∃ durable since, TookEffect es durable since ∧ Follows C base name
      ((resolve base name).stored C v.read) ((resolve base name).performAll C v es) durable since := by
  induction es using List.reverseRecOn with
  | nil =>
    refine ⟨[], [], .nil, h, rfl, fun w hw => ⟨[], List.prefix_rfl, ?_⟩⟩
    change w ∈ views Kept v at hw
    rw [views, Volume.dirs, hpast, List.map_singleton, List.mem_singleton] at hw
    rw [hw]
    exact storedOf_view C base name v
  | append_singleton es e ih =>
    obtain ⟨durable, since, htook, hfollows⟩ := ih
    have hlast : (resolve base name).performAll C v (es ++ [e]) =
        (resolve base name).perform C ((resolve base name).performAll C v es) e := by
      rw [performAll, List.foldl_append]
      rfl
    rw [hlast]
    cases e with
    | run cmd killed =>
      by_cases hk : Early killed
      · exact ⟨durable, since, htook.early cmd hk, hfollows.early C base name cmd hk⟩
      · exact ⟨durable, since ++ [cmd], htook.run cmd hk, hfollows.run C base name cmd hk⟩
    | powerLoss k junk =>
      obtain ⟨kept, hkept, hloss⟩ := hfollows.powerLoss C base name k junk
      exact ⟨durable ++ kept, [], htook.powerLoss k junk hkept, hloss⟩

/-- A run of processes, killed at any call, with power losses between them, leaves what a run of
whole commands leaves : of those that were not killed before their rename, all since the last
power loss, and of those before a power loss all but some of the last. -/
theorem exists_tookEffect (h : Safe Kept v) (hpast : v.past = []) (es : List CliEvent) :
    ∃ durable since, TookEffect es durable since ∧
      (resolve base name).stored C ((resolve base name).performAll C v es).read =
        (durable ++ since).foldl (Stored.perform C (resolve base name))
          ((resolve base name).stored C v.read) := by
  obtain ⟨durable, since, htook, hfollows⟩ := follows_performAll C base name h hpast es
  exact ⟨durable, since, htook, hfollows.now⟩

/-- A new drive, a command that is killed while it writes, and a power loss that takes the drive
back. -/
theorem exists_tookEffect_killed :
    let C := Codec.table [(Drive.init "d" "aa").state] []
    let p := resolve (OsPath.ofString "/data") "d"
    let es := [.run (.init [0xaa]) none, .run .compact (some (1, [0])), .powerLoss 2 fun _ => []]
    ∃ durable since, TookEffect es durable since ∧
      p.stored C (p.performAll C (Volume.empty []) es).read =
        (durable ++ since).foldl (Stored.perform C p) (p.stored C fun _ => none) :=
  exists_tookEffect _ _ _ (safe_empty Kept []) rfl _

end Paths

/-! ## What is loaded -/

/-- A command saves a new drive, a journal with one more grant, or the drive it made of the one
it loaded. -/
theorem save_eq_ok {C : Codec} {p : Paths} {s : Stored} {cmd : Command} {new : Save}
    (h : p.save C s cmd = some (.ok new)) :
    (∃ identity, s.isThere = false ∧
      new = .state (Drive.init p.name (Workspace.mk C.ids identity).rootIdHex).state) ∨
    (∃ identity o clock record j, (Workspace.mk C.ids identity).share o clock = some (.ok record) ∧
      s.journal = .ok j ∧ new = .journal (j.recordGrant record)) ∨
    ∃ st d, s.state = .ok st ∧ (Drive.fromState st).command cmd = some (.ok d) ∧
      new = .state d.state := by
  cases cmd with
  | init identity =>
    rw [Paths.save, Paths.cmdInit] at h
    split_ifs at h with hthere
    · cases Option.some_injective _ h
    · exact Or.inl ⟨identity, Bool.eq_false_iff.2 hthere,
        (Except.ok.inj (Option.some_injective _ h)).symm⟩
  | share identity o clock =>
    rw [Paths.save, Stored.cmdShare] at h
    split at h
    · cases Option.some_injective _ h
    · split_ifs at h
      · cases Option.some_injective _ h
      · obtain ⟨r, hshare, hr⟩ := Option.map_eq_some_iff.1 h
        cases r with
        | error e => cases hr
        | ok record =>
          obtain ⟨j, hj, rfl⟩ := map_eq_ok hr
          exact Or.inr (Or.inl ⟨identity, o, clock, record, j, hshare, hj, rfl⟩)
  | add | mv | rm | restore | emptyTrash | push | compact =>
    simp only [Paths.save] at h
    split at h
    · cases Option.some_injective _ h
    · rename_i st hst
      obtain ⟨r, hr, heq⟩ := Option.map_eq_some_iff.1 h
      obtain ⟨d, rfl, rfl⟩ := map_eq_ok heq
      exact Or.inr (Or.inr ⟨st, d, hst, hr, rfl⟩)

/-- No drive and an empty journal, or a drive that a new one leads to. A link of the journal lets
read or comment. -/
structure Sound (C : Codec) (p : Paths) (s : Stored) : Prop where
  state : (s.isThere = false ∧ s.state = .error p.notFound) ∨
    s.isThere = true ∧ ∃ st identity, s.state = .ok st ∧
      (Drive.init p.name (Workspace.mk C.ids identity).rootIdHex).LeadsTo (Drive.fromState st)
  journal : ∃ j, s.journal = .ok j ∧ j.revokes = [] ∧
    ∀ g ∈ j.grants, g.isLink = true → g.ability = .read ∨ g.ability = .comment

namespace Sound

variable {C : Codec} {p : Paths} {s : Stored}

/-- A new drive leads to what a command saves of one. -/
theorem leadsTo_save (h : Sound C p s) {cmd : Command} {st : DriveState}
    (hs : p.save C s cmd = some (.ok (.state st))) : ∃ identity,
      (Drive.init p.name (Workspace.mk C.ids identity).rootIdHex).LeadsTo (Drive.fromState st) := by
  obtain ⟨identity, -, heq⟩ | ⟨_, _, _, _, _, -, -, heq⟩ | ⟨st₀, d, hst₀, hcmd, heq⟩ :=
    save_eq_ok hs
  · obtain rfl := Save.state.inj heq
    refine ⟨identity, ?_⟩
    rw [(Drive.inv_init _ _).fromState_eq]
    exact .refl _
  · cases heq
  · obtain rfl := Save.state.inj heq
    obtain ⟨-, hno⟩ | ⟨-, st₁, identity, hst₁, hlead⟩ := h.state
    · rw [hno] at hst₀
      cases hst₀
    · obtain rfl := Except.ok.inj (hst₀.symm.trans hst₁)
      have hd := hlead.trans (Drive.leadsTo_command hcmd)
      refine ⟨identity, ?_⟩
      rw [hd.reachable.inv.fromState_eq]
      exact hd

theorem journal_save (h : Sound C p s) {cmd : Command} {j : AuditJournal}
    (hs : p.save C s cmd = some (.ok (.journal j))) : j.revokes = [] ∧
      ∀ g ∈ j.grants, g.isLink = true → g.ability = .read ∨ g.ability = .comment := by
  obtain ⟨identity, -, heq⟩ | ⟨identity, o, clock, record, j₀, hshare, hj₀, heq⟩ |
    ⟨_, _, -, -, heq⟩ := save_eq_ok hs
  · cases heq
  · obtain rfl := Save.journal.inj heq
    obtain ⟨j₁, hj₁, hrevokes, hgrants⟩ := h.journal
    obtain rfl := Except.ok.inj (hj₀.symm.trans hj₁)
    refine ⟨hrevokes, fun g hg => ?_⟩
    rcases List.mem_append.1 hg with hg | hg
    · exact hgrants g hg
    · rw [List.mem_singleton.1 hg]
      exact (share_eq hshare).1
  · cases heq

theorem perform (h : Sound C p s) (cmd : Command) : Sound C p (s.perform C p cmd) := by
  unfold Stored.perform
  split
  · rename_i new hs
    split
    · cases new with
      | state st =>
        obtain ⟨identity, hlead⟩ := h.leadsTo_save hs
        exact ⟨Or.inr ⟨rfl, st, identity, rfl, hlead⟩, h.journal⟩
      | journal j =>
        exact ⟨h.state, j, rfl, h.journal_save hs⟩
    · exact h
  · exact h

end Sound

namespace Paths

variable (C : Codec) (base : OsPath) (name : String)

theorem sound_ran {s : Stored} (h : Sound C (resolve base name) s) (cmds : List Command) :
    Sound C (resolve base name) (ran C base name s cmds) := by
  induction cmds generalizing s with
  | nil => exact h
  | cons cmd cmds ih => exact ih (h.perform cmd)

theorem sound_performAll (es : List CliEvent) : Sound C (resolve base name)
    ((resolve base name).stored C ((resolve base name).performAll C (Volume.empty []) es).read) := by
  have hempty : Sound C (resolve base name)
      ((resolve base name).stored C (Volume.empty [] : DataDir).read) :=
    ⟨Or.inl ⟨rfl, rfl⟩, .new, rfl, rfl, fun g hg => absurd hg List.not_mem_nil⟩
  obtain ⟨durable, since, -, hfollows⟩ :=
    follows_performAll C base name (safe_empty Kept []) rfl es
  rw [hfollows.now]
  exact sound_ran C base name hempty (durable ++ since)

/-- In a directory that was empty once, a process finds no drive, or it loads one that is
reached from a new one by operations of a drive : whatever was killed and whenever the power
failed, a state file is never one that does not decode. The journal loads, and its share links
let read or comment. -/
theorem loads_reachable (es : List CliEvent) :
    let p := resolve base name
    let read := (p.performAll C (Volume.empty []) es).read
    ((p.isThere read = false ∧ p.loadState C read = .error p.notFound) ∨
      p.isThere read = true ∧ ∃ st, p.loadState C read = .ok st ∧ (Drive.fromState st).Reachable) ∧
    ∃ j, p.loadJournal C read = .ok j ∧ j.revokes = [] ∧
      ∀ g ∈ j.grants, g.isLink = true → g.ability = .read ∨ g.ability = .comment := by
  intro p read
  have hsound := sound_performAll C base name es
  refine ⟨?_, hsound.journal⟩
  obtain hno | ⟨hthere, st, identity, hst, hlead⟩ := hsound.state
  · exact Or.inl hno
  · exact Or.inr ⟨hthere, st, hst, hlead.reachable⟩

end Paths

end CeDrive
