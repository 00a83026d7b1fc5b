import CeDrive.Disk
import CeDrive.Materialize

/-!
# What calls leave on the disk

The calls of a walk change the directory `out` stands for. `afterCalls` is what an empty
directory holds when all of them have succeeded : every file has the bytes last written to its
place (`look_afterCalls_file`), and a directory stands where the path of a made one passes
(`look_afterCalls_dir`). A call outside `out` leaves it as it is. The mode and the mtime of a
written file are the system's.
-/

namespace CeDrive

/-- The place below `root` that is at `loc`. -/
def inside? (root loc : List String) : Option (List String) :=
  loc.dropPrefix? root

theorem inside?_eq_some {root loc q : List String} : inside? root loc = some q ↔ loc = root ++ q := by
  unfold inside?
  rw [List.dropPrefix?_eq_some_iff]
  constructor
  · rintro ⟨root', rfl, hroot⟩
    rw [eq_of_beq hroot]
  · rintro rfl
    exact ⟨root, rfl, beq_self_eq_true root⟩

namespace DiskDir

/-- Make the directories that are missing, one after the other. -/
def makeDirs (root : List String) (D : DiskDir) (locs : List (List String)) : Option DiskDir :=
  locs.foldlM (fun D loc =>
    match inside? root loc with
    | some q => D.place none q
    | none => some D) D

/-- A place outside `root`, or a directory. -/
def standsDir (root : List String) (D : DiskDir) (loc : List String) : Bool :=
  match inside? root loc with
  | some q => D.look q = some none
  | none => true

end DiskDir

/-- What a call that succeeds makes of the directory at `root`. -/
def DiskCall.perform (cwd root : List String) (mode mtimeMs : ℕ) (D : DiskDir) :
    DiskCall → Option DiskDir
  | .createDirAll path => D.makeDirs root (path.stations cwd)
  | .write path bytes =>
    if (path.stations cwd).dropLast.all (D.standsDir root) then
      match inside? root (path.location cwd) with
      | some q => D.place (some ⟨bytes, mode, mtimeMs⟩) q
      | none => some D
    else none

/-- What a directory is after more calls. `stamp` gives the mode and the mtime. -/
def runCalls (cwd root : List String) (stamp : List DiskCall → ℕ × ℕ) :
    List DiskCall → List DiskCall → DiskDir → Option DiskDir
  | _, [], D => some D
  | done, c :: calls, D =>
    (c.perform cwd root (stamp done).1 (stamp done).2 D).bind
      (runCalls cwd root stamp (done ++ [c]) calls)

/-- What an empty directory is after the calls. -/
def afterCalls (cwd root : List String) (stamp : List DiskCall → ℕ × ℕ) (calls : List DiskCall) :
    Option DiskDir :=
  runCalls cwd root stamp [] calls .nil

/-- The bytes a call writes to a place. -/
def DiskCall.bytesAt (cwd loc : List String) : DiskCall → Option (List UInt8)
  | .createDirAll _ => none
  | .write path bytes => if path.location cwd = loc then some bytes else none

/-- The bytes last written to a place. -/
def lastWrite (cwd loc : List String) : List DiskCall → Option (List UInt8)
  | [] => none
  | c :: calls => (lastWrite cwd loc calls).or (c.bytesAt cwd loc)

/-- The call makes the directories a path passes, and this place is one. -/
def DiskCall.Passes (cwd loc : List String) (c : DiskCall) : Prop :=
  ∃ path, c = .createDirAll path ∧ loc ∈ path.stations cwd

variable {cwd root : List String} {mode mtimeMs : ℕ} {stamp : List DiskCall → ℕ × ℕ}
  {D D' : DiskDir} {done calls : List DiskCall} {c : DiskCall} {q : List String}

namespace DiskDir

/-- The bytes of the file at a place. -/
def bytesAt (D : DiskDir) (q : List String) : Option (List UInt8) :=
  (D.look q).join.map DiskFile.bytes

theorem look_of_place_dir (h : D.place none q = some D') (f : DiskFile) :
    D.look q ≠ some (some f) := by
  induction q generalizing D D' with
  | nil => simp [look]
  | cons x q ih =>
    rw [place] at h
    rw [look]
    split at h
    · simp
    · simp at h
    · rename_i entries hx
      obtain ⟨entries', he, -⟩ := Option.map_eq_some_iff.1 h
      simpa [hx] using ih he

theorem look_of_place_file {f : DiskFile} (h : D.place (some f) q = some D') :
    D.look q ≠ some none := by
  induction q generalizing D D' with
  | nil => simp [place] at h
  | cons x q ih =>
    rw [place] at h
    rw [look]
    split at h
    · simp
    · split_ifs at h with hq
      simp [hq.1]
    · rename_i entries hx
      obtain ⟨entries', he, -⟩ := Option.map_eq_some_iff.1 h
      simpa [hx] using ih he

/-- Made directories : no file changes. -/
theorem makeDirs_spec {locs : List (List String)} (h : D.makeDirs root locs = some D') :
    D'.bytesAt q = D.bytesAt q ∧
      (D'.look q = some none ↔ D.look q = some none ∨ root ++ q ∈ locs) := by
  induction locs generalizing D with
  | nil =>
    obtain rfl := Option.some_injective _ h
    simp
  | cons loc locs ih =>
    rw [makeDirs, List.foldlM_cons] at h
    obtain ⟨D₁, h₁, h⟩ := Option.bind_eq_some_iff.1 h
    obtain ⟨hbytes, hdir⟩ := ih h
    rw [hbytes, hdir]
    split at h₁
    · rename_i q₁ hq₁
      obtain rfl := inside?_eq_some.1 hq₁
      have hlook := look_place h₁ q
      have hfile := look_of_place_dir h₁
      by_cases hq : q = q₁
      · subst hq
        rw [bytesAt, bytesAt, hlook, if_pos rfl]
        refine ⟨?_, by simp⟩
        rcases hold : D.look q with _ | _ | f
        · rfl
        · rfl
        · exact absurd hold (hfile f)
      · rw [bytesAt, bytesAt, hlook, if_neg hq]
        simp [hq]
    · rename_i hout
      obtain rfl := Option.some_injective _ h₁
      have hne : root ++ q ≠ loc := fun heq => by
        rw [inside?_eq_some.2 heq.symm] at hout
        cases hout
      simp [hne]

end DiskDir

/-- What one call changes. -/
theorem DiskCall.perform_spec (h : c.perform cwd root mode mtimeMs D = some D') :
    D'.bytesAt q = (c.bytesAt cwd (root ++ q)).or (D.bytesAt q) ∧
      (D'.look q = some none ↔ D.look q = some none ∨ c.Passes cwd (root ++ q)) := by
  cases c with
  | createDirAll path =>
    obtain ⟨hbytes, hdir⟩ := DiskDir.makeDirs_spec (q := q) h
    rw [hbytes, hdir]
    simp [DiskCall.bytesAt, Passes]
  | write path bytes =>
    rw [perform] at h
    split_ifs at h
    have hpasses : ¬Passes cwd (root ++ q) (.write path bytes) := by simp [Passes]
    split at h
    · rename_i q₁ hq₁
      have hloc := inside?_eq_some.1 hq₁
      have hlook := DiskDir.look_place h q
      have hdir := DiskDir.look_of_place_file h
      by_cases hq : q = q₁
      · subst hq
        rw [DiskDir.bytesAt, hlook, if_pos rfl]
        simp [DiskCall.bytesAt, hloc, hdir, hpasses]
      · have hne : path.location cwd ≠ root ++ q := fun heq =>
          hq (List.append_cancel_left (hloc.symm.trans heq)).symm
        rw [DiskDir.bytesAt, hlook, if_neg hq]
        simp [DiskCall.bytesAt, hne, hpasses, DiskDir.bytesAt]
    · rename_i hout
      obtain rfl := Option.some_injective _ h
      have hne : path.location cwd ≠ root ++ q := fun heq => by
        rw [inside?_eq_some.2 heq] at hout
        cases hout
      simp [DiskCall.bytesAt, hne, hpasses]

theorem runCalls_spec (h : runCalls cwd root stamp done calls D = some D') :
    D'.bytesAt q = (lastWrite cwd (root ++ q) calls).or (D.bytesAt q) ∧
      (D'.look q = some none ↔ D.look q = some none ∨ ∃ c ∈ calls, c.Passes cwd (root ++ q)) := by
  induction calls generalizing done D with
  | nil =>
    obtain rfl := Option.some_injective _ h
    simp [lastWrite]
  | cons c calls ih =>
    obtain ⟨D₁, h₁, h⟩ := Option.bind_eq_some_iff.1 h
    obtain ⟨hbytes, hdir⟩ := ih h
    obtain ⟨hbytes₁, hdir₁⟩ := DiskCall.perform_spec (q := q) h₁
    rw [hbytes, hdir, hbytes₁, hdir₁, lastWrite, Option.or_assoc]
    simp [or_assoc]

theorem DiskDir.Sorted.makeDirs {locs : List (List String)} (hs : D.Sorted)
    (h : D.makeDirs root locs = some D') : D'.Sorted := by
  induction locs generalizing D with
  | nil => exact Option.some_injective _ h ▸ hs
  | cons loc locs ih =>
    rw [DiskDir.makeDirs, List.foldlM_cons] at h
    obtain ⟨D₁, h₁, h⟩ := Option.bind_eq_some_iff.1 h
    refine ih ?_ h
    split at h₁
    · exact hs.place h₁
    · exact Option.some_injective _ h₁ ▸ hs

theorem DiskDir.Sorted.runCalls (hs : D.Sorted)
    (h : runCalls cwd root stamp done calls D = some D') : D'.Sorted := by
  induction calls generalizing done D with
  | nil => exact Option.some_injective _ h ▸ hs
  | cons c calls ih =>
    obtain ⟨D₁, h₁, h⟩ := Option.bind_eq_some_iff.1 h
    refine ih ?_ h
    cases c with
    | createDirAll path => exact hs.makeDirs h₁
    | write path bytes =>
      rw [DiskCall.perform] at h₁
      split_ifs at h₁
      split at h₁
      · exact hs.place h₁
      · exact Option.some_injective _ h₁ ▸ hs

theorem sorted_afterCalls (h : afterCalls cwd root stamp calls = some D) : D.Sorted :=
  DiskDir.Sorted.runCalls (D := .nil) trivial h

/-- A file has the bytes last written to its place. -/
theorem look_afterCalls_file (h : afterCalls cwd root stamp calls = some D) (q : List String) :
    D.bytesAt q = lastWrite cwd (root ++ q) calls := by
  have hnil : DiskDir.nil.bytesAt q = none := by cases q <;> rfl
  rw [(runCalls_spec h).1, hnil, Option.or_none]

/-- A directory stands where the path of a made one passes. -/
theorem look_afterCalls_dir (h : afterCalls cwd root stamp calls = some D) {q : List String}
    (hq : q ≠ []) : D.look q = some none ↔ ∃ c ∈ calls, c.Passes cwd (root ++ q) := by
  have hnil : DiskDir.nil.look q ≠ some none := by
    cases q with
    | nil => exact absurd rfl hq
    | cons x q => simp [DiskDir.look, DiskDir.lookup]
  rw [(runCalls_spec h).2]
  simp [hnil]

end CeDrive
