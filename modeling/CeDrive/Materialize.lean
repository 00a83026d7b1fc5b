import CeDrive.OsPath
import CeDrive.Vfs

/-!
# Materializing a drive

`materialize` of `crates/ce-drive-mount/src/materialize.rs`. It walks the listings of a drive
from the root and joins the listed names to a target directory. The store and the disk are a
`Host`: every call may fail, and the answers may depend on the calls so far. The recursion of
the source is bounded by `k` here; a walk that does not end makes its calls for some `k`.

The names are joined as they are : what holds of the target, and is kept by joining a listed name,
holds of the path of every call (`materialize_calls`).
-/

namespace CeDrive

/-- One entry of a listing. -/
structure DirEntry where
  name : String
  isDir : Bool
  content : Option FileContent
  nodeId : NodeId

/-- List a directory. -/
def Drive.ls (d : Drive) (path : String) : Except String (List DirEntry) :=
  match d.resolveDir path with
  | .error e => .error e
  | .ok dir => .ok ((d.tree.readdir dir).map fun entry =>
      ⟨entry.1, entry.2.2 = .dir, d.content[entry.2.1]?, entry.2.1⟩)

structure MaterializeReport where
  files : ℕ
  dirs : ℕ
  bytes : ℕ
  deriving DecidableEq

/-- A call that changes the disk. -/
inductive DiskCall
  | createDirAll (path : OsPath)
  | write (path : OsPath) (bytes : List UInt8)
  deriving DecidableEq

def DiskCall.path : DiskCall → OsPath
  | createDirAll path => path
  | write path _ => path

/-- What the store answers after the calls so far, and which calls succeed. -/
structure Host where
  getObject : List DiskCall → String → Except String (List UInt8)
  works : List DiskCall → DiskCall → Bool

/-- The report of a walk, and its calls, failed ones included. -/
structure Walk where
  report : MaterializeReport
  calls : List DiskCall

/-- A walk through one subtree, from its path and its place on the disk. -/
abbrev Visit := String → OsPath → Walk → Option (Except String Unit) × Walk

namespace Drive

/-- Fetch a file and write it. An empty cid is an empty file. -/
def materializeFile (host : Host) (name : String) (target : OsPath) (content : FileContent)
    (w : Walk) : Except String Unit × Walk :=
  match if content.cid = "" then .ok [] else host.getObject w.calls content.cid with
  | .error _ => (.error ("fetch " ++ name), w)
  | .ok bytes =>
    let calls := w.calls ++ [.write target bytes]
    if host.works w.calls (.write target bytes) then
      (.ok (), ⟨{ w.report with
        files := w.report.files + 1
        bytes := w.report.bytes + bytes.length }, calls⟩)
    else (.error ("write " ++ target.display), { w with calls := calls })

/-- One round of the loop. A file without content is left out. -/
def materializeEntry (host : Host) (visit : Visit) (path : String) (out : OsPath) (e : DirEntry)
    (w : Walk) : Option (Except String Unit) × Walk :=
  let target := out.join e.name
  if e.isDir then
    let calls := w.calls ++ [.createDirAll target]
    if host.works w.calls (.createDirAll target) then
      visit (joinPath path e.name) target ⟨{ w.report with dirs := w.report.dirs + 1 }, calls⟩
    else (some (.error ("mkdir " ++ target.display)), { w with calls := calls })
  else match e.content with
    | some content =>
      let (r, w) := materializeFile host e.name target content w
      (some r, w)
    | none => (some (.ok ()), w)

def materializeEntries (host : Host) (visit : Visit) (path : String) (out : OsPath) :
    List DirEntry → Walk → Option (Except String Unit) × Walk
  | [], w => (some (.ok ()), w)
  | e :: entries, w =>
    match materializeEntry host visit path out e w with
    | (some (.ok ()), w) => materializeEntries host visit path out entries w
    | r => r

/-- Materialize one subtree, at most `k` directories deep; `none` if it goes deeper. -/
def materializeDir (d : Drive) (host : Host) : ℕ → Visit
  | 0, _, _, w => (none, w)
  | k + 1, path, out, w =>
    match d.ls path with
    | .error e => (some (.error e), w)
    | .ok entries => materializeEntries host (materializeDir d host k) path out entries w

/-- Materialize a drive into `out`. -/
def materialize (d : Drive) (host : Host) (k : ℕ) (out : OsPath) :
    Option (Except String MaterializeReport) × Walk :=
  let calls := [.createDirAll out]
  if host.works [] (.createDirAll out) then
    let (r, w) := d.materializeDir host k "/" out ⟨⟨0, 0, 0⟩, calls⟩
    (r.map fun r => r.map fun _ => w.report, w)
  else (some (.error ("create " ++ out.display)), ⟨⟨0, 0, 0⟩, calls⟩)

/-! ## The paths of a walk -/

variable {d : Drive} {host : Host} {visit : Visit} {path name : String} {out target : OsPath}
  {e : DirEntry} {entries post : List DirEntry} {w w' : Walk} {k : ℕ} {P : OsPath → Prop}

/-- Every call of the walk was made before, or is of a path that satisfies `P`. -/
def Visit.Keeps (P : OsPath → Prop) (visit : Visit) : Prop :=
  ∀ path out w, P out → ∀ c ∈ (visit path out w).2.calls, c ∈ w.calls ∨ P c.path

theorem mem_materializeFile {content : FileContent} {c : DiskCall}
    (hc : c ∈ (materializeFile host name target content w).2.calls) :
    c ∈ w.calls ∨ c.path = target := by
  unfold materializeFile at hc
  split at hc
  · exact Or.inl hc
  · rename_i bytes _
    have hmem : c ∈ w.calls ++ [.write target bytes] := by
      dsimp only at hc
      split_ifs at hc <;> exact hc
    rcases List.mem_append.1 hmem with hc | hc
    · exact Or.inl hc
    · rw [List.mem_singleton.1 hc]
      exact Or.inr rfl

theorem mem_materializeEntry (hv : Visit.Keeps P visit) (htarget : P (out.join e.name))
    {c : DiskCall} (hc : c ∈ (materializeEntry host visit path out e w).2.calls) :
    c ∈ w.calls ∨ P c.path := by
  have hmkdir : c ∈ w.calls ++ [.createDirAll (out.join e.name)] → c ∈ w.calls ∨ P c.path := by
    intro hc
    rcases List.mem_append.1 hc with hc | hc
    · exact Or.inl hc
    · rw [List.mem_singleton.1 hc]
      exact Or.inr htarget
  unfold materializeEntry at hc
  dsimp only at hc
  split at hc
  · split_ifs at hc
    · exact (hv _ _ _ htarget c hc).elim hmkdir Or.inr
    · exact hmkdir hc
  · split at hc
    · rcases mem_materializeFile hc with hc | hpath
      · exact Or.inl hc
      · exact Or.inr (hpath ▸ htarget)
    · exact Or.inl hc

theorem mem_materializeEntries (hv : Visit.Keeps P visit)
    (htargets : ∀ e ∈ entries, P (out.join e.name)) {c : DiskCall}
    (hc : c ∈ (materializeEntries host visit path out entries w).2.calls) :
    c ∈ w.calls ∨ P c.path := by
  induction entries generalizing w with
  | nil => exact Or.inl hc
  | cons e entries ih =>
    have he : c ∈ (materializeEntry host visit path out e w).2.calls → c ∈ w.calls ∨ P c.path :=
      mem_materializeEntry hv (htargets e List.mem_cons_self)
    rw [materializeEntries] at hc
    split at hc
    · rename_i w₁ heq
      rw [heq] at he
      rcases ih (fun x hx => htargets x (List.mem_cons_of_mem _ hx)) hc with hc | hc
      · exact he hc
      · exact Or.inr hc
    · exact he hc

theorem keeps_materializeDir
    (h : ∀ path entries, d.ls path = .ok entries → ∀ e ∈ entries, ∀ q, P q → P (q.join e.name))
    (host : Host) (k : ℕ) : Visit.Keeps P (d.materializeDir host k) := by
  induction k with
  | zero => exact fun _ _ _ _ c => Or.inl
  | succ k ih =>
    intro path out w hout c hc
    rw [materializeDir] at hc
    split at hc
    · exact Or.inl hc
    · rename_i entries hls
      exact mem_materializeEntries ih (fun e he => h path entries hls e he out hout) hc

/-- What holds of the target, and is kept by joining a listed name, holds of the path of every
call. -/
theorem materialize_calls
    (h : ∀ path entries, d.ls path = .ok entries → ∀ e ∈ entries, ∀ q, P q → P (q.join e.name))
    (hout : P out) {c : DiskCall} (hc : c ∈ (d.materialize host k out).2.calls) : P c.path := by
  have hfirst : c ∈ [DiskCall.createDirAll out] → P c.path := fun hc => by
    rw [List.mem_singleton.1 hc]
    exact hout
  unfold materialize at hc
  dsimp only at hc
  split_ifs at hc
  · exact (keeps_materializeDir h host k _ _ _ hout c hc).elim hfirst id
  · exact hfirst hc

/-- The entries of a listing are the names a directory lists. -/
theorem ls_eq_ok (h : d.ls path = .ok entries) :
    ∃ p, d.tree.resolve path = some p ∧ entries = (d.tree.readdir p).map fun entry =>
      ⟨entry.1, entry.2.2 = .dir, d.content[entry.2.1]?, entry.2.1⟩ := by
  unfold ls at h
  split at h
  · cases h
  · rename_i p hp
    exact ⟨p, (resolveDir_eq_ok hp).1, (Except.ok.inj h).symm⟩

theorem mem_ls (h : d.ls path = .ok entries) (he : e ∈ entries) :
    ∃ p, d.tree.resolve path = some p ∧ d.tree.Lists p e.name e.nodeId := by
  obtain ⟨p, hp, rfl⟩ := ls_eq_ok h
  obtain ⟨⟨r, id, kind⟩, hmem, rfl⟩ := List.mem_map.1 he
  exact ⟨p, hp, kind, hmem⟩

/-! ## A host that answers every call -/

/-- A store of empty files and a disk where every call works. -/
def freeHost : Host :=
  ⟨fun _ _ => .ok [], fun _ _ => true⟩

/-- The walk forgets no call. -/
def Visit.Grows (visit : Visit) : Prop :=
  ∀ path out w, w.calls ⊆ (visit path out w).2.calls

theorem materializeFile_free {content : FileContent} :
    (materializeFile freeHost name target content w).1 = .ok () ∧
      (materializeFile freeHost name target content w).2.calls = w.calls ++ [.write target []] := by
  by_cases hcid : content.cid = "" <;> simp [materializeFile, freeHost, hcid]

theorem materializeEntry_dir (hdir : e.isDir = true) :
    materializeEntry freeHost visit path out e w =
      visit (joinPath path e.name) (out.join e.name)
        ⟨{ w.report with dirs := w.report.dirs + 1 },
          w.calls ++ [.createDirAll (out.join e.name)]⟩ := by
  have hworks : freeHost.works w.calls (.createDirAll (out.join e.name)) = true := rfl
  simp only [materializeEntry, hdir, if_true, hworks]

/-- A file is written, if it has content, and the walk goes on. -/
theorem materializeEntry_file (hdir : e.isDir = false) :
    (materializeEntry freeHost visit path out e w).1 = some (.ok ()) ∧
      w.calls ⊆ (materializeEntry freeHost visit path out e w).2.calls ∧
      (e.content.isSome = true →
        .write (out.join e.name) [] ∈ (materializeEntry freeHost visit path out e w).2.calls) := by
  unfold materializeEntry
  cases hcontent : e.content with
  | none => simp [hdir]
  | some content => simp [hdir, materializeFile_free]

theorem materializeEntry_grows (hgrows : Visit.Grows visit) :
    w.calls ⊆ (materializeEntry freeHost visit path out e w).2.calls := by
  cases hdir : e.isDir with
  | true =>
    rw [materializeEntry_dir hdir]
    exact fun c hc => hgrows _ _ _ (List.mem_append_left _ hc)
  | false => exact (materializeEntry_file hdir).2.1

theorem materializeEntries_grows (hgrows : Visit.Grows visit) :
    w.calls ⊆ (materializeEntries freeHost visit path out entries w).2.calls := by
  induction entries generalizing w with
  | nil => exact fun c => id
  | cons e entries ih =>
    have he : w.calls ⊆ (materializeEntry freeHost visit path out e w).2.calls :=
      materializeEntry_grows hgrows
    rw [materializeEntries]
    split
    · rename_i w₁ heq
      rw [heq] at he
      exact fun c hc => ih (he hc)
    · exact he

/-- The calls of the first round are part of the walk. -/
theorem materializeEntries_cons_grows (hgrows : Visit.Grows visit) :
    (materializeEntry freeHost visit path out e w).2.calls ⊆
      (materializeEntries freeHost visit path out (e :: post) w).2.calls := by
  rw [materializeEntries]
  split
  · rename_i w₁ heq
    rw [heq]
    exact materializeEntries_grows hgrows
  · exact fun c => id

theorem grows_materializeDir (d : Drive) (k : ℕ) : Visit.Grows (d.materializeDir freeHost k) := by
  induction k with
  | zero => exact fun _ _ _ c => id
  | succ k ih =>
    intro path out w
    rw [materializeDir]
    split
    · exact fun c => id
    · exact materializeEntries_grows ih

/-- Where only files are listed, all that have content are written. -/
theorem write_mem_materializeDir (hls : d.ls path = .ok entries)
    (hfiles : ∀ x ∈ entries, x.isDir = false) (he : e ∈ entries)
    (hcontent : e.content.isSome = true) :
    .write (out.join e.name) [] ∈ (d.materializeDir freeHost (k + 1) path out w).2.calls := by
  rw [materializeDir]
  simp only [hls]
  clear hls
  induction entries generalizing w with
  | nil => exact absurd he List.not_mem_nil
  | cons x entries ih =>
    have hgrows := grows_materializeDir d k
    rcases List.mem_cons.1 he with rfl | he
    · exact materializeEntries_cons_grows hgrows
        ((materializeEntry_file (hfiles e List.mem_cons_self)).2.2 hcontent)
    · have hok : (materializeEntry freeHost (d.materializeDir freeHost k) path out x w).1 =
          some (.ok ()) := (materializeEntry_file (hfiles x List.mem_cons_self)).1
      rw [materializeEntries]
      cases hround : materializeEntry freeHost (d.materializeDir freeHost k) path out x w with
      | mk r w₁ =>
        rw [hround] at hok
        obtain rfl : r = some (.ok ()) := hok
        exact ih (fun y hy => hfiles y (List.mem_cons_of_mem _ hy)) he

end Drive

end CeDrive
