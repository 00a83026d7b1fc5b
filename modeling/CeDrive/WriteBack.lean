import CeDrive.Digits
import CeDrive.Vfs

/-!
# Write-back

`Vfs::flush` copies the bytes of a handle in one critical section, uploads them with the lock
free, and in another section saves the uploaded content on the node and marks the handle
clean. A `WriteBack` is an engine with its flushes under way. Beside the state stands what
each handle was hydrated with, what was last recorded of it, and which completed write no
recorded flush has copied : in a clean or closed handle such a write is dropped. That never
happens in a run exactly if every flush that finishes finds its handle closed or with the bytes
it copied, and no handle is closed before its writes are saved (`no_lost_write_iff`).

A flush that runs alone is `Vfs.flush`. A fresh open reads back what it uploaded exactly if
the save wins over the content the node had (`flush_read_iff`).
-/

open Std (ExtTreeMap)

namespace CeDrive

namespace Vfs

variable {v v' : Vfs} {fh : ℕ} {file : OpenFile}

/-! ## Handles -/

/-- The same handles. -/
structure SameHandles (v v' : Vfs) : Prop where
  openFiles : v'.openFiles = v.openFiles
  nextFh : v'.nextFh = v.nextFh

/-- One handle more, which was never used, without bytes or dirty. -/
structure Opens (v v' : Vfs) (g : OpenFile) : Prop where
  openFiles : v'.openFiles = v.openFiles.insert v.nextFh g
  nextFh : v'.nextFh = v.nextFh + 1
  cold : g.buf.isSome = g.dirty

theorem nextFh_intern (v : Vfs) (node : NodeId) : (v.intern node).2.nextFh = v.nextFh := by
  unfold intern
  split <;> rfl

theorem sameHandles_internNodes (v : Vfs) (nodes : List NodeId) :
    v.SameHandles (v.internNodes nodes) := by
  refine ⟨openFiles_internNodes v nodes, ?_⟩
  induction nodes generalizing v with
  | nil => rfl
  | cons node nodes ih => exact (ih _).trans (nextFh_intern v node)

theorem create_handles {ctr nowMs : ℕ} {parent : Ino} {name : String}
    {r : Except String (Attr × ℕ) × Vfs × ℕ} (hr : v.create ctr parent name nowMs = some r) :
    v.SameHandles r.2.1 ∨ ∃ g, v.Opens r.2.1 g := by
  unfold create at hr
  split at hr
  · exact Or.inl (Option.some_injective _ hr ▸ ⟨rfl, rfl⟩)
  · obtain ⟨⟨res, d, ctr'⟩, -, hr⟩ := Option.bind_eq_some_iff.1 hr
    cases res with
    | error e => exact Or.inl (Option.some_injective _ hr ▸ ⟨rfl, rfl⟩)
    | ok id =>
      have hopen := openFiles_intern { v with drive := d, dirtyModel := true } id
      have hnext := nextFh_intern { v with drive := d, dirtyModel := true } id
      simp only at hr
      split at hr
      · exact Or.inl (Option.some_injective _ hr ▸ ⟨hopen, hnext⟩)
      · rename_i attr hattr
        obtain rfl := Option.some_injective _ hr
        refine Or.inr ⟨⟨attr.ino, some [], true⟩, ?_, congrArg (· + 1) hnext, rfl⟩
        exact (congrArg (ExtTreeMap.insert · _ _) hopen).trans
          (congrArg (v.openFiles.insert · _) hnext)

theorem mkdir_handles {ctr : ℕ} {parent : Ino} {name : String}
    {r : Except String Attr × Vfs × ℕ} (hr : v.mkdir ctr parent name = some r) :
    v.SameHandles r.2.1 := by
  unfold mkdir at hr
  split at hr
  · exact Option.some_injective _ hr ▸ ⟨rfl, rfl⟩
  · obtain ⟨⟨res, d, ctr'⟩, -, hr⟩ := Option.bind_eq_some_iff.1 hr
    cases res with
    | error e => exact Option.some_injective _ hr ▸ ⟨rfl, rfl⟩
    | ok id => exact Option.some_injective _ hr ▸ ⟨openFiles_intern _ _, nextFh_intern _ _⟩

theorem unlink_handles {parent : Ino} {name : String} {r : Except String Unit × Vfs}
    (hr : v.unlink parent name = some r) : v.SameHandles r.2 := by
  unfold unlink at hr
  split at hr
  · exact Option.some_injective _ hr ▸ ⟨rfl, rfl⟩
  · obtain ⟨⟨res, d⟩, -, hr⟩ := Option.bind_eq_some_iff.1 hr
    cases res <;> exact Option.some_injective _ hr ▸ ⟨rfl, rfl⟩

theorem rename_handles {parent newParent : Ino} {name newName : String}
    {r : Except String Unit × Vfs} (hr : v.rename parent name newParent newName = some r) :
    v.SameHandles r.2 := by
  obtain ⟨e, rfl⟩ | ⟨-, -, -, -, -, -, -, rfl, -⟩ := rename_eq_some hr <;> exact ⟨rfl, rfl⟩

/-- Whether the section is about a handle that is open. -/
def Event.usesHandle : Event → Bool
  | .fill .. | .write .. | .truncate .. | .record .. | .close .. => true
  | _ => false

/-- The other sections leave the handles as they were, or open one. -/
theorem perform_handles {e : Event} (huse : e.usesHandle = false) (he : v.perform e = some v') :
    v.SameHandles v' ∨ ∃ g, v.Opens v' g := by
  cases e with
  | fill | write | truncate | record | close => simp [Event.usesHandle] at huse
  | lookup parent name =>
    obtain rfl := Option.some_injective _ he
    obtain ⟨nodes, heq⟩ := exists_lookup_snd v parent name
    exact Or.inl (heq ▸ sameHandles_internNodes v nodes)
  | lookupPath path =>
    obtain rfl := Option.some_injective _ he
    obtain ⟨nodes, heq⟩ := exists_lookupPath_snd v path
    exact Or.inl (heq ▸ sameHandles_internNodes v nodes)
  | readdir ino =>
    obtain rfl := Option.some_injective _ he
    obtain ⟨nodes, heq⟩ := exists_readdir_snd v ino
    exact Or.inl (heq ▸ sameHandles_internNodes v nodes)
  | readdirplus ino =>
    obtain rfl := Option.some_injective _ he
    obtain ⟨nodes, heq⟩ := exists_readdirplus_snd v ino
    exact Or.inl (heq ▸ sameHandles_internNodes v nodes)
  | openFile ino =>
    obtain rfl := Option.some_injective _ he
    unfold Vfs.openFile
    split
    · exact Or.inl ⟨rfl, rfl⟩
    · exact Or.inr ⟨_, rfl, rfl, rfl⟩
  | create ctr parent name nowMs =>
    obtain ⟨r, hr, rfl⟩ := Option.map_eq_some_iff.1 he
    exact create_handles hr
  | mkdir ctr parent name =>
    obtain ⟨r, hr, rfl⟩ := Option.map_eq_some_iff.1 he
    exact Or.inl (mkdir_handles hr)
  | unlink parent name =>
    obtain ⟨r, hr, rfl⟩ := Option.map_eq_some_iff.1 he
    exact Or.inl (unlink_handles hr)
  | rename parent name newParent newName =>
    obtain ⟨r, hr, rfl⟩ := Option.map_eq_some_iff.1 he
    exact Or.inl (rename_handles hr)
  | revalidate state =>
    obtain rfl := Option.some_injective _ he
    exact Or.inl ⟨rfl, rfl⟩

/-- A write that succeeds puts the new bytes into its handle, which is dirty. -/
theorem edit_eq_ok {f : List UInt8 → List UInt8} (h : v.edit fh f = .ok v') :
    ∃ g bytes, v'.openFiles = v.openFiles.insert fh g ∧ v'.nextFh = v.nextFh ∧
      (v.openFiles[fh]?).isSome ∧ g.buf = some bytes ∧ g.dirty = true := by
  unfold edit at h
  split at h
  · cases h
  · rename_i file hfile
    obtain rfl := Except.ok.inj h
    exact ⟨_, _, rfl, rfl, by rw [hfile]; rfl, rfl, rfl⟩

/-- A write fails and changes nothing, or puts its bytes into the handle. -/
theorem write_cases {offset : ℕ} {data : List UInt8} {r : Except String ℕ × Vfs}
    (hr : v.write fh offset data = some r) :
    r.1.isOk = false ∧ r.2 = v ∨ r.1.isOk = true ∧ ∃ f, v.edit fh f = .ok r.2 := by
  unfold write at hr
  split_ifs at hr
  · exact Or.inl (Option.some_injective _ hr ▸ ⟨rfl, rfl⟩)
  · split at hr
    · exact Or.inl (Option.some_injective _ hr ▸ ⟨rfl, rfl⟩)
    · rename_i hedit
      exact Or.inr (Option.some_injective _ hr ▸ ⟨rfl, _, hedit⟩)

theorem truncate_cases (v : Vfs) (fh size : ℕ) :
    (v.truncate fh size).1.isOk = false ∧ (v.truncate fh size).2 = v ∨
      (v.truncate fh size).1.isOk = true ∧ ∃ f, v.edit fh f = .ok (v.truncate fh size).2 := by
  unfold truncate
  split_ifs
  · exact Or.inl ⟨rfl, rfl⟩
  · split
    · exact Or.inl ⟨rfl, rfl⟩
    · rename_i hedit
      exact Or.inr ⟨rfl, _, hedit⟩

end Vfs

/-! ## Flushes under way -/

/-- A flush between its two sections. -/
structure Flight where
  fh : ℕ
  ino : Ino
  bytes : List UInt8
  mtimeMs : ℕ

/-- An engine with its flushes under way. For every handle, what it was hydrated with, the bytes
of its last recorded flush, and the bytes after its last completed write, until a flush that
copied them is recorded. -/
structure WriteBack where
  vfs : Vfs
  flights : List Flight
  hydrated : ℕ → Option (List UInt8)
  recorded : ℕ → Option (List UInt8)
  unsaved : ℕ → Option (List UInt8)

/-- A section of a call, the first section of a flush, the last section of the `k`-th flush
under way, its bytes uploaded as `cid`, or the failure of its upload. -/
inductive WriteBackEvent
  | call (e : Vfs.Event)
  | snapshot (fh nowMs : ℕ)
  | finish (k : ℕ) (cid : String)
  | fail (k : ℕ)

namespace WriteBack

open Function (update update_self update_of_ne update_apply)

def start (drive : Drive) (maxFileSize : ℕ) : WriteBack :=
  ⟨.new drive maxFileSize, [], fun _ => none, fun _ => none, fun _ => none⟩

/-- What the handles were hydrated with after a section. -/
def hydrate (s : WriteBack) : Vfs.Event → ℕ → Option (List UInt8)
  | .fill fh bytes =>
    if (s.vfs.openFiles[fh]?).any fun f => f.buf.isNone then update s.hydrated fh (some bytes)
    else s.hydrated
  | _ => s.hydrated

/-- The bytes of completed writes after a section that leads to `v`. -/
def edit (s : WriteBack) (v : Vfs) : Vfs.Event → ℕ → Option (List UInt8)
  | .write fh offset data =>
    if (s.vfs.write fh offset data).any fun r => r.1.isOk then
      update s.unsaved fh ((v.openFiles[fh]?).bind OpenFile.buf)
    else s.unsaved
  | .truncate fh size =>
    if (s.vfs.truncate fh size).1.isOk then
      update s.unsaved fh ((v.openFiles[fh]?).bind OpenFile.buf)
    else s.unsaved
  | _ => s.unsaved

/-- The completed writes once a flush is recorded. -/
def save (s : WriteBack) (f : Flight) : ℕ → Option (List UInt8) :=
  if s.unsaved f.fh = some f.bytes then update s.unsaved f.fh none else s.unsaved

/-- The `k`-th flush under way saves its bytes. -/
def finish (s : WriteBack) (k : ℕ) (cid : String) : Option WriteBack := do
  let f ← s.flights[k]?
  let (r, v) ← s.vfs.record f.fh f.ino (.new cid f.bytes.length 0o644 f.mtimeMs)
  return { s with
    vfs := v
    flights := s.flights.eraseIdx k
    recorded := if r.isOk then update s.recorded f.fh (some f.bytes) else s.recorded
    unsaved := if r.isOk then s.save f else s.unsaved }

/-- Only a flush under way records. -/
def perform (s : WriteBack) : WriteBackEvent → Option WriteBack
  | .call (.record ..) => none
  | .call e => (s.vfs.perform e).map fun v =>
    { s with vfs := v, hydrated := s.hydrate e, unsaved := s.edit v e }
  | .snapshot fh nowMs =>
    match s.vfs.snapshot fh with
    | .ok (some (ino, bytes)) => some { s with flights := s.flights ++ [⟨fh, ino, bytes, nowMs⟩] }
    | _ => some s
  | .finish k cid => s.finish k cid
  | .fail k => some { s with flights := s.flights.eraseIdx k }

/-- The states of a run. -/
def states (s : WriteBack) : List WriteBackEvent → List WriteBack
  | [] => [s]
  | e :: es => s :: match s.perform e with
    | some s' => s'.states es
    | none => []

/-- The bytes of the handle, if it is clean, are those of its last recorded flush, or of its
hydration if none was recorded. A completed write that no recorded flush has copied is copied by
the next one. -/
structure NoLostWriteAt (s : WriteBack) (fh : ℕ) : Prop where
  clean : ∀ file bytes, s.vfs.openFiles[fh]? = some file → file.dirty = false →
    file.buf = some bytes →
      s.recorded fh = some bytes ∨ s.recorded fh = none ∧ s.hydrated fh = some bytes
  pending : ∀ bytes, s.unsaved fh = some bytes →
    ∃ ino, s.vfs.snapshot fh = .ok (some (ino, bytes))

def NoLostWrite (s : WriteBack) : Prop :=
  ∀ fh, s.NoLostWriteAt fh

/-- A flush that saves finds its handle closed or with the bytes it copied, and a handle is closed
once its writes are saved. -/
def Keeps (s : WriteBack) : WriteBackEvent → Prop
  | .finish k _ => ∀ f node, s.flights[k]? = some f → s.vfs.nodeOf[f.ino]? = some node →
      ∀ file, s.vfs.openFiles[f.fh]? = some file → file.buf = some f.bytes
  | .call (.close fh) => s.unsaved fh = none
  | _ => True

/-- Every step of the run from `s` meets the condition. -/
def RunKeeps : WriteBack → List WriteBackEvent → Prop
  | _, [] => True
  | s, e :: es => ∀ s', s.perform e = some s' → s.Keeps e ∧ RunKeeps s' es

variable {s s' : WriteBack} {e : WriteBackEvent} {es : List WriteBackEvent}

theorem mem_states (s : WriteBack) (es : List WriteBackEvent) : s ∈ s.states es := by
  cases es <;> exact List.mem_cons_self

theorem perform_call {e : Vfs.Event} (huse : e.usesHandle = false) :
    s.perform (.call e) = (s.vfs.perform e).map fun v => { s with vfs := v } := by
  cases e <;> first | rfl | simp [Vfs.Event.usesHandle] at huse

/-! ## What a section does to the handles -/

/-- The open file of a handle. -/
def file (s : WriteBack) (fh : ℕ) : Option OpenFile :=
  s.vfs.openFiles[fh]?

/-- What a section of a call does to the handles. -/
inductive Acts (s s' : WriteBack) : Prop
  | same (hfile : s'.file = s.file) (hnext : s'.vfs.nextFh = s.vfs.nextFh)
      (hhydrated : s'.hydrated = s.hydrated) (hunsaved : s'.unsaved = s.unsaved)
  | opens (g : OpenFile) (hg : g.buf.isSome = g.dirty)
      (hfile : s'.file = update s.file s.vfs.nextFh (some g))
      (hnext : s'.vfs.nextFh = s.vfs.nextFh + 1)
      (hhydrated : s'.hydrated = s.hydrated) (hunsaved : s'.unsaved = s.unsaved)
  | fills (fh : ℕ) (g : OpenFile) (bytes : List UInt8) (hg : s.file fh = some g)
      (hcold : g.buf = none)
      (hfile : s'.file = update s.file fh (some { g with buf := some bytes }))
      (hnext : s'.vfs.nextFh = s.vfs.nextFh)
      (hhydrated : s'.hydrated = update s.hydrated fh (some bytes))
      (hunsaved : s'.unsaved = s.unsaved)
  | edits (fh : ℕ) (g : OpenFile) (bytes : List UInt8) (hopen : (s.file fh).isSome)
      (hbuf : g.buf = some bytes) (hdirty : g.dirty = true)
      (hfile : s'.file = update s.file fh (some g)) (hnext : s'.vfs.nextFh = s.vfs.nextFh)
      (hhydrated : s'.hydrated = s.hydrated)
      (hunsaved : s'.unsaved = update s.unsaved fh (some bytes))

theorem getElem?_insert (m : ExtTreeMap ℕ OpenFile) (fh : ℕ) (g : OpenFile) (k : ℕ) :
    (m.insert fh g)[k]? = update (fun k => m[k]?) fh (some g) k := by
  rw [ExtTreeMap.getElem?_insert, update_apply]
  simp only [compare_eq_iff_eq]
  exact if_congr eq_comm rfl rfl

theorem acts_of_edit {v : Vfs} {fh : ℕ} {f : List UInt8 → List UInt8}
    (h : s.vfs.edit fh f = .ok v) :
    s.Acts { s with
      vfs := v
      unsaved := update s.unsaved fh ((v.openFiles[fh]?).bind OpenFile.buf) } := by
  obtain ⟨g, bytes, hfiles, hnext, hopen, hbuf, hdirty⟩ := Vfs.edit_eq_ok h
  refine .edits fh g bytes hopen hbuf hdirty (funext fun k => ?_) hnext rfl ?_
  · rw [file, hfiles, getElem?_insert]
    rfl
  · rw [hfiles, getElem?_insert, update_self, Option.bind_some, hbuf]

/-- A section of a call, other than a `close`. -/
theorem perform_acts {e : Vfs.Event} (hclose : ∀ fh, e ≠ .close fh)
    (he : s.perform (.call e) = some s') :
    s.Acts s' ∧ s'.flights = s.flights ∧ s'.recorded = s.recorded := by
  have hother : ∀ {v}, e.usesHandle = false → s.vfs.perform e = some v →
      s.Acts { s with vfs := v } := by
    intro v huse hv
    rcases Vfs.perform_handles huse hv with hsame | ⟨g, hopens⟩
    · exact .same (funext fun fh => by rw [file, file, hsame.openFiles]) hsame.nextFh rfl rfl
    · refine .opens g hopens.cold (funext fun k => ?_) hopens.nextFh rfl rfl
      rw [file, hopens.openFiles, getElem?_insert]
      rfl
  cases e with
  | record fh ino content => cases he
  | close fh => exact absurd rfl (hclose fh)
  | fill fh bytes =>
    obtain rfl := Option.some_injective _ he
    refine ⟨?_, rfl, rfl⟩
    simp only [hydrate, edit, Vfs.fill]
    cases hg : s.vfs.openFiles[fh]? with
    | none => exact .same rfl rfl rfl rfl
    | some g =>
      simp only [Option.any_some]
      split_ifs with hcold
      · refine .fills fh g bytes hg (Option.isNone_iff_eq_none.1 hcold) ?_ rfl rfl rfl
        exact funext fun k => getElem?_insert _ _ _ _
      · exact .same rfl rfl rfl rfl
  | write fh offset data =>
    obtain ⟨v, hv, rfl⟩ := Option.map_eq_some_iff.1 he
    obtain ⟨r, hr, rfl⟩ := Option.map_eq_some_iff.1 hv
    refine ⟨?_, rfl, rfl⟩
    simp only [hydrate, edit, hr, Option.any_some]
    rcases Vfs.write_cases hr with ⟨hfail, hv⟩ | ⟨hok, f, hedit⟩
    · rw [if_neg (by simp [hfail]), hv]
      exact .same rfl rfl rfl rfl
    · rw [if_pos hok]
      exact acts_of_edit hedit
  | truncate fh size =>
    obtain rfl := Option.some_injective _ he
    refine ⟨?_, rfl, rfl⟩
    simp only [hydrate, edit]
    rcases s.vfs.truncate_cases fh size with ⟨hfail, hv⟩ | ⟨hok, f, hedit⟩
    · rw [if_neg (by simp [hfail]), hv]
      exact .same rfl rfl rfl rfl
    · rw [if_pos hok]
      exact acts_of_edit hedit
  | _ =>
    obtain ⟨v, hv, rfl⟩ := Option.map_eq_some_iff.1 ((perform_call rfl).symm.trans he)
    exact ⟨hother rfl hv, rfl, rfl⟩

/-- What the last section of a flush does : nothing if its inode is unknown, else it marks the
handle clean and records its bytes. -/
theorem finish_eq_some {k : ℕ} {cid : String} (h : s.finish k cid = some s') :
    ∃ f, s.flights[k]? = some f ∧ s'.flights = s.flights.eraseIdx k ∧
      s'.hydrated = s.hydrated ∧ s'.vfs.nextFh = s.vfs.nextFh ∧
      (s.vfs.nodeOf[f.ino]? = none ∧ s'.file = s.file ∧ s'.recorded = s.recorded ∧
          s'.unsaved = s.unsaved ∨
        (∃ node, s.vfs.nodeOf[f.ino]? = some node) ∧
          s'.file = update s.file f.fh ((s.file f.fh).map fun g => { g with dirty := false }) ∧
          s'.recorded = update s.recorded f.fh (some f.bytes) ∧ s'.unsaved = s.save f) := by
  obtain ⟨f, hf, h⟩ := Option.bind_eq_some_iff.1 h
  obtain ⟨⟨r, v⟩, hr, h⟩ := Option.bind_eq_some_iff.1 h
  obtain rfl := Option.some_injective _ h
  refine ⟨f, hf, rfl, rfl, ?_⟩
  unfold Vfs.record at hr
  split at hr
  · rename_i hnone
    obtain ⟨rfl, rfl⟩ := Prod.mk.inj (Option.some_injective _ hr)
    exact ⟨rfl, Or.inl ⟨hnone, rfl, rfl, rfl⟩⟩
  · rename_i node hnode
    obtain ⟨d, -, hr⟩ := Option.bind_eq_some_iff.1 hr
    obtain ⟨rfl, rfl⟩ := Prod.mk.inj (Option.some_injective _ hr)
    refine ⟨rfl, Or.inr ⟨⟨node, hnode⟩, ?_, rfl, rfl⟩⟩
    funext k
    cases hg : s.vfs.openFiles[f.fh]? with
    | none => by_cases hk : k = f.fh <;> simp [file, hg, hk]
    | some g =>
      rw [file, file, hg]
      exact getElem?_insert _ _ _ _

/-! ## The invariant -/

/-- A flush of the handle is under way or was recorded. -/
def Flushed (s : WriteBack) (fh : ℕ) : Prop :=
  (s.recorded fh).isSome ∨ ∃ f ∈ s.flights, f.fh = fh

/-- The number of a handle is not used again, and a handle that was written to or flushed has
bytes. -/
structure SoundAt (s : WriteBack) (fh : ℕ) : Prop where
  below : (s.file fh).isSome ∨ s.Flushed fh ∨ (s.unsaved fh).isSome → fh < s.vfs.nextFh
  warm : ∀ g, s.file fh = some g → g.dirty = true ∨ s.Flushed fh → g.buf.isSome
  unsaved : ∀ g bytes, s.file fh = some g → s.unsaved fh = some bytes → g.buf = some bytes

def Sound (s : WriteBack) : Prop :=
  ∀ fh, s.SoundAt fh

theorem SoundAt.of_eq {fh : ℕ} (h : s.SoundAt fh) (hfile : s'.file fh = s.file fh)
    (hnext : s.vfs.nextFh ≤ s'.vfs.nextFh) (hflushed : s'.Flushed fh → s.Flushed fh)
    (hunsaved : s'.unsaved fh = s.unsaved fh) : s'.SoundAt fh where
  below hused :=
    (h.below (hfile ▸ hunsaved ▸ hused.imp_right (Or.imp_left hflushed))).trans_le hnext
  warm g hg hused := h.warm g (hfile ▸ hg) (hused.imp_right hflushed)
  unsaved g bytes hg hb := h.unsaved g bytes (hfile ▸ hg) (hunsaved ▸ hb)

theorem snapshot_congr {fh : ℕ} (hfile : s'.file fh = s.file fh) :
    s'.vfs.snapshot fh = s.vfs.snapshot fh := by
  have hopen : s'.vfs.openFiles[fh]? = s.vfs.openFiles[fh]? := hfile
  rw [Vfs.snapshot, Vfs.snapshot, hopen]

theorem snapshot_of_dirty {fh : ℕ} {g : OpenFile} {bytes : List UInt8} (hg : s.file fh = some g)
    (hdirty : g.dirty = true) (hbuf : g.buf = some bytes) :
    s.vfs.snapshot fh = .ok (some (g.ino, bytes)) := by
  have hopen : s.vfs.openFiles[fh]? = some g := hg
  simp [Vfs.snapshot, hopen, hdirty, hbuf]

theorem exists_of_snapshot {fh : ℕ} {copied : Ino × List UInt8}
    (h : s.vfs.snapshot fh = .ok (some copied)) : ∃ g, s.file fh = some g ∧ g.dirty = true := by
  unfold Vfs.snapshot at h
  split at h
  · cases h
  · rename_i g hg
    by_cases hdirty : g.dirty = true
    · exact ⟨g, hg, hdirty⟩
    · simp [hdirty] at h

theorem NoLostWriteAt.of_eq {fh : ℕ} (h : s.NoLostWriteAt fh) (hfile : s'.file fh = s.file fh)
    (hrecorded : s'.recorded fh = s.recorded fh) (hhydrated : s'.hydrated fh = s.hydrated fh)
    (hunsaved : s'.unsaved fh = s.unsaved fh) : s'.NoLostWriteAt fh where
  clean g bytes hg hclean hbuf := by
    rw [hrecorded, hhydrated]
    exact h.clean g bytes (hfile.symm.trans hg) hclean hbuf
  pending bytes hb := by
    obtain ⟨ino, hsnap⟩ := h.pending bytes (hunsaved ▸ hb)
    exact ⟨ino, (snapshot_congr hfile).trans hsnap⟩

/-- A step that touches one handle keeps the invariants if it does so there. -/
theorem Sound.of_one (h : s.Sound) (k : ℕ)
    (hsame : ∀ fh, fh ≠ k → s'.file fh = s.file fh ∧ s'.hydrated fh = s.hydrated fh ∧
      s'.unsaved fh = s.unsaved fh ∧ s'.recorded fh = s.recorded fh)
    (hflushed : ∀ fh, fh ≠ k → s'.Flushed fh → s.Flushed fh)
    (hnext : s.vfs.nextFh ≤ s'.vfs.nextFh) (hk : s'.SoundAt k) :
    s'.Sound ∧ (s.NoLostWrite → (s'.NoLostWrite ↔ s'.NoLostWriteAt k)) := by
  refine ⟨fun fh => ?_, fun hno => ⟨fun h' => h' k, fun hkeep fh => ?_⟩⟩
  · by_cases hfh : fh = k
    · exact hfh ▸ hk
    · obtain ⟨hfile, -, hunsaved, -⟩ := hsame fh hfh
      exact (h fh).of_eq hfile hnext (hflushed fh hfh) hunsaved
  · by_cases hfh : fh = k
    · exact hfh ▸ hkeep
    · obtain ⟨hfile, hhydrated, hunsaved, hrecorded⟩ := hsame fh hfh
      exact (hno fh).of_eq hfile hrecorded hhydrated hunsaved

/-- A section of a call other than a `close` keeps the invariants. -/
theorem Sound.acts (h : s.Sound) (ha : s.Acts s') (hflights : s'.flights = s.flights)
    (hrecorded : s'.recorded = s.recorded) :
    s'.Sound ∧ (s.NoLostWrite → s'.NoLostWrite) := by
  have hflushed : ∀ fh, s'.Flushed fh → s.Flushed fh := fun fh => by
    rw [Flushed, Flushed, hflights, hrecorded]
    exact id
  have hkeep : ∀ k, s'.NoLostWriteAt k →
      s'.Sound ∧ (s.NoLostWrite → (s'.NoLostWrite ↔ s'.NoLostWriteAt k)) →
        s'.Sound ∧ (s.NoLostWrite → s'.NoLostWrite) := fun k hk hone =>
    ⟨hone.1, fun hno => (hone.2 hno).2 hk⟩
  cases ha with
  | same hfile hnext hhydrated hunsaved =>
    refine ⟨fun fh => ?_, fun hno fh => ?_⟩
    · exact (h fh).of_eq (congrFun hfile fh) hnext.ge (hflushed fh) (congrFun hunsaved fh)
    · exact (hno fh).of_eq (congrFun hfile fh) (congrFun hrecorded fh) (congrFun hhydrated fh)
        (congrFun hunsaved fh)
  | opens g hg hfile hnext hhydrated hunsaved =>
    -- the new handle was never used
    have hself : s'.file s.vfs.nextFh = some g := by rw [hfile, update_self]
    have hnew : ¬s.Flushed s.vfs.nextFh ∧ s'.unsaved s.vfs.nextFh = none := by
      have hbelow := (h s.vfs.nextFh).below
      rw [hunsaved]
      refine ⟨fun hf => absurd (hbelow (Or.inr (Or.inl hf))) (lt_irrefl _), ?_⟩
      rw [← Option.not_isSome_iff_eq_none]
      exact fun hu => absurd (hbelow (Or.inr (Or.inr hu))) (lt_irrefl _)
    refine hkeep _ ⟨fun file bytes hopen hclean hbuf => ?_, fun bytes hb => ?_⟩
      (h.of_one s.vfs.nextFh (fun fh hfh => ⟨by rw [hfile, update_of_ne hfh], by rw [hhydrated],
        by rw [hunsaved], by rw [hrecorded]⟩) (fun fh _ => hflushed fh) (by omega)
        ⟨fun _ => by omega, fun g' hg' hused => ?_, fun g' bytes hg' hb => ?_⟩)
    · obtain rfl := Option.some_injective _ (hself.symm.trans hopen)
      rw [hbuf, hclean] at hg
      cases hg
    · rw [hnew.2] at hb
      cases hb
    · obtain rfl := Option.some_injective _ (hself.symm.trans hg')
      exact hg.trans (hused.resolve_right fun hf => hnew.1 (hflushed _ hf))
    · rw [hnew.2] at hb
      cases hb
  | fills k g bytes hg hcold hfile hnext hhydrated hunsaved =>
    -- a handle without bytes was neither written to nor flushed
    have hself : s'.file k = some { g with buf := some bytes } := by rw [hfile, update_self]
    have hnot : ¬s.Flushed k ∧ s'.unsaved k = none := by
      refine ⟨fun hf => ?_, ?_⟩
      · simpa [hcold] using (h k).warm g hg (Or.inr hf)
      · rw [hunsaved, Option.eq_none_iff_forall_ne_some]
        exact fun b hb => by simpa [hcold] using (h k).unsaved g b hg hb
    have hdirty : g.dirty = false := Bool.eq_false_iff.2 fun hd => by
      simpa [hcold] using (h k).warm g hg (Or.inl hd)
    refine hkeep _ ⟨fun file b hopen hclean hbuf => ?_, fun b hb => ?_⟩
      (h.of_one k (fun fh hfh => ⟨by rw [hfile, update_of_ne hfh], by rw [hhydrated,
        update_of_ne hfh], by rw [hunsaved], by rw [hrecorded]⟩) (fun fh _ => hflushed fh) hnext.ge
        ⟨fun _ => ?_, fun g' hg' _ => ?_, fun g' b hg' hb => ?_⟩)
    · obtain rfl := Option.some_injective _ (hself.symm.trans hopen)
      refine Or.inr ⟨?_, by rw [hhydrated, update_self]; exact hbuf⟩
      rw [hrecorded, ← Option.not_isSome_iff_eq_none]
      exact fun hr => hnot.1 (Or.inl hr)
    · rw [hnot.2] at hb
      cases hb
    · rw [hnext]
      exact (h k).below (Or.inl (by rw [hg]; rfl))
    · obtain rfl := Option.some_injective _ (hself.symm.trans hg')
      rfl
    · rw [hnot.2] at hb
      cases hb
  | edits k g bytes hopen hbuf hdirty hfile hnext hhydrated hunsaved =>
    have hself : s'.file k = some g := by rw [hfile, update_self]
    have hbytes : s'.unsaved k = some bytes := by rw [hunsaved, update_self]
    refine hkeep _ ⟨fun file b hg hclean _ => ?_, fun b hb => ⟨g.ino, ?_⟩⟩
      (h.of_one k (fun fh hfh => ⟨by rw [hfile, update_of_ne hfh], by rw [hhydrated],
        by rw [hunsaved, update_of_ne hfh], by rw [hrecorded]⟩) (fun fh _ => hflushed fh) hnext.ge
        ⟨fun _ => ?_, fun g' hg' _ => ?_, fun g' b hg' hb => ?_⟩)
    · obtain rfl := Option.some_injective _ (hself.symm.trans hg)
      rw [hdirty] at hclean
      cases hclean
    · obtain rfl := Option.some_injective _ (hbytes.symm.trans hb)
      exact snapshot_of_dirty hself hdirty hbuf
    · rw [hnext]
      exact (h k).below (Or.inl hopen)
    · obtain rfl := Option.some_injective _ (hself.symm.trans hg')
      rw [hbuf]
      rfl
    · obtain rfl := Option.some_injective _ (hself.symm.trans hg')
      exact hbuf.trans (hbytes.symm.trans hb)

/-- What a `close` does. -/
theorem close_eq_some {fh : ℕ} (he : s.perform (.call (.close fh)) = some s') :
    s'.file = update s.file fh none ∧ s'.vfs.nextFh = s.vfs.nextFh ∧ s'.flights = s.flights ∧
      s'.hydrated = s.hydrated ∧ s'.recorded = s.recorded ∧ s'.unsaved = s.unsaved := by
  obtain rfl := Option.some_injective _ he
  refine ⟨funext fun k => ?_, rfl, rfl, rfl, rfl, rfl⟩
  have herase : (s.vfs.openFiles.erase fh)[k]? = if k = fh then none else s.file k := by
    rw [ExtTreeMap.getElem?_erase]
    simp only [compare_eq_iff_eq]
    exact if_congr eq_comm rfl rfl
  rw [update_apply]
  exact herase

/-- A `close` keeps the invariants exactly if the writes of the handle are saved. -/
theorem Sound.close (h : s.Sound) {fh : ℕ} (he : s.perform (.call (.close fh)) = some s') :
    s'.Sound ∧ (s.NoLostWrite → (s'.NoLostWrite ↔ s.unsaved fh = none)) := by
  obtain ⟨hfile, hnext, hflights, hhydrated, hrecorded, hunsaved⟩ := close_eq_some he
  have hself : s'.file fh = none := by rw [hfile, update_self]
  have hflushed : ∀ k, s'.Flushed k → s.Flushed k := fun k => by
    rw [Flushed, Flushed, hflights, hrecorded]
    exact id
  have hone := h.of_one fh (fun k hk => ⟨by rw [hfile, update_of_ne hk], by rw [hhydrated],
      by rw [hunsaved], by rw [hrecorded]⟩) (fun k _ => hflushed k) hnext.ge
    ⟨fun hused => ?_, fun g hg => ?_, fun g bytes hg => ?_⟩
  · refine ⟨hone.1, fun hno => (hone.2 hno).trans ⟨fun hk => ?_, fun hsaved => ⟨?_, ?_⟩⟩⟩
    · rw [Option.eq_none_iff_forall_ne_some]
      intro bytes hb
      obtain ⟨ino, hsnap⟩ := hk.pending bytes (hunsaved ▸ hb)
      obtain ⟨g, hg⟩ := exists_of_snapshot hsnap
      cases hself.symm.trans hg.1
    · intro file bytes hopen
      cases hself.symm.trans hopen
    · intro bytes hb
      cases hsaved.symm.trans (hunsaved ▸ hb)
  · rw [hself, hunsaved] at hused
    rw [hnext]
    exact (h fh).below (Or.inr ((hused.resolve_left (by simp)).imp_left (hflushed fh)))
  · cases hself.symm.trans hg
  · cases hself.symm.trans hg

theorem Sound.snapshot (h : s.Sound) {fh nowMs : ℕ}
    (he : s.perform (.snapshot fh nowMs) = some s') :
    s'.Sound ∧ (s.NoLostWrite → s'.NoLostWrite) := by
  simp only [perform] at he
  split at he
  · rename_i ino bytes hsnap
    obtain ⟨g, hg, hdirty⟩ := exists_of_snapshot hsnap
    obtain ⟨hfile, hnext, hhydrated, hrecorded, hunsaved, hflights⟩ : s'.file = s.file ∧
        s'.vfs.nextFh = s.vfs.nextFh ∧ s'.hydrated = s.hydrated ∧ s'.recorded = s.recorded ∧
          s'.unsaved = s.unsaved ∧ s'.flights = s.flights ++ [⟨fh, ino, bytes, nowMs⟩] :=
      Option.some_injective _ he ▸ ⟨rfl, rfl, rfl, rfl, rfl, rfl⟩
    have hflushed : ∀ k, k ≠ fh → s'.Flushed k → s.Flushed k := by
      intro k hk
      rw [Flushed, Flushed, hrecorded, hflights]
      refine Or.imp_right fun ⟨f, hf, hfk⟩ => ?_
      rcases List.mem_append.1 hf with hf | hf
      · exact ⟨f, hf, hfk⟩
      · exact absurd (hfk.symm.trans (congrArg Flight.fh (List.mem_singleton.1 hf))) hk
    have hone := h.of_one fh (fun k _ => ⟨congrFun hfile k, congrFun hhydrated k,
      congrFun hunsaved k, congrFun hrecorded k⟩) hflushed hnext.ge
      ⟨fun _ => hnext ▸ (h fh).below (Or.inl (by rw [hg]; rfl)), fun g' hg' _ => ?_,
        hfile ▸ hunsaved ▸ (h fh).unsaved⟩
    · exact ⟨hone.1, fun hno => (hone.2 hno).2 ((hno fh).of_eq (congrFun hfile fh)
        (congrFun hrecorded fh) (congrFun hhydrated fh) (congrFun hunsaved fh))⟩
    · rw [hfile] at hg'
      obtain rfl := Option.some_injective _ (hg.symm.trans hg')
      exact (h fh).warm g hg (Or.inl hdirty)
  · exact Option.some_injective _ he ▸ ⟨h, id⟩

/-- Forgetting a flush under way keeps the invariants. -/
theorem Sound.of_flights (h : s.Sound) {k : ℕ} (hflights : s'.flights = s.flights.eraseIdx k)
    (hfile : s'.file = s.file) (hnext : s'.vfs.nextFh = s.vfs.nextFh)
    (hhydrated : s'.hydrated = s.hydrated) (hrecorded : s'.recorded = s.recorded)
    (hunsaved : s'.unsaved = s.unsaved) : s'.Sound ∧ (s.NoLostWrite → s'.NoLostWrite) := by
  refine ⟨fun fh => (h fh).of_eq (congrFun hfile fh) hnext.ge ?_ (congrFun hunsaved fh),
    fun hno fh => (hno fh).of_eq (congrFun hfile fh) (congrFun hrecorded fh)
      (congrFun hhydrated fh) (congrFun hunsaved fh)⟩
  rw [Flushed, Flushed, hrecorded, hflights]
  exact Or.imp_right fun ⟨f, hf, hfh⟩ => ⟨f, List.mem_of_mem_eraseIdx hf, hfh⟩

/-- The last section of a flush keeps the invariants exactly under its condition. -/
theorem Sound.finish (h : s.Sound) {k : ℕ} {cid : String} (he : s.finish k cid = some s') :
    s'.Sound ∧ (s.NoLostWrite → (s'.NoLostWrite ↔ s.Keeps (.finish k cid))) := by
  obtain ⟨f, hf, hflights, hhydrated, hnext, ⟨hnone, hfile, hrecorded, hunsaved⟩ |
    ⟨⟨node, hnode⟩, hfile, hrecorded, hunsaved⟩⟩ := finish_eq_some he
  · obtain ⟨hsound, hno⟩ := h.of_flights hflights hfile hnext hhydrated hrecorded hunsaved
    refine ⟨hsound, fun hlost => iff_of_true (hno hlost) fun f' node hf' hnode => ?_⟩
    rw [← Option.some_injective _ (hf.symm.trans hf'), hnone] at hnode
    cases hnode
  have hflushed : s.Flushed f.fh := Or.inr ⟨f, List.mem_of_getElem? hf, rfl⟩
  have hself : s'.file f.fh = (s.file f.fh).map fun g => { g with dirty := false } := by
    rw [hfile, update_self]
  have hbytes : s'.recorded f.fh = some f.bytes := by rw [hrecorded, update_self]
  have hsaved : ∀ bytes, s'.unsaved f.fh = some bytes →
      s.unsaved f.fh = some bytes ∧ bytes ≠ f.bytes := by
    intro bytes hb
    rw [hunsaved, save] at hb
    split_ifs at hb with heq
    · rw [update_self] at hb
      cases hb
    · exact ⟨hb, fun hbytes => heq (hbytes ▸ hb)⟩
  have hsame : ∀ fh, fh ≠ f.fh → s'.file fh = s.file fh ∧ s'.hydrated fh = s.hydrated fh ∧
      s'.unsaved fh = s.unsaved fh ∧ s'.recorded fh = s.recorded fh := by
    intro fh hfh
    refine ⟨by rw [hfile, update_of_ne hfh], by rw [hhydrated], ?_,
      by rw [hrecorded, update_of_ne hfh]⟩
    rw [hunsaved, save]
    split_ifs
    · exact update_of_ne hfh ..
    · rfl
  have hfewer : ∀ fh, fh ≠ f.fh → s'.Flushed fh → s.Flushed fh := by
    intro fh hfh
    rw [Flushed, Flushed, (hsame fh hfh).2.2.2, hflights]
    exact Or.imp_right fun ⟨f, hf, hfh⟩ => ⟨f, List.mem_of_mem_eraseIdx hf, hfh⟩
  have hkeeps : s.Keeps (.finish k cid) ↔
      ∀ g, s.file f.fh = some g → g.buf = some f.bytes := by
    refine ⟨fun hk => hk f node hf hnode, fun hk f' node' hf' _ => ?_⟩
    exact Option.some_injective _ (hf.symm.trans hf') ▸ hk
  have hone := h.of_one f.fh hsame hfewer hnext.ge
    ⟨fun _ => hnext ▸ (h f.fh).below (Or.inr (Or.inl hflushed)), fun g hg _ => ?_,
      fun g bytes hg hb => ?_⟩
  · refine ⟨hone.1, fun hno => (hone.2 hno).trans (Iff.trans ?_ hkeeps.symm)⟩
    constructor
    · intro hat g hg
      obtain ⟨bytes, hbuf⟩ := Option.isSome_iff_exists.1 ((h f.fh).warm g hg (Or.inr hflushed))
      have hopen : s'.file f.fh = some { g with dirty := false } := by rw [hself, hg]; rfl
      rcases hat.clean _ bytes hopen rfl hbuf with hr | ⟨hr, -⟩
      · exact hbuf.trans (hr.symm.trans hbytes)
      · cases hr.symm.trans hbytes
    · refine fun hkeep => ⟨fun g' bytes hg' _ hbuf => Or.inl ?_, fun bytes hb => ?_⟩
      · obtain ⟨g, hg, rfl⟩ := Option.map_eq_some_iff.1 (hself.symm.trans hg')
        exact hbytes.trans ((hkeep g hg).symm.trans hbuf)
      · obtain ⟨hb, hne⟩ := hsaved bytes hb
        obtain ⟨ino, hsnap⟩ := (hno f.fh).pending bytes hb
        obtain ⟨g, hg, -⟩ := exists_of_snapshot hsnap
        have hbuf := (h f.fh).unsaved g bytes hg hb
        exact absurd (Option.some_injective _ (hbuf.symm.trans (hkeep g hg))) hne
  · obtain ⟨g₀, hg₀, rfl⟩ := Option.map_eq_some_iff.1 (hself.symm.trans hg)
    exact (h f.fh).warm g₀ hg₀ (Or.inr hflushed)
  · obtain ⟨g₀, hg₀, rfl⟩ := Option.map_eq_some_iff.1 (hself.symm.trans hg)
    exact (h f.fh).unsaved g₀ bytes hg₀ (hsaved bytes hb).1

/-- A step keeps the invariant exactly under its condition. -/
theorem Sound.perform (h : s.Sound) (he : s.perform e = some s') :
    s'.Sound ∧ (s.NoLostWrite → (s'.NoLostWrite ↔ s.Keeps e)) := by
  have hmust : s'.Sound ∧ (s.NoLostWrite → s'.NoLostWrite) → s.Keeps e →
      s'.Sound ∧ (s.NoLostWrite → (s'.NoLostWrite ↔ s.Keeps e)) := fun hkeep htrue =>
    ⟨hkeep.1, fun hno => iff_of_true (hkeep.2 hno) htrue⟩
  cases e with
  | call e =>
    by_cases hclose : ∃ fh, e = .close fh
    · obtain ⟨fh, rfl⟩ := hclose
      exact h.close he
    · obtain ⟨ha, hflights, hrecorded⟩ := perform_acts (fun fh hfh => hclose ⟨fh, hfh⟩) he
      refine hmust (h.acts ha hflights hrecorded) ?_
      cases e with
      | close fh => exact absurd ⟨fh, rfl⟩ hclose
      | _ => trivial
  | snapshot fh nowMs => exact hmust (h.snapshot he) trivial
  | finish k cid => exact h.finish he
  | fail k =>
    obtain rfl := Option.some_injective _ he
    exact hmust (h.of_flights rfl rfl rfl rfl rfl rfl) trivial

theorem Sound.states_iff (h : s.Sound) (hno : s.NoLostWrite) :
    (∀ s' ∈ s.states es, s'.NoLostWrite) ↔ s.RunKeeps es := by
  induction es generalizing s with
  | nil => simpa [states, RunKeeps] using hno
  | cons e es ih =>
    rw [states, List.forall_mem_cons, and_iff_right hno, RunKeeps]
    cases he : s.perform e with
    | none => simp
    | some s₁ =>
      obtain ⟨hsound, hiff⟩ := h.perform he
      simp only [Option.some.injEq, forall_eq']
      rw [← hiff hno]
      by_cases h₁ : s₁.NoLostWrite
      · rw [ih hsound h₁, and_iff_right h₁]
      · exact iff_of_false (fun hall => h₁ (hall s₁ (mem_states s₁ es))) fun hand => h₁ hand.1

/-- No lost write-back. In every state of a run, a clean handle has the bytes of its last recorded
flush, or of its hydration if none was recorded, and a completed write that is not saved is copied
by the next flush, if and only if every flush that saves finds its handle closed or with the bytes
it copied, and every handle is closed with its writes saved. -/
theorem no_lost_write_iff (drive : Drive) (maxFileSize : ℕ) (es : List WriteBackEvent) :
    (∀ s ∈ (start drive maxFileSize).states es, s.NoLostWrite) ↔
      (start drive maxFileSize).RunKeeps es := by
  have hnone : ∀ fh, (start drive maxFileSize).file fh = none := fun fh => by
    simp [file, start, Vfs.new]
  refine Sound.states_iff (fun fh => ⟨?_, fun g hg => ?_, fun g bytes hg => ?_⟩) fun fh => ⟨?_, ?_⟩
  · rw [hnone]
    rintro (hopen | (hr | ⟨f, hf, -⟩) | hu)
    · cases hopen
    · cases hr
    · cases hf
    · cases hu
  · cases (hnone fh).symm.trans hg
  · cases (hnone fh).symm.trans hg
  · intro file bytes hopen
    cases (hnone fh).symm.trans hopen
  · intro bytes hb
    cases hb

/-- A file is created, and written to while its empty bytes are uploaded. -/
def overtakenRun : List WriteBackEvent :=
  [.call (.create 0 ROOT_INO "a" 0), .snapshot 1 1, .call (.write 1 0 [65]), .finish 0 "c"]

/-- The handle is clean and its write is not saved, but a flush finds nothing to save. -/
theorem write_lost : ∃ s ∈ (start (.init "d" "a") 0).states overtakenRun,
    ¬s.NoLostWrite ∧ s.unsaved 1 = some [65] ∧ s.vfs.snapshot 1 = .ok none := by
  have hsnap : (((start (.init "d" "a") 0).states overtakenRun).get
      ⟨4, by decide +kernel⟩).vfs.snapshot 1 = .ok none := by decide +kernel
  have hunsaved : (((start (.init "d" "a") 0).states overtakenRun).get
      ⟨4, by decide +kernel⟩).unsaved 1 = some [65] := by decide +kernel
  refine ⟨_, List.get_mem _ _, fun h => ?_, hunsaved, hsnap⟩
  obtain ⟨ino, hcopied⟩ := (h 1).pending [65] hunsaved
  cases hsnap.symm.trans hcopied

end WriteBack

/-! ## A flush and a fresh open -/

/-- The store of the contents. The cid of an upload is not empty and fetches what was
uploaded. -/
structure BlockStore where
  putBytes : List UInt8 → Except String String
  getObject : String → Except String (List UInt8)
  get_put : ∀ bytes cid, putBytes bytes = .ok cid → getObject cid = .ok bytes
  cid_ne : ∀ bytes cid, putBytes bytes = .ok cid → cid ≠ ""

namespace Vfs

variable {v v' : Vfs} {fh : ℕ} {file : OpenFile} (store : BlockStore)

/-- A `flush` with no other section in between. -/
def flush (v : Vfs) (fh nowMs : ℕ) : Option (Except String (Option String) × Vfs) :=
  match v.snapshot fh with
  | .error e => some (.error e, v)
  | .ok none => some (.ok none, v)
  | .ok (some (ino, bytes)) =>
    match store.putBytes bytes with
    | .error e => some (.error e, v)
    | .ok cid => (v.record fh ino (.new cid bytes.length 0o644 nowMs)).map fun r =>
      (r.1.map some, r.2)

/-- The bytes a cold handle of `node` is hydrated with. -/
def fetch (v : Vfs) (node : NodeId) : Except String (List UInt8) :=
  match v.drive.content[node]? with
  | some c => if c.cid = "" then .ok [] else store.getObject c.cid
  | none => .ok []

def hydrate (v : Vfs) (fh : ℕ) : Except String Vfs :=
  match v.openFiles[fh]? with
  | none => .error ("bad file handle " ++ toString fh)
  | some f =>
    if f.buf.isSome then .ok v
    else match v.nodeOf[f.ino]? with
      | none => .error "handle has no node"
      | some node => (v.fetch store node).map fun bytes => v.fill fh bytes

/-- `read` with no other section in between. The end of the range is a `u64`, and `none` is the
overflow panic of a build that checks it. Others wrap. -/
def read (v : Vfs) (fh offset size : ℕ) : Option (Except String (List UInt8) × Vfs) :=
  match v.hydrate store fh with
  | .error e => some (.error e, v)
  | .ok v =>
    match v.openFiles[fh]? with
    | none => some (.error ("bad file handle " ++ toString fh), v)
    | some f =>
      match f.buf with
      | none => some (.error ("handle " ++ toString fh ++ " not hydrated"), v)
      | some buf =>
        if 2 ^ 64 ≤ offset + size then none
        else some (.ok ((buf.take (min (offset + size) buf.length)).drop (min offset buf.length)), v)

/-- A fresh open of the inode reads `bytes`, in every range. -/
def ReadsBack (v : Vfs) (ino : Ino) (bytes : List UInt8) : Prop :=
  ∀ offset size, offset + size < 2 ^ 64 → ∃ fh v', v.openFile ino = (.ok fh, v') ∧
    (v'.read store fh offset size).map Prod.fst = some (.ok ((bytes.drop offset).take size))

variable {store} {node : NodeId} {ino : Ino} {nowMs : ℕ} {cid : String} {bytes : List UInt8}

/-- The range a read copies. -/
theorem slice_eq (bytes : List UInt8) (offset size : ℕ) :
    (bytes.take (min (offset + size) bytes.length)).drop (min offset bytes.length) =
      (bytes.drop offset).take size := by
  rw [List.drop_take]
  rcases le_total offset bytes.length with h | h
  · rw [min_eq_left h, List.take_eq_take_iff, List.length_drop]
    omega
  · rw [min_eq_right h, List.drop_length, List.drop_of_length_le h]
    simp

theorem readsBack_of_fetch (hnode : v.nodeOf[ino]? = some node)
    (hfetch : v.fetch store node = .ok bytes) : v.ReadsBack store ino bytes := by
  intro offset size hend
  let v₁ : Vfs := { v with
    nextFh := v.nextFh + 1
    openFiles := v.openFiles.insert v.nextFh ⟨ino, none, false⟩ }
  have hopen : v.openFile ino = (.ok v.nextFh, v₁) := by
    simp [openFile, nodeAt, hnode, v₁]
  have hcold : v₁.openFiles[v.nextFh]? = some ⟨ino, none, false⟩ := by simp [v₁]
  have hhyd : v₁.hydrate store v.nextFh = .ok (v₁.fill v.nextFh bytes) := by
    have hfetch₁ : v₁.fetch store node = .ok bytes := hfetch
    have hnode₁ : v₁.nodeOf[ino]? = some node := hnode
    simp [hydrate, hcold, hnode₁, hfetch₁, Except.map]
  have hfilled : (v₁.fill v.nextFh bytes).openFiles[v.nextFh]? = some ⟨ino, some bytes, false⟩ := by
    simp [fill, hcold]
  refine ⟨_, _, hopen, ?_⟩
  simp only [read, hhyd, hfilled, if_neg hend.not_ge, Option.map_some, slice_eq]

theorem flush_eq_ok (h : v.flush store fh nowMs = some (.ok (some cid), v'))
    (hfile : v.openFiles[fh]? = some file) (hnode : v.nodeOf[file.ino]? = some node) :
    store.putBytes (file.buf.getD []) = .ok cid ∧ v'.nodeOf = v.nodeOf ∧
      v'.drive.content = v.drive.content.apply
        (.set node cid (file.buf.getD []).length 0o644 nowMs) := by
  unfold flush snapshot at h
  rw [hfile] at h
  split at h <;> try simp at h
  rename_i hsnap
  obtain ⟨-, rfl, rfl⟩ : file.dirty = true ∧ _ ∧ _ := by simpa using hsnap
  cases hput : store.putBytes (file.buf.getD []) with
  | error e => simp [hput] at h
  | ok c =>
    simp only [hput, record, hnode] at h
    obtain ⟨r, hr, heq⟩ := Option.map_eq_some_iff.1 h
    obtain ⟨d, hd, hr⟩ := Option.bind_eq_some_iff.1 hr
    obtain rfl := Drive.pushContent_eq_some hd
    obtain rfl := Option.some_injective _ hr
    obtain ⟨hc, rfl⟩ := Prod.mk.inj heq
    obtain rfl : c = cid := by simpa [Except.map, FileContent.new] using hc
    exact ⟨rfl, rfl, rfl⟩

/-- Close-to-open. After a flush that uploaded, the node's cid is the one it returned, and a
fresh open reads the bytes it uploaded, if and only if the node had no content, or content of
that cid, or older content, or content as old with a smaller cid. -/
theorem flush_read_iff (store : BlockStore) (hfile : v.openFiles[fh]? = some file)
    (hnode : v.nodeOf[file.ino]? = some node)
    (h : v.flush store fh nowMs = some (.ok (some cid), v')) :
    (v'.drive.content[node]?).map FileContent.cid = some cid ∧
        v'.ReadsBack store file.ino (file.buf.getD []) ↔
      ∀ c, v.drive.content[node]? = some c →
        c.cid = cid ∨ c.mtimeMs < nowMs ∨ c.mtimeMs = nowMs ∧ c.cid < cid := by
  obtain ⟨hput, hnodes, hcontent⟩ := flush_eq_ok h hfile hnode
  have hcid : (v'.drive.content[node]?).map FileContent.cid = some cid ↔
      ∀ c, v.drive.content[node]? = some c →
        c.cid = cid ∨ c.mtimeMs < nowMs ∨ c.mtimeMs = nowMs ∧ c.cid < cid := by
    rw [hcontent, ContentMap.getElem?_apply, ContentOp.target, if_pos rfl]
    cases v.drive.content[node]? with
    | none => simp [ContentMap.applyRecord, FileContent.new]
    | some c => simp [ContentMap.applyRecord, FileContent.cid_record_eq_iff]
  rw [← hcid, and_iff_left_iff_imp]
  intro hcur
  obtain ⟨c, hc, rfl⟩ := Option.map_eq_some_iff.1 hcur
  refine readsBack_of_fetch (hnodes ▸ hnode) ?_
  rw [fetch, hc]
  simp only [store.cid_ne _ _ hput, if_false]
  exact store.get_put _ _ hput

theorem Reachable.run {es : List Event} (h : v.Reachable) (hvalid : ∀ e ∈ es, e.Valid)
    (hrun : es.foldlM perform v = some v') : v'.Reachable :=
  Runs.invariant Reachable h hrun fun e hmem _ _ h he => h.step e (hvalid e hmem) he

end Vfs

/-- A store whose cids spell the bytes. -/
def BlockStore.spelled : BlockStore where
  putBytes bytes := .ok (String.ofList ('c' :: bytes.map fun b => Char.ofNat b.toNat))
  getObject cid := .ok ((cid.toList.drop 1).map fun c => UInt8.ofNat c.toNat)
  get_put bytes cid h := by
    simp [← Except.ok.inj h, Function.comp_def, Digits.toUInt8_ofNat_toNat]
  cid_ne bytes cid h := by simp [← Except.ok.inj h, String.ext_iff]

namespace Vfs

/-- A file is created at `nowMs`, and written to. -/
def written (nowMs : ℕ) : List Event :=
  [.create 0 ROOT_INO "a" nowMs, .write 1 0 [65]]

/-- The file is flushed later than it was created. -/
theorem flush_read_iff_later :
    let v := ((written 0).foldlM perform (.new (.init "d" "a") 0)).get (by decide +kernel)
    let r := (v.flush .spelled 1 5).get (by decide +kernel)
    (r.2.drive.content["00000000000100000000"]?).map FileContent.cid = some "cA" ∧
      r.2.ReadsBack .spelled 2 [65] := by
  intro v r
  have hres : r.1 = .ok (some "cA") := by decide +kernel
  have hfile : v.openFiles[1]? = some ⟨2, some [65], true⟩ := by decide +kernel
  have hnode : v.nodeOf[2]? = some "00000000000100000000" := by decide +kernel
  have hcontent : v.drive.content["00000000000100000000"]? = some (.new "" 0 0o644 0) := by
    decide +kernel
  have hflush : v.flush .spelled 1 5 = some r := (Option.some_get _).symm
  have h : v.flush .spelled 1 5 = some (.ok (some "cA"), r.2) :=
    hflush.trans (congrArg some (Prod.ext hres rfl))
  refine (flush_read_iff .spelled hfile hnode h).2 fun c hc => Or.inr (Or.inl ?_)
  rw [← Option.some_injective _ (hcontent.symm.trans hc)]
  decide

/-- The clock was set back since the file was created : the flush succeeds, and the content
stays the empty one. -/
theorem flush_not_read :
    let v := ((written 9).foldlM perform (.new (.init "d" "a") 0)).get (by decide +kernel)
    let r := (v.flush .spelled 1 5).get (by decide +kernel)
    v.Reachable ∧ v.openFiles[1]? = some ⟨2, some [65], true⟩ ∧ r.1 = .ok (some "cA") ∧
      ¬((r.2.drive.content["00000000000100000000"]?).map FileContent.cid = some "cA" ∧
        r.2.ReadsBack .spelled 2 [65]) := by
  intro v r
  have hv : v.Reachable := Reachable.run (.new ⟨"d", "a", [], rfl⟩ 0)
    (by simp [written, Event.Valid]) (Option.some_get _).symm
  refine ⟨hv, by decide +kernel, by decide +kernel, fun h => ?_⟩
  have hcid := h.1
  revert hcid
  decide +kernel

end Vfs

end CeDrive
