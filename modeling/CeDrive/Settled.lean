import CeDrive.DriveRun
import CeDrive.Push

/-!
# A push that finds nothing to do

A push saves or makes something for every entry of the disk that its check does not pass, and
each of these adds to a log. So a push adds nothing exactly if every check passes: the file of
every path of the disk is recorded with the cid of its bytes, every directory of the disk leads
to a node, and every listed file is on the disk (`Drive.push_idle_iff`).
-/

namespace CeDrive

/-- The path of a place below `path`. -/
def pathBelow (path : String) (q : List String) : String :=
  q.foldl joinPath path

@[simp] theorem pathBelow_nil (path : String) : pathBelow path [] = path := rfl

@[simp] theorem pathBelow_cons (path x : String) (q : List String) :
    pathBelow path (x :: q) = pathBelow (joinPath path x) q := rfl

@[simp] theorem pathBelow_append (path : String) (q q' : List String) :
    pathBelow path (q ++ q') = pathBelow (pathBelow path q) q' :=
  List.foldl_append

theorem components_pathBelow {path : String} {q : List String}
    (hq : ∀ name ∈ q, DriveTree.IsComponent name) :
    DriveTree.components (pathBelow path q) = DriveTree.components path ++ q := by
  induction q generalizing path with
  | nil => simp
  | cons name q ih =>
    obtain ⟨hname, hq⟩ := List.forall_mem_cons.1 hq
    rw [pathBelow_cons, ih hq, components_joinPath _ hname]
    simp

/-- Every upload succeeds. -/
def ObjectStore.Accepts (store : ObjectStore) : Prop :=
  ∀ uploads bytes mode mtimeMs, ∃ put, store.putBytes uploads bytes mode mtimeMs = .ok put

namespace PushStep

variable {f g : PushStep} {P Q : Drive → Prop} {s s' : PushState} {path name e : String}

/-! ## Steps in sequence -/

theorem andThen_eq_ok : f.andThen g s = some (.ok (), s') ↔
    ∃ s₁, f s = some (.ok (), s₁) ∧ g s₁ = some (.ok (), s') := by
  unfold andThen
  constructor
  · intro h
    split at h
    · exact ⟨_, ‹_›, h⟩
    · rename_i hne
      exact absurd h (hne s')
  · rintro ⟨s₁, h₁, h⟩
    rw [h₁]
    exact h

theorem orError_eq_ok : f.orError e s = some (.ok (), s') ↔ f s = some (.ok (), s') := by
  unfold orError
  rw [Option.map_eq_some_iff]
  constructor
  · rintro ⟨⟨r, s₁⟩, h, heq⟩
    obtain ⟨hr, rfl⟩ := Prod.mk.inj heq
    cases r with
    | error => cases hr
    | ok u => exact h
  · exact fun h => ⟨_, h, rfl⟩

/-- A step that succeeds removes nothing from the logs. -/
def Rises (f : PushStep) : Prop :=
  ∀ ⦃s s'⦄, f s = some (.ok (), s') → s.drive.opCount ≤ s'.drive.opCount

/-- A step that succeeds adds to a log. -/
def Adds (f : PushStep) : Prop :=
  ∀ ⦃s s'⦄, f s = some (.ok (), s') → s.drive.opCount < s'.drive.opCount

theorem Adds.rises (h : f.Adds) : f.Rises :=
  fun _ _ hs => (h hs).le

theorem Rises.andThen (hf : f.Rises) (hg : g.Rises) : (f.andThen g).Rises := by
  intro s s' h
  obtain ⟨s₁, h₁, h₂⟩ := andThen_eq_ok.1 h
  exact (hf h₁).trans (hg h₂)

theorem Adds.andThen (hf : f.Adds) (hg : g.Rises) : (f.andThen g).Adds := by
  intro s s' h
  obtain ⟨s₁, h₁, h₂⟩ := andThen_eq_ok.1 h
  exact (hf h₁).trans_le (hg h₂)

theorem Rises.andThen_adds (hf : f.Rises) (hg : g.Adds) : (f.andThen g).Adds := by
  intro s s' h
  obtain ⟨s₁, h₁, h₂⟩ := andThen_eq_ok.1 h
  exact (hf h₁).trans_lt (hg h₂)

theorem Adds.orError (hf : f.Adds) : (f.orError e).Adds :=
  fun _ _ h => hf (orError_eq_ok.1 h)

theorem opCount_moved (d : Drive) (child newParent : NodeId) (newName : String) (kind : NodeKind) :
    (d.moved child newParent newName kind).opCount = d.opCount + 1 := by
  simp only [Drive.opCount, Drive.moved, Drive.pushMove, List.length_append, List.length_singleton]
  omega

theorem opCount_wrote (d : Drive) (op : ContentOp) : (d.wrote op).opCount = d.opCount + 1 := by
  simp only [Drive.opCount, Drive.wrote, List.length_append, List.length_singleton]
  omega

theorem adds_mkdir (path name : String) : (mkdir path name).Adds := by
  intro s s' h
  obtain ⟨r, hr, heq⟩ := Option.map_eq_some_iff.1 h
  obtain ⟨hok, rfl⟩ := Prod.mk.inj heq
  obtain ⟨e, -, rfl⟩ | ⟨parent, -, rfl⟩ := Drive.mkdir_eq_some hr
  · cases hok
  · simp only [opCount_moved]
    omega

theorem adds_addFile (path name : String) (content : FileContent) :
    (addFile path name content).Adds := by
  intro s s' h
  obtain ⟨r, hr, heq⟩ := Option.map_eq_some_iff.1 h
  obtain ⟨hok, rfl⟩ := Prod.mk.inj heq
  obtain ⟨e, -, rfl⟩ | ⟨parent, existing, -, rfl⟩ | ⟨parent, -, rfl⟩ := Drive.addFile_eq_some hr
  · cases hok
  · simp only [opCount_wrote]
    omega
  · simp only [opCount_wrote, opCount_moved]
    omega

theorem adds_rm (path : String) : (rm path).Adds := by
  intro s s' h
  obtain ⟨r, hr, heq⟩ := Option.map_eq_some_iff.1 h
  obtain ⟨hok, rfl⟩ := Prod.mk.inj heq
  obtain ⟨e, -, rfl⟩ | ⟨node, -, rfl⟩ := Drive.rm_eq_some hr
  · cases hok
  · simp only [opCount_moved]
    omega

theorem rises_count (f : PushReport → PushReport) : (count f).Rises := by
  intro s s' h
  obtain ⟨-, rfl⟩ := Prod.mk.inj (Option.some_injective _ h)
  exact le_rfl

theorem rises_ensureComponents (cur : String) (comps : List String) :
    (ensureComponents cur comps).Rises := by
  induction comps generalizing cur with
  | nil =>
    intro s s' h
    obtain ⟨-, rfl⟩ := Prod.mk.inj (Option.some_injective _ h)
    exact le_rfl
  | cons comp comps ih =>
    intro s s' h
    rw [ensureComponents] at h
    dsimp only at h
    split_ifs at h
    · exact (adds_mkdir _ _).rises.andThen (ih _) h
    · exact ih _ h

theorem rises_ensureDirPath (dir : String) : (ensureDirPath dir).Rises := by
  intro s s' h
  unfold ensureDirPath at h
  split_ifs at h
  · obtain ⟨-, rfl⟩ := Prod.mk.inj (Option.some_injective _ h)
    exact le_rfl
  · exact rises_ensureComponents _ _ h

/-! ## Checks -/

/-- The same drive and the same report. -/
structure Kept (s s' : PushState) : Prop where
  drive : s'.drive = s.drive
  ctr : s'.ctr = s.ctr
  report : s'.report = s.report

theorem Kept.refl (s : PushState) : Kept s s := ⟨rfl, rfl, rfl⟩

theorem Kept.trans {s₁ : PushState} (h : Kept s s₁) (h' : Kept s₁ s') : Kept s s' :=
  ⟨h'.drive.trans h.drive, h'.ctr.trans h.ctr, h'.report.trans h.report⟩

/-- Where `P` holds the step changes nothing, and elsewhere it adds to a log if it succeeds. -/
structure Checks (f : PushStep) (P : Drive → Prop) : Prop where
  keeps : ∀ ⦃s⦄, P s.drive → ∃ s', f s = some (.ok (), s') ∧ Kept s s'
  adds : ∀ ⦃s s'⦄, f s = some (.ok (), s') →
    (P s.drive ∧ Kept s s') ∨ s.drive.opCount < s'.drive.opCount

theorem Checks.rises (h : f.Checks P) : f.Rises := by
  intro s s' hs
  rcases h.adds hs with ⟨-, hk⟩ | hlt
  · rw [hk.drive]
  · exact hlt.le

theorem checks_done : Checks (fun s => some (.ok (), s)) fun _ => True where
  keeps s _ := ⟨s, rfl, .refl s⟩
  adds s s' h := by
    obtain ⟨-, rfl⟩ := Prod.mk.inj (Option.some_injective _ h)
    exact Or.inl ⟨trivial, .refl s⟩

theorem Checks.andThen (hf : f.Checks P) (hg : g.Checks Q) :
    (f.andThen g).Checks fun d => P d ∧ Q d where
  keeps s h := by
    obtain ⟨s₁, h₁, hk₁⟩ := hf.keeps h.1
    obtain ⟨s₂, h₂, hk₂⟩ := hg.keeps (hk₁.drive.symm ▸ h.2)
    exact ⟨s₂, andThen_eq_ok.2 ⟨s₁, h₁, h₂⟩, hk₁.trans hk₂⟩
  adds s s' h := by
    obtain ⟨s₁, h₁, h₂⟩ := andThen_eq_ok.1 h
    rcases hf.adds h₁ with ⟨hp, hk₁⟩ | hlt
    · rcases hg.adds h₂ with ⟨hq, hk₂⟩ | hlt
      · exact Or.inl ⟨⟨hp, hk₁.drive ▸ hq⟩, hk₁.trans hk₂⟩
      · exact Or.inr (hk₁.drive ▸ hlt)
    · exact Or.inr (hlt.trans_le (hg.rises h₂))

theorem checks_ensureDir (path name : String) : (ensureDir path name).Checks fun d =>
    (d.tree.resolve (joinPath path name)).isSome where
  keeps s h := by
    have hne : s.drive.tree.resolve (joinPath path name) ≠ none := Option.isSome_iff_ne_none.1 h
    exact ⟨s, by rw [ensureDir, if_neg hne], .refl s⟩
  adds s s' h := by
    unfold ensureDir at h
    split_ifs at h with hres
    · exact Or.inr ((rises_ensureDirPath _).andThen_adds (adds_mkdir _ _) h)
    · obtain ⟨-, rfl⟩ := Prod.mk.inj (Option.some_injective _ h)
      exact Or.inl ⟨Option.isSome_iff_ne_none.2 hres, .refl s⟩

variable {store : ObjectStore}

theorem checks_pushFile (hput : store.Accepts) (path name : String) (f : DiskFile) :
    (pushFile store path name f).Checks fun d =>
      d.existingCid (joinPath path name) = some (store.cidOf f.bytes) where
  keeps s h := by
    obtain ⟨put, hok⟩ := hput s.uploads f.bytes f.mode f.mtimeMs
    have hcid : put.content.cid = store.cidOf f.bytes := by
      rw [store.content_eq hok]
      rfl
    refine ⟨{ s with uploads := s.uploads ++ [f.bytes] }, ?_, rfl, rfl, rfl⟩
    rw [pushFile]
    simp only [hok, hcid, h, if_true]
  adds s s' h := by
    unfold pushFile at h
    dsimp only at h
    split at h
    · cases h
    · rename_i put hok
      have hcid : put.content.cid = store.cidOf f.bytes := by
        rw [store.content_eq hok]
        rfl
      split_ifs at h with hsame
      · obtain ⟨-, rfl⟩ := Prod.mk.inj (Option.some_injective _ h)
        exact Or.inl ⟨hcid ▸ hsame, rfl, rfl, rfl⟩
      · have hlt := (rises_ensureDirPath _).andThen_adds
          ((adds_addFile _ _ _).orError.andThen (rises_count _)) h
        exact Or.inr hlt

/-- Every file of the disk is recorded with the cid of its bytes, and every directory is
there. -/
def Settled (store : ObjectStore) (d : Drive) : DiskDir → String → Prop
  | .nil, _ => True
  | .file name f rest, path =>
    d.existingCid (joinPath path name) = some (store.cidOf f.bytes) ∧ Settled store d rest path
  | .dir name entries rest, path =>
    ((d.tree.resolve (joinPath path name)).isSome ∧ Settled store d entries (joinPath path name)) ∧
      Settled store d rest path

theorem settled_iff {d : Drive} {disk : DiskDir} : Settled store d disk path ↔
    (∀ q f, disk.HasFile q f → d.existingCid (pathBelow path q) = some (store.cidOf f.bytes)) ∧
      ∀ q, disk.HasDir q → (d.tree.resolve (pathBelow path q)).isSome := by
  induction disk generalizing path with
  | nil => exact iff_of_true trivial ⟨fun _ _ => False.elim, fun _ => False.elim⟩
  | file name f rest ih =>
    rw [Settled, ih]
    constructor
    · rintro ⟨hf, hfiles, hdirs⟩
      refine ⟨fun q g hq => ?_, hdirs⟩
      rcases hq with ⟨rfl, rfl⟩ | hq
      · exact hf
      · exact hfiles q g hq
    · exact fun h => ⟨h.1 [name] f (Or.inl ⟨rfl, rfl⟩), fun q g hq => h.1 q g (Or.inr hq), h.2⟩
  | dir name entries rest ihe ih =>
    rw [Settled, ih, ihe]
    constructor
    · rintro ⟨⟨hdir, hfiles, hdirs⟩, hfiles', hdirs'⟩
      refine ⟨fun q g hq => ?_, fun q hq => ?_⟩
      · rcases hq with ⟨q', rfl, hq⟩ | hq
        · exact hfiles q' g hq
        · exact hfiles' q g hq
      · rcases hq with ⟨q', rfl, rfl | hq⟩ | hq
        · exact hdir
        · exact hdirs q' hq
        · exact hdirs' q hq
    · exact fun h => ⟨⟨h.2 [name] (Or.inl ⟨[], rfl, Or.inl rfl⟩),
        fun q g hq => h.1 (name :: q) g (Or.inl ⟨q, rfl, hq⟩),
        fun q hq => h.2 (name :: q) (Or.inl ⟨q, rfl, Or.inr hq⟩)⟩,
        fun q g hq => h.1 q g (Or.inr hq), fun q hq => h.2 q (Or.inr hq)⟩

theorem checks_pushDir (hput : store.Accepts) (disk : DiskDir) (path : String) :
    (pushDir store disk path).Checks fun d => Settled store d disk path := by
  induction disk generalizing path with
  | nil => exact checks_done
  | file name f rest ih => exact (checks_pushFile hput path name f).andThen (ih path)
  | dir name entries rest ihe ih =>
    exact ((checks_ensureDir path name).andThen (ihe (joinPath path name))).andThen (ih path)

theorem checks_removeMissing (onDisk paths : List String) :
    (removeMissing onDisk paths).Checks fun _ => ∀ p ∈ paths, p ∈ onDisk := by
  induction paths with
  | nil => exact ⟨fun s _ => ⟨s, rfl, .refl s⟩, fun s s' h =>
      (checks_done.adds h).imp_left fun h => ⟨by simp, h.2⟩⟩
  | cons p ps ih =>
    rw [removeMissing]
    split_ifs with hp
    · exact ⟨fun s h => ih.keeps fun x hx => h x (List.mem_cons_of_mem _ hx), fun s s' h =>
        (ih.adds h).imp_left fun h => ⟨List.forall_mem_cons.2 ⟨hp, h.1⟩, h.2⟩⟩
    · exact ⟨fun s h => absurd (h p List.mem_cons_self) hp, fun s s' h =>
        Or.inr (((adds_rm p).orError.andThen ((rises_count _).andThen ih.rises)) h)⟩

theorem checks_removePaths (k : ℕ) (onDisk : List String) : (removePaths k onDisk).Checks fun d =>
    ∃ paths, d.driveFilePaths k "/" = some paths ∧ ∀ p ∈ paths, p ∈ onDisk where
  keeps s h := by
    obtain ⟨paths, hpaths, hsub⟩ := h
    obtain ⟨s', hs', hk⟩ := (checks_removeMissing onDisk paths).keeps (s := s) hsub
    exact ⟨s', by rw [removePaths, hpaths]; exact hs', hk⟩
  adds s s' h := by
    unfold removePaths at h
    split at h
    · cases h
    · rename_i paths hpaths
      exact ((checks_removeMissing onDisk paths).adds h).imp_left fun h =>
        ⟨⟨paths, hpaths, h.1⟩, h.2⟩

end PushStep

theorem mem_collectDiskPaths {disk : DiskDir} {path p : String} :
    p ∈ collectDiskPaths disk path ↔ ∃ q f, disk.HasFile q f ∧ p = pathBelow path q := by
  induction disk generalizing path with
  | nil => exact iff_of_false (by simp [collectDiskPaths]) (by simp [DiskDir.HasFile])
  | file name f rest ih =>
    rw [collectDiskPaths, List.mem_cons, ih]
    constructor
    · rintro (rfl | ⟨q, g, hq, rfl⟩)
      · exact ⟨[name], f, Or.inl ⟨rfl, rfl⟩, rfl⟩
      · exact ⟨q, g, Or.inr hq, rfl⟩
    · rintro ⟨q, g, ⟨rfl, rfl⟩ | hq, rfl⟩
      · exact Or.inl rfl
      · exact Or.inr ⟨q, g, hq, rfl⟩
  | dir name entries rest ihe ih =>
    rw [collectDiskPaths, List.mem_append, ihe, ih]
    constructor
    · rintro (⟨q, g, hq, rfl⟩ | ⟨q, g, hq, rfl⟩)
      · exact ⟨name :: q, g, Or.inl ⟨q, rfl, hq⟩, rfl⟩
      · exact ⟨q, g, Or.inr hq, rfl⟩
    · rintro ⟨q, g, ⟨q', rfl, hq⟩ | hq, rfl⟩
      · exact Or.inl ⟨q', g, hq, rfl⟩
      · exact Or.inr ⟨q, g, hq, rfl⟩

namespace Drive

open PushStep

/-- The push succeeds, reports nothing changed and nothing removed, and adds to no log. -/
def IdlePush (store : ObjectStore) (k : ℕ) (disk : DiskDir) (d : Drive) (ctr : ℕ)
    (uploads : List (List UInt8)) : Prop :=
  ∃ report s, d.push store k disk ctr uploads = some (.ok report, s) ∧ report.changed = 0 ∧
    report.removed = 0 ∧ s.drive.state.moveLog = d.state.moveLog ∧
    s.drive.state.contentLog = d.state.contentLog

/-- A push is idle exactly if every check passes. -/
theorem push_idle_iff {store : ObjectStore} (hput : store.Accepts) (k : ℕ) (disk : DiskDir)
    (d : Drive) (ctr : ℕ) (uploads : List (List UInt8)) :
    d.IdlePush store k disk ctr uploads ↔ Settled store d disk "/" ∧
      ∃ paths, d.driveFilePaths k "/" = some paths ∧ ∀ p ∈ paths, p ∈ collectDiskPaths disk "/" := by
  have hchecks := (checks_pushDir hput disk "/").andThen
    (checks_removePaths k (collectDiskPaths disk "/"))
  constructor
  · rintro ⟨report, s, hpush, -, -, hmoves, hcontent⟩
    obtain ⟨⟨r, s'⟩, hrun, heq⟩ := Option.map_eq_some_iff.1 hpush
    obtain ⟨hr, rfl⟩ := Prod.mk.inj heq
    cases r with
    | error => cases hr
    | ok u =>
      rcases hchecks.adds hrun with ⟨hp, -⟩ | hlt
      · exact hp
      · have hsame : s'.drive.opCount = d.opCount := by
          rw [opCount, hmoves, hcontent, opCount]
        exact absurd hsame hlt.ne'
  · intro h
    obtain ⟨s', hrun, hk⟩ := hchecks.keeps (s := ⟨d, ctr, ⟨0, 0, 0⟩, uploads⟩) h
    refine ⟨s'.report, s', ?_, ?_, ?_, ?_, ?_⟩
    · rw [push, hrun]
      rfl
    · rw [hk.report]
    · rw [hk.report]
    · rw [hk.drive]
    · rw [hk.drive]

end Drive

end CeDrive
