import CeDrive.DiskCalls
import CeDrive.PlainNames
import CeDrive.Settled

/-!
# Materialize, then push

A drive is materialized into an empty directory, and the directory is pushed back. `placed` are
the entries the walk comes to, each with its path in the drive and its target on the disk;
`materialize` writes those that are directories or have content, in this order.

The push changes nothing exactly if the drive is carried (`push_materialized_iff`) : every listed
file is written to the place its path names, what its path leads to is recorded with the cid of
the bytes last written there, and the path of every directory made leads to a node. A file
without a content record is not written, so the push deletes it; one with an empty cid is
written as an empty file, and the push saves the cid of the empty bytes.
-/

namespace CeDrive

/-- An entry a walk comes to, with its path in the drive and its target on the disk. -/
structure Placed where
  path : String
  target : OsPath
  entry : DirEntry

namespace Drive

/-- What a walk comes to by one entry. -/
def placedEntry (visit : String → OsPath → Option (List Placed)) (path : String) (out : OsPath)
    (e : DirEntry) : Option (List Placed) :=
  let x : Placed := ⟨joinPath path e.name, out.join e.name, e⟩
  if e.isDir then (visit x.path x.target).map (x :: ·) else some [x]

/-- The entries a walk comes to, in its order; `none` if it fails or goes deeper than `k`. -/
def placed (d : Drive) : ℕ → String → OsPath → Option (List Placed)
  | 0, _, _ => none
  | k + 1, path, out =>
    match d.ls path with
    | .error _ => none
    | .ok entries => collect (placedEntry (placed d k) path out) entries

end Drive

/-- The calls that write an entry. The bytes of a non-empty cid are an answer of the store. -/
def Placed.Calls (host : Host) (x : Placed) (calls : List DiskCall) : Prop :=
  if x.entry.isDir then calls = [.createDirAll x.target]
  else match x.entry.content with
    | none => calls = []
    | some c => ∃ bytes, calls = [.write x.target bytes] ∧
      if c.cid = "" then bytes = [] else ∃ done, host.getObject done c.cid = .ok bytes

/-- The calls that write the entries. -/
def Made (host : Host) : List Placed → List DiskCall → Prop
  | [], calls => calls = []
  | x :: l, calls => ∃ cs rest, x.Calls host cs ∧ Made host l rest ∧ calls = cs ++ rest

variable {host : Host} {d : Drive} {k k' : ℕ} {path name p : String} {out : OsPath} {w w' : Walk}
  {l l' : List Placed} {calls calls' : List DiskCall} {x : Placed} {e : DirEntry}
  {entries : List DirEntry} {visit : Visit} {visit' : String → OsPath → Option (List Placed)}

theorem Made.append (h : Made host l calls) (h' : Made host l' calls') :
    Made host (l ++ l') (calls ++ calls') := by
  induction l generalizing calls with
  | nil =>
    obtain rfl : calls = [] := h
    exact h'
  | cons x l ih =>
    obtain ⟨cs, rest, hx, hrest, rfl⟩ := h
    exact ⟨cs, rest ++ calls', hx, ih hrest, List.append_assoc ..⟩

namespace Drive

/-! ## The calls of a walk that succeeds -/

/-- A walk that succeeds makes the entries it comes to. -/
def Visit.Makes (host : Host) (visit : Visit) (visit' : String → OsPath → Option (List Placed)) :
    Prop :=
  ∀ ⦃path out w w'⦄, visit path out w = (some (.ok ()), w') →
    ∃ l calls, visit' path out = some l ∧ Made host l calls ∧ w'.calls = w.calls ++ calls

theorem calls_materializeFile {content : FileContent} {target : OsPath}
    (h : materializeFile host name target content w = (.ok (), w')) : ∃ bytes,
      w'.calls = w.calls ++ [.write target bytes] ∧
        if content.cid = "" then bytes = [] else ∃ done, host.getObject done content.cid = .ok bytes := by
  unfold materializeFile at h
  split at h
  · cases h
  · rename_i bytes hbytes
    dsimp only at h
    split_ifs at h
    · obtain ⟨-, rfl⟩ := Prod.mk.inj h
      refine ⟨bytes, rfl, ?_⟩
      split_ifs at hbytes ⊢
      · exact (Except.ok.inj hbytes).symm
      · exact ⟨w.calls, hbytes⟩
    · cases (Prod.mk.inj h).1

theorem calls_materializeEntry (hv : Visit.Makes host visit visit')
    (h : materializeEntry host visit path out e w = (some (.ok ()), w')) :
    ∃ l calls, placedEntry visit' path out e = some l ∧ Made host l calls ∧
      w'.calls = w.calls ++ calls := by
  unfold materializeEntry at h
  unfold placedEntry
  dsimp only at h ⊢
  split at h
  · rename_i hdir
    split_ifs at h
    · obtain ⟨l, calls, hl, hmade, hcalls⟩ := hv h
      let x : Placed := ⟨joinPath path e.name, out.join e.name, e⟩
      have hx : x.Calls host [.createDirAll x.target] := by
        rw [Placed.Calls, if_pos hdir]
      refine ⟨x :: l, .createDirAll x.target :: calls, ?_, ⟨_, calls, hx, hmade, rfl⟩, ?_⟩
      · rw [if_pos hdir, hl]
        rfl
      · rw [hcalls, List.append_assoc]
        rfl
    · cases Option.some_injective _ (Prod.mk.inj h).1
  · rename_i hdir
    rw [if_neg hdir]
    split at h
    · rename_i content hcontent
      obtain ⟨hr, rfl⟩ := Prod.mk.inj h
      obtain ⟨bytes, hcalls, hbytes⟩ := calls_materializeFile
        (Prod.ext (Option.some_injective _ hr) rfl)
      refine ⟨_, _, rfl, ⟨_, [], ?_, rfl, (List.append_nil _).symm⟩, hcalls⟩
      rw [Placed.Calls, if_neg hdir, hcontent]
      exact ⟨bytes, rfl, hbytes⟩
    · rename_i hcontent
      obtain ⟨-, rfl⟩ := Prod.mk.inj h
      refine ⟨_, [], rfl, ⟨[], [], ?_, rfl, rfl⟩, (List.append_nil _).symm⟩
      rw [Placed.Calls, if_neg hdir, hcontent]

theorem calls_materializeEntries (hv : Visit.Makes host visit visit')
    (h : materializeEntries host visit path out entries w = (some (.ok ()), w')) :
    ∃ l calls, collect (placedEntry visit' path out) entries = some l ∧ Made host l calls ∧
      w'.calls = w.calls ++ calls := by
  induction entries generalizing w with
  | nil =>
    obtain ⟨-, rfl⟩ := Prod.mk.inj h
    exact ⟨[], [], rfl, rfl, (List.append_nil _).symm⟩
  | cons e entries ih =>
    rw [materializeEntries] at h
    split at h
    · rename_i w₁ he
      obtain ⟨l₁, calls₁, hl₁, hmade₁, hcalls₁⟩ := calls_materializeEntry hv he
      obtain ⟨l₂, calls₂, hl₂, hmade₂, hcalls₂⟩ := ih h
      refine ⟨l₁ ++ l₂, calls₁ ++ calls₂, collect_cons_eq_some.2 ⟨l₁, l₂, hl₁, hl₂, rfl⟩,
        hmade₁.append hmade₂, ?_⟩
      rw [hcalls₂, hcalls₁, List.append_assoc]
    · rename_i hne
      exact absurd h (hne w')

theorem makes_materializeDir (d : Drive) (host : Host) (k : ℕ) :
    Visit.Makes host (d.materializeDir host k) (d.placed k) := by
  induction k with
  | zero => intro path out w w' h; cases (Prod.mk.inj h).1
  | succ k ih =>
    intro path out w w' h
    cases hls : d.ls path with
    | error e =>
      simp only [materializeDir, hls] at h
      cases (Prod.mk.inj h).1
    | ok entries =>
      simp only [materializeDir, hls] at h
      simp only [placed, hls]
      exact calls_materializeEntries ih h

theorem calls_materialize {report : MaterializeReport}
    (h : d.materialize host k out = (some (.ok report), w)) :
    ∃ l calls, d.placed k "/" out = some l ∧ Made host l calls ∧
      w.calls = .createDirAll out :: calls := by
  unfold materialize at h
  dsimp only at h
  split_ifs at h
  · obtain ⟨hr, rfl⟩ := Prod.mk.inj h
    obtain ⟨r, hr, hok⟩ := Option.map_eq_some_iff.1 hr
    cases r with
    | error => cases hok
    | ok u => exact makes_materializeDir d host k (Prod.ext hr rfl)
  · cases Option.some_injective _ (Prod.mk.inj h).1

/-! ## What is listed -/

theorem driveFilePaths_of_placed (h : d.placed k path out = some l) :
    d.driveFilePaths k path = some ((l.filter fun x => !x.entry.isDir).map Placed.path) := by
  induction k generalizing path out l with
  | zero => cases h
  | succ k ih =>
    cases hls : d.ls path with
    | error e =>
      simp only [placed, hls] at h
      cases h
    | ok entries =>
      simp only [placed, hls] at h
      simp only [driveFilePaths, hls]
      refine collect_map (h := fun l => (l.filter fun x => !x.entry.isDir).map Placed.path) rfl
        (by simp) (fun e _ b hb => ?_) h
      unfold placedEntry at hb
      unfold entryFilePaths
      dsimp only at hb ⊢
      split_ifs at hb ⊢ with hdir
      · obtain ⟨b', hb', rfl⟩ := Option.map_eq_some_iff.1 hb
        rw [ih hb']
        simp [hdir]
      · obtain rfl := Option.some_injective _ hb
        simp [hdir]

theorem content_of_mem_placed (h : d.placed k path out = some l) (hx : x ∈ l) :
    x.entry.content = d.content[x.entry.nodeId]? := by
  induction k generalizing path out l with
  | zero => cases h
  | succ k ih =>
    rw [placed] at h
    split at h
    · cases h
    · rename_i entries hls
      obtain ⟨e, he, b, hb, hxb, -⟩ := exists_mem_of_collect h hx
      unfold placedEntry at hb
      dsimp only at hb
      have hself : e.content = d.content[e.nodeId]? := by
        unfold ls at hls
        split at hls
        · cases hls
        · obtain rfl := Except.ok.inj hls
          obtain ⟨entry, -, rfl⟩ := List.mem_map.1 he
          rfl
      split_ifs at hb
      · obtain ⟨b', hb', rfl⟩ := Option.map_eq_some_iff.1 hb
        rcases List.mem_cons.1 hxb with rfl | hxb
        · exact hself
        · exact ih hb' hxb
      · obtain rfl := Option.some_injective _ hb
        rw [List.mem_singleton.1 hxb]
        exact hself

end Drive

/-! ## What the disk holds -/

/-- The cid of what an entry writes to a place. -/
def Placed.cidAt (cidOf : List UInt8 → String) (cwd loc : List String) (x : Placed) : Option String :=
  match x.entry.isDir, x.entry.content with
  | false, some c =>
    if x.target.location cwd = loc then some (if c.cid = "" then cidOf [] else c.cid) else none
  | _, _ => none

/-- The cid of what is last written to a place. -/
def lastCid (cidOf : List UInt8 → String) (cwd loc : List String) : List Placed → Option String
  | [] => none
  | x :: l => (lastCid cidOf cwd loc l).or (x.cidAt cidOf cwd loc)

variable {cidOf : List UInt8 → String} {cwd loc : List String} {cid : String}

theorem Placed.cidAt_eq_some : x.cidAt cidOf cwd loc = some cid ↔ x.entry.isDir = false ∧
    ∃ c, x.entry.content = some c ∧ x.target.location cwd = loc ∧
      (if c.cid = "" then cidOf [] else c.cid) = cid := by
  unfold Placed.cidAt
  split
  · rename_i c hdir hcontent
    simp [hdir, hcontent]
  · rename_i hne
    refine iff_of_false (by simp) ?_
    rintro ⟨hdir, c, hcontent, -⟩
    exact hne c hdir hcontent

theorem exists_of_lastCid (h : lastCid cidOf cwd loc l = some cid) :
    ∃ x ∈ l, x.cidAt cidOf cwd loc = some cid := by
  induction l with
  | nil => cases h
  | cons x l ih =>
    rcases Option.or_eq_some_iff.1 h with h | ⟨-, h⟩
    · obtain ⟨y, hy, hcid⟩ := ih h
      exact ⟨y, List.mem_cons_of_mem _ hy, hcid⟩
    · exact ⟨x, List.mem_cons_self, h⟩

theorem isSome_lastCid (hx : x ∈ l) (h : (x.cidAt cidOf cwd loc).isSome) :
    (lastCid cidOf cwd loc l).isSome := by
  induction l with
  | nil => cases hx
  | cons y l ih =>
    rw [lastCid, Option.isSome_or, Bool.or_eq_true]
    rcases List.mem_cons.1 hx with rfl | hx
    · exact Or.inr h
    · exact Or.inl (ih hx)

theorem lastWrite_append : lastWrite cwd loc (calls ++ calls') =
    (lastWrite cwd loc calls').or (lastWrite cwd loc calls) := by
  induction calls with
  | nil => simp [lastWrite]
  | cons c calls ih => rw [List.cons_append, lastWrite, ih, lastWrite, Option.or_assoc]

/-- Every answer of the store for a stored cid has this cid. -/
def Answers (host : Host) (cidOf : List UInt8 → String) (d : Drive) : Prop :=
  ∀ ⦃id : NodeId⦄ ⦃c : FileContent⦄ ⦃done bytes⦄, d.content[id]? = some c → c.cid ≠ "" →
    host.getObject done c.cid = .ok bytes → cidOf bytes = c.cid

theorem Placed.Calls.lastWrite (hhost : Answers host cidOf d)
    (hcontent : x.entry.content = d.content[x.entry.nodeId]?) (h : x.Calls host calls) :
    (lastWrite cwd loc calls).map cidOf = x.cidAt cidOf cwd loc := by
  unfold Placed.Calls at h
  unfold Placed.cidAt
  split_ifs at h with hdir
  · rw [h, hdir]
    rfl
  · rw [Bool.not_eq_true] at hdir
    rw [hdir]
    cases hc : x.entry.content with
    | none =>
      rw [hc] at h
      rw [h]
      rfl
    | some c =>
      rw [hc] at h hcontent
      obtain ⟨bytes, rfl, hbytes⟩ := h
      have hcid : cidOf bytes = if c.cid = "" then cidOf [] else c.cid := by
        split_ifs at hbytes ⊢ with hempty
        · rw [hbytes]
        · obtain ⟨done, hget⟩ := hbytes
          exact hhost hcontent.symm hempty hget
      by_cases hloc : x.target.location cwd = loc <;>
        simp [CeDrive.lastWrite, DiskCall.bytesAt, hloc, hcid]

/-- What is last written to a place has the cid of the entry last written to it. -/
theorem Made.lastWrite (hhost : Answers host cidOf d)
    (hcontent : ∀ x ∈ l, x.entry.content = d.content[x.entry.nodeId]?) (h : Made host l calls) :
    (lastWrite cwd loc calls).map cidOf = lastCid cidOf cwd loc l := by
  induction l generalizing calls with
  | nil =>
    obtain rfl : calls = [] := h
    rfl
  | cons x l ih =>
    obtain ⟨cs, rest, hx, hrest, rfl⟩ := h
    rw [lastWrite_append, lastCid, ← ih (fun y hy => hcontent y (List.mem_cons_of_mem _ hy)) hrest,
      ← hx.lastWrite hhost (hcontent x List.mem_cons_self), Option.map_or]

/-- The directories made are those of the listed ones. -/
theorem Made.passes_iff (h : Made host l calls) : (∃ c ∈ calls, c.Passes cwd loc) ↔
    ∃ x ∈ l, x.entry.isDir = true ∧ loc ∈ x.target.stations cwd := by
  induction l generalizing calls with
  | nil =>
    obtain rfl : calls = [] := h
    simp
  | cons x l ih =>
    obtain ⟨cs, rest, hx, hrest, rfl⟩ := h
    have hself : (∃ c ∈ cs, c.Passes cwd loc) ↔
        x.entry.isDir = true ∧ loc ∈ x.target.stations cwd := by
      unfold Placed.Calls at hx
      split_ifs at hx with hdir
      · simp [hx, hdir, DiskCall.Passes]
      · split at hx
        · simp [hx, hdir]
        · obtain ⟨bytes, rfl, -⟩ := hx
          simp [hdir, DiskCall.Passes]
    simp only [List.mem_append, or_and_right, exists_or, List.exists_mem_cons_iff, ← ih hrest, hself]

namespace Drive

/-- The entries a walk comes to are found again from the disk. -/
structure Carries (cidOf : List UInt8 → String) (d : Drive) (cwd : List String) (out : OsPath)
    (l : List Placed) : Prop where
  /-- Every listed file is written, to the place its path names. -/
  files : ∀ x ∈ l, x.entry.isDir = false →
    ∃ q, (lastCid cidOf cwd (out.location cwd ++ q) l).isSome ∧ x.path = pathBelow "/" q
  /-- What is last written to a place is recorded where the path of the place leads. -/
  recorded : ∀ q cid, lastCid cidOf cwd (out.location cwd ++ q) l = some cid →
    d.existingCid (pathBelow "/" q) = some cid
  /-- The path of every directory made leads to a node. -/
  dirs : ∀ target, (target = out ∨ ∃ x ∈ l, x.entry.isDir = true ∧ x.target = target) →
    ∀ q, q ≠ [] → out.location cwd ++ q ∈ target.stations cwd →
      (d.tree.resolve (pathBelow "/" q)).isSome

/-- Materialize a drive into an empty directory, and push what it then holds : the push changes
nothing exactly if the drive is carried. -/
theorem push_materialized_iff (d : Drive) (store : ObjectStore) (hput : store.Accepts) (host : Host)
    (hhost : Answers host store.cidOf d) (cwd : List String) (out : OsPath) (k : ℕ)
    (report : MaterializeReport) (w : Walk)
    (hm : d.materialize host k out = (some (.ok report), w)) (stamp : List DiskCall → ℕ × ℕ)
    (disk : DiskDir) (hdisk : afterCalls cwd (out.location cwd) stamp w.calls = some disk)
    (k' : ℕ) (hk : k ≤ k') (ctr : ℕ) (uploads : List (List UInt8)) :
    d.IdlePush store k' disk ctr uploads ↔
      ∃ l, d.placed k "/" out = some l ∧ d.Carries store.cidOf cwd out l := by
  obtain ⟨l, calls, hl, hmade, hcalls⟩ := calls_materialize hm
  have hsorted := sorted_afterCalls hdisk
  have hcid : ∀ q, (disk.bytesAt q).map store.cidOf =
      lastCid store.cidOf cwd (out.location cwd ++ q) l := by
    intro q
    rw [look_afterCalls_file hdisk, hcalls,
      ← hmade.lastWrite hhost fun x hx => content_of_mem_placed hl hx, lastWrite]
    simp [DiskCall.bytesAt]
  have hfile : ∀ q cid, lastCid store.cidOf cwd (out.location cwd ++ q) l = some cid ↔
      ∃ f, disk.HasFile q f ∧ store.cidOf f.bytes = cid := by
    intro q cid
    rw [← hcid]
    simp [DiskDir.bytesAt, hsorted.apart.hasFile_iff, Option.join_eq_some_iff]
  have hdir : ∀ q, q ≠ [] → (disk.HasDir q ↔ ∃ target,
      (target = out ∨ ∃ x ∈ l, x.entry.isDir = true ∧ x.target = target) ∧
        out.location cwd ++ q ∈ target.stations cwd) := by
    intro q hq
    obtain ⟨x, q, rfl⟩ := List.exists_cons_of_ne_nil hq
    rw [hsorted.apart.hasDir_iff, look_afterCalls_dir hdisk hq, hcalls]
    rw [List.exists_mem_cons_iff, hmade.passes_iff]
    constructor
    · rintro (⟨target, heq, hmem⟩ | ⟨x, hx, hxdir, hmem⟩)
      · exact ⟨out, Or.inl rfl, DiskCall.createDirAll.inj heq ▸ hmem⟩
      · exact ⟨x.target, Or.inr ⟨x, hx, hxdir, rfl⟩, hmem⟩
    · rintro ⟨target, rfl | ⟨x, hx, hxdir, rfl⟩, hmem⟩
      · exact Or.inl ⟨target, rfl, hmem⟩
      · exact Or.inr ⟨x, hx, hxdir, hmem⟩
  rw [push_idle_iff hput, PushStep.settled_iff, driveFilePaths_mono (driveFilePaths_of_placed hl) hk]
  constructor
  · rintro ⟨⟨hfiles, hdirs⟩, paths, hpaths, hsub⟩
    obtain rfl := Option.some_injective _ hpaths
    refine ⟨l, hl, fun x hx hxfile => ?_, fun q cid hlast => ?_, fun target htarget q hq hmem => ?_⟩
    · have hxpath : x.path ∈ (l.filter fun x => !x.entry.isDir).map Placed.path :=
        List.mem_map_of_mem (List.mem_filter.2 ⟨hx, by simp [hxfile]⟩)
      obtain ⟨q, f, hq, hpath⟩ := mem_collectDiskPaths.1 (hsub _ hxpath)
      exact ⟨q, Option.isSome_iff_exists.2 ⟨_, (hfile q _).2 ⟨f, hq, rfl⟩⟩, hpath⟩
    · obtain ⟨f, hq, rfl⟩ := (hfile q cid).1 hlast
      exact hfiles q f hq
    · exact hdirs q ((hdir q hq).2 ⟨target, htarget, hmem⟩)
  · rintro ⟨l', hl', hcarries⟩
    obtain rfl := Option.some_injective _ (hl.symm.trans hl')
    refine ⟨⟨fun q f hq => hcarries.recorded q _ ((hfile q _).2 ⟨f, hq, rfl⟩), fun q hq => ?_⟩, _,
      rfl, fun p hp => ?_⟩
    · rcases eq_or_ne q [] with rfl | hne
      · exact absurd hq (DiskDir.not_hasDir_nil disk)
      · obtain ⟨target, htarget, hmem⟩ := (hdir q hne).1 hq
        exact hcarries.dirs target htarget q hne hmem
    · obtain ⟨x, hx, rfl⟩ := List.mem_map.1 hp
      obtain ⟨hxl, hxfile⟩ := List.mem_filter.1 hx
      obtain ⟨q, hlast, hpath⟩ := hcarries.files x hxl (by simpa using hxfile)
      obtain ⟨cid, hlast⟩ := Option.isSome_iff_exists.1 hlast
      obtain ⟨f, hq, -⟩ := (hfile q cid).1 hlast
      exact mem_collectDiskPaths.2 ⟨q, f, hq, hpath⟩

/-! ## Plain names -/

/-- The entry is where its path says, and its path leads to it. -/
structure Finds (d : Drive) (path : String) (out : OsPath) (x : Placed) (q : List String) : Prop where
  path : x.path = pathBelow path q
  target : x.target = { out with comps := out.comps ++ q }
  plain : ∀ name ∈ q, Plain name
  resolve : d.tree.resolve x.path = some x.entry.nodeId

theorem map_sublist_of_collect {visit' : String → OsPath → Option (List Placed)}
    (h : collect (placedEntry visit' path out) entries = some l) :
    (entries.map fun e => joinPath path e.name).Sublist (l.map Placed.path) := by
  induction entries generalizing l with
  | nil => exact List.nil_sublist _
  | cons e entries ih =>
    obtain ⟨b₁, b₂, h₁, h₂, rfl⟩ := collect_cons_eq_some.1 h
    rw [List.map_append, List.map_cons, ← List.singleton_append]
    refine List.Sublist.append ?_ (ih h₂)
    unfold placedEntry at h₁
    dsimp only at h₁
    split_ifs at h₁
    · obtain ⟨b, -, rfl⟩ := Option.map_eq_some_iff.1 h₁
      simp
    · obtain rfl := Option.some_injective _ h₁
      exact List.Sublist.refl _

/-- An entry whose name no other has is found by its path. -/
theorem resolve_of_mem_ls (hls : d.ls path = .ok entries) (he : e ∈ entries) (hplain : Plain e.name)
    (hnodup : (entries.map fun e => joinPath path e.name).Nodup) :
    d.tree.resolve (joinPath path e.name) = some e.nodeId := by
  unfold ls at hls
  split at hls
  · cases hls
  · rename_i p hp
    obtain rfl := Except.ok.inj hls
    obtain ⟨⟨r, id, kind⟩, hmem, rfl⟩ := List.mem_map.1 he
    rw [DriveTree.resolve_joinPath _ _ hplain.isComponent, (resolveDir_eq_ok hp).1]
    refine DriveTree.lookupChild_of_unique ⟨kind, hmem⟩ fun m hm => ?_
    obtain ⟨kind', hmem'⟩ := hm
    rw [List.map_map] at hnodup
    have heq := List.inj_on_of_nodup_map hnodup hmem hmem' rfl
    exact (congrArg (fun x => x.2.1) heq).symm

theorem finds_of_mem_placed (h : d.placed k path out = some l) (hplain : ∀ x ∈ l, Plain x.entry.name)
    (hnodup : (l.map Placed.path).Nodup) (hx : x ∈ l) : ∃ q, q ≠ [] ∧ d.Finds path out x q := by
  induction k generalizing path out l with
  | zero => cases h
  | succ k ih =>
    rw [placed] at h
    split at h
    · cases h
    · rename_i entries hls
      have hnames := hnodup.sublist (map_sublist_of_collect h)
      obtain ⟨e, he, b, hb, hxb, hsub⟩ := exists_mem_of_collect h hx
      unfold placedEntry at hb
      dsimp only at hb
      split_ifs at hb
      · obtain ⟨b', hb', rfl⟩ := Option.map_eq_some_iff.1 hb
        have hplain' : Plain e.name := hplain ⟨_, _, e⟩ (hsub.subset List.mem_cons_self)
        have hjoin : out.join e.name = { out with comps := out.comps ++ [e.name] } := by
          rw [OsPath.join, OsPath.ofString_of_plain hplain']
          rfl
        rcases List.mem_cons.1 hxb with rfl | hxb
        · exact ⟨[e.name], by simp, rfl, hjoin, by simpa using hplain',
            resolve_of_mem_ls hls he hplain' hnames⟩
        · have hsub' : b'.Sublist l := (List.sublist_cons_self _ _).trans hsub
          obtain ⟨q, -, hq⟩ := ih hb' (fun y hy => hplain y (hsub'.subset hy))
            (hnodup.sublist (hsub'.map _)) hxb
          refine ⟨e.name :: q, by simp, hq.path, ?_, List.forall_mem_cons.2 ⟨hplain', hq.plain⟩,
            hq.resolve⟩
          rw [hq.target, hjoin, List.append_assoc]
          rfl
      · obtain rfl := Option.some_injective _ hb
        rw [List.mem_singleton.1 hxb]
        have hplain' : Plain e.name := hplain ⟨_, _, e⟩ (hsub.subset List.mem_cons_self)
        have hjoin : out.join e.name = { out with comps := out.comps ++ [e.name] } := by
          rw [OsPath.join, OsPath.ofString_of_plain hplain']
          rfl
        exact ⟨[e.name], by simp, rfl, hjoin, by simpa using hplain',
          resolve_of_mem_ls hls he hplain' hnames⟩

theorem location_append_of_plain (cwd : List String) (p : OsPath) {q : List String}
    (hq : ∀ name ∈ q, Plain name) :
    OsPath.location cwd { p with comps := p.comps ++ q } = OsPath.location cwd p ++ q := by
  have hsteps : ∀ loc : List String, q.foldl OsPath.step loc = loc ++ q := by
    induction q with
    | nil => simp
    | cons name q ih =>
      intro loc
      obtain ⟨hname, hq⟩ := List.forall_mem_cons.1 hq
      rw [List.foldl_cons, ih hq, OsPath.step, if_neg hname.ne_dots, List.append_assoc]
      rfl
  rw [OsPath.location, List.foldl_append, hsteps, OsPath.location]

/-- Where names are plain and no two entries share a path, a drive is carried exactly if every
listed file has a content record, and the cid of the empty bytes is recorded as it is. -/
theorem carries_iff_of_plain (h : d.placed k "/" out = some l)
    (hplain : ∀ x ∈ l, Plain x.entry.name) (hnodup : (l.map Placed.path).Nodup)
    (hout : ∀ q, q ≠ [] → out.location cwd ++ q ∉ out.stations cwd) :
    d.Carries cidOf cwd out l ↔ ∀ x ∈ l, x.entry.isDir = false →
      ∃ c, x.entry.content = some c ∧ (c.cid = "" → cidOf [] = "") := by
  have hfinds : ∀ x ∈ l, ∃ q, q ≠ [] ∧ d.Finds "/" out x q := fun x hx =>
    finds_of_mem_placed h hplain hnodup hx
  have hloc : ∀ {x q}, d.Finds "/" out x q → x.target.location cwd = out.location cwd ++ q := by
    intro x q hq
    rw [hq.target, location_append_of_plain cwd out hq.plain]
  -- a place is written from one entry only, whose path is the one of the place
  have hwritten : ∀ q cid, lastCid cidOf cwd (out.location cwd ++ q) l = some cid →
      ∃ x ∈ l, ∃ c, d.Finds "/" out x q ∧ x.entry.isDir = false ∧ x.entry.content = some c ∧
        (if c.cid = "" then cidOf [] else c.cid) = cid := by
    intro q cid hlast
    obtain ⟨x, hx, hcid⟩ := exists_of_lastCid hlast
    obtain ⟨hfile, c, hc, hxloc, heq⟩ := Placed.cidAt_eq_some.1 hcid
    obtain ⟨q', -, hq'⟩ := hfinds x hx
    obtain rfl : q' = q := List.append_cancel_left ((hloc hq').symm.trans hxloc)
    exact ⟨x, hx, c, hq', hfile, hc, heq⟩
  have hrecord : ∀ {x q c}, d.Finds "/" out x q → x ∈ l → x.entry.content = some c →
      d.existingCid (pathBelow "/" q) = some c.cid := by
    intro x q c hq hx hc
    rw [existingCid, ← hq.path, hq.resolve, Option.bind_some, ← content_of_mem_placed h hx, hc]
    rfl
  constructor
  · intro hcarries x hx hxfile
    obtain ⟨q, hlast, hpath⟩ := hcarries.files x hx hxfile
    obtain ⟨cid, hlast⟩ := Option.isSome_iff_exists.1 hlast
    obtain ⟨y, hy, c, hq, -, hc, heq⟩ := hwritten q cid hlast
    obtain rfl : y = x := List.inj_on_of_nodup_map hnodup hy hx (hq.path.trans hpath.symm)
    refine ⟨c, hc, fun hempty => ?_⟩
    have hrec := (hrecord hq hx hc).symm.trans (hcarries.recorded q cid hlast)
    rw [← Option.some_injective _ hrec, hempty, if_pos rfl] at heq
    exact heq
  · intro hrec
    refine ⟨fun x hx hxfile => ?_, fun q cid hlast => ?_, fun target htarget q hq hmem => ?_⟩
    · obtain ⟨c, hc, -⟩ := hrec x hx hxfile
      obtain ⟨q, -, hq⟩ := hfinds x hx
      exact ⟨q, isSome_lastCid hx (Option.isSome_iff_exists.2 ⟨_, Placed.cidAt_eq_some.2
        ⟨hxfile, c, hc, hloc hq, rfl⟩⟩), hq.path⟩
    · obtain ⟨x, hx, c, hq, hxfile, hc, rfl⟩ := hwritten q cid hlast
      obtain ⟨c', hc', hempty⟩ := hrec x hx hxfile
      obtain rfl := Option.some_injective _ (hc.symm.trans hc')
      rw [hrecord hq hx hc]
      split_ifs with hcid
      · rw [hempty hcid, hcid]
      · rfl
    · rcases htarget with rfl | ⟨x, hx, -, rfl⟩
      · exact absurd hmem (hout q hq)
      · obtain ⟨q', -, hq'⟩ := hfinds x hx
        obtain ⟨comps, hne, hpre, hend⟩ := OsPath.mem_stations.1 hmem
        rw [hq'.target] at hpre hend
        rcases List.prefix_or_prefix_of_prefix hpre (List.prefix_append ..) with hout' | ⟨t, rfl⟩
        · exact absurd (OsPath.mem_stations.2 ⟨comps, hne, hout', hend⟩) (hout q hq)
        · obtain ⟨r, rfl⟩ := (List.prefix_append_right_inj _).1 hpre
          have ht : ∀ name ∈ t, Plain name := fun name hname =>
            hq'.plain name (List.mem_append_left _ hname)
          have htq : t = q := by
            have hend' : OsPath.location cwd { out with comps := out.comps ++ t } =
              out.location cwd ++ q := hend
            rw [location_append_of_plain cwd out ht] at hend'
            exact List.append_cancel_left hend'
          subst htq
          have hres := hq'.resolve
          rw [hq'.path, DriveTree.resolve_eq,
            components_pathBelow fun n hn => (hq'.plain n hn).isComponent, ← List.append_assoc,
            DriveTree.resolveFrom_append] at hres
          obtain ⟨m, hm, -⟩ := Option.bind_eq_some_iff.1 hres
          rw [DriveTree.resolve_eq, components_pathBelow fun n hn => (ht n hn).isComponent, hm]
          rfl

/-- A store that tells bytes apart by their number, and holds one object. -/
def lengthStore : ObjectStore where
  cidOf bytes := "c" ++ toString bytes.length
  putBytes _ bytes mode mtimeMs := .ok ⟨.new ("c" ++ toString bytes.length) bytes.length mode mtimeMs, 0⟩
  content_eq h := by
    cases h
    rfl

def lengthHost : Host where
  getObject _ cid := if cid = "c1" then .ok [7] else .error "no object"
  works _ _ := true

theorem accepts_lengthStore : lengthStore.Accepts :=
  fun _ _ _ _ => ⟨_, rfl⟩

theorem answers_lengthHost (d : Drive) : Answers lengthHost lengthStore.cidOf d := by
  intro id c done bytes _ _ hget
  simp only [lengthHost] at hget
  split_ifs at hget with hcid
  obtain rfl := Except.ok.inj hget
  rw [hcid]
  decide

/-- A file is added, with content of the store. -/
def addedFile : List Event :=
  [.exec 0 (.mkdir "/" "docs"), .exec 1 (.addFile "/docs" "f" (.new "c1" 1 0o644 100))]

theorem push_materialized_iff_addedFile :
    let d := ((init "d" "a").performAll addedFile).get (by decide +kernel)
    let out : OsPath := ⟨true, ["o"]⟩
    d.IdlePush lengthStore 2 (.dir "docs" (.file "f" ⟨[7], 0o644, 200⟩ .nil) .nil) 2 [] ↔
      ∃ l, d.placed 2 "/" out = some l ∧ d.Carries lengthStore.cidOf [] out l := by
  intro d out
  have hok : (d.materialize lengthHost 2 out).1 = some (.ok ⟨1, 1, 1⟩) := by
    decide +kernel
  have hm : d.materialize lengthHost 2 out =
      (some (.ok ⟨1, 1, 1⟩), (d.materialize lengthHost 2 out).2) := by
    rw [← hok, Prod.mk.eta]
  have hdisk : afterCalls [] (out.location []) (fun _ => (0o644, 200))
      (d.materialize lengthHost 2 out).2.calls =
      some (.dir "docs" (.file "f" ⟨[7], 0o644, 200⟩ .nil) .nil) := by
    decide +kernel
  exact push_materialized_iff d lengthStore accepts_lengthStore lengthHost (answers_lengthHost d) []
    out 2 ⟨1, 1, 1⟩ (d.materialize lengthHost 2 out).2 hm (fun _ => (0o644, 200)) _ hdisk 2 le_rfl 2 []

/-- A file is created in a mounted drive, and not yet written to. -/
def createdFile : List Event :=
  [.exec 0 (.addFile "/" "f" (.new "" 0 0o644 100))]

/-- It is materialized as an empty file, and the push saves the cid of the empty bytes. -/
theorem not_idlePush_createdFile :
    let d := ((init "d" "a").performAll createdFile).get (by decide +kernel)
    let out : OsPath := ⟨true, ["o"]⟩
    let disk : DiskDir := .file "f" ⟨[], 0o644, 200⟩ .nil
    d.Reachable ∧ lengthStore.Accepts ∧ Answers lengthHost lengthStore.cidOf d ∧
      (d.materialize lengthHost 1 out).1 = some (.ok ⟨1, 0, 0⟩) ∧
      afterCalls [] (out.location []) (fun _ => (0o644, 200)) (d.materialize lengthHost 1 out).2.calls =
        some disk ∧
      ¬d.IdlePush lengthStore 1 disk 1 [] := by
  intro d out disk
  refine ⟨⟨"d", "a", createdFile, (Option.some_get _).symm⟩, accepts_lengthStore,
    answers_lengthHost d, by decide +kernel, by decide +kernel, ?_⟩
  rintro ⟨report, s, hpush, hchanged, -⟩
  have hrun : (d.push lengthStore 1 disk 1 []).map (fun r => r.1.toOption.map PushReport.changed) =
      some (some 1) := by
    decide +kernel
  rw [hpush] at hrun
  simp [Except.toOption, hchanged] at hrun

end Drive

end CeDrive
