import CeDrive.Backup

/-!
# Restoring a backup

A directory of the disk is pushed, and the drive is materialized into an empty directory. With a
host that serves what was pushed and on which no call fails for reasons of its own, the walk of
`materialize` ends and each of its calls succeeds : a directory is made before what is below it,
and no file is in the way (`exists_runCalls`). So the backup is restored (`restore_pushed`).
-/

namespace CeDrive

/-! ## Calls that succeed -/

namespace DiskDir

variable {D D' : DiskDir} {q : List String} {new : Option DiskFile} {root : List String}

/-- Above the place directories stand, and at it nothing, or the directory that is made. -/
structure Ready (D : DiskDir) (new : Option DiskFile) (q : List String) : Prop where
  above : ∀ q', q' <+: q → q' ≠ q → D.look q' = some none
  here : D.look q = none ∨ new = none ∧ D.look q = some none

theorem Ready.exists_place (h : D.Ready new q) : ∃ D', D.place new q = some D' := by
  induction q generalizing D with
  | nil =>
    obtain hnone | ⟨rfl, -⟩ := h.here
    · cases hnone
    · exact ⟨D, rfl⟩
  | cons x q ih =>
    have habove : q ≠ [] → D.look [x] = some none := fun hne =>
      h.above [x] (List.prefix_append [x] q) fun heq => hne (List.cons.inj heq).2.symm
    rw [place]
    cases hx : D.lookup x with
    | none =>
      by_cases hq : q = []
      · exact ⟨_, if_pos hq⟩
      · have hdir := habove hq
        rw [look, hx] at hdir
        cases hdir
    | some node =>
      cases node with
      | file f =>
        have hfile : D.look [x] = some (some f) := by rw [look, hx]; rfl
        by_cases hq : q = []
        · subst hq
          obtain hnone | ⟨-, hdir⟩ := h.here
          · rw [hfile] at hnone
            cases hnone
          · rw [hfile] at hdir
            cases hdir
        · rw [habove hq] at hfile
          cases hfile
      | dir entries =>
        have hlook : ∀ q', D.look (x :: q') = entries.look q' := fun q' => by rw [look, hx]
        have hentries : entries.Ready new q := by
          refine ⟨fun q' hpre hne => ?_, by rw [← hlook]; exact h.here⟩
          rw [← hlook]
          exact h.above (x :: q') (List.cons_prefix_cons.2 ⟨rfl, hpre⟩)
            fun heq => hne (List.cons.inj heq).2
        obtain ⟨D', hD'⟩ := ih hentries
        exact ⟨_, congrArg (Option.map fun entries => D.put x (.dir entries)) hD'⟩

/-- The directories on the way to one that can be made are made. -/
theorem Ready.exists_makeDirs (h : D.Ready none q) {locs : List (List String)}
    (hlocs : ∀ loc ∈ locs, ∀ q', loc = root ++ q' → q' <+: q) :
    ∃ D', D.makeDirs root locs = some D' := by
  induction locs generalizing D with
  | nil => exact ⟨D, rfl⟩
  | cons loc locs ih =>
    obtain ⟨hloc, hlocs⟩ := List.forall_mem_cons.1 hlocs
    rw [makeDirs, List.foldlM_cons]
    cases hin : inside? root loc with
    | none => exact ih h hlocs
    | some q' =>
      have hpre := hloc q' (inside?_eq_some.1 hin)
      have hready : D.Ready none q' := by
        refine ⟨fun q₁ hq₁ hne => h.above q₁ (hq₁.trans hpre) ?_, ?_⟩
        · rintro rfl
          exact hne (hq₁.eq_of_length_le hpre.length_le)
        · by_cases heq : q' = q
          · exact heq ▸ h.here
          · exact Or.inr ⟨rfl, h.above q' hpre heq⟩
      obtain ⟨D₁, hD₁⟩ := hready.exists_place
      have hlook := look_place hD₁
      have hready₁ : D₁.Ready none q := by
        refine ⟨fun q₁ hq₁ hne => ?_, ?_⟩
        · rw [hlook]
          split_ifs
          · rfl
          · exact h.above q₁ hq₁ hne
        · rw [hlook]
          split_ifs
          · exact Or.inr ⟨rfl, rfl⟩
          · exact h.here
      obtain ⟨D', hD'⟩ := ih hready₁ hlocs
      exact ⟨D', by simp only [hD₁]; exact hD'⟩

end DiskDir

/-! ## The calls of a walk -/

variable {cwd : List String} {out : OsPath} {q q' : List String} {D D' : DiskDir}

/-- No place below `out` is passed on the way to it. -/
def OsPath.Direct (cwd : List String) (out : OsPath) : Prop :=
  ∀ q, q ≠ [] → out.location cwd ++ q ∉ out.stations cwd

theorem OsPath.direct_of_plain (hout : ∀ r ∈ out.comps, Plain r) : out.Direct cwd := by
  intro q hq hmem
  obtain ⟨comps, -, hpre, hloc⟩ := mem_stations.1 hmem
  have hbase : ∀ comps, (∀ r ∈ comps, Plain r) → location cwd { out with comps := comps } =
      location cwd { out with comps := [] } ++ comps := fun comps hcomps =>
    Drive.location_append_of_plain cwd { out with comps := [] } hcomps
  rw [hbase comps fun r hr => hout r (hpre.subset hr)] at hloc
  have hlen := congrArg List.length (hloc.trans (congrArg (· ++ q) (hbase out.comps hout)))
  have hle := hpre.length_le
  have hpos := List.length_pos_iff.2 hq
  simp only [List.length_append] at hlen
  omega

/-- On the way to a plain place below `out` the places above it are passed. -/
theorem prefix_of_location_eq (hout : out.Direct cwd) (hq : ∀ r ∈ q, Plain r) {comps : List String}
    (hne : comps ≠ []) (hpre : comps <+: (out.below q).comps)
    (hloc : OsPath.location cwd { out with comps := comps } = out.location cwd ++ q') :
    q' <+: q ∧ (comps ≠ (out.below q).comps → q ≠ [] → q' ≠ q) := by
  rcases List.prefix_or_prefix_of_prefix hpre (List.prefix_append out.comps q) with
    hshort | ⟨t, rfl⟩
  · obtain rfl : q' = [] := by
      by_contra hq'
      exact hout q' hq' (OsPath.mem_stations.2 ⟨comps, hne, hshort, hloc⟩)
    exact ⟨List.nil_prefix, fun _ hq => hq.symm⟩
  · have ht : t <+: q := (List.prefix_append_right_inj _).1 hpre
    have heq : t = q' := by
      have hloc' := Drive.location_append_of_plain cwd out fun r hr => hq r (ht.subset hr)
      exact List.append_cancel_left (hloc'.symm.trans hloc)
    subst heq
    exact ⟨ht, fun hcomps _ hqt => hcomps (hqt ▸ rfl)⟩

theorem prefix_of_mem_stations (hout : out.Direct cwd) (hq : ∀ r ∈ q, Plain r)
    (h : out.location cwd ++ q' ∈ (out.below q).stations cwd) : q' <+: q := by
  obtain ⟨comps, hne, hpre, hloc⟩ := OsPath.mem_stations.1 h
  exact (prefix_of_location_eq hout hq hne hpre hloc).1

/-- The stations before the last are those of the shorter sequences of components. -/
theorem OsPath.mem_dropLast_stations {p : OsPath} {loc : List String}
    (h : loc ∈ (p.stations cwd).dropLast) : ∃ comps, comps ≠ [] ∧ comps <+: p.comps ∧
      comps ≠ p.comps ∧ OsPath.location cwd { p with comps := comps } = loc := by
  rw [stations, ← List.map_dropLast] at h
  obtain ⟨comps, hcomps, hloc⟩ := List.mem_map.1 h
  rcases List.eq_nil_or_concat' p.comps with hnil | ⟨t, r, ht⟩
  · rw [hnil] at hcomps
    cases hcomps
  · have hne : t.inits ≠ [] := List.ne_nil_of_mem ((List.mem_inits t t).2 List.prefix_rfl)
    have hinits : p.comps.inits.tail.dropLast = t.inits.tail := by
      rw [ht, List.inits_append, List.tail_append_of_ne_nil hne]
      simp
    rw [hinits] at hcomps
    have hpre := (List.mem_inits _ _).1 (List.mem_of_mem_tail hcomps)
    refine ⟨comps, ?_, hpre.trans (ht ▸ List.prefix_append t [r]), fun heq => ?_, hloc⟩
    · rintro rfl
      cases t <;> simp at hcomps
    · have hlen := hpre.length_le
      rw [heq, ht, List.length_append, List.length_singleton] at hlen
      omega

theorem ne_of_mem_dropLast_stations (hout : out.Direct cwd) (hq : ∀ r ∈ q, Plain r) (hne : q ≠ [])
    (h : out.location cwd ++ q' ∈ ((out.below q).stations cwd).dropLast) : q' <+: q ∧ q' ≠ q := by
  obtain ⟨comps, hcomps, hpre, hshort, hloc⟩ := OsPath.mem_dropLast_stations h
  obtain ⟨hq', hlt⟩ := prefix_of_location_eq hout hq hcomps hpre hloc
  exact ⟨hq', hlt hshort hne⟩

/-- A directory is made, or a file is written, at a place that is ready for it. -/
theorem exists_createDirAll (hout : out.Direct cwd) (hq : ∀ r ∈ q, Plain r)
    (h : D.Ready none q) (mode mtimeMs : ℕ) :
    ∃ D', (DiskCall.createDirAll (out.below q)).perform cwd (out.location cwd) mode mtimeMs D =
      some D' :=
  h.exists_makeDirs fun _ hloc _ heq => prefix_of_mem_stations hout hq (heq ▸ hloc)

theorem exists_write (hout : out.Direct cwd) (hq : ∀ r ∈ q, Plain r) (hne : q ≠ [])
    {bytes : List UInt8} {mode mtimeMs : ℕ} (h : D.Ready (some ⟨bytes, mode, mtimeMs⟩) q) :
    ∃ D', (DiskCall.write (out.below q) bytes).perform cwd (out.location cwd) mode mtimeMs D =
      some D' := by
  have hdirs :
      ((out.below q).stations cwd).dropLast.all (D.standsDir (out.location cwd)) = true := by
    refine List.all_eq_true.2 fun loc hloc => ?_
    unfold DiskDir.standsDir
    cases hin : inside? (out.location cwd) loc with
    | none => rfl
    | some q' =>
      obtain ⟨hpre, hlt⟩ :=
        ne_of_mem_dropLast_stations hout hq hne (inside?_eq_some.1 hin ▸ hloc)
      exact decide_eq_true (h.above q' hpre hlt)
  have hin : inside? (out.location cwd) ((out.below q).location cwd) = some q :=
    inside?_eq_some.2 (Drive.location_append_of_plain cwd out hq)
  rw [DiskCall.perform, if_pos hdirs, hin]
  exact h.exists_place

/-- What stands below `out` after the entries of a walk. -/
structure Known (D : DiskDir) (done : List (List String × DirEntry)) : Prop where
  dirs : ∀ q, q ≠ [] → (D.look q = some none ↔ ∃ e, (q, e) ∈ done ∧ e.isDir = true)
  files : ∀ q, (D.bytesAt q).isSome → ∃ e, (q, e) ∈ done ∧ e.isDir = false

/-- Entries in the order of a walk : each directory is before what is below it. -/
structure Ordered (l : List (List String × DirEntry)) : Prop where
  names : ∀ x ∈ l, x.1 ≠ [] ∧ ∀ r ∈ x.1, Plain r
  pairwise : l.Pairwise fun x y => ¬y.1 <+: x.1
  above : ∀ x ∈ l, ∀ q, q ≠ [] → q <+: x.1 → q ≠ x.1 → ∃ e, (q, e) ∈ l ∧ e.isDir = true

variable {l pre post : List (List String × DirEntry)} {x : List String × DirEntry} {e : DirEntry}
  {host : Host} {calls done : List DiskCall} {stamp : List DiskCall → ℕ × ℕ} {mode mtimeMs : ℕ}

theorem Ordered.not_mem_of_eq (h : Ordered (pre ++ x :: post)) : (x.1, e) ∉ pre := fun hmem =>
  (List.pairwise_append.1 h.pairwise).2.2 _ hmem x List.mem_cons_self List.prefix_rfl

/-- What is above an entry was done before it. -/
theorem Ordered.mem_of_prefix (h : Ordered (pre ++ x :: post)) (hne : q ≠ []) (hpre : q <+: x.1)
    (hq : q ≠ x.1) : ∃ e, (q, e) ∈ pre ∧ e.isDir = true := by
  obtain ⟨e, hmem, hdir⟩ := h.above x (by simp) q hne hpre hq
  obtain ⟨-, hpost, -⟩ := List.pairwise_append.1 h.pairwise
  rcases List.mem_append.1 hmem with hmem | hmem
  · exact ⟨e, hmem, hdir⟩
  · rcases List.mem_cons.1 hmem with rfl | hmem
    · exact absurd rfl hq
    · exact absurd hpre ((List.pairwise_cons.1 hpost).1 _ hmem)

theorem Known.ready (hk : Known D pre) (h : Ordered (pre ++ x :: post)) (new : Option DiskFile) :
    D.Ready new x.1 := by
  have hne := (h.names x (by simp)).1
  refine ⟨fun q hq hlt => ?_, Or.inl ?_⟩
  · rcases eq_or_ne q [] with rfl | hq'
    · rfl
    · exact (hk.dirs q hq').2 (h.mem_of_prefix hq' hq hlt)
  · rcases hlook : D.look x.1 with _ | _ | f
    · rfl
    · obtain ⟨e, hmem, -⟩ := (hk.dirs x.1 hne).1 hlook
      exact absurd hmem h.not_mem_of_eq
    · have hsome : (D.bytesAt x.1).isSome := by
        rw [DiskDir.bytesAt, hlook]
        rfl
      obtain ⟨e, hmem, -⟩ := hk.files x.1 hsome
      exact absurd hmem h.not_mem_of_eq

theorem Known.createDirAll (hk : Known D pre) (h : Ordered (pre ++ x :: post))
    (hout : out.Direct cwd) (hx : x.2.isDir = true)
    (hD : (DiskCall.createDirAll (out.below x.1)).perform cwd (out.location cwd) mode mtimeMs D =
      some D') : Known D' (pre ++ [x]) := by
  obtain ⟨hne, hplain⟩ := h.names x (by simp)
  refine ⟨fun q hq => ?_, fun q hq => ?_⟩
  · rw [(DiskCall.perform_spec hD).2, hk.dirs q hq]
    constructor
    · rintro (⟨e, hmem, hdir⟩ | ⟨path, heq, hmem⟩)
      · exact ⟨e, List.mem_append_left _ hmem, hdir⟩
      · obtain rfl := DiskCall.createDirAll.inj heq
        have hpre := prefix_of_mem_stations hout hplain hmem
        rcases eq_or_ne q x.1 with rfl | hlt
        · exact ⟨x.2, by simp, hx⟩
        · obtain ⟨e, hmem, hdir⟩ := h.mem_of_prefix hq hpre hlt
          exact ⟨e, List.mem_append_left _ hmem, hdir⟩
    · rintro ⟨e, hmem, hdir⟩
      rcases List.mem_append.1 hmem with hmem | hmem
      · exact Or.inl ⟨e, hmem, hdir⟩
      · obtain rfl := List.mem_singleton.1 hmem
        refine Or.inr ⟨_, rfl, OsPath.mem_stations.2 ⟨out.comps ++ q, ?_, List.prefix_rfl, ?_⟩⟩
        · simp [hq]
        · exact Drive.location_append_of_plain cwd out hplain
  · rw [(DiskCall.perform_spec hD).1] at hq
    obtain ⟨e, hmem, hfile⟩ := hk.files q hq
    exact ⟨e, List.mem_append_left _ hmem, hfile⟩

theorem Known.write (hk : Known D pre) (h : Ordered (pre ++ x :: post)) (hx : x.2.isDir = false)
    {bytes : List UInt8}
    (hD : (DiskCall.write (out.below x.1) bytes).perform cwd (out.location cwd) mode mtimeMs D =
      some D') : Known D' (pre ++ [x]) := by
  have hplain := (h.names x (by simp)).2
  have hloc : (out.below x.1).location cwd = out.location cwd ++ x.1 :=
    Drive.location_append_of_plain cwd out hplain
  refine ⟨fun q hq => ?_, fun q hq => ?_⟩
  · rw [(DiskCall.perform_spec hD).2, hk.dirs q hq]
    constructor
    · rintro (⟨e, hmem, hdir⟩ | ⟨path, heq, -⟩)
      · exact ⟨e, List.mem_append_left _ hmem, hdir⟩
      · cases heq
    · rintro ⟨e, hmem, hdir⟩
      rcases List.mem_append.1 hmem with hmem | hmem
      · exact Or.inl ⟨e, hmem, hdir⟩
      · obtain rfl := List.mem_singleton.1 hmem
        rw [hx] at hdir
        cases hdir
  · rw [(DiskCall.perform_spec hD).1, DiskCall.bytesAt, hloc] at hq
    split_ifs at hq with heq
    · obtain rfl := List.append_cancel_left heq
      exact ⟨x.2, by simp, hx⟩
    · obtain ⟨e, hmem, hfile⟩ := hk.files q hq
      exact ⟨e, List.mem_append_left _ hmem, hfile⟩

/-- The calls that write the entries of a walk succeed, one after the other. -/
theorem exists_runCalls (hout : out.Direct cwd) (h : Ordered (pre ++ post)) (hk : Known D pre)
    (hmade : Made host (post.map (Placed.ofWalk out)) calls) (done : List DiskCall) :
    ∃ D', runCalls cwd (out.location cwd) stamp done calls D = some D' := by
  induction post generalizing pre calls D done with
  | nil =>
    obtain rfl : calls = [] := hmade
    exact ⟨D, rfl⟩
  | cons x post ih =>
    obtain ⟨cs, rest, hx, hrest, rfl⟩ := hmade
    have hnext : Ordered ((pre ++ [x]) ++ post) := by rwa [← List.append_cons]
    obtain ⟨hne, hplain⟩ := h.names x (by simp)
    unfold Placed.Calls at hx
    split_ifs at hx with hdir
    · subst hx
      obtain ⟨D₁, hD₁⟩ :=
        exists_createDirAll hout hplain (hk.ready h none) (stamp done).1 (stamp done).2
      obtain ⟨D', hD'⟩ := ih hnext (hk.createDirAll h hout hdir hD₁) hrest
        (done ++ [.createDirAll (out.below x.1)])
      exact ⟨D', Option.bind_eq_some_iff.2 ⟨D₁, hD₁, hD'⟩⟩
    · rw [Bool.not_eq_true] at hdir
      split at hx
      · subst hx
        refine ih hnext ⟨fun q hq => ?_, fun q hq => ?_⟩ hrest done
        · rw [hk.dirs q hq]
          refine exists_congr fun e => and_congr_left fun he => ?_
          have hne : (q, e) ≠ x := by
            rintro rfl
            exact absurd (hdir.symm.trans he) Bool.false_ne_true
          simp [hne]
        · obtain ⟨e, hmem, hfile⟩ := hk.files q hq
          exact ⟨e, List.mem_append_left _ hmem, hfile⟩
      · obtain ⟨bytes, rfl, -⟩ := hx
        obtain ⟨D₁, hD₁⟩ := exists_write hout hplain hne
          (hk.ready h (some ⟨bytes, (stamp done).1, (stamp done).2⟩))
        obtain ⟨D', hD'⟩ := ih hnext (hk.write h hdir hD₁) hrest
          (done ++ [.write (out.below x.1) bytes])
        exact ⟨D', Option.bind_eq_some_iff.2 ⟨D₁, hD₁, hD'⟩⟩

namespace Drive

variable {d : Drive} {k : ℕ} {path : String}

/-! ## Walks that succeed -/

/-- The store serves the content of the entry. -/
def ServesEntry (host : Host) (e : DirEntry) : Prop :=
  e.isDir = false → ∀ c, e.content = some c → c.cid ≠ "" →
    ∀ done, ∃ bytes, host.getObject done c.cid = .ok bytes

theorem exists_materializeEntry {visit : Visit} {visit' : String → OsPath → Option (List Placed)}
    {b : List Placed} (hworks : ∀ done c, host.works done c = true)
    (hvisit : ∀ {path out l}, visit' path out = some l → (∀ y ∈ l, ServesEntry host y.entry) →
      ∀ w, ∃ w', visit path out w = (some (.ok ()), w'))
    (hb : placedEntry visit' path out e = some b) (hserve : ∀ y ∈ b, ServesEntry host y.entry)
    (w : Walk) : ∃ w', materializeEntry host visit path out e w = (some (.ok ()), w') := by
  unfold placedEntry at hb
  dsimp only at hb
  rw [materializeEntry]
  split_ifs at hb ⊢ with hdir hmade
  · obtain ⟨l, hl, rfl⟩ := Option.map_eq_some_iff.1 hb
    exact hvisit hl (fun y hy => hserve y (List.mem_cons_of_mem _ hy)) _
  · exact absurd (hworks _ _) hmade
  · obtain rfl := Option.some_injective _ hb
    have hself := hserve _ (List.mem_singleton.2 rfl) (Bool.eq_false_iff.2 hdir)
    cases hc : e.content with
    | none => exact ⟨w, rfl⟩
    | some c =>
      dsimp only
      rw [materializeFile]
      by_cases hempty : c.cid = ""
      · rw [if_pos hempty]
        simp [hworks]
      · obtain ⟨bytes, hbytes⟩ := hself c hc hempty w.calls
        rw [if_neg hempty, hbytes]
        simp [hworks]

/-- If the store serves every file and no call fails, a walk that ends succeeds. -/
theorem exists_materializeDir {l : List Placed} (hworks : ∀ done c, host.works done c = true)
    (hl : d.placed k path out = some l) (hserve : ∀ y ∈ l, ServesEntry host y.entry) (w : Walk) :
    ∃ w', d.materializeDir host k path out w = (some (.ok ()), w') := by
  induction k generalizing path out l w with
  | zero => cases hl
  | succ k ih =>
    rw [placed] at hl
    rw [materializeDir]
    cases hls : d.ls path with
    | error err =>
      rw [hls] at hl
      cases hl
    | ok entries =>
      rw [hls] at hl
      dsimp only at hl ⊢
      clear hls
      induction entries generalizing l w with
      | nil => exact ⟨w, rfl⟩
      | cons e entries ihe =>
        obtain ⟨b₁, b₂, h₁, h₂, rfl⟩ := collect_cons_eq_some.1 hl
        obtain ⟨w₁, hw₁⟩ := exists_materializeEntry hworks
          (fun hl hserve w => ih hl hserve w) h₁
          (fun y hy => hserve y (List.mem_append_left _ hy)) w
        obtain ⟨w', hw'⟩ := ihe (fun y hy => hserve y (List.mem_append_right _ hy)) w₁ h₂
        exact ⟨w', by rw [materializeEntries, hw₁]; exact hw'⟩

/-! ## The backup is restored -/

variable {d' : Drive} {store : ObjectStore} {disk : DiskDir} {ctr k' : ℕ}
  {uploads : List (List UInt8)} {report : PushReport} {s : PushState}

/-- A walk of the whole drive is in order. -/
theorem ordered_of_walk (hinv : d.Inv) (hp : d.PlainLog) (h : d.tree.Tidy)
    (hw : d.walk k [] = some l) : Ordered l := by
  have hmem {x : List String × DirEntry} :=
    DriveTree.Tidy.mem_walk_iff (x := x) hinv.replayed h .root (Or.inl rfl) hw
  simp only [List.nil_append] at hmem
  refine ⟨fun x hx => ?_, DriveTree.Tidy.pairwise_walk hinv.replayed h .root (Or.inl rfl) hw,
    fun x hx q hne hpre hlt => ?_⟩
  · obtain ⟨q, n, hne, hq, rfl⟩ := hmem.1 hx
    exact ⟨hne, hinv.plain_of_listedAt hp h hq⟩
  · obtain ⟨_, n, -, hq, rfl⟩ := hmem.1 hx
    obtain ⟨t, rfl⟩ := hpre
    have ht : t ≠ [] := by
      rintro rfl
      exact hlt (List.append_nil q).symm
    obtain ⟨m, hm⟩ := DriveTree.exists_listedAt_of_append hq
    exact ⟨_, hmem.2 ⟨_, m, hne, hm, rfl⟩,
      (DriveTree.Tidy.isDir_entryAt_iff hinv.replayed h hne hm).2 (h.isDir_of_append hq ht hm)⟩

/-- What stands after the target is created. -/
theorem known_nil (hout : out.Direct cwd) {D : DiskDir}
    (hD : (DiskCall.createDirAll out).perform cwd (out.location cwd) mode mtimeMs .nil = some D) :
    Known D [] := by
  refine ⟨fun q hq => ?_, fun q hq => ?_⟩
  · rw [(DiskCall.perform_spec hD).2]
    refine iff_of_false ?_ (by simp)
    rintro (hnil | ⟨path, heq, hmem⟩)
    · obtain ⟨x, q, rfl⟩ := List.exists_cons_of_ne_nil hq
      cases hnil
    · obtain rfl := DiskCall.createDirAll.inj heq
      exact hout q hq hmem
  · rw [(DiskCall.perform_spec hD).1] at hq
    cases q <;> simp [DiskCall.bytesAt, DiskDir.bytesAt, DiskDir.look, DiskDir.lookup] at hq

/-- The store serves what is on the disk, and no call of a walk fails. -/
structure Serves (host : Host) (store : ObjectStore) (disk : DiskDir) : Prop where
  works : ∀ done c, host.works done c = true
  serves : ∀ q f, disk.HasFile q f →
    ∀ done, ∃ bytes, host.getObject done (store.cidOf f.bytes) = .ok bytes

/-- A directory that is pushed, and wins every save, comes back when the drive is materialized into
an empty directory : the bytes of its files and no other files, and its directories. With a host
that serves what was pushed the walk succeeds. -/
theorem restore_pushed (hs : disk.Sorted) (hplain : disk.Plain) (hd : d.Reachable)
    (hp : d.PlainLog) (ho : d.Orderly store disk) (hctr : ctr + disk.size ≤ 16 ^ 8)
    (hwins : ∀ x f, disk.HasFile x f → d.Wins store x f)
    (honly : ∀ y, disk.HasDir y → ∀ n, d.tree.ListedAt y n → d.tree.IsDir n)
    (hcid : Function.Injective store.cidOf) (hempty : ∀ b, store.cidOf b = "" → b = [])
    (hpush : d.push store k disk ctr uploads = some (.ok report, s))
    (hhost : Answers host store.cidOf s.drive) (cwd : List String) (out : OsPath)
    (stamp : List DiskCall → ℕ × ℕ) :
    (∀ k' report' w disk', s.drive.materialize host k' out = (some (.ok report'), w) →
      afterCalls cwd (out.location cwd) stamp w.calls = some disk' → Restores disk disk') ∧
    (out.Direct cwd → Serves host store disk → ∀ k', s.drive.tree.edges.size < k' →
      ∃ report' w disk', s.drive.materialize host k' out = (some (.ok report'), w) ∧
        afterCalls cwd (out.location cwd) stamp w.calls = some disk' ∧ Restores disk disk') := by
  have hrestores : ∀ k' report' w disk',
      s.drive.materialize host k' out = (some (.ok report'), w) →
      afterCalls cwd (out.location cwd) stamp w.calls = some disk' → Restores disk disk' :=
    fun k' report' w disk' hm hdisk => restores_of_materialize hs hplain hd hp ho hctr hwins honly
      hcid hempty hpush hhost cwd out hm hdisk
  refine ⟨hrestores, fun hout hserves k' hk' => ?_⟩
  have hpushed :=
    pushed_of_push hs.apart hplain hd.inv (ho.ready hd.inv) (ho.ahead.hasSpareIds hctr) hpush
  have htidy := hpushed.tidy ho.tidy
  have hp' := (leadsTo_push hpush).plainLog hd.inv hp
  obtain ⟨l, hl⟩ := DriveTree.Tidy.exists_walk (k := k') hpushed.inv.replayed htidy .root
    (Or.inl rfl) (by simpa using hk')
  have hbelow : out.below [] = out := by simp [OsPath.below]
  have hplaced := placed_eq hpushed.inv hp' htidy out (k := k') (q := []) .root (Or.inl rfl)
  rw [pathBelow_nil, hbelow, hl, Option.map_some] at hplaced
  have hentry : ∀ y ∈ l.map (Placed.ofWalk out), ServesEntry host y.entry := by
    intro y hy hfile c hc hne
    obtain ⟨q, n, hne', hq, rfl⟩ := (mem_placed_iff hpushed.inv hp' htidy hplaced).1 hy
    have hqfile : ¬s.drive.tree.IsDir n := by
      rw [← DriveTree.Tidy.isDir_entryAt_iff hpushed.inv.replayed htidy hne' hq]
      exact Bool.eq_false_iff.1 hfile
    have hq := htidy.walked_iff.2 hq
    obtain ⟨f, hf⟩ := hpushed.only q n hq hqfile
    rw [hpushed.cid_eq hf (hwins q f hf) hq hc]
    exact hserves.serves q f hf
  obtain ⟨w, hw⟩ := exists_materializeDir hserves.works hplaced hentry
    ⟨⟨0, 0, 0⟩, [.createDirAll out]⟩
  have hm : s.drive.materialize host k' out = (some (.ok w.report), w) := by
    rw [materialize, if_pos (hserves.works _ _)]
    simp only [hw]
    rfl
  obtain ⟨l', calls, hl', hmade, hcalls⟩ := calls_materialize hm
  obtain rfl := Option.some_injective _ (hplaced.symm.trans hl')
  have hready : DiskDir.Ready .nil none [] :=
    ⟨fun q hpre hne => absurd (List.prefix_nil.1 hpre) hne, Or.inr ⟨rfl, rfl⟩⟩
  obtain ⟨D, hD⟩ := exists_createDirAll hout (q := []) (by simp) hready (stamp []).1 (stamp []).2
  rw [hbelow] at hD
  have hordered : Ordered ([] ++ l) := ordered_of_walk hpushed.inv hp' htidy hl
  obtain ⟨disk', hdisk⟩ : ∃ disk',
      runCalls cwd (out.location cwd) stamp [.createDirAll out] calls D = some disk' :=
    exists_runCalls hout hordered (known_nil hout hD) hmade _
  have hafter : afterCalls cwd (out.location cwd) stamp w.calls = some disk' := by
    rw [hcalls]
    exact Option.bind_eq_some_iff.2 ⟨D, hD, hdisk⟩
  exact ⟨w.report, w, disk', hm, hafter, hrestores k' w.report w disk' hm hafter⟩

/-- A store that serves one content. -/
def oneHost (bytes : List UInt8) : Host where
  getObject _ cid := if cid = Store.spell bytes then .ok bytes else .error "not found"
  works _ _ := true

/-- A new drive backs up a directory with a file and a directory without entries. -/
theorem restore_pushed_docs : ∃ disk : DiskDir, disk.HasFile ["docs", "a"] ⟨[65], 0o644, 7⟩ ∧
    disk.HasDir ["tmp"] ∧ ∃ (report : PushReport) (s : PushState),
      (init "d" "a").push spellStore 2 disk 0 [] = some (.ok report, s) ∧
      ∃ report' w disk', s.drive.materialize (oneHost [65]) (s.drive.tree.edges.size + 1)
          (.ofString "/out") = (some (.ok report'), w) ∧
        afterCalls [] ["out"] (fun _ => (0o644, 9)) w.calls = some disk' ∧ Restores disk disk' := by
  let disk : DiskDir := .dir "docs" (.file "a" ⟨[65], 0o644, 7⟩ .nil) (.dir "tmp" .nil .nil)
  have hok : ((init "d" "a").push spellStore 2 disk 0 []).any
      (fun r => r.1.toOption.isSome) = true := by
    decide +kernel
  obtain ⟨⟨res, s⟩, hpush, hres⟩ := (Option.any_eq_true _ _).1 hok
  cases res with
  | error e => cases hres
  | ok report =>
    have hfile : ∀ q f, disk.HasFile q f → f.bytes = [65] := by
      simp [disk, DiskDir.HasFile]
    have hinv := inv_init "d" "a"
    have hlisted : ∀ {x n}, (init "d" "a").tree.ListedAt x n → x = [] ∧ n = ROOT := by
      intro x n hn
      refine (DriveTree.listedAt_cases hn).resolve_right ?_
      rintro ⟨q, p, r, -, -, hl⟩
      obtain ⟨e, he, -⟩ := hinv.replayed.edge_of_lists hl
      simp [init, DriveTree.new] at he
    have hsorted : disk.Sorted := by
      refine ⟨fun m hm => ?_, ⟨by simp [DiskDir.names], trivial⟩, by simp [DiskDir.names], trivial,
        trivial⟩
      rw [List.mem_singleton.1 hm]
      decide
    have hplain : disk.Plain := ⟨⟨by decide, by decide⟩, ⟨⟨by decide, by decide⟩, trivial⟩,
      ⟨by decide, by decide⟩, trivial, trivial⟩
    have hrun : (init "d" "a").performAll [] = some (init "d" "a") := rfl
    have hlog : (init "d" "a").PlainLog :=
      namedLog_performAll (fun _ => plain_of_validateName)
        (by simp [PlainReplica, DriveTree.short]) (by simp) hrun
    have hserves : Serves (oneHost [65]) spellStore disk := by
      refine ⟨fun _ _ => rfl, fun q f hf done => ⟨[65], ?_⟩⟩
      rw [hfile q f hf]
      rfl
    have hanswers : Answers (oneHost [65]) spellStore.cidOf s.drive := by
      intro id c done bytes _ _ hget
      rw [oneHost] at hget
      dsimp only at hget
      split_ifs at hget with hcid
      exact Except.ok.inj hget ▸ hcid.symm
    refine ⟨disk, by simp [disk, DiskDir.HasFile], by simp [disk, DiskDir.HasDir], report, s, hpush,
      (restore_pushed hsorted hplain ⟨"d", "a", [], hrun⟩ hlog
        (orderly_init "d" "a") (by decide) (fun x f hf n c hn => ?_) (fun y hy n hn => ?_)
        Store.spell_injective (fun b hb => Store.spell_injective hb) hpush hanswers []
        (.ofString "/out") (fun _ => (0o644, 9))).2 (OsPath.direct_of_plain ?_) hserves _
        (Nat.lt_succ_self _)⟩
    · obtain ⟨rfl, -⟩ := hlisted hn.listedAt
      exact absurd hf (DiskDir.not_hasFile_nil disk)
    · obtain ⟨-, rfl⟩ := hlisted hn
      exact Or.inl rfl
    · have hcomps : (OsPath.ofString "/out").comps = ["out"] := by decide
      rw [hcomps]
      exact List.forall_mem_singleton.2 ⟨by decide, by decide, by decide, by decide⟩

end Drive

end CeDrive
