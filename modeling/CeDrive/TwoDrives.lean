import CeDrive.CliRun

/-!
# Two drives of one directory

`Paths::resolve` of `crates/ce-drive-cli/src/main.rs`. A command of one drive writes the state
file or the journal of that drive, and removes its JSON file. The files of two drives are
different files unless the name of one is that of the other followed by `.audit` : the journal
of the one is then the JSON file of the other. So a command of a drive never disturbs another,
except for such a pair (`undisturbed_iff`) : there a share of the one makes the other exist, and
a save of the other deletes the journal of the one.
-/

open Volumes

namespace CeDrive

/-! ## Files -/

namespace OsPath

/-- Join a name that is one component. -/
theorem join_of_not_mem {s : String} (h : '/' ∉ s.toList) (hne : s ≠ "") (hdot : s ≠ ".")
    (base : OsPath) : base.join s = ⟨base.absolute, base.comps ++ [s]⟩ := by
  have hhead : s.toList.head? ≠ some '/' := fun hs => h (List.mem_of_head? hs)
  have hsplit : DriveTree.splitSlash s = [s] := by
    have hone : s.toList.splitOn '/' = [s.toList] := List.splitOnP_eq_singleton fun c hc => by
      have hcs : c ≠ '/' := by
        rintro rfl
        exact h hc
      simpa using hcs
    rw [DriveTree.splitSlash, hone, List.map_singleton, String.ofList_toList]
  have hof : ofString s = ⟨false, [s]⟩ := by
    simp [ofString, hsplit, hhead, hne, hdot]
  rw [join, hof]
  rfl

end OsPath

namespace Paths

variable (base : OsPath) {m n : String}

theorem join_ext (hm : '/' ∉ m.toList) {ext : String} (hext : '/' ∉ ext.toList)
    (hlong : 2 ≤ ext.toList.length) : base.join (m ++ ext) = ⟨base.absolute, base.comps ++ [m ++ ext]⟩ := by
  have hlen : 2 ≤ (m ++ ext).toList.length := by
    rw [String.toList_append, List.length_append]
    omega
  refine OsPath.join_of_not_mem ?_ ?_ ?_ base
  · rw [String.toList_append, List.mem_append, not_or]
    exact ⟨hm, hext⟩
  · intro h
    rw [h] at hlen
    exact absurd hlen (by decide)
  · intro h
    rw [h] at hlen
    exact absurd hlen (by decide)

theorem join_ext_inj (hm : '/' ∉ m.toList) (hn : '/' ∉ n.toList) {ext ext' : String}
    (hext : '/' ∉ ext.toList) (hext' : '/' ∉ ext'.toList) (hlong : 2 ≤ ext.toList.length)
    (hlong' : 2 ≤ ext'.toList.length) :
    base.join (m ++ ext) = base.join (n ++ ext') ↔ m ++ ext = n ++ ext' := by
  rw [join_ext base hm hext hlong, join_ext base hn hext' hlong']
  simp

theorem append_ext_inj {a b ext : String} : a ++ ext = b ++ ext ↔ a = b := by
  rw [← String.toList_inj, String.toList_append, String.toList_append, List.append_left_inj,
    String.toList_inj]

theorem cedrive_ne_json (a b : String) : a ++ ".cedrive" ≠ b ++ ".json" := by
  intro h
  have hlast := congrArg (fun s => s.toList.getLast?) h
  have hstate : ".cedrive".toList.getLast? = some 'e' := by decide
  have hjson : ".json".toList.getLast? = some 'n' := by decide
  simp only [String.toList_append, List.getLast?_append, hstate, hjson, Option.some_or] at hlast
  exact absurd (Option.some_injective _ hlast) (by decide)

theorem append_audit_json (a : String) : a ++ ".audit.json" = a ++ ".audit" ++ ".json" := by
  rw [String.append_assoc]
  rfl

/-- The files of a drive that are kept. -/
def files (p : Paths) : List OsPath :=
  [p.stateFile, p.legacyJson, p.journalFile]

/-- The files of drives with different names are apart unless the one name is the other followed
by `.audit`. -/
theorem disjoint_files_iff (hm : '/' ∉ m.toList) (hn : '/' ∉ n.toList) (hne : m ≠ n) :
    List.Disjoint (resolve base m).files (resolve base n).files ↔
      m ≠ n ++ ".audit" ∧ n ≠ m ++ ".audit" := by
  have hinj {a b ext ext' : String} (ha : '/' ∉ a.toList) (hb : '/' ∉ b.toList)
      (hext : '/' ∉ ext.toList ∧ 2 ≤ ext.toList.length)
      (hext' : '/' ∉ ext'.toList ∧ 2 ≤ ext'.toList.length) :
      base.join (a ++ ext) = base.join (b ++ ext') ↔ a ++ ext = b ++ ext' :=
    join_ext_inj base ha hb hext.1 hext'.1 hext.2 hext'.2
  have hstate : '/' ∉ ".cedrive".toList ∧ 2 ≤ ".cedrive".toList.length := by decide
  have hjson : '/' ∉ ".json".toList ∧ 2 ≤ ".json".toList.length := by decide
  have haudit : '/' ∉ ".audit.json".toList ∧ 2 ≤ ".audit.json".toList.length := by decide
  have hself : ∀ ext : String, m ++ ext ≠ n ++ ext := fun ext h => hne (append_ext_inj.1 h)
  have hjson' (a b : String) : a ++ ".audit.json" ≠ b ++ ".cedrive" := by
    rw [append_audit_json]
    exact (cedrive_ne_json b _).symm
  have hlegacy (a b : String) : a ++ ".json" = b ++ ".audit.json" ↔ a = b ++ ".audit" := by
    rw [append_audit_json, append_ext_inj]
  simp only [files, resolve, List.disjoint_cons_left, List.disjoint_nil_left, and_true,
    List.mem_cons, List.not_mem_nil, or_false, not_or, hinj hm hn hstate hstate,
    hinj hm hn hstate hjson, hinj hm hn hstate haudit, hinj hm hn hjson hstate,
    hinj hm hn hjson hjson, hinj hm hn hjson haudit, hinj hm hn haudit hstate,
    hinj hm hn haudit hjson, hinj hm hn haudit haudit]
  have hback : m ++ ".audit.json" = n ++ ".json" ↔ n = m ++ ".audit" := by
    rw [eq_comm, hlegacy]
  rw [hlegacy, hback]
  constructor
  · rintro ⟨-, ⟨-, -, h⟩, -, h', -⟩
    exact ⟨h, h'⟩
  · rintro ⟨h, h'⟩
    exact ⟨⟨hself _, cedrive_ne_json m n, (hjson' n m).symm⟩,
      ⟨(cedrive_ne_json n m).symm, hself _, h⟩, hjson' m n, h', hself _⟩

/-! ## Commands -/

variable (C : Codec) {v : DataDir}

section Save

variable (name : String) {q : OsPath} {bytes : Bytes}

/-- A save of the state leaves the other kept files. -/
theorem read_state (h : Safe Kept v) (st : DriveState) (killed : Option (ℕ × Bytes)) (hq : Kept q)
    (hqs : q ≠ (resolve base name).stateFile) (hql : q ≠ (resolve base name).legacyJson) :
    (v.applyAll (Volumes.cut ((resolve base name).calls v bytes (.state st)) killed)).read q =
      v.read q := by
  have hps : ∀ q', q' ≠ (resolve base name).legacyJson →
      q' ∉ (if (v.read (resolve base name).legacyJson).isSome then
        [(resolve base name).legacyJson] else []) := by
    intro q' hq'
    split_ifs
    · exact fun hmem => hq' (List.mem_singleton.1 hmem)
    · exact List.not_mem_nil
  exact (h.read_replace (kept_stateFile base name) (not_kept_tmp_state base name) [] bytes
    (hps _ (stateFile_ne_legacyJson base name)) killed hq (hps q hql)).1 (Or.inl hqs)

theorem read_journal (h : Safe Kept v) (j : AuditJournal) (killed : Option (ℕ × Bytes)) (hq : Kept q)
    (hqj : q ≠ (resolve base name).journalFile) :
    (v.applyAll (Volumes.cut ((resolve base name).calls v bytes (.journal j)) killed)).read q =
      v.read q := by
  have hread := (h.read_replace (kept_journalFile base name) (not_kept_tmp_journal base name) []
    bytes List.not_mem_nil killed hq List.not_mem_nil).1 (Or.inl hqj)
  rw [List.map_nil, List.append_nil] at hread
  exact hread

/-- A journal that is saved is there. -/
theorem read_journalFile (h : Safe Kept v) (j : AuditJournal) :
    (v.applyAll ((resolve base name).calls v bytes (.journal j))).read (resolve base name).journalFile =
      some bytes := by
  have hread := (h.read_replace (kept_journalFile base name) (not_kept_tmp_journal base name) []
    bytes List.not_mem_nil none (kept_journalFile base name) List.not_mem_nil).2 rfl (by simp)
  rw [List.map_nil, List.append_nil] at hread
  exact hread

/-- A command changes no kept file but those of its drive. -/
theorem read_perform (h : Safe Kept v) (cmd : Command) (killed : Option (ℕ × Bytes)) (hq : Kept q)
    (hqf : q ∉ (resolve base name).files) :
    ((resolve base name).perform C v (.run cmd killed)).read q = v.read q := by
  obtain ⟨hv, -⟩ | ⟨new, bytes, -, hv, -⟩ := perform_run C (resolve base name) v cmd killed
  · rw [hv]
  · have hne : q ≠ (resolve base name).stateFile ∧ q ≠ (resolve base name).legacyJson ∧
        q ≠ (resolve base name).journalFile := by
      simpa [files] using hqf
    rw [hv]
    cases new with
    | state st => exact read_state base name h st killed hq hne.1 hne.2.1
    | journal j => exact read_journal base name h j killed hq hne.2.2

/-- With the state file, a save removes the file of an earlier version. -/
theorem read_legacyJson (v : DataDir) (bytes : Bytes) (st : DriveState)
    (hthere : (v.read (resolve base name).legacyJson).isSome = true) :
    (v.applyAll ((resolve base name).calls v bytes (.state st))).read
      (resolve base name).legacyJson = none := by
  have hcalls : (resolve base name).calls v bytes (.state st) =
      writeAtomic (resolve base name).stateFile bytes ++ [.remove (resolve base name).legacyJson] := by
    rw [calls, saveCalls, if_pos hthere, List.map_singleton]
  have hdir (u : DataDir) (q : OsPath) : (u.apply (.remove q)).read q = none := by
    show ((Function.update u.dir q none) q).map u.data = none
    rw [Function.update_self]
    rfl
  rw [hcalls, Volume.applyAll, List.foldl_append]
  exact hdir _ _

end Save

/-! ## Disturbed drives -/

theorem encodeState_table {states : List DriveState} (journals : List AuditJournal) {st : DriveState}
    (h : st ∈ states) (hlen : states.length ≤ 256) :
    ∃ bytes, (Codec.table states journals).encodeState st = .ok bytes := by
  have hidx : states.idxOf st < 256 := (List.idxOf_lt_length_iff.2 h).trans_le hlen
  exact ⟨_, by simp only [Codec.encodeState, Codec.table, if_pos (And.intro hidx h)]; rfl⟩

theorem encodeJournal_table (states : List DriveState) {journals : List AuditJournal}
    {j : AuditJournal} (h : j ∈ journals) :
    ∃ bytes, (Codec.table states journals).encodeJournal j = .ok bytes :=
  ⟨_, by simp only [Codec.encodeJournal, Codec.table, if_pos h]; rfl⟩

/-- A journal with an entry. -/
def someJournal : AuditJournal :=
  ⟨[], [⟨0, "", 0⟩]⟩

/-- The state of a new drive. -/
def newState (name : String) : DriveState :=
  (Drive.init name (Workspace.mk .zeros []).rootIdHex).state

theorem legacyJson_audit (n : String) :
    (resolve base (n ++ ".audit")).legacyJson = (resolve base n).journalFile :=
  congrArg base.join (append_audit_json n).symm

section Codec

variable {C : Codec} {name : String} {b₁ b₂ b₃ : Bytes}

/-- The directory after an `init` in an empty one. -/
def initialized (p : Paths) (b : Bytes) : DataDir :=
  (Volume.empty []).applyAll (p.calls (Volume.empty []) b (.state (newState p.name)))

/-- An initialized directory is safe, and has a state file and no other file. -/
theorem initialized_spec (name : String) (b : Bytes) :
    Safe Kept (initialized (resolve base name) b) ∧
      (initialized (resolve base name) b).read (resolve base name).stateFile = some b ∧
      ∀ q, Kept q → q ≠ (resolve base name).stateFile → q ≠ (resolve base name).legacyJson →
        (initialized (resolve base name) b).read q = none := by
  have hempty := safe_empty Kept ([] : Bytes)
  have hs := kept_stateFile base name
  have htmp := not_kept_tmp_state base name
  refine ⟨?_, ?_, fun q hq hqs hql => ?_⟩
  · have hsafe := (hempty.replace hs (fun _ => ()) htmp [] b List.not_mem_nil
      (fun _ _ _ _ => rfl) none).1
    exact hsafe
  · have hread := (hempty.read_replace hs htmp [] b List.not_mem_nil none hs List.not_mem_nil).2 rfl
      (by simp)
    exact hread
  · exact read_state base name hempty (newState name) none hq hqs hql

/-- A save of the drive of the name followed by `.audit` deletes the journal. -/
theorem journal_lost (n : String) (h₁ : C.encodeState (newState (n ++ ".audit")) = .ok b₁)
    (h₂ : C.encodeJournal someJournal = .ok b₂)
    (h₃ : C.encodeState (Drive.fromState (newState (n ++ ".audit"))).compact.state = .ok b₃) :
    ∃ v, Safe Kept v ∧ (resolve base n).stored C
      ((resolve base (n ++ ".audit")).perform C v (.run .compact none)).read ≠
        (resolve base n).stored C v.read := by
  generalize hm : n ++ ".audit" = m at h₁ h₃
  have hlegacy : (resolve base m).legacyJson = (resolve base n).journalFile :=
    hm ▸ legacyJson_audit base n
  obtain ⟨hsafe₁, hstate₁, -⟩ := initialized_spec base m b₁
  generalize initialized (resolve base m) b₁ = v₁ at hsafe₁ hstate₁
  set v₂ := v₁.applyAll ((resolve base n).calls v₁ b₂ (.journal someJournal)) with hv₂
  have hsafe₂ : Safe Kept v₂ :=
    (saved C base n hsafe₁ (show C.encode (.journal someJournal) = .ok b₂ from h₂) none).safe
  have hjournal : v₂.read (resolve base n).journalFile = some b₂ :=
    read_journalFile base n hsafe₁ someJournal
  have hstate : v₂.read (resolve base m).stateFile = some b₁ :=
    (read_journal base n hsafe₁ someJournal none (kept_stateFile base m)
      (hlegacy ▸ stateFile_ne_legacyJson base m)).trans hstate₁
  have hload : ((resolve base m).stored C v₂.read).state = .ok (newState m) := by
    simp only [stored, loadState, hstate, C.decodeState_of_encodeState h₁]
  have hsave : (resolve base m).save C ((resolve base m).stored C v₂.read) .compact =
      some (.ok (.state (Drive.fromState (newState m)).compact.state)) := by
    simp only [save, hload]
    rfl
  have hperform : (resolve base m).perform C v₂ (.run .compact none) =
      v₂.applyAll ((resolve base m).calls v₂ b₃
        (.state (Drive.fromState (newState m)).compact.state)) := by
    simp only [perform, hsave, Codec.encode, h₃]
    rfl
  refine ⟨v₂, hsafe₂, fun heq => ?_⟩
  have hnone := read_legacyJson base m v₂ b₃ (Drive.fromState (newState m)).compact.state
    (by rw [hlegacy, hjournal]; rfl)
  have hj := congrArg Stored.journal heq
  rw [← hperform, hlegacy] at hnone
  simp only [stored, loadJournal, hnone, hjournal, C.decodeJournal_of_encodeJournal h₂] at hj
  exact absurd (Except.ok.inj hj) (by decide)

/-- A share of the drive makes the drive of the name followed by `.audit` exist. -/
theorem drive_appears (hm : '/' ∉ m.toList) {o : ShareOptions} {clock : ℕ × ℕ × ℕ}
    {record : GrantRecord} (hroot : o.path = "/")
    (hshare : (Workspace.mk C.ids []).share o clock = some (.ok record))
    (h₁ : C.encodeState (newState m) = .ok b₁)
    (h₂ : C.encodeJournal (AuditJournal.new.recordGrant record) = .ok b₂) :
    ∃ v, Safe Kept v ∧ (resolve base (m ++ ".audit")).stored C
      ((resolve base m).perform C v (.run (.share [] o clock) none)).read ≠
        (resolve base (m ++ ".audit")).stored C v.read := by
  have hlegacy := legacyJson_audit base m
  have hlong : '/' ∉ (m ++ ".audit").toList := by
    rw [String.toList_append, List.mem_append, not_or]
    exact ⟨hm, by decide⟩
  have hne : m ++ ".audit" ≠ m := by
    intro h
    have hlen := congrArg (fun s => s.toList.length) h
    simp [String.toList_append] at hlen
  have hstates : (resolve base (m ++ ".audit")).stateFile ≠ (resolve base m).stateFile := fun h =>
    hne (append_ext_inj.1 ((join_ext_inj base hlong hm (by decide) (by decide) (by decide)
      (by decide)).1 h))
  have hstateJson : (resolve base (m ++ ".audit")).stateFile ≠ (resolve base m).legacyJson := fun h =>
    cedrive_ne_json _ _ ((join_ext_inj base hlong hm (by decide) (by decide) (by decide)
      (by decide)).1 h)
  obtain ⟨hsafe, hstate, hnone⟩ := initialized_spec base m b₁
  generalize initialized (resolve base m) b₁ = v at hsafe hstate hnone
  have hjournal : v.read (resolve base m).journalFile = none :=
    hnone _ (kept_journalFile base m) (stateFile_ne_journalFile base m).symm
      (legacyJson_ne_journalFile base m).symm
  have hstored : (resolve base m).stored C v.read = ⟨true, .ok (newState m), .ok .new⟩ := by
    simp only [stored, isThere, loadState, loadJournal, hstate, hjournal, Option.isSome_some,
      Bool.true_or, C.decodeState_of_encodeState h₁]
  have hresolve : (Drive.fromState (newState m)).tree.resolve o.path ≠ none := by
    rw [hroot]
    exact Option.some_ne_none ROOT
  have hsave : (resolve base m).save C ((resolve base m).stored C v.read) (.share [] o clock) =
      some (.ok (.journal (AuditJournal.new.recordGrant record))) := by
    simp only [hstored, save, Stored.cmdShare, if_neg hresolve, hshare]
    rfl
  have hperform : (resolve base m).perform C v (.run (.share [] o clock) none) =
      v.applyAll ((resolve base m).calls v b₂ (.journal (AuditJournal.new.recordGrant record))) := by
    simp only [perform, hsave, Codec.encode, h₂]
    rfl
  refine ⟨v, hsafe, fun heq => ?_⟩
  have hthere := congrArg Stored.isThere heq
  have hnew : ((resolve base m).perform C v (.run (.share [] o clock) none)).read
      (resolve base m).journalFile = some b₂ :=
    hperform ▸ read_journalFile base m hsafe (AuditJournal.new.recordGrant record)
  simp only [stored, isThere, hlegacy, hnew, hjournal, Option.isSome_some, Option.isSome_none,
    Bool.or_true, Bool.or_false, hnone _ (kept_stateFile base _) hstates hstateJson] at hthere
  cases hthere

end Codec

/-- A share of the whole drive with the node id of sixty-four zeros. -/
def shareAll : ShareOptions :=
  ⟨"/", some (String.ofList (List.replicate 64 '0')), "read", false, none, 0⟩

theorem exists_shareAll : ∃ record, (Workspace.mk .zeros []).share shareAll (0, 0, 0) = some (.ok record) := by
  have hok : (((Workspace.mk .zeros []).share shareAll (0, 0, 0)).any fun r => r.isOk) = true := by
    decide +kernel
  cases hs : (Workspace.mk .zeros []).share shareAll (0, 0, 0) with
  | none => simp [hs] at hok
  | some r =>
    cases r with
    | error e => simp [hs, Except.isOk, Except.toBool] at hok
    | ok record => exact ⟨record, rfl⟩

/-- A command of a drive leaves the other drive as it is, in every directory, exactly if neither
name is the other followed by `.audit`. -/
theorem undisturbed_iff (hm : '/' ∉ m.toList) (hn : '/' ∉ n.toList) (hne : m ≠ n) :
    (∀ (C : Codec) (v : DataDir), Safe Kept v → ∀ cmd killed,
      (resolve base n).stored C ((resolve base m).perform C v (.run cmd killed)).read =
        (resolve base n).stored C v.read) ↔ m ≠ n ++ ".audit" ∧ n ≠ m ++ ".audit" := by
  constructor
  · intro h
    constructor
    · rintro rfl
      have hlen : [newState (n ++ ".audit"),
          (Drive.fromState (newState (n ++ ".audit"))).compact.state].length ≤ 256 := by simp
      obtain ⟨b₁, h₁⟩ := encodeState_table [someJournal] List.mem_cons_self hlen
      obtain ⟨b₂, h₂⟩ := encodeJournal_table _ List.mem_cons_self
      obtain ⟨b₃, h₃⟩ := encodeState_table [someJournal]
        (List.mem_cons_of_mem _ List.mem_cons_self) hlen
      obtain ⟨v, hsafe, hlost⟩ := journal_lost base n h₁ h₂ h₃
      exact hlost (h _ v hsafe _ _)
    · rintro rfl
      have hlen : [newState m].length ≤ 256 := by simp
      obtain ⟨record, hrecord⟩ := exists_shareAll
      obtain ⟨b₁, h₁⟩ := encodeState_table [AuditJournal.new.recordGrant record]
        List.mem_cons_self hlen
      obtain ⟨b₂, h₂⟩ := encodeJournal_table _ List.mem_cons_self
      obtain ⟨v, hsafe, hnew⟩ := drive_appears base hm rfl hrecord h₁ h₂
      exact hnew (h _ v hsafe _ _)
  · intro h C v hsafe cmd killed
    have hdisjoint := (disjoint_files_iff base hm hn hne).2 h
    have hread : ∀ q ∈ (resolve base n).files, Kept q →
        ((resolve base m).perform C v (.run cmd killed)).read q = v.read q := fun q hq hkept =>
      read_perform base C m hsafe cmd killed hkept fun hqm => hdisjoint hqm hq
    exact stored_congr C (hread _ (by simp [files]) (kept_stateFile base n))
      (hread _ (by simp [files]) (kept_legacyJson base n))
      (hread _ (by simp [files]) (kept_journalFile base n))

/-- Drives `default` and `default.audit` disturb each other. -/
theorem undisturbed_iff_audit : ¬∀ (C : Codec) (v : DataDir), Safe Kept v → ∀ cmd killed,
    let p := resolve ⟨false, [".ce-drive"]⟩
    (p "default").stored C ((p "default.audit").perform C v (.run cmd killed)).read =
      (p "default").stored C v.read := fun h =>
  ((undisturbed_iff ⟨false, [".ce-drive"]⟩ (by decide) (by decide) (by decide)).1 h).1 rfl

end Paths

end CeDrive
