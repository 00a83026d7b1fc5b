import CeDrive.Mirrored

/-!
# The multi-writer API against the single-writer API

A fresh drive and a fresh synced drive with no peers take the same calls (`Twins`). A call
names ids only in `set_content` : one that an earlier call returned, on each side the one it
returned there, or one of neither format. The two agree if each call succeeded on both or
failed on both, and they list the same entries, up to ids, at every path (`Alike`).

The synced drive checks neither names, nor that a name `mkdir` takes is free, nor that
what `add_file` edits is a file. The two agree throughout a run exactly if no call depends on
these checks (`alike_iff`) : until then the one mirrors the other.
-/

open SortedLog

namespace CeDrive

/-! ## The calls -/

/-- What a save is for : an id that a call returned, or one of neither format. -/
inductive Target
  | returned (k : ℕ)
  | other (id : NodeId) (h : Unminted id)

/-- The id, given those that the calls returned. -/
def Target.id (ids : List NodeId) : Target → Option NodeId
  | returned k => ids[k]?
  | other id _ => some id

/-- A call on both drives, with the id counters of the two processes. -/
inductive Call
  | mkdir (ctr ctr' : ℕ) (parentPath name : String)
  | addFile (ctr ctr' : ℕ) (parentPath name : String) (content : FileContent)
  | mv (srcPath dstParentPath dstName : String)
  | rm (path : String)
  | setContent (target : Target) (content : FileContent)

/-- The call on the single-writer drive, with the id it returns, if it returns one. -/
def Drive.call (d : Drive) (ids : List NodeId) :
    Call → Option (Except String (Option NodeId) × Drive)
  | .mkdir ctr _ parentPath name =>
    (d.mkdir ctr parentPath name).map fun r => (r.1.map some, r.2.1)
  | .addFile ctr _ parentPath name content =>
    (d.addFile ctr parentPath name content).map fun r => (r.1.map some, r.2.1)
  | .mv srcPath dstParentPath dstName =>
    (d.mv srcPath dstParentPath dstName).map fun r => (r.1.map fun _ => none, r.2)
  | .rm path => (d.rm path).map fun r => (r.1.map fun _ => none, r.2)
  | .setContent target content => (target.id ids).bind fun id =>
    (d.setContent id content).map fun d => (.ok none, d)

namespace SyncedDrive

variable (F : Folding MoveOp.ts) (G : Folding StampedContentOp.ts)

/-- `add_file` to its end : the second proposal, if there is one, follows the first. -/
def addFileAll (s : SyncedDrive) (ctr : ℕ) (parentPath name : String) (content : FileContent) :
    Option (Except String NodeId × SyncedDrive × ℕ) := do
  let (r, pending, s, ctr) ← s.addFile F ctr parentPath name content
  match pending with
  | none => return (r, s, ctr)
  | some op =>
    let s ← s.proposeContent op
    return (r, s, ctr)

/-- The call on the synced drive, with the id it returns, if it returns one. -/
def call (s : SyncedDrive) (ids : List NodeId) :
    Call → Option (Except String (Option NodeId) × SyncedDrive)
  | .mkdir _ ctr parentPath name =>
    (s.mkdir F ctr parentPath name).map fun r => (r.1.map some, r.2.1)
  | .addFile _ ctr parentPath name content =>
    (s.addFileAll F ctr parentPath name content).map fun r => (r.1.map some, r.2.1)
  | .mv srcPath dstParentPath dstName =>
    (s.mv F srcPath dstParentPath dstName).map fun r => (r.1.map fun _ => none, r.2)
  | .rm path => (s.rm F path).map fun r => (r.1.map fun _ => none, r.2)
  | .setContent target content => (target.id ids).bind fun id =>
    (s.setContent id content).map fun s => (.ok none, s)

end SyncedDrive

/-- Two drives that take the same calls, the ids the calls returned on each, and whether each
call so far succeeded on both or failed on both. -/
structure Twins where
  drive : Drive
  synced : SyncedDrive
  returned : List (NodeId × NodeId)
  agreed : Bool

namespace Twins

variable (F : Folding MoveOp.ts) (G : Folding StampedContentOp.ts)

def start (name : String) (replica : ReplicaId) : Twins :=
  ⟨Drive.init name replica, ⟨replica, 0, ⟨[], []⟩, ⟨[], []⟩⟩, [], true⟩

/-- The ids a call returned on the two drives. -/
def idPair : Except String (Option NodeId) → Except String (Option NodeId) → List (NodeId × NodeId)
  | .ok (some a), .ok (some b) => [(a, b)]
  | _, _ => []

/-- The outcomes of a call on the two drives. A panic on one of them only is a disagreement. -/
def join (s : Twins) : Option (Except String (Option NodeId) × Drive) →
    Option (Except String (Option NodeId) × SyncedDrive) → Option Twins
  | some (r, d), some (r', s') =>
    some ⟨d, s', s.returned ++ idPair r r', s.agreed && r.isOk == r'.isOk⟩
  | some (_, d), none => some { s with drive := d, agreed := false }
  | none, some (_, s') => some { s with synced := s', agreed := false }
  | none, none => none

def perform (s : Twins) (e : Call) : Option Twins :=
  s.join (s.drive.call (s.returned.map Prod.fst) e) (s.synced.call F (s.returned.map Prod.snd) e)

def performAll (s : Twins) (es : List Call) : Option Twins :=
  es.foldlM (perform F) s

/-- An entry without its id. -/
def anonymous (e : DirEntry) : String × Bool × Option FileContent :=
  (e.name, e.isDir, e.content)

/-- All calls agreed, and the two drives list the same entries at every path. -/
def Alike (s : Twins) : Prop :=
  s.agreed = true ∧ ∀ path, (s.drive.ls path).map (List.map anonymous) =
    (s.synced.ls F G path).1.map (List.map anonymous)

/-- The call does not depend on a check that the synced drive leaves out : in a directory that
is there, the name is valid, and is that of no node (`mkdir`) or at most of a file (`add_file`). -/
def NamesOk (s : Twins) : Call → Prop
  | .mkdir _ _ parentPath name => ∀ parent, s.drive.resolveDir parentPath = .ok parent →
    checkName name = .ok () ∧ s.drive.childNamed parent name = none
  | .addFile _ _ parentPath name _ => ∀ parent, s.drive.resolveDir parentPath = .ok parent →
    checkName name = .ok () ∧ ∀ c ∈ s.drive.childNamed parent name,
      (s.drive.tree.edge c).map Edge.kind = some .file
  | .mv srcPath dstParentPath dstName => ∀ node, s.drive.resolveNode srcPath "move" = .ok node →
    ∀ parent, s.drive.resolveDir dstParentPath = .ok parent → checkName dstName = .ok ()
  | .rm _ => True
  | .setContent .. => True

/-- Every call of the run from `s` meets the condition. -/
def RunNamesOk : Twins → List Call → Prop
  | _, [] => True
  | s, e :: es => s.NamesOk e ∧ ∀ s', s.perform F e = some s' → RunNamesOk s' es

theorem condition : Runs.Condition (perform F) NamesOk (RunNamesOk F) :=
  ⟨fun _ => trivial, fun _ _ _ => Iff.rfl⟩

end Twins

namespace SyncedDrive

variable {F : Folding MoveOp.ts} {s : SyncedDrive} {ctr : ℕ}

theorem tick_eq (s : SyncedDrive) : s.tick = (checkedSucc s.lamport).map fun _ =>
    (⟨s.lamport + 1, s.replica⟩, { s with lamport := s.lamport + 1 }) := by
  rw [tick]
  cases hl : checkedSucc s.lamport with
  | none => rfl
  | some l =>
    obtain rfl := checkedSucc_eq_some hl
    rfl

theorem proposeContent_eq (s : SyncedDrive) (op : ContentOp) :
    s.proposeContent op = (checkedSucc s.lamport).map fun _ => s.wrote op := by
  rw [proposeContent, tick_eq]
  cases checkedSucc s.lamport <;> rfl

variable (hread : s.withTree F = (s.readTree F, s))
include hread

theorem mkdir_of_error {parentPath name e : String}
    (h : resolveDir (s.readTree F) parentPath = .error e) :
    s.mkdir F ctr parentPath name = some (.error e, s, ctr) := by
  simp only [mkdir, hread, h]

theorem mkdir_of_ok {parentPath name : String} {parent : NodeId}
    (h : resolveDir (s.readTree F) parentPath = .ok parent) :
    s.mkdir F ctr parentPath name = (checkedSucc s.lamport).map fun _ =>
      (.ok (s.nextId ctr), s.moved (s.nextId ctr) parent name .dir, (ctr + 1) % 2 ^ 64) := by
  simp only [mkdir, hread, h, tick_eq]
  cases checkedSucc s.lamport <;> rfl

theorem addFileAll_of_error {parentPath name e : String} {content : FileContent}
    (h : resolveDir (s.readTree F) parentPath = .error e) :
    s.addFileAll F ctr parentPath name content = some (.error e, s, ctr) := by
  have hr : addFileRead (s.readTree F) parentPath name = .error e := by
    rw [addFileRead, h]
    rfl
  simp only [addFileAll, addFile, hread, hr]
  rfl

theorem addFileAll_of_some {parentPath name : String} {content : FileContent}
    {parent existing : NodeId} (h : resolveDir (s.readTree F) parentPath = .ok parent)
    (hc : childNamed (s.readTree F) parent name = some existing) :
    s.addFileAll F ctr parentPath name content = (checkedSucc s.lamport).map fun _ =>
      (.ok existing, s.wrote (Drive.setOp existing content), ctr) := by
  have hr : addFileRead (s.readTree F) parentPath name = .ok (parent, some existing) := by
    rw [addFileRead, h, ← hc]
    rfl
  simp only [addFileAll, addFile, hread, hr, proposeContent_eq]
  cases checkedSucc s.lamport <;> rfl

theorem addFileAll_of_none {parentPath name : String} {content : FileContent} {parent : NodeId}
    (h : resolveDir (s.readTree F) parentPath = .ok parent)
    (hc : childNamed (s.readTree F) parent name = none) :
    s.addFileAll F ctr parentPath name content = (checkedSucc s.lamport).bind fun _ =>
      (checkedSucc (s.lamport + 1)).map fun _ => (.ok (s.nextId ctr),
        (s.moved (s.nextId ctr) parent name .file).wrote (Drive.setOp (s.nextId ctr) content),
        (ctr + 1) % 2 ^ 64) := by
  have hr : addFileRead (s.readTree F) parentPath name = .ok (parent, none) := by
    rw [addFileRead, h, ← hc]
    rfl
  simp only [addFileAll, addFile, hread, hr, tick_eq]
  cases checkedSucc s.lamport with
  | none => rfl
  | some l =>
    have hmoved : { s with lamport := s.lamport + 1 }.proposeMove
        ⟨⟨s.lamport + 1, s.replica⟩, s.nextId ctr, parent, name, .file⟩ =
          s.moved (s.nextId ctr) parent name .file := rfl
    have hlamport : (s.moved (s.nextId ctr) parent name .file).lamport = s.lamport + 1 := rfl
    have hid : (freshNodeId ⟨s.lamport + 1, s.replica⟩ ctr).1 = s.nextId ctr := rfl
    simp only [Option.map_some, Option.bind_eq_bind, Option.bind_some, Option.pure_def, hid, hmoved,
      proposeContent_eq, hlamport]
    cases checkedSucc (s.lamport + 1) <;> rfl

theorem mv_of_error {src dstParent dstName e : String}
    (h : mvRead (s.readTree F) src dstParent = .error e) :
    s.mv F src dstParent dstName = some (.error e, s) := by
  simp only [mv, hread, h]

theorem mv_of_ok {src dstParent dstName : String} {node parent : NodeId}
    (h : mvRead (s.readTree F) src dstParent = .ok (node, parent)) :
    s.mv F src dstParent dstName = (checkedSucc s.lamport).map fun _ =>
      (.ok (), s.moved node parent dstName ((s.readTree F).kindOf node)) := by
  simp only [mv, hread, h, tick_eq]
  cases checkedSucc s.lamport <;> rfl

theorem rm_of_error {path e : String} (h : rmRead (s.readTree F) path = .error e) :
    s.rm F path = some (.error e, s) := by
  simp only [rm, hread, h]

theorem rm_of_ok {path : String} {node : NodeId} (h : rmRead (s.readTree F) path = .ok node) :
    s.rm F path = (checkedSucc s.lamport).map fun _ => (.ok (), s.moved node TRASH
      ((((s.readTree F).edge node).map Edge.name).getD "") ((s.readTree F).kindOf node)) := by
  simp only [rm, hread, h, tick_eq]
  cases checkedSucc s.lamport <;> rfl

end SyncedDrive

/-! ## One call -/

/-- The outcomes of a call on two drives that mirror each other. Both panic, both refuse and
stay, or both succeed and mirror each other again, with the ids known before named as before. -/
inductive Agrees (ρ : NodeId → NodeId) (d : Drive) (s : SyncedDrive) :
    Option (Except String (Option NodeId) × Drive) →
      Option (Except String (Option NodeId) × SyncedDrive) → Prop
  | panicked : Agrees ρ d s none none
  | refused (e e' : String) : Agrees ρ d s (some (.error e, d)) (some (.error e', s))
  | done (ρ' : NodeId → NodeId) (a : Option NodeId) {d' : Drive} {s' : SyncedDrive}
      (h : Mirrors ρ' d' s') (hagree : ∀ x ∈ d.knownIds, x ∈ d'.knownIds ∧ ρ' x = ρ x)
      (ha : ∀ id, a = some id → id ∈ d'.knownIds)
      (hclock : d'.state.lamport ≤ d.state.lamport + 2) :
      Agrees ρ d s (some (.ok a, d')) (some (.ok (a.map ρ'), s'))

/-- The drive refuses the call, the synced drive does not. -/
def Splits (d : Drive) (x : Option (Except String (Option NodeId) × Drive))
    (y : Option (Except String (Option NodeId) × SyncedDrive)) : Prop :=
  (∃ e, x = some (.error e, d)) ∧ ∀ r s', y = some (r, s') → r.isOk = true

namespace Mirrors

variable {F : Folding MoveOp.ts} {ρ : NodeId → NodeId} {d : Drive} {s : SyncedDrive}
  {ids ids' : List NodeId} {ctr ctr' : ℕ} {parentPath name : String} {content : FileContent}

theorem isOk_of_map {α β σ : Type} {o : Option α} {f : α → Except String β × σ}
    (hf : ∀ a, ∃ b t, f a = (.ok b, t)) {r : Except String β} {t : σ} (h : o.map f = some (r, t)) :
    r.isOk = true := by
  obtain ⟨a, -, ha⟩ := Option.map_eq_some_iff.1 h
  obtain ⟨b, t', hb⟩ := hf a
  obtain ⟨rfl, -⟩ := Prod.mk.inj (hb.symm.trans ha)
  rfl

section

variable (h : Mirrors ρ d s)
include h

theorem resolveDir_ok {path : String} {p : NodeId} (hp : d.resolveDir path = .ok p) :
    SyncedDrive.resolveDir (s.readTree F) path = .ok (ρ p) := by
  rw [h.resolveDir_eq, hp]
  rfl

theorem resolveDir_error {path e : String} (hp : d.resolveDir path = .error e) :
    SyncedDrive.resolveDir (s.readTree F) path = .error e := by
  rw [h.resolveDir_eq, hp]
  rfl

/-- The move of one node to one directory, made by both. -/
theorem agrees_moved {n p : NodeId} (hn : n ∈ d.kids) (hp : p ∈ d.knownIds) (name : String)
    (kind : NodeKind) : Agrees ρ d s
      ((checkedSucc d.state.lamport).map fun _ => (.ok none, d.moved n p name kind))
      ((checkedSucc s.lamport).map fun _ => (.ok none, s.moved (ρ n) (ρ p) name kind)) := by
  rw [h.lamport]
  cases checkedSucc d.state.lamport with
  | none => exact .panicked
  | some l =>
    exact .done ρ none (h.moved hn hp name kind)
      (fun x hx => ⟨d.knownIds_subset_moved n p name kind hx, rfl⟩) (by simp) (Nat.le_succ _)

/-- The save on one node, made by both. -/
theorem agrees_wrote {n : NodeId} (hn : n ∈ d.knownIds) (a : Option NodeId)
    (ha : ∀ id, a = some id → id ∈ d.knownIds) (content : FileContent) : Agrees ρ d s
      ((checkedSucc d.state.lamport).map fun _ => (.ok a, d.wrote (Drive.setOp n content)))
      ((checkedSucc s.lamport).map fun _ =>
        (.ok (a.map ρ), s.wrote (Drive.setOp (ρ n) content))) := by
  rw [h.lamport]
  cases checkedSucc d.state.lamport with
  | none => exact .panicked
  | some l =>
    exact .done ρ a (h.wrote (Drive.setOp n content) hn) (fun x hx => ⟨hx, rfl⟩) ha
      (Nat.le_succ _)

theorem agrees_mkdir (hfit : d.state.lamport + 1 < 16 ^ 12)
    (hnames : ∀ p, d.resolveDir parentPath = .ok p →
      checkName name = .ok () ∧ d.childNamed p name = none) :
    Agrees ρ d s (d.call ids (.mkdir ctr ctr' parentPath name))
      (s.call F ids' (.mkdir ctr ctr' parentPath name)) := by
  rw [Drive.call, SyncedDrive.call]
  cases hdir : d.resolveDir parentPath with
  | error e =>
    obtain ⟨e', he⟩ : ∃ e', d.mkdirCheck parentPath name = .error e' := by
      cases hc : d.mkdirCheck parentPath name with
      | error e' => exact ⟨e', rfl⟩
      | ok p => exact absurd (Drive.resolveDir_of_mkdirCheck hc) (by simp [hdir])
    rw [s.mkdir_of_error h.withTree_eq (h.resolveDir_error hdir), Drive.mkdir, he]
    exact .refused e' e
  | ok p =>
    obtain ⟨hname, hc⟩ := hnames p hdir
    rw [Drive.mkdir_of_ok (Drive.mkdirCheck_eq_ok.2 ⟨hname, hdir, hc⟩),
      s.mkdir_of_ok h.withTree_eq (h.resolveDir_ok hdir), h.lamport]
    cases checkedSucc d.state.lamport with
    | none => exact .panicked
    | some l =>
      obtain ⟨ρ', hm, hself, hagree⟩ :=
        h.created hfit (h.ids_of_resolveDir hdir) ctr ctr' name .dir
      have hdone := Agrees.done (s := s) ρ' (some (d.nextId ctr)) hm
        (fun x hx => ⟨d.knownIds_subset_moved _ _ _ _ hx, hagree x hx⟩)
        (by simpa using d.mem_knownIds_moved _ p name .dir) (Nat.le_succ _)
      simpa [hself, Except.map] using hdone

theorem splits_mkdir {p : NodeId} (hdir : d.resolveDir parentPath = .ok p)
    (hnames : ¬(checkName name = .ok () ∧ d.childNamed p name = none)) :
    Splits d (d.call ids (.mkdir ctr ctr' parentPath name))
      (s.call F ids' (.mkdir ctr ctr' parentPath name)) := by
  rw [Drive.call, SyncedDrive.call]
  constructor
  · cases hc : d.mkdirCheck parentPath name with
    | error e => exact ⟨e, by rw [Drive.mkdir, hc]; rfl⟩
    | ok q =>
      obtain ⟨hname, hq, hfree⟩ := Drive.mkdirCheck_eq_ok.1 hc
      obtain rfl := Except.ok.inj (hdir.symm.trans hq)
      exact absurd ⟨hname, hfree⟩ hnames
  · rw [s.mkdir_of_ok h.withTree_eq (h.resolveDir_ok hdir), Option.map_map]
    exact fun r s' => isOk_of_map fun _ => ⟨_, _, rfl⟩

theorem agrees_addFile (hfit : d.state.lamport + 1 < 16 ^ 12)
    (hnames : ∀ p, d.resolveDir parentPath = .ok p → checkName name = .ok () ∧
      ∀ c ∈ d.childNamed p name, (d.tree.edge c).map Edge.kind = some .file) :
    Agrees ρ d s (d.call ids (.addFile ctr ctr' parentPath name content))
      (s.call F ids' (.addFile ctr ctr' parentPath name content)) := by
  rw [Drive.call, SyncedDrive.call]
  cases hdir : d.resolveDir parentPath with
  | error e =>
    obtain ⟨e', he⟩ : ∃ e', d.addFileCheck parentPath name = .error e' := by
      cases hc : d.addFileCheck parentPath name with
      | error e' => exact ⟨e', rfl⟩
      | ok p =>
        obtain ⟨p, existing⟩ := p
        exact absurd (Drive.resolveDir_of_addFileCheck hc) (by simp [hdir])
    rw [s.addFileAll_of_error h.withTree_eq (h.resolveDir_error hdir), Drive.addFile, he]
    exact .refused e' e
  | ok p =>
    obtain ⟨hname, hfile⟩ := hnames p hdir
    have hp := h.ids_of_resolveDir hdir
    have hnamed := h.childNamed_eq (F := F) hp name
    cases hc : d.childNamed p name with
    | some c =>
      have hcheck := Drive.addFileCheck_eq_ok.2
        ⟨hname, hdir, hc, fun x hx => hfile x (hc.trans hx)⟩
      have hkid : c ∈ d.knownIds := Or.inl
        ((h.relabeled (F := F)).kids_of_mem_rawChildren (Drive.childNamed_eq_some hc).1)
      rw [hc] at hnamed
      rw [Drive.addFile_of_ok_some hcheck,
        s.addFileAll_of_some h.withTree_eq (h.resolveDir_ok hdir) hnamed, Option.map_map,
        Option.map_map]
      exact h.agrees_wrote hkid (some c) (by simpa using hkid) content
    | none =>
      have hcheck := Drive.addFileCheck_eq_ok.2 ⟨hname, hdir, hc, by simp⟩
      rw [hc] at hnamed
      rw [Drive.addFile_of_ok_none hcheck,
        s.addFileAll_of_none h.withTree_eq (h.resolveDir_ok hdir) hnamed, h.lamport]
      cases checkedSucc d.state.lamport with
      | none => exact .panicked
      | some l =>
        cases checkedSucc (d.state.lamport + 1) with
        | none => exact .panicked
        | some l' =>
          obtain ⟨ρ', hm, hself, hagree⟩ := h.created hfit hp ctr ctr' name .file
          have hnew := d.mem_knownIds_moved (d.nextId ctr) p name .file
          have hdone := Agrees.done (s := s) ρ' (some (d.nextId ctr))
            (hm.wrote (Drive.setOp (d.nextId ctr) content) hnew)
            (fun x hx => ⟨d.knownIds_subset_moved _ _ _ _ hx, hagree x hx⟩)
            (fun id hid => Option.some_injective _ hid ▸ hnew) le_rfl
          simpa [hself, Except.map, Drive.setOp, ContentOp.relabel] using hdone

theorem splits_addFile {p : NodeId} (hdir : d.resolveDir parentPath = .ok p)
    (hnames : ¬(checkName name = .ok () ∧
      ∀ c ∈ d.childNamed p name, (d.tree.edge c).map Edge.kind = some .file)) :
    Splits d (d.call ids (.addFile ctr ctr' parentPath name content))
      (s.call F ids' (.addFile ctr ctr' parentPath name content)) := by
  rw [Drive.call, SyncedDrive.call]
  constructor
  · cases hc : d.addFileCheck parentPath name with
    | error e => exact ⟨e, by rw [Drive.addFile, hc]; rfl⟩
    | ok q =>
      obtain ⟨q, existing⟩ := q
      obtain ⟨hname, hq, hx, hfile⟩ := Drive.addFileCheck_eq_ok.1 hc
      obtain rfl := Except.ok.inj (hdir.symm.trans hq)
      exact absurd ⟨hname, fun c hc => hfile c (hx.symm.trans hc)⟩ hnames
  · cases hnamed : SyncedDrive.childNamed (s.readTree F) (ρ p) name with
    | some c =>
      rw [s.addFileAll_of_some h.withTree_eq (h.resolveDir_ok hdir) hnamed, Option.map_map]
      exact fun r s' => isOk_of_map fun _ => ⟨_, _, rfl⟩
    | none =>
      rw [s.addFileAll_of_none h.withTree_eq (h.resolveDir_ok hdir) hnamed]
      cases checkedSucc s.lamport with
      | none => intro r s' hr; cases hr
      | some l =>
        rw [Option.bind_some, Option.map_map]
        exact fun r s' => isOk_of_map fun _ => ⟨_, _, rfl⟩

theorem agrees_mv {src dst : String}
    (hnames : ∀ n, d.resolveNode src "move" = .ok n → ∀ p, d.resolveDir dst = .ok p →
      checkName name = .ok ()) :
    Agrees ρ d s (d.call ids (.mv src dst name)) (s.call F ids' (.mv src dst name)) := by
  rw [Drive.call, SyncedDrive.call]
  have hread := h.mvRead_eq (F := F) src dst
  by_cases hok : ∃ n p, d.resolveNode src "move" = .ok n ∧ d.resolveDir dst = .ok p
  · obtain ⟨n, p, hn, hp⟩ := hok
    have hkids := h.kids_of_resolveNode hn
    rw [hn, hp] at hread
    rw [Drive.mv_of_ok (Drive.mvCheck_eq_ok_iff.2 ⟨hnames n hn p hp, hn, hp⟩),
      s.mv_of_ok h.withTree_eq hread, (h.relabeled (F := F)).kindOf (Or.inl hkids), Option.map_map,
      Option.map_map]
    exact h.agrees_moved hkids (h.ids_of_resolveDir hp) name _
  · obtain ⟨e', he⟩ : ∃ e', d.mvCheck src dst name = .error e' := by
      cases hc : d.mvCheck src dst name with
      | error e' => exact ⟨e', rfl⟩
      | ok x =>
        obtain ⟨n, p⟩ := x
        exact absurd ⟨n, p, (Drive.mvCheck_eq_ok hc).2⟩ hok
    obtain ⟨e, hr⟩ : ∃ e, SyncedDrive.mvRead (s.readTree F) src dst = .error e := by
      rw [hread]
      cases hn : d.resolveNode src "move" with
      | error e => exact ⟨e, rfl⟩
      | ok n =>
        cases hp : d.resolveDir dst with
        | error e => exact ⟨e, rfl⟩
        | ok p => exact absurd ⟨n, p, hn, hp⟩ hok
    rw [s.mv_of_error h.withTree_eq hr, Drive.mv, he]
    exact .refused e' e

theorem splits_mv {src dst : String} {n p : NodeId} (hn : d.resolveNode src "move" = .ok n)
    (hp : d.resolveDir dst = .ok p) (hnames : checkName name ≠ .ok ()) :
    Splits d (d.call ids (.mv src dst name)) (s.call F ids' (.mv src dst name)) := by
  rw [Drive.call, SyncedDrive.call]
  constructor
  · cases hc : d.mvCheck src dst name with
    | error e => exact ⟨e, by rw [Drive.mv, hc]; rfl⟩
    | ok x =>
      obtain ⟨n, p⟩ := x
      exact absurd (Drive.mvCheck_eq_ok hc).1 hnames
  · have hread := h.mvRead_eq (F := F) src dst
    rw [hn, hp] at hread
    rw [s.mv_of_ok h.withTree_eq hread, Option.map_map]
    exact fun r s' => isOk_of_map fun _ => ⟨_, _, rfl⟩

theorem agrees_rm (path : String) :
    Agrees ρ d s (d.call ids (.rm path)) (s.call F ids' (.rm path)) := by
  rw [Drive.call, SyncedDrive.call]
  have hread := h.rmRead_eq (F := F) path
  cases hn : d.resolveNode path "delete" with
  | error e =>
    rw [hn] at hread
    rw [s.rm_of_error h.withTree_eq hread, Drive.rm, hn]
    exact .refused e e
  | ok n =>
    have hkids := h.kids_of_resolveNode hn
    have hrel := h.relabeled (F := F)
    have hname : (((s.readTree F).edge (ρ n)).map Edge.name).getD "" = d.nameOf n := by
      rw [DriveTree.edge, hrel.getElem?_edges (Or.inl hkids), Option.map_map]
      rfl
    rw [hn] at hread
    rw [Drive.rm_of_ok hn, s.rm_of_ok h.withTree_eq hread, hname, hrel.kindOf (Or.inl hkids),
      Option.map_map, Option.map_map]
    have hagrees := h.agrees_moved hkids h.relabels.trash.1 (d.nameOf n) (d.tree.kindOf n)
    rwa [h.relabels.trash.2] at hagrees

end

end Mirrors

namespace Twins

variable {F : Folding MoveOp.ts} {G : Folding StampedContentOp.ts} {s s' : Twins} {e : Call}
  {es : List Call} {ρ : NodeId → NodeId}

/-- The synced drive mirrors the drive, and the ids the calls returned correspond. -/
structure Sim (ρ : NodeId → NodeId) (s : Twins) : Prop where
  mirrors : Mirrors ρ s.drive s.synced
  returned : ∀ p ∈ s.returned, p.1 ∈ s.drive.knownIds ∧ p.2 = ρ p.1
  agreed : s.agreed = true

theorem sim_start (name : String) (replica : ReplicaId) : Sim id (start name replica) :=
  ⟨Mirrors.init name replica, fun _ hp => absurd hp List.not_mem_nil, rfl⟩

/-- Drives that mirror each other list the same. -/
theorem Sim.alike (h : s.Sim ρ) : s.Alike F G := by
  refine ⟨h.agreed, fun path => ?_⟩
  rw [h.mirrors.ls_eq]
  cases s.drive.ls path with
  | error e => rfl
  | ok es =>
    simp only [Except.map, List.map_map]
    rfl

theorem Sim.target (h : s.Sim ρ) (target : Target) :
    target.id (s.returned.map Prod.snd) = (target.id (s.returned.map Prod.fst)).map ρ ∧
      ∀ id, target.id (s.returned.map Prod.fst) = some id → id ∈ s.drive.knownIds := by
  cases target with
  | returned k =>
    simp only [Target.id, List.getElem?_map]
    cases hk : s.returned[k]? with
    | none => simp
    | some p =>
      obtain ⟨hp, heq⟩ := h.returned p (List.mem_of_getElem? hk)
      simpa [heq] using hp
  | other id hid =>
    simp only [Target.id, Option.map_some, h.mirrors.fixed id hid, Option.some.injEq, true_and]
    rintro _ rfl
    exact Or.inr hid

/-- A call that meets the condition has the same outcome on both. -/
theorem Sim.agrees (h : s.Sim ρ) (hfit : s.drive.state.lamport + 1 < 16 ^ 12) (hok : s.NamesOk e) :
    Agrees ρ s.drive s.synced (s.drive.call (s.returned.map Prod.fst) e)
      (s.synced.call F (s.returned.map Prod.snd) e) := by
  cases e with
  | mkdir ctr ctr' parentPath name => exact h.mirrors.agrees_mkdir hfit hok
  | addFile ctr ctr' parentPath name content => exact h.mirrors.agrees_addFile hfit hok
  | mv src dst name => exact h.mirrors.agrees_mv hok
  | rm path => exact h.mirrors.agrees_rm path
  | setContent target content =>
    obtain ⟨hid, hknown⟩ := h.target target
    rw [Drive.call, SyncedDrive.call, hid]
    cases hn : target.id (s.returned.map Prod.fst) with
    | none => exact .panicked
    | some n =>
      simp only [Option.bind_some, Option.map_some, Drive.setContent, SyncedDrive.setContent,
        Drive.pushContent_eq, SyncedDrive.proposeContent_eq, Option.map_map]
      exact h.mirrors.agrees_wrote (hknown n hn) none (by simp) content

/-- A call that does not meet it fails on the drive only. -/
theorem Sim.splits (h : s.Sim ρ) (hok : ¬s.NamesOk e) :
    Splits s.drive (s.drive.call (s.returned.map Prod.fst) e)
      (s.synced.call F (s.returned.map Prod.snd) e) := by
  cases e with
  | mkdir ctr ctr' parentPath name =>
    obtain ⟨p, hp⟩ := not_forall.1 hok
    obtain ⟨hdir, hnames⟩ := Classical.not_imp.1 hp
    exact h.mirrors.splits_mkdir hdir hnames
  | addFile ctr ctr' parentPath name content =>
    obtain ⟨p, hp⟩ := not_forall.1 hok
    obtain ⟨hdir, hnames⟩ := Classical.not_imp.1 hp
    exact h.mirrors.splits_addFile hdir hnames
  | mv src dst name =>
    obtain ⟨n, hn⟩ := not_forall.1 hok
    obtain ⟨hsrc, hn⟩ := Classical.not_imp.1 hn
    obtain ⟨p, hp⟩ := not_forall.1 hn
    obtain ⟨hdst, hname⟩ := Classical.not_imp.1 hp
    exact h.mirrors.splits_mv hsrc hdst hname
  | rm path => exact absurd trivial hok
  | setContent target content => exact absurd trivial hok

/-- A call that meets the condition leads to drives that mirror each other. -/
theorem Sim.perform (h : s.Sim ρ) (hfit : s.drive.state.lamport + 1 < 16 ^ 12) (hok : s.NamesOk e)
    (he : s.perform F e = some s') :
    ∃ ρ', s'.Sim ρ' ∧ s'.drive.state.lamport ≤ s.drive.state.lamport + 2 := by
  have hagrees := h.agrees (F := F) hfit hok
  rw [Twins.perform] at he
  generalize s.drive.call (s.returned.map Prod.fst) e = x at hagrees he
  generalize s.synced.call F (s.returned.map Prod.snd) e = y at hagrees he
  cases hagrees with
  | panicked => cases he
  | refused err err' =>
    obtain rfl := Option.some_injective _ he
    refine ⟨ρ, ⟨h.mirrors, ?_, ?_⟩, Nat.le_add_right _ 2⟩
    · simpa [idPair] using h.returned
    · simp [h.agreed, Except.isOk, Except.toBool]
  | done ρ' a hm hagree ha hclock =>
    obtain rfl := Option.some_injective _ he
    refine ⟨ρ', ⟨hm, fun p hp => ?_, ?_⟩, hclock⟩
    · rcases List.mem_append.1 hp with hp | hp
      · obtain ⟨hknown, heq⟩ := h.returned p hp
        exact ⟨(hagree _ hknown).1, heq.trans (hagree _ hknown).2.symm⟩
      · cases a with
        | none => cases hp
        | some id =>
          obtain rfl := List.mem_singleton.1 hp
          exact ⟨ha id rfl, rfl⟩
    · simp [h.agreed, Except.isOk, Except.toBool]

/-- After a call that does not meet it the drives have disagreed. -/
theorem Sim.agreed_of_not (h : s.Sim ρ) (hok : ¬s.NamesOk e) (he : s.perform F e = some s') :
    s'.agreed = false := by
  obtain ⟨⟨err, hx⟩, hy⟩ := h.splits (F := F) hok
  rw [Twins.perform, hx] at he
  generalize s.synced.call F (s.returned.map Prod.snd) e = y at hy he
  cases y with
  | none =>
    obtain rfl := Option.some_injective _ he
    rfl
  | some r =>
    obtain rfl := Option.some_injective _ he
    have hisOk := hy r.1 r.2 rfl
    have herr : (Except.error err : Except String (Option NodeId)).isOk = false := rfl
    simp only [hisOk, herr]
    exact Bool.and_false _

/-- The two APIs. Over a run of calls whose ticks fit the digits of an id, each call succeeds
on both drives or fails on both, and both list the same entries after it, if and only if no
call depends on the checks of the single-writer API that the multi-writer API leaves out. -/
theorem alike_iff (name : String) (replica : ReplicaId) (es : List Call)
    (hfit : 2 * es.length < 16 ^ 12) (s : Twins) (hs : (start name replica).performAll F es = some s) :
    (∀ pre s', pre <+: es → (start name replica).performAll F pre = some s' → s'.Alike F G) ↔
      (start name replica).RunNamesOk F es := by
  refine (condition F).always_iff
    (fun n s => (∃ ρ, s.Sim ρ) ∧ s.drive.state.lamport + 2 * n < 16 ^ 12) (Alike F G)
    ⟨⟨id, sim_start name replica⟩, by simpa [start, Drive.init] using hfit⟩
    (sim_start name replica).alike hs ?_ ?_
  · rintro n e s s' ⟨⟨ρ, h⟩, hclock⟩ hok he
    obtain ⟨ρ', h', hle⟩ := h.perform (by omega) hok he
    exact ⟨⟨ρ', h'⟩, by omega⟩
  · rintro n e s s' ⟨⟨ρ, h⟩, hclock⟩ - he
    constructor
    · intro hgood
      by_contra hok
      exact absurd hgood.1 (by simp [h.agreed_of_not hok he])
    · intro hok
      obtain ⟨ρ', h', -⟩ := h.perform (by omega) hok he
      exact h'.alike

instance decidableForallOk {ε α : Type} (x : Except ε α) (P : α → Prop) [∀ a, Decidable (P a)] :
    Decidable (∀ a, x = .ok a → P a) :=
  match x with
  | .ok a => decidable_of_iff (P a) ⟨fun h _ hb => Except.ok.inj hb ▸ h, fun h => h a rfl⟩
  | .error _ => isTrue fun _ h => nomatch h

instance : Decidable (s.NamesOk e) :=
  match e with
  | .mkdir _ _ parentPath name => inferInstanceAs (Decidable (∀ parent,
      s.drive.resolveDir parentPath = .ok parent →
        checkName name = .ok () ∧ s.drive.childNamed parent name = none))
  | .addFile _ _ parentPath name _ => inferInstanceAs (Decidable (∀ parent,
      s.drive.resolveDir parentPath = .ok parent → checkName name = .ok () ∧
        ∀ c ∈ s.drive.childNamed parent name, (s.drive.tree.edge c).map Edge.kind = some .file))
  | .mv srcPath dstParentPath dstName => inferInstanceAs (Decidable (∀ node,
      s.drive.resolveNode srcPath "move" = .ok node → ∀ parent,
        s.drive.resolveDir dstParentPath = .ok parent → checkName dstName = .ok ()))
  | .rm _ => inferInstanceAs (Decidable True)
  | .setContent .. => inferInstanceAs (Decidable True)

/-- A directory, a file in it, a new name for the file, and a save. -/
theorem alike_iff_saved :
    let es : List Call := [.mkdir 0 5 "/" "a", .addFile 1 9 "/a" "f" (.new "c" 1 420 0),
      .mv "/a/f" "/" "g", .setContent (.returned 1) (.new "e" 1 420 1)]
    ∀ pre s', pre <+: es → (start "d" "a").performAll (.first _) pre = some s' →
      s'.Alike (.first _) (.first _) := by
  intro es
  have hrun : ((start "d" "a").performAll (.first _) es).isSome = true := by decide +kernel
  refine (alike_iff "d" "a" es (by decide) _ (Option.some_get hrun).symm).2 ?_
  refine (condition _).cons_of (by decide +kernel) (by decide +kernel) ?_
  refine (condition _).cons_of (by decide +kernel) (by decide +kernel) ?_
  refine (condition _).cons_of (by decide +kernel) (by decide +kernel) ?_
  exact (condition _).cons_of trivial (by decide +kernel) trivial

/-- A second directory of one name is refused by the one, and made by the other. -/
theorem not_alike_of_name_taken :
    let es : List Call := [.mkdir 0 0 "/" "a", .mkdir 1 1 "/" "a"]
    ¬∀ pre s', pre <+: es → (start "d" "a").performAll (.first _) pre = some s' →
      s'.Alike (.first _) (.first _) := by
  intro es h
  have hrun : ((start "d" "a").performAll (.first _) es).map Twins.agreed = some false := by
    decide +kernel
  obtain ⟨s, hs, hsplit⟩ := Option.map_eq_some_iff.1 hrun
  rw [(h es s List.prefix_rfl hs).1] at hsplit
  cases hsplit

end Twins

end CeDrive
