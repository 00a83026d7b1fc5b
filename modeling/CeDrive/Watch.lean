import CeDrive.LastWriter
import CeDrive.PushMatches

/-!
# Watching a directory

`watch` of `crates/ce-drive-mount/src/materialize.rs`, as `cmd_push` of the command line runs it :
turn after turn the directory is pushed as it is, and the drive is saved if the push reports a
change. The process may be killed at any time, or end as a push fails, and started again from
what was saved.

In a drive that only pushes write, names stay apart (`PushStep.clear_op`) and no record is newer
than the file it is of (`PushStep.notNewer_op`). So after each turn the drive lists the files of
the disk and no others, with the cids of their bytes, in memory and as saved
(`watched_matches`), if an edit moves the mtime on and no directory turns into a file.
-/

namespace CeDrive

/-! ## Trees without two of one name -/

namespace DriveTree

variable {t t' : DriveTree} {p c : NodeId} {r name : String} {k : NodeKind}

/-- No two children of a directory that are shown have one bare name. -/
def Clear (t : DriveTree) : Prop :=
  ∀ ⦃p b c c'⦄, p ≠ TRASH → t.Called p b c → t.Called p b c' → c = c'

/-- All names are bare. -/
theorem Clear.lists_iff (h : t.Clear) (ht : t.Replayed) (hp : p ≠ TRASH) :
    t.Lists p r c ↔ t.Called p r c := by
  constructor
  · intro hl
    obtain ⟨b, hb, ⟨-, rfl⟩ | ⟨⟨m, hm, hlt⟩, -⟩⟩ := ht.lists_iff.1 hl
    · exact hb
    · obtain rfl := h hp hb hm
      exact absurd hlt (lt_irrefl _)
  · intro hc
    refine ht.lists_iff.2 ⟨r, hc, Or.inl ⟨fun m hm => ?_, rfl⟩⟩
    obtain rfl := h hp hc hm
    exact le_rfl

/-- A node that goes to the trash leaves no new siblings. -/
theorem Clear.trashed (h : t.Clear) (hm : Moved t t' c TRASH name k) (ht : t.Replayed) :
    t'.Clear := by
  have hcalled : ∀ {p b m}, p ≠ TRASH → t'.Called p b m → t.Called p b m := by
    intro p b m hp hc
    obtain ⟨⟨e, he, hep, hname⟩, hs⟩ := hm.replayed.mirror.called_iff.1 hc
    have hlive := hs.resolve_left hp
    have hold : t.isTrashed m = false := by
      by_contra hnot
      rw [Bool.not_eq_false] at hnot
      rw [hm.isTrashed ht rfl hnot] at hlive
      cases hlive
    refine ht.mirror.called_iff.2 ⟨⟨e, ?_, hep, hname⟩, Or.inr hold⟩
    by_cases hmc : m = c
    · subst hmc
      by_cases hr : Forest.Reaches t.parentOf TRASH m
      · rwa [hm.skipped hr] at he
      · obtain rfl := Option.some_injective _ ((hm.edge_self hr).symm.trans he)
        exact absurd hep.symm hp
    · rwa [hm.edge_of_ne hmc] at he
  exact fun p b c c' hp hc hc' => h hp (hcalled hp hc) (hcalled hp hc')

end DriveTree

/-! ## What the operations of a push keep -/

namespace PushStep

open Drive

variable {store : ObjectStore} {disk : DiskDir} {s s' : PushState} {q : List String} {p : NodeId}
  {r : String} {kind : NodeKind}

theorem Vacant.clear (h : Vacant store disk s q p r kind) (hc : s.drive.tree.Clear) :
    (s.drive.moved (s.drive.nextId s.ctr) p r kind).tree.Clear := by
  have hp := DriveTree.ne_trash_of_walked h.inv.replayed h.walked
  have hnot : ∀ m, ¬s.drive.tree.Called p r m := fun m hm =>
    h.name m ((hc.lists_iff h.inv.replayed hp).2 hm)
  intro p' b c c' hp' hcalled hcalled'
  rcases (h.grafted.called _ _ _).1 hcalled with hold | ⟨rfl, rfl, rfl⟩ <;>
    rcases (h.grafted.called _ _ _).1 hcalled' with hold' | ⟨hpp, hbb, rfl⟩
  · exact hc hp' hold hold'
  · subst hpp hbb
    exact absurd hold (hnot c)
  · exact absurd hold' (hnot c')
  · rfl

/-- Names stay apart. -/
theorem clear_op (h : PushOp store disk s s') (hc : s.drive.tree.Clear) : s'.drive.tree.Clear := by
  cases h with
  | keep | edit => exact hc
  | create h => exact h.clear hc
  | mkdir h => exact h.clear hc
  | rm hinv hparts hf => exact hc.trashed (DriveTree.moved_of_inv hinv ..) hinv.replayed

/-- What is recorded at a file of the disk is not newer. -/
def NotNewer (disk : DiskDir) (d : Drive) : Prop :=
  ∀ ⦃x f n c⦄, disk.HasFile x f → d.tree.Walked x n → d.content[n]? = some c →
    c.mtimeMs ≤ f.mtimeMs

theorem mtime_applyRecord {o : Option FileContent} {n : NodeId} {content c : FileContent}
    {bound : ℕ} (hbound : ∀ c, o = some c → c.mtimeMs ≤ bound) (hcontent : content.mtimeMs ≤ bound)
    (h : ContentMap.applyRecord o (setOp n content) = some c) : c.mtimeMs ≤ bound := by
  cases o with
  | none =>
    obtain rfl := Option.some_injective _ h
    exact hcontent
  | some old =>
    have hold := hbound old rfl
    obtain rfl := Option.some_injective _ h
    obtain ⟨-, heq⟩ | ⟨-, -, v, heq⟩ | ⟨-, -, heq⟩ :=
      FileContent.record_cases { old with mode := content.mode } content.cid content.size
        content.mtimeMs
    · exact (congrArg FileContent.mtimeMs heq).trans_le hold
    · rw [heq, LastWriter.mtimeMs_pushVersion]
      exact hold
    · exact (congrArg FileContent.mtimeMs heq).trans_le hcontent

theorem notNewer_op (hs : disk.Apart) (h : PushOp store disk s s') (hn : NotNewer disk s.drive) :
    NotNewer disk s'.drive := by
  have hunique : ∀ {x f g}, disk.HasFile x f → disk.HasFile x g → f = g := by
    intro x f g hf hg
    rw [hs.hasFile_iff] at hf hg
    exact Option.some_injective _ (Option.some_injective _ (hf.symm.trans hg))
  cases h with
  | keep => exact hn
  | @edit q p m r f content h hf hl hc =>
    intro x g n c hg hx hcontent
    rw [getElem?_content_wrote] at hcontent
    split_ifs at hcontent with heq
    · subst heq
      have hm := DriveTree.Walked.child h.walked h.dir hl
      obtain rfl := hm.unique h.inv.replayed hx
      obtain rfl := hunique hf hg
      exact mtime_applyRecord (fun c hold => hn hf hm hold) hc.mtime.le hcontent
    · exact hn hg hx hcontent
  | @create q p r f content h hf hc =>
    intro x g n c hg hx hcontent
    rw [getElem?_content_wrote] at hcontent
    rcases (h.grafted.walked _ _).1 hx with hx | ⟨rfl, rfl⟩
    · rw [if_neg (h.ne hx).symm] at hcontent
      exact hn hg hx hcontent
    · obtain rfl := hunique hf hg
      rw [if_pos rfl] at hcontent
      refine mtime_applyRecord (fun c hold => ?_) hc.mtime.le hcontent
      cases (h.spare.empty rfl).symm.trans hold
  | @mkdir q p r h hd =>
    intro x g n c hg hx hcontent
    rcases (h.grafted.walked _ _).1 hx with hx | ⟨rfl, rfl⟩
    · exact hn hg hx hcontent
    · exact absurd hg (not_hasFile_of_hasDir hs hd g)
  | @rm q p m r hinv hparts hf =>
    intro x g n c hg hx hcontent
    have hm := DriveTree.moved_of_inv hinv m TRASH (s.drive.nameOf m) (s.drive.tree.kindOf m)
    exact hn hg ((DriveTree.prune_walked hm hinv.replayed hparts).1 hx).1 hcontent

/-- Directories are listed only where there were some. -/
def DirsAt (was : List String → Prop) (d : Drive) : Prop :=
  ∀ ⦃x n⦄, x ≠ [] → d.tree.Walked x n → d.tree.IsDir n → was x

theorem dirsAt_op {was : List String → Prop} (hwas : ∀ x, disk.HasDir x → was x)
    (h : PushOp store disk s s') (hd : DirsAt was s.drive) : DirsAt was s'.drive := by
  cases h with
  | keep | edit => exact hd
  | @create q p r f content h hf hc =>
    intro x n hne hx hdir
    rcases (h.grafted.walked _ _).1 hx with hx | ⟨rfl, rfl⟩
    · exact hd hne hx ((h.isDir_iff hx).1 hdir)
    · cases h.isDir_self.1 hdir
  | @mkdir q p r h hd' =>
    intro x n hne hx hdir
    rcases (h.grafted.walked _ _).1 hx with hx | ⟨rfl, rfl⟩
    · exact hd hne hx ((h.isDir_iff hx).1 hdir)
    · exact hwas _ hd'
  | @rm q p m r hinv hparts hf =>
    intro x n hne hx hdir
    have hm := DriveTree.moved_of_inv hinv m TRASH (s.drive.nameOf m) (s.drive.tree.kindOf m)
    obtain ⟨hx, hnc⟩ := (DriveTree.prune_walked hm hinv.replayed hparts).1 hx
    exact hd hne hx ((hm.isDir_iff hnc).1 hdir)

theorem Vacant.size (h : Vacant store disk s q p r kind) :
    (s.drive.moved (s.drive.nextId s.ctr) p r kind).tree.edges.size =
      s.drive.tree.edges.size + 1 := by
  have hun := h.spare.unused
  have hm := DriveTree.moved_of_inv h.inv (s.drive.nextId s.ctr) p r kind
  rw [hm.placed (hun.not_reaches (h.ne h.walked)), Std.ExtTreeMap.size_insert, if_neg]
  rw [Std.ExtTreeMap.contains_eq_isSome_getElem?, hun.edge]
  exact Bool.false_ne_true

/-- The ids minted are those of nodes. -/
theorem size_op (h : PushOp store disk s s') (hctr : s.ctr ≤ s.drive.tree.edges.size) :
    s'.ctr ≤ s'.drive.tree.edges.size ∧ s.drive.tree.edges.size ≤ s'.drive.tree.edges.size := by
  cases h with
  | keep | edit => exact ⟨hctr, le_rfl⟩
  | create h =>
    have hsize := h.size
    have hctr' := Nat.mod_le (s.ctr + 1) (2 ^ 64)
    have hle : (s.ctr + 1) % 2 ^ 64 ≤ s.drive.tree.edges.size + 1 := by omega
    exact ⟨hle.trans_eq hsize.symm, (Nat.le_succ _).trans_eq hsize.symm⟩
  | mkdir h =>
    have hsize := h.size
    have hctr' := Nat.mod_le (s.ctr + 1) (2 ^ 64)
    have hle : (s.ctr + 1) % 2 ^ 64 ≤ s.drive.tree.edges.size + 1 := by omega
    exact ⟨hle.trans_eq hsize.symm, (Nat.le_succ _).trans_eq hsize.symm⟩
  | @rm q p c r hinv hparts hf =>
    have hm := DriveTree.moved_of_inv hinv c TRASH (s.drive.nameOf c) (s.drive.tree.kindOf c)
    have hle : s.drive.tree.edges.size ≤
        (s.drive.moved c TRASH (s.drive.nameOf c) (s.drive.tree.kindOf c)).tree.edges.size := by
      by_cases hr : Forest.Reaches s.drive.tree.parentOf TRASH c
      · rw [hm.skipped hr]
      · rw [hm.placed hr]
        exact Std.ExtTreeMap.size_le_size_insert
    exact ⟨hctr.trans hle, hle⟩

/-- The files are listed as in `d`, with the same records. -/
structure SameFiles (d d' : Drive) : Prop where
  walked : ∀ x n, d'.tree.Walked x n ∧ ¬d'.tree.IsDir n ↔ d.tree.Walked x n ∧ ¬d.tree.IsDir n
  record : d'.content = d.content

theorem SameFiles.refl (d : Drive) : SameFiles d d :=
  ⟨fun _ _ => Iff.rfl, rfl⟩

theorem SameFiles.trans {d d' d'' : Drive} (h : SameFiles d d') (h' : SameFiles d' d'') :
    SameFiles d d'' :=
  ⟨fun x n => (h'.walked x n).trans (h.walked x n), h'.record.trans h.record⟩

theorem sameFiles_op {d : Drive} (h : PushOp store disk s s')
    (hd : s.report.changed = 0 ∧ s.report.removed = 0 → SameFiles d s.drive) :
    s'.report.changed = 0 ∧ s'.report.removed = 0 → SameFiles d s'.drive := by
  cases h with
  | keep => exact hd
  | edit | create =>
    rintro ⟨hchanged, -⟩
    cases hchanged
  | @mkdir q p r h hd' =>
    intro hquiet
    obtain ⟨hwalked, hrecord⟩ := hd hquiet
    refine ⟨fun x n => ?_, hrecord⟩
    rw [← hwalked]
    constructor
    · rintro ⟨hx, hfile⟩
      rcases (h.grafted.walked _ _).1 hx with hx | ⟨rfl, rfl⟩
      · exact ⟨hx, mt (h.isDir_iff hx).2 hfile⟩
      · exact absurd (h.isDir_self.2 rfl) hfile
    · rintro ⟨hx, hfile⟩
      exact ⟨(h.grafted.walked _ _).2 (Or.inl hx), mt (h.isDir_iff hx).1 hfile⟩
  | rm hinv hparts hf =>
    rintro ⟨-, hremoved⟩
    cases hremoved

end PushStep

/-! ## The loop -/

/-- What there is between two turns : the drive, the id counter and the uploads so far, the state
in the file, and whether the last save that was due went through. -/
structure WatchState where
  drive : Drive
  ctr : ℕ
  uploads : List (List UInt8)
  saved : DriveState
  kept : Bool

namespace WatchState

/-- The drive is saved, or the save fails. -/
def persist (w : WatchState) (saves : Bool) : WatchState :=
  if saves then { w with saved := w.drive.state, kept := true } else { w with kept := false }

/-- One turn of the loop, with the callback of `cmd_push` : the drive is saved if something was
pushed, and of a save that fails there is only a warning. -/
def turn (store : ObjectStore) (k : ℕ) (saves : Bool) (disk : DiskDir) (w : WatchState) :
    Option (Except String WatchState) :=
  (w.drive.push store k disk w.ctr w.uploads).map fun r => r.1.map fun report =>
    let w' := { w with drive := r.2.drive, ctr := r.2.ctr, uploads := r.2.uploads }
    if report.changed > 0 ∨ report.removed > 0 then w'.persist saves else w'

/-- A new process loads what was saved. -/
def restart (w : WatchState) (uploads : List (List UInt8)) : WatchState :=
  ⟨.fromState w.saved, 0, uploads, w.saved, true⟩

end WatchState

/-- Turns and restarts of a watch that begins with a new drive, and what the disk was at the turns
that succeeded, the last first. -/
inductive Watched (store : ObjectStore) (k : ℕ) (name : String) (replica : ReplicaId) :
    List DiskDir → WatchState → Prop
  | start : Watched store k name replica []
      ⟨.init name replica, 0, [], (Drive.init name replica).state, true⟩
  | turn {past : List DiskDir} {disk : DiskDir} {w w' : WatchState} {saves : Bool}
      (h : Watched store k name replica past w)
      (hroom : w.drive.tree.edges.size + disk.size ≤ 16 ^ 8)
      (hturn : w.turn store k saves disk = some (.ok w')) :
      Watched store k name replica (disk :: past) w'
  | restart {past : List DiskDir} {w : WatchState} (h : Watched store k name replica past w)
      (uploads : List (List UInt8)) : Watched store k name replica past (w.restart uploads)

/-- A file with other bytes than before has a later mtime. -/
def Later (disk disk' : DiskDir) : Prop :=
  ∀ ⦃x f f'⦄, disk.HasFile x f → disk'.HasFile x f' →
    f.mtimeMs < f'.mtimeMs ∨ f.bytes = f'.bytes ∧ f.mtimeMs ≤ f'.mtimeMs

/-- What the disk is at the turns : an edit moves the mtime on, and no directory turns into a
file. -/
structure DiskHistory (disks : List DiskDir) : Prop where
  sorted : ∀ D ∈ disks, D.Sorted
  plain : ∀ D ∈ disks, D.Plain
  later : disks.Pairwise fun D' D => Later D D'
  dirs : disks.Pairwise fun D' D => ∀ x f, D'.HasFile x f → ¬D.HasDir x

theorem DiskHistory.tail {disk : DiskDir} {past : List DiskDir} (h : DiskHistory (disk :: past)) :
    DiskHistory past where
  sorted D hD := h.sorted D (List.mem_cons_of_mem _ hD)
  plain D hD := h.plain D (List.mem_cons_of_mem _ hD)
  later := (List.pairwise_cons.1 h.later).2
  dirs := (List.pairwise_cons.1 h.dirs).2

namespace Drive

open PushStep

variable {d d' : Drive} {store : ObjectStore} {disk disk' : DiskDir} {was was' : List String → Prop}
  {k ctr : ℕ} {uploads : List (List UInt8)} {report : PushReport} {s : PushState}

/-- The drive lists the files of the disk with the cids of their bytes, and no others. -/
structure Mirrors (d : Drive) (store : ObjectStore) (disk : DiskDir) (was : List String → Prop) :
    Prop where
  inv : d.Inv
  ahead : d.Ahead
  tidy : d.tree.Tidy
  clear : d.tree.Clear
  current : ∀ x f, disk.HasFile x f → ∃ n, d.tree.Walked x n ∧ ¬d.tree.IsDir n ∧
    d.recordedCid n = some (store.cidOf f.bytes)
  only : ∀ x n, d.tree.Walked x n → ¬d.tree.IsDir n → ∃ f, disk.HasFile x f
  notNewer : NotNewer disk d
  dirs : DirsAt was d

theorem Mirrors.matches (h : d.Mirrors store disk was) : d.Matches store disk := by
  refine ⟨fun path => ?_, fun x f hf => ?_⟩
  · rw [h.tidy.legible.listedFile_root_iff h.inv.replayed, mem_collectDiskPaths]
    constructor
    · rintro ⟨x, n, hn, hfile, rfl⟩
      obtain ⟨f, hf⟩ := h.only x n hn hfile
      exact ⟨x, f, hf, rfl⟩
    · rintro ⟨x, f, hf, rfl⟩
      obtain ⟨n, hn, hfile, -⟩ := h.current x f hf
      exact ⟨x, n, hn, hfile, rfl⟩
  · obtain ⟨n, hn, -, hcid⟩ := h.current x f hf
    rw [existingCid_of_walked h.tidy.legible hn, hcid]

/-- What is listed at a file of the next turn was a file of the last. -/
theorem Mirrors.exists_file (h : d.Mirrors store disk was)
    (hfile : ∀ x f, disk'.HasFile x f → ¬was x) {x : List String} {f' : DiskFile} {n : NodeId}
    (hf' : disk'.HasFile x f') (hn : d.tree.Walked x n) :
    ¬d.tree.IsDir n ∧ ∃ f, disk.HasFile x f := by
  have hne : x ≠ [] := by
    rintro rfl
    exact DiskDir.not_hasFile_nil disk' hf'
  have hnot : ¬d.tree.IsDir n := fun hdir => hfile x f' hf' (h.dirs hne hn hdir)
  exact ⟨hnot, h.only x n hn hnot⟩

theorem Mirrors.orderly (h : d.Mirrors store disk was)
    (hfile : ∀ x f, disk'.HasFile x f → ¬was x) : d.Orderly store disk' := by
  have hp : ∀ {q p}, d.tree.ListedAt q p → p ≠ TRASH := fun hq =>
    DriveTree.ne_trash_of_listedAt h.inv.replayed h.tidy.reserved hq
  refine ⟨h.tidy, h.ahead,
    fun x f n hf hn => (h.exists_file hfile hf (h.tidy.walked_iff.2 hn)).1,
    fun q r f p n hf hq hl => Or.inr ?_, fun q r p c hq hl _ _ hc m hm => h.clear (hp hq) hm hc⟩
  have hc := (h.clear.lists_iff h.inv.replayed (hp hq)).1 hl
  refine (childNamed_eq_some_iff (hp hq)).2 ⟨hc, fun m hm => ?_⟩
  obtain rfl := h.clear (hp hq) hc hm
  exact le_rfl

theorem Mirrors.wins (h : d.Mirrors store disk was) (hlater : Later disk disk')
    (hfile : ∀ x f, disk'.HasFile x f → ¬was x) {x : List String} {f' : DiskFile}
    (hf' : disk'.HasFile x f') : d.Wins store x f' := by
  intro n c hn hc
  obtain ⟨-, f, hf⟩ := h.exists_file hfile hf' hn
  obtain ⟨m, hm, -, hcid⟩ := h.current x f hf
  obtain rfl := h.tidy.legible.walked_unique hm hn
  rw [recordedCid, hc] at hcid
  obtain hcid : c.cid = store.cidOf f.bytes := Option.some_injective _ hcid
  rcases hlater hf hf' with hlt | ⟨hbytes, -⟩
  · exact Or.inr (Or.inl ((h.notNewer hf hn hc).trans_lt hlt))
  · exact Or.inl (hbytes ▸ hcid)

/-- A push of the next turn. -/
theorem Mirrors.push (h : d.Mirrors store disk was) (hs : disk'.Apart) (hplain : disk'.Plain)
    (hlater : Later disk disk') (hfile : ∀ x f, disk'.HasFile x f → ¬was x)
    (hctr : ctr + disk'.size ≤ 16 ^ 8)
    (hpush : d.push store k disk' ctr uploads = some (.ok report, s)) :
    s.drive.Mirrors store disk' (fun x => was x ∨ disk'.HasDir x) := by
  have hready := (h.orderly hfile).ready h.inv
  have hids : d.HasSpareIds store disk' ctr := h.ahead.hasSpareIds hctr
  have hpushed := pushed_of_push hs hplain h.inv hready hids hpush
  have hrun := runs_push hs hplain h.inv hready hids hpush
  refine ⟨hpushed.inv, ahead_of_push hs hplain h.inv hready h.ahead hctr hpush,
    hpushed.tidy h.tidy, ?_, fun x f hf => ?_, hpushed.only, ?_, ?_⟩
  · exact hrun.invariant (fun s => s.drive.tree.Clear) h.clear fun _ _ => clear_op
  · obtain ⟨n, hn, hnfile, hcid⟩ := hpushed.settles x f hf
    exact ⟨n, hn, hnfile, hcid.2 (h.wins hlater hfile hf)⟩
  · refine hrun.invariant (fun s => NotNewer disk' s.drive) (fun x f' n c hf' hn hc => ?_)
      fun _ _ => notNewer_op hs
    obtain ⟨-, f, hf⟩ := h.exists_file hfile hf' hn
    have hle := h.notNewer hf hn hc
    rcases hlater hf hf' with hlt | ⟨-, hle'⟩
    · exact hle.trans hlt.le
    · exact hle.trans hle'
  · exact hrun.invariant (fun s => DirsAt (fun x => was x ∨ disk'.HasDir x) s.drive)
      (fun x n hne hn hdir => Or.inl (h.dirs hne hn hdir)) fun _ _ => dirsAt_op fun _ => Or.inr

theorem Mirrors.mono (h : d.Mirrors store disk was) (hwas : ∀ x, was x → was' x) :
    d.Mirrors store disk was' :=
  { h with dirs := fun x _ hne hn hdir => hwas x (h.dirs hne hn hdir) }

/-- A drive with the same files matches the disk as well. -/
theorem Mirrors.matches_of_sameFiles (h : d'.Mirrors store disk was) (hinv : d.Inv)
    (htidy : d.tree.Tidy) (hsame : SameFiles d d') : d.Matches store disk := by
  obtain ⟨hfiles, hcids⟩ := h.matches
  refine ⟨fun path => ?_, fun x f hf => ?_⟩
  · rw [← hfiles, htidy.legible.listedFile_root_iff hinv.replayed,
      h.tidy.legible.listedFile_root_iff h.inv.replayed]
    simp only [← and_assoc, hsame.walked]
  · obtain ⟨n, hn, hnfile, hcid⟩ := h.current x f hf
    rw [existingCid_of_walked htidy.legible ((hsame.walked x n).1 ⟨hn, hnfile⟩).1, recordedCid,
      ← hsame.record]
    exact hcid

end Drive

open Drive PushStep

variable {store : ObjectStore} {k : ℕ} {name : String} {replica : ReplicaId} {past : List DiskDir}
  {disk : DiskDir} {w w' : WatchState} {saves : Bool} {report : PushReport} {s : PushState}

/-- There was a directory at a turn. -/
def WasDir (past : List DiskDir) (x : List String) : Prop :=
  ∃ D ∈ past, D.HasDir x

theorem wasDir_cons {x : List String} :
    WasDir (disk :: past) x ↔ WasDir past x ∨ disk.HasDir x := by
  simp [WasDir, or_comm]

/-- What holds between two turns : the drive has the files of one turn, and so has the drive that
is saved, with those in memory if the last save went through. -/
structure Watching (store : ObjectStore) (past : List DiskDir) (w : WatchState) : Prop where
  drive : ∃ D ∈ DiskDir.nil :: past, w.drive.Mirrors store D (WasDir past)
  room : w.ctr ≤ w.drive.tree.edges.size
  saved : ∃ d : Drive, w.saved = d.state ∧
    (∃ D ∈ DiskDir.nil :: past, d.Mirrors store D (WasDir past)) ∧
      (w.kept = true → SameFiles d w.drive)

theorem mirrors_init (store : ObjectStore) (name : String) (replica : ReplicaId) :
    (init name replica).Mirrors store .nil (WasDir []) := by
  have hinv := inv_init name replica
  have ho : (init name replica).Orderly store .nil := orderly_init name replica
  have hwalked : ∀ {x n}, (init name replica).tree.Walked x n → x = [] ∧ n = ROOT := by
    intro x n hn
    refine (DriveTree.walked_cases hn).resolve_right ?_
    rintro ⟨q, p, r, -, -, -, hl⟩
    obtain ⟨e, he, -⟩ := hinv.replayed.edge_of_lists hl
    simp [init, DriveTree.new] at he
  refine ⟨hinv, ho.ahead, ho.tidy, fun p b c c' _ hc => ?_, fun x f => False.elim,
    fun x n hn hfile => ?_, fun x f n c => False.elim, fun x n hne hn => ?_⟩
  · obtain ⟨⟨e, he, -⟩, -⟩ := hinv.replayed.mirror.called_iff.1 hc
    simp [init, DriveTree.new] at he
  · obtain ⟨-, rfl⟩ := hwalked hn
    exact absurd (Or.inl rfl) hfile
  · exact absurd (hwalked hn).1 hne

/-- A turn leaves the drive with the files of the disk. -/
theorem mirrors_turn (h : Watching store past w) (hist : DiskHistory (disk :: past))
    (hroom : w.drive.tree.edges.size + disk.size ≤ 16 ^ 8)
    (hpush : w.drive.push store k disk w.ctr w.uploads = some (.ok report, s)) :
    s.drive.Mirrors store disk (WasDir (disk :: past)) ∧ s.ctr ≤ s.drive.tree.edges.size ∧
      (report.changed = 0 ∧ report.removed = 0 → SameFiles w.drive s.drive) := by
  obtain ⟨D, hD, hdrive⟩ := h.drive
  have hs := (hist.sorted disk List.mem_cons_self).apart
  have hplain := hist.plain disk List.mem_cons_self
  have hfile : ∀ x f, disk.HasFile x f → ¬WasDir past x := by
    rintro x f hf ⟨D', hD', hx⟩
    exact (List.pairwise_cons.1 hist.dirs).1 D' hD' x f hf hx
  have hlater : Later D disk := by
    rcases List.mem_cons.1 hD with rfl | hD
    · exact fun x f f' => False.elim
    · exact (List.pairwise_cons.1 hist.later).1 D hD
  have hctr : w.ctr + disk.size ≤ 16 ^ 8 := (Nat.add_le_add_right h.room _).trans hroom
  have hready := (hdrive.orderly hfile).ready hdrive.inv
  have hids : w.drive.HasSpareIds store disk w.ctr := hdrive.ahead.hasSpareIds hctr
  have hrun := runs_push hs hplain hdrive.inv hready hids hpush
  refine ⟨(hdrive.push hs hplain hlater hfile hctr hpush).mono fun x => wasDir_cons.2, ?_, ?_⟩
  · exact hrun.invariant (fun s => s.ctr ≤ s.drive.tree.edges.size) h.room fun _ _ hop hle =>
      (size_op hop hle).1
  · obtain rfl := (push_parts hs hplain hdrive.inv hready hids hpush).1
    exact hrun.invariant
      (fun s => s.report.changed = 0 ∧ s.report.removed = 0 → SameFiles w.drive s.drive)
      (fun _ => .refl _) fun _ _ => sameFiles_op

theorem watching_turn (h : Watching store past w) (hist : DiskHistory (disk :: past))
    (hroom : w.drive.tree.edges.size + disk.size ≤ 16 ^ 8)
    (hturn : w.turn store k saves disk = some (.ok w')) :
    Watching store (disk :: past) w' ∧ w'.drive.Mirrors store disk (WasDir (disk :: past)) := by
  obtain ⟨⟨res, s⟩, hpush, hres⟩ := Option.map_eq_some_iff.1 hturn
  cases res with
  | error e => cases hres
  | ok report =>
    obtain rfl := Except.ok.inj hres
    obtain ⟨hmirrors, hle, hquiet⟩ := mirrors_turn h hist hroom hpush
    obtain ⟨d, hd, ⟨D, hD, hmirror⟩, hsame⟩ := h.saved
    have hold : ∃ D ∈ DiskDir.nil :: disk :: past,
        d.Mirrors store D (WasDir (disk :: past)) := by
      refine ⟨D, ?_, hmirror.mono fun x hx => wasDir_cons.2 (Or.inl hx)⟩
      rw [List.mem_cons, List.mem_cons]
      exact (List.mem_cons.1 hD).imp_right Or.inr
    have hnew : ∃ D ∈ DiskDir.nil :: disk :: past,
        s.drive.Mirrors store D (WasDir (disk :: past)) := ⟨disk, by simp, hmirrors⟩
    dsimp only
    split_ifs with hchange
    · cases saves with
      | true => exact ⟨⟨hnew, hle, s.drive, rfl, hnew, fun _ => .refl _⟩, hmirrors⟩
      | false => exact ⟨⟨hnew, hle, d, hd, hold, fun hk => Bool.noConfusion hk⟩, hmirrors⟩
    · exact ⟨⟨hnew, hle, d, hd, hold, fun hk => (hsame hk).trans (hquiet (by omega))⟩, hmirrors⟩

theorem watching_of_watched (h : Watched store k name replica past w) (hist : DiskHistory past) :
    Watching store past w := by
  induction h with
  | start =>
    have hinit : ∃ D ∈ [DiskDir.nil], (init name replica).Mirrors store D (WasDir []) :=
      ⟨.nil, List.mem_singleton_self _, mirrors_init store name replica⟩
    exact ⟨hinit, Nat.zero_le _, init name replica, rfl, hinit, fun _ => .refl _⟩
  | turn h hroom hturn ih => exact (watching_turn (ih hist.tail) hist hroom hturn).1
  | restart h uploads ih =>
    obtain ⟨d, hd, hmirror, -⟩ := (ih hist).saved
    have hload : Drive.fromState d.state = d := hmirror.choose_spec.2.inv.fromState_eq
    rw [WatchState.restart, hd, hload]
    exact ⟨hmirror, Nat.zero_le _, d, rfl, hmirror, fun _ => .refl _⟩

/-- After a turn the drive lists the files of the disk and no others, with the cids of their
bytes, and so does the drive that is saved, unless the last save that was due failed. -/
theorem watched_matches (h : Watched store k name replica past w) (hist : DiskHistory (disk :: past))
    (hroom : w.drive.tree.edges.size + disk.size ≤ 16 ^ 8)
    (hturn : w.turn store k saves disk = some (.ok w')) :
    w'.drive.Matches store disk ∧
      (w'.kept = true → (Drive.fromState w'.saved).Matches store disk) := by
  obtain ⟨hw, hmirrors⟩ := watching_turn (watching_of_watched h hist.tail) hist hroom hturn
  refine ⟨hmirrors.matches, fun hk => ?_⟩
  obtain ⟨d, hd, ⟨D, -, hmirror⟩, hsame⟩ := hw.saved
  rw [hd, hmirror.inv.fromState_eq]
  exact hmirrors.matches_of_sameFiles hmirror.inv hmirror.tidy (hsame hk)

/-- A file that is pushed, and pushed again by a new process after an edit. -/
theorem watched_matches_edit : ∃ w₁ w₂ : WatchState,
    (⟨.init "d" "a", 0, [], (Drive.init "d" "a").state, true⟩ : WatchState).turn spellStore 2 true
        (.file "a" ⟨[65], 0o644, 7⟩ .nil) = some (.ok w₁) ∧
      (w₁.restart []).turn spellStore 2 true (.file "a" ⟨[66], 0o644, 8⟩ .nil) = some (.ok w₂) ∧
      w₂.kept = true ∧
      w₂.drive.Matches spellStore (.file "a" ⟨[66], 0o644, 8⟩ .nil) ∧
      (Drive.fromState w₂.saved).Matches spellStore (.file "a" ⟨[66], 0o644, 8⟩ .nil) := by
  let old : DiskDir := .file "a" ⟨[65], 0o644, 7⟩ .nil
  let new : DiskDir := .file "a" ⟨[66], 0o644, 8⟩ .nil
  have hok : ((⟨.init "d" "a", 0, [], (Drive.init "d" "a").state, true⟩ : WatchState).turn
      spellStore 2 true old).any (fun r => r.toOption.any fun w₁ =>
        decide ((w₁.restart []).drive.tree.edges.size + new.size ≤ 16 ^ 8) &&
          ((w₁.restart []).turn spellStore 2 true new).any fun r =>
            r.toOption.any fun w₂ => w₂.kept) = true := by
    decide +kernel
  obtain ⟨r₁, h₁, hok⟩ := (Option.any_eq_true _ _).1 hok
  obtain ⟨w₁, hr₁, hok⟩ := (Option.any_eq_true _ _).1 hok
  obtain ⟨hroom, hok⟩ := Bool.and_eq_true_iff.1 hok
  obtain ⟨r₂, h₂, hok⟩ := (Option.any_eq_true _ _).1 hok
  obtain ⟨w₂, hr₂, hkept⟩ := (Option.any_eq_true _ _).1 hok
  cases r₁ with
  | error e => cases hr₁
  | ok w =>
    obtain rfl := Option.some_injective _ hr₁
    cases r₂ with
    | error e => cases hr₂
    | ok w' =>
      obtain rfl := Option.some_injective _ hr₂
      have hplain : ∀ D ∈ [new, old], D.Sorted ∧ D.Plain := by
        simp [new, old, DiskDir.Sorted, DiskDir.Plain, DiskDir.names, DriveTree.IsComponent]
      have hlater : Later old new := by
        rintro x f f' hf hf'
        obtain ⟨-, rfl⟩ := hf.resolve_right id
        obtain ⟨-, rfl⟩ := hf'.resolve_right id
        exact Or.inl (by decide)
      have hist : DiskHistory [new, old] := by
        refine ⟨fun D hD => (hplain D hD).1, fun D hD => (hplain D hD).2, ?_, ?_⟩
        · simpa using hlater
        · simp [new, old, DiskDir.HasDir]
      have hstart : Watched spellStore 2 "d" "a" [] _ := .start
      have hrun := (hstart.turn (by decide +kernel) h₁).restart []
      obtain ⟨hdrive, hsaved⟩ := watched_matches hrun hist (of_decide_eq_true hroom) h₂
      exact ⟨w, w', h₁, h₂, hkept, hdrive, hsaved hkept⟩

end CeDrive
