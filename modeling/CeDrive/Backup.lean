import CeDrive.Commands
import CeDrive.PushMatches
import CeDrive.RoundTrip
import CeDrive.Walks

/-!
# Push, then materialize

A directory of the disk is pushed (`push` of `mount/src/materialize.rs`), and the drive is
materialized into an empty directory. If every save of the push wins and the drive had no file
where the disk has a directory, the bytes of every file and every directory come back, once the
walk and its calls succeed (`Drive.restores_of_materialize`).
-/

open Forest

namespace CeDrive

/-! ## What is materialized -/

/-- The path below another, by plain names. -/
def OsPath.below (out : OsPath) (q : List String) : OsPath :=
  { out with comps := out.comps ++ q }

/-- Where an entry of a walk is materialized. -/
def Placed.ofWalk (out : OsPath) (x : List String × DirEntry) : Placed :=
  ⟨pathBelow "/" x.1, out.below x.1, x.2⟩

namespace Drive

variable {d : Drive} {out : OsPath} {q : List String} {n : NodeId} {k : ℕ}

theorem Inv.plain_of_listedAt (hinv : d.Inv) (hp : d.PlainLog) (h : d.tree.Tidy)
    (hq : d.tree.ListedAt q n) : ∀ r ∈ q, Plain r := by
  induction hq with
  | root => simp
  | @child q p r c hq hl ih =>
    have hne : p ≠ LIMBO := by
      rintro rfl
      have hlimbo := DriveTree.not_limbo_of_listedAt hinv.replayed h.reserved hq
      rw [← Bool.not_eq_true, DriveTree.isLimbo, hinv.replayed.grounded.isAncestor_iff] at hlimbo
      exact hlimbo (Reaches.refl _)
    intro b hb
    rcases List.mem_append.1 hb with hb | hb
    · exact ih b hb
    · exact List.mem_singleton.1 hb ▸ hinv.plain_of_lists hp hne hl

variable (hinv : d.Inv) (hp : d.PlainLog) (h : d.tree.Tidy)
include hinv hp h

/-- The entries to materialize are those that a walk of the listings comes to. -/
theorem placed_eq (out : OsPath) (hq : d.tree.ListedAt q n) (hdir : d.tree.IsDir n) :
    d.placed k (pathBelow "/" q) (out.below q) =
      (d.walk k q).map (List.map (Placed.ofWalk out)) := by
  induction k generalizing q n with
  | zero => rfl
  | succ k ih =>
    obtain ⟨entries, hls, -, hentry, -⟩ := DriveTree.Tidy.ls_eq hinv.replayed h hq hdir
    rw [placed, walk, hls]
    refine collect_eq_map fun e he => ?_
    obtain ⟨hlisted, hkind, -⟩ := hentry e he
    have hname := hinv.plain_of_listedAt hp h hlisted e.name (by simp)
    have hjoin : (out.below q).join e.name = out.below (q ++ [e.name]) := by
      rw [OsPath.join, OsPath.ofString_of_plain hname]
      simp [OsPath.below]
    have hpath : joinPath (pathBelow "/" q) e.name = pathBelow "/" (q ++ [e.name]) := by simp
    rw [placedEntry, hjoin, hpath]
    dsimp only
    split_ifs with hd
    · rw [ih hlisted (hkind.1 hd), Option.map_map, Option.map_map]
      rfl
    · rfl

/-- What a walk of the whole drive places. -/
theorem mem_placed_iff {l : List Placed} (hl : d.placed k "/" out = some l) {x : Placed} :
    x ∈ l ↔ ∃ q n, q ≠ [] ∧ d.tree.ListedAt q n ∧ x = .ofWalk out (q, d.entryAt q n) := by
  have hroot := placed_eq hinv hp h out (k := k) (q := []) .root (Or.inl rfl)
  have hout : out.below [] = out := by simp [OsPath.below]
  rw [pathBelow_nil, hout, hl] at hroot
  obtain ⟨w, hw, rfl⟩ := Option.map_eq_some_iff.1 hroot.symm
  simp only [List.mem_map, DriveTree.Tidy.mem_walk_iff hinv.replayed h .root (Or.inl rfl) hw,
    List.nil_append]
  constructor
  · rintro ⟨_, ⟨q, n, hne, hq, rfl⟩, rfl⟩
    exact ⟨q, n, hne, hq, rfl⟩
  · rintro ⟨q, n, hne, hq, rfl⟩
    exact ⟨_, ⟨q, n, hne, hq, rfl⟩, rfl⟩

/-- The cid of what is written to a place is that of the file listed there. -/
theorem lastCid_eq_some {cidOf : List UInt8 → String} {cwd : List String} {l : List Placed}
    (hl : d.placed k "/" out = some l) {cid : String} :
    lastCid cidOf cwd (out.location cwd ++ q) l = some cid ↔ ∃ n c, d.tree.ListedAt q n ∧
      ¬d.tree.IsDir n ∧ d.content[n]? = some c ∧
        (if c.cid = "" then cidOf [] else c.cid) = cid := by
  have hmem {x : Placed} := mem_placed_iff hinv hp h hl (x := x)
  have hloc : ∀ {q n}, d.tree.ListedAt q n →
      (out.below q).location cwd = out.location cwd ++ q := fun hq =>
    location_append_of_plain cwd out (hinv.plain_of_listedAt hp h hq)
  have hfile : ∀ {q n}, q ≠ [] → d.tree.ListedAt q n →
      ((d.entryAt q n).isDir = false ↔ ¬d.tree.IsDir n) := fun hne hq => by
    rw [← DriveTree.Tidy.isDir_entryAt_iff hinv.replayed h hne hq, Bool.not_eq_true]
  have hself : ∀ {cid}, lastCid cidOf cwd (out.location cwd ++ q) l = some cid → ∃ n c,
      d.tree.ListedAt q n ∧ ¬d.tree.IsDir n ∧ d.content[n]? = some c ∧
        (if c.cid = "" then cidOf [] else c.cid) = cid := by
    intro cid hlast
    obtain ⟨x, hx, hcid⟩ := exists_of_lastCid hlast
    obtain ⟨q', n, hne, hq, rfl⟩ := hmem.1 hx
    obtain ⟨hxfile, c, hc, hxloc, heq⟩ := Placed.cidAt_eq_some.1 hcid
    obtain rfl := List.append_cancel_left ((hloc hq).symm.trans hxloc)
    exact ⟨n, c, hq, (hfile hne hq).1 hxfile, hc, heq⟩
  refine ⟨hself, ?_⟩
  rintro ⟨n, c, hq, hqfile, hc, rfl⟩
  have hne : q ≠ [] := by
    rintro rfl
    exact hqfile (Or.inl (DriveTree.listedAt_nil.1 hq))
  have hcid : ((Placed.ofWalk out (q, d.entryAt q n)).cidAt cidOf cwd
      (out.location cwd ++ q)).isSome :=
    Option.isSome_iff_exists.2 ⟨_, Placed.cidAt_eq_some.2
      ⟨(hfile hne hq).2 hqfile, c, hc, hloc hq, rfl⟩⟩
  obtain ⟨cid, hlast⟩ :=
    Option.isSome_iff_exists.1 (isSome_lastCid (hmem.2 ⟨q, n, hne, hq, rfl⟩) hcid)
  obtain ⟨m, c', hm, -, hc', heq⟩ := hself hlast
  obtain rfl := h.listedAt_unique hm hq
  obtain rfl := Option.some_injective _ (hc'.symm.trans hc)
  rw [hlast, heq]

/-- A directory stands where one is listed. -/
theorem dir_of_placed {host : Host} {cwd : List String} {l : List Placed} {calls : List DiskCall}
    (hl : d.placed k "/" out = some l) (hmade : Made host l calls) (hne : q ≠ [])
    (hq : d.tree.ListedAt q n) (hdir : d.tree.IsDir n) :
    ∃ c ∈ calls, c.Passes cwd (out.location cwd ++ q) := by
  refine hmade.passes_iff.2 ⟨_, (mem_placed_iff hinv hp h hl).2 ⟨_, n, hne, hq, rfl⟩,
    (DriveTree.Tidy.isDir_entryAt_iff hinv.replayed h hne hq).2 hdir,
    OsPath.mem_stations.2 ⟨out.comps ++ q, ?_, List.prefix_rfl, ?_⟩⟩
  · simp [hne]
  · exact location_append_of_plain cwd out (hinv.plain_of_listedAt hp h hq)

end Drive

/-! ## A backup comes back -/

namespace Drive

variable {d d' : Drive} {store : ObjectStore} {disk disk' : DiskDir} {ctr k k' : ℕ}
  {uploads : List (List UInt8)} {report : PushReport} {report' : MaterializeReport}
  {s : PushState} {host : Host} {w : Walk} {stamp : List DiskCall → ℕ × ℕ} {q : List String}
  {n : NodeId} {f : DiskFile} {c : FileContent}

/-- The files of `disk` with their bytes and no others, and the directories of `disk`. -/
structure Restores (disk disk' : DiskDir) : Prop where
  files : ∀ q, disk'.bytesAt q = disk.bytesAt q
  dirs : ∀ q, disk.look q = some none → disk'.look q = some none

theorem Pushed.cid_eq (h : d.Pushed d' store disk) (hf : disk.HasFile q f)
    (hwins : d.Wins store q f) (hq : d'.tree.Walked q n) (hc : d'.content[n]? = some c) :
    c.cid = store.cidOf f.bytes := by
  obtain ⟨m, hm, -, hsettle⟩ := h.settles q f hf
  obtain rfl := h.ready.legible.walked_unique hm hq
  have hcid := hsettle.2 hwins
  rw [recordedCid, hc] at hcid
  exact Option.some_injective _ hcid

/-- What a push that wins every save leaves in the drive comes back. -/
theorem restores_of_materialize (hs : disk.Sorted) (hplain : disk.Plain) (hd : d.Reachable)
    (hp : d.PlainLog) (ho : d.Orderly store disk) (hctr : ctr + disk.size ≤ 16 ^ 8)
    (hwins : ∀ x f, disk.HasFile x f → d.Wins store x f)
    (honly : ∀ y, disk.HasDir y → ∀ n, d.tree.ListedAt y n → d.tree.IsDir n)
    (hcid : Function.Injective store.cidOf) (hempty : ∀ b, store.cidOf b = "" → b = [])
    (hpush : d.push store k disk ctr uploads = some (.ok report, s))
    (hhost : Answers host store.cidOf s.drive) (cwd : List String) (out : OsPath)
    (hm : s.drive.materialize host k' out = (some (.ok report'), w))
    (hdisk : afterCalls cwd (out.location cwd) stamp w.calls = some disk') :
    Restores disk disk' := by
  have hpushed := pushed_of_push hs.apart hplain hd.inv (ho.ready hd.inv) (ho.ahead.hasSpareIds hctr) hpush
  have htidy := hpushed.tidy ho.tidy
  have hp' := (leadsTo_push hpush).plainLog hd.inv hp
  obtain ⟨l, calls, hl, hmade, hcalls⟩ := calls_materialize hm
  refine ⟨fun q => ?_, fun q hq => ?_⟩
  · have hbytes : (disk'.bytesAt q).map store.cidOf =
        lastCid store.cidOf cwd (out.location cwd ++ q) l := by
      rw [look_afterCalls_file hdisk, hcalls,
        ← hmade.lastWrite hhost fun x hx => content_of_mem_placed hl hx, lastWrite]
      simp [DiskCall.bytesAt]
    have hold : ∀ cid, (disk.bytesAt q).map store.cidOf = some cid ↔
        ∃ f, disk.HasFile q f ∧ store.cidOf f.bytes = cid := by
      simp [DiskDir.bytesAt, hs.apart.hasFile_iff, Option.join_eq_some_iff]
    have hstored : ∀ f : DiskFile,
        (if store.cidOf f.bytes = "" then store.cidOf [] else store.cidOf f.bytes) =
          store.cidOf f.bytes := by
      intro f
      split_ifs with hnil
      · rw [hempty f.bytes hnil]
      · rfl
    refine Option.map_injective hcid (hbytes.trans (Option.ext fun cid => ?_))
    rw [lastCid_eq_some hpushed.inv hp' htidy hl, hold]
    constructor
    · rintro ⟨n, c, hn, hfile, hc, rfl⟩
      have hn := htidy.walked_iff.2 hn
      obtain ⟨f, hf⟩ := hpushed.only q n hn hfile
      refine ⟨f, hf, ?_⟩
      rw [hpushed.cid_eq hf (hwins q f hf) hn hc, hstored]
    · rintro ⟨f, hf, rfl⟩
      obtain ⟨n, hn, hfile, hsettle⟩ := hpushed.settles q f hf
      obtain ⟨c, hc, -⟩ := Option.map_eq_some_iff.1 (hsettle.2 (hwins q f hf))
      refine ⟨n, c, hn.listedAt, hfile, hc, ?_⟩
      rw [hpushed.cid_eq hf (hwins q f hf) hn hc, hstored]
  · cases q with
    | nil => rfl
    | cons x q =>
      have hx := hs.apart.hasDir_iff.2 hq
      obtain ⟨n, hn, hdir⟩ := hpushed.opens _ hx fun n hn => honly _ hx n hn.listedAt
      obtain ⟨c, hc, hpasses⟩ : ∃ c ∈ calls, c.Passes cwd (out.location cwd ++ x :: q) :=
        dir_of_placed hpushed.inv hp' htidy hl hmade (List.cons_ne_nil x q) hn.listedAt hdir
      rw [look_afterCalls_dir hdisk (List.cons_ne_nil x q), hcalls]
      exact ⟨c, List.mem_cons_of_mem _ hc, hpasses⟩

end Drive

end CeDrive
