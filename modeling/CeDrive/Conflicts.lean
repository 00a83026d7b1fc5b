import CeDrive.Received
import CeDrive.Versions

/-!
# Concurrent edits

Two saves of one file at one time are a concurrent edit. `record` flags the version that loses,
and `content_conflicts` lists the flagged versions of every file that has a path. A flag stays
when a later save wins, and a save that repeats the last version is not flagged. So the flags
are the cids saved at the current time, apart from the current one, as long as every save
`Surfaces` (`contentConflicts_iff`).
-/

open Std (ExtTreeMap)
open SortedLog

namespace CeDrive

open Browser (Save)
open LastWriter

namespace FileContent

/-- The versions that lost a concurrent edit, newest first. -/
def conflictVersions (c : FileContent) : List Version :=
  (c.versions.filter Version.conflict).insertionSort fun a b =>
    b.setAtMs < a.setAtMs ∨ b.setAtMs = a.setAtMs ∧ b.cid ≤ a.cid

def hasConflict (c : FileContent) : Bool :=
  c.versions.any Version.conflict

/-- A version of the cid is flagged. -/
def Flags (c : FileContent) (x : String) : Prop :=
  ∃ v ∈ c.versions, v.conflict = true ∧ v.cid = x

variable {c : FileContent} {v : Version} {cid x : String} {mtimeMs : ℕ}

theorem hasConflict_iff : c.hasConflict = true ↔ ∃ x, c.Flags x := by
  simp [hasConflict, Flags]

theorem mem_conflictVersions : x ∈ c.conflictVersions.map Version.cid ↔ c.Flags x := by
  simp [conflictVersions, Flags, and_assoc]

theorem flags_pushVersion (hroom : c.versions.length < MAX_VERSIONS) : (c.pushVersion v).Flags x ↔
    c.Flags x ∨ v.conflict = true ∧ v.cid = x ∧ ∀ l, c.versions.getLast? = some l → l.cid ≠ x := by
  have hlast : ((c.versions.getLast?).any fun l => decide (l.cid = v.cid)) = true ↔
      ∃ l, c.versions.getLast? = some l ∧ l.cid = v.cid := by
    simp [Option.any_eq_true]
  rw [Flags, versions_pushVersion_eq, Capped.push_of_lt hroom, Flags]
  by_cases h : ((c.versions.getLast?).any fun l => decide (l.cid = v.cid)) = true
  · obtain ⟨l, hl, hcid⟩ := hlast.1 h
    rw [if_pos h]
    exact (or_iff_left fun ⟨_, hx, hne⟩ => hne l hl (hcid.trans hx)).symm
  · rw [if_neg h]
    have hne : v.cid = x → ∀ l, c.versions.getLast? = some l → l.cid ≠ x := fun hx l hl hcid =>
      h (hlast.2 ⟨l, hl, hcid.trans hx.symm⟩)
    simp only [List.mem_append, List.mem_singleton, or_and_right, exists_or, exists_eq_left]
    exact or_congr_right ⟨fun hv => ⟨hv.1, hv.2, hne hv.2⟩, fun hv => ⟨hv.1, hv.2.1⟩⟩

/-- A save that loses is flagged if it ties, and is not a repeat of the last version. -/
theorem flags_record_of_loses (size : ℕ) (hcid : cid ≠ c.cid)
    (h : ¬(mtimeMs > c.mtimeMs ∨ mtimeMs = c.mtimeMs ∧ cid > c.cid))
    (hroom : c.versions.length < MAX_VERSIONS) : (c.record cid size mtimeMs).2.Flags x ↔
      c.Flags x ∨ mtimeMs = c.mtimeMs ∧ cid = x ∧
        ∀ l, c.versions.getLast? = some l → l.cid ≠ x := by
  have hties : decide (mtimeMs ≥ c.mtimeMs) = true ↔ mtimeMs = c.mtimeMs := by
    rw [decide_eq_true_iff]
    exact ⟨fun hge => le_antisymm (not_lt.1 fun hlt => h (Or.inl hlt)) hge, fun heq => heq.ge⟩
  rw [record_of_loses size hcid h, flags_pushVersion hroom, hties]

/-- A save that wins flags the one it displaces if they tie. -/
theorem flags_record_of_wins (size : ℕ) (hcid : cid ≠ c.cid)
    (h : mtimeMs > c.mtimeMs ∨ mtimeMs = c.mtimeMs ∧ cid > c.cid)
    (hroom : c.versions.length < MAX_VERSIONS)
    (hlast : ∀ l, c.versions.getLast? = some l → l.cid ≠ c.cid) :
    (c.record cid size mtimeMs).2.Flags x ↔ c.Flags x ∨ mtimeMs = c.mtimeMs ∧ c.cid = x := by
  have hpush := flags_pushVersion (x := x) (v := ⟨c.mtimeMs, c.cid, c.size, decide (mtimeMs = c.mtimeMs)⟩)
    hroom
  rw [decide_eq_true_iff] at hpush
  rw [record_of_wins size hcid h]
  refine Iff.trans hpush (or_congr_right ⟨fun hv => ⟨hv.1, hv.2.1⟩, ?_⟩)
  rintro ⟨hts, rfl⟩
  exact ⟨hts, rfl, hlast⟩

end FileContent

/-! ## The saves at the current time -/

/-- The cids saved at a time, apart from one of them. -/
def Tied (saves : List Save) (mtimeMs : ℕ) (cid x : String) : Prop :=
  x ≠ cid ∧ ∃ s ∈ saves, s.mtimeMs = mtimeMs ∧ s.cid = x

/-- What a save `s` must meet, after the saves `pre` that left the record `c`, for the flags to
remain the cids saved at the current time. -/
structure Surfaces (pre : List Save) (c : FileContent) (s : Save) : Prop where
  /-- A save that loses a tie is no repeat of the last version, or was saved then before. -/
  loses : s.mtimeMs = c.mtimeMs → s.cid < c.cid →
    (∃ l, c.versions.getLast? = some l ∧ l.cid = s.cid) → Tied pre c.mtimeMs c.cid s.cid
  /-- A save that wins a tie was not saved then before. -/
  wins : s.mtimeMs = c.mtimeMs → c.cid < s.cid → ¬Tied pre c.mtimeMs c.cid s.cid
  /-- When a newer save wins, the other cids saved at the old time are those saved at the new. -/
  newer : c.mtimeMs < s.mtimeMs → s.cid ≠ c.cid →
    ∀ x, Tied pre c.mtimeMs c.cid x ↔ Tied pre s.mtimeMs s.cid x

variable {id : NodeId} {saves pre : List Save} {s : Save} {c c' : FileContent} {cid x : String}
  {mtimeMs : ℕ}

theorem tied_append_singleton : Tied (pre ++ [s]) mtimeMs cid x ↔
    Tied pre mtimeMs cid x ∨ x ≠ cid ∧ s.mtimeMs = mtimeMs ∧ s.cid = x := by
  simp only [Tied, List.mem_append, List.mem_singleton, or_and_right, exists_or, exists_eq_left,
    and_or_left]

/-- The current pair was saved. -/
theorem exists_save_of_current (hc : savedRecord id saves = some c) :
    ∃ s ∈ saves, s.mtimeMs = c.mtimeMs ∧ s.cid = c.cid := by
  have hread : Register.read cidOf (saves.map Browser.Save.stamp) = some c.stamp := by
    rw [← map_stamp_saved id, ← savedRecord, hc]
    rfl
  obtain ⟨s, hs, hstamp⟩ := List.mem_map.1 (Register.mem_of_read hread)
  obtain ⟨hmtime, hcid⟩ := Prod.mk.inj (toLex.injective hstamp)
  exact ⟨s, hs, hmtime, hcid⟩

/-- There are fewer versions than saves, and the last of them is not current. -/
theorem versions_savedRecord (hc : savedRecord id saves = some c) :
    c.versions.length < saves.length ∧ ∀ l, c.versions.getLast? = some l → l.cid ≠ c.cid := by
  induction saves using List.reverseRecOn generalizing c with
  | nil =>
    rw [savedRecord_nil] at hc
    cases hc
  | append_singleton saves s ih =>
    rw [List.length_append, List.length_singleton]
    cases hc₀ : savedRecord id saves with
    | none =>
      rw [savedRecord_append_singleton, hc₀] at hc
      obtain rfl := Option.some_injective _ hc
      exact ⟨Nat.succ_pos _, fun l hl => nomatch hl⟩
    | some c₀ =>
      obtain ⟨hlen, hlast⟩ := ih hc₀
      have hpush : ∀ v : Version, (({ c₀ with mode := s.mode } : FileContent).pushVersion v).versions.length
          < saves.length + 1 ∧ ∀ l, (({ c₀ with mode := s.mode } : FileContent).pushVersion
            v).versions.getLast? = some l → l.cid = v.cid := by
        intro v
        rw [FileContent.versions_pushVersion_eq]
        refine ⟨Nat.lt_succ_of_le (Capped.length_push_le.trans hlen), fun l hl => ?_⟩
        obtain ⟨y, hy, hcid⟩ := Capped.getLast?_push Version.cid c₀.versions v
          (show 0 < MAX_VERSIONS by decide)
        exact Option.some_injective _ (hy.symm.trans hl) ▸ hcid
      rw [savedRecord_succ hc₀] at hc
      obtain rfl := Option.some_injective _ hc
      by_cases hcid : s.cid = c₀.cid
      · rw [FileContent.record, if_pos hcid]
        exact ⟨hlen.trans (Nat.lt_succ_self _), hlast⟩
      by_cases hwins : s.mtimeMs > c₀.mtimeMs ∨ s.mtimeMs = c₀.mtimeMs ∧ s.cid > c₀.cid
      · rw [FileContent.record_of_wins (c := { c₀ with mode := s.mode }) s.size hcid hwins]
        exact ⟨(hpush _).1, fun l hl => ((hpush _).2 l hl).symm ▸ Ne.symm hcid⟩
      · rw [FileContent.record_of_loses (c := { c₀ with mode := s.mode }) s.size hcid hwins]
        refine ⟨(hpush _).1, fun l hl => ?_⟩
        rw [FileContent.cid_pushVersion]
        exact ((hpush _).2 l hl).symm ▸ hcid

section

variable (hroom : c.versions.length < MAX_VERSIONS) (hcid : s.cid ≠ c.cid)
  (hflags : ∀ x, c.Flags x ↔ Tied pre c.mtimeMs c.cid x)
  (hc' : c' = (({ c with mode := s.mode } : FileContent).record s.cid s.size s.mtimeMs).2)
include hroom hcid hflags hc'

/-- A save that loses keeps the flags the ties exactly if it surfaces. -/
theorem flags_of_loses (hloses : ¬(s.mtimeMs > c.mtimeMs ∨ s.mtimeMs = c.mtimeMs ∧ s.cid > c.cid)) :
    (∀ x, c'.Flags x ↔ Tied (pre ++ [s]) c'.mtimeMs c'.cid x) ↔ Surfaces pre c s := by
  have hflags' : ∀ x, c'.Flags x ↔ Tied pre c.mtimeMs c.cid x ∨ s.mtimeMs = c.mtimeMs ∧ s.cid = x ∧
      ∀ l, c.versions.getLast? = some l → l.cid ≠ x := by
    intro x
    rw [hc', ← hflags x]
    exact FileContent.flags_record_of_loses (c := { c with mode := s.mode }) s.size hcid hloses hroom
  have hcur : c'.cid = c.cid ∧ c'.mtimeMs = c.mtimeMs := by
    rw [hc', FileContent.record_of_loses (c := { c with mode := s.mode }) s.size hcid hloses,
      FileContent.cid_pushVersion, mtimeMs_pushVersion]
    exact ⟨rfl, rfl⟩
  simp only [hcur.1, hcur.2, hflags', tied_append_singleton]
  constructor
  · intro h
    refine ⟨fun hties _ ⟨l, hl, hls⟩ => ?_, fun hties hgt => ?_, fun hlt => ?_⟩
    · rcases (h s.cid).2 (Or.inr ⟨hcid, hties, rfl⟩) with ht | ⟨-, -, hne⟩
      · exact ht
      · exact absurd hls (hne l hl)
    · exact absurd (Or.inr ⟨hties, hgt⟩) hloses
    · exact absurd (Or.inl hlt) hloses
  · intro h x
    constructor
    · rintro (hx | ⟨hties, rfl, -⟩)
      · exact Or.inl hx
      · exact Or.inr ⟨hcid, hties, rfl⟩
    · rintro (hx | ⟨-, hties, rfl⟩)
      · exact Or.inl hx
      · have hlt : s.cid < c.cid :=
          lt_of_le_of_ne (not_lt.1 fun hgt => hloses (Or.inr ⟨hties, hgt⟩)) hcid
        by_cases hrepeat : ∃ l, c.versions.getLast? = some l ∧ l.cid = s.cid
        · exact Or.inl (h.loses hties hlt hrepeat)
        · exact Or.inr ⟨hties, rfl, fun l hl hls => hrepeat ⟨l, hl, hls⟩⟩

/-- A save that wins keeps the flags the ties exactly if it surfaces. -/
theorem flags_of_wins (hc : savedRecord id pre = some c)
    (hlast : ∀ l, c.versions.getLast? = some l → l.cid ≠ c.cid)
    (hwins : s.mtimeMs > c.mtimeMs ∨ s.mtimeMs = c.mtimeMs ∧ s.cid > c.cid) :
    (∀ x, c'.Flags x ↔ Tied (pre ++ [s]) c'.mtimeMs c'.cid x) ↔ Surfaces pre c s := by
  have hflags' : ∀ x, c'.Flags x ↔ Tied pre c.mtimeMs c.cid x ∨ s.mtimeMs = c.mtimeMs ∧ c.cid = x := by
    intro x
    rw [hc', ← hflags x]
    exact FileContent.flags_record_of_wins (c := { c with mode := s.mode }) s.size hcid hwins hroom hlast
  have htied : ∀ x, Tied (pre ++ [s]) s.mtimeMs s.cid x ↔ Tied pre s.mtimeMs s.cid x := by
    intro x
    rw [tied_append_singleton]
    exact or_iff_left fun h => h.1 h.2.2.symm
  have hcur : c'.cid = s.cid ∧ c'.mtimeMs = s.mtimeMs := by
    rw [hc', FileContent.record_of_wins (c := { c with mode := s.mode }) s.size hcid hwins]
    exact ⟨rfl, rfl⟩
  simp only [hcur.1, hcur.2, hflags', htied]
  rcases hwins with hlt | ⟨hties, hgt⟩
  · have hold : ∀ x, (Tied pre c.mtimeMs c.cid x ∨ s.mtimeMs = c.mtimeMs ∧ c.cid = x) ↔
        Tied pre c.mtimeMs c.cid x := fun x => or_iff_left fun h => hlt.ne' h.1
    simp only [hold]
    refine ⟨fun h => ⟨fun heq => ?_, fun heq => ?_, fun _ _ => h⟩, fun h => h.newer hlt hcid⟩
    · exact absurd heq hlt.ne'
    · exact absurd heq hlt.ne'
  · -- the current cid was saved at this time
    have hsaved : ∀ x, Tied pre s.mtimeMs s.cid x ↔
        x ≠ s.cid ∧ (Tied pre c.mtimeMs c.cid x ∨ c.cid = x) := by
      intro x
      rw [Tied, Tied, hties]
      refine and_congr_right fun _ => ⟨fun h => ?_, ?_⟩
      · by_cases hx : c.cid = x
        · exact Or.inr hx
        · exact Or.inl ⟨Ne.symm hx, h⟩
      · rintro (h | rfl)
        · exact h.2
        · exact exists_save_of_current hc
    simp only [hsaved]
    simp only [hties, true_and]
    constructor
    · intro h
      refine ⟨fun _ hlt => ?_, fun _ _ hs => ?_, fun hlt => ?_⟩
      · exact absurd hlt (not_lt_of_gt hgt)
      · exact ((h s.cid).1 (Or.inl hs)).1 rfl
      · exact absurd hties hlt.ne'
    · intro h x
      refine ⟨fun hx => ⟨?_, hx⟩, fun hx => hx.2⟩
      rintro rfl
      exact hx.elim (h.wins hties hgt) fun heq => hcid heq.symm

end

/-- If the flags are the ties before a save, they are so after it exactly if it surfaces. -/
theorem flags_step (hc : savedRecord id pre = some c) (hlen : pre.length < MAX_VERSIONS)
    (hc' : savedRecord id (pre ++ [s]) = some c')
    (hflags : ∀ x, c.Flags x ↔ Tied pre c.mtimeMs c.cid x) :
    (∀ x, c'.Flags x ↔ Tied (pre ++ [s]) c'.mtimeMs c'.cid x) ↔ Surfaces pre c s := by
  obtain ⟨hroom, hlast⟩ := versions_savedRecord hc
  rw [savedRecord_succ hc] at hc'
  obtain rfl := Option.some_injective _ hc'
  by_cases hcid : s.cid = c.cid
  · -- a save of the current cid changes the mode only
    rw [FileContent.record, if_pos hcid]
    refine iff_of_true (fun x => ?_) ⟨fun _ hlt => ?_, fun _ hlt => ?_, fun _ hne => ?_⟩
    · rw [tied_append_singleton]
      exact (hflags x).trans (or_iff_left fun h => h.1 (h.2.2 ▸ hcid)).symm
    · exact absurd hcid hlt.ne
    · exact absurd hcid hlt.ne'
    · exact absurd hcid hne
  · by_cases hwins : s.mtimeMs > c.mtimeMs ∨ s.mtimeMs = c.mtimeMs ∧ s.cid > c.cid
    · exact flags_of_wins (hroom.trans hlen) hcid hflags rfl hc hlast hwins
    · exact flags_of_loses (hroom.trans hlen) hcid hflags rfl hwins

/-! ## The listing of conflicts -/

/-- A file with an unresolved concurrent edit. -/
structure ContentConflict where
  nodeId : NodeId
  path : String
  currentCid : String
  /-- The cids that lost, newest first. -/
  conflictCids : List String

namespace Drive

variable {d : Drive} {n : NodeId} {path : String}

/-- The files with a flagged version that have a path, by path. -/
def contentConflicts (d : Drive) : List ContentConflict :=
  (d.content.toList.filterMap fun e =>
    if e.2.hasConflict then
      (d.tree.path e.1).map fun path =>
        ⟨e.1, path, e.2.cid, e.2.conflictVersions.map Version.cid⟩
    else none).insertionSort fun a b => a.path ≤ b.path

theorem mem_contentConflicts {e : ContentConflict} : e ∈ d.contentConflicts ↔
    ∃ c path, d.content[e.nodeId]? = some c ∧ c.hasConflict = true ∧
      d.tree.path e.nodeId = some path ∧
        e = ⟨e.nodeId, path, c.cid, c.conflictVersions.map Version.cid⟩ := by
  rw [contentConflicts, List.mem_insertionSort, List.mem_filterMap]
  constructor
  · rintro ⟨⟨n, c⟩, hmem, he⟩
    rw [Option.ite_none_right_eq_some, Option.map_eq_some_iff] at he
    obtain ⟨hconf, path, hpath, rfl⟩ := he
    exact ⟨c, path, ExtTreeMap.mem_toList_iff_getElem?_eq_some.1 hmem, hconf, hpath, rfl⟩
  · rintro ⟨c, path, hc, hconf, hpath, he⟩
    refine ⟨(e.nodeId, c), ExtTreeMap.mem_toList_iff_getElem?_eq_some.2 hc, ?_⟩
    rw [if_pos hconf, hpath, he]
    rfl

/-- The file is listed if some cid ties, and then with the cids that tie. -/
structure Surfaced (d : Drive) (id : NodeId) (ties : String → Prop) : Prop where
  listed : (∃ e ∈ d.contentConflicts, e.nodeId = id) ↔ ∃ x, ties x
  cids : ∀ e ∈ d.contentConflicts, e.nodeId = id → ∀ x, x ∈ e.conflictCids ↔ ties x

theorem surfaced_iff {ties : String → Prop} (hc : d.content[id]? = some c)
    (hpath : d.tree.path id = some path) : d.Surfaced id ties ↔ ∀ x, c.Flags x ↔ ties x := by
  have hlisted : (∃ e ∈ d.contentConflicts, e.nodeId = id) ↔ ∃ x, c.Flags x := by
    rw [← FileContent.hasConflict_iff]
    constructor
    · rintro ⟨e, he, rfl⟩
      obtain ⟨c', -, hc', hconf, -⟩ := mem_contentConflicts.1 he
      exact Option.some_injective _ (hc.symm.trans hc') ▸ hconf
    · intro hconf
      exact ⟨⟨id, path, c.cid, c.conflictVersions.map Version.cid⟩,
        mem_contentConflicts.2 ⟨c, path, hc, hconf, hpath, rfl⟩, rfl⟩
  have hcids : ∀ e ∈ d.contentConflicts, e.nodeId = id → ∀ x, x ∈ e.conflictCids ↔ c.Flags x := by
    rintro e he rfl x
    obtain ⟨c', path', hc', -, -, heq⟩ := mem_contentConflicts.1 he
    obtain rfl := Option.some_injective _ (hc.symm.trans hc')
    rw [heq]
    exact FileContent.mem_conflictVersions
  constructor
  · intro h x
    by_cases hex : ∃ e ∈ d.contentConflicts, e.nodeId = id
    · obtain ⟨e, he, hid⟩ := hex
      rw [← hcids e he hid x]
      exact h.cids e he hid x
    · exact iff_of_false (fun hx => hex (hlisted.2 ⟨x, hx⟩)) fun hx => hex (h.listed.2 ⟨x, hx⟩)
  · intro h
    refine ⟨hlisted.trans (exists_congr h), fun e he hid x => ?_⟩
    exact (hcids e he hid x).trans (h x)

/-- The content operations of the file are these saves, in timestamp order. -/
def SavedBy (d : Drive) (id : NodeId) (saves : List Save) : Prop :=
  (d.state.contentLog.map StampedContentOp.op).filter (fun op => op.target = id) =
    saves.map fun s => s.op id

theorem Inv.content_of_savedBy (h : d.Inv) (hs : d.SavedBy id saves) :
    d.content[id]? = savedRecord id saves := by
  have htarget : (saves.map fun s => s.op id).filter (fun op => op.target = id) =
      saves.map fun s => s.op id := by
    refine List.filter_eq_self.2 fun op hop => ?_
    obtain ⟨s, -, rfl⟩ := List.mem_map.1 hop
    exact decide_eq_true rfl
  rw [h.getElem?_content, foldRecord, hs, savedRecord, saved, ContentMap.getElem?_foldl, htarget]
  simp

/-- A file with a path, whose content was built by given saves. -/
structure Built (d : Drive) (id : NodeId) (saves : List Save) : Prop where
  reachable : d.Reachable
  path : ∃ path, d.tree.path id = some path
  saves : d.SavedBy id saves

/-- Every file and every few saves are so in some drive. -/
theorem exists_built (id : NodeId) (saves : List Save) (hlen : saves.length ≤ MAX_VERSIONS) :
    ∃ d, Built d id saves := by
  suffices h : ∃ d, Built d id saves ∧ d.state.lamport ≤ 2 * saves.length + 2 from
    h.imp fun d hd => hd.1
  induction saves using List.reverseRecOn with
  | nil =>
    have hinit : (init "d" "a").Reachable := ⟨"d", "a", [], rfl⟩
    by_cases hid : id = ROOT
    · exact ⟨init "d" "a", ⟨hinit, ⟨"/", by rw [DriveTree.path, if_pos hid]⟩, rfl⟩, Nat.zero_le _⟩
    · -- a received move puts the file in the root
      obtain ⟨d, hd⟩ : ∃ d, (init "d" "a").receive (.move ⟨⟨1, "b"⟩, id, ROOT, "f", .file⟩) = some d :=
        exists_receive_iff.2 (show max 0 1 + 1 < 2 ^ 64 by decide)
      have hlamport := lamport_receive hd
      refine ⟨d, ⟨hinit.receive hd, ?_, ?_⟩, hlamport.le⟩
      · have hskip : ¬DriveTree.new.Skips ⟨⟨1, "b"⟩, id, ROOT, "f", .file⟩ := by
          rintro (heq | hanc)
          · exact hid heq.symm
          · rw [DriveTree.grounded_new.isAncestor_iff] at hanc
            exact hid (hanc.eq_of_top (DriveTree.parentOf_new ROOT))
        have hedge : d.tree.edges[id]? = some ⟨ROOT, "f", .file⟩ := by
          rw [applyRemoteMove_eq_some hd]
          have hpush : DriveTree.new.apply ⟨⟨1, "b"⟩, id, ROOT, "f", .file⟩ =
              DriveTree.new.doPush ⟨⟨1, "b"⟩, id, ROOT, "f", .file⟩ :=
            DriveTree.apply_of_forall_lt fun o ho => absurd ho (List.not_mem_nil)
          have hself := DriveTree.getElem?_edges_doMove_self hskip
          exact (congrArg (fun t => t.edges[id]?) hpush).trans hself
        refine ⟨"/" ++ "/".intercalate ["f"], ?_⟩
        rw [DriveTree.path, if_neg hid, DriveTree.pathWalk, hedge]
        exact if_pos rfl
      · rw [applyRemoteMove_eq_some hd]
        rfl
  | append_singleton saves s ih =>
    rw [List.length_append, List.length_singleton] at hlen
    obtain ⟨d, ⟨hd, ⟨path, hpath⟩, hs⟩, hlamport⟩ := ih (by omega)
    have hcap : MAX_VERSIONS = 32 := rfl
    -- a save received later than the whole log
    set op : StampedContentOp := ⟨⟨d.state.lamport + 1, "b"⟩, s.op id⟩
    have hts : (DriveOp.content op).ts.lamport = d.state.lamport + 1 := rfl
    obtain ⟨d', hd'⟩ := exists_receive_iff.2
      (show max d.state.lamport (DriveOp.content op).ts.lamport + 1 < 2 ^ 64 by
        rw [hts]
        omega)
    have hlog : d'.state.contentLog = d.state.contentLog ++ [op] := by
      rw [applyRemoteContent_eq_some hd']
      exact deliver_of_forall_lt fun s' hs' =>
        Timestamp.lt_of_lamport_lt (Nat.lt_succ_of_le (hd.inv.content_le s' hs'))
    refine ⟨d', ⟨hd.receive hd', ⟨path, ?_⟩, ?_⟩, ?_⟩
    · rw [applyRemoteContent_eq_some hd']
      exact hpath
    · rw [SavedBy, hlog, List.map_append, List.filter_append, hs, List.map_append]
      refine congrArg _ (List.filter_eq_self.2 fun o ho => ?_)
      rw [List.mem_singleton.1 ho]
      exact decide_eq_true rfl
    · rw [lamport_receive hd', hts, List.length_append, List.length_singleton]
      omega

/-- Conflict reporting. For a file whose content was built by at most `MAX_VERSIONS` saves, after
every one of them : `content_conflicts` lists it exactly if some save has the time of the
current pair and another cid, with the cids of those saves, if and only if every save surfaces. -/
theorem contentConflicts_iff (id : NodeId) (saves : List Save) (hlen : saves.length ≤ MAX_VERSIONS) :
    (∀ pre d c, pre <+: saves → Built d id pre → d.content[id]? = some c →
        d.Surfaced id (Tied pre c.mtimeMs c.cid)) ↔
      ∀ pre s c, pre ++ [s] <+: saves → savedRecord id pre = some c → Surfaces pre c s := by
  have hroom : ∀ {pre}, pre <+: saves → pre.length ≤ MAX_VERSIONS := fun h => h.length_le.trans hlen
  have hflags : (∀ pre d c, pre <+: saves → Built d id pre → d.content[id]? = some c →
        d.Surfaced id (Tied pre c.mtimeMs c.cid)) ↔
      ∀ pre c, pre <+: saves → savedRecord id pre = some c →
        ∀ x, c.Flags x ↔ Tied pre c.mtimeMs c.cid x := by
    constructor
    · intro h pre c hpre hc
      obtain ⟨d, hd⟩ := exists_built id pre (hroom hpre)
      rw [← hd.reachable.inv.content_of_savedBy hd.saves] at hc
      obtain ⟨path, hpath⟩ := hd.path
      exact (surfaced_iff hc hpath).1 (h pre d c hpre hd hc)
    · intro h pre d c hpre hd hc
      obtain ⟨path, hpath⟩ := hd.path
      refine (surfaced_iff hc hpath).2 (h pre c hpre ?_)
      rwa [← hd.reachable.inv.content_of_savedBy hd.saves]
  rw [hflags]
  constructor
  · intro h pre s c hpre hc
    have hlt : pre.length < MAX_VERSIONS := by
      have hle := hroom hpre
      rwa [List.length_append] at hle
    obtain ⟨c', hc'⟩ := exists_savedRecord id (show pre ++ [s] ≠ [] by simp)
    exact (flags_step hc hlt hc' (h pre c ((List.prefix_append ..).trans hpre) hc)).1
      (h (pre ++ [s]) c' hpre hc')
  · intro h pre
    induction pre using List.reverseRecOn with
    | nil =>
      intro c _ hc
      rw [savedRecord_nil] at hc
      cases hc
    | append_singleton pre s ih =>
      intro c' hpre hc'
      have hlt : pre.length < MAX_VERSIONS := by
        have hle := hroom hpre
        rwa [List.length_append] at hle
      cases hc : savedRecord id pre with
      | none =>
        rw [savedRecord_append_singleton, hc] at hc'
        obtain rfl := Option.some_injective _ hc'
        have hnil : pre = [] := by
          by_contra hne
          obtain ⟨c, hc₁⟩ := exists_savedRecord id hne
          rw [hc₁] at hc
          cases hc
        subst hnil
        intro x
        refine iff_of_false (fun ⟨v, hv, _⟩ => nomatch hv) ?_
        rintro ⟨hne, w, hw, -, rfl⟩
        rw [List.mem_singleton.1 hw] at hne
        exact hne rfl
      | some c =>
        exact (flags_step hc hlt hc' (ih c ((List.prefix_append ..).trans hpre) hc)).2
          (h pre s c hpre hc)

/-- Two saves at one time : the one of the lesser cid is listed. -/
theorem contentConflicts_iff_tie : ∃ d c,
    Built d "f" [⟨"a", 1, 0, 1⟩, ⟨"b", 1, 0, 1⟩] ∧ d.content["f"]? = some c ∧
      d.Surfaced "f" (Tied [⟨"a", 1, 0, 1⟩, ⟨"b", 1, 0, 1⟩] c.mtimeMs c.cid) := by
  obtain ⟨d, hd⟩ := exists_built "f" [⟨"a", 1, 0, 1⟩, ⟨"b", 1, 0, 1⟩] (by decide)
  have hrec₂ : savedRecord "f" [⟨"a", 1, 0, 1⟩, ⟨"b", 1, 0, 1⟩] =
      some ⟨"b", 1, 0, 1, [⟨1, "a", 1, true⟩], none⟩ := by decide +kernel
  have hc₂ := (hd.reachable.inv.content_of_savedBy hd.saves).trans hrec₂
  refine ⟨d, _, hd, hc₂, (contentConflicts_iff "f" [⟨"a", 1, 0, 1⟩, ⟨"b", 1, 0, 1⟩] (by decide)).2 ?_
    _ d _ List.prefix_rfl hd hc₂⟩
  rintro pre s c ⟨post, hsplit⟩ hc
  rcases pre with - | ⟨p, - | ⟨p', pre⟩⟩
  · rw [savedRecord_nil] at hc
    cases hc
  · obtain ⟨rfl, htail⟩ := List.cons.inj hsplit
    obtain ⟨rfl, -⟩ := List.cons.inj htail
    have hrec : savedRecord "f" [⟨"a", 1, 0, 1⟩] = some (FileContent.new "a" 1 0 1) := by decide +kernel
    obtain rfl := Option.some_injective _ (hrec.symm.trans hc)
    refine ⟨fun _ _ ⟨l, hl, _⟩ => (nomatch hl), fun _ _ => ?_, fun hlt => absurd hlt (lt_irrefl _)⟩
    rintro ⟨-, w, hw, -, hcid⟩
    rw [List.mem_singleton.1 hw] at hcid
    exact absurd hcid (by decide)
  · have hlen := congrArg List.length hsplit
    simp at hlen

/-- A tie, and a newer save after it : the loser of the tie is still listed. -/
theorem contentConflicts_linger : ∃ d c,
    Built d "f" [⟨"a", 1, 0, 1⟩, ⟨"b", 1, 0, 1⟩, ⟨"c", 1, 0, 2⟩] ∧ d.content["f"]? = some c ∧
      ¬d.Surfaced "f" (Tied [⟨"a", 1, 0, 1⟩, ⟨"b", 1, 0, 1⟩, ⟨"c", 1, 0, 2⟩] c.mtimeMs c.cid) := by
  obtain ⟨d, hd⟩ := exists_built "f" [⟨"a", 1, 0, 1⟩, ⟨"b", 1, 0, 1⟩, ⟨"c", 1, 0, 2⟩] (by decide)
  have hrec : savedRecord "f" [⟨"a", 1, 0, 1⟩, ⟨"b", 1, 0, 1⟩, ⟨"c", 1, 0, 2⟩] =
      some ⟨"c", 1, 0, 2, [⟨1, "a", 1, true⟩, ⟨1, "b", 1, false⟩], none⟩ := by decide +kernel
  have hc := (hd.reachable.inv.content_of_savedBy hd.saves).trans hrec
  obtain ⟨path, hpath⟩ := hd.path
  refine ⟨d, _, hd, hc, fun h => ?_⟩
  have hflag : FileContent.Flags ⟨"c", 1, 0, 2, [⟨1, "a", 1, true⟩, ⟨1, "b", 1, false⟩], none⟩ "a" :=
    ⟨⟨1, "a", 1, true⟩, by simp, rfl, rfl⟩
  obtain ⟨-, w, hw, hmtime, hcid⟩ := ((surfaced_iff hc hpath).1 h "a").1 hflag
  simp only [List.mem_cons, List.not_mem_nil, or_false] at hw
  rcases hw with rfl | rfl | rfl
  · exact absurd hmtime (by decide)
  · exact absurd hmtime (by decide)
  · exact absurd hcid (by decide)

end Drive

end CeDrive
