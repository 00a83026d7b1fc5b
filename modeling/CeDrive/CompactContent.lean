import CeDrive.CompactTree
import Mathlib.Data.List.Chain

/-!
# The content after compaction

Compaction encodes a record as one save per version, oldest first, and one for the current
pointer, and folds them again. Recording keeps such a history exactly if each save is later
than the one before it, has another cid, and the flags say which saves were concurrent
(`FileContent.Chained`, `saveAll_eq_some_iff`) : any other save is put into the history
itself, dropped, or loses.

So compaction preserves the content of the files below the root exactly when they are kept
and their histories are of that form (`compact_preserves_content_iff`).
-/

open Std SortedLog Forest

namespace CeDrive

/-! ## Recording a history -/

namespace FileContent

variable {c : FileContent} {v w : Version} {mode : ℕ}

/-- `w` may follow `v` in a history that recording reproduces. -/
def Follows (v w : Version) : Prop :=
  v.cid ≠ w.cid ∧ (w.setAtMs > v.setAtMs ∨ w.setAtMs = v.setAtMs ∧ w.cid > v.cid) ∧
    v.conflict = decide (w.setAtMs = v.setAtMs)

instance (v w : Version) : Decidable (Follows v w) :=
  inferInstanceAs (Decidable (_ ∧ _))

/-- The saves of a record, oldest first : its versions, and the current pointer. -/
def saves (c : FileContent) : List Version :=
  c.versions ++ [⟨c.mtimeMs, c.cid, c.size, false⟩]

/-- Each save follows the one before it. -/
def Chained (c : FileContent) : Prop :=
  c.saves.IsChain Follows

instance (c : FileContent) : Decidable c.Chained :=
  inferInstanceAs (Decidable (List.IsChain _ _))

theorem versions_pushVersion (h : c.versions.length < MAX_VERSIONS) :
    (c.pushVersion v).versions =
      if (c.versions.getLast?).any fun l => l.cid = v.cid then c.versions else c.versions ++ [v] := by
  have hcap : ¬(c.versions ++ [v]).length > MAX_VERSIONS := by
    rw [List.length_append, List.length_singleton]
    omega
  unfold pushVersion
  split_ifs <;> rfl

/-- The history stays within its cap. -/
theorem length_pushVersion_le (h : c.versions.length ≤ MAX_VERSIONS) :
    (c.pushVersion v).versions.length ≤ MAX_VERSIONS := by
  unfold pushVersion
  split_ifs with hlast hcap
  · exact h
  · simp only [List.length_drop]
    omega
  · exact Nat.le_of_not_lt hcap

theorem length_record_le (h : c.versions.length ≤ MAX_VERSIONS) (cid : String) (size mtimeMs : ℕ) :
    (c.record cid size mtimeMs).2.versions.length ≤ MAX_VERSIONS := by
  unfold record
  split_ifs
  · exact h
  · exact length_pushVersion_le h
  · exact length_pushVersion_le h

end FileContent

open FileContent ContentMap

/-- The record after a sequence of saves. -/
def saveAll (id : NodeId) (mode : ℕ) (vs : List Version) : Option FileContent :=
  (vs.map fun v => .set id v.cid v.size mode v.setAtMs).foldl applyRecord none

section SaveAll

variable {id : NodeId} {mode : ℕ} {vs : List Version} {v w : Version} {c : FileContent}

theorem saveAll_append_singleton (h : saveAll id mode vs = some c) (hmode : c.mode = mode) :
    saveAll id mode (vs ++ [w]) = some (c.record w.cid w.size w.setAtMs).2 := by
  have hstep : saveAll id mode (vs ++ [w]) =
      applyRecord (saveAll id mode vs) (.set id w.cid w.size mode w.setAtMs) := by
    simp [saveAll]
  rw [hstep, h, applyRecord, ← hmode]

/-- Each save but the first adds at most one version. -/
theorem exists_saveAll (id : NodeId) (mode : ℕ) (vs : List Version) (w : Version) :
    ∃ c, saveAll id mode (vs ++ [w]) = some c ∧ c.mode = mode ∧ c.docId = none ∧
      c.versions.length ≤ vs.length := by
  induction vs using List.reverseRecOn generalizing w with
  | nil => exact ⟨_, rfl, rfl, rfl, le_rfl⟩
  | append_singleton vs v ih =>
    obtain ⟨c, hc, hmode, hdoc, hlen⟩ := ih v
    have hpush : ∀ x, (c.pushVersion x).versions.length ≤ (vs ++ [v]).length := by
      intro x
      rw [List.length_append, List.length_singleton]
      unfold pushVersion
      split_ifs
      · omega
      · simp only [List.length_drop, List.length_append, List.length_singleton]
        omega
      · simp only [List.length_append, List.length_singleton]
        omega
    refine ⟨_, saveAll_append_singleton hc hmode, ?_⟩
    rcases record_cases c w.cid w.size w.setAtMs with ⟨-, hr⟩ | ⟨-, -, x, hr⟩ | ⟨-, -, hr⟩
    · rw [hr]
      exact ⟨hmode, hdoc, hlen.trans (by simp)⟩
    · rw [hr]
      exact ⟨by simpa using hmode, by simpa using hdoc, hpush x⟩
    · rw [hr]
      exact ⟨by simpa using hmode, by simpa using hdoc, hpush _⟩

theorem isChain_append_pair :
    (vs ++ [v] ++ [w]).IsChain Follows ↔ (vs ++ [v]).IsChain Follows ∧ Follows v w := by
  rw [List.append_assoc, List.singleton_append, List.isChain_append_cons_cons]
  simp

theorem getLast?_of_isChain (h : (vs ++ [v]).IsChain Follows) :
    (vs.getLast?).any (fun l => l.cid = v.cid) = false := by
  rcases List.eq_nil_or_concat vs with rfl | ⟨vs, u, rfl⟩
  · rfl
  · rw [List.concat_eq_append] at h
    simpa using (isChain_append_pair.1 h).2.1

/-- Saving a history gives it back exactly if each save follows the one before. Induction on
the history : a save that does not follow is not recorded as current, or another one is
recorded in its place. -/
theorem saveAll_eq_some_iff (id : NodeId) (mode : ℕ) (vs : List Version) (w : Version)
    (hlen : vs.length ≤ MAX_VERSIONS) :
    saveAll id mode (vs ++ [w]) = some ⟨w.cid, w.size, mode, w.setAtMs, vs, none⟩ ↔
      (vs ++ [w]).IsChain Follows := by
  induction vs using List.reverseRecOn generalizing w with
  | nil => exact iff_of_true rfl (List.isChain_singleton w)
  | append_singleton vs v ih =>
    rw [List.length_append, List.length_singleton] at hlen
    have ih := ih v (by omega)
    obtain ⟨c, hc, hmode, hdoc, hle⟩ := exists_saveAll id mode vs v
    rw [saveAll_append_singleton hc hmode, isChain_append_pair, ← ih, hc, Option.some_inj,
      Option.some_inj]
    have hversions := fun x => versions_pushVersion (c := c) (v := x) (by omega)
    constructor
    · intro heq
      rcases record_cases c w.cid w.size w.setAtMs with ⟨-, hr⟩ | ⟨hne, -, x, hr⟩ | ⟨hne, hwin, hr⟩
      · have hvs := congrArg (fun r => r.versions.length) (hr.symm.trans heq)
        simp only [List.length_append, List.length_singleton] at hvs
        omega
      · exact absurd (congrArg FileContent.cid (hr.symm.trans heq)) (by simpa using hne.symm)
      · have hvs := congrArg FileContent.versions (hr.symm.trans heq)
        simp only [hversions] at hvs
        split_ifs at hvs with hlast
        · have hvs := congrArg List.length hvs
          simp only [List.length_append, List.length_singleton] at hvs
          omega
        · obtain ⟨rfl, hv⟩ := List.append_inj' hvs rfl
          obtain rfl := List.singleton_inj.1 hv
          refine ⟨?_, hne.symm, hwin, rfl⟩
          rw [← hmode, ← hdoc]
    · rintro ⟨rfl, hfollows⟩
      have hchain := ih.1 hc
      rcases record_cases ⟨v.cid, v.size, mode, v.setAtMs, vs, none⟩ w.cid w.size w.setAtMs with
        ⟨he, -⟩ | ⟨-, hlose, -⟩ | ⟨-, -, hr⟩
      · exact absurd he.symm hfollows.1
      · exact absurd hfollows.2.1 hlose
      · have hlast := getLast?_of_isChain hchain
        rw [hr, FileContent.mk.injEq]
        simp [hversions, hlast, ← hfollows.2.2]

end SaveAll

namespace Drive

variable {d : Drive} {n : NodeId} {c : FileContent}

theorem historyOps_eq (id : NodeId) (c : FileContent) : historyOps id c =
    (c.saves.map fun v => .set id v.cid v.size c.mode v.setAtMs) ++
      c.docId.toList.map (.setDoc id) := by
  simp [historyOps, saves]

/-- A record survives its encoding exactly if its history is chained. -/
theorem foldl_historyOps_eq_iff (id : NodeId) (c : FileContent)
    (hlen : c.versions.length ≤ MAX_VERSIONS) :
    (historyOps id c).foldl applyRecord none = some c ↔ c.Chained := by
  obtain ⟨r, hr, -, hdoc, -⟩ := exists_saveAll id c.mode c.versions ⟨c.mtimeMs, c.cid, c.size, false⟩
  have hiff := saveAll_eq_some_iff id c.mode c.versions ⟨c.mtimeMs, c.cid, c.size, false⟩ hlen
  have hfold : (historyOps id c).foldl applyRecord none = some { r with docId := c.docId } := by
    have hsaves : (c.saves.map fun v => .set id v.cid v.size c.mode v.setAtMs).foldl
        applyRecord none = some r := hr
    rw [historyOps_eq, List.foldl_append, hsaves]
    cases hd : c.docId with
    | none =>
      have hsame : { r with docId := none } = r := by rw [← hdoc]
      rw [hsame]
      rfl
    | some docId => rfl
  rw [Chained, saves, ← hiff, hr, hfold, Option.some_inj, Option.some_inj]
  constructor
  · intro h
    rw [← h, ← hdoc]
  · rintro rfl
    rfl

theorem length_versions_applyRecord {r : Option FileContent} {op : ContentOp}
    (hr : ∀ c, r = some c → c.versions.length ≤ MAX_VERSIONS) (h : applyRecord r op = some c) :
    c.versions.length ≤ MAX_VERSIONS := by
  cases op with
  | set id cid size mode mtimeMs =>
    cases r with
    | none => exact Option.some_injective _ h ▸ Nat.zero_le _
    | some r =>
      exact Option.some_injective _ h ▸
        length_record_le (c := { r with mode := mode }) (hr r rfl) cid size mtimeMs
  | restore id cid nowMs =>
    obtain ⟨r, rfl, rfl⟩ := Option.map_eq_some_iff.1 h
    unfold FileContent.restore
    split
    · exact length_pushVersion_le (hr r rfl)
    · exact hr r rfl
  | remove id => cases h
  | setDoc id docId =>
    obtain ⟨r, rfl, rfl⟩ := Option.map_eq_some_iff.1 h
    exact hr r rfl

/-- No record of a drive keeps more versions than the cap. -/
theorem Inv.length_versions_le (h : d.Inv) (hc : d.content[n]? = some c) :
    c.versions.length ≤ MAX_VERSIONS := by
  rw [h.getElem?_content, foldRecord] at hc
  refine List.foldlRecOn (motive := fun r => ∀ c, r = some c → c.versions.length ≤ MAX_VERSIONS)
    _ applyRecord (by simp) (fun r hr op _ c hc => length_versions_applyRecord hr hc) c hc

/-! ## The records of the compacted drive -/

theorem filter_flatMap_recordOps {vs : List (NodeId × Edge)} (hvs : (vs.map Prod.fst).Nodup)
    (n : NodeId) : (vs.flatMap fun v => d.recordOps v.1).filter (fun op => op.target = n) =
      if n ∈ vs.map Prod.fst then d.recordOps n else [] := by
  induction vs with
  | nil => rfl
  | cons v vs ih =>
    rw [List.map_cons, List.nodup_cons] at hvs
    rw [List.flatMap_cons, List.filter_append, ih hvs.2, List.map_cons]
    by_cases hv : v.1 = n
    · subst hv
      have hall : (d.recordOps v.1).filter (fun op => op.target = v.1) = d.recordOps v.1 :=
        List.filter_eq_self.2 fun op hop => by simp [target_of_mem_recordOps hop]
      simp [hall, hvs.1]
    · have hnone : (d.recordOps v.1).filter (fun op => op.target = n) = [] :=
        List.filter_eq_nil_iff.2 fun op hop => by simp [target_of_mem_recordOps hop, hv]
      rw [hnone, List.nil_append]
      simp only [List.mem_cons, Ne.symm hv, false_or]

open Classical in
/-- The record of a node after compaction. -/
theorem Inv.getElem?_content_compact (h : d.Inv) (n : NodeId) : d.compact.content[n]? =
    if d.tree.Kept n then (d.recordOps n).foldl applyRecord none else none := by
  have hlog : d.compact.state.contentLog = d.compacted.content := rfl
  have hvisit : n ∈ d.visits.map Prod.fst ↔ d.tree.Kept n := by
    rw [List.mem_map]
    constructor
    · rintro ⟨⟨n, e⟩, hv, rfl⟩
      exact ((mem_visits h.replayed.mirror h.replayed.grounded).1 hv).2
    · intro hk
      obtain ⟨e, he⟩ := hk.exists_edge
      exact ⟨(n, e), (mem_visits h.replayed.mirror h.replayed.grounded).2 ⟨he, hk⟩, rfl⟩
  rw [(inv_compact d).getElem?_content, foldRecord, hlog, compacted_eq_foldl, map_content_foldl_emit,
    List.map_nil, List.nil_append,
    filter_flatMap_recordOps (nodup_visits h.replayed.mirror h.replayed.grounded)]
  simp only [hvisit]
  split_ifs <;> rfl

/-- A file below the root. -/
def FileUnderRoot (d : Drive) (n : NodeId) : Prop :=
  Reaches d.tree.parentOf n ROOT ∧ ∃ e, d.tree.edges[n]? = some e ∧ e.kind = .file

/-- Compaction preserves the content of every file below the root, in the live drive and in
the one loaded from its state, exactly when each such file with content is kept and its
history is chained. -/
theorem compact_preserves_content_iff (h : d.Reachable) :
    (∀ n, d.FileUnderRoot n → d.compact.content[n]? = d.content[n]? ∧
      (fromState d.compact.state).content[n]? = d.content[n]?) ↔
    ∀ n, d.FileUnderRoot n → ∀ c, d.content[n]? = some c → d.tree.Kept n ∧ c.Chained := by
  have hinv := h.inv
  refine forall₂_congr fun n _ => ?_
  rw [(inv_compact d).fromState_eq, and_self, hinv.getElem?_content_compact]
  cases hc : d.content[n]? with
  | none => simp [recordOps, hc]
  | some c =>
    have hfold := foldl_historyOps_eq_iff n c (hinv.length_versions_le hc)
    by_cases hk : d.tree.Kept n
    · simp [hk, recordOps, hc, hfold]
    · simp [hk]

/-- A file saved at 100 and 200, the first version restored at 150. -/
def restoredRun : List Event :=
  [.exec 0 (.addFile "/" "f" (.new "c1" 1 0 100)), .exec 1 (.addFile "/" "f" (.new "c2" 2 0 200)),
    .exec 1 (.restoreVersion "/f" "c1" 150)]

/-- Compaction makes the second version current again. -/
theorem compact_undoes_restore :
    let d := ((init "d" "a").performAll restoredRun).get (by decide +kernel)
    d.Reachable ∧ ¬∀ n, d.FileUnderRoot n → d.compact.content[n]? = d.content[n]? ∧
      (fromState d.compact.state).content[n]? = d.content[n]? := by
  intro d
  let f : NodeId := "00000000000100000000"
  have hr : d.Reachable := ⟨"d", "a", restoredRun, (Option.some_get _).symm⟩
  refine ⟨hr, fun h => ?_⟩
  have hf : d.FileUnderRoot f := by
    refine ⟨hr.inv.replayed.grounded.isAncestor_iff.1 (by decide +kernel), ?_⟩
    exact ⟨⟨ROOT, "f", .file⟩, by decide +kernel, rfl⟩
  have hcid := congrArg (Option.map FileContent.cid) (h f hf).1
  revert hcid
  decide +kernel

/-- A file with two saves in order. -/
theorem compact_preserves_content_iff_saved :
    let d := ((init "d" "a").performAll (restoredRun.take 2)).get (by decide +kernel)
    (∀ n, d.FileUnderRoot n → d.compact.content[n]? = d.content[n]? ∧
      (fromState d.compact.state).content[n]? = d.content[n]?) ↔
    ∀ n, d.FileUnderRoot n → ∀ c, d.content[n]? = some c → d.tree.Kept n ∧ c.Chained := by
  intro d
  exact compact_preserves_content_iff ⟨"d", "a", _, (Option.some_get _).symm⟩

end Drive

end CeDrive
