import CeDrive.Capped
import CeDrive.CompactContent
import CeDrive.LastWriter

/-!
# The history of a file

What the record of a file keeps of the operations on it. Its versions are a capped list of
what was displaced or rejected, so the cids of the last `MAX_VERSIONS` operations are still in
the record (`window_retained`).

A restore of a cid that is not in the versions changes nothing, but is logged, and
`restore_version` answers `Ok` (`restoreVersion_iff`). A save sets the mode before it is known
to win, so the record has the cid and the size of one save and the mode of another, unless
every save that does not win has the mode it finds (`attributes_iff`).
-/

namespace CeDrive

open Browser (Save)
open LastWriter

namespace FileContent

variable {c c' : FileContent} {v : Version} {op : ContentOp} {x : String}

theorem versions_pushVersion_eq (c : FileContent) (v : Version) :
    (c.pushVersion v).versions = Capped.push Version.cid MAX_VERSIONS c.versions v := by
  unfold pushVersion Capped.push
  split_ifs with hlast hcap
  · rfl
  · rfl
  · rw [List.rtake, Nat.sub_eq_zero_of_le (Nat.le_of_not_lt hcap), List.drop_zero]

theorem record_of_wins {cid : String} (size : ℕ) {mtimeMs : ℕ} (hcid : cid ≠ c.cid)
    (h : mtimeMs > c.mtimeMs ∨ mtimeMs = c.mtimeMs ∧ cid > c.cid) :
    c.record cid size mtimeMs = (true,
      { c.pushVersion ⟨c.mtimeMs, c.cid, c.size, decide (mtimeMs = c.mtimeMs)⟩ with
        cid := cid
        size := size
        mtimeMs := mtimeMs }) := by
  rw [record, if_neg hcid, if_neg (not_not_intro h)]

theorem record_of_loses {cid : String} (size : ℕ) {mtimeMs : ℕ} (hcid : cid ≠ c.cid)
    (h : ¬(mtimeMs > c.mtimeMs ∨ mtimeMs = c.mtimeMs ∧ cid > c.cid)) :
    c.record cid size mtimeMs =
      (false, c.pushVersion ⟨mtimeMs, cid, size, decide (mtimeMs ≥ c.mtimeMs)⟩) := by
  rw [record, if_neg hcid, if_pos h]

/-- The cid an operation rejects or displaces : that of a save that loses, or the current one
when a save wins or a restore finds its cid. -/
def drops (c : FileContent) : ContentOp → Option String
  | .set _ cid size mode mtimeMs =>
    if cid = c.cid then none
    else if (({ c with mode := mode } : FileContent).record cid size mtimeMs).1 then some c.cid
    else some cid
  | .restore _ cid nowMs => if (c.restore cid nowMs).1 then some c.cid else none
  | .remove _ => none
  | .setDoc _ _ => none

/-- An operation drops a cid and pushes it on the versions, or leaves them alone. -/
theorem versions_of_applyRecord (h : ContentMap.applyRecord (some c) op = some c') :
    (c.drops op = none ∧ c'.versions = c.versions) ∨
      ∃ v, c.drops op = some v.cid ∧
        c'.versions = Capped.push Version.cid MAX_VERSIONS c.versions v := by
  cases op with
  | set id cid size mode mtimeMs =>
    obtain rfl := Option.some_injective _ h
    by_cases hcid : cid = c.cid
    · exact Or.inl ⟨if_pos hcid, by rw [record, if_pos hcid]⟩
    by_cases hwins : mtimeMs > c.mtimeMs ∨ mtimeMs = c.mtimeMs ∧ cid > c.cid
    · have hrec := record_of_wins (c := { c with mode := mode }) size hcid hwins
      refine Or.inr ⟨⟨c.mtimeMs, c.cid, c.size, decide (mtimeMs = c.mtimeMs)⟩, ?_, ?_⟩
      · rw [drops, if_neg hcid, hrec]
        rfl
      · rw [hrec]
        exact versions_pushVersion_eq _ _
    · have hrec := record_of_loses (c := { c with mode := mode }) size hcid hwins
      refine Or.inr ⟨⟨mtimeMs, cid, size, decide (mtimeMs ≥ c.mtimeMs)⟩, ?_, ?_⟩
      · rw [drops, if_neg hcid, hrec]
        rfl
      · rw [hrec]
        exact versions_pushVersion_eq _ _
  | restore id cid nowMs =>
    obtain rfl := Option.some_injective _ h
    cases hf : c.versions.find? fun v => v.cid = cid with
    | none => exact Or.inl ⟨by simp [drops, restore, hf], by simp [restore, hf]⟩
    | some v =>
      refine Or.inr ⟨⟨c.mtimeMs, c.cid, c.size, false⟩, by simp [drops, restore, hf], ?_⟩
      simp [restore, hf, versions_pushVersion_eq]
  | remove id => cases h
  | setDoc id docId =>
    obtain rfl := Option.some_injective _ h
    exact Or.inl ⟨rfl, rfl⟩

/-- A cid that an operation drops is the last of the versions then. -/
theorem among_of_drops (h : ContentMap.applyRecord (some c) op = some c') (hx : c.drops op = some x) :
    Capped.Among Version.cid c'.versions 1 x := by
  obtain ⟨hnone, -⟩ | ⟨v, hv, hpush⟩ := versions_of_applyRecord h
  · rw [hnone] at hx
    cases hx
  · obtain rfl := Option.some_injective _ (hv.symm.trans hx)
    exact hpush ▸ Capped.among_push_self (by decide)

/-- The other versions move back by one place at most. -/
theorem among_succ {k : ℕ} (h : ContentMap.applyRecord (some c) op = some c')
    (hx : Capped.Among Version.cid c.versions k x) (hk : k < MAX_VERSIONS) :
    Capped.Among Version.cid c'.versions (k + 1) x := by
  obtain ⟨-, hsame⟩ | ⟨v, -, hpush⟩ := versions_of_applyRecord h
  · exact hsame ▸ hx.mono (Nat.le_succ k)
  · exact hpush ▸ hx.push hk

theorem mem_allCids : x ∈ c.allCids ↔ x = c.cid ∨ ∃ v ∈ c.versions, v.cid = x := by
  simp [allCids, mem_dedup, eq_comm]

end FileContent

/-! ## The retention window -/

/-- The record of a file after its first save and the operations that follow. -/
def recordAfter (id : NodeId) (s : Save) (ops : List ContentOp) : Option FileContent :=
  (ops.foldl ContentMap.apply ((∅ : ContentMap).apply (s.op id)))[id]?

/-- An operation on the file, other than its removal. -/
def KeepsFile (id : NodeId) : ContentOp → Prop
  | .remove _ => False
  | op => op.target = id

variable {id : NodeId} {s : Save} {c : FileContent} {op : ContentOp} {ops : List ContentOp} {x : String}

theorem KeepsFile.target (h : KeepsFile id op) : op.target = id := by
  cases op with
  | remove => exact h.elim
  | _ => exact h

theorem KeepsFile.exists_applyRecord (h : KeepsFile id op) (c : FileContent) :
    ∃ c', ContentMap.applyRecord (some c) op = some c' := by
  cases op with
  | remove => exact h.elim
  | _ => exact ⟨_, rfl⟩

theorem recordAfter_nil : recordAfter id s [] = some (FileContent.new s.cid s.size s.mode s.mtimeMs) := by
  have htarget : (s.op id).target = id := rfl
  rw [recordAfter, List.foldl_nil, ContentMap.getElem?_apply, if_pos htarget]
  simp [ContentMap.applyRecord, Browser.Save.op]

theorem recordAfter_append_singleton (h : KeepsFile id op) :
    recordAfter id s (ops ++ [op]) = ContentMap.applyRecord (recordAfter id s ops) op := by
  rw [recordAfter, List.foldl_append, List.foldl_cons, List.foldl_nil, ContentMap.getElem?_apply,
    if_pos h.target, recordAfter]

theorem exists_recordAfter (hops : ∀ op ∈ ops, KeepsFile id op) :
    ∃ c, recordAfter id s ops = some c ∧ c.versions.length ≤ MAX_VERSIONS := by
  induction ops using List.reverseRecOn with
  | nil => exact ⟨_, recordAfter_nil, Nat.zero_le _⟩
  | append_singleton ops op ih =>
    obtain ⟨hops, hop⟩ := Drive.forall_mem_append_singleton.1 hops
    obtain ⟨c, hc, hlen⟩ := ih hops
    obtain ⟨c', hc'⟩ := hop.exists_applyRecord c
    refine ⟨c', by rw [recordAfter_append_singleton hop, hc, hc'], ?_⟩
    exact Drive.length_versions_applyRecord (r := some c)
      (fun r hr => Option.some_injective _ hr ▸ hlen) hc'

/-- A cid dropped `k` operations ago is among the last `k + 1` versions. -/
theorem among_recordAfter {pre post : List ContentOp} {c₀ : FileContent}
    (hops : ∀ o ∈ pre ++ op :: post, KeepsFile id o) (hpost : post.length < MAX_VERSIONS)
    (hc₀ : recordAfter id s pre = some c₀) (hx : c₀.drops op = some x)
    (hc : recordAfter id s (pre ++ op :: post) = some c) :
    Capped.Among Version.cid c.versions (post.length + 1) x := by
  induction post using List.reverseRecOn generalizing c with
  | nil =>
    rw [recordAfter_append_singleton (hops op (by simp)), hc₀] at hc
    exact FileContent.among_of_drops hc hx
  | append_singleton post op' ih =>
    have hcons : pre ++ op :: (post ++ [op']) = (pre ++ op :: post) ++ [op'] := by simp
    rw [hcons] at hops hc
    obtain ⟨hops, hop'⟩ := Drive.forall_mem_append_singleton.1 hops
    obtain ⟨c₁, hc₁, -⟩ := exists_recordAfter (s := s) hops
    rw [recordAfter_append_singleton hop', hc₁] at hc
    rw [List.length_append, List.length_singleton] at hpost ⊢
    exact FileContent.among_succ hc (ih hops (by omega) hc₁) hpost

/-- After a first save and any saves, restores and documents : the versions are within the cap,
the current cid is among all cids, and so is every cid that one of the last `MAX_VERSIONS`
operations rejected or displaced. -/
theorem window_retained (id : NodeId) (s : Save) (ops : List ContentOp)
    (hops : ∀ op ∈ ops, KeepsFile id op) : ∃ c, recordAfter id s ops = some c ∧
      c.versions.length ≤ MAX_VERSIONS ∧ c.cid ∈ c.allCids ∧
      ∀ pre op post c₀ x, ops = pre ++ op :: post → post.length < MAX_VERSIONS →
        recordAfter id s pre = some c₀ → c₀.drops op = some x → x ∈ c.allCids := by
  obtain ⟨c, hc, hlen⟩ := exists_recordAfter (s := s) hops
  refine ⟨c, hc, hlen, FileContent.mem_allCids.2 (Or.inl rfl), ?_⟩
  rintro pre op post c₀ x rfl hpost hc₀ hx
  have hamong := among_recordAfter hops hpost hc₀ hx hc
  exact FileContent.mem_allCids.2 (Or.inr hamong.exists_mem)

/-- A save that wins, one that loses, and a restore. -/
theorem window_retained_restore :
    let ops : List ContentOp := [.set "f" "b" 2 0 20, .set "f" "c" 3 0 10, .restore "f" "a" 30]
    ∃ c, recordAfter "f" ⟨"a", 1, 0, 10⟩ ops = some c ∧
      c.versions.length ≤ MAX_VERSIONS ∧ c.cid ∈ c.allCids ∧
      ∀ pre op post c₀ x, ops = pre ++ op :: post → post.length < MAX_VERSIONS →
        recordAfter "f" ⟨"a", 1, 0, 10⟩ pre = some c₀ → c₀.drops op = some x → x ∈ c.allCids := by
  intro ops
  refine window_retained "f" ⟨"a", 1, 0, 10⟩ ops fun op hop => ?_
  simp only [ops, List.mem_cons, List.not_mem_nil, or_false] at hop
  rcases hop with rfl | rfl | rfl <;> rfl

/-! ## Restoring a version -/

namespace FileContent

/-- The cid is current or in the history. -/
def Knows (c : FileContent) (cid : String) : Prop :=
  c.cid = cid ∨ ∃ v ∈ c.versions, v.cid = cid

/-- A restore makes its cid current exactly if the record knows it. -/
theorem cid_restore_eq_iff (c : FileContent) (cid : String) (nowMs : ℕ) :
    (c.restore cid nowMs).2.cid = cid ↔ c.Knows cid := by
  unfold restore
  cases hf : c.versions.find? fun v => v.cid = cid with
  | none =>
    have hno : ¬∃ v ∈ c.versions, v.cid = cid := by simpa using List.find?_eq_none.1 hf
    exact (or_iff_left hno).symm
  | some v =>
    have hv : v.cid = cid := by simpa using List.find?_some hf
    exact iff_of_true hv (Or.inr ⟨v, List.mem_of_find?_eq_some hf, hv⟩)

end FileContent

namespace Drive

/-- What `restore_version` should do : `Ok` only if the cid is then current, and `Err`, with the
drive as it was, if the node has no record or its record does not know the cid. -/
structure RestoresOrFails (d : Drive) (path cid : String) (nowMs : ℕ) : Prop where
  restores : ∀ d', d.restoreVersion path cid nowMs = some (.ok (), d') → ∃ n c,
    d.tree.resolve path = some n ∧ d'.content[n]? = some c ∧ c.cid = cid
  fails : (∀ n c, d.tree.resolve path = some n → d.content[n]? = some c → ¬c.Knows cid) →
    ∃ err, d.restoreVersion path cid nowMs = some (.error err, d)

/-- `restore_version` does what it should exactly if it finds no record that does not know the
cid. -/
theorem restoreVersion_iff (d : Drive) (path cid : String) (nowMs : ℕ) :
    d.RestoresOrFails path cid nowMs ↔
      ∀ n c, d.tree.resolve path = some n → d.content[n]? = some c → c.Knows cid := by
  have hrecord : ∀ (n : NodeId), (d.wrote (.restore n cid nowMs)).content[n]? =
      (d.content[n]?).map fun c => (c.restore cid nowMs).2 := by
    intro n
    have htarget : (ContentOp.restore n cid nowMs).target = n := rfl
    rw [wrote, ContentMap.getElem?_apply, if_pos htarget]
    rfl
  constructor
  · intro h n c hn hc
    by_contra hunknown
    obtain ⟨err, hr⟩ := h.fails fun n' c' hn' hc' => by
      obtain rfl := Option.some_injective _ (hn.symm.trans hn')
      exact Option.some_injective _ (hc.symm.trans hc') ▸ hunknown
    obtain ⟨e, hnone, -⟩ | ⟨n', c', -, -, heq⟩ := restoreVersion_eq_some hr
    · rw [hnone n hn] at hc
      cases hc
    · cases (Prod.mk.inj heq).1
  · intro h
    refine ⟨fun d' hr => ?_, fun hunknown => ?_⟩
    · obtain ⟨e, -, heq⟩ | ⟨n, c, hn, hc, heq⟩ := restoreVersion_eq_some hr
      · cases (Prod.mk.inj heq).1
      · obtain rfl := (Prod.mk.inj heq).2
        refine ⟨n, (c.restore cid nowMs).2, hn, by rw [hrecord, hc]; rfl, ?_⟩
        exact (c.cid_restore_eq_iff cid nowMs).2 (h n c hn hc)
    · unfold restoreVersion
      cases hn : d.tree.resolve path with
      | none => exact ⟨_, rfl⟩
      | some n =>
        have hc : d.content[n]? = none := Option.eq_none_iff_forall_not_mem.2 fun c hc =>
          hunknown n c hn hc (h n c hn hc)
        simp only [hc, Option.isNone_none, if_true]
        exact ⟨_, rfl⟩

/-- A file saved once, and a restore of a cid it never had : `Ok`. -/
theorem restoreVersion_unknown : ∃ d : Drive, d.Reachable ∧ ¬d.RestoresOrFails "/f" "c2" 5 := by
  have hrun : ((init "d" "a").performAll [.exec 0 (.addFile "/" "f" (.new "c1" 1 0 1))]).any
      (fun d => (d.tree.resolve "/f").any fun n => (d.content[n]?).any fun c =>
        decide (c.cid ≠ "c2" ∧ c.versions = [])) = true := by
    decide +kernel
  obtain ⟨d, hd, hrun⟩ := (Option.any_eq_true _ _).1 hrun
  obtain ⟨n, hn, hrun⟩ := (Option.any_eq_true _ _).1 hrun
  obtain ⟨c, hc, hrun⟩ := (Option.any_eq_true _ _).1 hrun
  obtain ⟨hcid, hvs⟩ := of_decide_eq_true hrun
  refine ⟨d, ⟨"d", "a", _, hd⟩, fun h => ?_⟩
  obtain ⟨err, hr⟩ := h.fails fun n' c' hn' hc' => by
    obtain rfl := Option.some_injective _ (hn.symm.trans hn')
    obtain rfl := Option.some_injective _ (hc.symm.trans hc')
    rintro (hk | ⟨v, hv, -⟩)
    · exact hcid hk
    · simp [hvs] at hv
  obtain ⟨e, hnone, -⟩ | ⟨n', c', -, -, heq⟩ := restoreVersion_eq_some hr
  · rw [hnone n hn] at hc
    cases hc
  · cases (Prod.mk.inj heq).1

end Drive

/-! ## The attributes of the current save -/

/-- A save that becomes current : the first one, or one of another cid that wins. -/
def Wins : Option FileContent → Save → Prop
  | none, _ => True
  | some c, s => s.cid ≠ c.cid ∧ c.stamp < s.stamp

variable {saves pre post : List Save} {r : Option FileContent}

/-- The record after the saves. -/
def savedRecord (id : NodeId) (saves : List Save) : Option FileContent :=
  (saved id saves)[id]?

/-- `s` is the save that supplied the current cid : it won, and no save after it did. -/
def Supplies (id : NodeId) (pre : List Save) (s : Save) (post : List Save) : Prop :=
  Wins (savedRecord id pre) s ∧ ∀ mid s' post', post = mid ++ s' :: post' →
    ¬Wins (savedRecord id (pre ++ s :: mid)) s'

/-- Cid, size and mode of the record are those of the save that supplied the cid, and a save
that loses changes the versions only. -/
structure OneSave (id : NodeId) (saves : List Save) : Prop where
  attributes : ∀ pre s post, saves = pre ++ s :: post → Supplies id pre s post →
    ∃ c, savedRecord id saves = some c ∧ c.cid = s.cid ∧ c.size = s.size ∧ c.mode = s.mode
  frame : ∀ pre s post c, saves = pre ++ s :: post → savedRecord id pre = some c →
    s.cid ≠ c.cid → ¬c.stamp < s.stamp →
    ∃ vs, savedRecord id (pre ++ [s]) = some { c with versions := vs }

theorem savedRecord_nil (id : NodeId) : savedRecord id [] = none := by
  simp [savedRecord, saved]

theorem savedRecord_append_singleton :
    savedRecord id (saves ++ [s]) = ContentMap.applyRecord (savedRecord id saves) (s.op id) := by
  have htarget : (s.op id).target = id := rfl
  rw [savedRecord, saved_append_singleton, ContentMap.getElem?_apply, if_pos htarget, savedRecord]

theorem exists_savedRecord (id : NodeId) (hne : saves ≠ []) : ∃ c, savedRecord id saves = some c := by
  obtain ⟨pre, s, rfl⟩ := (List.eq_nil_or_concat' saves).resolve_left hne
  rw [savedRecord_append_singleton]
  cases savedRecord id pre with
  | none => exact ⟨_, rfl⟩
  | some c => exact ⟨_, rfl⟩

theorem savedRecord_succ (h : savedRecord id pre = some c) : savedRecord id (pre ++ [s]) =
    some (({ c with mode := s.mode } : FileContent).record s.cid s.size s.mtimeMs).2 := by
  rw [savedRecord_append_singleton, h]
  rfl

/-- The record of a save that wins, and of one that does not. -/
theorem savedRecord_step (h : savedRecord id pre = some c) :
    (Wins (some c) s ∧ ∃ c', savedRecord id (pre ++ [s]) = some c' ∧ c'.cid = s.cid ∧
      c'.size = s.size ∧ c'.mode = s.mode) ∨
    (¬Wins (some c) s ∧ ∃ vs, savedRecord id (pre ++ [s]) =
      some { c with mode := s.mode, versions := vs }) := by
  have hpush : ∀ v : Version, ∃ vs, (({ c with mode := s.mode } : FileContent).pushVersion v) =
      { c with mode := s.mode, versions := vs } := by
    intro v
    unfold FileContent.pushVersion
    split_ifs
    · exact ⟨_, rfl⟩
    · exact ⟨_, rfl⟩
    · exact ⟨_, rfl⟩
  rw [savedRecord_succ h]
  rcases ({ c with mode := s.mode } : FileContent).record_cases s.cid s.size s.mtimeMs with
    ⟨hcid, heq⟩ | ⟨-, hloses, v, heq⟩ | ⟨hcid, hwins, heq⟩
  · exact Or.inr ⟨fun hw => hw.1 hcid, c.versions, by rw [heq]⟩
  · obtain ⟨vs, hvs⟩ := hpush v
    exact Or.inr ⟨fun hw => hloses (stamp_lt_iff.1 hw.2), vs, by rw [heq, hvs]⟩
  · refine Or.inl ⟨⟨hcid, stamp_lt_iff.2 hwins⟩, _, rfl, ?_, ?_, ?_⟩
    · rw [heq]
    · rw [heq]
    · rw [heq]
      exact FileContent.mode_pushVersion

theorem mode_savedRecord (h : savedRecord id (pre ++ [s]) = some c) : c.mode = s.mode := by
  cases hc : savedRecord id pre with
  | none =>
    rw [savedRecord_append_singleton, hc] at h
    exact Option.some_injective _ h ▸ rfl
  | some c₀ =>
    obtain ⟨-, c', hc', -, -, hmode⟩ | ⟨-, vs, hvs⟩ := savedRecord_step (s := s) hc
    · exact Option.some_injective _ (h.symm.trans hc') ▸ hmode
    · exact Option.some_injective _ (h.symm.trans hvs) ▸ rfl

theorem Supplies.append (h : Supplies id pre s post) {s' : Save}
    (hs' : ¬Wins (savedRecord id (pre ++ s :: post)) s') : Supplies id pre s (post ++ [s']) := by
  refine ⟨h.1, fun mid x post' heq => ?_⟩
  rcases List.eq_nil_or_concat' post' with rfl | ⟨post', y, rfl⟩
  · obtain ⟨rfl, hx⟩ := List.append_inj' heq rfl
    obtain rfl : s' = x := by simpa using hx
    exact hs'
  · rw [← List.cons_append, ← List.append_assoc] at heq
    exact h.2 mid x post' (List.append_inj' heq rfl).1

theorem Supplies.of_append {s' : Save} (h : Supplies id pre s (post ++ [s'])) :
    Supplies id pre s post ∧ ¬Wins (savedRecord id (pre ++ s :: post)) s' := by
  refine ⟨⟨h.1, fun mid x post' heq => h.2 mid x (post' ++ [s']) (by simp [heq])⟩, ?_⟩
  exact h.2 post s' [] rfl

/-- Some save supplied the current cid. -/
theorem exists_supplies (id : NodeId) (hne : saves ≠ []) :
    ∃ pre s post, saves = pre ++ s :: post ∧ Supplies id pre s post := by
  induction saves using List.reverseRecOn with
  | nil => exact absurd rfl hne
  | append_singleton saves s ih =>
    by_cases hwins : Wins (savedRecord id saves) s
    · exact ⟨saves, s, [], rfl, hwins, by simp⟩
    · have hne' : saves ≠ [] := by
        rintro rfl
        exact hwins (savedRecord_nil id ▸ trivial)
      obtain ⟨pre, w, post, rfl, hw⟩ := ih hne'
      exact ⟨pre, w, post ++ [s], by simp, hw.append hwins⟩

/-- Saves that do not win leave cid and size, and the mode if it is theirs. -/
theorem Supplies.attributes (h : Supplies id pre s post) (hmodes : ∀ mid s' c,
      mid ++ [s'] <+: pre ++ s :: post → savedRecord id mid = some c → ¬Wins (some c) s' →
        s'.mode = c.mode) :
    ∃ c, savedRecord id (pre ++ s :: post) = some c ∧ c.cid = s.cid ∧ c.size = s.size ∧
      c.mode = s.mode := by
  induction post using List.reverseRecOn with
  | nil =>
    cases hc : savedRecord id pre with
    | none =>
      refine ⟨FileContent.new s.cid s.size s.mode s.mtimeMs, ?_, rfl, rfl, rfl⟩
      rw [savedRecord_append_singleton, hc]
      rfl
    | some c =>
      have hw := h.1
      rw [hc] at hw
      exact ((savedRecord_step hc).resolve_right fun hn => hn.1 hw).2
  | append_singleton post s' ih =>
    obtain ⟨hpost, hs'⟩ := h.of_append
    have hcons : pre ++ s :: (post ++ [s']) = (pre ++ s :: post) ++ [s'] := by simp
    rw [hcons] at hmodes ⊢
    obtain ⟨c, hc, hcid, hsize, hmode⟩ := ih hpost fun mid s' c hmid =>
      hmodes mid s' c (hmid.trans (List.prefix_append ..))
    rw [hc] at hs'
    obtain ⟨hw, -⟩ | ⟨-, vs, hvs⟩ := savedRecord_step (s := s') hc
    · exact absurd hw hs'
    · exact ⟨_, hvs, hcid, hsize, (hmodes _ s' c List.prefix_rfl hc hs').trans hmode⟩

/-- After every save of a sequence, the record has cid, size and mode of one save, and saves
that lose change the versions only, exactly if every save that does not become current has the
mode of the record it meets. -/
theorem attributes_iff (id : NodeId) (saves : List Save) :
    (∀ pre, pre <+: saves → OneSave id pre) ↔ ∀ pre s c, pre ++ [s] <+: saves →
      savedRecord id pre = some c → ¬Wins (some c) s → s.mode = c.mode := by
  constructor
  · intro h pre s c hpre hc hs
    have hne : pre ≠ [] := by
      rintro rfl
      rw [savedRecord_nil] at hc
      cases hc
    obtain ⟨p, w, post, rfl, hw⟩ := exists_supplies id hne
    -- the save that supplied the cid does so also after `s`
    have hcons : (p ++ w :: post) ++ [s] = p ++ w :: (post ++ [s]) := by simp
    obtain ⟨c₁, hc₁, -, -, hmode₁⟩ := (h _ ((List.prefix_append ..).trans hpre)).attributes p w post
      rfl hw
    obtain ⟨c₂, hc₂, -, -, hmode₂⟩ := (h _ hpre).attributes p w (post ++ [s]) hcons
      (hw.append (hc.symm ▸ hs))
    obtain rfl := Option.some_injective _ (hc.symm.trans hc₁)
    rw [hmode₁, ← hmode₂, mode_savedRecord hc₂]
  · rintro hmodes saves' hpre
    refine ⟨?_, ?_⟩
    · rintro pre s post rfl hs
      exact hs.attributes fun mid s' c hmid => hmodes mid s' c (hmid.trans hpre)
    · rintro pre s post c rfl hc hcid hloses
      have hs : ¬Wins (some c) s := fun hw => hloses hw.2
      have hpre_le : pre ++ [s] <+: pre ++ s :: post := ⟨post, by simp⟩
      obtain ⟨hw, -⟩ | ⟨-, vs, hvs⟩ := savedRecord_step (s := s) hc
      · exact absurd hw hs
      · exact ⟨vs, by rw [hvs, hmodes pre s c (hpre_le.trans hpre) hc hs]⟩

/-- An older save of another mode loses, and sets its mode. -/
theorem attributes_mixed : ¬∀ pre, pre <+: ([⟨"a", 1, 0, 2⟩, ⟨"b", 2, 7, 1⟩] : List Save) →
    OneSave "f" pre := by
  intro h
  have hc : savedRecord "f" [⟨"a", 1, 0, 2⟩] = some (FileContent.new "a" 1 0 2) := by decide +kernel
  obtain ⟨vs, hvs⟩ := (h _ List.prefix_rfl).frame [⟨"a", 1, 0, 2⟩] ⟨"b", 2, 7, 1⟩ [] _ rfl hc
    (by decide) (by decide)
  have hmode : (savedRecord "f" [⟨"a", 1, 0, 2⟩, ⟨"b", 2, 7, 1⟩]).map FileContent.mode = some 7 := by
    decide +kernel
  rw [show ([⟨"a", 1, 0, 2⟩, ⟨"b", 2, 7, 1⟩] : List Save) = [⟨"a", 1, 0, 2⟩] ++ [⟨"b", 2, 7, 1⟩]
    from rfl, hvs] at hmode
  simp [FileContent.new] at hmode

end CeDrive
