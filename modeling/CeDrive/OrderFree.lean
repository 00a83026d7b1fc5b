import CeDrive.Browser

/-!
# When the browser agrees with the core

The browser applies the operations on a file in the order they arrive, the core folds them
in the order of their timestamps. Which sets of operations give one record in every order
of arrival? `OrderFree` : with a save there may be no removal and no document; all saves
have one mode, saves of one cid are equal; there are at most two cids, and the one that
loses is never restored.

It is enough, as the record is then known after each prefix (`Settled`). It is necessary :
delivering one operation again must leave the final record as it is (`stable`), and two
orders that put different saves first leave records that tell them apart.
-/

open Std (ExtTreeMap)

namespace CeDrive

namespace Browser

/-! ## Saves -/

/-- What a save carries besides its node. -/
structure Save where
  cid : String
  size : ℕ
  mode : ℕ
  mtimeMs : ℕ
  deriving DecidableEq

namespace Save

def op (s : Save) (id : NodeId) : ContentOp :=
  .set id s.cid s.size s.mode s.mtimeMs

/-- The record of a file saved once. -/
def fresh (s : Save) : FileContent :=
  FileContent.new s.cid s.size s.mode s.mtimeMs

def version (s : Save) : Version :=
  ⟨s.mtimeMs, s.cid, s.size⟩

/-- Last-writer-wins : the later save wins, of two at one time the one with the greater cid. -/
def Loses (s s' : Save) : Prop :=
  s.mtimeMs < s'.mtimeMs ∨ s.mtimeMs = s'.mtimeMs ∧ s.cid < s'.cid

theorem Loses.asymm {s s' : Save} (h : s.Loses s') : ¬s'.Loses s := by
  rintro (h' | ⟨h', hc'⟩) <;> rcases h with h | ⟨h, hc⟩
  · omega
  · omega
  · omega
  · exact lt_asymm hc hc'

theorem loses_or_loses {s s' : Save} (h : s.cid ≠ s'.cid) : s.Loses s' ∨ s'.Loses s := by
  rcases lt_trichotomy s.mtimeMs s'.mtimeMs with hlt | heq | hlt
  · exact Or.inl (Or.inl hlt)
  · exact (lt_or_gt_of_ne h).imp (fun hc => Or.inr ⟨heq, hc⟩) fun hc => Or.inr ⟨heq.symm, hc⟩
  · exact Or.inr (Or.inl hlt)

end Save

/-- A save applied to a record. -/
def applySave (c : FileContent) (s : Save) : FileContent :=
  ({ c with mode := s.mode }.record s.cid s.size s.mtimeMs).2

/-- The save whose record is `c` but for mode and history. -/
def current (c : FileContent) : Save :=
  ⟨c.cid, c.size, c.mode, c.mtimeMs⟩

theorem applyRecord_op (c : FileContent) (s : Save) (id : NodeId) :
    applyRecord (some c) (s.op id) = some (applySave c s) :=
  rfl

variable {c : FileContent} {s s' : Save} {v : Version} {w : String} {L : List Save} {id : NodeId}

theorem applySave_of_cid (h : s.cid = c.cid) : applySave c s = { c with mode := s.mode } := by
  simp [applySave, FileContent.record, h]

theorem applySave_of_wins (hne : s.cid ≠ c.cid) (h : (current c).Loses s) : applySave c s =
    { ({ c with mode := s.mode }.pushVersion (current c).version) with
      cid := s.cid
      size := s.size
      mtimeMs := s.mtimeMs } := by
  have hnewer : s.mtimeMs > c.mtimeMs ∨ s.mtimeMs = c.mtimeMs ∧ s.cid > c.cid :=
    h.imp_right fun hc => ⟨hc.1.symm, hc.2⟩
  unfold applySave FileContent.record
  rw [if_neg hne, if_neg (not_not_intro hnewer)]
  rfl

theorem applySave_of_loses (hne : s.cid ≠ c.cid) (h : s.Loses (current c)) :
    applySave c s = { c with mode := s.mode }.pushVersion s.version := by
  have holder : ¬(s.mtimeMs > c.mtimeMs ∨ s.mtimeMs = c.mtimeMs ∧ s.cid > c.cid) := fun hn =>
    h.asymm (hn.imp_right fun hc => ⟨hc.1.symm, hc.2⟩)
  unfold applySave FileContent.record
  rw [if_neg hne, if_pos holder]
  rfl

theorem pushVersion_of_last (h : c.versions.getLast? = some v) {u : Version} (hu : v.cid = u.cid) :
    c.pushVersion u = c := by
  simp [FileContent.pushVersion, h, hu]

theorem pushVersion_of_nil (h : c.versions = []) : c.pushVersion v = { c with versions := [v] } := by
  simp [FileContent.pushVersion, h, MAX_VERSIONS]

/-- A pushed version is the last one, or the last one has its cid. -/
theorem getLast?_pushVersion (c : FileContent) (v : Version) :
    ∃ l, (c.pushVersion v).versions.getLast? = some l ∧ l.cid = v.cid := by
  unfold FileContent.pushVersion
  split_ifs with hlast hcap
  · cases hl : c.versions.getLast? with
    | none => simp [hl] at hlast
    | some l => exact ⟨l, rfl, by simpa [hl] using hlast⟩
  · refine ⟨v, ?_, rfl⟩
    have hlen : (c.versions ++ [v]).length - MAX_VERSIONS ≤ c.versions.length := by
      simp [MAX_VERSIONS]
    dsimp only
    rw [List.drop_append_of_le_length hlen, List.getLast?_concat]
  · exact ⟨v, by simp, rfl⟩

theorem pushVersion_eq (c : FileContent) (v : Version) :
    c.pushVersion v = { c with versions := (c.pushVersion v).versions } := by
  unfold FileContent.pushVersion
  split_ifs <;> rfl

theorem mode_applySave (c : FileContent) (s : Save) : (applySave c s).mode = s.mode := by
  unfold applySave FileContent.record
  split_ifs
  · rfl
  · rw [pushVersion_eq]
  · rw [pushVersion_eq]

theorem docId_applySave (c : FileContent) (s : Save) : (applySave c s).docId = c.docId := by
  unfold applySave FileContent.record
  split_ifs
  · rfl
  · rw [pushVersion_eq]
  · rw [pushVersion_eq]

/-- A save that leaves a record of another cid as it is loses, and the last version has its
cid. -/
theorem loses_of_applySave_eq (h : applySave c s = c) (hne : s.cid ≠ c.cid) :
    s.Loses (current c) ∧ ∃ v, c.versions.getLast? = some v ∧ v.cid = s.cid := by
  have hlose : s.Loses (current c) := by
    have hcur : s.cid ≠ (current c).cid := hne
    refine (Save.loses_or_loses hcur).resolve_right fun hwins => ?_
    rw [applySave_of_wins hne hwins] at h
    exact hne (congrArg FileContent.cid h)
  refine ⟨hlose, ?_⟩
  obtain ⟨l, hl, hcid⟩ := getLast?_pushVersion { c with mode := s.mode } s.version
  rw [← applySave_of_loses hne hlose, h] at hl
  exact ⟨l, hl, hcid⟩

/-! ## The condition -/

/-- The operations on `id` leave one record, in whatever order and however often they
come. -/
structure OrderFree (ops : List ContentOp) (id : NodeId) : Prop where
  alone : ∀ s : Save, s.op id ∈ ops → .remove id ∉ ops ∧ ∀ docId, .setDoc id docId ∉ ops
  mode : ∀ s s' : Save, s.op id ∈ ops → s'.op id ∈ ops → s.mode = s'.mode
  same : ∀ s s' : Save, s.op id ∈ ops → s'.op id ∈ ops → s.cid = s'.cid →
    s.size = s'.size ∧ s.mtimeMs = s'.mtimeMs
  two : ∀ s s' s'' : Save, s.op id ∈ ops → s'.op id ∈ ops → s''.op id ∈ ops →
    s.cid = s'.cid ∨ s.cid = s''.cid ∨ s'.cid = s''.cid
  loser : ∀ s s' : Save, s.op id ∈ ops → s'.op id ∈ ops → s.cid ≠ s'.cid → s.Loses s' →
    ∀ nowMs, .restore id s.cid nowMs ∉ ops

theorem OrderFree.eq_of_cid {ops : List ContentOp} (h : OrderFree ops id) (hs : s.op id ∈ ops)
    (hs' : s'.op id ∈ ops) (hcid : s.cid = s'.cid) : s = s' := by
  obtain ⟨hsize, hmtime⟩ := h.same s s' hs hs' hcid
  have hmode := h.mode s s' hs hs'
  obtain ⟨cid, size, mode, mtimeMs⟩ := s
  obtain ⟨cid', size', mode', mtimeMs'⟩ := s'
  simp_all

/-! ## The condition is enough -/

/-- The record after the operations `seen` : none before the first save, then that save,
then the one that wins, with the other as its only version. -/
inductive Settled (seen : List ContentOp) (id : NodeId) : Option FileContent → Prop
  | none (h : ∀ s : Save, s.op id ∉ seen) : Settled seen id none
  | one (s : Save) (hs : s.op id ∈ seen) (h : ∀ s' : Save, s'.op id ∈ seen → s' = s) :
      Settled seen id (some s.fresh)
  | two (a b : Save) (ha : a.op id ∈ seen) (hb : b.op id ∈ seen) (hne : a.cid ≠ b.cid)
      (hlose : a.Loses b) : Settled seen id (some { b.fresh with versions := [a.version] })

theorem mem_append_op {seen : List ContentOp} {op : ContentOp} (h : ∀ s : Save, op ≠ s.op id)
    (s : Save) : s.op id ∈ seen ++ [op] ↔ s.op id ∈ seen := by
  simp [Ne.symm (h s)]

/-- An operation that is no save and leaves the record leaves it settled. -/
theorem Settled.of_eq {seen : List ContentOp} {op : ContentOp} {r : Option FileContent}
    (h : Settled seen id r) (hop : ∀ s : Save, op ≠ s.op id) : Settled (seen ++ [op]) id r := by
  cases h with
  | none h => exact .none fun s hs => h s ((mem_append_op hop s).1 hs)
  | one s hs h => exact .one s ((mem_append_op hop s).2 hs) fun s' hs' => h s' ((mem_append_op hop s').1 hs')
  | two a b ha hb hne hlose =>
    exact .two a b ((mem_append_op hop a).2 ha) ((mem_append_op hop b).2 hb) hne hlose

theorem Settled.save {ops seen : List ContentOp} {r : Option FileContent} (hfree : OrderFree ops id)
    (hseen : ∀ op ∈ seen, op ∈ ops) (hs : s.op id ∈ ops) (h : Settled seen id r) :
    Settled (seen ++ [s.op id]) id (applyRecord r (s.op id)) := by
  have hlast : s.op id ∈ seen ++ [s.op id] := by simp
  have hmem : ∀ {x : Save}, x.op id ∈ seen → x.op id ∈ seen ++ [s.op id] :=
    fun hx => List.mem_append_left _ hx
  have hsplit : ∀ {x : Save}, x.op id ∈ seen ++ [s.op id] → x.op id ∈ seen ∨ x = s := by
    intro x hx
    refine (List.mem_append.1 hx).imp_right fun hx => ?_
    obtain ⟨cid, size, mode, mtimeMs⟩ := x
    obtain ⟨cid', size', mode', mtimeMs'⟩ := s
    simpa [Save.op] using hx
  cases h with
  | none h =>
    refine .one s hlast fun x hx => (hsplit hx).resolve_left (h x)
  | one a ha h =>
    have hao := hseen _ ha
    by_cases hcid : s.cid = a.cid
    · obtain rfl := hfree.eq_of_cid hs hao hcid
      rw [applyRecord_op, applySave_of_cid (c := s.fresh) rfl]
      exact .one s hlast fun x hx => (hsplit hx).elim (h x) fun hx => hx
    · rcases Save.loses_or_loses hcid with hl | hw
      · -- the new save loses : it becomes the only version
        have hstep : applySave a.fresh s = { a.fresh with versions := [s.version] } := by
          rw [applySave_of_loses (c := a.fresh) hcid hl, pushVersion_of_nil rfl, hfree.mode s a hs hao]
          rfl
        rw [applyRecord_op, hstep]
        exact .two s a hlast (hmem ha) hcid hl
      · have hstep : applySave a.fresh s = { s.fresh with versions := [a.version] } := by
          rw [applySave_of_wins (c := a.fresh) hcid hw, pushVersion_of_nil rfl]
          rfl
        rw [applyRecord_op, hstep]
        exact .two a s (hmem ha) hlast (Ne.symm hcid) hw
  | two a b ha hb hne hlose =>
    have hstep : applySave { b.fresh with versions := [a.version] } s =
        { b.fresh with versions := [a.version] } := by
      have hmode := hfree.mode s b hs (hseen _ hb)
      by_cases hcid : s.cid = b.cid
      · rw [applySave_of_cid (c := { b.fresh with versions := [a.version] }) hcid, hmode]
        rfl
      · have hcid' : s.cid = a.cid := ((hfree.two s b a hs (hseen _ hb) (hseen _ ha)).resolve_left
          hcid).resolve_right (Ne.symm hne)
        obtain rfl := hfree.eq_of_cid hs (hseen _ ha) hcid'
        rw [applySave_of_loses (c := { b.fresh with versions := [s.version] }) hcid hlose,
          pushVersion_of_last (v := s.version) rfl rfl, hmode]
        rfl
    rw [applyRecord_op, hstep]
    exact .two a b (hmem ha) (hmem hb) hne hlose

theorem Settled.apply {ops seen : List ContentOp} {op : ContentOp} {r : Option FileContent}
    (hfree : OrderFree ops id) (hseen : ∀ op ∈ seen, op ∈ ops) (hop : op ∈ ops) (hid : op.target = id)
    (h : Settled seen id r) : Settled (seen ++ [op]) id (applyRecord r op) := by
  cases op with
  | set id' cid size mode mtimeMs =>
    obtain rfl : id' = id := hid
    exact h.save (s := ⟨cid, size, mode, mtimeMs⟩) hfree hseen hop
  | restore id' cid nowMs =>
    obtain rfl : id' = id := hid
    suffices hsame : applyRecord r (.restore id' cid nowMs) = r by
      rw [hsame]
      exact h.of_eq fun s hs => by cases hs
    cases h with
    | none => rfl
    | one s => rfl
    | two a b ha hb hne hlose =>
      have hcid : a.cid ≠ cid := by
        rintro rfl
        exact hfree.loser a b (hseen _ ha) (hseen _ hb) hne hlose nowMs hop
      simp [applyRecord, FileContent.restore, Save.version, hcid]
  | remove id' =>
    obtain rfl : id' = id := hid
    cases h with
    | none h => exact (Settled.none h).of_eq fun s hs => by cases hs
    | one s hs => exact absurd hop (hfree.alone s (hseen _ hs)).1
    | two a b ha => exact absurd hop (hfree.alone a (hseen _ ha)).1
  | setDoc id' docId =>
    obtain rfl : id' = id := hid
    cases h with
    | none h => exact (Settled.none h).of_eq fun s hs => by cases hs
    | one s hs => exact absurd hop ((hfree.alone s (hseen _ hs)).2 docId)
    | two a b ha => exact absurd hop ((hfree.alone a (hseen _ ha)).2 docId)

theorem settled_foldl {ops : List ContentOp} (hfree : OrderFree ops id) (L : List ContentOp)
    (hL : ∀ op ∈ L, op ∈ ops ∧ op.target = id) : Settled L id (L.foldl applyRecord none) := by
  induction L using List.reverseRecOn with
  | nil => exact .none fun s hs => absurd hs List.not_mem_nil
  | append_singleton L op ih =>
    have hinit : ∀ op ∈ L, op ∈ ops ∧ op.target = id := fun o ho => hL o (List.mem_append_left _ ho)
    obtain ⟨hop, hid⟩ := hL op (by simp)
    rw [List.foldl_append, List.foldl_cons, List.foldl_nil]
    exact (ih hinit).apply hfree (fun o ho => (hinit o ho).1) hop hid

/-- The settled record depends on the operations only, not on their order. -/
theorem Settled.unique {ops seen seen' : List ContentOp} {r r' : Option FileContent}
    (hfree : OrderFree ops id) (hseen : ∀ op ∈ seen, op ∈ ops)
    (hmem : ∀ op, op ∈ seen ↔ op ∈ seen') (h : Settled seen id r) (h' : Settled seen' id r') :
    r = r' := by
  cases h with
  | none h =>
    cases h' with
    | none => rfl
    | one s hs => exact absurd ((hmem _).2 hs) (h s)
    | two a b ha => exact absurd ((hmem _).2 ha) (h a)
  | one s hs h =>
    cases h' with
    | none h' => exact absurd ((hmem _).1 hs) (h' s)
    | one s' hs' => rw [h s' ((hmem _).2 hs')]
    | two a b ha hb hne =>
      rw [h a ((hmem _).2 ha), h b ((hmem _).2 hb)] at hne
      exact absurd rfl hne
  | two a b ha hb hne hlose =>
    cases h' with
    | none h' => exact absurd ((hmem _).1 ha) (h' a)
    | one s' hs' h' =>
      rw [h' a ((hmem _).1 ha), h' b ((hmem _).1 hb)] at hne
      exact absurd rfl hne
    | two a' b' ha' hb' hne' hlose' =>
      have ha' := hseen _ ((hmem _).2 ha')
      have hb' := hseen _ ((hmem _).2 hb')
      replace ha := hseen _ ha
      replace hb := hseen _ hb
      -- there are two cids, and one of them loses
      rcases (hfree.two a b a' ha hb ha').resolve_left hne with haa | hba
      · obtain rfl := hfree.eq_of_cid ha ha' haa
        have hbb : b.cid = b'.cid :=
          ((hfree.two a b b' ha hb hb').resolve_left hne).resolve_left hne'
        rw [hfree.eq_of_cid hb hb' hbb]
      · obtain rfl := hfree.eq_of_cid hb ha' hba
        have hab : a.cid = b'.cid :=
          ((hfree.two a b b' ha hb hb').resolve_left hne).resolve_right hne'
        obtain rfl := hfree.eq_of_cid ha hb' hab
        exact absurd hlose' hlose.asymm

/-! ## Saves one after the other -/

theorem foldl_op (L : List Save) (c : FileContent) :
    (L.map fun s => s.op id).foldl applyRecord (some c) = some (L.foldl applySave c) := by
  induction L generalizing c with
  | nil => rfl
  | cons s L ih => exact ih (applySave c s)

theorem docId_foldl (L : List Save) (c : FileContent) : (L.foldl applySave c).docId = c.docId := by
  induction L generalizing c with
  | nil => rfl
  | cons s L ih => rw [List.foldl_cons, ih, docId_applySave]

theorem kept_or_cid_eq (c : FileContent) (s : Save) :
    ((applySave c s).cid = c.cid ∧ (applySave c s).size = c.size ∧
      (applySave c s).mtimeMs = c.mtimeMs) ∨ (applySave c s).cid = s.cid := by
  unfold applySave FileContent.record
  split_ifs
  · exact Or.inl ⟨rfl, rfl, rfl⟩
  · exact Or.inr rfl
  · rw [pushVersion_eq]
    exact Or.inl ⟨rfl, rfl, rfl⟩

/-- Saves of other cids do not bring a cid back. -/
theorem cid_foldl_ne (hL : ∀ s ∈ L, s.cid ≠ w) (hc : c.cid ≠ w) : (L.foldl applySave c).cid ≠ w := by
  induction L generalizing c with
  | nil => exact hc
  | cons s L ih =>
    refine ih (fun x hx => hL x (List.mem_cons_of_mem _ hx)) ?_
    rcases kept_or_cid_eq c s with ⟨h, -⟩ | h
    · rwa [h]
    · rw [h]
      exact hL s List.mem_cons_self

/-- If saves of other cids leave the cid, they leave size and time. -/
theorem unchanged_of_cid (hL : ∀ s ∈ L, s.cid ≠ c.cid) (h : (L.foldl applySave c).cid = c.cid) :
    (L.foldl applySave c).size = c.size ∧ (L.foldl applySave c).mtimeMs = c.mtimeMs := by
  induction L generalizing c with
  | nil => exact ⟨rfl, rfl⟩
  | cons s L ih =>
    have hL' : ∀ x ∈ L, x.cid ≠ c.cid := fun x hx => hL x (List.mem_cons_of_mem _ hx)
    rcases kept_or_cid_eq c s with ⟨hcid, hsize, hmtime⟩ | hcid
    · have hrest := ih (fun x hx => hcid ▸ hL' x hx) (h.trans hcid.symm)
      exact ⟨hrest.1.trans hsize, hrest.2.trans hmtime⟩
    · have hne : (applySave c s).cid ≠ c.cid := hcid ▸ hL s List.mem_cons_self
      exact absurd h (cid_foldl_ne (c := applySave c s) hL' hne)

/-- Saves of the current cid change the mode only. -/
theorem foldl_of_cid (hL : ∀ s ∈ L, s.cid = c.cid) :
    L.foldl applySave c = { c with mode := (L.foldl applySave c).mode } := by
  induction L generalizing c with
  | nil => rfl
  | cons s L ih =>
    have hs := applySave_of_cid (hL s List.mem_cons_self)
    rw [List.foldl_cons, hs]
    exact ih fun x hx => hL x (List.mem_cons_of_mem _ hx)

/-- Saves of one other cid that lose leave the history, once its last version has that
cid. -/
theorem versions_foldl {v : Version} (hL : ∀ s ∈ L, s.cid = v.cid ∧ s.Loses (current c))
    (hne : v.cid ≠ c.cid) (hv : c.versions.getLast? = some v) : (L.foldl applySave c).versions = c.versions := by
  induction L generalizing c with
  | nil => rfl
  | cons s L ih =>
    obtain ⟨hcid, hlose⟩ := hL s List.mem_cons_self
    have hs : applySave c s = { c with mode := s.mode } := by
      rw [applySave_of_loses (hcid ▸ hne) hlose,
        pushVersion_of_last (c := { c with mode := s.mode }) hv (u := s.version) hcid.symm]
    rw [List.foldl_cons, hs]
    exact ih (fun x hx => hL x (List.mem_cons_of_mem _ hx)) hne hv

/-! ## The condition is necessary -/

/-- The operations of `ds` on one node. -/
def onNode (id : NodeId) (ds : List StampedContentOp) : List ContentOp :=
  (ds.map StampedContentOp.op).filter fun op => op.target = id

/-- The save on `id` that an operation is, if any. -/
def saveOn (id : NodeId) : ContentOp → Option Save
  | .set id' cid size mode mtimeMs => if id' = id then some ⟨cid, size, mode, mtimeMs⟩ else none
  | _ => none

theorem saveOn_eq_some {op : ContentOp} : saveOn id op = some s ↔ op = s.op id := by
  obtain ⟨cid, size, mode, mtimeMs⟩ := s
  cases op <;> simp [saveOn, Save.op]

theorem target_of_saveOn {op : ContentOp} (h : saveOn id op = some s) : op.target = id := by
  rw [saveOn_eq_some.1 h]
  rfl

theorem onNode_append (id : NodeId) (ds ds' : List StampedContentOp) :
    onNode id (ds ++ ds') = onNode id ds ++ onNode id ds' := by
  rw [onNode, List.map_append, List.filter_append]
  rfl

/-- Operations that are no saves leave no record. -/
theorem foldl_of_no_save {ds : List StampedContentOp} (h : ∀ d ∈ ds, saveOn id d.op = none) :
    (onNode id ds).foldl applyRecord none = none := by
  induction ds with
  | nil => rfl
  | cons d ds ih =>
    have ih := ih fun x hx => h x (List.mem_cons_of_mem _ hx)
    have hd := h d List.mem_cons_self
    by_cases hid : d.op.target = id
    · have hnone : applyRecord none d.op = none := by
        cases hop : d.op with
        | set id' cid size mode mtimeMs =>
          rw [hop] at hd hid
          have hid : id' = id := hid
          simp [saveOn, hid] at hd
        | _ => rfl
      rw [onNode, List.map_cons, List.filter_cons_of_pos (by simpa using hid), List.foldl_cons, hnone]
      exact ih
    · rw [onNode, List.map_cons, List.filter_cons_of_neg (by simpa using hid)]
      exact ih

/-- The saves on `id` among the operations. -/
def saves (ops : List StampedContentOp) (id : NodeId) : List Save :=
  ops.filterMap fun d => saveOn id d.op

variable {ops : List StampedContentOp} {r : Option FileContent}

theorem mem_saves : s ∈ saves ops id ↔ s.op id ∈ ops.map StampedContentOp.op := by
  simp only [saves, List.mem_filterMap, saveOn_eq_some, List.mem_map]

/-- Saves may be delivered in any order. -/
theorem exists_delivery (L : List Save) (h : ∀ s ∈ L, s.op id ∈ ops.map StampedContentOp.op) :
    ∃ ds : List StampedContentOp, (∀ d ∈ ds, d ∈ ops) ∧ onNode id ds = L.map fun s => s.op id := by
  induction L with
  | nil => exact ⟨[], by simp, rfl⟩
  | cons s L ih =>
    obtain ⟨ds, hds, hon⟩ := ih fun x hx => h x (List.mem_cons_of_mem _ hx)
    obtain ⟨d, hd, hop⟩ := List.mem_map.1 (h s List.mem_cons_self)
    refine ⟨d :: ds, List.forall_mem_cons.2 ⟨hd, hds⟩, ?_⟩
    have htarget : d.op.target = id := by rw [hop]; rfl
    rw [onNode, List.map_cons, List.filter_cons_of_pos (by simpa using htarget), hop, List.map_cons]
    exact congrArg _ hon

theorem onNode_filter_saves (p : Save → Bool) (ops : List StampedContentOp) :
    onNode id (ops.filter fun d => (saveOn id d.op).any p) =
      ((saves ops id).filter p).map fun s => s.op id := by
  induction ops with
  | nil => rfl
  | cons d ops ih =>
    cases hs : saveOn id d.op with
    | none =>
      have hskip : saves (d :: ops) id = saves ops id := by simp [saves, hs]
      rw [List.filter_cons_of_neg (by simp [hs]), ih, hskip]
    | some s =>
      have hcons : saves (d :: ops) id = s :: saves ops id := by simp [saves, hs]
      rw [hcons]
      by_cases hp : p s = true
      · rw [List.filter_cons_of_pos (by simpa [hs] using hp), List.filter_cons_of_pos hp, onNode,
          List.map_cons, List.filter_cons_of_pos (by simpa using target_of_saveOn hs),
          saveOn_eq_some.1 hs]
        exact congrArg _ ih
      · rw [List.filter_cons_of_neg (by simpa [hs] using hp), List.filter_cons_of_neg hp]
        exact ih

/-- Every delivery of the operations leaves the record `r` on `id`. -/
def OneRecord (ops : List StampedContentOp) (id : NodeId) (r : Option FileContent) : Prop :=
  ∀ ds : List StampedContentOp, (∀ d, d ∈ ds ↔ d ∈ ops) → (onNode id ds).foldl applyRecord none = r

/-- Delivering an operation again leaves the final record. -/
theorem OneRecord.stable (h : OneRecord ops id r) {op : ContentOp}
    (hop : op ∈ ops.map StampedContentOp.op) (hid : op.target = id) : applyRecord r op = r := by
  obtain ⟨d, hd, rfl⟩ := List.mem_map.1 hop
  have hagain := h (ops ++ [d]) (by simp [or_iff_left_of_imp, hd])
  have hone : onNode id [d] = [d.op] := by simp [onNode, hid]
  rwa [onNode_append, List.foldl_append, h ops fun _ => Iff.rfl, hone] at hagain

/-- The saves alone leave the final record, those with `p` first, and others in front of
each part. -/
theorem OneRecord.saves_first (h : OneRecord ops id r) (p : Save → Bool) (front middle : List Save)
    (hfront : ∀ s ∈ front, s ∈ saves ops id) (hmiddle : ∀ s ∈ middle, s ∈ saves ops id) :
    ((front ++ (saves ops id).filter p ++ middle ++ (saves ops id).filter fun s => !p s).map
      fun s => s.op id).foldl applyRecord none = r := by
  obtain ⟨ds, hds, hon⟩ := exists_delivery front fun s hs => mem_saves.1 (hfront s hs)
  obtain ⟨ds', hds', hon'⟩ := exists_delivery middle fun s hs => mem_saves.1 (hmiddle s hs)
  have hrun := h (ops.filter (fun d => (saveOn id d.op).isNone) ++
    (ds ++ ops.filter (fun d => (saveOn id d.op).any p) ++ ds' ++
      ops.filter fun d => (saveOn id d.op).any fun s => !p s)) fun d => by
    simp only [List.mem_append, List.mem_filter]
    constructor
    · rintro (hd | ((hd | hd) | hd) | hd)
      · exact hd.1
      · exact hds d hd
      · exact hd.1
      · exact hds' d hd
      · exact hd.1
    · intro hd
      cases hs : saveOn id d.op with
      | none => exact Or.inl ⟨hd, rfl⟩
      | some s =>
        cases hp : p s with
        | true => exact Or.inr (Or.inl (Or.inl (Or.inr ⟨hd, hp⟩)))
        | false => exact Or.inr (Or.inr ⟨hd, by simp [hp]⟩)
  rw [onNode_append, List.foldl_append, foldl_of_no_save fun d hd => by
    simpa using (List.mem_filter.1 hd).2] at hrun
  simpa only [onNode_append, hon, hon', onNode_filter_saves, List.map_append] using hrun

/-- The record that some save leaves. -/
theorem OneRecord.exists_record (h : OneRecord ops id r) (hs : s ∈ saves ops id) :
    ∃ c, r = some c ∧ c.docId = none := by
  have hrun := h.saves_first (fun _ => true) [s] [] (by simpa using hs) (by simp)
  rw [List.cons_append, List.cons_append, List.cons_append, List.map_cons, List.foldl_cons] at hrun
  have hfresh : applyRecord none (s.op id) = some s.fresh := rfl
  rw [hfresh, foldl_op] at hrun
  exact ⟨_, hrun.symm, docId_foldl _ _⟩

/-- All saves of the final cid are the final content. -/
theorem OneRecord.eq_of_cid (h : OneRecord ops id (some c)) (hs : s ∈ saves ops id)
    (hcid : s.cid = c.cid) : c.size = s.size ∧ c.mtimeMs = s.mtimeMs := by
  have hrun := h.saves_first (fun x => x.cid = c.cid) [s] [] (by simpa using hs) (by simp)
  have hfresh : applyRecord none (s.op id) = some s.fresh := rfl
  rw [List.append_nil, List.cons_append, List.cons_append, List.nil_append, List.map_cons,
    List.foldl_cons, hfresh, foldl_op, List.foldl_append, foldl_of_cid (c := s.fresh) fun x hx => by
      rw [show s.fresh.cid = c.cid from hcid]
      simpa using (List.mem_filter.1 hx).2] at hrun
  have hrun := Option.some_injective _ hrun
  have hkept := unchanged_of_cid (c := { s.fresh with mode := _ }) (fun x hx => ?_)
    ((congrArg FileContent.cid hrun).trans hcid.symm)
  · rw [hrun] at hkept
    exact hkept
  · rw [show (({ s.fresh with mode := _ } : FileContent)).cid = c.cid from hcid]
    simpa using (List.mem_filter.1 hx).2

/-- The final cid is that of a save. -/
theorem OneRecord.exists_cid (h : OneRecord ops id (some c)) (hs : s ∈ saves ops id) :
    ∃ s' ∈ saves ops id, s'.cid = c.cid := by
  by_contra hnone
  have hne : ∀ x ∈ saves ops id, x.cid ≠ c.cid := fun x hx hcid => hnone ⟨x, hx, hcid⟩
  have hrun := h.saves_first (fun _ => true) [s] [] (by simpa using hs) (by simp)
  have hfresh : applyRecord none (s.op id) = some s.fresh := rfl
  rw [List.cons_append, List.cons_append, List.cons_append, List.map_cons, List.foldl_cons, hfresh,
    foldl_op] at hrun
  refine cid_foldl_ne (c := s.fresh) (fun x hx => ?_) (hne s hs)
    (congrArg FileContent.cid (Option.some_injective _ hrun))
  simp only [List.nil_append, List.append_nil, List.mem_append, List.mem_filter] at hx
  exact hne x (hx.elim And.left And.left)

theorem OneRecord.loses (h : OneRecord ops id (some c)) (hs : s ∈ saves ops id)
    (hne : s.cid ≠ c.cid) : s.Loses (current c) ∧ ∃ v, c.versions.getLast? = some v ∧ v.cid = s.cid :=
  loses_of_applySave_eq (Option.some_injective _ (h.stable (mem_saves.1 hs) rfl)) hne

theorem OneRecord.cid_eq (h : OneRecord ops id (some c)) (hs : s ∈ saves ops id)
    (hs' : s' ∈ saves ops id) (hne : s.cid ≠ c.cid) (hne' : s'.cid ≠ c.cid) : s.cid = s'.cid := by
  obtain ⟨-, v, hv, hcid⟩ := h.loses hs hne
  obtain ⟨-, v', hv', hcid'⟩ := h.loses hs' hne'
  obtain rfl := Option.some_injective _ (hv.symm.trans hv')
  exact hcid.symm.trans hcid'

/-- A save that lost is the only version. -/
theorem OneRecord.versions_eq (h : OneRecord ops id (some c)) (hs : s ∈ saves ops id)
    (hne : s.cid ≠ c.cid) : c.versions = [s.version] := by
  obtain ⟨w, hw, hwc⟩ := h.exists_cid hs
  obtain ⟨-, hmtime⟩ := h.eq_of_cid hw hwc
  have hloses : ∀ {x : Save} {c' : FileContent}, x ∈ saves ops id → x.cid ≠ c.cid → c'.cid = w.cid →
      c'.mtimeMs = w.mtimeMs → x.Loses (current c') := by
    intro x c' hx hxc hcid' hmtime'
    have hl := (h.loses hx hxc).1
    rwa [current, ← hwc, hmtime, Save.Loses, ← hcid', ← hmtime'] at hl
  -- the saves of the final cid come first, then `s`, then the others
  have hrun := h.saves_first (fun x => x.cid = c.cid) [w] [s] (by simpa using hw) (by simpa using hs)
  have hfresh : applyRecord none (w.op id) = some w.fresh := rfl
  rw [List.cons_append, List.cons_append, List.cons_append, List.nil_append, List.map_cons,
    List.foldl_cons, hfresh, foldl_op, List.foldl_append, List.foldl_append,
    foldl_of_cid (c := w.fresh) fun x hx => by
      rw [show w.fresh.cid = c.cid from hwc]
      simpa using (List.mem_filter.1 hx).2, List.foldl_cons, List.foldl_nil,
    applySave_of_loses (c := { w.fresh with mode := _ }) (hwc ▸ hne) (hloses hs hne rfl rfl),
    pushVersion_of_nil rfl] at hrun
  rw [← Option.some_injective _ hrun]
  refine versions_foldl (v := s.version) (fun x hx => ?_) (hwc ▸ hne) rfl
  obtain ⟨hx, hxc⟩ := List.mem_filter.1 hx
  have hxc : x.cid ≠ c.cid := by simpa using hxc
  exact ⟨h.cid_eq hx hs hxc hne, hloses hx hxc rfl rfl⟩

theorem OneRecord.orderFree (h : OneRecord ops id r) : OrderFree (ops.map StampedContentOp.op) id := by
  have hrec : ∀ {s : Save}, s.op id ∈ ops.map StampedContentOp.op → ∃ c, r = some c ∧ c.docId = none :=
    fun hs => h.exists_record (mem_saves.2 hs)
  refine ⟨fun s hs => ?_, fun s s' hs hs' => ?_, fun s s' hs hs' hcid => ?_,
    fun s s' s'' hs hs' hs'' => ?_, fun s s' hs hs' hne hlose nowMs hres => ?_⟩ <;>
    obtain ⟨c, rfl, hdoc⟩ := hrec hs
  · refine ⟨fun hrem => ?_, fun docId hset => ?_⟩
    · cases h.stable hrem rfl
    · have hdoc' := congrArg FileContent.docId (Option.some_injective _ (h.stable hset rfl))
      rw [hdoc] at hdoc'
      cases hdoc'
  · have hmode : ∀ {x : Save}, x.op id ∈ ops.map StampedContentOp.op → x.mode = c.mode := by
      intro x hx
      have hstep : applySave c x = c := Option.some_injective _ (h.stable hx rfl)
      rw [← mode_applySave c x, hstep]
    exact (hmode hs).trans (hmode hs').symm
  · by_cases hc : s.cid = c.cid
    · obtain ⟨hsize, hmtime⟩ := h.eq_of_cid (mem_saves.2 hs) hc
      obtain ⟨hsize', hmtime'⟩ := h.eq_of_cid (mem_saves.2 hs') (hcid.symm.trans hc)
      exact ⟨hsize.symm.trans hsize', hmtime.symm.trans hmtime'⟩
    · have hv := h.versions_eq (mem_saves.2 hs) hc
      have hv' := h.versions_eq (mem_saves.2 hs') (hcid ▸ hc)
      have heq := List.singleton_inj.1 (hv.symm.trans hv')
      exact ⟨congrArg Version.size heq, congrArg Version.setAtMs heq⟩
  · by_contra hne
    obtain ⟨hab, hac, hbc⟩ : s.cid ≠ s'.cid ∧ s.cid ≠ s''.cid ∧ s'.cid ≠ s''.cid := by simpa using hne
    replace hs := mem_saves.2 hs
    replace hs' := mem_saves.2 hs'
    replace hs'' := mem_saves.2 hs''
    -- at most one of the three is the final cid
    by_cases hc : s.cid = c.cid
    · exact hbc (h.cid_eq hs' hs'' (hc ▸ hab.symm) (hc ▸ hac.symm))
    · by_cases hc' : s'.cid = c.cid
      · exact hac (h.cid_eq hs hs'' hc (hc' ▸ hbc.symm))
      · exact hab (h.cid_eq hs hs' hc hc')
  · have hc : s.cid ≠ c.cid := by
      intro hc
      have hl := (h.loses (mem_saves.2 hs') (hc ▸ hne.symm)).1
      obtain ⟨-, hmtime⟩ := h.eq_of_cid (mem_saves.2 hs) hc
      rw [current, ← hc, hmtime] at hl
      exact hlose.asymm hl
    have hcid := congrArg FileContent.cid (Option.some_injective _ (h.stable hres rfl))
    simp only [FileContent.restore, h.versions_eq (mem_saves.2 hs) hc, Save.version,
      List.find?_cons, decide_true] at hcid
    exact hc hcid

/-! ## The browser and the core -/

theorem getElem?_applyContentOps (replica : ReplicaId) (ds : List StampedContentOp) (id : NodeId) :
    (((DriveCrdt.new replica).applyContentOps ds).content)[id]? =
      (onNode id ds).foldl applyRecord none := by
  rw [DriveCrdt.content_applyContentOps, getElem?_foldl, onNode]
  simp [DriveCrdt.new]

/-- The core's fold is the browser's, of the sorted operations. -/
theorem map_plain_foldContent (ops : List StampedContentOp) (id : NodeId) :
    (foldContent ops)[id]?.map plain =
      (onNode id (ops.insertionSort fun a b => a.ts ≤ b.ts)).foldl applyRecord none := by
  have hagree : Agree ∅ (∅ : ContentMap) := fun id => by simp
  have h := agree_foldl hagree
    ((ops.insertionSort fun a b => a.ts ≤ b.ts).map StampedContentOp.op) id
  have hfold : foldContent ops = ((ops.insertionSort fun a b => a.ts ≤ b.ts).map
      StampedContentOp.op).foldl CeDrive.ContentMap.apply ∅ := by
    rw [foldContent, List.foldl_map]
  rw [hfold, ← h, getElem?_foldl, onNode]
  simp

/-- Browser and core. Let `ops` be stamped content operations. In every sequence that delivers
each of them at least once, and nothing else, the browser's content agrees with the core's
fold of `ops` in ascending timestamp order exactly if the operations on each node leave one
record in every order. -/
theorem agree_iff_orderFree (ops : List StampedContentOp) :
    (∀ (replica : ReplicaId) (ds : List StampedContentOp), (∀ s, s ∈ ds ↔ s ∈ ops) →
      Agree (foldContent ops) ((DriveCrdt.new replica).applyContentOps ds).content) ↔
      ∀ id, OrderFree (ops.map StampedContentOp.op) id := by
  have hsorted : ∀ s, s ∈ (ops.insertionSort fun a b => a.ts ≤ b.ts) ↔ s ∈ ops :=
    fun s => List.mem_insertionSort _
  constructor
  · intro h id
    refine OneRecord.orderFree (r := (foldContent ops)[id]?.map plain) fun ds hds => ?_
    rw [← getElem?_applyContentOps "" ds id]
    exact h "" ds hds id
  · intro h replica ds hds id
    have hon : ∀ {ds : List StampedContentOp}, (∀ s, s ∈ ds ↔ s ∈ ops) → ∀ op ∈ onNode id ds,
        op ∈ ops.map StampedContentOp.op ∧ op.target = id := by
      intro ds hds op hop
      obtain ⟨hop, hid⟩ := List.mem_filter.1 hop
      obtain ⟨s, hs, rfl⟩ := List.mem_map.1 hop
      exact ⟨List.mem_map_of_mem ((hds s).1 hs), by simpa using hid⟩
    rw [getElem?_applyContentOps, map_plain_foldContent]
    refine Settled.unique (h id) (fun op hop => (hon hds op hop).1) (fun op => ?_)
      (settled_foldl (h id) _ (hon hds)) (settled_foldl (h id) _ (hon hsorted))
    simp only [onNode, List.mem_filter, List.mem_map, hds, hsorted]

/-- A removal that arrives before the save it follows is lost. -/
theorem browser_keeps_removed :
    let save : StampedContentOp := ⟨⟨1, "a"⟩, .set "f" "c1" 1 0 100⟩
    let remove : StampedContentOp := ⟨⟨2, "a"⟩, .remove "f"⟩
    save.ts ≠ remove.ts ∧ (∀ s, s ∈ [remove, save] ↔ s ∈ [save, remove]) ∧
      ¬Agree (foldContent [save, remove])
        ((DriveCrdt.new "b").applyContentOps [remove, save]).content := by
  intro save remove
  refine ⟨by decide, fun s => by simp [or_comm], fun h => ?_⟩
  have hf := h "f"
  revert hf
  decide +kernel

end Browser

end CeDrive
