import CeDrive.DriveRun

/-!
# The trash

`empty_trash` and `gc_trash` detach children of the trash to limbo and drop their content
records (`hardDelete`). What that does to the whole subtree is `Inv.hardDelete` : the
listed nodes lose their records, and the nodes now in limbo are those below a listed node,
unless limbo itself is below that node.

Both operations look at the children of the trash only. A file deeper in a trashed
directory keeps its content record when the trash is emptied (`emptyTrash_unpins_iff`), and
goes to limbo with its directory however new it is (`gcTrash_honors_iff`).
-/

open Std SortedLog Forest

namespace CeDrive

namespace DriveTree

/-- Below the trash, at any depth. -/
def InTrash (t : DriveTree) (n : NodeId) : Prop :=
  n ≠ TRASH ∧ Reaches t.parentOf n TRASH

end DriveTree

namespace Drive

variable {d d' : Drive} {n f : NodeId} {ids : List NodeId}

theorem Inv.mem_trashIds (h : d.Inv) : n ∈ d.trashIds ↔ d.tree.parentOf n = some TRASH := by
  have hmem : n ∈ d.trashIds ↔ ∃ r k, (r, n, k) ∈ d.tree.readdir TRASH := by
    simp [trashIds]
  rw [hmem, DriveTree.mem_readdir_iff, DriveTree.parentOf_eq_some]
  constructor
  · rintro ⟨name, hraw, -⟩
    obtain ⟨e, he, hp, -⟩ := h.replayed.mirror.mem_rawChildren.1 hraw
    exact ⟨e, he, hp⟩
  · rintro ⟨e, he, hp⟩
    exact ⟨e.name, h.replayed.mirror.mem_rawChildren.2 ⟨e, he, hp, rfl⟩, Or.inl rfl⟩

/-! ## Hard deletion -/

open Classical in
theorem Inv.parentOf_hardDeleteOne (h : d.Inv) {id : NodeId} (hd : d.hardDeleteOne id = some d') :
    d'.tree.parentOf = if Reaches d.tree.parentOf LIMBO id then d.tree.parentOf
      else Function.update d.tree.parentOf id (some LIMBO) := by
  have htree : d'.tree = (d.moved id LIMBO id (d.tree.kindOf id)).tree := by
    rw [hardDeleteOne_eq_some hd]
    split <;> rfl
  rw [htree, h.tree_moved]
  exact h.replayed.grounded.parentOf_doPush _

/-- One hard deletion drops the record of the node, which it has or has not. -/
theorem getElem?_content_hardDeleteOne {id : NodeId} (hd : d.hardDeleteOne id = some d') (n : NodeId) :
    d'.content[n]? = if id = n then none else d.content[n]? := by
  rw [hardDeleteOne_eq_some hd]
  by_cases hc : (d.content[id]?).isSome = true
  · rw [if_pos hc]
    simp [wrote, moved, pushMove, ContentMap.apply, ExtTreeMap.getElem?_erase]
  · have hsame : (d.moved id LIMBO id (d.tree.kindOf id)).content = d.content := rfl
    rw [if_neg hc, hsame]
    split_ifs with hn
    · simpa [hn] using hc
    · rfl

theorem Inv.hardDeleteOne (h : d.Inv) {id : NodeId} (hd : d.hardDeleteOne id = some d') : d'.Inv := by
  rw [hardDeleteOne_eq_some hd]
  split
  · exact (h.moved ..).wrote _
  · exact h.moved ..

/-- Hard deletion drops the records of the listed nodes, and points to limbo those that
limbo is not below. -/
theorem Inv.hardDelete (h : d.Inv) (hd : d.hardDelete ids = some d') :
    d'.Inv ∧ (∀ n, d'.content[n]? = if n ∈ ids then none else d.content[n]?) ∧
      (∀ n ∈ ids, ¬Reaches d.tree.parentOf LIMBO n → d'.tree.parentOf n = some LIMBO) ∧
      ∀ n, ¬(n ∈ ids ∧ ¬Reaches d.tree.parentOf LIMBO n) → d'.tree.parentOf n = d.tree.parentOf n := by
  induction ids generalizing d with
  | nil =>
    obtain rfl := Option.some_injective _ hd
    exact ⟨h, by simp, by simp, fun _ _ => rfl⟩
  | cons id ids ih =>
    obtain ⟨d₁, h₁, hd⟩ := Runs.cons_eq_some.1 hd
    obtain ⟨hinv, hcontent, hmoved, hkept⟩ := ih (h.hardDeleteOne h₁) hd
    have hparent := h.parentOf_hardDeleteOne h₁
    -- the move is skipped if limbo is below the node, so the ancestors of limbo stay
    have hlimbo : ∀ a, Reaches d₁.tree.parentOf LIMBO a ↔ Reaches d.tree.parentOf LIMBO a := by
      intro a
      rw [hparent]
      split_ifs with hr
      · rfl
      · exact reaches_update_of_not_reaches hr
    simp only [hlimbo] at hmoved hkept
    refine ⟨hinv, fun n => ?_, fun n hn hl => ?_, fun n hn => ?_⟩
    · rw [hcontent, getElem?_content_hardDeleteOne h₁]
      by_cases hid : id = n <;> simp [hid, eq_comm]
    · by_cases hids : n ∈ ids
      · exact hmoved n hids hl
      · obtain rfl := (List.mem_cons.1 hn).resolve_right hids
        rw [hkept n fun hc => hids hc.1, hparent, if_neg hl, Function.update_self]
    · rw [hkept n fun hc => hn ⟨List.mem_cons_of_mem _ hc.1, hc.2⟩, hparent]
      split_ifs with hr
      · rfl
      · refine Function.update_of_ne ?_ _ _
        rintro rfl
        exact hn ⟨List.mem_cons_self, hr⟩

/-- A node is in limbo after a hard deletion of trashed nodes if it was before, or is at or
below one of them that limbo is not below. -/
theorem Inv.isLimbo_hardDelete (h : d.Inv) (hd : d.hardDelete ids = some d')
    (hids : ∀ id ∈ ids, d.tree.parentOf id = some TRASH) :
    d'.tree.isLimbo f = true ↔ d.tree.isLimbo f = true ∨
      ∃ a ∈ ids, ¬Reaches d.tree.parentOf LIMBO a ∧ Reaches d.tree.parentOf f a := by
  obtain ⟨hinv, -, hmoved, hkept⟩ := h.hardDelete hd
  rw [DriveTree.isLimbo, DriveTree.isLimbo, hinv.replayed.grounded.isAncestor_iff,
    h.replayed.grounded.isAncestor_iff,
    reaches_redirect h.replayed.grounded (s := {a | a ∈ ids ∧ ¬Reaches d.tree.parentOf LIMBO a})
      (fun a ha => hids a ha.1) (fun a ha => hmoved a ha.1 ha.2) hkept]
  simp only [Set.mem_ofPred_eq, and_assoc]

/-! ## Emptying the trash -/

/-- After `d` becomes `d'`, no node that was in the trash subtree has a content record, and
every cid still referenced was referenced by a node outside it. -/
def Unpins (d d' : Drive) : Prop :=
  (∀ n, d.tree.InTrash n → d'.content[n]? = none) ∧
    ∀ cid ∈ d'.content.allCids, ∃ n c,
      ¬d.tree.InTrash n ∧ d.content[n]? = some c ∧ cid ∈ c.allCids

/-- `empty_trash` unpins the whole trash subtree exactly when no node more than one level
below the trash has a content record. -/
theorem emptyTrash_unpins_iff (h : d.Reachable) (he : d.emptyTrash = some (ids, d')) :
    Unpins d d' ↔
      ∀ n, d.tree.InTrash n → d.tree.parentOf n ≠ some TRASH → d.content[n]? = none := by
  have hinv := h.inv
  obtain ⟨d₁, hd, he⟩ := Option.bind_eq_some_iff.1 he
  obtain ⟨rfl, rfl⟩ := Prod.mk.inj (Option.some_injective _ he)
  obtain ⟨-, hcontent, -⟩ := hinv.hardDelete hd
  simp only [hinv.mem_trashIds] at hcontent
  constructor
  · intro hu n hn hdeep
    have hnone := hu.1 n hn
    rwa [hcontent, if_neg hdeep] at hnone
  · intro hdeep
    have hnone : ∀ n, d.tree.InTrash n → d₁.content[n]? = none := by
      intro n hn
      rw [hcontent]
      split_ifs with htop
      · rfl
      · exact hdeep n hn htop
    refine ⟨hnone, fun cid hcid => ?_⟩
    obtain ⟨n, c, hc, hmem⟩ := ContentMap.mem_allCids.1 hcid
    refine ⟨n, c, fun hn => ?_, ?_, hmem⟩
    · rw [hnone n hn] at hc
      cases hc
    · rw [hcontent] at hc
      split_ifs at hc
      exact hc

/-- A directory holding a file, in the trash. -/
def nestedTrash : List Event :=
  [.exec 0 (.mkdir "/" "d"), .exec 1 (.addFile "/d" "f" (.new "c1" 1 0 5000000)), .exec 2 (.rm "/d")]

/-- The file in a trashed directory. -/
def nestedFile : NodeId := "00000000000200000001"

theorem inTrash_of_isTrashed (h : d.Inv) (hn : n ≠ TRASH) (ht : d.tree.isTrashed n = true) :
    d.tree.InTrash n :=
  ⟨hn, h.replayed.grounded.isAncestor_iff.1 ht⟩

/-- Emptying the trash leaves the record of the file. -/
theorem emptyTrash_not_unpins :
    let d := ((init "d" "a").performAll nestedTrash).get (by decide +kernel)
    let r := d.emptyTrash.get (by decide +kernel)
    d.Reachable ∧ ¬Unpins d r.2 := by
  intro d r
  have hr : d.Reachable := ⟨"d", "a", nestedTrash, (Option.some_get _).symm⟩
  refine ⟨hr, fun hu => ?_⟩
  obtain ⟨htrashed, hsome⟩ : d.tree.isTrashed nestedFile = true ∧
      (r.2.content[nestedFile]?).isSome = true := by
    decide +kernel
  have hnone := hu.1 nestedFile (inTrash_of_isTrashed hr.inv (by decide) htrashed)
  rw [hnone] at hsome
  cases hsome

/-- With the file alone in the trash the record is dropped. -/
theorem emptyTrash_unpins_iff_file :
    let d := ((init "d" "a").performAll
      [.exec 0 (.addFile "/" "f" (.new "c1" 1 0 100)), .exec 1 (.rm "/f")]).get (by decide +kernel)
    let r := d.emptyTrash.get (by decide +kernel)
    Unpins d r.2 ↔
      ∀ n, d.tree.InTrash n → d.tree.parentOf n ≠ some TRASH → d.content[n]? = none := by
  intro d r
  exact emptyTrash_unpins_iff ⟨"d", "a", _, (Option.some_get _).symm⟩ (Option.some_get _).symm

/-! ## Collecting the trash -/

/-- A file in the trash subtree whose current content is later than the cutoff. -/
def Retained (d : Drive) (cutoffMs : ℕ) (f : NodeId) : Prop :=
  d.tree.InTrash f ∧ d.tree.kindOf f = .file ∧
    ∃ c, d.content[f]? = some c ∧ cutoffMs < c.mtimeMs

/-- No retained file of `d` is newly in limbo in `d'`. -/
def HonorsRetention (d d' : Drive) (cutoffMs : ℕ) : Prop :=
  ∀ f, d.Retained cutoffMs f → d'.tree.isLimbo f = true → d.tree.isLimbo f = true

theorem gcVictim_eq_false {cutoffMs : ℕ} :
    d.gcVictim cutoffMs n = false ↔ ∃ c, d.content[n]? = some c ∧ cutoffMs < c.mtimeMs := by
  unfold gcVictim
  cases d.content[n]? <;> simp

/-- `gc_trash` honours the retention exactly when every retained file that is not in limbo
lies in a trashed item that has content later than the cutoff itself, or that limbo is
below. -/
theorem gcTrash_honors_iff {nowSecs retentionSecs : ℕ} (h : d.Reachable) (hret : 0 < retentionSecs)
    (hgc : d.gcTrash nowSecs retentionSecs = some (ids, d')) :
    HonorsRetention d d' (gcCutoffMs nowSecs retentionSecs) ↔
      ∀ f, d.Retained (gcCutoffMs nowSecs retentionSecs) f → d.tree.isLimbo f = false →
        ∀ a, d.tree.parentOf a = some TRASH → Reaches d.tree.parentOf f a →
          (∃ c, d.content[a]? = some c ∧ gcCutoffMs nowSecs retentionSecs < c.mtimeMs) ∨
            d.tree.isAncestor a LIMBO = true := by
  have hinv := h.inv
  unfold gcTrash at hgc
  rw [if_neg hret.ne'] at hgc
  obtain ⟨d₁, hd, hgc⟩ := Option.bind_eq_some_iff.1 hgc
  obtain ⟨rfl, rfl⟩ := Prod.mk.inj (Option.some_injective _ hgc)
  have hlimbo := fun f => hinv.isLimbo_hardDelete (f := f) hd fun id hid =>
    hinv.mem_trashIds.1 (List.mem_of_mem_filter hid)
  refine forall_congr' fun f => imp_congr_right fun _ => ?_
  rw [hlimbo, or_imp, and_iff_right id]
  constructor
  · intro hkeep hnot a ha hfa
    by_contra hnone
    obtain ⟨hold, habove⟩ := not_or.1 hnone
    rw [← gcVictim_eq_false, Bool.not_eq_false] at hold
    rw [hinv.replayed.grounded.isAncestor_iff] at habove
    have hmem := List.mem_filter.2 ⟨hinv.mem_trashIds.2 ha, hold⟩
    simp [hkeep ⟨a, hmem, habove, hfa⟩] at hnot
  · rintro hkeep ⟨a, hmem, habove, hfa⟩
    obtain ⟨ha, hold⟩ := List.mem_filter.1 hmem
    by_contra hnot
    rcases hkeep (by simpa using hnot) a (hinv.mem_trashIds.1 ha) hfa with hnew | hl
    · rw [gcVictim_eq_false.2 hnew] at hold
      cases hold
    · exact habove (hinv.replayed.grounded.isAncestor_iff.1 hl)

/-- Ten seconds of retention at the time of the save take the file along with its
directory. -/
theorem gcTrash_not_honors :
    let d := ((init "d" "a").performAll nestedTrash).get (by decide +kernel)
    let r := (d.gcTrash 5000 10).get (by decide +kernel)
    d.Reachable ∧ ¬HonorsRetention d r.2 (gcCutoffMs 5000 10) := by
  intro d r
  have hr : d.Reachable := ⟨"d", "a", nestedTrash, (Option.some_get _).symm⟩
  refine ⟨hr, fun hh => ?_⟩
  obtain ⟨htrashed, hkind, hcontent, hlimbo, hlive⟩ : d.tree.isTrashed nestedFile = true ∧
      d.tree.kindOf nestedFile = .file ∧
      d.content[nestedFile]? = some (.new "c1" 1 0 5000000) ∧
      r.2.tree.isLimbo nestedFile = true ∧ d.tree.isLimbo nestedFile ≠ true := by
    decide +kernel
  have hretained : d.Retained (gcCutoffMs 5000 10) nestedFile :=
    ⟨inTrash_of_isTrashed hr.inv (by decide) htrashed, hkind, _, hcontent, by decide⟩
  exact hlive (hh nestedFile hretained hlimbo)

/-- A file alone in the trash is retained. -/
theorem gcTrash_honors_iff_file :
    let d := ((init "d" "a").performAll
      [.exec 0 (.addFile "/" "f" (.new "c1" 1 0 5000000)), .exec 1 (.rm "/f")]).get (by decide +kernel)
    let r := (d.gcTrash 5000 10).get (by decide +kernel)
    HonorsRetention d r.2 (gcCutoffMs 5000 10) ↔
      ∀ f, d.Retained (gcCutoffMs 5000 10) f → d.tree.isLimbo f = false →
        ∀ a, d.tree.parentOf a = some TRASH → Reaches d.tree.parentOf f a →
          (∃ c, d.content[a]? = some c ∧ gcCutoffMs 5000 10 < c.mtimeMs) ∨
            d.tree.isAncestor a LIMBO = true := by
  intro d r
  exact gcTrash_honors_iff ⟨"d", "a", _, (Option.some_get _).symm⟩ (by decide)
    (Option.some_get _).symm

end Drive

end CeDrive
