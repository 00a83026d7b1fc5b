import CeDrive.LocalMove
import CeDrive.Reserved

/-!
# Moved, deleted, restored

`mv`, `rm` and `restore` each append one move. The tree skips a move that would put a node
under itself, and `mv` does not look : it answers `Ok` also then, so it has moved the node
exactly if the destination is not below it (`mv_moves_iff`). A node can always go to the
trash, and back to the directory it came from, so a deletion and a restore there cancel
(`edges_restore_rm`).
-/

open Std (ExtTreeMap)
open Forest

namespace CeDrive

namespace Drive

variable {d d' d₁ d₂ : Drive} {n q : NodeId} {path src dstParent dstName r : String} {e : Edge}

/-! ## Moving -/

/-- What `mv` should do : if it answers `Ok`, the node has its new parent and name, and all
other edges are as before; if the destination is the node or below it, it answers `Err` and
the drive is as before. -/
structure MovesAsAsked (d : Drive) (src dstParent dstName : String) : Prop where
  moves : ∀ d', d.mv src dstParent dstName = some (.ok (), d') → ∃ n q,
    d.tree.resolve src = some n ∧ d.tree.resolve dstParent = some q ∧
      (∃ e, d'.tree.edges[n]? = some e ∧ e.parent = q ∧ e.name = dstName) ∧
      ∀ m, m ≠ n → d'.tree.edges[m]? = d.tree.edges[m]?
  refuses : ∀ n q, d.tree.resolve src = some n → d.tree.resolve dstParent = some q →
    d.tree.isAncestor n q = true → ∃ err, d.mv src dstParent dstName = some (.error err, d)

/-- `mv` does what it should exactly if the directory it finds is not the node, nor below
it. -/
theorem mv_moves_iff (d : Drive) (h : d.Reachable) (src dstParent dstName : String) :
    d.MovesAsAsked src dstParent dstName ↔ ∀ n q, d.mvCheck src dstParent dstName = .ok (n, q) →
      d.tree.isAncestor n q = false := by
  have hinv := h.inv
  constructor
  · intro hmv n q hc
    obtain ⟨-, hnode, hdir⟩ := mvCheck_eq_ok hc
    by_contra hbelow
    obtain ⟨err, hr⟩ := hmv.refuses n q (resolveNode_eq_ok hnode).1 (resolveDir_eq_ok hdir).1
      (by simpa using hbelow)
    obtain ⟨e, he, -⟩ | ⟨n', q', -, heq⟩ := mv_eq_some hr
    · rw [hc] at he
      cases he
    · cases (Prod.mk.inj heq).1
  · intro hclear
    refine ⟨fun d' hr => ?_, fun n q hn hq hbelow => ?_⟩
    · obtain ⟨e, -, heq⟩ | ⟨n, q, hc, heq⟩ := mv_eq_some hr
      · cases (Prod.mk.inj heq).1
      · obtain rfl := (Prod.mk.inj heq).2
        obtain ⟨-, hnode, hdir⟩ := mvCheck_eq_ok hc
        have hmoved := DriveTree.moved_of_inv hinv n q dstName (d.tree.kindOf n)
        have hup : ¬Reaches d.tree.parentOf q n := by
          rw [← hinv.replayed.grounded.isAncestor_iff, hclear n q hc]
          exact Bool.false_ne_true
        exact ⟨n, q, (resolveNode_eq_ok hnode).1, (resolveDir_eq_ok hdir).1,
          ⟨_, hmoved.edge_self hup, rfl, rfl⟩, fun m hm => hmoved.edge_of_ne hm⟩
    · cases hc : d.mvCheck src dstParent dstName with
      | error err => exact ⟨err, by rw [mv, hc]⟩
      | ok r =>
        obtain ⟨-, hnode, hdir⟩ := mvCheck_eq_ok hc
        obtain rfl := Option.some_injective _ (hn.symm.trans (resolveNode_eq_ok hnode).1)
        obtain rfl := Option.some_injective _ (hq.symm.trans (resolveDir_eq_ok hdir).1)
        rw [hclear _ _ hc] at hbelow
        cases hbelow

theorem eq_ok_of_isOk {ε : Type*} {res : Except ε Unit} (h : res.isOk = true) : res = .ok () := by
  cases res with
  | error => cases h
  | ok => rfl

/-- Two directories, one in the other. -/
def nestedDirs : List Event :=
  [.exec 0 (.mkdir "/" "a"), .exec 1 (.mkdir "/a" "b")]

theorem mv_moves_iff_nested : ∃ d : Drive, (init "d" "a").performAll nestedDirs = some d ∧
    (d.mvCheck "/a/b" "/" "c").isOk = true ∧ d.MovesAsAsked "/a/b" "/" "c" := by
  have hrun : ((init "d" "a").performAll nestedDirs).any (fun d =>
      (d.mvCheck "/a/b" "/" "c").isOk && (d.mvCheck "/a/b" "/" "c").toOption.all fun r =>
        !d.tree.isAncestor r.1 r.2) = true := by
    decide +kernel
  obtain ⟨d, hd, hrun⟩ := (Option.any_eq_true _ _).1 hrun
  obtain ⟨hok, hclear⟩ := (Bool.and_eq_true _ _).mp hrun
  refine ⟨d, hd, hok, (mv_moves_iff d ⟨"d", "a", nestedDirs, hd⟩ "/a/b" "/" "c").2 fun n q hc => ?_⟩
  simpa [hc, Except.toOption] using hclear

/-- A directory moved into a directory of its own : `Ok`, and nothing has moved. -/
theorem mv_into_itself : ∃ d : Drive, d.Reachable ∧ ¬d.MovesAsAsked "/a" "/a/b" "c" := by
  have hrun : ((init "d" "a").performAll nestedDirs).any (fun d =>
      (d.mv "/a" "/a/b" "c").any fun r => r.1.isOk && (d.tree.resolve "/a").any fun n =>
        decide (r.2.tree.edges[n]? = d.tree.edges[n]?) &&
          (d.tree.edges[n]?).any fun e => e.name ≠ "c") = true := by
    decide +kernel
  obtain ⟨d, hd, hmv⟩ := (Option.any_eq_true _ _).1 hrun
  obtain ⟨⟨res, d'⟩, hr, hmv⟩ := (Option.any_eq_true _ _).1 hmv
  refine ⟨d, ⟨"d", "a", nestedDirs, hd⟩, fun hasked => ?_⟩
  obtain ⟨hok, hmv⟩ := (Bool.and_eq_true _ _).mp hmv
  obtain rfl : res = .ok () := eq_ok_of_isOk hok
  obtain ⟨n, hn, hmv⟩ := (Option.any_eq_true _ _).1 hmv
  obtain ⟨n', q, hn', -, ⟨e, he, -, hname⟩, -⟩ := hasked.moves d' hr
  obtain rfl := Option.some_injective _ (hn.symm.trans hn')
  simp only [Bool.and_eq_true, decide_eq_true_eq] at hmv
  rw [← hmv.1, he] at hmv
  simp [hname] at hmv

/-! ## Deleting and restoring -/

/-- A node with an edge is not above the trash. -/
theorem not_reaches_of_reservedFree {t : DriveTree} (hfree : t.ReservedFree)
    (he : t.edges[n]? = some e) : ¬Reaches t.parentOf TRASH n := by
  intro hr
  have htop := hfree.parentOf_eq_none (Or.inr (Or.inl rfl) : Reserved TRASH)
  exact hfree.not_reserved he (Or.inr (Or.inl (hr.eq_of_top htop)))

/-- A node deleted by path and restored, under its name, to a path of the directory it was in :
the edges, all paths and the content are as before. -/
theorem edges_restore_rm (d : Drive) (h : d.Reachable) (hfree : d.tree.ReservedFree)
    {path : String} {n q : NodeId} {e : Edge} (hn : d.tree.resolve path = some n)
    (hroot : n ≠ ROOT) (he : d.tree.edges[n]? = some e) (hq : e.parent = q) {d₁ d₂ : Drive}
    (hrm : d.rm path = some (.ok (), d₁)) {r : String}
    (hrestore : d₁.restore n (some r) (some e.name) = some (.ok (), d₂))
    (hr : d₁.tree.resolve r = some q) :
    d₂.tree.edges = d.tree.edges ∧ (∀ m, d₂.tree.path m = d.tree.path m) ∧
      d₂.content = d.content := by
  subst hq
  have hinv := h.inv
  obtain ⟨err, -, heq⟩ | ⟨n', hc, heq⟩ := rm_eq_some hrm
  · cases (Prod.mk.inj heq).1
  obtain rfl := Option.some_injective _ (hn.symm.trans (resolveNode_eq_ok hc).1)
  have hd₁ : d₁ = d.moved n TRASH (d.nameOf n) (d.tree.kindOf n) := (Prod.mk.inj heq).2
  have hinv₁ : d₁.Inv := hinv.rm hrm
  -- to the trash : the trash is not below the node
  have hgone := DriveTree.moved_of_inv hinv n TRASH (d.nameOf n) (d.tree.kindOf n)
  rw [← hd₁] at hgone
  have hkind : d₁.tree.kindOf n = e.kind := by
    rw [DriveTree.kindOf_of_edge (hgone.edge_self (not_reaches_of_reservedFree hfree he)),
      DriveTree.kindOf_of_edge he]
  obtain ⟨err, -, heq'⟩ | ⟨p, name, hc', -, heq'⟩ := restore_eq_some hrestore
  · cases (Prod.mk.inj heq').1
  obtain rfl := (Prod.mk.inj heq').2
  obtain ⟨-, -, hdir, -, rfl⟩ := restoreCheck_eq_ok hc'
  obtain rfl := Option.some_injective _ (hr.symm.trans (resolveDir_eq_ok hdir).1)
  -- back : its old directory is not below it
  have hup : ¬Reaches d.tree.parentOf e.parent n :=
    hinv.replayed.grounded.not_reaches_of_up (DriveTree.parentOf_of_edge he)
  have hback := DriveTree.moved_of_inv hinv₁ n e.parent e.name (d₁.tree.kindOf n)
  have hedges : (d₁.moved n e.parent e.name (d₁.tree.kindOf n)).tree.edges = d.tree.edges := by
    refine ExtTreeMap.ext_getElem? fun m => ?_
    by_cases hm : m = n
    · subst hm
      rw [hback.edge_self ((hgone.reaches_iff hup).not.2 hup), hkind, he]
    · rw [hback.edge_of_ne hm, hgone.edge_of_ne hm]
  refine ⟨hedges, fun m => ?_, hd₁ ▸ rfl⟩
  simp only [DriveTree.path, Option.getD_some, hedges]

theorem edges_restore_rm_nested : ∃ d d₁ d₂ : Drive, d.rm "/a" = some (.ok (), d₁) ∧
    d₁.restore "00000000000100000000" (some "/") (some "a") = some (.ok (), d₂) ∧
    d₂.tree.edges = d.tree.edges ∧ (∀ m, d₂.tree.path m = d.tree.path m) ∧
    d₂.content = d.content := by
  have hrun : ((init "d" "a").performAll nestedDirs).any (fun d => (d.rm "/a").any fun r =>
      (r.2.restore "00000000000100000000" (some "/") (some "a")).any fun r' =>
        (r.1.isOk && r'.1.isOk) && decide (
          d.tree.resolve "/a" = some "00000000000100000000" ∧
          d.tree.edges["00000000000100000000"]? = some ⟨ROOT, "a", .dir⟩ ∧
          d.tree.edges[ROOT]? = none ∧ d.tree.edges[TRASH]? = none ∧
          d.tree.edges[LIMBO]? = none ∧ r.2.tree.resolve "/" = some ROOT)) = true := by
    decide +kernel
  obtain ⟨d, hd, hrun⟩ := (Option.any_eq_true _ _).1 hrun
  obtain ⟨⟨res, d₁⟩, hrm, hrun⟩ := (Option.any_eq_true _ _).1 hrun
  obtain ⟨⟨res', d₂⟩, hrestore, hrun⟩ := (Option.any_eq_true _ _).1 hrun
  simp only [Bool.and_eq_true, decide_eq_true_eq] at hrun
  obtain ⟨⟨hok, hok'⟩, hn, he, hroot, htrash, hlimbo, hr⟩ := hrun
  obtain rfl : res = .ok () := eq_ok_of_isOk hok
  obtain rfl : res' = .ok () := eq_ok_of_isOk hok'
  have hfree : d.tree.ReservedFree := by
    rintro n (rfl | rfl | rfl)
    · exact hroot
    · exact htrash
    · exact hlimbo
  exact ⟨d, d₁, d₂, hrm, hrestore, edges_restore_rm d ⟨"d", "a", nestedDirs, hd⟩ hfree hn
    (by decide) he rfl hrm hrestore hr⟩

end Drive

end CeDrive
