import CeDrive.FreshIds
import CeDrive.LocalMove
import CeDrive.Vfs

/-!
# Created paths

`mkdir` and `add_file` look among the bare names of a directory for the name they are given, in
the order of the node ids. `resolve` follows the names that are listed. So the path of what was
created or edited leads to it only if the listing agrees : the file edited is the one moved last
of its name, and no other child has that name for its conflict name (`created_resolves_iff`).
-/

open Std (ExtTreeMap)
open Forest

namespace CeDrive

namespace DriveTree

variable {t t' : DriveTree} {c m n p x : NodeId} {b name path r : String} {k : NodeKind}

/-! ## A tree without one node -/

/-- The tree without the edge of one node. -/
def without (t : DriveTree) (id : NodeId) : DriveTree :=
  { t with children := t.unindex id, edges := t.edges.erase id }

theorem edges_without (t : DriveTree) (c n : NodeId) :
    (t.without c).edges[n]? = if c = n then none else t.edges[n]? := by
  rw [without, ExtTreeMap.getElem?_erase]
  simp

theorem parentOf_without (t : DriveTree) (c : NodeId) :
    (t.without c).parentOf = Function.update t.parentOf c none := by
  funext n
  rw [parentOf, edges_without]
  by_cases hn : n = c
  · simp [hn]
  · rw [Function.update_of_ne hn, if_neg (Ne.symm hn), parentOf]

theorem restricts_without (t : DriveTree) (c : NodeId) :
    Restricts (t.without c).parentOf t.parentOf := by
  intro x y hxy
  rw [parentOf_without] at hxy
  by_cases hx : x = c
  · simp [hx] at hxy
  · rwa [Function.update_of_ne hx] at hxy

theorem Mirror.without (h : t.Mirror) (c : NodeId) : (t.without c).Mirror :=
  h.erase c

theorem Grounded.without (h : t.Grounded) (c : NodeId) : (t.without c).Grounded :=
  (restricts_without t c).acyclic h

theorem not_called_without (h : t.Mirror) : ¬(t.without c).Called x b c := by
  intro hc
  obtain ⟨⟨e, he, -⟩, -⟩ := (h.without c).called_iff.1 hc
  simp [edges_without] at he

/-- A directory that is not below the node shows the same other children. -/
theorem Replayed.called_without_iff (ht : t.Replayed) (hx : ¬Reaches t.parentOf x c) (hm : m ≠ c) :
    (t.without c).Called x b m ↔ t.Called x b m := by
  refine called_iff_of_edge ht.mirror ht.grounded (ht.mirror.without c) (ht.grounded.without c)
    (by rw [edges_without, if_neg (Ne.symm hm)]) fun e he hp => ?_
  subst hp
  rw [parentOf_without, reaches_update_of_not_reaches]
  rw [reaches_iff_of_parent (parentOf_of_edge he)]
  exact not_or.2 ⟨Ne.symm hm, hx⟩

section

variable (h : Moved t t' c p name k) (ht : t.Replayed) (hr : ¬Reaches t.parentOf p c)
include h ht hr

/-- Other directories are listed after the move as without the node. -/
theorem Moved.lookupChild_without (hx : ¬Reaches t.parentOf x c) (hxp : x ≠ p) (r : String) :
    (t.without c).lookupChild x r = t'.lookupChild x r := by
  have hne : ∀ {b m}, (t.without c).Called x b m → m ≠ c := fun hm heq =>
    not_called_without ht.mirror (heq ▸ hm)
  refine lookupChild_congr (fun b m => ?_) (fun b m hm => ?_) (fun b m hm => ?_) r
  · by_cases hm : m = c
    · subst hm
      refine iff_of_false (not_called_without ht.mirror) fun hcalled => ?_
      obtain ⟨⟨e, he, hp, -⟩, -⟩ := h.replayed.mirror.called_iff.1 hcalled
      obtain rfl := Option.some_injective _ ((h.edge_self hr).symm.trans he)
      exact hxp hp.symm
    · rw [ht.called_without_iff hx hm, h.called_iff ht hx hm]
  · exact (h.stamp m (hne hm)).symm
  · rw [kindOf, kindOf, edges_without, if_neg (Ne.symm (hne hm)), h.edge_of_ne (hne hm)]

/-- A path leads to the new directory after the move if it does without the node. -/
theorem Moved.resolve_iff : t'.resolve path = some p ↔ (t.without c).resolve path = some p := by
  have habove : ∀ {x}, Reaches t.parentOf p x → ¬Reaches t.parentOf x c := fun hpx hxc =>
    hr (hpx.trans hxc)
  rw [resolve_eq, resolve_eq]
  constructor
  · refine h.replayed.mirror.resolveFrom_congr h.replayed.grounded fun x r hx hpx => ?_
    exact (h.lookupChild_without ht hr (habove ((h.reaches_iff hr).1 hpx)) hx r).symm
  · refine (ht.mirror.without c).resolveFrom_congr (ht.grounded.without c) fun x r hx hpx => ?_
    exact h.lookupChild_without ht hr (habove ((restricts_without t c).reaches hpx)) hx r

end

/-! ## The name of a new node -/

/-- No child of the directory has `name` for its conflict name. -/
def Unclaimed (t : DriveTree) (p : NodeId) (name : String) : Prop :=
  ∀ b x m, t.Called p b x → t.Called p b m → t.definingTs x < t.definingTs m →
    conflictName b (t.definingTs x) ≠ name

/-- A child is found under its bare name if it was moved last of that name, and no other child
has the name for its conflict name. -/
theorem Replayed.lookupChild_eq_some_iff (h : t.Replayed) (hc : t.Called p name c) :
    t.lookupChild p name = some c ↔
      (∀ m, t.Called p name m → t.definingTs m ≤ t.definingTs c) ∧ t.Unclaimed p name := by
  constructor
  · intro hl
    exact ⟨fun m hm => h.definingTs_le (lists_of_lookupChild hl) hc hm,
      fun b x m hx hm hlt => h.conflictName_ne hl hc hx hm hlt⟩
  · rintro ⟨hmax, hun⟩
    refine h.lookupChild_of_latest hc (fun m hm hne => ?_) hun
    exact lt_of_le_of_ne (hmax m hm) fun heq => hne (h.eq_of_definingTs_eq hm hc heq)

/-- What a new node needs to be found under its name : the directory is not in the trash and not
below the node, and without the node the path leads to it and nothing has the name for its
conflict name. -/
structure Admits (t : DriveTree) (path : String) (p : NodeId) (name : String) (id : NodeId) : Prop where
  live : t.isTrashed p = false
  above : t.isAncestor id p = false
  path : (t.without id).resolve path = some p
  unclaimed : (t.without id).Unclaimed p name

/-- The nodes of a path are as many as its components. -/
theorem Replayed.climb_of_resolve (h : t.Replayed) (hr : t.resolve path = some n) :
    climb t.parentOf (components path).length n = some ROOT := by
  rw [resolve_eq] at hr
  obtain ⟨names, hp, hpre⟩ := h.pathTo_of_resolveFrom .root hr
  rw [← hpre.length_eq]
  exact hp.climb

section

variable (h : Moved t t' c p name k) (ht : t.Replayed) (hres : t.resolve path = some p)
include h ht hres

/-- A node that is put below itself is not found there. -/
theorem Moved.resolve_ne_of_skipped (hr : Reaches t.parentOf p c) :
    (t'.resolve path).bind (fun q => t'.lookupChild q name) ≠ some c := by
  intro hfound
  obtain ⟨q, hq, hl⟩ := Option.bind_eq_some_iff.1 hfound
  obtain ⟨e, he, rfl, -⟩ := h.replayed.mirror.edge_of_lookupChild hl
  have hparent := parentOf_congr (h.skipped hr)
  have hclimb := h.replayed.climb_of_resolve hq
  rw [hparent] at hclimb
  -- from `p` up to `c`, to its parent, and from there as far as the path is long
  obtain ⟨j, hj⟩ := exists_climb_of_reaches hr
  have hup : climb t.parentOf 1 c = some e.parent := by
    rw [climb_succ_of_parent (hparent ▸ parentOf_of_edge he)]
    rfl
  have hlong : climb t.parentOf (j + (1 + (components path).length)) p = some ROOT := by
    rw [climb_add, hj, Option.bind_some, climb_add, hup, Option.bind_some, hclimb]
  have hlen := climb_injective ht.grounded hlong (ht.climb_of_resolve hres)
  omega

variable (hr : ¬Reaches t.parentOf p c)
  (hnew : ∀ m, (name, m) ∈ t.rawChildren p → t.isTrashed m = true)
include hr hnew

/-- It is the only child of its name that is shown. -/
theorem Moved.eq_of_called_name (hm : t'.Called p name m) : m = c := by
  by_contra hne
  obtain ⟨hraw, hs⟩ := mem_shownChildren.1 ((h.called_iff ht hr hne).1 hm)
  rw [Shown, hnew m hraw] at hs
  exact hs.elim (ht.ne_trash_of_resolve hres) fun heq => Bool.noConfusion heq

theorem Moved.unclaimed_iff (hself : t'.Called p name c) :
    t'.Unclaimed p name ↔ (t.without c).Unclaimed p name := by
  have hone : ∀ {m}, t'.Called p name m → m = c := h.eq_of_called_name ht hres hr hnew
  have hcalled : ∀ {b m}, m ≠ c → (t'.Called p b m ↔ (t.without c).Called p b m) := fun hm => by
    rw [h.called_iff ht hr hm, ht.called_without_iff hr hm]
  constructor
  · intro hun b x m hx hm hlt
    have hne : ∀ {m}, (t.without c).Called p b m → m ≠ c := fun hm heq =>
      not_called_without ht.mirror (heq ▸ hm)
    have hxts := h.stamp x (hne hx)
    have hmts := h.stamp m (hne hm)
    have hne' := hun b x m ((hcalled (hne hx)).2 hx) ((hcalled (hne hm)).2 hm)
      (by rw [hxts, hmts]; exact hlt)
    rwa [hxts] at hne'
  · intro hun b x m hx hm hlt
    have hxm : x ≠ m := fun heq => absurd hlt (heq ▸ lt_irrefl _)
    have hxc : x ≠ c := by
      rintro rfl
      obtain rfl := h.replayed.mirror.called_unique hx hself
      exact hxm (hone hm).symm
    have hmc : m ≠ c := by
      rintro rfl
      obtain rfl := h.replayed.mirror.called_unique hm hself
      exact hxm (hone hx)
    rw [h.stamp x hxc, h.stamp m hmc] at hlt
    rw [h.stamp x hxc]
    exact hun b x m ((hcalled hxc).1 hx) ((hcalled hmc).1 hm) hlt

end

/-- The path of a new node leads to it exactly if the tree admits it. -/
theorem Moved.resolve_created_iff (h : Moved t t' c p name k) (ht : t.Replayed) (hc : c ≠ TRASH)
    (hname : IsComponent name) (hres : t.resolve path = some p)
    (hnew : ∀ m, (name, m) ∈ t.rawChildren p → t.isTrashed m = true) :
    t'.resolve (joinPath path name) = some c ↔ t.Admits path p name c := by
  rw [resolve_joinPath _ _ hname]
  by_cases hr : Reaches t.parentOf p c
  · refine iff_of_false (h.resolve_ne_of_skipped ht hres hr) fun ha => ?_
    have habove := ha.above
    rw [← Bool.not_eq_true, ht.grounded.isAncestor_iff] at habove
    exact habove hr
  have hpT := ht.ne_trash_of_resolve hres
  have hlatest : ∀ m, t'.Called p name m → t'.definingTs m ≤ t'.definingTs c := fun m hm =>
    (congrArg t'.definingTs (h.eq_of_called_name ht hres hr hnew hm)).le
  constructor
  · intro hfound
    obtain ⟨q, hq, hl⟩ := Option.bind_eq_some_iff.1 hfound
    obtain ⟨b, hb⟩ := h.replayed.called_of_lists (lists_of_lookupChild hl)
    obtain ⟨⟨e, he, rfl, rfl⟩, -⟩ := h.replayed.mirror.called_iff.1 hb
    obtain rfl := Option.some_injective _ ((h.edge_self hr).symm.trans he)
    have hself : t'.Called p name c := hb
    refine ⟨?_, ?_, (h.resolve_iff ht hr).1 hq, ?_⟩
    · have hlive := not_trashed_of_called h.replayed hpT hself
      rw [← Bool.not_eq_true, DriveTree.isTrashed, h.replayed.grounded.isAncestor_iff] at hlive
      rw [← Bool.not_eq_true, DriveTree.isTrashed, ht.grounded.isAncestor_iff]
      exact fun htr => hlive (((h.reaches_iff hr).2 htr).head (parentOf_of_edge (h.edge_self hr)))
    · rwa [← Bool.not_eq_true, ht.grounded.isAncestor_iff]
    · exact (h.unclaimed_iff ht hres hr hnew hself).1
        ((h.replayed.lookupChild_eq_some_iff hself).1 hl).2
  · intro ha
    have hself := h.called_self ht hr ha.live hc
    rw [(h.resolve_iff ht hr).2 ha.path, Option.bind_some]
    exact (h.replayed.lookupChild_eq_some_iff hself).2
      ⟨hlatest, (h.unclaimed_iff ht hres hr hnew hself).2 ha.unclaimed⟩

end DriveTree

namespace Drive

variable {d d' : Drive} {ctr : ℕ} {n p : NodeId} {path name : String}

/-- The state in which what `mkdir` makes, or `add_file` makes or edits, is found at its path : a
child that has the name was moved last of that name and no other has it for its conflict name; if
none has it, the tree admits the new node. -/
def Creates (d : Drive) (ctr : ℕ) (path name : String) : Prop :=
  ∃ p, d.tree.resolve path = some p ∧
    match d.childNamed p name with
    | some x => (∀ m, d.tree.Called p name m → d.tree.definingTs m ≤ d.tree.definingTs x) ∧
        d.tree.Unclaimed p name
    | none => d.tree.Admits path p name (d.nextId ctr)

theorem childNamed_eq_none (h : d.childNamed p name = none) (m : NodeId)
    (hm : (name, m) ∈ d.tree.rawChildren p) : d.tree.isTrashed m = true := by
  rw [childNamed, Option.map_eq_none_iff, List.find?_eq_none] at h
  simpa using h _ hm

theorem creates_iff_of_none (hres : d.tree.resolve path = some p) (hc : d.childNamed p name = none) :
    d.Creates ctr path name ↔ d.tree.Admits path p name (d.nextId ctr) := by
  rw [Creates, hres]
  simp only [Option.some_inj, exists_eq_left', hc]

theorem creates_iff_of_some (hres : d.tree.resolve path = some p)
    (hc : d.childNamed p name = some n) : d.Creates ctr path name ↔
      (∀ m, d.tree.Called p name m → d.tree.definingTs m ≤ d.tree.definingTs n) ∧
        d.tree.Unclaimed p name := by
  rw [Creates, hres]
  simp only [Option.some_inj, exists_eq_left', hc]

/-- A node made by a local move. -/
theorem Inv.resolve_created_iff (h : d.Inv) (hname : checkName name = .ok ())
    (hdir : d.resolveDir path = .ok p) (hc : d.childNamed p name = none) (kind : NodeKind) :
    (d.moved (d.nextId ctr) p name kind).tree.resolve (joinPath path name) = some (d.nextId ctr) ↔
      d.Creates ctr path name := by
  have hres := (resolveDir_eq_ok hdir).1
  rw [creates_iff_of_none hres hc]
  exact (DriveTree.moved_of_inv h _ p name kind).resolve_created_iff h.replayed
    (freshNodeId_ne (by decide) _ _) (slash_not_mem_of_validateName (checkName_ok_iff.1 hname)) hres
    (childNamed_eq_none hc)

/-- Created paths. When `mkdir` or `add_file` returns an id, the parent path with the name joined
to it resolves to that id exactly if the state before `Creates` there. -/
theorem created_resolves_iff (d : Drive) (h : d.Reachable) (ctr : ℕ) (path name : String) :
    (∀ id d' ctr', d.mkdir ctr path name = some (.ok id, d', ctr') →
      (d'.tree.resolve (joinPath path name) = some id ↔ d.Creates ctr path name)) ∧
    ∀ content id d' ctr', d.addFile ctr path name content = some (.ok id, d', ctr') →
      (d'.tree.resolve (joinPath path name) = some id ↔ d.Creates ctr path name) := by
  have hinv := h.inv
  constructor
  · intro id d' ctr' hr
    obtain ⟨e, -, heq⟩ | ⟨p, hcheck, heq⟩ := mkdir_eq_some hr
    · cases (Prod.mk.inj heq).1
    · obtain ⟨hid, hrest⟩ := Prod.mk.inj heq
      obtain rfl := Except.ok.inj hid
      obtain rfl := (Prod.mk.inj hrest).1
      obtain ⟨hname, hdir, hc⟩ := mkdirCheck_eq_ok.1 hcheck
      exact hinv.resolve_created_iff hname hdir hc .dir
  · intro content id d' ctr' hr
    obtain ⟨e, -, heq⟩ | ⟨p, x, hcheck, heq⟩ | ⟨p, hcheck, heq⟩ := addFile_eq_some hr
    · cases (Prod.mk.inj heq).1
    · obtain ⟨hid, hrest⟩ := Prod.mk.inj heq
      obtain rfl := Except.ok.inj hid
      obtain rfl := (Prod.mk.inj hrest).1
      obtain ⟨hname, hdir, hc, -⟩ := addFileCheck_eq_ok.1 hcheck
      have hres := (resolveDir_eq_ok hdir).1
      obtain ⟨hraw, hlive⟩ := childNamed_eq_some hc
      have htree : (d.wrote (setOp id content)).tree = d.tree := rfl
      rw [htree, DriveTree.resolve_joinPath _ _
        (slash_not_mem_of_validateName (checkName_ok_iff.1 hname)), hres, Option.bind_some,
        creates_iff_of_some hres hc]
      exact hinv.replayed.lookupChild_eq_some_iff
        (DriveTree.mem_shownChildren.2 ⟨hraw, Or.inr hlive⟩)
    · obtain ⟨hid, hrest⟩ := Prod.mk.inj heq
      obtain rfl := Except.ok.inj hid
      obtain rfl := (Prod.mk.inj hrest).1
      obtain ⟨hname, hdir, hc, -⟩ := addFileCheck_eq_ok.1 hcheck
      exact hinv.resolve_created_iff hname hdir hc .file

/-- A file below a directory, edited. -/
theorem created_resolves_iff_edit : ∃ (d : Drive) (id : NodeId) (d' : Drive) (ctr' : ℕ),
    d.addFile 2 "/docs" "f" (.new "c2" 1 0 2) = some (.ok id, d', ctr') ∧
      d'.tree.resolve (joinPath "/docs" "f") = some id ∧ d.Creates 2 "/docs" "f" := by
  have hrun : ((init "d" "a").performAll [.exec 0 (.mkdir "/" "docs"),
      .exec 1 (.addFile "/docs" "f" (.new "c1" 1 0 1))]).any (fun d =>
        (d.addFile 2 "/docs" "f" (.new "c2" 1 0 2)).any fun r => r.1.toOption.any fun id =>
          decide (r.2.1.tree.resolve (joinPath "/docs" "f") = some id)) = true := by
    decide +kernel
  obtain ⟨d, hd, hrun⟩ := (Option.any_eq_true _ _).1 hrun
  obtain ⟨⟨res, d', ctr'⟩, hr, hrun⟩ := (Option.any_eq_true _ _).1 hrun
  obtain ⟨id, hid, hres⟩ := (Option.any_eq_true _ _).1 hrun
  have hres := of_decide_eq_true hres
  cases res with
  | error e => cases hid
  | ok id' =>
    obtain rfl := Option.some_injective _ hid
    exact ⟨d, id', d', ctr', hr, hres,
      ((created_resolves_iff d ⟨"d", "a", _, hd⟩ 2 "/docs" "f").2 _ _ _ _ hr).1 hres⟩

/-- Two files of one name after a move : the older is edited, the newer is found. -/
theorem created_elsewhere : ∃ d : Drive, d.Reachable ∧ ∃ id d' ctr',
    d.addFile 2 "/" "a" (.new "c3" 1 0 3) = some (.ok id, d', ctr') ∧
      d'.tree.resolve (joinPath "/" "a") ≠ some id := by
  have hrun : ((init "d" "a").performAll [.exec 0 (.addFile "/" "a" (.new "c1" 1 0 1)),
      .exec 1 (.addFile "/" "b" (.new "c2" 1 0 2)), .exec 2 (.mv "/b" "/" "a")]).any (fun d =>
        (d.addFile 2 "/" "a" (.new "c3" 1 0 3)).any fun r => r.1.toOption.any fun id =>
          decide (r.2.1.tree.resolve (joinPath "/" "a") ≠ some id)) = true := by
    decide +kernel
  obtain ⟨d, hd, hrun⟩ := (Option.any_eq_true _ _).1 hrun
  obtain ⟨⟨res, d', ctr'⟩, hr, hrun⟩ := (Option.any_eq_true _ _).1 hrun
  obtain ⟨id, hid, hres⟩ := (Option.any_eq_true _ _).1 hrun
  cases res with
  | error e => cases hid
  | ok id' =>
    obtain rfl := Option.some_injective _ hid
    exact ⟨d, ⟨"d", "a", _, hd⟩, id', d', ctr', hr, of_decide_eq_true hres⟩

end Drive

end CeDrive
