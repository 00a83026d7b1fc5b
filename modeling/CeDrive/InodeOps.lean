import CeDrive.Rename

/-!
# Operations on inodes

`create`, `mkdir`, `unlink` and `rename` are given a directory by its inode, and find it by
the bare path of its node. The path may lead to another directory, where the lookups of the
same inode do not look. Each operation acts on the inode's own directory exactly if the path
leads back to it (`Vfs.OwnPath`), the name is a component of a path, and the move is not one
the tree skips. A rename also deletes by path: where the new name is held by another node
under its bare name, what it deletes is the source.
-/

open Std (ExtTreeMap)
open Forest

namespace CeDrive

namespace DriveTree

variable {t t' t₁ t₂ : DriveTree} {P Q c d m n q s id : NodeId} {b name newName dir path : String}
  {k : NodeKind} {names comps : List String}

/-! ## Bare paths from below -/

/-- The bare path of a node starts with those of the nodes above it. -/
theorem PathTo.above (hg : t.Grounded) (h : t.PathTo names n) (hr : Reaches t.parentOf n m)
    (hroot : Reaches t.parentOf m ROOT) : ∃ names' more, t.PathTo names' m ∧ names = names' ++ more := by
  induction h with
  | root =>
    obtain rfl := hg.antisymm hr hroot
    exact ⟨[], [], .root, rfl⟩
  | @child names n e h he ih =>
    rcases (reaches_iff_of_parent (parentOf_of_edge he)).1 hr with rfl | hr
    · exact ⟨_, [], h.child he, (List.append_nil _).symm⟩
    · obtain ⟨names', more, hp, rfl⟩ := ih hr
      exact ⟨names', more ++ [e.name], hp, List.append_assoc ..⟩

/-- The last component of a path has no slash and is not empty. -/
theorem isComponent_of_components (h : components path = names ++ [b]) : IsComponent b := by
  refine ⟨?_, slash_not_mem_components (h ▸ List.mem_append_right _ List.mem_cons_self)⟩
  rintro rfl
  have hspell := slashed_partsOf path.toList
  rw [← components_eq, h, slashed_append, slashed_singleton] at hspell
  split_ifs at hspell with hempty
  · simp at hspell
  · have hlast := congrArg (fun l : List Char => l.getLast?) hspell
    rw [String.toList_empty, List.getLast?_append, List.getLast?_cons_of_ne_nil hempty] at hlast
    have hne := List.rdropWhile_last_not (· = '/') (path.toList.dropWhile (· = '/')) hempty
    rw [List.getLast?_eq_getLast_of_ne_nil hempty] at hlast
    exact hne (decide_eq_true (Option.some_injective _ hlast).symm)

/-- A path by bare name leads to the node that its directory finds under that name exactly if
the bare path of the directory leads back to it and the name is a component. -/
theorem Replayed.lookupChild_iff_of_resolve (ht : t.Replayed) (hne : s ≠ ROOT)
    (hs : ((t.path P).bind fun dir => t.resolve (joinPath dir name)) = some s) :
    t.lookupChild P name = some s ↔ (t.path P).bind t.resolve = some P ∧ IsComponent name := by
  obtain ⟨dir, hdir, hres⟩ := Option.bind_eq_some_iff.1 hs
  rw [hdir, Option.bind_some]
  constructor
  · intro hl
    have hlists := lists_of_lookupChild hl
    have hname : IsComponent name := by
      rw [resolve_eq] at hres
      rcases List.eq_nil_or_concat' (components (joinPath dir name)) with hnil | ⟨l, r, hcomps⟩
      · rw [hnil] at hres
        exact absurd (Option.some_injective _ hres).symm hne
      · rw [hcomps] at hres
        obtain ⟨q, -, hlists', -⟩ := ht.exists_of_resolveFrom_append hres
        obtain ⟨-, rfl⟩ := ht.lists_unique hlists hlists'
        exact isComponent_of_components hcomps
    rw [resolve_joinPath t dir hname] at hres
    obtain ⟨p, hp, hl'⟩ := Option.bind_eq_some_iff.1 hres
    obtain ⟨rfl, -⟩ := ht.lists_unique hlists (lists_of_lookupChild hl')
    exact ⟨hp, hname⟩
  · rintro ⟨hP, hname⟩
    rw [resolve_joinPath t dir hname, hP] at hres
    exact hres

/-! ## One move into a directory -/

/-- A node moved into the directory that the bare path of `P` leads to is a child of `P`
exactly if that directory is `P` and the move is not skipped. -/
theorem Moved.parentOf_iff (hm : Moved t t' id q name k) (ht : t.Replayed)
    (hq : (t.path P).bind t.resolve = some q) :
    t'.parentOf id = some P ↔ q = P ∧ ¬Reaches t.parentOf P id := by
  by_cases hr : Reaches t.parentOf q id
  · -- a child of `P` that is above `q` makes the bare path of `q` longer than that of `P`
    refine iff_of_false (fun hP => ?_) fun ⟨hqP, hnot⟩ => hnot (hqP ▸ hr)
    rw [parentOf_congr (hm.skipped hr)] at hP
    obtain ⟨dir, hdir, hres⟩ := Option.bind_eq_some_iff.1 hq
    obtain ⟨names, hp, rfl⟩ := ht.grounded.path_eq_some_iff.1 hdir
    obtain ⟨namesq, hpq, -⟩ := ht.pathTo_of_resolveFrom .root (resolve_eq t _ ▸ hres)
    obtain ⟨namesid, more, hpid, hnames⟩ := hpq.above ht.grounded hr (hp.reaches.head hP)
    rw [List.nil_append] at hnames hpq
    obtain ⟨e, he, rfl⟩ := parentOf_eq_some.1 hP
    obtain rfl := hpid.unique ht.grounded (hp.child he)
    have hlen := (ht.slashed_le_of_resolve hres hpq).1
    simp only [hnames, slashed_append, slashed_singleton, List.length_append, List.length_cons] at hlen
    omega
  · rw [hm.parentOf_eq hr, Function.update_self, Option.some_inj]
    exact ⟨fun heq => ⟨heq, heq ▸ hr⟩, And.left⟩

section Into

variable (hm : Moved t t' n Q name k) (ht : t.Replayed) (hQ : ¬Reaches t.parentOf Q n)
include hm ht hQ

/-- A child found under its bare name is still found, if another node leaves its directory. -/
theorem Moved.lookupChild_of_bare {p : NodeId} (hpQ : p ≠ Q) (hp : ¬Reaches t.parentOf p n)
    (hcn : c ≠ n) (hl : t.lookupChild p b = some c) (hc : t.Called p b c) :
    t'.lookupChild p b = some c := by
  have hothers : ∀ {b' m}, t'.Called p b' m → m ≠ n ∧ t.Called p b' m := by
    intro b' m hbm
    have hmn : m ≠ n := by
      rintro rfl
      obtain ⟨⟨e, he, rfl, -⟩, -⟩ := hm.replayed.mirror.called_iff.1 hbm
      rw [hm.edge_self hQ] at he
      exact hpQ (Option.some_injective _ he ▸ rfl)
    exact ⟨hmn, (hm.called_iff ht hp hmn).1 hbm⟩
  refine hm.replayed.lookupChild_of_latest ((hm.called_iff ht hp hcn).2 hc) (fun m hbm hmc => ?_)
    fun b' x m hx hbm hlt => ?_
  · obtain ⟨hmn, hbm⟩ := hothers hbm
    rw [hm.stamp m hmn, hm.stamp c hcn]
    exact lt_of_le_of_ne (ht.definingTs_le (lists_of_lookupChild hl) hc hbm)
      fun heq => hmc (ht.eq_of_definingTs_eq hbm hc heq)
  · obtain ⟨hxn, hx⟩ := hothers hx
    obtain ⟨hmn, hbm⟩ := hothers hbm
    rw [hm.stamp x hxn, hm.stamp m hmn] at hlt
    rw [hm.stamp x hxn]
    exact ht.conflictName_ne hl hc hx hbm hlt

/-- A path of bare names that leads to the new directory still does. -/
theorem Moved.resolveFrom_of_bare {cur : NodeId} (hcur : t.PathTo names cur)
    (hp : t.PathTo (names ++ comps) Q) (hr : t.resolveFrom cur comps = some Q) :
    t'.resolveFrom cur comps = some Q := by
  induction comps generalizing cur names with
  | nil => exact hr
  | cons r rest ih =>
    have hbelow := ht.mirror.reaches_of_resolveFrom hr
    rw [resolveFrom] at hr ⊢
    cases hl : t.lookupChild cur r with
    | none => simp [hl] at hr
    | some next =>
      have hr' : t.resolveFrom next rest = some Q := by simpa [hl] using hr
      obtain ⟨e, he, rfl, hshown⟩ := ht.mirror.edge_of_lookupChild hl
      have hnext := hcur.child he
      obtain ⟨names', hp', -⟩ := ht.pathTo_of_resolveFrom hnext hr'
      obtain ⟨rfl, rfl⟩ : r = e.name ∧ rest = names' := by
        simpa using hp.unique ht.grounded hp'
      have hQnext := ht.mirror.reaches_of_resolveFrom hr'
      have hl' := hm.lookupChild_of_bare ht hQ (p := e.parent) (c := next)
        (fun heq => ht.grounded.not_reaches_of_up (parentOf_of_edge he) (heq ▸ hQnext))
        (fun h => hQ (hbelow.trans h)) (fun heq => hQ (heq ▸ hQnext)) hl
        (ht.mirror.called_iff.2 ⟨⟨e, he, rfl, rfl⟩, hshown⟩)
      rw [hl']
      exact ih hnext (by simpa using hp) hr'

end Into

/-! ## A rename that trashes its source -/

/-- Another child of `Q` is found under the name, and it is its bare name. -/
def HeldByOther (t : DriveTree) (Q : NodeId) (name : String) (n : NodeId) : Prop :=
  ∃ d e, t.lookupChild Q name = some d ∧ d ≠ n ∧ t.edges[d]? = some e ∧ e.name = name

section Renamed

variable (hr : Renamed t t₁ t₂ n Q newName) (ht : t.Replayed)
  (hQ : (t.path Q).bind t.resolve = some Q) (hout : ¬Reaches t.parentOf Q n)
include hr

/-- The second step of a rename keeps the parent of a node or moves it to the trash. -/
theorem Renamed.parentOf_trash_step (m : NodeId) :
    t₂.parentOf m = t₁.parentOf m ∨ t₂.parentOf m = some TRASH := by
  obtain rfl | ⟨-, x, e, -, -, -, -, -, hx⟩ := hr.trash_step
  · exact Or.inl rfl
  · by_cases hm : m = x ∧ ¬Reaches t₁.parentOf TRASH m
    · obtain ⟨rfl, hskip⟩ := hm
      exact Or.inr (parentOf_of_edge (hx.edge_self hskip))
    · refine Or.inl ?_
      by_cases hmx : m = x
      · subst hmx
        rw [parentOf_congr (hx.skipped (not_not.1 fun hskip => hm ⟨rfl, hskip⟩))]
      · rw [parentOf, parentOf, hx.edge_of_ne hmx]

include ht hQ hout

/-- If the new name was held by another node under its bare name, the path deleted leads to the
source. -/
theorem Renamed.resolve_of_held (hnew : IsComponent newName) (hn : t.lookupChild P name = some n) {e : Edge}
    (hd : t.lookupChild Q newName = some d) (hdn : d ≠ n) (he : t.edges[d]? = some e)
    (hname : e.name = newName) : ∃ u, t₁.path d = some u ∧ t₁.resolve u = some n := by
  have hm := hr.moved
  obtain ⟨names, hp, hnames, hres⟩ := ht.exists_pathTo hQ
  obtain ⟨bn, hbn⟩ := ht.called_of_lists (lists_of_lookupChild hn)
  obtain ⟨e', he', hparent, hshown⟩ := ht.mirror.edge_of_lookupChild hd
  obtain rfl := Option.some_injective _ (he.symm.trans he')
  have hdQ : t.Called Q newName d := ht.mirror.called_iff.2 ⟨⟨e, he, hparent, hname⟩, hshown⟩
  obtain ⟨dir, -, hdir⟩ := Option.bind_eq_some_iff.1 hQ
  have htrashed : t.isTrashed Q = false := by
    rw [← Bool.not_eq_true]
    intro htr
    have hnot := not_trashed_of_called ht (ht.ne_trash_of_resolve hdir) hdQ
    rw [isTrashed_of_parent ht (hparent ▸ parentOf_of_edge he) htr] at hnot
    cases hnot
  have hself := hm.called_self ht hout htrashed (ne_trash_of_called ht hbn)
  refine ⟨_, hm.path_child hp hout ((hm.called_iff ht hout hdn).2 hdQ), ?_⟩
  rw [resolve_append _ hnames hnew, hm.resolveFrom_of_bare ht hout .root hp hres]
  -- the source was moved last, and no conflict name is that of `d`
  refine hm.replayed.lookupChild_of_latest hself (fun m _ hmn => hm.latest m hmn)
    fun b x m hx hbm hlt => ?_
  by_cases hxn : x = n
  · rw [hxn] at hx
    exact hm.replayed.mirror.called_unique hx hself ▸ conflictName_ne _ _
  by_cases hmn : m = n
  · rw [hmn] at hbm
    exact hm.replayed.mirror.called_unique hbm hself ▸ conflictName_ne _ _
  rw [hm.stamp x hxn, hm.stamp m hmn] at hlt
  rw [hm.stamp x hxn]
  exact ht.conflictName_ne hd hdQ ((hm.called_iff ht hout hxn).1 hx)
    ((hm.called_iff ht hout hmn).1 hbm) hlt

/-- If it was held under a conflict name, the path deleted is too short to lead to the source. -/
theorem Renamed.resolve_ne_of_name_ne {e : Edge} (hd : t.lookupChild Q newName = some d)
    (hdn : d ≠ n) (he : t.edges[d]? = some e) (hname : e.name ≠ newName) :
    t₁.resolve ((t₁.path d).getD path) ≠ some n := by
  intro hres
  have hm := hr.moved
  obtain ⟨names, hp, -⟩ := ht.exists_pathTo hQ
  obtain ⟨e', he', hparent, hshown⟩ := ht.mirror.edge_of_lookupChild hd
  obtain rfl := Option.some_injective _ (he.symm.trans he')
  have hdQ : t.Called Q e.name d := ht.mirror.called_iff.2 ⟨⟨e, he, hparent, rfl⟩, hshown⟩
  rw [hm.path_child hp hout ((hm.called_iff ht hout hdn).2 hdQ), Option.getD_some] at hres
  have hpn : t₁.PathTo (names ++ [newName]) n := .child (hm.pathTo hp hout) (hm.edge_self hout)
  have hlen := (hm.replayed.slashed_le_of_resolve hres hpn).1
  have hpre := ht.prefix_of_lists (lists_of_lookupChild hd) hdQ
  have hle := hpre.length_le
  simp only [slashed_append, slashed_singleton, List.length_append, List.length_cons] at hlen
  exact hname (String.toList_inj.1 (hpre.eq_of_length (by omega)))

end Renamed

/-- A rename by path on the nodes it is given leaves the source in the new directory exactly if
it is not that directory or above it, and the name is not held by another node under its bare
name, or the source cannot be moved to the trash. -/
theorem Renamed.parentOf_iff (hr : Renamed t t₁ t₂ n Q newName) (ht : t.Replayed)
    (hnew : IsComponent newName) (hn : t.lookupChild P name = some n)
    (hQ : (t.path Q).bind t.resolve = some Q) : t₂.parentOf n = some Q ↔
      ¬Reaches t.parentOf Q n ∧ (t.HeldByOther Q newName n → Reaches t.parentOf TRASH n) := by
  have hm := hr.moved
  obtain ⟨dir, hdir, hres⟩ := Option.bind_eq_some_iff.1 hQ
  have hQT := ht.ne_trash_of_resolve hres
  have hstays : t₂.parentOf n = some Q ↔ t₁.parentOf n = some Q ∧ t₂.parentOf n = t₁.parentOf n := by
    refine ⟨fun h => ?_, fun h => h.2.trans h.1⟩
    rcases hr.parentOf_trash_step n with heq | htr
    · exact ⟨heq ▸ h, heq⟩
    · exact absurd (Option.some_injective _ (h.symm.trans htr)) hQT
  rw [hstays, hm.parentOf_iff ht hQ, and_iff_right (rfl : Q = Q)]
  refine and_congr_right fun hout => ?_
  have htrash : Reaches t₁.parentOf TRASH n ↔ Reaches t.parentOf TRASH n := by
    rw [hm.parentOf_eq hout, reaches_self_update]
  have hnroot : n ≠ ROOT := by
    rintro rfl
    obtain ⟨names, hp, -⟩ := ht.exists_pathTo hQ
    exact hout hp.reaches
  constructor
  · rintro hsame ⟨d, e, hd, hdn, he, hname⟩
    obtain ⟨u, hu, hres⟩ := hr.resolve_of_held ht hQ hout hnew hn hd hdn he hname
    obtain ⟨path, ⟨hroot, -⟩ | ⟨x, e', hx, -, hm₂⟩⟩ := hr.deleted d hd hdn
    · exact absurd (hroot n (by rw [hu, Option.getD_some, hres])) hnroot
    · rw [hu, Option.getD_some, hres] at hx
      obtain rfl := Option.some_injective _ hx
      refine htrash.1 (not_not.1 fun hskip => hQT ?_)
      rw [parentOf_of_edge (hm₂.edge_self hskip), parentOf_of_edge (hm.edge_self hout)] at hsame
      exact (Option.some_injective _ hsame).symm
  · intro hheld
    obtain rfl | ⟨d, x, e', path, hd, hdn, hx, -, hm₂⟩ := hr.trash_step
    · rfl
    by_cases hxn : n = x
    · subst hxn
      obtain ⟨e, he, -⟩ := ht.mirror.edge_of_lookupChild hd
      have hname : e.name = newName := not_not.1 fun hname =>
        hr.resolve_ne_of_name_ne ht hQ hout hd hdn he hname hx
      rw [parentOf_congr (hm₂.skipped (htrash.2 (hheld ⟨d, e, hd, hdn, he, hname⟩)))]
    · rw [parentOf, parentOf, hm₂.edge_of_ne hxn]

end DriveTree

namespace Drive

variable {d d' : Drive} {ctr ctr' : ℕ} {P q id : NodeId} {dir name : String}

/-- A node created by path is a child of `P` exactly if the path leads to `P` and the id it
mints is not that of `P` or of a node above it. -/
theorem Inv.parentOf_created (h : d.Inv) {k : NodeKind} (hdir : d.tree.path P = some dir)
    (hq : d.resolveDir dir = .ok q) : (d.moved id q name k).tree.parentOf id = some P ↔
      d.tree.resolve dir = some P ∧ ¬Reaches d.tree.parentOf P id := by
  obtain ⟨hq, -⟩ := resolveDir_eq_ok hq
  rw [(DriveTree.moved_of_inv h id q name k).parentOf_iff h.replayed (by rw [hdir, Option.bind_some, hq]), hq,
    Option.some_inj]

theorem Inv.parentOf_mkdir (h : d.Inv) (hdir : d.tree.path P = some dir)
    (hr : d.mkdir ctr dir name = some (.ok id, d', ctr')) : d'.tree.parentOf id = some P ↔
      d.tree.resolve dir = some P ∧
        ∀ id, d.mints ctr (.mkdir dir name) = some id → ¬Reaches d.tree.parentOf P id := by
  obtain ⟨e, -, heq⟩ | ⟨q, hc, heq⟩ := mkdir_eq_some hr
  · cases (Prod.mk.inj heq).1
  · obtain ⟨hid, hd⟩ := Prod.mk.inj heq
    obtain rfl := Except.ok.inj hid
    obtain rfl := (Prod.mk.inj hd).1
    rw [h.parentOf_created hdir (resolveDir_of_mkdirCheck hc)]
    simp [mints, hc]

theorem Inv.parentOf_addFile (h : d.Inv) {content : FileContent} (hdir : d.tree.path P = some dir)
    (hr : d.addFile ctr dir name content = some (.ok id, d', ctr')) :
    d'.tree.parentOf id = some P ↔ d.tree.resolve dir = some P ∧
      ∀ id, d.mints ctr (.addFile dir name content) = some id → ¬Reaches d.tree.parentOf P id := by
  obtain ⟨e, -, heq⟩ | ⟨q, existing, hc, heq⟩ | ⟨q, hc, heq⟩ := addFile_eq_some hr
  · cases (Prod.mk.inj heq).1
  · -- the file that is there keeps its parent
    obtain ⟨hid, hd⟩ := Prod.mk.inj heq
    obtain rfl := Except.ok.inj hid
    obtain rfl := (Prod.mk.inj hd).1
    obtain ⟨e, he, rfl, -⟩ := h.replayed.mirror.mem_rawChildren.1 (addFileCheck_eq_some hc)
    obtain ⟨hq, -⟩ := resolveDir_eq_ok (resolveDir_of_addFileCheck hc)
    have hparent : (d.wrote (setOp id content)).tree.parentOf id = some e.parent :=
      DriveTree.parentOf_of_edge he
    rw [hparent, hq]
    simp [mints, hc]
  · obtain ⟨hid, hd⟩ := Prod.mk.inj heq
    obtain rfl := Except.ok.inj hid
    obtain rfl := (Prod.mk.inj hd).1
    have hcreated : (d.moved (d.nextId ctr) q name .file).tree.parentOf (d.nextId ctr) = some P ↔
        d.tree.resolve dir = some P ∧ ¬Reaches d.tree.parentOf P (d.nextId ctr) :=
      h.parentOf_created hdir (resolveDir_of_addFileCheck hc)
    refine hcreated.trans ?_
    simp [mints, hc]

end Drive

namespace Vfs

open DriveTree

variable {v v' : Vfs} {ino parent newParent : Ino} {name newName : String} {P id n q : NodeId}

/-! ## What an operation acts on -/

/-- The bare path of the node of an inode leads back to it. -/
structure OwnPath (v : Vfs) (ino : Ino) (P : NodeId) : Prop where
  node : v.nodeOf[ino]? = some P
  resolves : (v.drive.tree.path P).bind v.drive.tree.resolve = some P

/-- `ino` names a child of the node of `parent`. -/
def CreatesIn (v v' : Vfs) (parent ino : Ino) : Prop :=
  ∃ P id, v.nodeOf[parent]? = some P ∧ v'.nodeOf[ino]? = some id ∧
    v'.drive.tree.parentOf id = some P

/-- The id that an operation mints, if any, is not that of `P` or of a directory above it. -/
def MintsBelow (v : Vfs) (ctr : ℕ) (op : LocalOp) (P : NodeId) : Prop :=
  ∀ id, v.drive.mints ctr op = some id → ¬Reaches v.drive.tree.parentOf P id

/-- The move logged next is one of `n` into `q`, where `n` is now. After it the moves `rest`
were logged. -/
def Relocates (v v' : Vfs) (n q : NodeId) (rest : List MoveOp) : Prop :=
  ∃ op : MoveOp, v'.drive.state.moveLog = v.drive.state.moveLog ++ op :: rest ∧ op.child = n ∧
    op.newParent = q ∧ v'.drive.tree.parentOf n = some q

/-! ## What the operations do -/

theorem attrOf_ino {attr : Attr} (h : v.attrOf ino = .ok attr) : attr.ino = ino := by
  unfold attrOf at h
  split_ifs at h with hroot
  · rw [← Except.ok.inj h, hroot]
  · cases hn : v.nodeAt ino "inode" with
    | error e => simp [hn, bind, Except.bind] at h
    | ok node =>
      simp only [hn, bind, Except.bind] at h
      cases he : v.drive.tree.edge node with
      | none => simp [he, throw, throwThe, MonadExceptOf.throw] at h
      | some e =>
        simp only [he] at h
        split at h <;> exact (congrArg Attr.ino (Except.ok.inj h)).symm

/-- The attributes are those of the inode interned. -/
theorem Inv.nodeOf_internAttr (h : v.Inv) {attr : Attr} (hr : v.internAttr id = (.ok attr, v')) :
    v'.drive = v.drive ∧ v'.nodeOf[attr.ino]? = some id := by
  obtain ⟨hattr, rfl⟩ := Prod.mk.inj hr
  have hino := attrOf_ino hattr
  rw [hino]
  exact ⟨drive_intern v id, ((h.intern id).table id _).1 (inoOf_intern_self v id)⟩

theorem parentPath_eq_ok {dir : String} (h : v.parentPath parent = .ok dir) :
    ∃ P, v.nodeOf[parent]? = some P ∧ v.drive.tree.path P = some dir := by
  unfold parentPath at h
  cases hn : v.nodeAt parent "parent inode" with
  | error e => simp [hn, bind, Except.bind] at h
  | ok P => exact ⟨P, nodeAt_eq_ok hn, pathAt_eq_ok (by simpa [hn, bind, Except.bind] using h)⟩

/-- A creation that succeeds is one of the drive in the path of the directory. -/
theorem Inv.create_eq_ok (h : v.Inv) {ctr ctr' nowMs fh : ℕ} {attr : Attr}
    (hr : v.create ctr parent name nowMs = some (.ok (attr, fh), v', ctr')) :
    ∃ P dir id, v.nodeOf[parent]? = some P ∧ v.drive.tree.path P = some dir ∧
      v.drive.addFile ctr dir name (.new "" 0 0o644 nowMs) = some (.ok id, v'.drive, ctr') ∧
      v'.nodeOf[attr.ino]? = some id := by
  unfold Vfs.create at hr
  split at hr
  · cases (Prod.mk.inj (Option.some_injective _ hr)).1
  · rename_i dir hdir
    obtain ⟨P, hP, hdir⟩ := parentPath_eq_ok hdir
    obtain ⟨⟨res, d, ctr₁⟩, ha, hr⟩ := Option.bind_eq_some_iff.1 hr
    cases res with
    | error e => cases (Prod.mk.inj (Option.some_injective _ hr)).1
    | ok id =>
      cases hi : Vfs.internAttr { v with drive := d, dirtyModel := true } id with
      | mk res v₁ =>
        cases res with
        | error e => simp [hi, pure] at hr
        | ok attr₁ =>
          obtain ⟨hd, hn⟩ := (h.withDrive (h.drive.addFile ha) true).nodeOf_internAttr hi
          simp only [hi, pure, Option.some.injEq, Prod.mk.injEq, Except.ok.injEq] at hr
          obtain ⟨⟨rfl, rfl⟩, rfl, rfl⟩ := hr
          exact ⟨P, dir, id, hP, hdir, hd ▸ ha, hn⟩

theorem Inv.mkdir_eq_ok (h : v.Inv) {ctr ctr' : ℕ} {attr : Attr}
    (hr : v.mkdir ctr parent name = some (.ok attr, v', ctr')) :
    ∃ P dir id, v.nodeOf[parent]? = some P ∧ v.drive.tree.path P = some dir ∧
      v.drive.mkdir ctr dir name = some (.ok id, v'.drive, ctr') ∧
      v'.nodeOf[attr.ino]? = some id := by
  unfold Vfs.mkdir at hr
  split at hr
  · cases (Prod.mk.inj (Option.some_injective _ hr)).1
  · rename_i dir hdir
    obtain ⟨P, hP, hdir⟩ := parentPath_eq_ok hdir
    obtain ⟨⟨res, d, ctr₁⟩, hm, hr⟩ := Option.bind_eq_some_iff.1 hr
    cases res with
    | error e => cases (Prod.mk.inj (Option.some_injective _ hr)).1
    | ok id =>
      cases hi : Vfs.internAttr { v with drive := d, dirtyModel := true } id with
      | mk res v₁ =>
        simp only [hi, pure, Option.some.injEq, Prod.mk.injEq] at hr
        obtain ⟨rfl, rfl, rfl⟩ := hr
        obtain ⟨hd, hn⟩ := (h.withDrive (h.drive.mkdir hm) true).nodeOf_internAttr hi
        exact ⟨P, dir, id, hP, hdir, hd ▸ hm, hn⟩

/-- A deletion that succeeds moves the node its path leads to. -/
theorem unlink_eq_ok (hr : v.unlink parent name = some (.ok (), v')) :
    ∃ P s, v.nodeOf[parent]? = some P ∧
      ((v.drive.tree.path P).bind fun dir => v.drive.tree.resolve (joinPath dir name)) = some s ∧
      s ≠ ROOT ∧ v'.drive = v.drive.moved s TRASH (v.drive.nameOf s) (v.drive.tree.kindOf s) := by
  unfold unlink at hr
  split at hr
  · cases (Prod.mk.inj (Option.some_injective _ hr)).1
  · rename_i dir hdir
    obtain ⟨P, hP, hdir⟩ := parentPath_eq_ok hdir
    obtain ⟨⟨res, d⟩, hm, hr⟩ := Option.bind_eq_some_iff.1 hr
    obtain ⟨e, -, heq⟩ | ⟨s, hs, heq⟩ := Drive.rm_eq_some hm
    · obtain ⟨rfl, rfl⟩ := Prod.mk.inj heq
      cases (Prod.mk.inj (Option.some_injective _ hr)).1
    · obtain ⟨rfl, rfl⟩ := Prod.mk.inj heq
      obtain ⟨hres, hroot⟩ := Drive.resolveNode_eq_ok hs
      refine ⟨P, s, hP, by rw [hdir, Option.bind_some, hres], hroot, ?_⟩
      exact (congrArg Vfs.drive (Prod.mk.inj (Option.some_injective _ hr)).2).symm

theorem moveLog_of_rm {d d' : Drive} {path : String} {e : Except String Unit}
    (hr : d.rm path = some (e, d')) : ∃ rest, d'.state.moveLog = d.state.moveLog ++ rest := by
  obtain ⟨e, -, heq⟩ | ⟨node, -, heq⟩ := Drive.rm_eq_some hr
  · obtain rfl := (Prod.mk.inj heq).2
    exact ⟨[], (List.append_nil _).symm⟩
  · obtain rfl := (Prod.mk.inj heq).2
    exact ⟨_, rfl⟩

/-- A rename that succeeds first moves the node its source path leads to into the directory its
target path leads to. -/
theorem rename_moveLog (hr : v.rename parent name newParent newName = some (.ok (), v')) :
    ∃ (P Q s q : NodeId) (op : MoveOp) (rest : List MoveOp), v.nodeOf[parent]? = some P ∧
      v.nodeOf[newParent]? = some Q ∧
      ((v.drive.tree.path P).bind fun dir => v.drive.tree.resolve (joinPath dir name)) = some s ∧
      (v.drive.tree.path Q).bind v.drive.tree.resolve = some q ∧ s ≠ ROOT ∧
      v'.drive.state.moveLog = v.drive.state.moveLog ++ op :: rest ∧ op.child = s ∧
      op.newParent = q := by
  obtain ⟨e, he⟩ | ⟨src, dstDir, s, q, d, hcheck, hmv, heq, hd⟩ := rename_eq_some hr
  · cases (Prod.mk.inj he).1
  obtain rfl := (Prod.mk.inj heq).2
  obtain ⟨P, Q, srcDir, hP, hQ, hsrc, hdst, rfl, hs⟩ := renameCheck_eq_ok hcheck
  obtain ⟨-, hnode, hdir⟩ := Drive.mvCheck_eq_ok hmv
  obtain ⟨rest, hrest⟩ : ∃ rest, d.state.moveLog =
      (v.drive.moved s q newName (v.drive.tree.kindOf s)).state.moveLog ++ rest := by
    obtain ⟨-, rfl⟩ | ⟨old, e, -, hrm⟩ := hd
    · exact ⟨[], (List.append_nil _).symm⟩
    · exact moveLog_of_rm hrm
  refine ⟨P, Q, s, q, ⟨v.drive.nextTs, s, q, newName, v.drive.tree.kindOf s⟩, rest, hP, hQ,
    by rw [hsrc, Option.bind_some, hs], by rw [hdst, Option.bind_some, (Drive.resolveDir_eq_ok hdir).1],
    (Drive.resolveNode_eq_ok hnode).2, ?_, rfl, rfl⟩
  exact hrest.trans (List.append_assoc _ [_] rest)

/-! ## Exactly when they act on the inode's own directory -/

theorem createsIn_iff (hP : v.nodeOf[parent]? = some P) (hn : v'.nodeOf[ino]? = some id) :
    v.CreatesIn v' parent ino ↔ v'.drive.tree.parentOf id = some P := by
  constructor
  · rintro ⟨P', id', hP', hn', hparent⟩
    obtain rfl := Option.some_injective _ (hP.symm.trans hP')
    obtain rfl := Option.some_injective _ (hn.symm.trans hn')
    exact hparent
  · exact fun hparent => ⟨P, id, hP, hn, hparent⟩

theorem exists_ownPath_iff {ctr : ℕ} {dir : String} (op : String → LocalOp)
    (hP : v.nodeOf[parent]? = some P) (hdir : v.drive.tree.path P = some dir) :
    (∃ P dir, v.OwnPath parent P ∧ v.drive.tree.path P = some dir ∧ v.MintsBelow ctr (op dir) P) ↔
      v.drive.tree.resolve dir = some P ∧ v.MintsBelow ctr (op dir) P := by
  constructor
  · rintro ⟨P', dir', ⟨hP', hres⟩, hdir', hmints⟩
    obtain rfl := Option.some_injective _ (hP.symm.trans hP')
    obtain rfl := Option.some_injective _ (hdir.symm.trans hdir')
    rw [hdir, Option.bind_some] at hres
    exact ⟨hres, hmints⟩
  · rintro ⟨hres, hmints⟩
    exact ⟨P, dir, ⟨hP, by rw [hdir, Option.bind_some, hres]⟩, hdir, hmints⟩

/-- In every reachable state, an operation given a directory by its inode acts on the node of
that inode exactly if the bare path of the node leads back to it. A creation must mint an id
that is not above it, `unlink` and `rename` must be given a component of a path, and a move
into the trash or the new directory must not be skipped; the new name of a rename must not be
held by another node under its bare name, unless the source cannot be moved to the trash. -/
theorem inode_ops_iff (h : v.Reachable) (parent : Ino) (name : String) :
    (∀ (ctr nowMs ctr' fh : ℕ) (attr : Attr) (v' : Vfs),
      v.create ctr parent name nowMs = some (.ok (attr, fh), v', ctr') →
        (v.CreatesIn v' parent attr.ino ↔ ∃ P dir, v.OwnPath parent P ∧
          v.drive.tree.path P = some dir ∧
          v.MintsBelow ctr (.addFile dir name (.new "" 0 0o644 nowMs)) P)) ∧
    (∀ (ctr ctr' : ℕ) (attr : Attr) (v' : Vfs),
      v.mkdir ctr parent name = some (.ok attr, v', ctr') →
        (v.CreatesIn v' parent attr.ino ↔ ∃ P dir, v.OwnPath parent P ∧
          v.drive.tree.path P = some dir ∧ v.MintsBelow ctr (.mkdir dir name) P)) ∧
    (∀ v' : Vfs, v.unlink parent name = some (.ok (), v') →
      ((∃ n, v.child parent name = some n ∧ v.Relocates v' n TRASH []) ↔
        ∃ P n, v.OwnPath parent P ∧ IsComponent name ∧ v.drive.tree.lookupChild P name = some n ∧
          ¬Reaches v.drive.tree.parentOf TRASH n)) ∧
    ∀ (newParent : Ino) (newName : String) (v' : Vfs),
      v.rename parent name newParent newName = some (.ok (), v') →
        ((∃ n Q rest, v.child parent name = some n ∧ v.nodeOf[newParent]? = some Q ∧
            v.Relocates v' n Q rest) ↔
          ∃ P Q n, v.OwnPath parent P ∧ v.OwnPath newParent Q ∧ IsComponent name ∧
            v.drive.tree.lookupChild P name = some n ∧ ¬Reaches v.drive.tree.parentOf Q n ∧
            (v.drive.tree.HeldByOther Q newName n → Reaches v.drive.tree.parentOf TRASH n)) := by
  have hinv := h.inv
  have ht := hinv.drive.replayed
  refine ⟨fun ctr nowMs ctr' fh attr v' hr => ?_, fun ctr ctr' attr v' hr => ?_, fun v' hr => ?_,
    fun newParent newName v' hr => ?_⟩
  · obtain ⟨P, dir, id, hP, hdir, ha, hn⟩ := hinv.create_eq_ok hr
    rw [createsIn_iff hP hn, hinv.drive.parentOf_addFile hdir ha]
    exact (exists_ownPath_iff (fun dir => .addFile dir name _) hP hdir).symm
  · obtain ⟨P, dir, id, hP, hdir, hm, hn⟩ := hinv.mkdir_eq_ok hr
    rw [createsIn_iff hP hn, hinv.drive.parentOf_mkdir hdir hm]
    exact (exists_ownPath_iff (fun dir => .mkdir dir name) hP hdir).symm
  · obtain ⟨P, s, hP, hs, hroot, hd⟩ := unlink_eq_ok hr
    have hm := moved_of_inv hinv.drive s TRASH (v.drive.nameOf s) (v.drive.tree.kindOf s)
    rw [← hd] at hm
    constructor
    · rintro ⟨n, hn, op, hlog, rfl, -, hparent⟩
      obtain ⟨P', hP', hl⟩ := Option.bind_eq_some_iff.1 hn
      obtain rfl := Option.some_injective _ (hP.symm.trans hP')
      have hlog' : [op] = [_] := List.append_cancel_left (hlog.symm.trans (congrArg (·.state.moveLog) hd))
      obtain rfl : op.child = s := congrArg MoveOp.child (List.singleton_inj.1 hlog')
      obtain ⟨hown, hname⟩ := (ht.lookupChild_iff_of_resolve hroot hs).1 hl
      refine ⟨P, _, ⟨hP, hown⟩, hname, hl, fun hskip => ?_⟩
      rw [parentOf_congr (hm.skipped hskip)] at hparent
      exact ht.grounded.not_reaches_of_up hparent hskip
    · rintro ⟨P', n, ⟨hP', hown⟩, hname, hl, hout⟩
      obtain rfl := Option.some_injective _ (hP.symm.trans hP')
      obtain rfl := Option.some_injective _
        (hl.symm.trans ((ht.lookupChild_iff_of_resolve hroot hs).2 ⟨hown, hname⟩))
      refine ⟨n, by simp [child, hP, hl], ⟨v.drive.nextTs, n, TRASH, _, _⟩,
        congrArg (·.state.moveLog) hd, rfl, rfl, parentOf_of_edge (hm.edge_self hout)⟩
  · obtain ⟨P, Q, s, q, op, rest, hP, hQ, hs, hq, hroot, hlog, hchild, hnew⟩ := rename_moveLog hr
    obtain ⟨P', Q', s', q', t₁, hP', hQ', hs', hq', hcomp, hren, -⟩ := hinv.renamed_of_rename hr
    obtain rfl := Option.some_injective _ (hP.symm.trans hP')
    obtain rfl := Option.some_injective _ (hQ.symm.trans hQ')
    obtain rfl := Option.some_injective _ (hs.symm.trans hs')
    obtain rfl := Option.some_injective _ (hq.symm.trans hq')
    constructor
    · rintro ⟨n, Q', rest', hn, hQ', op', hlog', rfl, rfl, hparent⟩
      obtain ⟨P', hP', hl⟩ := Option.bind_eq_some_iff.1 hn
      obtain rfl := Option.some_injective _ (hP.symm.trans hP')
      obtain rfl := Option.some_injective _ (hQ.symm.trans hQ')
      obtain ⟨rfl, rfl⟩ := List.cons.inj (List.append_cancel_left (hlog.symm.trans hlog'))
      subst hchild hnew
      obtain ⟨hown, hname⟩ := (ht.lookupChild_iff_of_resolve hroot hs).1 hl
      exact ⟨P, op.newParent, op.child, ⟨hP, hown⟩, ⟨hQ, hq⟩, hname, hl,
        (hren.parentOf_iff ht hcomp hl hq).1 hparent⟩
    · rintro ⟨P', Q', n, ⟨hP', hown⟩, ⟨hQ', htarget⟩, hname, hl, hcond⟩
      obtain rfl := Option.some_injective _ (hP.symm.trans hP')
      obtain rfl := Option.some_injective _ (hQ.symm.trans hQ')
      obtain rfl := Option.some_injective _ (hq.symm.trans htarget)
      obtain rfl := Option.some_injective _
        (hl.symm.trans ((ht.lookupChild_iff_of_resolve hroot hs).2 ⟨hown, hname⟩))
      exact ⟨n, q, rest, by simp [child, hP, hl], hQ, op, hlog, hchild, hnew,
        (hren.parentOf_iff ht hcomp hl hq).2 hcond⟩

theorem reachable_collidingVfs : collidingVfs.Reachable :=
  have hv : (Vfs.new (((Drive.init "d" "r").performAll collidingDirs).get (by decide +kernel)) 0).Reachable :=
    .new ⟨"d", "r", collidingDirs, (Option.some_get _).symm⟩ 0
  (hv.step (.lookup ROOT_INO "a.conflict-r-1") trivial rfl).step (.lookup ROOT_INO "a") trivial rfl

/-- A file created in the inode of the older directory is a child of the younger. -/
theorem create_elsewhere :
    let v := collidingVfs
    let r := (v.create 3 2 "f" 100).get (by decide +kernel)
    v.Reachable ∧ v.nodeOf[2]? = some "00000000000100000000" ∧
      ∃ attr fh, r.1 = .ok (attr, fh) ∧ ¬v.CreatesIn r.2.1 2 attr.ino := by
  intro v r
  obtain ⟨hP, hok, hn, hparent⟩ : v.nodeOf[2]? = some "00000000000100000000" ∧
      r.1 = .ok (⟨4, 0, 0o644, 100, false⟩, 1) ∧
      r.2.1.nodeOf[4]? = some "00000000000400000003" ∧
      r.2.1.drive.tree.parentOf "00000000000400000003" ≠ some "00000000000100000000" := by
    decide +kernel
  exact ⟨reachable_collidingVfs, hP, _, _, hok, (createsIn_iff hP hn).not.2 hparent⟩

theorem eq_some_of_fst {α β : Type*} {o : Option (α × β)} (h : o.isSome) {a : α}
    (ha : (o.get h).1 = a) : o = some (a, (o.get h).2) := by
  subst ha
  exact (Option.some_get h).symm

/-- A file created in the inode of the younger is its child. -/
theorem inode_ops_iff_younger :
    let v := collidingVfs
    let r := (v.create 3 3 "f" 100).get (by decide +kernel)
    ∃ attr fh, r.1 = .ok (attr, fh) ∧ v.CreatesIn r.2.1 3 attr.ino := by
  intro v r
  obtain ⟨hok, hP, hpath, hresolves, habove⟩ : r.1 = .ok (⟨4, 0, 0o644, 100, false⟩, 1) ∧
      v.nodeOf[3]? = some "00000000000200000001" ∧
      v.drive.tree.path "00000000000200000001" = some "/a" ∧
      (v.drive.tree.path "00000000000200000001").bind v.drive.tree.resolve =
        some "00000000000200000001" ∧
      ¬v.drive.tree.isAncestor (v.drive.nextId 3) "00000000000200000001" := by
    decide +kernel
  have hcreates : ∀ x : Vfs × ℕ, v.create 3 3 "f" 100 = some (.ok (⟨4, 0, 0o644, 100, false⟩, 1), x) →
      v.CreatesIn x.1 3 4 := by
    rintro ⟨v', ctr'⟩ hr
    refine ((inode_ops_iff reachable_collidingVfs 3 "f").1 3 100 ctr' 1 _ v' hr).2
      ⟨"00000000000200000001", "/a", ⟨hP, hresolves⟩, hpath, ?_⟩
    intro id hid
    obtain rfl := Drive.mints_eq_some hid
    have hg := reachable_collidingVfs.inv.drive.replayed.grounded
    exact fun hreach => habove (hg.isAncestor_iff.2 hreach)
  exact ⟨_, _, hok, hcreates _ (eq_some_of_fst _ hok)⟩

end Vfs

end CeDrive
