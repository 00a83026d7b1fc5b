import CeDrive.LocalMove
import CeDrive.Vfs

/-!
# Renaming in the mount

`Vfs.rename` moves the source to its new name and then deletes the node it displaced, both
by path. Paths are spelled by bare names and followed by listed names, and after the move
source and displaced node share a bare name, which the source now holds. So the path of the
displaced node leads to the source, unless the displaced node was listed under a conflict
name of which the source held the bare name (`NextInLine`).

`Renamed` is the effect of a rename on the tree, `Arrives` what it should be. On the nodes
it is given a rename arrives exactly if it lands (`Lands`). If a bare path leads to another
directory, it acts on other nodes and arrives only if nothing changes (`Stays`) : a path
that leads into another directory is too long to be its path.
-/

open Std (ExtTreeMap)
open Forest

namespace CeDrive

namespace DriveTree

variable {t t' t₁ t₂ : DriveTree} {P Q c d m n p q s x : NodeId} {b name newName : String}
  {k : NodeKind} {names : List String}

/-! ## The effect of a rename -/

/-- `t'` is `t` after the node that `path` resolves to was moved to the trash. The root is
not, and there may be no such node. -/
def Deleted (t t' : DriveTree) (path : String) : Prop :=
  ((∀ x, t.resolve path = some x → x = ROOT) ∧ t' = t) ∨
    ∃ x e, t.resolve path = some x ∧ t.edges[x]? = some e ∧ Moved t t' x TRASH e.name e.kind

/-- `s` was moved into `q` as `newName`, and then the node found there before was deleted by
its path. -/
structure Renamed (t t₁ t₂ : DriveTree) (s q : NodeId) (newName : String) : Prop where
  moved : Moved t t₁ s q newName (t.kindOf s)
  free : (∀ d, t.lookupChild q newName = some d → d = s) → t₂ = t₁
  deleted : ∀ d, t.lookupChild q newName = some d → d ≠ s →
    ∃ path, Deleted t₁ t₂ ((t₁.path d).getD path)

/-- What an overwriting rename should do to the tree : `n` is found in `Q` as `newName` and
is not in the trash, the node found there before is, and no other node has moved. -/
structure Arrives (t t' : DriveTree) (Q : NodeId) (newName : String) (n : NodeId) : Prop where
  found : t'.lookupChild Q newName = some n
  displaced : ∀ d, t.lookupChild Q newName = some d → d ≠ n → t'.isTrashed d = true
  kept : t'.isTrashed n = false
  frame : ∀ m, m ≠ n → t.lookupChild Q newName ≠ some m → t'.edges[m]? = t.edges[m]?

/-- `d` is next in line for the bare name of `n` in `Q`, and the trash is not below it. -/
def NextInLine (t : DriveTree) (Q d n : NodeId) : Prop :=
  (∃ b, b ≠ "" ∧ t.Called Q b n ∧ t.Called Q b d ∧ t.definingTs d < t.definingTs n ∧
    ∀ m, t.Called Q b m → m ≠ n → t.definingTs m ≤ t.definingTs d) ∧
  ¬Reaches t.parentOf TRASH d

/-- The rename acts by path on the nodes it is given : the paths lead to `n` and to `Q`, `n`
is not `Q` or above it, no other child of `Q` has `newName` as its conflict name, and a node
found under `newName` is next in line for the bare name of `n`. -/
structure Lands (t : DriveTree) (P : NodeId) (name : String) (Q : NodeId) (newName : String)
    (n : NodeId) : Prop where
  source : ((t.path P).bind fun dir => t.resolve (joinPath dir name)) = some n
  target : (t.path Q).bind t.resolve = some Q
  outside : ¬Reaches t.parentOf Q n
  alone : ∀ b x m, x ≠ n → m ≠ n → t.lookupChild Q newName ≠ some x →
    t.lookupChild Q newName ≠ some m → t.Called Q b x → t.Called Q b m →
    t.definingTs x < t.definingTs m → conflictName b (t.definingTs x) ≠ newName
  next : ∀ d, t.lookupChild Q newName = some d → d ≠ n → t.NextInLine Q d n

theorem Renamed.trash_step (hr : Renamed t t₁ t₂ s q newName) : t₂ = t₁ ∨
    ∃ (d x : NodeId) (e : Edge) (path : String), t.lookupChild q newName = some d ∧ d ≠ s ∧
      t₁.resolve ((t₁.path d).getD path) = some x ∧ t₁.edges[x]? = some e ∧
      Moved t₁ t₂ x TRASH e.name e.kind := by
  by_cases hd : ∃ d, t.lookupChild q newName = some d ∧ d ≠ s
  · obtain ⟨d, hd, hne⟩ := hd
    obtain ⟨path, ⟨-, rfl⟩ | ⟨x, e, hres, he, hx⟩⟩ := hr.deleted d hd hne
    · exact Or.inl rfl
    · exact Or.inr ⟨d, x, e, path, hd, hne, hres, he, hx⟩
  · exact Or.inl (hr.free fun d hl => by_contra fun hne => hd ⟨d, hl, hne⟩)

theorem Renamed.replayed (hr : Renamed t t₁ t₂ s q newName) : t₂.Replayed := by
  obtain rfl | ⟨-, x, e, -, -, -, -, -, hx⟩ := hr.trash_step
  · exact hr.moved.replayed
  · exact hx.replayed

/-- The second step moves nodes to the trash only. -/
theorem Renamed.edge_or_trashed (hr : Renamed t t₁ t₂ s q newName) (m : NodeId) :
    t₂.edges[m]? = t₁.edges[m]? ∨ t₂.isTrashed m = true := by
  obtain rfl | ⟨-, x, e, -, -, -, -, -, hx⟩ := hr.trash_step
  · exact Or.inl rfl
  · by_cases hm : m = x
    · subst hm
      by_cases hskip : Reaches t₁.parentOf TRASH m
      · exact Or.inl (by rw [hx.skipped hskip])
      · exact Or.inr (hx.isTrashed_self rfl hskip)
    · exact Or.inl (hx.edge_of_ne hm)

theorem Renamed.isTrashed (hr : Renamed t t₁ t₂ s q newName) (hm : t₁.isTrashed m = true) :
    t₂.isTrashed m = true := by
  obtain rfl | ⟨-, x, e, -, -, -, -, -, hx⟩ := hr.trash_step
  · exact hm
  · exact hx.isTrashed hr.moved.replayed rfl hm

/-- The node is found at its new place, if the other children are as before and none of them
takes the name. -/
theorem Lands.found (hL : t.Lands P name Q newName n) (ht : t₂.Replayed) (hQ : Q ≠ TRASH)
    (hself : t₂.Called Q newName n)
    (hothers : ∀ b m, m ≠ n → t₂.Called Q b m → t.Called Q b m ∧
      t.lookupChild Q newName ≠ some m ∧ t₂.definingTs m = t.definingTs m)
    (hlatest : ∀ m, m ≠ n → t₂.Called Q newName m → t₂.definingTs m < t₂.definingTs n) :
    t₂.lookupChild Q newName = some n ∧ t₂.isTrashed n = false := by
  refine ⟨ht.lookupChild_of_latest hself (fun m hm hne => hlatest m hne hm) ?_,
    not_trashed_of_called ht hQ hself⟩
  intro b x m hx hm hlt
  by_cases hxn : x = n
  · rw [hxn] at hx
    exact ht.mirror.called_unique hx hself ▸ conflictName_ne _ _
  by_cases hmn : m = n
  · rw [hmn] at hm
    exact ht.mirror.called_unique hm hself ▸ conflictName_ne _ _
  obtain ⟨hx, hxl, hxts⟩ := hothers b x hxn hx
  obtain ⟨hm, hml, hmts⟩ := hothers b m hmn hm
  rw [hxts, hmts] at hlt
  rw [hxts]
  exact hL.alone b x m hxn hmn hxl hml hx hm hlt

theorem Replayed.exists_pathTo (ht : t.Replayed) (hQ : (t.path Q).bind t.resolve = some Q) :
    ∃ names, t.PathTo names Q ∧ components (pathString names) = names ∧
      t.resolveFrom ROOT names = some Q := by
  obtain ⟨dir, hdir, hres⟩ := Option.bind_eq_some_iff.1 hQ
  obtain ⟨names, hp, rfl⟩ := ht.grounded.path_eq_some_iff.1 hdir
  have hnames := ht.components_of_resolve hp hres
  refine ⟨names, hp, hnames, ?_⟩
  rw [resolve_eq, hnames] at hres
  exact hres

/-- The bare path of a child. -/
theorem PathTo.path_child (hg : t.Grounded) (h : t.PathTo names q) (hc : t.Called q b c)
    (ht : t.Mirror) : t.path c = some (pathString (names ++ [b])) := by
  obtain ⟨⟨e, he, rfl, rfl⟩, -⟩ := ht.called_iff.1 hc
  exact hg.path_eq_some_iff.2 ⟨_, h.child he, rfl⟩

theorem isComponent_of_prefix (hnew : IsComponent newName) (hb : b ≠ "")
    (hpre : b.toList <+: newName.toList) : IsComponent b :=
  ⟨hb, fun h => hnew.2 (hpre.subset h)⟩

theorem Moved.pathTo (hm : Moved t t₁ c p name k) (hp : t.PathTo names q)
    (hq : ¬Reaches t.parentOf q c) : t₁.PathTo names q :=
  hp.of_edges fun m hqm => hm.edge_of_ne (by
    rintro rfl
    exact hq hqm)

theorem Moved.path_child (hm : Moved t t₁ c p name k) (hp : t.PathTo names q)
    (hq : ¬Reaches t.parentOf q c) (hd : t₁.Called q b d) :
    t₁.path d = some (pathString (names ++ [b])) :=
  (hm.pathTo hp hq).path_child hm.replayed.grounded hd hm.replayed.mirror

/-- After the move, the path of a node that was next in line leads to it. -/
theorem Lands.resolve_displaced (hL : t.Lands P name Q newName n) (ht : t.Replayed)
    (hn : t.lookupChild P name = some n) (hnew : IsComponent newName)
    (hm : Moved t t₁ n Q newName k) (hd : t.lookupChild Q newName = some d) (hne : d ≠ n) :
    t₁.parentOf = t.parentOf ∧ t₁.parentOf d = some Q ∧
      ∃ u, t₁.path d = some u ∧ t₁.resolve u = some d := by
  obtain ⟨⟨b, hb, hbn, hbd, hlt, hmax⟩, -⟩ := hL.next d hd hne
  have hothers : ∀ b m, m ≠ n → (t₁.Called Q b m ↔ t.Called Q b m) := fun b m hne =>
    hm.called_iff ht hL.outside hne
  -- `n` is listed under the bare name, so it was the source's name, in the same directory
  have hlists : t.Lists Q b n := ht.lists_iff.2 ⟨b, hbn, Or.inl ⟨fun m hbm => by
    by_cases hmn : m = n
    · rw [hmn]
    · exact (hmax m hbm hmn).trans hlt.le, rfl⟩⟩
  obtain ⟨rfl, rfl⟩ := ht.lists_unique (lists_of_lookupChild hn) hlists
  obtain ⟨⟨en, hen, rfl, -⟩, -⟩ := ht.mirror.called_iff.1 hbn
  obtain ⟨⟨ed, hed, hedp, -⟩, -⟩ := ht.mirror.called_iff.1 hbd
  have hparent := parentOf_of_edge hen
  refine ⟨hm.parentOf_of_parent hparent, ?_, ?_⟩
  · rw [parentOf_of_edge ((hm.edge_of_ne hne).trans hed), hedp]
  -- `d` is listed under a conflict name, so `newName` is longer than the bare name
  have hconf : newName = conflictName name (t.definingTs d) := by
    obtain ⟨b', hb', ⟨hmax', -⟩ | ⟨-, hc⟩⟩ := ht.lists_iff.1 (lists_of_lookupChild hd)
    · obtain rfl := ht.mirror.called_unique hbd hb'
      exact absurd hlt (not_lt_of_ge (hmax' n hbn))
    · exact ht.mirror.called_unique hbd hb' ▸ hc
  have hlonger : ∀ ts, conflictName newName ts ≠ name := by
    intro ts heq
    have hlen := congrArg (fun s : String => s.toList.length) heq
    simp only [hconf, toList_conflictName, List.length_append, List.length_cons] at hlen
    omega
  have hcomp : IsComponent name :=
    isComponent_of_prefix hnew hb (ht.prefix_of_lists (lists_of_lookupChild hd) hbd)
  have hd₁ : t₁.Called en.parent name d := (hothers _ d hne).2 hbd
  have hlookup : t₁.lookupChild en.parent name = some d := by
    have hname : ∀ {b m}, t₁.Called en.parent b m → m = n → b = newName := by
      rintro b m hbm rfl
      obtain ⟨⟨e, he, -, rfl⟩, -⟩ := hm.replayed.mirror.called_iff.1 hbm
      rw [hm.edge_self hL.outside] at he
      rw [← Option.some_injective _ he]
    have hnn : ∀ {m}, t₁.Called en.parent name m → m ≠ n := by
      intro m hbm hmn
      have hnew' : name = newName := hname hbm hmn
      exact conflictName_ne name _ (hconf.symm.trans hnew'.symm)
    refine hm.replayed.lookupChild_of_latest hd₁ (fun m hbm hmd => ?_) fun b x m hx hm' hlt' => ?_
    · have hmn := hnn hbm
      have hbm' := (hothers _ m hmn).1 hbm
      rw [hm.stamp m hmn, hm.stamp d hne]
      exact lt_of_le_of_ne (hmax m hbm' hmn) fun heq => hmd (ht.eq_of_definingTs_eq hbm' hbd heq)
    · by_cases hxn : x = n
      · exact hname hx hxn ▸ hlonger _
      by_cases hmn : m = n
      · exact hname hm' hmn ▸ hlonger _
      rw [hm.stamp x hxn, hm.stamp m hmn] at hlt'
      rw [hm.stamp x hxn]
      exact ht.conflictName_ne hn hbn ((hothers b x hxn).1 hx) ((hothers b m hmn).1 hm') hlt'
  obtain ⟨names, hp, hnames, hres⟩ := ht.exists_pathTo hL.target
  have hres₁ : t₁.resolveFrom ROOT names = some en.parent :=
    ht.mirror.resolveFrom_congr ht.grounded
      (fun x r hx _ => (hm.lookupChild_of_parent ht hparent hx r).symm) hres
  refine ⟨_, hm.path_child hp hL.outside hd₁, ?_⟩
  rw [resolve_append _ hnames hcomp, hres₁]
  exact hlookup

/-- A rename that lands does what it should. -/
theorem Lands.arrives (hL : t.Lands P name Q newName n) (ht : t.Replayed)
    (hQ : t.isTrashed Q = false) (hn : t.lookupChild P name = some n) (hnew : IsComponent newName)
    (hr : Renamed t t₁ t₂ n Q newName) : t.Arrives t₂ Q newName n := by
  have hm := hr.moved
  have hQT : Q ≠ TRASH := by
    rintro rfl
    rw [← Bool.not_eq_true, DriveTree.isTrashed, ht.grounded.isAncestor_iff] at hQ
    exact hQ (Reaches.refl _)
  obtain ⟨bn, hbn⟩ := ht.called_of_lists (lists_of_lookupChild hn)
  have hself : t₁.Called Q newName n :=
    hm.called_self ht hL.outside hQ (ne_trash_of_called ht hbn)
  have hothers : ∀ b m, m ≠ n → (t₁.Called Q b m ↔ t.Called Q b m) := fun b m hne =>
    hm.called_iff ht hL.outside hne
  by_cases hd : ∃ d, t.lookupChild Q newName = some d ∧ d ≠ n
  · obtain ⟨d, hd, hne⟩ := hd
    obtain ⟨hparents, hdQ, u, hu, hres⟩ := hL.resolve_displaced ht hn hnew hm hd hne
    obtain ⟨path, hdel⟩ := hr.deleted d hd hne
    rw [hu, Option.getD_some, Deleted, hres] at hdel
    obtain ⟨names, hp, -⟩ := ht.exists_pathTo hL.target
    have hdroot : d ≠ ROOT := by
      rintro rfl
      exact ht.grounded.not_reaches_of_up (hparents ▸ hdQ) hp.reaches
    obtain ⟨hroot, -⟩ | ⟨x, e, hx, -, hm₂⟩ := hdel
    · exact absurd (hroot d rfl) hdroot
    obtain rfl := Option.some_injective _ hx
    have hg := hm.replayed.grounded
    have hQd : ¬Reaches t₁.parentOf Q d := hg.not_reaches_of_up hdQ
    have hTd : ¬Reaches t₁.parentOf TRASH d := hparents ▸ (hL.next d hd hne).2
    have hned : ∀ {b m}, t₂.Called Q b m → m ≠ d := by
      rintro b m hbm rfl
      obtain ⟨⟨e', he', rfl, -⟩, -⟩ := hm₂.replayed.mirror.called_iff.1 hbm
      rw [hm₂.edge_self hTd] at he'
      exact hQT (Option.some_injective _ he' ▸ rfl)
    obtain ⟨hfound, hkept⟩ := hL.found hm₂.replayed hQT
      ((hm₂.called_iff hm.replayed hQd (Ne.symm hne)).2 hself)
      (fun b m hmn hc => ⟨(hothers b m hmn).1 ((hm₂.called_iff hm.replayed hQd (hned hc)).1 hc),
        fun hl => hned hc (Option.some_injective _ (hl.symm.trans hd)),
        (hm₂.stamp m (hned hc)).trans (hm.stamp m hmn)⟩)
      fun m hmn hc => by
        rw [hm₂.stamp m (hned hc), hm₂.stamp n (Ne.symm hne)]
        exact hm.latest m hmn
    refine ⟨hfound, fun d' hd' _ => ?_, hkept, fun m hmn hl => ?_⟩
    · obtain rfl := Option.some_injective _ (hd.symm.trans hd')
      exact hm₂.isTrashed_self rfl hTd
    · have hmd : m ≠ d := fun heq => hl (heq ▸ hd)
      rw [hm₂.edge_of_ne hmd, hm.edge_of_ne hmn]
  · have hfree : ∀ d, t.lookupChild Q newName = some d → d = n := fun d hl =>
      by_contra fun hne => hd ⟨d, hl, hne⟩
    obtain rfl := hr.free hfree
    obtain ⟨hfound, hkept⟩ := hL.found hm.replayed hQT hself
      (fun b m hne hc => ⟨(hothers b m hne).1 hc, fun hl => hne (hfree m hl), hm.stamp m hne⟩)
      fun m hne _ => hm.latest m hne
    exact ⟨hfound, fun d hl hne => absurd (hfree d hl) hne, hkept, fun m hne _ => hm.edge_of_ne hne⟩

theorem Arrives.called (ha : t.Arrives t₂ Q newName n) (ht : t₂.Replayed) :
    ∃ e, t₂.edges[n]? = some e ∧ e.parent = Q ∧ t₂.Called Q e.name n := by
  obtain ⟨b, hb⟩ := ht.called_of_lists (lists_of_lookupChild ha.found)
  obtain ⟨⟨e, he, hp, rfl⟩, -⟩ := ht.mirror.called_iff.1 hb
  exact ⟨e, he, hp, hb⟩

theorem Arrives.not_trashed (ha : t.Arrives t₂ Q newName n) (ht : t₂.Replayed) :
    t₂.isTrashed Q = false := by
  obtain ⟨e, he, rfl, -⟩ := ha.called ht
  rw [← Bool.not_eq_true]
  intro htr
  have hn := isTrashed_of_parent ht (parentOf_of_edge he) htr
  rw [ha.kept] at hn
  cases hn

/-- Nor was the directory in the trash before, if the source was not above it or stays where
it was. -/
theorem Arrives.not_trashed_before (ha : t.Arrives t₂ Q newName n) (ht : t.Replayed)
    (hr : Renamed t t₁ t₂ s q b) (hs : ¬Reaches t.parentOf Q s ∨ t.parentOf s = some q) :
    t.isTrashed Q = false := by
  rw [← Bool.not_eq_true]
  intro htr
  have htr₁ : t₁.isTrashed Q = true := by
    rw [DriveTree.isTrashed, ht.grounded.isAncestor_iff] at htr
    rw [DriveTree.isTrashed, hr.moved.replayed.grounded.isAncestor_iff]
    rcases hs with hs | hs
    · exact (hr.moved.reaches_iff hs).2 htr
    · rwa [hr.moved.parentOf_of_parent hs]
  have htr₂ := hr.isTrashed htr₁
  rw [ha.not_trashed hr.replayed] at htr₂
  cases htr₂

/-- The edge of the node moved is the one the move gave it. -/
theorem Arrives.edge_eq (ha : t.Arrives t₂ Q newName n) (hr : Renamed t t₁ t₂ s q b) :
    t₂.edges[n]? = t₁.edges[n]? :=
  (hr.edge_or_trashed n).resolve_right (by simp [ha.kept])

theorem Arrives.outside (ha : t.Arrives t₂ Q newName n) (ht : t.Replayed)
    (hr : Renamed t t₁ t₂ n Q newName) : ¬Reaches t.parentOf Q n := by
  intro hskip
  obtain ⟨e, he, rfl, -⟩ := ha.called hr.replayed
  rw [ha.edge_eq hr, hr.moved.skipped hskip] at he
  exact ht.grounded.not_reaches_of_up (parentOf_of_edge he) hskip

/-- The node displaced was found by its path after the move. -/
theorem Arrives.resolve_displaced (ha : t.Arrives t₂ Q newName n) (ht : t.Replayed)
    (hr : Renamed t t₁ t₂ n Q newName) (hd : t.lookupChild Q newName = some d) (hne : d ≠ n) :
    ∃ (path : String) (e : Edge), t₁.resolve ((t₁.path d).getD path) = some d ∧
      Moved t₁ t₂ d TRASH e.name e.kind ∧ ¬Reaches t₁.parentOf TRASH d := by
  obtain ⟨b, hb⟩ := ht.called_of_lists (lists_of_lookupChild hd)
  obtain ⟨⟨ed, hed, hp, -⟩, -⟩ := ht.mirror.called_iff.1 hb
  -- where it was, it would not be in the trash
  have hmoved : t₂.edges[d]? ≠ t₁.edges[d]? := by
    intro heq
    rw [hr.moved.edge_of_ne hne, hed] at heq
    have htr := hr.replayed.grounded.isAncestor_iff.1 (ha.displaced d hd hne)
    rw [reaches_iff_of_parent (parentOf_of_edge heq), hp] at htr
    refine htr.elim (fun hT => ne_trash_of_called ht hb hT.symm) fun hQ => ?_
    have hnot := ha.not_trashed hr.replayed
    rw [DriveTree.isTrashed, hr.replayed.grounded.isAncestor_iff.2 hQ] at hnot
    cases hnot
  obtain ⟨path, ⟨-, rfl⟩ | ⟨x, e, hx, -, hm⟩⟩ := hr.deleted d hd hne
  · exact absurd rfl hmoved
  · obtain rfl : d = x := by_contra fun hdx => hmoved (hm.edge_of_ne hdx)
    exact ⟨path, e, hx, hm, fun hskip => hmoved (by rw [hm.skipped hskip])⟩

/-- The other children of the directory stay there, with their stamps. -/
theorem Arrives.bystander (ha : t.Arrives t₂ Q newName n) (ht : t.Replayed)
    (hr : Renamed t t₁ t₂ n Q newName) (hx : x ≠ n) (hxl : t.lookupChild Q newName ≠ some x)
    (hc : t.Called Q b x) : t₂.Called Q b x ∧ t₂.definingTs x = t.definingTs x := by
  have hm := hr.moved
  have hc₁ := (hm.called_iff ht (ha.outside ht hr) hx).2 hc
  by_cases hd : ∃ d, t.lookupChild Q newName = some d ∧ d ≠ n
  · obtain ⟨d, hd, hne⟩ := hd
    obtain ⟨-, e, -, hm₂, -⟩ := ha.resolve_displaced ht hr hd hne
    have hxd : x ≠ d := fun heq => hxl (heq ▸ hd)
    obtain ⟨bd, hbd⟩ := ht.called_of_lists (lists_of_lookupChild hd)
    obtain ⟨⟨ed, hed, rfl, -⟩, -⟩ := ht.mirror.called_iff.1 hbd
    have hQd := hm.replayed.grounded.not_reaches_of_up
      (parentOf_of_edge ((hm.edge_of_ne hne).trans hed))
    exact ⟨(hm₂.called_iff hm.replayed hQd hxd).2 hc₁, (hm₂.stamp x hxd).trans (hm.stamp x hx)⟩
  · obtain rfl := hr.free fun d hl => by_contra fun hne => hd ⟨d, hl, hne⟩
    exact ⟨hc₁, hm.stamp x hx⟩

/-- The node displaced was next in line : after the move it is found by its bare name. -/
theorem Arrives.nextInLine (ha : t.Arrives t₂ Q newName n) (ht : t.Replayed)
    (hnew : IsComponent newName) (htarget : (t.path Q).bind t.resolve = some Q)
    (hr : Renamed t t₁ t₂ n Q newName) (hself : t₁.Called Q newName n)
    (hd : t.lookupChild Q newName = some d) (hne : d ≠ n) : t.NextInLine Q d n := by
  have hm := hr.moved
  have hout := ha.outside ht hr
  have hothers : ∀ b m, m ≠ n → (t₁.Called Q b m ↔ t.Called Q b m) := fun b m hne =>
    hm.called_iff ht hout hne
  have hlists := lists_of_lookupChild hd
  obtain ⟨b, hb, hcase⟩ := ht.lists_iff.1 hlists
  have hb₁ := (hothers b d hne).2 hb
  obtain ⟨names, hp, hnames, hres⟩ := ht.exists_pathTo htarget
  obtain ⟨path, e, hresd, hm₂, htrash⟩ := ha.resolve_displaced ht hr hd hne
  rw [hm.path_child hp hout hb₁, Option.getD_some] at hresd
  have hempty : b ≠ "" := by
    rintro rfl
    have hp₁ : t₁.PathTo (names ++ [""]) d := by
      obtain ⟨⟨e', he', rfl, hname⟩, -⟩ := hm.replayed.mirror.called_iff.1 hb₁
      exact hname ▸ .child (hm.pathTo hp hout) he'
    rw [resolve_eq, components_pathString_append_empty, ← resolve_eq] at hresd
    have hlen := (hm.replayed.slashed_le_of_resolve hresd hp₁).1
    simp at hlen
  have hcomp := isComponent_of_prefix hnew hempty (ht.prefix_of_lists hlists hb)
  rw [resolve_append _ hnames hcomp] at hresd
  obtain ⟨p, -, hl⟩ := Option.bind_eq_some_iff.1 hresd
  -- found by its bare name, `d` was moved last of that name, `n` apart
  have hmax : ∀ m, t₁.Called Q b m → t₁.definingTs m ≤ t₁.definingTs d := by
    obtain ⟨b', hb', -⟩ := hm.replayed.lists_iff.1 (lists_of_lookupChild hl)
    obtain ⟨-, rfl⟩ := hm.replayed.mirror.name_unique (mem_shownChildren.1 hb').1
      (mem_shownChildren.1 hb₁).1
    exact fun m => hm.replayed.definingTs_le (lists_of_lookupChild hl) hb₁
  have hmax' : ∀ m, t.Called Q b m → m ≠ n → t.definingTs m ≤ t.definingTs d := by
    intro m hbm hmn
    rw [← hm.stamp m hmn, ← hm.stamp d hne]
    exact hmax m ((hothers b m hmn).2 hbm)
  obtain ⟨-, rfl⟩ | ⟨⟨m, hbm, hlt⟩, -⟩ := hcase
  · exact absurd (hmax n hself) (not_le_of_gt (hm.latest d hne))
  · obtain rfl : m = n := by_contra fun hmn => absurd (hmax' m hbm hmn) (not_le_of_gt hlt)
    obtain ⟨⟨en, hen, rfl, -⟩, -⟩ := ht.mirror.called_iff.1 hbm
    refine ⟨⟨b, hempty, hbm, hb, hlt, hmax'⟩, ?_⟩
    rwa [hm.parentOf_of_parent (parentOf_of_edge hen)] at htrash

/-- A rename by path that does what it should, on the nodes it is given, lands. -/
theorem Arrives.lands (ha : t.Arrives t₂ Q newName n) (ht : t.Replayed) (hnew : IsComponent newName)
    (hsource : ((t.path P).bind fun dir => t.resolve (joinPath dir name)) = some n)
    (htarget : (t.path Q).bind t.resolve = some Q) (hr : Renamed t t₁ t₂ n Q newName) :
    t.Lands P name Q newName n := by
  have hm := hr.moved
  have hout := ha.outside ht hr
  have hothers : ∀ b m, m ≠ n → (t₁.Called Q b m ↔ t.Called Q b m) := fun b m hne =>
    hm.called_iff ht hout hne
  obtain ⟨e, he, -, hcalled⟩ := ha.called hr.replayed
  have hedge := ha.edge_eq hr
  rw [he, hm.edge_self hout] at hedge
  obtain rfl := Option.some_injective _ hedge
  refine ⟨hsource, htarget, hout, fun b x m hx hmn hxl hml hbx hbm hlt => ?_, fun d hd hne => ?_⟩
  · obtain ⟨hbx', hxts⟩ := ha.bystander ht hr hx hxl hbx
    obtain ⟨hbm', hmts⟩ := ha.bystander ht hr hmn hml hbm
    rw [← hxts, ← hmts] at hlt
    rw [← hxts]
    exact hr.replayed.conflictName_ne ha.found hcalled hbx' hbm' hlt
  · have hself : t₁.isTrashed n = false := by
      rw [← Bool.not_eq_true]
      intro htr
      have hkept := hr.isTrashed htr
      rw [ha.kept] at hkept
      cases hkept
    exact ha.nextInLine ht hnew htarget hr (hm.replayed.mirror.called_iff.2
      ⟨⟨_, hm.edge_self hout, rfl, rfl⟩, Or.inr hself⟩) hd hne

/-! ## Renames of other nodes -/

/-- The rename is onto the same name in the same directory, and the node the path leads to
has that bare name. -/
structure Stays (t : DriveTree) (P : NodeId) (name : String) (Q : NodeId) (newName : String) :
    Prop where
  sameDir : P = Q
  sameName : name = newName
  bare : ∃ s e, ((t.path P).bind fun dir => t.resolve (joinPath dir name)) = some s ∧
    t.edges[s]? = some e ∧ e.name = newName

section OtherNode

variable (ha : t.Arrives t₂ Q newName n) (ht : t.Replayed)
  (hr : Renamed t t₁ t₂ s q newName) (hn : t.lookupChild Q name = some n)
  (hs : t.lookupChild q name = some s) (hq : q ≠ Q)
include ha ht hr hn hs hq

theorem Arrives.edge_source : ∃ e, t.edges[s]? = some e ∧ e.parent = q ∧ e.name = newName ∧
    ∀ m : NodeId, t₁.edges[m]? = t.edges[m]? := by
  have hm := hr.moved
  obtain ⟨b, hb⟩ := ht.called_of_lists (lists_of_lookupChild hs)
  obtain ⟨⟨e, he, rfl, -⟩, -⟩ := ht.mirror.called_iff.1 hb
  have hself := hm.edge_self (ht.grounded.not_reaches_of_up (parentOf_of_edge he))
  have hsn : s ≠ n := by
    rintro rfl
    exact hq (ht.lists_unique (lists_of_lookupChild hs) (lists_of_lookupChild hn)).1
  have hframe : t₂.edges[s]? = some e := by
    rw [ha.frame s hsn, he]
    intro hl
    obtain ⟨e', he', rfl, -⟩ := ht.mirror.edge_of_lookupChild hl
    exact hq (Option.some_injective _ (he.symm.trans he') ▸ rfl)
  have hname : e.name = newName := by
    obtain rfl | ⟨-, x, e', -, -, -, -, he', hx⟩ := hr.trash_step
    · rw [hself] at hframe
      rw [← Option.some_injective _ hframe]
    · by_cases hskip : s ≠ x ∨ Reaches t₁.parentOf TRASH x
      · have hsame : t₂.edges[s]? = t₁.edges[s]? :=
          hskip.elim hx.edge_of_ne fun hskip => by rw [hx.skipped hskip]
        rw [hsame, hself] at hframe
        rw [← Option.some_injective _ hframe]
      · obtain ⟨hsx, hskip⟩ := not_or.1 hskip
        obtain rfl := not_ne_iff.1 hsx
        rw [hx.edge_self hskip] at hframe
        rw [← Option.some_injective _ hframe, ← Option.some_injective _ (hself.symm.trans he')]
  exact ⟨e, he, rfl, hname, hm.edges_of_self ht he rfl hname rfl⟩

/-- If `n` changes its name, the node trashed is `n` itself or a child of `Q` with the new
name : only a later child that goes away, or a new stamp, brings `n` its bare name. -/
theorem Arrives.trashed_of_ne (hne : name ≠ newName) : ∃ (d x : NodeId) (path : String),
    t.lookupChild q newName = some d ∧ d ≠ s ∧ t₁.resolve ((t₁.path d).getD path) = some x ∧
      t.Called Q newName x := by
  have hm := hr.moved
  obtain ⟨es, hes, rfl, hesname, hedges⟩ := ha.edge_source ht hr hn hs hq
  have hsn : s ≠ n := by
    rintro rfl
    exact hq (ht.lists_unique (lists_of_lookupChild hs) (lists_of_lookupChild hn)).1
  -- the source has the new name as its bare name, so the old name is longer
  have hlonger : newName.toList.length < name.toList.length := by
    obtain ⟨b, hb, ⟨-, hb'⟩ | ⟨-, hconf⟩⟩ := ht.lists_iff.1 (lists_of_lookupChild hs)
    · obtain ⟨⟨e, he, -, rfl⟩, -⟩ := ht.mirror.called_iff.1 hb
      exact absurd (hb'.trans (Option.some_injective _ (he.symm.trans hes) ▸ hesname)) hne
    · obtain ⟨⟨e, he, -, rfl⟩, -⟩ := ht.mirror.called_iff.1 hb
      obtain rfl := Option.some_injective _ (he.symm.trans hes)
      rw [hconf, hesname, toList_conflictName]
      simp only [List.length_append, List.length_cons]
      omega
  obtain ⟨e₂, he₂, hp₂, hcalled₂⟩ := ha.called hr.replayed
  rw [ha.edge_eq hr, hedges] at he₂
  have hpre := (hr.replayed.prefix_of_lists (lists_of_lookupChild ha.found) hcalled₂).length_le
  obtain ⟨b, hb, hcase⟩ := ht.lists_iff.1 (lists_of_lookupChild hn)
  obtain ⟨⟨e, he, -, rfl⟩, -⟩ := ht.mirror.called_iff.1 hb
  obtain rfl := Option.some_injective _ (he.symm.trans he₂)
  obtain ⟨-, rfl⟩ | ⟨⟨m, hm', hlt⟩, hconf⟩ := hcase
  · omega
  have hmne : m ≠ s := by
    rintro rfl
    obtain ⟨⟨e', he', rfl, -⟩, -⟩ := ht.mirror.called_iff.1 hm'
    exact hq (Option.some_injective _ (hes.symm.trans he') ▸ rfl)
  -- a child that keeps edge and stamp is still later, if `n` keeps its stamp
  have hlater : t₂.edges[m]? = t₁.edges[m]? → t₂.definingTs m = t₁.definingTs m →
      t₂.definingTs n = t₁.definingTs n →
      t₂.Called Q e.name m ∧ t₂.definingTs n < t₂.definingTs m := by
    intro hedge hts htsn
    obtain ⟨⟨em, hem, rfl, hname⟩, -⟩ := ht.mirror.called_iff.1 hm'
    rw [hedges, hem] at hedge
    refine ⟨hname ▸ called_of_edge hr.replayed hedge (ha.not_trashed hr.replayed)
      (ne_trash_of_called ht hm'), ?_⟩
    rw [hts, htsn, hm.stamp m hmne, hm.stamp n (Ne.symm hsn)]
    exact hlt
  obtain ⟨b₂, hb₂, hcase₂⟩ := hr.replayed.lists_iff.1 (lists_of_lookupChild ha.found)
  obtain rfl := hr.replayed.mirror.called_unique hcalled₂ hb₂
  obtain rfl | ⟨d, x, e', path, hd, hds, hx, -, hm₂⟩ := hr.trash_step
  · obtain ⟨hbm, hlt₂⟩ := hlater rfl rfl rfl
    obtain ⟨hmax, -⟩ | ⟨-, hconf₂⟩ := hcase₂
    · exact absurd hlt₂ (not_lt_of_ge (hmax m hbm))
    · rw [hm.stamp n (Ne.symm hsn)] at hconf₂
      exact absurd (hconf.trans hconf₂.symm) hne
  · obtain ⟨hmax, hnew⟩ | ⟨⟨m₂, hm₂', hlt₂⟩, hconf₂⟩ := hcase₂
    · refine ⟨d, x, path, hd, hds, hx, ?_⟩
      by_cases hxn : n = x
      · exact hxn ▸ hnew ▸ hb
      by_cases hxm : m = x
      · exact hxm ▸ hnew ▸ hm'
      obtain ⟨hbm, hlt₂⟩ := hlater (hm₂.edge_of_ne hxm) (hm₂.stamp m hxm) (hm₂.stamp n hxn)
      exact absurd hlt₂ (not_lt_of_ge (hmax m hbm))
    · by_cases hxn : n = x
      · subst hxn
        by_cases hmn : m₂ = n
        · exact absurd hlt₂ (hmn ▸ lt_irrefl _)
        · exact absurd hlt₂ (hm₂.latest m₂ hmn).not_gt
      · rw [hm₂.stamp n hxn, hm.stamp n (Ne.symm hsn)] at hconf₂
        exact absurd (hconf.trans hconf₂.symm) hne

/-- The path that is deleted does not lead to a child of `Q` : it would have to be as long as
the bare path of `Q`, and then it leads to `q`. -/
theorem Arrives.sameName (hnew : IsComponent newName) (hp : t.PathTo names Q)
    (hres : t.resolve (pathString names) = some q) : name = newName := by
  by_contra hne
  have hm := hr.moved
  obtain ⟨es, hes, hesq, -, hedges⟩ := ha.edge_source ht hr hn hs hq
  obtain ⟨d, x, path, hd, hds, hx, hxQ⟩ := ha.trashed_of_ne ht hr hn hs hq hne
  have hsq : t.parentOf s = some q := hesq ▸ parentOf_of_edge hes
  have hqs : ¬Reaches t.parentOf q s := ht.grounded.not_reaches_of_up hsq
  -- the bare path of `q`, and of the node displaced
  obtain ⟨namesq, hpq, -⟩ := ht.pathTo_of_resolveFrom .root (resolve_eq t _ ▸ hres)
  rw [List.nil_append] at hpq
  obtain ⟨b, hb⟩ := ht.called_of_lists (lists_of_lookupChild hd)
  rw [hm.path_child hpq hqs ((hm.called_iff ht hqs hds).2 hb), Option.getD_some] at hx
  obtain ⟨⟨ex, hex, rfl, rfl⟩, -⟩ := ht.mirror.called_iff.1 hxQ
  have hpx : t₁.PathTo (names ++ [ex.name]) x :=
    .child (hp.of_edges fun m _ => hedges m) ((hedges x).trans hex)
  have hlenq := ht.slashed_le_of_resolve hres hpq
  have hlenx := hm.replayed.slashed_le_of_resolve hx hpx
  have hlenb := (ht.prefix_of_lists (lists_of_lookupChild hd) hb).length_le
  simp only [slashed_append, slashed_singleton, List.length_append, List.length_cons] at hlenx
  obtain rfl : b = ex.name := String.toList_inj.1
    ((ht.prefix_of_lists (lists_of_lookupChild hd) hb).eq_of_length (by omega))
  have hnamesq := hlenq.2 (by omega)
  have hnames := hlenx.2 (by omega)
  have hcomp := components_pathString_append (pathString names) hnew
  rw [hnamesq, hnames] at hcomp
  obtain rfl := List.append_cancel_right hcomp
  -- so the path of the node displaced leads into `q`
  rw [resolve_append _ hnamesq hnew] at hx
  obtain ⟨p, hpres, hl⟩ := Option.bind_eq_some_iff.1 hx
  rw [resolve_eq, hnamesq] at hres
  have hres₁ := ht.mirror.resolveFrom_congr ht.grounded
    (fun y r hy _ => (hm.lookupChild_of_parent ht hsq hy r).symm) hres
  obtain rfl := Option.some_injective _ (hpres.symm.trans hres₁)
  obtain ⟨e, he, rfl, -⟩ := hm.replayed.mirror.edge_of_lookupChild hl
  rw [hedges, hex] at he
  exact hq (Option.some_injective _ he ▸ rfl)

end OtherNode

/-- The directory that the path of `Q` leads to is not `Q`, or the node that the source path
leads to is not `n` : then the rename is onto the same name. -/
theorem Arrives.stays (ha : t.Arrives t₂ Q newName n) (ht : t.Replayed) (hname : IsComponent name)
    (hnew : IsComponent newName) (hn : t.lookupChild P name = some n)
    (hs : ((t.path P).bind fun dir => t.resolve (joinPath dir name)) = some s)
    (hq : (t.path Q).bind t.resolve = some q) (hr : Renamed t t₁ t₂ s q newName)
    (hother : ¬(s = n ∧ q = Q)) : t.isTrashed Q = false ∧ t.Stays P name Q newName := by
  obtain ⟨src, hsrc, hres⟩ := Option.bind_eq_some_iff.1 hs
  obtain ⟨dst, hdst, hresq⟩ := Option.bind_eq_some_iff.1 hq
  rw [resolve_joinPath t src hname] at hres
  obtain ⟨p, hp, hl⟩ := Option.bind_eq_some_iff.1 hres
  obtain ⟨e, he, rfl, -⟩ := ha.called hr.replayed
  rw [ha.edge_eq hr] at he
  obtain ⟨en, hen, rfl, -⟩ := ht.mirror.edge_of_lookupChild hn
  -- `n` did not move : it is not the source, or the source was to move elsewhere
  have hkeep : t₁.edges[n]? = t.edges[n]? := by
    by_cases hsn : s = n
    · subst hsn
      by_cases hskip : Reaches t.parentOf q s
      · rw [hr.moved.skipped hskip]
      · rw [hr.moved.edge_self hskip] at he
        exact absurd ⟨rfl, Option.some_injective _ he ▸ rfl⟩ hother
    · exact hr.moved.edge_of_ne (Ne.symm hsn)
  rw [hkeep, hen] at he
  obtain rfl := Option.some_injective _ he
  obtain rfl := Option.some_injective _ (hsrc.symm.trans hdst)
  obtain rfl := Option.some_injective _ (hp.symm.trans hresq)
  have hqQ : p ≠ en.parent := by
    rintro rfl
    exact hother ⟨Option.some_injective _ (hl.symm.trans hn), rfl⟩
  obtain ⟨names, hpath, rfl⟩ := ht.grounded.path_eq_some_iff.1 hsrc
  obtain ⟨es, hes, rfl, hesname, -⟩ := ha.edge_source ht hr hn hl hqQ
  exact ⟨ha.not_trashed_before ht hr (Or.inr (parentOf_of_edge hes)),
    rfl, ha.sameName ht hr hn hl hqQ hnew hpath hp, s, es, hs, hes, hesname⟩

/-- A rename onto the same name changes nothing, if the node that the path leads to has that
bare name. -/
theorem Stays.arrives (hS : t.Stays P name Q newName) (ht : t.Replayed)
    (hQ : t.isTrashed Q = false) (hn : t.lookupChild P name = some n) (hnew : IsComponent newName)
    (hs : ((t.path P).bind fun dir => t.resolve (joinPath dir name)) = some s)
    (hq : (t.path Q).bind t.resolve = some q) (hr : Renamed t t₁ t₂ s q newName) :
    t.Arrives t₂ Q newName n := by
  obtain ⟨rfl, rfl, s', es, hs', hes, hesname⟩ := hS
  obtain rfl := Option.some_injective _ (hs.symm.trans hs')
  obtain ⟨src, hsrc, hres⟩ := Option.bind_eq_some_iff.1 hs
  obtain ⟨dst, hdst, hresq⟩ := Option.bind_eq_some_iff.1 hq
  obtain rfl := Option.some_injective _ (hsrc.symm.trans hdst)
  rw [resolve_joinPath t src hnew] at hres
  obtain ⟨p, hp, hl⟩ := Option.bind_eq_some_iff.1 hres
  obtain rfl := Option.some_injective _ (hp.symm.trans hresq)
  obtain ⟨b, hb⟩ := ht.called_of_lists (lists_of_lookupChild hn)
  by_cases hpP : p = P
  · subst hpP
    obtain rfl := Option.some_injective _ (hl.symm.trans hn)
    obtain ⟨⟨e, he, rfl, rfl⟩, -⟩ := ht.mirror.called_iff.1 hb
    obtain rfl := Option.some_injective _ (he.symm.trans hes)
    have hL : t.Lands e.parent name e.parent name s := ⟨hs, hq,
      ht.grounded.not_reaches_of_up (parentOf_of_edge he),
      fun b x m _ _ _ _ hx hm hlt => ht.conflictName_ne hn (hesname ▸ hb) hx hm hlt,
      fun d hd hne => absurd (Option.some_injective _ (hd.symm.trans hn)) hne⟩
    exact hL.arrives ht hQ hn hnew hr
  · have hPT : P ≠ TRASH := by
      rintro rfl
      rw [← Bool.not_eq_true, DriveTree.isTrashed, ht.grounded.isAncestor_iff] at hQ
      exact hQ (Reaches.refl _)
    obtain ⟨e, he, rfl, -⟩ := ht.mirror.edge_of_lookupChild hl
    obtain rfl := Option.some_injective _ (he.symm.trans hes)
    have hparent := parentOf_of_edge he
    have hm := hr.moved
    obtain rfl := hr.free fun d hd => Option.some_injective _ (hd.symm.trans hl)
    refine ⟨(hm.lookupChild_of_parent ht hparent (Ne.symm hpP) name).trans hn,
      fun d hd hne => absurd (Option.some_injective _ (hd.symm.trans hn)) hne, ?_,
      fun m _ _ => hm.edges_of_self ht he rfl hesname rfl m⟩
    have hkept := not_trashed_of_called ht hPT hb
    rw [← Bool.not_eq_true, DriveTree.isTrashed, ht.grounded.isAncestor_iff] at hkept
    rwa [← Bool.not_eq_true, DriveTree.isTrashed, hm.replayed.grounded.isAncestor_iff,
      hm.parentOf_of_parent hparent]

end DriveTree

namespace Vfs

open DriveTree

variable {v v' : Vfs} {parent newParent : Ino} {name newName : String} {n : NodeId}

/-- The node that `lookup` denotes. -/
def child (v : Vfs) (parent : Ino) (name : String) : Option NodeId :=
  (v.nodeOf[parent]?).bind fun node => v.drive.tree.lookupChild node name

/-- What an overwriting rename of `n` should do : `n` is looked up under the new name, with
its inode if it has one, and is not in the trash, the node looked up there before is, and no
other node has moved. -/
structure Overwrites (v v' : Vfs) (newParent : Ino) (newName : String) (n : NodeId) : Prop where
  found : v'.child newParent newName = some n
  sameIno : ∀ i, v.inoOf[n]? = some i →
    ∃ attr, (v'.lookup newParent newName).1 = .ok attr ∧ attr.ino = i
  displaced : ∀ d, v.child newParent newName = some d → d ≠ n → v'.drive.tree.isTrashed d = true
  kept : v'.drive.tree.isTrashed n = false
  frame : ∀ m, m ≠ n → v.child newParent newName ≠ some m →
    v'.drive.tree.edge m = v.drive.tree.edge m

/-- The new parent is not in the trash, and the rename lands or stays. -/
def RenamesByPath (v : Vfs) (parent : Ino) (name : String) (newParent : Ino) (newName : String)
    (n : NodeId) : Prop :=
  ∃ P Q, v.nodeOf[parent]? = some P ∧ v.nodeOf[newParent]? = some Q ∧
    v.drive.tree.isTrashed Q = false ∧
    (v.drive.tree.Lands P name Q newName n ∨ v.drive.tree.Stays P name Q newName)

/-- A lookup returns the inode the node has. -/
theorem Inv.lookup_ino (h : v.Inv) {i : Ino} (hc : v.child parent name = some n)
    (hi : v.inoOf[n]? = some i) : ∃ attr, (v.lookup parent name).1 = .ok attr ∧ attr.ino = i := by
  obtain ⟨p, hp, hl⟩ := Option.bind_eq_some_iff.1 hc
  obtain ⟨e, he, -⟩ := h.drive.replayed.mirror.edge_of_lookupChild hl
  have hlookup : (v.lookup parent name).1 = v.attrOf i := by
    have hintern : v.intern n = (i, v) := by
      unfold Vfs.intern
      rw [hi]
    simp only [Vfs.lookup, nodeAt, hp, hl, Vfs.internAttr, hintern]
  rw [hlookup, attrOf]
  split_ifs with hroot
  · exact ⟨_, rfl, hroot.symm⟩
  · have hn := (h.table n i).1 hi
    cases hcont : v.drive.content[n]? <;>
      simp [nodeAt, hn, DriveTree.edge, he, hcont, bind, Except.bind, pure, Except.pure]

theorem deleted_of_rm {d d' : Drive} (h : d.Inv) {path : String} {e : Except String Unit}
    (hr : d.rm path = some (e, d')) : Deleted d.tree d'.tree path := by
  unfold Drive.rm Drive.resolveNode at hr
  cases hres : d.tree.resolve path with
  | none =>
    simp only [hres, Option.some.injEq, Prod.mk.injEq] at hr
    refine Or.inl ⟨fun x hx => ?_, hr.2 ▸ rfl⟩
    rw [hres] at hx
    cases hx
  | some x =>
    by_cases hroot : x = ROOT
    · simp only [hres, if_pos hroot, Option.some.injEq, Prod.mk.injEq] at hr
      exact Or.inl ⟨fun y hy => Option.some_injective _ (hres.symm.trans hy) ▸ hroot, hr.2 ▸ rfl⟩
    · simp only [hres, if_neg hroot] at hr
      obtain ⟨d₁, hm, hr⟩ := Option.bind_eq_some_iff.1 hr
      obtain rfl := Drive.relocate_eq_some hm
      obtain rfl := (Prod.mk.inj (Option.some_injective _ hr)).2
      obtain ⟨e', he'⟩ := (h.replayed.mirror.edge_of_resolve hres).resolve_left hroot
      refine Or.inr ⟨x, e', hres, he', ?_⟩
      have hname : d.nameOf x = e'.name := by simp [Drive.nameOf, DriveTree.edge, he']
      have hkind : d.tree.kindOf x = e'.kind := by simp [kindOf, he']
      exact hname ▸ hkind ▸ moved_of_inv h ..

/-- A rename that succeeds moves and deletes by path. -/
theorem Inv.renamed_of_rename (h : v.Inv)
    (hr : v.rename parent name newParent newName = some (.ok (), v')) :
    ∃ P Q s q t₁, v.nodeOf[parent]? = some P ∧ v.nodeOf[newParent]? = some Q ∧
      ((v.drive.tree.path P).bind fun dir => v.drive.tree.resolve (joinPath dir name)) = some s ∧
      (v.drive.tree.path Q).bind v.drive.tree.resolve = some q ∧ IsComponent newName ∧
      Renamed v.drive.tree t₁ v'.drive.tree s q newName ∧
      v'.inoOf = v.inoOf ∧ v'.nodeOf = v.nodeOf := by
  obtain ⟨e, he⟩ | ⟨src, dstDir, s, q, d, hcheck, hmv, heq, hd⟩ := rename_eq_some hr
  · cases (Prod.mk.inj he).1
  obtain rfl := (Prod.mk.inj heq).2
  obtain ⟨P, Q, srcDir, hP, hQ, hsrc, hdst, rfl, hs⟩ := renameCheck_eq_ok hcheck
  obtain ⟨hname, -, hdir⟩ := Drive.mvCheck_eq_ok hmv
  have hnew : IsComponent newName := slash_not_mem_of_validateName (checkName_ok_iff.1 hname)
  obtain ⟨hq, -⟩ := Drive.resolveDir_eq_ok hdir
  have hm := moved_of_inv h.drive s q newName (v.drive.tree.kindOf s)
  have hdispl : v.displaced dstDir newName s =
      (v.drive.tree.lookupChild q newName).filter (· ≠ s) := by
    rw [displaced, resolve_joinPath _ _ hnew, hq]
    rfl
  refine ⟨P, Q, s, q, _, hP, hQ, by simpa [hsrc] using hs, by simpa [hdst] using hq, hnew,
    ⟨hm, fun hfree => ?_, fun d' hd' hne => ?_⟩, rfl, rfl⟩
  · obtain ⟨-, rfl⟩ | ⟨old, e, hold, -⟩ := hd
    · rfl
    · rw [hdispl, Option.filter_eq_some_iff] at hold
      exact absurd (hfree old hold.1) (by simpa using hold.2)
  · obtain ⟨hnone, -⟩ | ⟨old, e, hold, hrm⟩ := hd
    · rw [hdispl, hd'] at hnone
      simp [Option.filter, hne] at hnone
    · rw [hdispl, Option.filter_eq_some_iff] at hold
      obtain rfl := Option.some_injective _ (hd'.symm.trans hold.1)
      exact ⟨_, deleted_of_rm (h.drive.moved ..) hrm⟩

/-- In every reachable state a rename that fails moves nothing, and one that succeeds does
what an overwriting rename should do exactly when it lands or stays. A name that is empty or
contains a slash, which no adapter passes, may resolve to anything; there it still suffices. -/
theorem rename_overwrites_iff (h : v.Reachable) (parent : Ino) (name : String) (newParent : Ino)
    (newName : String) :
    (∀ e v', v.rename parent name newParent newName = some (.error e, v') →
      ∀ m, v'.drive.tree.edge m = v.drive.tree.edge m) ∧
    ∀ v' n, v.rename parent name newParent newName = some (.ok (), v') →
      v.child parent name = some n →
        (v.RenamesByPath parent name newParent newName n → v.Overwrites v' newParent newName n) ∧
        (IsComponent name → v.Overwrites v' newParent newName n →
          v.RenamesByPath parent name newParent newName n) := by
  refine ⟨fun e v' hr m => ?_, fun v' n hr hn => ?_⟩
  · obtain ⟨e', he⟩ | ⟨src, dstDir, s, q, d, -, -, he, -⟩ := rename_eq_some hr
    · rw [(Prod.mk.inj he).2]
    · cases (Prod.mk.inj he).1
  · have hinv := h.inv
    have ht := hinv.drive.replayed
    obtain ⟨P, Q, s, q, t₁, hP, hQ, hs, hq, hnew, hren, hino, hnode⟩ := hinv.renamed_of_rename hr
    have hn' : v.drive.tree.lookupChild P name = some n := by simpa [child, hP] using hn
    have hl : v.child newParent newName = v.drive.tree.lookupChild Q newName := by simp [child, hQ]
    have hl' : v'.child newParent newName = v'.drive.tree.lookupChild Q newName := by
      simp [child, hnode, hQ]
    constructor
    · rintro ⟨P', Q', hP', hQ', htrash, hcase⟩
      obtain rfl := Option.some_injective _ (hP.symm.trans hP')
      obtain rfl := Option.some_injective _ (hQ.symm.trans hQ')
      have harr : v.drive.tree.Arrives v'.drive.tree Q newName n := by
        rcases hcase with hL | hS
        · obtain rfl := Option.some_injective _ (hs.symm.trans hL.source)
          obtain rfl := Option.some_injective _ (hq.symm.trans hL.target)
          exact hL.arrives ht htrash hn' hnew hren
        · exact hS.arrives ht htrash hn' hnew hs hq hren
      have hfound := hl'.trans harr.found
      refine ⟨hfound, fun i hi => ?_, hl ▸ harr.displaced, harr.kept, hl ▸ harr.frame⟩
      exact (hinv.acts (acts_rename hr)).lookup_ino hfound (hino ▸ hi)
    · intro hname ho
      have harr : v.drive.tree.Arrives v'.drive.tree Q newName n :=
        ⟨hl' ▸ ho.found, hl ▸ ho.displaced, ho.kept, hl ▸ ho.frame⟩
      by_cases hsame : s = n ∧ q = Q
      · obtain ⟨rfl, rfl⟩ := hsame
        exact ⟨P, q, hP, hQ, harr.not_trashed_before ht hren (Or.inl (harr.outside ht hren)),
          Or.inl (harr.lands ht hnew hs hq hren)⟩
      · obtain ⟨htrash, hS⟩ := harr.stays ht hname hnew hn' hs hq hren hsame
        exact ⟨P, Q, hP, hQ, htrash, Or.inr hS⟩

/-- Two files in the root. -/
def twoFiles : List Drive.Event :=
  [.exec 0 (.addFile "/" "a" (.new "c1" 1 0 100)), .exec 1 (.addFile "/" "b" (.new "c2" 1 0 100))]

/-- Renaming one file over the other moves it, and then moves it to the trash. -/
theorem rename_trashes_source :
    let v := Vfs.new (((Drive.init "d" "r").performAll twoFiles).get (by decide +kernel)) 0
    let r := (v.rename ROOT_INO "a" ROOT_INO "b").get (by decide +kernel)
    let n := "00000000000100000000"
    v.Reachable ∧ v.child ROOT_INO "a" = some n ∧ r.1.isOk ∧ ¬v.Overwrites r.2 ROOT_INO "b" n := by
  intro v r n
  obtain ⟨hchild, hok, hlost⟩ : v.child ROOT_INO "a" = some n ∧ r.1.isOk ∧
      r.2.drive.tree.isTrashed n ≠ false := by
    decide +kernel
  exact ⟨.new ⟨"d", "r", twoFiles, (Option.some_get _).symm⟩ 0, hchild, hok,
    fun ho => hlost ho.kept⟩

theorem eq_some_of_isOk {ε α : Type*} {o : Option (Except ε Unit × α)} (h : o.isSome)
    (hok : (o.get h).1.isOk) : o = some (.ok (), (o.get h).2) := by
  obtain _ | ⟨e | u, a⟩ := o
  · cases h
  · cases hok
  · rfl

/-- Two directories of one name; the younger keeps it. -/
def collidingDirs : List Drive.Event :=
  [.exec 0 (.mkdir "/" "a"), .exec 1 (.mkdir "/" "b"), .exec 2 (.mv "/b" "/" "a")]

/-- The engine over two directories of one name, after both were looked up. -/
def collidingVfs : Vfs :=
  let v := Vfs.new (((Drive.init "d" "r").performAll collidingDirs).get (by decide +kernel)) 0
  ((v.lookup ROOT_INO "a.conflict-r-1").2.lookup ROOT_INO "a").2

/-- The younger renamed over the conflict name of the older. -/
theorem rename_overwrites_iff_conflict :
    let v := Vfs.new (((Drive.init "d" "r").performAll collidingDirs).get (by decide +kernel)) 0
    let r := (v.rename ROOT_INO "a" ROOT_INO "a.conflict-r-1").get (by decide +kernel)
    r.1.isOk ∧ v.Overwrites r.2 ROOT_INO "a.conflict-r-1" "00000000000200000001" := by
  intro v r
  have hv : v.Reachable := .new ⟨"d", "r", collidingDirs, (Option.some_get _).symm⟩ 0
  have hg := hv.inv.drive.replayed.grounded
  obtain ⟨hok, hn, hshown, hd, hlt⟩ : r.1.isOk ∧
      v.child ROOT_INO "a" = some "00000000000200000001" ∧
      v.drive.tree.shownChildren ROOT =
        [("a", "00000000000100000000"), ("a", "00000000000200000001")] ∧
      v.drive.tree.lookupChild ROOT "a.conflict-r-1" = some "00000000000100000000" ∧
      v.drive.tree.definingTs "00000000000100000000" <
        v.drive.tree.definingTs "00000000000200000001" := by
    decide +kernel
  obtain ⟨hroot, hlive, hsource, htarget, houtside, htrash⟩ : v.nodeOf[ROOT_INO]? = some ROOT ∧
      v.drive.tree.isTrashed ROOT = false ∧
      ((v.drive.tree.path ROOT).bind fun dir => v.drive.tree.resolve (joinPath dir "a")) =
        some "00000000000200000001" ∧
      (v.drive.tree.path ROOT).bind v.drive.tree.resolve = some ROOT ∧
      ¬v.drive.tree.isAncestor "00000000000200000001" ROOT ∧
      ¬v.drive.tree.isAncestor "00000000000100000000" TRASH := by
    decide +kernel
  have hcalled : ∀ b m, v.drive.tree.Called ROOT b m ↔ b = "a" ∧
      (m = "00000000000100000000" ∨ m = "00000000000200000001") := by
    intro b m
    simp only [Called, hshown, List.mem_cons, List.not_mem_nil, or_false, Prod.mk.injEq, ← and_or_left]
  have hr : v.rename ROOT_INO "a" ROOT_INO "a.conflict-r-1" = some (.ok (), r.2) :=
    eq_some_of_isOk _ hok
  refine ⟨hok, ((rename_overwrites_iff hv ROOT_INO "a" ROOT_INO "a.conflict-r-1").2 r.2
    "00000000000200000001" hr hn).1 ⟨ROOT, ROOT, hroot, hroot, hlive,
      Or.inl ⟨hsource, htarget, fun hreach => houtside (hg.isAncestor_iff.2 hreach), ?_, ?_⟩⟩⟩
  · -- any other child is the displaced one
    intro b x m hxn _ hx _ hxc
    obtain ⟨-, rfl | rfl⟩ := (hcalled b x).1 hxc
    · exact absurd hd hx
    · exact absurd rfl hxn
  · intro d hdisplaced hne
    obtain rfl := Option.some_injective _ (hd.symm.trans hdisplaced)
    refine ⟨⟨"a", by decide, (hcalled _ _).2 ⟨rfl, Or.inr rfl⟩, (hcalled _ _).2 ⟨rfl, Or.inl rfl⟩,
      hlt, fun m hm hmn => ?_⟩, fun hreach => htrash (hg.isAncestor_iff.2 hreach)⟩
    obtain ⟨-, rfl | rfl⟩ := (hcalled _ m).1 hm
    · exact le_refl _
    · exact absurd rfl hmn

end Vfs

end CeDrive
