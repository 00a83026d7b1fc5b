import CeDrive.Grafts
import CeDrive.Push

/-!
# The steps of a push

A push goes by paths : it compares what a path resolves to, and then saves by the bare name in a
directory, or deletes by the path. In a drive that is `Ready` for the disk these agree. There a
save of a listed file (`Ready.wrote`), a new node with a spare id under a name that is not listed
(`Ready.moved`) and a deletion (`Ready.pruned`) change what is listed and recorded at one path only
(`SameAt`), and the drive stays ready.
-/

open Std (ExtTreeMap)
open Forest

namespace CeDrive

/-- There are entries below the directory `q` of the disk. -/
def DiskDir.Inhabited (disk : DiskDir) (q : List String) : Prop :=
  ∃ r y, (∃ f, disk.HasFile (q ++ r :: y) f) ∨ disk.HasDir (q ++ r :: y)

namespace Drive

variable {d : Drive} {n p : NodeId} {name : String}

/-- `child_named` finds the first of the children with the name. -/
theorem childNamed_eq_some_iff (hp : p ≠ TRASH) : d.childNamed p name = some n ↔
    d.tree.Called p name n ∧ ∀ m, d.tree.Called p name m → n ≤ m := by
  have hcalled : ∀ {b m}, d.tree.Called p b m ↔
      (b, m) ∈ d.tree.rawChildren p ∧ d.tree.isTrashed m = false := by
    intro b m
    rw [DriveTree.Called, DriveTree.mem_shownChildren, DriveTree.Shown, or_iff_right hp]
  have hfound : ∀ kid : String × NodeId, (kid.1 = name && !d.tree.isTrashed kid.2) = true ↔
      kid.1 = name ∧ d.tree.isTrashed kid.2 = false := by
    intro kid
    simp
  rw [childNamed, Option.map_eq_some_iff]
  constructor
  · rintro ⟨⟨b, m⟩, hfind, rfl⟩
    obtain ⟨hmem, hm, hmin⟩ := (DriveTree.ascending_rawChildren _ _).find?_eq_some.1 hfind
    obtain ⟨rfl, hlive⟩ := (hfound _).1 hm
    refine ⟨hcalled.2 ⟨hmem, hlive⟩, fun m' hm' => ?_⟩
    obtain ⟨hmem', hlive'⟩ := hcalled.1 hm'
    have hle := hmin _ hmem' ((hfound _).2 ⟨rfl, hlive'⟩)
    rcases Prod.Lex.toLex_le_toLex.1 hle with hlt | ⟨-, hle⟩
    · exact absurd hlt (lt_irrefl _)
    · exact hle
  · rintro ⟨hn, hmin⟩
    obtain ⟨hmem, hlive⟩ := hcalled.1 hn
    refine ⟨(name, n), (DriveTree.ascending_rawChildren _ _).find?_eq_some.2
      ⟨hmem, (hfound _).2 ⟨rfl, hlive⟩, ?_⟩, rfl⟩
    rintro ⟨b, m⟩ hmem' hm'
    obtain ⟨rfl, hlive'⟩ := (hfound _).1 hm'
    exact Prod.Lex.toLex_le_toLex.2 (Or.inr ⟨rfl, hmin m (hcalled.2 ⟨hmem', hlive'⟩)⟩)

/-! ## Spare ids -/

/-- The id is not in use : no edge names it, and nothing is recorded for a file of this id. -/
structure Spare (d : Drive) (id : NodeId) (kind : NodeKind) : Prop where
  unused : d.tree.Unused id
  empty : kind = .file → d.content[id]? = none

/-- The ids differ and are not in use. -/
def AllSpare (d : Drive) (ids : List (NodeId × NodeKind)) : Prop :=
  (ids.map Prod.fst).Nodup ∧ ∀ x ∈ ids, d.Spare x.1 x.2

theorem AllSpare.left {ids ids' : List (NodeId × NodeKind)} (h : d.AllSpare (ids ++ ids')) :
    d.AllSpare ids := by
  obtain ⟨hnodup, hspare⟩ := h
  rw [List.map_append] at hnodup
  exact ⟨hnodup.of_append_left, fun x hx => hspare x (List.mem_append_left _ hx)⟩

/-- The other ids, once the first are in use. -/
theorem AllSpare.right {d' : Drive} {ids ids' : List (NodeId × NodeKind)}
    (h : d.AllSpare (ids ++ ids'))
    (hspare : ∀ id kind, d.Spare id kind → ¬Reserved id → id ∉ ids.map Prod.fst → d'.Spare id kind)
    (hids : ∀ x ∈ ids', ¬Reserved x.1) : d'.AllSpare ids' := by
  obtain ⟨hnodup, hall⟩ := h
  rw [List.map_append, List.nodup_append] at hnodup
  refine ⟨hnodup.2.1, fun x hx => hspare _ _ (hall x (List.mem_append_right _ hx)) (hids x hx) ?_⟩
  exact fun hmem => hnodup.2.2 _ hmem _ (List.mem_map_of_mem hx) rfl

/-! ## Ready for a push -/

/-- The cid recorded for a node. -/
def recordedCid (d : Drive) (n : NodeId) : Option String :=
  (d.content[n]?).map FileContent.cid

/-- Where the saves and the deletions of a push go to what its paths lead to. -/
structure Ready (d : Drive) (store : ObjectStore) (disk : DiskDir) : Prop where
  legible : d.tree.Legible
  live : disk ≠ .nil → d.tree.isTrashed ROOT = false
  /-- A file that is listed where the disk has a directory with entries lists nothing itself. -/
  through : ∀ ⦃q n⦄, disk.Inhabited q → d.tree.Walked q n →
    d.tree.IsDir n ∨ ∀ r m, ¬d.tree.Lists n r m
  /-- No directory that is listed where the disk has a file has the cid of the file. -/
  file : ∀ ⦃q f n⦄, disk.HasFile q f → d.tree.Walked q n →
    d.recordedCid n = some (store.cidOf f.bytes) → ¬d.tree.IsDir n
  /-- What is listed where the disk has a file is current, or it is what `add_file` edits. -/
  save : ∀ ⦃q r f p n⦄, disk.HasFile (q ++ [r]) f → d.tree.Walked q p → d.tree.IsDir p →
    d.tree.Lists p r n →
    d.recordedCid n = some (store.cidOf f.bytes) ∨ d.childNamed p r = some n
  /-- A file that is not on the disk can be trashed, and leaves its name to no sibling. -/
  parts : ∀ ⦃q r p n⦄, d.tree.Walked q p → d.tree.IsDir p → d.tree.Lists p r n →
    ¬d.tree.IsDir n → (∀ f, ¬disk.HasFile (q ++ [r]) f) → d.tree.Parts q p r n

/-- The same is listed at a path, with the same record. -/
structure SameAt (d d' : Drive) (x : List String) : Prop where
  walked : ∀ n, d'.tree.Walked x n ↔ d.tree.Walked x n
  kind : ∀ n, d.tree.Walked x n → (d'.tree.IsDir n ↔ d.tree.IsDir n)
  record : ∀ n, d.tree.Walked x n → d'.content[n]? = d.content[n]?

theorem SameAt.refl (d : Drive) (x : List String) : d.SameAt d x :=
  ⟨fun _ => Iff.rfl, fun _ _ => Iff.rfl, fun _ _ => rfl⟩

theorem SameAt.trans {d' d'' : Drive} {x : List String} (h : d.SameAt d' x) (h' : d'.SameAt d'' x) :
    d.SameAt d'' x :=
  ⟨fun n => (h'.walked n).trans (h.walked n),
    fun n hn => (h'.kind n ((h.walked n).2 hn)).trans (h.kind n hn),
    fun n hn => (h'.record n ((h.walked n).2 hn)).trans (h.record n hn)⟩

variable {store : ObjectStore} {disk : DiskDir} {q x : List String} {r b : String} {f : DiskFile}
  {kind : NodeKind} {c : NodeId} {content : FileContent}

theorem getElem?_content_wrote (m : NodeId) : (d.wrote (setOp n content)).content[m]? =
    if n = m then ContentMap.applyRecord d.content[m]? (setOp n content) else d.content[m]? :=
  ContentMap.getElem?_apply ..

/-- The way to an entry of the disk goes through directories only. -/
theorem Ready.resolveFrom_iff (h : d.Ready store disk) (hx : ∀ z r, z ++ [r] <+: x → disk.Inhabited z) :
    d.tree.resolveFrom ROOT x = some n ↔ d.tree.Walked x n := by
  induction x using List.reverseRecOn generalizing n with
  | nil =>
    rw [DriveTree.walked_nil]
    exact ⟨fun heq => (Option.some_injective _ heq).symm, fun heq => heq ▸ rfl⟩
  | append_singleton z r ih =>
    have ih := fun p => @ih p fun z' r' hpre => hx z' r' (hpre.trans (List.prefix_append ..))
    rw [DriveTree.resolveFrom_append, Option.bind_eq_some_iff, DriveTree.walked_append_singleton]
    refine exists_congr fun p => ?_
    rw [ih, DriveTree.resolveFrom_singleton]
    refine and_congr_right fun hp => ?_
    obtain hdir | hnone := h.through (hx z r List.prefix_rfl) hp
    · rw [h.legible.lookupChild_eq_some hp hdir, and_iff_right hdir]
    · exact iff_of_false (fun hl => hnone r n (DriveTree.lists_of_lookupChild hl))
        fun hl => hnone r n hl.2

section

variable (hinv : d.Inv)
include hinv

/-! ## A save -/

section

variable (hq : d.tree.Walked q p) (hdir : d.tree.IsDir p) (hl : d.tree.Lists p r n)
include hq hdir hl

omit hq hdir in
theorem Ready.wrote (h : d.Ready store disk) (hc : d.childNamed p r = some n)
    (hfile : ¬d.tree.IsDir n) (content : FileContent) :
    (d.wrote (setOp n content)).Ready store disk := by
  have hrecord : ∀ {n'}, n' ≠ n →
      (d.wrote (setOp n content)).recordedCid n' = d.recordedCid n' := by
    intro n' hn
    rw [recordedCid, getElem?_content_wrote, if_neg hn.symm]
    rfl
  refine ⟨h.legible, h.live, h.through, fun q' f' n' hf' hq' => ?_,
    fun q' r' f' p' n' hf' hq' hdir' hl' => ?_, h.parts⟩
  · by_cases hn : n' = n
    · exact fun _ => hn ▸ hfile
    · rw [hrecord hn]
      exact h.file hf' hq'
  · by_cases hn : n' = n
    · subst hn
      obtain ⟨rfl, rfl⟩ := hinv.replayed.lists_unique hl' hl
      exact Or.inr hc
    · rw [hrecord hn]
      exact h.save hf' hq' hdir' hl'

theorem sameAt_wrote (content : FileContent) (hx : x ≠ q ++ [r]) :
    d.SameAt (d.wrote (setOp n content)) x := by
  refine ⟨fun _ => Iff.rfl, fun _ _ => Iff.rfl, fun m hm => ?_⟩
  have hne : n ≠ m := by
    rintro rfl
    exact hx (hm.unique hinv.replayed (.child hq hdir hl))
  rw [getElem?_content_wrote, if_neg hne]

end

/-! ## A new node -/

/-- What is shown and walked to once a new node is in its place. -/
structure Grafted (d d' : Drive) (q : List String) (p : NodeId) (b : String) (c : NodeId) : Prop where
  called : ∀ x b' m, d'.tree.Called x b' m ↔ d.tree.Called x b' m ∨ (x = p ∧ b' = b ∧ m = c)
  lists : ∀ x r m, d'.tree.Lists x r m ↔ d.tree.Lists x r m ∨ (x = p ∧ r = b ∧ m = c)
  walked : ∀ x m, d'.tree.Walked x m ↔ d.tree.Walked x m ∨ (x = q ++ [b] ∧ m = c)

section

variable (kind) (hlive : d.tree.isTrashed ROOT = false) (hun : d.tree.Unused c)
  (hres : ¬Reserved c) (hq : d.tree.Walked q p)
include hun hres hq

theorem isDir_moved_self : (d.moved c p b kind).tree.IsDir c ↔ kind = .dir := by
  have hpc := hun.ne_of_walked hinv.replayed (fun heq => hres (Or.inl heq)) hq
  have hedge := (DriveTree.moved_of_inv hinv c p b kind).edge_self (hun.not_reaches hpc)
  rw [DriveTree.isDir_iff_of_edge hedge (fun heq => hres (Or.inl heq)), DriveTree.kindOf, hedge]
  rfl

/-- The other spare ids are still spare. -/
theorem Spare.moved {id : NodeId} {kind' : NodeKind} (hs : d.Spare id kind') (hid : ¬Reserved id)
    (hne : id ≠ c) : (d.moved c p b kind).Spare id kind' := by
  have hpid := hs.unused.ne_of_walked hinv.replayed (fun heq => hid (Or.inl heq)) hq
  have hpc := hun.ne_of_walked hinv.replayed (fun heq => hres (Or.inl heq)) hq
  have hm := DriveTree.moved_of_inv hinv c p b kind
  refine ⟨⟨?_, fun m e he => ?_⟩, hs.empty⟩
  · rw [hm.edge_of_ne hne]
    exact hs.unused.edge
  · by_cases hmc : m = c
    · subst hmc
      obtain rfl := Option.some_injective _ ((hm.edge_self (hun.not_reaches hpc)).symm.trans he)
      exact hpid
    · rw [hm.edge_of_ne hmc] at he
      exact hs.unused.parent he

variable (hname : ∀ m, ¬d.tree.Lists p b m)
include hname

/-- No other child has the name of the new node. -/
theorem childNamed_moved_self (hlive : d.tree.isTrashed ROOT = false) :
    (d.moved c p b kind).childNamed p b = some c := by
  have ht := hinv.replayed
  have hpc := hun.ne_of_walked ht (fun heq => hres (Or.inl heq)) hq
  have hct : c ≠ TRASH := fun heq => hres (Or.inr (Or.inl heq))
  have hp := DriveTree.not_trashed_of_walked ht hlive hq
  have hcalled : ∀ {x b' m}, (d.moved c p b kind).tree.Called x b' m ↔
      d.tree.Called x b' m ∨ (x = p ∧ b' = b ∧ m = c) :=
    DriveTree.graft_called (DriveTree.moved_of_inv hinv c p b kind) ht hun hct hp hpc
  refine (childNamed_eq_some_iff (DriveTree.ne_trash_of_walked ht hq)).2
    ⟨hcalled.2 (Or.inr ⟨rfl, rfl, rfl⟩), fun m hm => ?_⟩
  rcases hcalled.1 hm with hm | ⟨-, -, rfl⟩
  · obtain ⟨w, -, hw⟩ := ht.exists_lists hm
    exact absurd hw (hname w)
  · exact le_rfl

variable (hdir : d.tree.IsDir p)
include hlive hdir

theorem grafted_moved : Grafted d (d.moved c p b kind) q p b c := by
  have ht := hinv.replayed
  have hroot : c ≠ ROOT := fun heq => hres (Or.inl heq)
  have hpc := hun.ne_of_walked ht hroot hq
  have hct : c ≠ TRASH := fun heq => hres (Or.inr (Or.inl heq))
  have hp := DriveTree.not_trashed_of_walked ht hlive hq
  have hm := DriveTree.moved_of_inv hinv c p b kind
  exact ⟨fun _ _ _ => DriveTree.graft_called hm ht hun hct hp hpc,
    fun _ _ _ => DriveTree.graft_lists hm ht hun hct hp hpc hname,
    fun _ _ => DriveTree.graft_walked hm ht hun hct hp hpc hname hroot hq hdir⟩

theorem sameAt_moved (hx : x ≠ q ++ [b]) : d.SameAt (d.moved c p b kind) x := by
  have hg := grafted_moved kind hinv hlive hun hres hq hname hdir
  refine ⟨fun m => ?_, fun m hm => ?_, fun m _ => rfl⟩
  · rw [hg.walked, or_iff_left fun hnew => hx hnew.1]
  · exact (DriveTree.moved_of_inv hinv c p b kind).isDir_iff
      (hun.ne_of_walked hinv.replayed (fun heq => hres (Or.inl heq)) hm)

theorem Ready.moved (h : d.Ready store disk) (hb : DriveTree.IsComponent b)
    (hkind : kind = .file ↔ ∃ f, disk.HasFile (q ++ [b]) f) :
    (d.moved c p b kind).Ready store disk := by
  have ht := hinv.replayed
  have hroot : c ≠ ROOT := fun heq => hres (Or.inl heq)
  have htrash : c ≠ TRASH := fun heq => hres (Or.inr (Or.inl heq))
  have hpc := hun.ne_of_walked ht hroot hq
  have hp := DriveTree.not_trashed_of_walked ht hlive hq
  have hm := DriveTree.moved_of_inv hinv c p b kind
  have hg := grafted_moved kind hinv hlive hun hres hq hname hdir
  have hisDir : (d.moved c p b kind).tree.IsDir c ↔ kind = .dir :=
    isDir_moved_self kind hinv hun hres hq
  have hold : ∀ {x m}, d.tree.Walked x m → ((d.moved c p b kind).tree.IsDir m ↔ d.tree.IsDir m) :=
    fun hx => hm.isDir_iff (hun.ne_of_walked ht hroot hx)
  have hnew : ∀ {r m}, ¬(d.moved c p b kind).tree.Lists c r m := by
    intro r m hl
    rcases (hg.lists _ _ _).1 hl with hl | ⟨heq, -⟩
    · exact hun.not_lists ht hl
    · exact hpc heq.symm
  -- the entries of a directory
  have hkids : ∀ {x m r m'}, (d.moved c p b kind).tree.Walked x m →
      (d.moved c p b kind).tree.IsDir m → (d.moved c p b kind).tree.Lists m r m' →
      d.tree.Walked x m ∧ d.tree.IsDir m ∧
        (d.tree.Lists m r m' ∨ (x = q ∧ m = p ∧ r = b ∧ m' = c)) := by
    intro x m r m' hx hd hl
    rcases (hg.walked _ _).1 hx with hw | ⟨-, rfl⟩
    · refine ⟨hw, (hold hw).1 hd, ((hg.lists _ _ _).1 hl).imp id ?_⟩
      rintro ⟨rfl, rfl, rfl⟩
      exact ⟨hw.unique ht hq, rfl, rfl, rfl⟩
    · exact absurd hl hnew
  have hgroup : ∀ {x b' m}, ¬(x = p ∧ b' = b) →
      ((d.moved c p b kind).tree.Called x b' m ↔ d.tree.Called x b' m) := by
    intro x b' m hne
    rw [hg.called, or_iff_left fun hnew => hne ⟨hnew.1, hnew.2.1⟩]
  have hold_ne : ∀ {m r m'}, d.tree.Lists m r m' → ¬(m = p ∧ r = b) := by
    rintro m r m' hl ⟨rfl, rfl⟩
    exact hname m' hl
  refine ⟨?_, fun hne => ?_, fun x m hx hw => ?_, fun x f m hf hx => ?_,
    fun x r f m m' hf hx hd hl => ?_, fun x r m m' hx hd hl hfile hnot => ?_⟩
  · exact h.legible.graft hm ht hun htrash hroot hp hpc hname hq hdir hb
  · have hlive := h.live hne
    rw [← Bool.not_eq_true, DriveTree.isTrashed, ht.grounded.isAncestor_iff] at hlive
    rw [← Bool.not_eq_true, DriveTree.isTrashed, hm.replayed.grounded.isAncestor_iff,
      hm.reaches_iff (hun.not_reaches hroot.symm)]
    exact hlive
  · rcases (hg.walked _ _).1 hw with hw | ⟨-, rfl⟩
    · rw [hold hw]
      refine (h.through hx hw).elim Or.inl fun hnone => ?_
      by_cases hmp : m = p
      · exact Or.inl (hmp ▸ hdir)
      · refine Or.inr fun r m' hl => ?_
        rcases (hg.lists _ _ _).1 hl with hl | ⟨heq, -⟩
        · exact hnone r m' hl
        · exact hmp heq
    · exact Or.inr fun r m' => hnew
  · rcases (hg.walked _ _).1 hx with hx | ⟨rfl, rfl⟩
    · rw [hold hx]
      exact h.file hf hx
    · rw [hisDir, hkind.2 ⟨f, hf⟩]
      simp
  · obtain ⟨hx, hd, hl | ⟨rfl, rfl, rfl, rfl⟩⟩ := hkids hx hd hl
    · refine (h.save hf hx hd hl).imp id fun hc => ?_
      have hne := DriveTree.ne_trash_of_walked ht hx
      obtain ⟨hcalled, hmin⟩ := (childNamed_eq_some_iff hne).1 hc
      exact (childNamed_eq_some_iff hne).2 ⟨(hgroup (hold_ne hl)).2 hcalled,
        fun m'' hm'' => hmin m'' ((hgroup (hold_ne hl)).1 hm'')⟩
    · exact Or.inr (childNamed_moved_self kind hinv hun hres hq hname hlive)
  · have hx' := hx
    obtain ⟨hx, hd', hl' | ⟨rfl, rfl, rfl, rfl⟩⟩ := hkids hx hd hl
    · have hparts := h.parts hx hd' hl' (mt (hold (.child hx hd' hl')).2 hfile) hnot
      refine ⟨hx', hd, hl, hfile, ?_, fun hcalled m'' hm'' => ?_⟩
      · rw [hm.reaches_iff (hun.not_reaches htrash.symm)]
        exact hparts.loose
      · exact hparts.alone ((hgroup (hold_ne hl')).1 hcalled) m'' ((hgroup (hold_ne hl')).1 hm'')
    · rw [hisDir] at hfile
      cases kind with
      | dir => exact absurd rfl hfile
      | file =>
        obtain ⟨f, hf⟩ := hkind.1 rfl
        exact absurd hf (hnot f)

end

/-! ## A deletion -/

theorem Ready.pruned (h : d.Ready store disk) (hparts : d.tree.Parts q p r c) :
    (d.moved c TRASH name kind).Ready store disk := by
  have ht := hinv.replayed
  have hm := DriveTree.moved_of_inv hinv c TRASH name kind
  have hwalked : ∀ {x n}, (d.moved c TRASH name kind).tree.Walked x n ↔ d.tree.Walked x n ∧ n ≠ c :=
    DriveTree.prune_walked hm ht hparts
  have hlists : ∀ {x n r m}, d.tree.Walked x n → n ≠ c →
      ((d.moved c TRASH name kind).tree.Lists n r m ↔ d.tree.Lists n r m ∧ m ≠ c) :=
    fun hx hne => DriveTree.prune_lists hm ht hparts hx hne
  have hcalled : ∀ {x n b m}, d.tree.Walked x n → n ≠ c →
      ((d.moved c TRASH name kind).tree.Called n b m ↔ d.tree.Called n b m ∧ m ≠ c) :=
    fun hx hne => DriveTree.prune_called hm ht hparts hx hne
  refine ⟨h.legible.prune hm ht hparts, fun hne => ?_, fun x m hx hw => ?_, fun x f m hf hx => ?_,
    fun x r f m m' hf hx hd hl => ?_, fun x r m m' hx hd hl hfile hnot => ?_⟩
  · have hlive := h.live hne
    have hroot : ROOT ≠ c := (DriveTree.not_isDir_of_file hparts.file).symm
    rw [← Bool.not_eq_true, DriveTree.isTrashed, ht.grounded.isAncestor_iff] at hlive
    rw [← Bool.not_eq_true, DriveTree.isTrashed, hm.replayed.grounded.isAncestor_iff,
      hm.reaches_iff (DriveTree.not_reaches_of_walked ht hparts.child hparts.file .root hroot)]
    exact hlive
  · obtain ⟨hw, hne⟩ := hwalked.1 hw
    rw [hm.isDir_iff hne]
    exact (h.through hx hw).imp id fun hnone r m' hl => hnone r m' ((hlists hw hne).1 hl).1
  · obtain ⟨hx, hne⟩ := hwalked.1 hx
    rw [hm.isDir_iff hne]
    exact h.file hf hx
  · obtain ⟨hx, hne⟩ := hwalked.1 hx
    obtain ⟨hl, hne'⟩ := (hlists hx hne).1 hl
    refine (h.save hf hx ((hm.isDir_iff hne).1 hd) hl).imp id fun hc => ?_
    have htrash := DriveTree.ne_trash_of_walked ht hx
    obtain ⟨hcall, hmin⟩ := (childNamed_eq_some_iff htrash).1 hc
    exact (childNamed_eq_some_iff htrash).2 ⟨(hcalled hx hne).2 ⟨hcall, hne'⟩,
      fun m'' hm'' => hmin m'' ((hcalled hx hne).1 hm'').1⟩
  · have hx' := hx
    obtain ⟨hx, hne⟩ := hwalked.1 hx
    obtain ⟨hl', hne'⟩ := (hlists hx hne).1 hl
    have hparts' := h.parts hx ((hm.isDir_iff hne).1 hd) hl' (mt (hm.isDir_iff hne').2 hfile) hnot
    refine ⟨hx', hd, hl, hfile, ?_, fun hcall m'' hm'' => ?_⟩
    · rw [hm.reaches_iff hparts.loose]
      exact hparts'.loose
    · exact hparts'.alone ((hcalled hx hne).1 hcall).1 m'' ((hcalled hx hne).1 hm'').1

end

end Drive

end CeDrive
