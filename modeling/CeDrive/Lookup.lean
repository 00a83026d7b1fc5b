import CeDrive.Listing

/-!
# Who holds a name

Which child a directory lists under which name, in terms of bare names and stamps
(`Replayed.lists_iff`) : among the shown children of one bare name the one moved last keeps
it, each other is listed under its conflict name. Two children may still be listed under one
name, when a conflict name is the bare name of another child; a lookup then returns the one
with the lesser bare name (`Replayed.le_of_lookupChild`).
-/

open Std (ExtTreeMap)
open SortedLog Forest

namespace CeDrive

namespace DriveTree

variable {t t' : DriveTree} {p c m : NodeId} {b b' r : String}

/-! ## Names and stamps -/

/-- `c` is shown in `p` and has the bare name `b`. -/
def Called (t : DriveTree) (p : NodeId) (b : String) (c : NodeId) : Prop :=
  (b, c) ∈ t.shownChildren p

/-- `p` lists `c` under the name `r`. -/
def Lists (t : DriveTree) (p : NodeId) (r : String) (c : NodeId) : Prop :=
  ∃ k, (r, c, k) ∈ t.readdir p

theorem Mirror.called_iff (h : t.Mirror) : t.Called p b c ↔
    (∃ e, t.edges[c]? = some e ∧ e.parent = p ∧ e.name = b) ∧ t.Shown p c := by
  rw [Called, mem_shownChildren, h.mem_rawChildren]

/-- A node with the same edge, and as much in the trash, is shown alike. -/
theorem called_iff_of_edge (h : t.Mirror) (hg : t.Grounded) (h' : t'.Mirror) (hg' : t'.Grounded)
    (hedge : t'.edges[m]? = t.edges[m]?) (htrash : ∀ e, t.edges[m]? = some e → e.parent = p →
      (Reaches t'.parentOf m TRASH ↔ Reaches t.parentOf m TRASH)) :
    t'.Called p b m ↔ t.Called p b m := by
  rw [h'.called_iff, h.called_iff, hedge]
  refine and_congr_right fun ⟨e, he, hp, _⟩ => or_congr_right ?_
  rw [← Bool.not_eq_true, ← Bool.not_eq_true, isTrashed, isTrashed, hg'.isAncestor_iff,
    hg.isAncestor_iff, htrash e he hp]

theorem Mirror.called_unique (h : t.Mirror) {p' : NodeId} (hc : t.Called p b c)
    (hc' : t.Called p' b' c) : b = b' :=
  (h.name_unique (mem_shownChildren.1 hc).1 (mem_shownChildren.1 hc').1).1

theorem ne_trash_of_called (ht : t.Replayed) (hc : t.Called p b c) : c ≠ TRASH := by
  rintro rfl
  obtain ⟨⟨e, he, rfl, -⟩, hs | hs⟩ := ht.mirror.called_iff.1 hc
  · exact ht.grounded.ne_of_up (parentOf_of_edge he) hs.symm
  · rw [← Bool.not_eq_true, DriveTree.isTrashed, ht.grounded.isAncestor_iff] at hs
    exact hs (Reaches.refl _)

theorem Replayed.eq_of_definingTs_eq (h : t.Replayed) (hc : t.Called p b c) (hm : t.Called p b' m)
    (hts : t.definingTs c = t.definingTs m) : c = m := by
  obtain ⟨⟨e, he, -⟩, -⟩ := h.mirror.called_iff.1 hc
  obtain ⟨⟨e', he', -⟩, -⟩ := h.mirror.called_iff.1 hm
  exact h.definingTs_injective he he' hts

/-- The name of a child in the group of its bare name. -/
theorem Replayed.rendered (h : t.Replayed) {k : NodeKind}
    (hr : (r, c, k) ∈ t.renderGroup b (groupOf (t.shownChildren p) b)) :
    ((∀ m, t.Called p b m → t.definingTs m ≤ t.definingTs c) → r = b) ∧
      ∀ m, t.Called p b m → t.definingTs c < t.definingTs m → r = conflictName b (t.definingTs c) := by
  by_cases hids : ∃ x, groupOf (t.shownChildren p) b = [x]
  · obtain ⟨x, hx⟩ := hids
    rw [hx] at hr
    obtain ⟨rfl, rfl, -⟩ : r = b ∧ c = x ∧ k = t.kindOf x := by simpa [renderGroup] using hr
    refine ⟨fun _ => rfl, fun m hm hlt => ?_⟩
    obtain rfl : m = c := List.mem_singleton.1 (hx ▸ mem_groupOf.2 hm)
    exact absurd hlt (lt_irrefl _)
  · have hnodup : (groupOf (t.shownChildren p) b).Nodup :=
      (pairwise_groupOf (ascending_shownChildren t p) b).imp fun hab => hab.ne
    have hgroup := mem_renderGroup (fun x hx => hids ⟨x, hx⟩) hnodup (fun x hx y hy =>
      h.eq_of_definingTs_eq (mem_groupOf.1 hx) (mem_groupOf.1 hy)) hr
    exact ⟨fun hmax => hgroup.1 fun x hx => hmax x (mem_groupOf.1 hx),
      fun m hm => hgroup.2 m (mem_groupOf.2 hm)⟩

/-- A listed child keeps its bare name, if no other of that name was moved later, and has
its conflict name otherwise. -/
theorem Replayed.lists_iff (h : t.Replayed) : t.Lists p r c ↔ ∃ b, t.Called p b c ∧
    ((∀ m, t.Called p b m → t.definingTs m ≤ t.definingTs c) ∧ r = b ∨
      (∃ m, t.Called p b m ∧ t.definingTs c < t.definingTs m) ∧
        r = conflictName b (t.definingTs c)) := by
  constructor
  · rintro ⟨k, hk⟩
    obtain ⟨b, hc, -, hr⟩ := shown_of_mem_readdir hk
    refine ⟨b, hc, ?_⟩
    by_cases hmax : ∀ m, t.Called p b m → t.definingTs m ≤ t.definingTs c
    · exact Or.inl ⟨hmax, (h.rendered hr).1 hmax⟩
    · obtain ⟨m, hm, hlt⟩ : ∃ m, t.Called p b m ∧ t.definingTs c < t.definingTs m := by
        simpa using hmax
      exact Or.inr ⟨⟨m, hm, hlt⟩, (h.rendered hr).2 m hm hlt⟩
  · rintro ⟨b, hc, ⟨hmax, rfl⟩ | ⟨⟨m, hm, hlt⟩, rfl⟩⟩
    · obtain ⟨r', hr', hgroup⟩ := exists_mem_readdir hc
      exact ⟨_, (h.rendered hgroup).1 hmax ▸ hr'⟩
    · obtain ⟨r', hr', hgroup⟩ := exists_mem_readdir hc
      exact ⟨_, (h.rendered hgroup).2 m hm hlt ▸ hr'⟩

/-- The names of a child of a known bare name. -/
theorem Replayed.lists_iff_of_called (h : t.Replayed) (hc : t.Called p b c) : t.Lists p r c ↔
    (∀ m, t.Called p b m → t.definingTs m ≤ t.definingTs c) ∧ r = b ∨
      (∃ m, t.Called p b m ∧ t.definingTs c < t.definingTs m) ∧
        r = conflictName b (t.definingTs c) := by
  rw [h.lists_iff]
  constructor
  · rintro ⟨b', hb', hcase⟩
    obtain rfl := h.mirror.called_unique hc hb'
    exact hcase
  · exact fun hcase => ⟨b, hc, hcase⟩

theorem Replayed.lists_unique (h : t.Replayed) {p' : NodeId} {r' : String} (hr : t.Lists p r c)
    (hr' : t.Lists p' r' c) : p = p' ∧ r = r' := by
  obtain ⟨b, hb, hcase⟩ := h.lists_iff.1 hr
  obtain ⟨b', hb', hcase'⟩ := h.lists_iff.1 hr'
  obtain ⟨rfl, rfl⟩ := h.mirror.name_unique (mem_shownChildren.1 hb).1 (mem_shownChildren.1 hb').1
  refine ⟨rfl, ?_⟩
  rcases hcase with ⟨hmax, rfl⟩ | ⟨⟨m, hm, hlt⟩, rfl⟩ <;>
    rcases hcase' with ⟨hmax', rfl⟩ | ⟨⟨m', hm', hlt'⟩, rfl⟩
  · rfl
  · exact absurd hlt' (not_lt_of_ge (hmax m' hm'))
  · exact absurd hlt (not_lt_of_ge (hmax' m hm))
  · rfl

/-- The bare name starts the name a child is listed under. -/
theorem Replayed.prefix_of_lists (h : t.Replayed) (hr : t.Lists p r c) (hc : t.Called p b c) :
    b.toList <+: r.toList := by
  obtain ⟨b', hb', hcase⟩ := h.lists_iff.1 hr
  obtain rfl := h.mirror.called_unique hc hb'
  rcases hcase with ⟨-, rfl⟩ | ⟨-, rfl⟩
  · exact List.prefix_rfl
  · rw [toList_conflictName]
    exact List.prefix_append ..

/-! ## Lookup -/

theorem lists_of_lookupChild (h : t.lookupChild p r = some c) : t.Lists p r c :=
  lookupChild_eq_some h

theorem Replayed.called_of_lists (h : t.Replayed) (hr : t.Lists p r c) : ∃ b, t.Called p b c :=
  let ⟨b, hb, _⟩ := h.lists_iff.1 hr
  ⟨b, hb⟩

/-- A name held by one child only is found. -/
theorem lookupChild_of_unique (hc : t.Lists p r c) (huniq : ∀ m, t.Lists p r m → m = c) :
    t.lookupChild p r = some c := by
  obtain ⟨k, hk⟩ := hc
  cases hl : t.lookupChild p r with
  | none =>
    rw [lookupChild, Option.map_eq_none_iff, List.find?_eq_none] at hl
    exact absurd (decide_eq_true rfl) (hl _ hk)
  | some m => rw [huniq m (lists_of_lookupChild hl)]

/-- A stable sort keeps the first element of every key. -/
theorem find?_insertionSort {α β : Type*} [LinearOrder β] (f : α → β) (x : β) (l : List α) :
    (l.insertionSort fun u v => f u ≤ f v).find? (fun u => f u = x) = l.find? fun u => f u = x := by
  have hins : ∀ (a : α) (l : List α), (l.orderedInsert (fun u v => f u ≤ f v) a).find?
      (fun u => f u = x) = (a :: l).find? fun u => f u = x := by
    intro a l
    induction l with
    | nil => rfl
    | cons y l ih =>
      rw [List.orderedInsert_cons]
      split_ifs with hle
      · rfl
      · rw [List.find?_cons, ih, List.find?_cons, List.find?_cons]
        by_cases ha : f a = x
        · have hy : f y ≠ x := fun hy => hle (by rw [ha, hy])
          simp [ha, hy]
        · simp [ha, List.find?_cons]
  induction l with
  | nil => rfl
  | cons a l ih =>
    rw [List.insertionSort_cons, hins, List.find?_cons, List.find?_cons, ih]

/-- The groups of a listing come by bare name. -/
theorem pairwise_groups (t : DriveTree) (p : NodeId) :
    ((byName (t.shownChildren p)).toList.flatMap fun g => t.renderGroup g.1 g.2).Pairwise
      fun e e' => ∀ b b', (b, e.2.1) ∈ t.rawChildren p → (b', e'.2.1) ∈ t.rawChildren p →
        t.Mirror → b ≤ b' := by
  have hbare : ∀ {g : String × List NodeId} {e : Listed} {b : String},
      g ∈ (byName (t.shownChildren p)).toList → e ∈ t.renderGroup g.1 g.2 → t.Mirror →
      (b, e.2.1) ∈ t.rawChildren p → b = g.1 := by
    intro g e b hg he hm hb
    obtain ⟨hids, -⟩ := mem_byName.1 (hg : (g.1, g.2) ∈ _)
    have hmem := (map_renderGroup_perm t g.1 g.2).mem_iff.1 (List.mem_map_of_mem he)
    obtain ⟨x, hx, heq⟩ := List.mem_map.1 hmem
    have hxe : x = e.2.1 := congrArg Prod.fst heq
    rw [hids, mem_groupOf, hxe] at hx
    exact (hm.name_unique hb (mem_shownChildren.1 hx).1).1
  have hord : (byName (t.shownChildren p)).toList.Pairwise fun g g' =>
      compare g.1 g'.1 = .lt := ExtTreeMap.ordered_keys_toList
  rw [List.pairwise_flatMap]
  constructor
  · intro g hg
    refine List.Pairwise.imp_of_mem (R := fun _ _ => True) ?_ (List.pairwise_of_forall fun _ _ => trivial)
    intro e e' he he' _ b b' hb hb' hm
    rw [hbare hg he hm hb, hbare hg he' hm hb']
  · refine hord.imp_of_mem fun {g g'} hg hg' hlt e he e' he' b b' hb hb' hm => ?_
    rw [hbare hg he hm hb, hbare hg' he' hm hb']
    exact (compare_lt_iff_lt.1 hlt).le

/-- Of the children listed under one name, lookup returns one with the least bare name. -/
theorem Replayed.le_of_lookupChild (h : t.Replayed) (hl : t.lookupChild p r = some c)
    (hc : t.Called p b c) (hm : t.Lists p r m) (hb : t.Called p b' m) : b ≤ b' := by
  rw [lookupChild, readdir, find?_insertionSort] at hl
  obtain ⟨⟨r', c', k⟩, hf, rfl⟩ := Option.map_eq_some_iff.1 hl
  obtain ⟨-, l, l', hsplit, hl⟩ := List.find?_eq_some_iff_append.1 hf
  have hpair := pairwise_groups t p
  obtain ⟨k', hk'⟩ := hm
  rw [readdir, List.mem_insertionSort] at hk'
  rw [hsplit] at hpair hk'
  rcases List.mem_append.1 hk' with hk' | hk'
  · exact absurd (hl _ hk') (by simp)
  · rcases List.mem_cons.1 hk' with heq | hk'
    · obtain ⟨-, rfl, -⟩ : r = r' ∧ m = c' ∧ k' = k := by simpa using heq
      exact (h.mirror.called_unique hc hb).le
    · exact (List.pairwise_cons.1 (List.pairwise_append.1 hpair).2.1).1 _ hk' b b'
        (mem_shownChildren.1 hc).1 (mem_shownChildren.1 hb).1 h.mirror

/-- A child listed under its bare name was moved last of that name. -/
theorem Replayed.definingTs_le (h : t.Replayed) (hr : t.Lists p b c) (hc : t.Called p b c)
    (hm : t.Called p b m) : t.definingTs m ≤ t.definingTs c := by
  obtain ⟨b', hb', ⟨hmax, -⟩ | ⟨-, hconf⟩⟩ := h.lists_iff.1 hr
  · obtain rfl := h.mirror.called_unique hc hb'
    exact hmax m hm
  · obtain rfl := h.mirror.called_unique hc hb'
    exact absurd hconf.symm (conflictName_ne _ _)

/-- If the node found under `r` has that bare name, no other child is listed as `r`. -/
theorem Replayed.eq_of_lookupChild (h : t.Replayed) (hl : t.lookupChild p r = some c)
    (hc : t.Called p r c) (hm : t.Lists p r m) : m = c := by
  obtain ⟨b, hb⟩ := h.called_of_lists hm
  have hle : b ≤ r := le_of_not_gt fun hlt =>
    @List.IsPrefix.le Char _ _ _ _ (h.prefix_of_lists hm hb) (String.lt_iff_toList_lt.1 hlt)
  obtain rfl := le_antisymm hle (h.le_of_lookupChild hl hc hm hb)
  exact h.eq_of_definingTs_eq hb hc (le_antisymm (h.definingTs_le (lists_of_lookupChild hl) hc hb)
    (h.definingTs_le hm hb hc))

/-- The child of bare name `r` moved last is found under `r`, unless another child has `r` as
its conflict name. -/
theorem Replayed.lookupChild_of_latest (h : t.Replayed) (hc : t.Called p r c)
    (hlatest : ∀ m, t.Called p r m → m ≠ c → t.definingTs m < t.definingTs c)
    (halone : ∀ b x m, t.Called p b x → t.Called p b m → t.definingTs x < t.definingTs m →
      conflictName b (t.definingTs x) ≠ r) : t.lookupChild p r = some c := by
  refine lookupChild_of_unique (h.lists_iff.2 ⟨r, hc, Or.inl ⟨fun m hm => ?_, rfl⟩⟩) fun x hx => ?_
  · by_cases hmc : m = c
    · rw [hmc]
    · exact (hlatest m hm hmc).le
  · obtain ⟨b, hb, ⟨hmax, rfl⟩ | ⟨⟨m, hm, hlt⟩, hconf⟩⟩ := h.lists_iff.1 hx
    · by_contra hne
      exact absurd (hmax c hc) (not_le_of_gt (hlatest x hb hne))
    · exact absurd hconf.symm (halone b x m hb hm hlt)

/-- No child has the bare name of the node found as its conflict name. -/
theorem Replayed.conflictName_ne (h : t.Replayed) (hl : t.lookupChild p r = some c)
    (hc : t.Called p r c) {x : NodeId} (hx : t.Called p b x) (hm : t.Called p b m)
    (hlt : t.definingTs x < t.definingTs m) : conflictName b (t.definingTs x) ≠ r := by
  intro hr
  obtain rfl := h.eq_of_lookupChild hl hc (h.lists_iff.2 ⟨b, hx, Or.inr ⟨⟨m, hm, hlt⟩, hr.symm⟩⟩)
  exact DriveTree.conflictName_ne b _ (hr.trans (h.mirror.called_unique hc hx))

/-! ## Directories a move does not touch -/

/-- A listing depends on the shown children, their stamps and their kinds. -/
theorem lookupChild_congr (hshown : ∀ b c, t.Called p b c ↔ t'.Called p b c)
    (hts : ∀ b c, t.Called p b c → t.definingTs c = t'.definingTs c)
    (hkind : ∀ b c, t.Called p b c → t.kindOf c = t'.kindOf c) (r : String) :
    t.lookupChild p r = t'.lookupChild p r := by
  have hkids : t.shownChildren p = t'.shownChildren p :=
    (ascending_shownChildren t p).ext (ascending_shownChildren t' p) fun kid => hshown kid.1 kid.2
  have hlist : t.readdir p = t'.readdir p := by
    rw [readdir, readdir, ← hkids]
    refine congrArg _ (List.flatMap_congr fun g hg => ?_)
    obtain ⟨hids, -⟩ := mem_byName.1 (hg : (g.1, g.2) ∈ _)
    have hcalled : ∀ c ∈ g.2, t.Called p g.1 c := fun c hc => mem_groupOf.1 (hids ▸ hc)
    refine renderGroup_congr ?_ (fun c hc => hkind _ c (hcalled c hc)) (fun a ha x hx => ?_)
      fun c hc x hx _ _ => by rw [hts _ c (hcalled c hc)]
    · rw [hids]
      exact (pairwise_groupOf (ascending_shownChildren t p) g.1).imp fun hab => hab.ne
    · rw [hts _ a (hcalled a ha), hts _ x (hcalled x hx)]
  rw [lookupChild, lookupChild, hlist]

/-- A path that ends in `q` resolves alike if the directories above `q` are listed alike : `q`
does not lie above itself. -/
theorem Mirror.resolveFrom_congr (h : t.Mirror) (hg : t.Grounded) {q cur : NodeId} {comps : List String}
    (hlookup : ∀ p r, p ≠ q → Reaches t.parentOf q p → t.lookupChild p r = t'.lookupChild p r)
    (hq : t.resolveFrom cur comps = some q) : t'.resolveFrom cur comps = some q := by
  induction comps generalizing cur with
  | nil => exact hq
  | cons comp rest ih =>
    have habove := h.reaches_of_resolveFrom hq
    rw [resolveFrom] at hq ⊢
    cases hc : t.lookupChild cur comp with
    | none => simp [hc] at hq
    | some next =>
      have hq' : t.resolveFrom next rest = some q := by simpa [hc] using hq
      obtain ⟨e, he, rfl, -⟩ := h.edge_of_lookupChild hc
      have hne : e.parent ≠ q := fun heq => hg.not_reaches_of_up (parentOf_of_edge he)
        (heq ▸ h.reaches_of_resolveFrom hq')
      rw [← hlookup _ _ hne habove, hc]
      exact ih hq'

end DriveTree

end CeDrive
