import CeDrive.Digits
import CeDrive.TreeInvariant

/-!
# Listings

What `readdir`, `lookupChild`, `resolve` and `path` return, in terms of the edges and the
log. A listing shows each shown child once, in the group of its bare name
(`mem_readdir_iff`); a node that resolves is the root or a shown child of the node that the
rest of the path resolves to.
-/

open Std (ExtTreeMap ExtTreeSet LawfulEqCmp)
open SortedLog Forest

namespace CeDrive

namespace DriveTree

variable {t t' : DriveTree} {p c n : NodeId} {name r : String} {k : NodeKind}

/-! ## Children -/

theorem mem_rawChildren : (name, c) ∈ t.rawChildren p ↔ (name, c) ∈ t.childSet p :=
  ExtTreeSet.mem_toList

theorem Mirror.mem_rawChildren (h : t.Mirror) : (name, c) ∈ t.rawChildren p ↔
    ∃ e, t.edges[c]? = some e ∧ e.parent = p ∧ e.name = name := by
  rw [DriveTree.mem_rawChildren, h]

/-- Shown in the listing of `p` : not hidden by the trash. -/
def Shown (t : DriveTree) (p c : NodeId) : Prop :=
  p = TRASH ∨ t.isTrashed c = false

theorem mem_shownChildren : (name, c) ∈ t.shownChildren p ↔
    (name, c) ∈ t.rawChildren p ∧ t.Shown p c := by
  rw [shownChildren, List.mem_filter, Shown]
  by_cases hp : p = TRASH <;> simp [hp]

theorem nameCmp_eq_lt {a b : String × NodeId} : nameCmp a b = .lt ↔ toLex a < toLex b := by
  have hthen : nameCmp a b = (compare a.1 b.1).then (compare a.2 b.2) := rfl
  rw [hthen, Ordering.then_eq_lt, compare_lt_iff_lt, compare_lt_iff_lt, LawfulEqCmp.compare_eq_iff_eq,
    Prod.Lex.toLex_lt_toLex]

/-- Children come by name, then by node. -/
theorem ascending_rawChildren (t : DriveTree) (p : NodeId) : Ascending toLex (t.rawChildren p) := by
  have h : (t.rawChildren p).Pairwise fun a b => nameCmp a b = .lt := ExtTreeSet.ordered_toList
  exact h.imp nameCmp_eq_lt.1

theorem ascending_shownChildren (t : DriveTree) (p : NodeId) :
    Ascending toLex (t.shownChildren p) :=
  (ascending_rawChildren t p).sublist List.filter_sublist

/-- Bare names are a function of the node, as each node has one edge. -/
theorem Mirror.name_unique (h : t.Mirror) {name' : String} {p' : NodeId}
    (hc : (name, c) ∈ t.rawChildren p) (hc' : (name', c) ∈ t.rawChildren p') :
    name = name' ∧ p = p' := by
  obtain ⟨e, he, hp, hn⟩ := h.mem_rawChildren.1 hc
  obtain ⟨e', he', hp', hn'⟩ := h.mem_rawChildren.1 hc'
  obtain rfl := Option.some_injective _ (he.symm.trans he')
  exact ⟨hn.symm.trans hn', hp.symm.trans hp'⟩

/-! ## Stamps and conflict names -/

theorem definingTs_eq (t : DriveTree) (n : NodeId) : t.definingTs n =
    ((t.logOps.reverse.find? fun o => o.child = n).map MoveOp.ts).getD ⟨0, ""⟩ := by
  rw [definingTs, logOps, ← List.map_reverse, List.find?_map]
  have hcomp : ((fun o : MoveOp => decide (o.child = n)) ∘ UndoLog.Entry.op) =
      fun e : LogEntry => decide (e.op.child = n) := rfl
  rw [hcomp]
  cases t.log.reverse.find? fun e => e.op.child = n <;> rfl

/-- A node moved by one operation of the log is stamped by it. -/
theorem definingTs_of_unique {op : MoveOp} (hop : op ∈ t.logOps)
    (huniq : ∀ o ∈ t.logOps, o.child = op.child → o = op) : t.definingTs op.child = op.ts := by
  rw [definingTs_eq]
  cases hf : t.logOps.reverse.find? fun o => o.child = op.child with
  | none =>
    have hnone := List.find?_eq_none.1 hf op (List.mem_reverse.2 hop)
    simp at hnone
  | some o =>
    have hc : o.child = op.child := by simpa using List.find?_some hf
    rw [huniq o (List.mem_reverse.1 (List.mem_of_find?_eq_some hf)) hc]
    rfl

/-- A node with an edge is stamped by a move of it. -/
theorem Replayed.exists_op_of_definingTs (h : t.Replayed) {e : Edge} (he : t.edges[c]? = some e) :
    ∃ op ∈ t.logOps, op.child = c ∧ op.ts = t.definingTs c := by
  obtain ⟨op, hop, hc, -⟩ := h.exists_op_of_edge he
  rw [definingTs_eq]
  cases hf : t.logOps.reverse.find? fun o => o.child = c with
  | none =>
    have hnone := List.find?_eq_none.1 hf op (List.mem_reverse.2 hop)
    simp [hc] at hnone
  | some o =>
    exact ⟨o, List.mem_reverse.1 (List.mem_of_find?_eq_some hf),
      by simpa using List.find?_some hf, rfl⟩

/-- Different nodes have different stamps. -/
theorem Replayed.definingTs_injective (h : t.Replayed) {e e' : Edge} {c' : NodeId}
    (he : t.edges[c]? = some e) (he' : t.edges[c']? = some e')
    (hts : t.definingTs c = t.definingTs c') : c = c' := by
  obtain ⟨op, hop, rfl, hop'⟩ := h.exists_op_of_definingTs he
  obtain ⟨o, ho, rfl, ho'⟩ := h.exists_op_of_definingTs he'
  rw [h.ascending.key_injective hop ho (hop'.trans (hts.trans ho'.symm))]

theorem toList_conflictName (name : String) (ts : Timestamp) : (conflictName name ts).toList =
    name.toList ++ (".conflict-".toList ++
      ((short ts.replica).toList ++ '-' :: Nat.toDigits 10 ts.lamport)) := by
  simp [conflictName]

theorem conflictName_ne (name : String) (ts : Timestamp) : conflictName name ts ≠ name := by
  intro h
  have hlist := congrArg String.toList h
  rw [toList_conflictName] at hlist
  have hlen := congrArg List.length (List.append_right_eq_self.1 hlist)
  simp at hlen

theorem dash_not_mem_toDigits (n : ℕ) : '-' ∉ Nat.toDigits 10 n := fun h => by
  have := Nat.isDigit_of_mem_toDigits (by omega) le_rfl h
  revert this
  decide

theorem append_cons_inj_of_not_mem {α : Type*} {a b u v : List α} {x : α} (hu : x ∉ u) (hv : x ∉ v)
    (h : a ++ x :: u = b ++ x :: v) : a = b ∧ u = v := by
  rcases List.append_eq_append_iff.1 h with ⟨s, rfl, hs⟩ | ⟨s, rfl, hs⟩
  · cases s with
    | nil => exact ⟨(List.append_nil a).symm, (List.cons.inj hs).2⟩
    | cons y s =>
      obtain ⟨rfl, rfl⟩ := List.cons.inj hs
      exact absurd (by simp) hu
  · cases s with
    | nil => exact ⟨List.append_nil b, ((List.cons.inj hs).2).symm⟩
    | cons y s =>
      obtain ⟨rfl, rfl⟩ := List.cons.inj hs
      exact absurd (by simp) hv

/-- A conflict name shows the clock of the stamp, and the replica cut to eight characters. -/
theorem conflictName_injective {name : String} {a b : Timestamp}
    (h : conflictName name a = conflictName name b) :
    short a.replica = short b.replica ∧ a.lamport = b.lamport := by
  have hlist := congrArg String.toList h
  rw [toList_conflictName, toList_conflictName] at hlist
  obtain ⟨hs, hd⟩ := append_cons_inj_of_not_mem (dash_not_mem_toDigits _) (dash_not_mem_toDigits _)
    (List.append_cancel_left (List.append_cancel_left hlist))
  exact ⟨String.toList_inj.1 hs, Digits.toDigits_injective (by omega) (by omega) hd⟩

/-! ## Groups of one bare name -/

/-- The children with a given bare name, in order. -/
def groupOf (kids : List (String × NodeId)) (name : String) : List NodeId :=
  (kids.filter fun kid => kid.1 = name).map Prod.snd

theorem groupOf_append (kids kids' : List (String × NodeId)) (name : String) :
    groupOf (kids ++ kids') name = groupOf kids name ++ groupOf kids' name := by
  simp [groupOf]

theorem mem_groupOf {kids : List (String × NodeId)} : c ∈ groupOf kids name ↔ (name, c) ∈ kids := by
  simp only [groupOf, List.mem_map, List.mem_filter, decide_eq_true_eq]
  constructor
  · rintro ⟨⟨n, c'⟩, ⟨hmem, rfl⟩, rfl⟩
    exact hmem
  · exact fun h => ⟨(name, c), ⟨h, rfl⟩, rfl⟩

/-- A group of an ordered list of children is ordered by node. -/
theorem pairwise_groupOf {kids : List (String × NodeId)} (h : Ascending toLex kids) (name : String) :
    (groupOf kids name).Pairwise (· < ·) := by
  refine List.pairwise_map.2 (List.Pairwise.imp_of_mem ?_ (h.sublist List.filter_sublist))
  intro a b ha hb hab
  have ha' : a.1 = name := by simpa using (List.mem_filter.1 ha).2
  have hb' : b.1 = name := by simpa using (List.mem_filter.1 hb).2
  rcases Prod.Lex.toLex_lt_toLex.1 hab with hlt | ⟨-, hlt⟩
  · rw [ha', hb'] at hlt
    exact absurd hlt (lt_irrefl _)
  · exact hlt

theorem getElem?_byName (kids : List (String × NodeId)) (name : String) :
    (byName kids)[name]? = if groupOf kids name = [] then none else some (groupOf kids name) := by
  induction kids using List.reverseRecOn with
  | nil => simp [byName, groupOf]
  | append_singleton kids kid ih =>
    have hstep : byName (kids ++ [kid]) =
        (byName kids).insert kid.1 ((byName kids).getD kid.1 [] ++ [kid.2]) := by
      simp [byName]
    rw [hstep, ExtTreeMap.getElem?_insert, groupOf_append]
    by_cases hn : kid.1 = name
    · subst hn
      have hd : (byName kids).getD kid.1 [] = groupOf kids kid.1 := by
        rw [ExtTreeMap.getD_eq_getD_getElem?, ih]
        split_ifs with hnil <;> simp [hnil]
      simp [hd, groupOf]
    · have hskip : groupOf [kid] name = [] := by simp [groupOf, hn]
      simp [hn, ih, hskip]

/-- The groups a listing renders. -/
theorem mem_byName {kids : List (String × NodeId)} {ids : List NodeId} :
    (name, ids) ∈ (byName kids).toList ↔ ids = groupOf kids name ∧ ids ≠ [] := by
  rw [ExtTreeMap.mem_toList_iff_getElem?_eq_some, getElem?_byName]
  by_cases h : groupOf kids name = []
  · rw [if_pos h]
    refine iff_of_false (by simp) ?_
    rintro ⟨rfl, hne⟩
    exact hne h
  · rw [if_neg h, Option.some_inj]
    constructor
    · rintro rfl
      exact ⟨rfl, h⟩
    · exact fun hids => hids.1.symm

/-- The members of a group, the one placed last first. -/
theorem mem_ranked {ids : List NodeId} {x : Timestamp × NodeId} :
    x ∈ t.ranked ids ↔ x.2 ∈ ids ∧ x.1 = t.definingTs x.2 := by
  rw [ranked, List.mem_insertionSort, List.mem_map]
  constructor
  · rintro ⟨c, hc, rfl⟩
    exact ⟨hc, rfl⟩
  · rintro ⟨hc, hts⟩
    exact ⟨x.2, hc, by rw [← hts]⟩

theorem pairwise_ranked (t : DriveTree) (ids : List NodeId) :
    (t.ranked ids).Pairwise fun a b => b.1 ≤ a.1 := by
  have : Std.Total fun a b : Timestamp × NodeId => b.1 ≤ a.1 := ⟨fun a b => le_total b.1 a.1⟩
  have : IsTrans (Timestamp × NodeId) fun a b => b.1 ≤ a.1 := ⟨fun _ _ _ h h' => h'.trans h⟩
  exact List.pairwise_insertionSort _ _

/-- The names of a group of several members : the first of the ranking keeps the bare
name. -/
theorem renderGroup_of_ranked {ids : List NodeId} {w : Timestamp × NodeId}
    {rest : List (Timestamp × NodeId)} (hids : ∀ c, ids ≠ [c])
    (hr : t.ranked ids = w :: rest) :
    t.renderGroup name ids = (name, w.2, t.kindOf w.2) ::
      rest.map fun x => (conflictName name x.1, x.2, t.kindOf x.2) := by
  unfold renderGroup
  split
  · exact absurd rfl (hids _)
  · rw [hr, List.mapIdx_cons]
    refine congrArg₂ _ rfl (List.ext_getElem (by simp) fun i h _ => by simp)

/-- The ranking is a sort of the members themselves. -/
theorem ranked_eq (t : DriveTree) (ids : List NodeId) : t.ranked ids =
    (ids.insertionSort fun a b => t.definingTs b ≤ t.definingTs a).map
      fun c => (t.definingTs c, c) :=
  (List.map_insertionSort (fun a b => t.definingTs b ≤ t.definingTs a)
    (fun a b : Timestamp × NodeId => b.1 ≤ a.1) (fun c => (t.definingTs c, c)) ids
    fun _ _ _ _ => Iff.rfl).symm

/-- Two trees render a group alike if they order its members alike, and give the same
conflict name to every member that is not alone at the top. -/
theorem renderGroup_congr {ids : List NodeId} (hnodup : ids.Nodup)
    (hkind : ∀ c ∈ ids, t.kindOf c = t'.kindOf c)
    (horder : ∀ a ∈ ids, ∀ b ∈ ids,
      t.definingTs b ≤ t.definingTs a ↔ t'.definingTs b ≤ t'.definingTs a)
    (hname : ∀ c ∈ ids, ∀ b ∈ ids, b ≠ c → t.definingTs c ≤ t.definingTs b →
      conflictName name (t.definingTs c) = conflictName name (t'.definingTs c)) :
    t.renderGroup name ids = t'.renderGroup name ids := by
  by_cases hids : ∃ c, ids = [c]
  · obtain ⟨c, rfl⟩ := hids
    exact congrArg (fun k => [(name, c, k)]) (hkind c List.mem_cons_self)
  have hids' : ∀ c, ids ≠ [c] := fun c h => hids ⟨c, h⟩
  have hsort : ids.insertionSort (fun a b => t.definingTs b ≤ t.definingTs a) =
      ids.insertionSort fun a b => t'.definingTs b ≤ t'.definingTs a := by
    simpa using List.map_insertionSort (fun a b => t.definingTs b ≤ t.definingTs a)
      (fun a b => t'.definingTs b ≤ t'.definingTs a) id ids horder
  have hr := ranked_eq t ids
  have hr' := ranked_eq t' ids
  have hpair := pairwise_ranked t ids
  have hperm := List.perm_insertionSort (fun a b => t.definingTs b ≤ t.definingTs a) ids
  rw [hr] at hpair
  rw [← hsort] at hr'
  cases hs : ids.insertionSort fun a b => t.definingTs b ≤ t.definingTs a with
  | nil =>
    rw [hs] at hperm
    rw [hperm.symm.eq_nil]
    rfl
  | cons w rest =>
    rw [hs] at hr hr' hpair hperm
    rw [renderGroup_of_ranked hids' (by rw [hr]; rfl), renderGroup_of_ranked hids' (by rw [hr']; rfl)]
    have hw : w ∈ ids := hperm.mem_iff.1 List.mem_cons_self
    have hmem : ∀ x ∈ rest, x ∈ ids := fun x hx => hperm.mem_iff.1 (List.mem_cons_of_mem _ hx)
    refine congrArg₂ List.cons (by rw [hkind w hw]) ?_
    rw [List.map_map, List.map_map]
    refine List.map_congr_left fun x hx => ?_
    have hne : w ≠ x := by
      rintro rfl
      exact (List.nodup_cons.1 (hperm.nodup_iff.2 hnodup)).1 hx
    have hle : t.definingTs x ≤ t.definingTs w :=
      (List.pairwise_cons.1 hpair).1 _ (List.mem_map_of_mem (f := fun c => (t.definingTs c, c)) hx)
    simp only [Function.comp_apply, hkind x (hmem x hx), hname x (hmem x hx) w hw hne hle]

/-- In a group of several members with distinct stamps, the one placed last has the bare
name and every other its conflict name. -/
theorem mem_renderGroup {ids : List NodeId} (hids : ∀ c, ids ≠ [c]) (hnodup : ids.Nodup)
    (hts : ∀ a ∈ ids, ∀ b ∈ ids, t.definingTs a = t.definingTs b → a = b)
    (h : (r, c, k) ∈ t.renderGroup name ids) :
    ((∀ b ∈ ids, t.definingTs b ≤ t.definingTs c) → r = name) ∧
      (∀ b ∈ ids, t.definingTs c < t.definingTs b → r = conflictName name (t.definingTs c)) := by
  have hpair := pairwise_ranked t ids
  cases hr : t.ranked ids with
  | nil =>
    unfold renderGroup at h
    split at h
    · exact absurd rfl (hids _)
    · rw [hr] at h
      cases h
  | cons w rest =>
    rw [hr, List.pairwise_cons] at hpair
    have hw := mem_ranked.1 (hr ▸ List.mem_cons_self : w ∈ t.ranked ids)
    have hrest : ∀ x ∈ rest, x.2 ∈ ids ∧ x.1 = t.definingTs x.2 := fun x hx =>
      mem_ranked.1 (hr ▸ List.mem_cons_of_mem _ hx)
    rw [renderGroup_of_ranked hids hr] at h
    rcases List.mem_cons.1 h with heq | h
    · obtain ⟨rfl, rfl, -⟩ : r = name ∧ c = w.2 ∧ k = t.kindOf w.2 := by simpa using heq
      refine ⟨fun _ => rfl, fun b hb hlt => absurd hlt (not_lt_of_ge ?_)⟩
      have hb' : (t.definingTs b, b) ∈ t.ranked ids := mem_ranked.2 ⟨hb, rfl⟩
      rw [hr] at hb'
      rcases List.mem_cons.1 hb' with heq | hb'
      · rw [← heq]
      · rw [← hw.2]
        exact hpair.1 _ hb'
    · obtain ⟨x, hx, heq⟩ := List.mem_map.1 h
      obtain ⟨rfl, rfl, -⟩ : conflictName name x.1 = r ∧ x.2 = c ∧ t.kindOf x.2 = k := by
        simpa using heq
      obtain ⟨hxmem, hxts⟩ := hrest x hx
      refine ⟨fun hmax => ?_, fun _ _ _ => by rw [hxts]⟩
      have hle := hpair.1 x hx
      have hsame := hts w.2 hw.1 x.2 hxmem (le_antisymm (hmax _ hw.1) (by rwa [← hw.2, ← hxts]))
      have hperm := (List.perm_insertionSort (fun a b => t.definingTs b ≤ t.definingTs a) ids)
      have hranked : (t.ranked ids).map Prod.snd = ids.insertionSort
          fun a b => t.definingTs b ≤ t.definingTs a := by
        rw [ranked_eq, List.map_map]
        exact List.map_id _
      rw [hr, List.map_cons] at hranked
      have hnd := hperm.nodup_iff.2 hnodup
      rw [← hranked, List.nodup_cons, hsame] at hnd
      exact absurd (List.mem_map_of_mem hx) hnd.1

/-- Every member of a group is listed once, with its kind. -/
theorem map_renderGroup_perm (t : DriveTree) (name : String) (ids : List NodeId) :
    ((t.renderGroup name ids).map fun e => e.2).Perm (ids.map fun c => (c, t.kindOf c)) := by
  by_cases hids : ∃ c, ids = [c]
  · obtain ⟨c, rfl⟩ := hids
    exact List.Perm.refl _
  · have hids' : ∀ c, ids ≠ [c] := fun c h => hids ⟨c, h⟩
    have hperm : ((t.ranked ids).map fun x => (x.2, t.kindOf x.2)).Perm
        (ids.map fun c => (c, t.kindOf c)) := by
      have h := (List.perm_insertionSort (fun a b : Timestamp × NodeId => b.1 ≤ a.1)
        (ids.map fun c => (t.definingTs c, c))).map fun x => (x.2, t.kindOf x.2)
      simpa [ranked, Function.comp_def] using h
    cases hr : t.ranked ids with
    | nil =>
      rw [hr] at hperm
      unfold renderGroup
      split
      · exact absurd rfl (hids' _)
      · rw [hr]
        exact hperm
    | cons w rest =>
      rw [hr] at hperm
      rw [renderGroup_of_ranked hids' hr]
      simpa [Function.comp_def] using hperm

/-! ## Listings -/

/-- An entry of a listing belongs to the group of one bare name. -/
theorem mem_readdir {e : Listed} : e ∈ t.readdir p ↔
    ∃ name, e ∈ t.renderGroup name (groupOf (t.shownChildren p) name) ∧
      groupOf (t.shownChildren p) name ≠ [] := by
  rw [readdir, List.mem_insertionSort, List.mem_flatMap]
  constructor
  · rintro ⟨⟨name, ids⟩, hg, he⟩
    obtain ⟨rfl, hne⟩ := mem_byName.1 hg
    exact ⟨name, he, hne⟩
  · rintro ⟨name, he, hne⟩
    exact ⟨(name, _), mem_byName.2 ⟨rfl, hne⟩, he⟩

/-- An entry names a shown child, with its kind. -/
theorem shown_of_mem_readdir (h : (r, c, k) ∈ t.readdir p) :
    ∃ name, (name, c) ∈ t.shownChildren p ∧ k = t.kindOf c ∧
      (r, c, k) ∈ t.renderGroup name (groupOf (t.shownChildren p) name) := by
  obtain ⟨name, he, -⟩ := mem_readdir.1 h
  have hmem := (map_renderGroup_perm t name _).mem_iff.1 (List.mem_map_of_mem (f := fun e => e.2) he)
  obtain ⟨c', hc', heq⟩ := List.mem_map.1 hmem
  obtain ⟨rfl, rfl⟩ := Prod.mk.inj heq
  exact ⟨name, mem_groupOf.1 hc', rfl, he⟩

/-- Every shown child has an entry. -/
theorem exists_mem_readdir (h : (name, c) ∈ t.shownChildren p) :
    ∃ r, (r, c, t.kindOf c) ∈ t.readdir p ∧
      (r, c, t.kindOf c) ∈ t.renderGroup name (groupOf (t.shownChildren p) name) := by
  have hc : c ∈ groupOf (t.shownChildren p) name := mem_groupOf.2 h
  have hmem := (map_renderGroup_perm t name _).mem_iff.2
    (List.mem_map_of_mem (f := fun c => (c, t.kindOf c)) hc)
  obtain ⟨⟨r, c', k'⟩, he, heq⟩ := List.mem_map.1 hmem
  obtain ⟨rfl, rfl⟩ := Prod.mk.inj heq
  exact ⟨r, mem_readdir.2 ⟨name, he, List.ne_nil_of_mem hc⟩, he⟩

/-- The nodes of a listing are the shown children. -/
theorem mem_readdir_iff : (∃ r k, (r, c, k) ∈ t.readdir p) ↔
    ∃ name, (name, c) ∈ t.rawChildren p ∧ t.Shown p c := by
  constructor
  · rintro ⟨r, k, h⟩
    obtain ⟨name, hs, -⟩ := shown_of_mem_readdir h
    exact ⟨name, mem_shownChildren.1 hs⟩
  · rintro ⟨name, h⟩
    obtain ⟨r, hr, -⟩ := exists_mem_readdir (mem_shownChildren.2 h)
    exact ⟨r, _, hr⟩

theorem lookupChild_eq_some (h : t.lookupChild p r = some c) : ∃ k, (r, c, k) ∈ t.readdir p := by
  unfold lookupChild at h
  obtain ⟨⟨r', c', k'⟩, hf, rfl⟩ := Option.map_eq_some_iff.1 h
  have hr : r' = r := by simpa using List.find?_some hf
  exact ⟨k', hr ▸ List.mem_of_find?_eq_some hf⟩

/-- A child found under a name has its edge to that directory, and is shown there. -/
theorem Mirror.edge_of_lookupChild (hm : t.Mirror) (h : t.lookupChild p r = some c) :
    ∃ e, t.edges[c]? = some e ∧ e.parent = p ∧ t.Shown p c := by
  obtain ⟨k, hk⟩ := lookupChild_eq_some h
  obtain ⟨name, hraw, hs⟩ := mem_readdir_iff.1 ⟨r, k, hk⟩
  obtain ⟨e, he, hp, -⟩ := hm.mem_rawChildren.1 hraw
  exact ⟨e, he, hp, hs⟩

theorem resolveFrom_append (t : DriveTree) (cur : NodeId) (comps comps' : List String) :
    t.resolveFrom cur (comps ++ comps') =
      (t.resolveFrom cur comps).bind fun n => t.resolveFrom n comps' := by
  induction comps generalizing cur with
  | nil => rfl
  | cons comp rest ih =>
    rw [List.cons_append, resolveFrom, resolveFrom]
    cases t.lookupChild cur comp with
    | none => rfl
    | some next => exact ih next

/-- A node that resolves from `cur` is `cur` or a listed child. -/
theorem Mirror.edge_of_resolveFrom (hm : t.Mirror) {cur : NodeId} {comps : List String}
    (h : t.resolveFrom cur comps = some n) : n = cur ∨ ∃ e, t.edges[n]? = some e := by
  induction comps generalizing cur with
  | nil => exact Or.inl (Option.some_injective _ h).symm
  | cons comp rest ih =>
    rw [resolveFrom] at h
    cases hc : t.lookupChild cur comp with
    | none => simp [hc] at h
    | some next =>
      obtain ⟨e, he, -⟩ := hm.edge_of_lookupChild hc
      rcases ih (by simpa [hc] using h) with rfl | hn
      · exact Or.inr ⟨e, he⟩
      · exact Or.inr hn

/-- What resolves from `cur` lies below it. -/
theorem Mirror.reaches_of_resolveFrom (hm : t.Mirror) {cur : NodeId} {comps : List String}
    (h : t.resolveFrom cur comps = some n) : Reaches t.parentOf n cur := by
  induction comps generalizing cur with
  | nil =>
    obtain rfl := Option.some_injective _ h
    exact Reaches.refl _
  | cons comp rest ih =>
    rw [resolveFrom] at h
    cases hc : t.lookupChild cur comp with
    | none => simp [hc] at h
    | some next =>
      obtain ⟨e, he, rfl, -⟩ := hm.edge_of_lookupChild hc
      exact Reaches.tail (ih (by simpa [hc] using h)) (parentOf_of_edge he)

theorem Mirror.edge_of_resolve (hm : t.Mirror) {path : String} (h : t.resolve path = some n) :
    n = ROOT ∨ ∃ e, t.edges[n]? = some e := by
  unfold resolve at h
  split_ifs at h
  · exact Or.inl (Option.some_injective _ h).symm
  · exact hm.edge_of_resolveFrom h

end DriveTree

end CeDrive
