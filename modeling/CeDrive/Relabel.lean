import CeDrive.Convergence
import CeDrive.Content
import CeDrive.Paths
import Mathlib.Order.Monotone.Basic

/-!
# Relabeling of node ids

A map of node ids relabels the operations of a log. If it is injective on the ids of the log,
keeps the order of those that are moved, and fixes the root and the trash (`Relabels`), then the
tree of the relabeled log is the relabeled tree (`DriveTree.Relabeled`) : children, listings
and resolutions are the same, up to the map. So are the records of a relabeled content log
(`foldRecord_relabel`).
-/

open Std (ExtTreeMap)
open SortedLog Forest

namespace CeDrive

def MoveOp.relabel (ρ : NodeId → NodeId) (op : MoveOp) : MoveOp :=
  { op with child := ρ op.child, newParent := ρ op.newParent }

def Edge.relabel (ρ : NodeId → NodeId) (e : Edge) : Edge :=
  { e with parent := ρ e.parent }

def ContentOp.relabel (ρ : NodeId → NodeId) : ContentOp → ContentOp
  | set id cid size mode mtimeMs => set (ρ id) cid size mode mtimeMs
  | restore id cid nowMs => restore (ρ id) cid nowMs
  | remove id => remove (ρ id)
  | setDoc id docId => setDoc (ρ id) docId

def StampedContentOp.relabel (ρ : NodeId → NodeId) (s : StampedContentOp) : StampedContentOp :=
  { s with op := s.op.relabel ρ }

/-- `ρ` tells the ids in `ids` apart, and keeps the order of `kids` and the special nodes. -/
structure Relabels (ρ : NodeId → NodeId) (kids ids : Set NodeId) : Prop where
  injOn : Set.InjOn ρ ids
  mono : StrictMonoOn ρ kids
  sub : kids ⊆ ids
  root : ROOT ∈ ids ∧ ρ ROOT = ROOT
  trash : TRASH ∈ ids ∧ ρ TRASH = TRASH

variable {ρ : NodeId → NodeId} {kids ids : Set NodeId}

/-- A move of a node in `kids` to a node in `ids`. -/
def MoveOp.Within (kids ids : Set NodeId) (op : MoveOp) : Prop :=
  op.child ∈ kids ∧ op.newParent ∈ ids

/-! ## The content of a relabeled log -/

theorem ContentOp.target_relabel (op : ContentOp) : (op.relabel ρ).target = ρ op.target := by
  cases op <;> rfl

/-- What becomes of an operation depends on the new id of its target. -/
theorem ContentOp.relabel_congr {ρ' : NodeId → NodeId} {op : ContentOp}
    (h : ρ' op.target = ρ op.target) : op.relabel ρ' = op.relabel ρ := by
  cases op <;> rw [target] at h <;> rw [relabel, relabel, h]

theorem ContentMap.applyRecord_relabel (r : Option FileContent) (op : ContentOp) :
    applyRecord r (op.relabel ρ) = applyRecord r op := by
  cases op <;> rfl

theorem ascending_map_relabel {log : List StampedContentOp} (h : Ascending StampedContentOp.ts log) :
    Ascending StampedContentOp.ts (log.map (StampedContentOp.relabel ρ)) :=
  List.pairwise_map.2 h

/-- A relabeled log leaves the same record for the relabeled node. -/
theorem foldRecord_relabel (hρ : Set.InjOn ρ ids) {log : List StampedContentOp}
    (hlog : ∀ s ∈ log, s.op.target ∈ ids) {n : NodeId} (hn : n ∈ ids) :
    foldRecord (log.map (StampedContentOp.relabel ρ)) (ρ n) = foldRecord log n := by
  have hops : (log.map (StampedContentOp.relabel ρ)).map StampedContentOp.op =
      (log.map StampedContentOp.op).map (ContentOp.relabel ρ) := by
    simp only [List.map_map]
    rfl
  have hfilter : (log.map StampedContentOp.op).filter
        ((fun op : ContentOp => decide (op.target = ρ n)) ∘ ContentOp.relabel ρ) =
      (log.map StampedContentOp.op).filter fun op => op.target = n := by
    refine List.filter_congr fun op hop => ?_
    obtain ⟨s, hs, rfl⟩ := List.mem_map.1 hop
    simp only [Function.comp_apply, ContentOp.target_relabel, hρ.eq_iff (hlog s hs) hn]
  rw [foldRecord, foldRecord, hops, List.filter_map, hfilter, List.foldl_map]
  simp only [ContentMap.applyRecord_relabel]

namespace DriveTree

variable {t t' : DriveTree} {n p c : NodeId} {ops : List MoveOp}

/-! ## The edges of a relabeled log -/

theorem grounded_foldl_doPush (ops : List MoveOp) : (ops.foldl doPush new).Grounded :=
  (grounded_new.run ops).congr (foldl_doPush new ops).2.1.symm

theorem exists_op_of_edge_foldl_doPush {e : Edge} (he : (ops.foldl doPush new).edges[n]? = some e) :
    ∃ op ∈ ops, op.child = n ∧ op.edge = e := by
  rw [(foldl_doPush new ops).2.1] at he
  exact (exists_op_of_edge_run _ he).resolve_left (by simp [new])

/-- Performing a relabeled log relabels the edges. -/
theorem edges_foldl_relabel (hρ : Relabels ρ kids ids) (hops : ∀ op ∈ ops, op.Within kids ids)
    (hn : n ∈ ids) : ((ops.map (MoveOp.relabel ρ)).foldl doPush new).edges[ρ n]? =
      ((ops.foldl doPush new).edges[n]?).map (Edge.relabel ρ) := by
  classical
  induction ops using List.reverseRecOn generalizing n with
  | nil => simp [new]
  | append_singleton ops op ih =>
    have hops' : ∀ op ∈ ops, op.Within kids ids := fun o ho => hops o (List.mem_append_left _ ho)
    obtain ⟨hchild, hparent⟩ := hops op (by simp)
    have hedges := fun {n} hn => ih hops' (n := n) hn
    have hup : ∀ x ∈ ids, ((ops.map (MoveOp.relabel ρ)).foldl doPush new).parentOf (ρ x) =
        ((ops.foldl doPush new).parentOf x).map ρ := by
      intro x hx
      rw [parentOf, parentOf, hedges hx, Option.map_map, Option.map_map]
      rfl
    have hclosed : ∀ x ∈ ids, ∀ y, Up (ops.foldl doPush new).parentOf x y → y ∈ ids := by
      intro x _ y hxy
      obtain ⟨e, he, rfl⟩ := parentOf_eq_some.1 hxy
      obtain ⟨o, ho, -, rfl⟩ := exists_op_of_edge_foldl_doPush he
      exact (hops' o ho).2
    have hreach : Reaches ((ops.map (MoveOp.relabel ρ)).foldl doPush new).parentOf
        (op.relabel ρ).newParent (op.relabel ρ).child ↔
          Reaches (ops.foldl doPush new).parentOf op.newParent op.child :=
      reaches_rename hρ.injOn hclosed hup hparent (hρ.sub hchild)
    rw [List.map_append, List.map_singleton, List.foldl_append, List.foldl_append, List.foldl_cons,
      List.foldl_cons, List.foldl_nil, List.foldl_nil, (grounded_foldl_doPush ops).edges_doPush,
      (grounded_foldl_doPush _).edges_doPush]
    by_cases hr : Reaches (ops.foldl doPush new).parentOf op.newParent op.child
    · rw [if_pos hr, if_pos (hreach.2 hr), hedges hn]
    · rw [if_neg hr, if_neg (mt hreach.1 hr), ExtTreeMap.getElem?_insert, ExtTreeMap.getElem?_insert]
      by_cases hc : op.child = n
      · subst hc
        simp [MoveOp.relabel, MoveOp.edge, Edge.relabel]
      · have hc' : ρ op.child ≠ ρ n := fun heq => hc (hρ.injOn (hρ.sub hchild) hn heq)
        simp [MoveOp.relabel, hc, hc', hedges hn]

/-! ## A relabeled tree -/

/-- `t'` is `t` with its ids relabeled by `ρ`. -/
structure Relabeled (ρ : NodeId → NodeId) (kids ids : Set NodeId) (t t' : DriveTree) : Prop where
  relabels : Relabels ρ kids ids
  replayed : t.Replayed
  replayed' : t'.Replayed
  within : ∀ op ∈ t.logOps, op.Within kids ids
  log : t'.logOps = t.logOps.map (MoveOp.relabel ρ)

/-- A listed entry under its new id. -/
def Listed.relabel (ρ : NodeId → NodeId) (e : Listed) : Listed :=
  (e.1, ρ e.2.1, e.2.2)

theorem groupOf_relabel (l : List (String × NodeId)) (name : String) :
    groupOf (l.map (Prod.map id ρ)) name = (groupOf l name).map ρ := by
  rw [groupOf, groupOf, List.filter_map, List.map_map, List.map_map]
  rfl

theorem byName_relabel (l : List (String × NodeId)) :
    byName (l.map (Prod.map id ρ)) = (byName l).map fun _ g => g.map ρ := by
  refine ExtTreeMap.ext_getElem? fun name => ?_
  rw [ExtTreeMap.getElem?_map, getElem?_byName, getElem?_byName, groupOf_relabel]
  by_cases hg : groupOf l name = [] <;> simp [hg]

namespace Relabeled

variable (h : Relabeled ρ kids ids t t')
include h

theorem getElem?_edges (hn : n ∈ ids) :
    t'.edges[ρ n]? = (t.edges[n]?).map (Edge.relabel ρ) := by
  rw [h.replayed'.alike_foldl_doPush.view.1, h.replayed.alike_foldl_doPush.view.1, h.log]
  exact edges_foldl_relabel h.relabels h.within hn

theorem within_of_edge {e : Edge} (he : t.edges[n]? = some e) : n ∈ kids ∧ e.parent ∈ ids := by
  obtain ⟨op, hop, rfl, rfl⟩ := h.replayed.exists_op_of_edge he
  exact h.within op hop

/-- Every node of the relabeled tree is a relabeled node. -/
theorem exists_of_edge {m : NodeId} {e : Edge} (he : t'.edges[m]? = some e) :
    ∃ c e₀, c ∈ kids ∧ ρ c = m ∧ t.edges[c]? = some e₀ ∧ e₀.relabel ρ = e := by
  obtain ⟨op, hop, rfl, -⟩ := h.replayed'.exists_op_of_edge he
  rw [h.log] at hop
  obtain ⟨op, hmem, rfl⟩ := List.mem_map.1 hop
  have hc := (h.within op hmem).1
  have hedge : t'.edges[ρ op.child]? = some e := he
  rw [h.getElem?_edges (h.relabels.sub hc)] at hedge
  obtain ⟨e₀, he₀, rfl⟩ := Option.map_eq_some_iff.1 hedge
  exact ⟨op.child, e₀, hc, rfl, he₀, rfl⟩

theorem reaches_iff {a : NodeId} (hn : n ∈ ids) (ha : a ∈ ids) :
    Reaches t'.parentOf (ρ n) (ρ a) ↔ Reaches t.parentOf n a := by
  refine reaches_rename h.relabels.injOn (fun x _ y hxy => ?_) (fun x hx => ?_) hn ha
  · obtain ⟨e, he, rfl⟩ := parentOf_eq_some.1 hxy
    exact (h.within_of_edge he).2
  · rw [parentOf, parentOf, h.getElem?_edges hx, Option.map_map, Option.map_map]
    rfl

theorem isTrashed (hn : n ∈ ids) : t'.isTrashed (ρ n) = t.isTrashed n := by
  have hreach := h.reaches_iff hn h.relabels.trash.1
  rw [h.relabels.trash.2] at hreach
  rw [Bool.eq_iff_iff, DriveTree.isTrashed, DriveTree.isTrashed, h.replayed.grounded.isAncestor_iff,
    h.replayed'.grounded.isAncestor_iff, hreach]

theorem kindOf (hn : n ∈ ids) : t'.kindOf (ρ n) = t.kindOf n := by
  rw [DriveTree.kindOf, DriveTree.kindOf, h.getElem?_edges hn, Option.map_map]
  rfl

theorem definingTs (hn : n ∈ ids) : t'.definingTs (ρ n) = t.definingTs n := by
  have hfind : ∀ ops : List MoveOp, (∀ op ∈ ops, op.Within kids ids) →
      ((ops.map (MoveOp.relabel ρ)).find? fun o => o.child = ρ n) =
        (ops.find? fun o => o.child = n).map (MoveOp.relabel ρ) := by
    intro ops hops
    induction ops with
    | nil => rfl
    | cons op ops ih =>
      have hc := h.relabels.injOn.eq_iff (h.relabels.sub (hops op List.mem_cons_self).1) hn
      rw [List.map_cons, List.find?_cons, List.find?_cons,
        ih fun o ho => hops o (List.mem_cons_of_mem _ ho)]
      by_cases hop : op.child = n
      · simp [MoveOp.relabel, hop]
      · have hop' : ρ op.child ≠ ρ n := mt hc.1 hop
        simp [MoveOp.relabel, hop, hop']
  rw [definingTs_eq, definingTs_eq, h.log, ← List.map_reverse,
    hfind _ fun op hop => h.within op (List.mem_reverse.1 hop), Option.map_map]
  rfl

/-! ### Listings -/

theorem kids_of_mem_rawChildren {name : String} (hc : (name, c) ∈ t.rawChildren p) : c ∈ kids := by
  obtain ⟨e, he, -⟩ := h.replayed.mirror.mem_rawChildren.1 hc
  exact (h.within_of_edge he).1

/-- Children are in the same order, as the map keeps it. -/
theorem rawChildren (hp : p ∈ ids) :
    t'.rawChildren (ρ p) = (t.rawChildren p).map (Prod.map id ρ) := by
  refine (ascending_rawChildren t' _).ext (List.pairwise_map.2 ?_) fun x => ?_
  · refine (ascending_rawChildren t p).imp_of_mem fun {a b} ha hb hab => ?_
    rw [Prod.Lex.toLex_lt_toLex] at hab ⊢
    refine hab.imp_right (And.imp_right fun hlt => ?_)
    exact h.relabels.mono (h.kids_of_mem_rawChildren ha) (h.kids_of_mem_rawChildren hb) hlt
  · obtain ⟨name, m⟩ := x
    rw [h.replayed'.mirror.mem_rawChildren, List.mem_map]
    constructor
    · rintro ⟨e, he, hparent, rfl⟩
      obtain ⟨c, e₀, hc, rfl, he₀, rfl⟩ := h.exists_of_edge he
      have heq : e₀.parent = p := h.relabels.injOn (h.within_of_edge he₀).2 hp hparent
      exact ⟨(e₀.name, c), h.replayed.mirror.mem_rawChildren.2 ⟨e₀, he₀, heq, rfl⟩, rfl⟩
    · rintro ⟨⟨name', c⟩, hc, heq⟩
      obtain ⟨rfl, rfl⟩ := Prod.mk.inj heq
      obtain ⟨e, he, rfl, rfl⟩ := h.replayed.mirror.mem_rawChildren.1 hc
      refine ⟨e.relabel ρ, ?_, rfl, rfl⟩
      rw [h.getElem?_edges (h.relabels.sub (h.kids_of_mem_rawChildren hc)), he, Option.map_some]

theorem eq_trash_iff (hp : p ∈ ids) : ρ p = TRASH ↔ p = TRASH := by
  conv_lhs => rw [← h.relabels.trash.2]
  exact h.relabels.injOn.eq_iff hp h.relabels.trash.1

theorem shownChildren (hp : p ∈ ids) :
    t'.shownChildren (ρ p) = (t.shownChildren p).map (Prod.map id ρ) := by
  rw [DriveTree.shownChildren, DriveTree.shownChildren, h.rawChildren hp, List.filter_map]
  refine congrArg _ (List.filter_congr fun kid hkid => ?_)
  have hkids := h.relabels.sub (h.kids_of_mem_rawChildren (hkid : (kid.1, kid.2) ∈ _))
  simp only [Function.comp_apply, Prod.map_snd, ne_eq, h.eq_trash_iff hp, h.isTrashed hkids]

theorem ranked_relabel {g : List NodeId} (hg : ∀ c ∈ g, c ∈ ids) :
    t'.ranked (g.map ρ) = (t.ranked g).map (Prod.map id ρ) := by
  have hmap : (g.map ρ).map (fun c => (t'.definingTs c, c)) =
      (g.map fun c => (t.definingTs c, c)).map (Prod.map id ρ) := by
    rw [List.map_map, List.map_map]
    refine List.map_congr_left fun c hc => ?_
    simp only [Function.comp_apply, Prod.map_apply, id_eq, h.definingTs (hg c hc)]
  rw [ranked, ranked, hmap]
  exact (List.map_insertionSort (fun a b : Timestamp × NodeId => b.1 ≤ a.1) (fun a b => b.1 ≤ a.1)
    (Prod.map id ρ) _ fun _ _ _ _ => Iff.rfl).symm

theorem renderGroup (name : String) {g : List NodeId} (hg : ∀ c ∈ g, c ∈ ids) :
    t'.renderGroup name (g.map ρ) = (t.renderGroup name g).map (Listed.relabel ρ) := by
  by_cases hone : ∃ c, g = [c]
  · obtain ⟨c, rfl⟩ := hone
    simp [DriveTree.renderGroup, Listed.relabel, h.kindOf (hg c List.mem_cons_self)]
  have hids : ∀ x ∈ t.ranked g, x.2 ∈ ids := fun x hx => hg _ (mem_ranked.1 hx).1
  have hrender : ∀ (u : DriveTree) (l : List NodeId), (∀ c, l ≠ [c]) → u.renderGroup name l =
      (u.ranked l).mapIdx fun i r => if i = 0 then (name, r.2, u.kindOf r.2)
        else (conflictName name r.1, r.2, u.kindOf r.2) := by
    intro u l hl
    unfold DriveTree.renderGroup
    split
    · exact absurd rfl (hl _)
    · rfl
  have hg' : ∀ c, g.map ρ ≠ [c] := by
    intro c hc
    obtain ⟨c₀, hc₀, -⟩ := List.map_eq_singleton_iff.1 hc
    exact hone ⟨c₀, hc₀⟩
  rw [hrender t' _ hg', hrender t _ fun c hc => hone ⟨c, hc⟩, h.ranked_relabel hg]
  refine List.ext_getElem (by simp) fun i hi _ => ?_
  have hi : i < (t.ranked g).length := by simpa using hi
  have hkind := h.kindOf (hids _ (List.getElem_mem hi))
  simp only [List.getElem_mapIdx, List.getElem_map, Prod.map_fst, Prod.map_snd, id_eq, hkind]
  split_ifs <;> rfl

/-- The listing of a directory is that of the relabeled one, relabeled. -/
theorem readdir (hp : p ∈ ids) :
    t'.readdir (ρ p) = (t.readdir p).map (Listed.relabel ρ) := by
  have hgroups : ((byName (t.shownChildren p)).toList.flatMap fun g => t'.renderGroup g.1 (g.2.map ρ)) =
      (byName (t.shownChildren p)).toList.flatMap fun g =>
        (t.renderGroup g.1 g.2).map (Listed.relabel ρ) := by
    refine List.flatMap_congr fun g hg => h.renderGroup g.1 fun c hc => ?_
    obtain ⟨hids, -⟩ := mem_byName.1 (hg : (g.1, g.2) ∈ _)
    rw [hids] at hc
    exact h.relabels.sub (h.kids_of_mem_rawChildren (mem_shownChildren.1 (mem_groupOf.1 hc)).1)
  rw [DriveTree.readdir, DriveTree.readdir, h.shownChildren hp, byName_relabel, ExtTreeMap.toList_map,
    List.flatMap_map, hgroups, ← List.map_flatMap]
  exact (List.map_insertionSort (fun a b : Listed => a.1 ≤ b.1) (fun a b => a.1 ≤ b.1)
    (Listed.relabel ρ) _ fun _ _ _ _ => Iff.rfl).symm

theorem lookupChild (hp : p ∈ ids) (r : String) :
    t'.lookupChild (ρ p) r = (t.lookupChild p r).map ρ := by
  rw [DriveTree.lookupChild, DriveTree.lookupChild, h.readdir hp, List.find?_map, Option.map_map,
    Option.map_map]
  rfl

theorem kids_of_lookupChild {r : String} (hc : t.lookupChild p r = some c) : c ∈ kids := by
  obtain ⟨e, he, -⟩ := h.replayed.mirror.edge_of_lookupChild hc
  exact (h.within_of_edge he).1

theorem resolveFrom (hp : p ∈ ids) (comps : List String) :
    t'.resolveFrom (ρ p) comps = (t.resolveFrom p comps).map ρ := by
  induction comps generalizing p with
  | nil => rfl
  | cons comp rest ih =>
    rw [DriveTree.resolveFrom, DriveTree.resolveFrom, h.lookupChild hp]
    cases hc : t.lookupChild p comp with
    | none => rfl
    | some c => exact ih (h.relabels.sub (h.kids_of_lookupChild hc))

/-- A path resolves to the relabeled node. -/
theorem resolve (path : String) : t'.resolve path = (t.resolve path).map ρ := by
  have hfrom := h.resolveFrom h.relabels.root.1
  rw [h.relabels.root.2] at hfrom
  rw [resolve_eq, resolve_eq, hfrom]

theorem kids_of_resolve {path : String} (hn : t.resolve path = some n) (hroot : n ≠ ROOT) :
    n ∈ kids := by
  obtain ⟨e, he⟩ := (h.replayed.mirror.edge_of_resolve hn).resolve_left hroot
  exact (h.within_of_edge he).1

theorem ids_of_resolve {path : String} (hn : t.resolve path = some n) : n ∈ ids := by
  by_cases hroot : n = ROOT
  · exact hroot ▸ h.relabels.root.1
  · exact h.relabels.sub (h.kids_of_resolve hn hroot)

end Relabeled

end DriveTree

end CeDrive
