import CeDrive.ListedPaths
import CeDrive.PlainNames

/-!
# Chains of entries

A chain of listing entries leads from the root to a node, through directories whose names are
distinct. Its names, joined with slashes, resolve to the node; they are the path of the node as
long as none of them is a conflict name (`resolve_chain`).
-/

open Std (ExtTreeMap)
open SortedLog Forest

namespace CeDrive

namespace DriveTree

/-- The entries lead from the root to the node, and each directory on the way lists distinct
names. -/
inductive Chain (t : DriveTree) : List Listed → NodeId → Prop
  | root : Chain t [] ROOT
  | child {es : List Listed} {p : NodeId} {e : Listed} (h : Chain t es p) (he : e ∈ t.readdir p)
      (hnodup : ((t.readdir p).map Prod.fst).Nodup) : Chain t (es ++ [e]) e.2.1

/-- The entry shows its node under a conflict name. -/
def ConflictNamed (t : DriveTree) (e : Listed) : Prop :=
  ∃ edge, t.edges[e.2.1]? = some edge ∧ e.1 = conflictName edge.name (t.definingTs e.2.1)

variable {t : DriveTree} {es : List Listed} {n p c : NodeId} {r : String}

/-- An entry shows its node under its bare name or under its conflict name. -/
theorem Replayed.name_of_lists (h : t.Replayed) (hl : t.Lists p r c) :
    ∃ e, t.edges[c]? = some e ∧ e.parent = p ∧
      (r = e.name ∨ r = conflictName e.name (t.definingTs c)) := by
  obtain ⟨b, hb, hcase⟩ := h.lists_iff.1 hl
  obtain ⟨⟨e, he, rfl, rfl⟩, -⟩ := h.mirror.called_iff.1 hb
  exact ⟨e, he, rfl, hcase.imp (fun hr => hr.2) fun hr => hr.2⟩

/-- The names of the chain, looked up one after the other. -/
theorem Chain.resolveFrom (h : t.Chain es n) (ht : t.Replayed) :
    t.resolveFrom ROOT (es.map Prod.fst) = some n := by
  induction h with
  | root => rfl
  | @child es p e _ he hnodup ih =>
    have hl : t.Lists p e.1 e.2.1 := ⟨e.2.2, he⟩
    rw [List.map_append, resolveFrom_append, ih, Option.bind_some, List.map_singleton,
      resolveFrom_singleton]
    exact lookupChild_of_unique hl fun m hm => (nodup_names_iff ht.mirror).1 hnodup _ m _ hm hl

/-- The names of the chain are the bare names exactly if none of them is a conflict name. -/
theorem Chain.exists_pathTo (h : t.Chain es n) (ht : t.Replayed) : ∃ names, t.PathTo names n ∧
    (names = es.map Prod.fst ↔ ∀ e ∈ es, ¬t.ConflictNamed e) := by
  induction h with
  | root => exact ⟨[], .root, by simp⟩
  | @child es p e _ he hnodup ih =>
    obtain ⟨names, hnames, hiff⟩ := ih
    obtain ⟨edge, hedge, rfl, hname⟩ := ht.name_of_lists ⟨e.2.2, he⟩
    have hself : edge.name = e.1 ↔ ¬t.ConflictNamed e := by
      constructor
      · rintro heq ⟨edge', hedge', hconf⟩
        obtain rfl := Option.some_injective _ (hedge.symm.trans hedge')
        exact conflictName_ne edge.name _ (hconf.symm.trans heq.symm)
      · intro hnot
        exact (hname.resolve_right fun hconf => hnot ⟨edge, hedge, hconf⟩).symm
    refine ⟨names ++ [edge.name], hnames.child hedge, ?_⟩
    rw [List.map_append, List.map_singleton, Drive.forall_mem_append_singleton, ← hiff, ← hself]
    constructor
    · intro heq
      obtain ⟨hinit, hlast⟩ := List.append_inj' heq rfl
      exact ⟨hinit, by simpa using hlast⟩
    · rintro ⟨rfl, hlast⟩
      rw [hlast]

end DriveTree

namespace Drive

variable {d : Drive} {es : List DriveTree.Listed} {n p c : NodeId} {r : String}

/-- All names are valid, no replica id of a move has a slash, and no reserved id has an edge. -/
structure ValidNames (d : Drive) : Prop where
  names : ∀ ⦃n : NodeId⦄ ⦃e : Edge⦄, d.tree.edges[n]? = some e → validateName e.name = .ok ()
  replicas : ∀ op ∈ d.state.moveLog, '/' ∉ op.ts.replica.toList
  reserved : d.tree.ReservedFree

/-- Conflict names are components too. -/
theorem ValidNames.isComponent_of_lists (hv : d.ValidNames) (h : d.Inv) (hl : d.tree.Lists p r c) :
    DriveTree.IsComponent r := by
  have ht := h.replayed
  obtain ⟨e, he, -, hname⟩ := ht.name_of_lists hl
  have hplain := plain_of_validateName (hv.names he)
  rcases hname with rfl | rfl
  · exact hplain.isComponent
  · obtain ⟨op, hop, -, hts⟩ := ht.exists_op_of_definingTs he
    rw [h.tree, DriveTree.logOps_applyAll] at hop
    have hreplica : PlainReplica op.ts.replica := by
      rw [PlainReplica, DriveTree.short, String.toList_ofList]
      exact fun hmem => hv.replicas op (mem_of_mem_deliverAll hop) (List.mem_of_mem_take hmem)
    exact (hplain.conflictName (hts ▸ hreplica)).isComponent

theorem ValidNames.isComponent_of_chain (hv : d.ValidNames) (h : d.Inv) (hc : d.tree.Chain es n) :
    ∀ r ∈ es.map Prod.fst, DriveTree.IsComponent r := by
  induction hc with
  | root => simp
  | @child es p e _ he _ ih =>
    rw [List.map_append, List.map_singleton]
    exact forall_mem_append_singleton.2 ⟨ih, hv.isComponent_of_lists h ⟨e.2.2, he⟩⟩

/-- The bare names of a path are components. -/
theorem ValidNames.isComponent_of_pathTo (hv : d.ValidNames) {names : List String}
    (hp : d.tree.PathTo names n) : ∀ b ∈ names, DriveTree.IsComponent b := by
  induction hp with
  | root => simp
  | child _ he ih =>
    exact forall_mem_append_singleton.2 ⟨ih, (plain_of_validateName (hv.names he)).isComponent⟩

/-- Resolve inverts listing. Where all names are valid, no replica id has a slash and no reserved
id has an edge : the joined names of a chain, with any slashes around them, resolve to its node,
they are the path of the node exactly if none of its entries is under a conflict name, and no
string resolves to a node in the trash or in limbo. -/
theorem resolve_chain (d : Drive) (h : d.Reachable) (hv : d.ValidNames) :
    (∀ es n, d.tree.Chain es n →
      (∀ i j, d.tree.resolve (DriveTree.slashes i ++ "/".intercalate (es.map Prod.fst) ++
        DriveTree.slashes j) = some n) ∧
      (d.tree.path n = some (DriveTree.pathString (es.map Prod.fst)) ↔
        ∀ e ∈ es, ¬d.tree.ConflictNamed e)) ∧
    ∀ path n, d.tree.resolve path = some n →
      d.tree.isTrashed n = false ∧ d.tree.isLimbo n = false := by
  have ht := h.inv.replayed
  refine ⟨fun es n hc => ⟨fun i j => ?_, ?_⟩, fun path n hr => ?_⟩
  · rw [DriveTree.resolve_eq, DriveTree.components_slashes,
      DriveTree.components_pathString_of_isComponent (hv.isComponent_of_chain h.inv hc)]
    exact hc.resolveFrom ht
  · obtain ⟨names, hp, hiff⟩ := hc.exists_pathTo ht
    rw [ht.grounded.path_eq_some_iff, ← hiff]
    constructor
    · rintro ⟨names', hp', heq⟩
      obtain rfl := hp.unique ht.grounded hp'
      exact (DriveTree.pathString_injective (hv.isComponent_of_chain h.inv hc)
        (hv.isComponent_of_pathTo hp) heq).symm
    · rintro rfl
      exact ⟨_, hp, rfl⟩
  · rw [DriveTree.resolve_eq] at hr
    have hl := DriveTree.listedAt_of_resolveFrom hr
    exact ⟨DriveTree.not_trashed_of_listedAt ht hv.reserved hl,
      DriveTree.not_limbo_of_listedAt ht hv.reserved hl⟩

/-- Two directories of one name, of which the later keeps it. -/
theorem resolve_chain_docs : ∃ d, (init "d" "a").performAll
      [.exec 0 (.mkdir "/" "docs"), .remoteMove ⟨⟨1, "b"⟩, "x", ROOT, "docs", .dir⟩] = some d ∧
    d.tree.Chain [("docs", "x", .dir)] "x" ∧
    (∀ es n, d.tree.Chain es n →
      (∀ i j, d.tree.resolve (DriveTree.slashes i ++ "/".intercalate (es.map Prod.fst) ++
        DriveTree.slashes j) = some n) ∧
      (d.tree.path n = some (DriveTree.pathString (es.map Prod.fst)) ↔
        ∀ e ∈ es, ¬d.tree.ConflictNamed e)) ∧
    ∀ path n, d.tree.resolve path = some n →
      d.tree.isTrashed n = false ∧ d.tree.isLimbo n = false := by
  have hrun : ((init "d" "a").performAll [.exec 0 (.mkdir "/" "docs"),
      .remoteMove ⟨⟨1, "b"⟩, "x", ROOT, "docs", .dir⟩]).any (fun d =>
        decide (("docs", "x", NodeKind.dir) ∈ d.tree.readdir ROOT ∧
          ((d.tree.readdir ROOT).map Prod.fst).Nodup ∧
          (∀ x ∈ d.tree.edges.toList, validateName x.2.name = .ok ()) ∧
          (∀ op ∈ d.state.moveLog, '/' ∉ op.ts.replica.toList) ∧
          d.tree.edges[ROOT]? = none ∧ d.tree.edges[TRASH]? = none ∧
          d.tree.edges[LIMBO]? = none)) = true := by
    decide +kernel
  obtain ⟨d, hd, hall⟩ := (Option.any_eq_true _ _).1 hrun
  obtain ⟨hmem, hnodup, hnames, hreplicas, hroot, htrash, hlimbo⟩ := of_decide_eq_true hall
  refine ⟨d, hd, .child .root hmem hnodup, resolve_chain d ⟨"d", "a", _, hd⟩ ⟨?_, hreplicas, ?_⟩⟩
  · exact fun n e he => hnames (n, e) (ExtTreeMap.mem_toList_iff_getElem?_eq_some.2 he)
  · rintro n (rfl | rfl | rfl)
    · exact hroot
    · exact htrash
    · exact hlimbo

end Drive

end CeDrive
