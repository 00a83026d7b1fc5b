import CeDrive.LocalMove
import CeDrive.NamedLogs
import CeDrive.SafeNames

/-!
# Staying inside the target

What `materialize` makes and writes depends on the names that came in with received moves.
Whatever comes in, materializing stays inside its target in every run if and only if the names
are safe, alone and as conflict names, and the limbo is not moved (`materialize_inside_iff`).
-/

open SortedLog Forest

namespace CeDrive

namespace DriveTree

/-! ## Two received moves -/

section Pair

variable {t : DriveTree} {b : ReplicaId} {x y p c q : NodeId} {r₁ r₂ s : String} {k₁ k₂ : NodeKind}

/-- A node is placed in the root, and later another one in the root or in the first. -/
def pairTree (b : ReplicaId) (x y p : NodeId) (r₁ r₂ : String) (k₁ k₂ : NodeKind) : DriveTree :=
  applyAll [⟨⟨1, b⟩, x, ROOT, r₁, k₁⟩, ⟨⟨2, b⟩, y, p, r₂, k₂⟩]

theorem applyAll_singleton (op : MoveOp) : applyAll [op] = new.doPush op :=
  apply_of_forall_lt (t := new) fun _ ho => absurd ho List.not_mem_nil

theorem pairTree_eq : pairTree b x y p r₁ r₂ k₁ k₂ =
    (applyAll [⟨⟨1, b⟩, x, ROOT, r₁, k₁⟩]).doPush ⟨⟨2, b⟩, y, p, r₂, k₂⟩ := by
  have hlast : ∀ o ∈ (applyAll [⟨⟨1, b⟩, x, ROOT, r₁, k₁⟩]).logOps,
      o.ts < (⟨2, b⟩ : Timestamp) := fun o ho => by
    rw [applyAll_singleton] at ho
    obtain rfl := List.mem_singleton.1 ho
    exact Timestamp.lt_of_lamport_lt Nat.one_lt_two
  have happly : (applyAll [⟨⟨1, b⟩, x, ROOT, r₁, k₁⟩]).apply ⟨⟨2, b⟩, y, p, r₂, k₂⟩ = _ :=
    apply_of_forall_lt hlast
  exact happly

theorem definingTs_pairTree (hxy : x ≠ y) :
    (pairTree b x y p r₁ r₂ k₁ k₂).definingTs x = ⟨1, b⟩ ∧
      (pairTree b x y p r₁ r₂ k₁ k₂).definingTs y = ⟨2, b⟩ := by
  simp [pairTree_eq, applyAll_singleton, definingTs_doPush, hxy.symm]

variable (hx : x ≠ ROOT) (hy : y ≠ ROOT) (hxy : x ≠ y) (hp : p = ROOT ∨ p = x)
include hx hy hxy hp

theorem edges_pairTree : (pairTree b x y p r₁ r₂ k₁ k₂).edges =
    (new.edges.insert x ⟨ROOT, r₁, k₁⟩).insert y ⟨p, r₂, k₂⟩ := by
  classical
  rw [pairTree_eq]
  have hnew : ¬Reaches new.parentOf ROOT x := fun h => hx (h.eq_of_top (parentOf_new _))
  have hedges : (applyAll [⟨⟨1, b⟩, x, ROOT, r₁, k₁⟩]).edges =
      new.edges.insert x ⟨ROOT, r₁, k₁⟩ := by
    rw [applyAll_singleton]
    exact (grounded_new.edges_doPush _).trans (if_neg hnew)
  have ht := (replayed_applyAll [⟨⟨1, b⟩, x, ROOT, r₁, k₁⟩]).grounded
  generalize applyAll [⟨⟨1, b⟩, x, ROOT, r₁, k₁⟩] = t at hedges ht
  have hup : t.parentOf x = some ROOT :=
    parentOf_of_edge (hedges ▸ Std.ExtTreeMap.getElem?_insert_self)
  have hroot : t.parentOf ROOT = none := by simp [parentOf, hedges, new, hx]
  have hfree : ¬Reaches t.parentOf p y := by
    rcases hp with rfl | rfl
    · exact fun h => hy (h.eq_of_top hroot)
    · rw [reaches_iff_of_parent hup]
      rintro (h | h)
      · exact hxy h.symm
      · exact hy (h.eq_of_top hroot)
  rw [ht.edges_doPush, if_neg hfree, hedges]
  rfl

theorem edge_pairTree :
    (pairTree b x y p r₁ r₂ k₁ k₂).edges[x]? = some ⟨ROOT, r₁, k₁⟩ ∧
      (pairTree b x y p r₁ r₂ k₁ k₂).edges[y]? = some ⟨p, r₂, k₂⟩ := by
  rw [edges_pairTree hx hy hxy hp]
  exact ⟨by rw [Std.ExtTreeMap.getElem?_insert, if_neg (by simpa using hxy.symm),
    Std.ExtTreeMap.getElem?_insert_self], Std.ExtTreeMap.getElem?_insert_self⟩

theorem kindOf_pairTree : (pairTree b x y p r₁ r₂ k₁ k₂).kindOf x = k₁ ∧
    (pairTree b x y p r₁ r₂ k₁ k₂).kindOf y = k₂ := by
  obtain ⟨hex, hey⟩ : (pairTree b x y p r₁ r₂ k₁ k₂).edges[x]? = _ ∧ _ :=
    edge_pairTree hx hy hxy hp
  rw [kindOf, kindOf, hex, hey]
  exact ⟨rfl, rfl⟩

/-- The children of the pair. -/
theorem called_pairTree (hx' : x ≠ TRASH) (hy' : y ≠ TRASH) : (pairTree b x y p r₁ r₂ k₁ k₂).Called q s c ↔
      c = x ∧ q = ROOT ∧ s = r₁ ∨ c = y ∧ q = p ∧ s = r₂ := by
  have ht : (pairTree b x y p r₁ r₂ k₁ k₂).Replayed := replayed_applyAll _
  have hedges : (pairTree b x y p r₁ r₂ k₁ k₂).edges = _ := edges_pairTree hx hy hxy hp
  obtain ⟨hex, hey⟩ : (pairTree b x y p r₁ r₂ k₁ k₂).edges[x]? = _ ∧ _ :=
    edge_pairTree hx hy hxy hp
  generalize pairTree b x y p r₁ r₂ k₁ k₂ = t at hedges ht hex hey
  have hroot : t.parentOf ROOT = none := by simp [parentOf, hedges, new, hx, hy]
  have hrootTrash : ¬Reaches t.parentOf ROOT TRASH := fun h =>
    absurd (h.eq_of_top hroot) (by decide)
  have hxTrash : ¬Reaches t.parentOf x TRASH := by
    rw [reaches_iff_of_parent (parentOf_of_edge hex)]
    exact not_or.2 ⟨hx'.symm, hrootTrash⟩
  have hyTrash : ¬Reaches t.parentOf y TRASH := by
    rw [reaches_iff_of_parent (parentOf_of_edge hey)]
    rcases hp with rfl | rfl
    · exact not_or.2 ⟨hy'.symm, hrootTrash⟩
    · exact not_or.2 ⟨hy'.symm, hxTrash⟩
  have hshown : ∀ {n}, ¬Reaches t.parentOf n TRASH → t.Shown q n := fun h =>
    Or.inr (by rwa [← Bool.not_eq_true, isTrashed, ht.grounded.isAncestor_iff])
  rw [ht.mirror.called_iff]
  constructor
  · rintro ⟨⟨e, he, rfl, rfl⟩, -⟩
    rw [hedges, Std.ExtTreeMap.getElem?_insert, Std.ExtTreeMap.getElem?_insert] at he
    split_ifs at he with hcy hcx
    · obtain rfl := Option.some_injective _ he
      exact Or.inr ⟨(Std.LawfulEqCmp.compare_eq_iff_eq.1 hcy).symm, rfl, rfl⟩
    · obtain rfl := Option.some_injective _ he
      exact Or.inl ⟨(Std.LawfulEqCmp.compare_eq_iff_eq.1 hcx).symm, rfl, rfl⟩
    · simp [new] at he
  · rintro (⟨rfl, rfl, rfl⟩ | ⟨rfl, rfl, rfl⟩)
    · exact ⟨⟨_, hex, rfl, rfl⟩, hshown hxTrash⟩
    · exact ⟨⟨_, hey, rfl, rfl⟩, hshown hyTrash⟩

end Pair

end DriveTree

namespace Drive

/-! ## What comes in -/

/-- What comes in with received moves : their names, the replica ids of their stamps, among them
that of the drive, and whether the limbo is moved. -/
structure Inflow where
  name : String → Prop
  replica : ReplicaId → Prop
  limbo : Prop
  own : ∃ replica', replica replica'

/-- The names in use : the valid ones, which the own operations take, and those that come in. -/
def Inflow.Name (I : Inflow) (name : String) : Prop :=
  validateName name = .ok () ∨ I.name name

/-- The move may come in. The name of a move to the limbo is not asked for. -/
structure Inflow.Carries (I : Inflow) (op : MoveOp) : Prop where
  name : op.newParent = LIMBO ∨ I.Name op.newName
  replica : I.replica op.ts.replica
  limbo : op.child = LIMBO → I.limbo

/-- The limbo is not moved, and all names are safe, alone and as conflict names. -/
structure Inflow.Harmless (I : Inflow) : Prop where
  limbo : ¬I.limbo
  name : ∀ name, I.Name name → SafeName name
  conflict : ∀ name ts, I.Name name → I.replica ts.replica →
    SafeName (DriveTree.conflictName name ts)

variable {I : Inflow} {d : Drive} {path : String} {entries : List DirEntry} {e : DirEntry}

/-- The names of a listing are safe. -/
theorem Inflow.Harmless.safeName (hI : I.Harmless) (h : d.Inv) (hlog : d.NamedLog I.Name I.replica)
    (hls : d.ls path = .ok entries) (he : e ∈ entries) : SafeName e.name := by
  obtain ⟨p, hp, hl⟩ := mem_ls hls he
  rcases h.named_of_lists hlog (h.ne_limbo_of_resolve hlog hp) hl with
    hname | ⟨name, ts, hname, hts, heq⟩
  · exact hI.name _ hname
  · rw [heq]
    exact hI.conflict name ts hname hts

/-- A run lets in what may come in. -/
theorem Inflow.Harmless.namedLog (hI : I.Harmless) {name : String} {replica : ReplicaId}
    {es : List Event} (hreplica : I.replica replica)
    (hes : ∀ op, .remoteMove op ∈ es → I.Carries op)
    (hrun : (init name replica).performAll es = some d) : d.NamedLog I.Name I.replica := by
  refine namedLog_performAll (fun _ => Or.inl) hreplica (fun e he => ?_) hrun
  cases e with
  | remoteMove op =>
    have hop := hes op he
    exact ⟨fun hchild => hI.limbo (hop.limbo hchild), hop.replica, hop.name⟩
  | exec | remoteContent | compact => trivial

/-! ## Runs that leave the target -/

section Pair

open DriveTree

variable {b : ReplicaId} {x y p : NodeId} {r₁ r₂ : String} {k₁ : NodeKind}

/-- Two moves are received, and both nodes get content. -/
def pairRun (b : ReplicaId) (x y p : NodeId) (r₁ r₂ : String) (k₁ : NodeKind) : List Event :=
  [.remoteMove ⟨⟨1, b⟩, x, ROOT, r₁, k₁⟩, .remoteMove ⟨⟨2, b⟩, y, p, r₂, .file⟩,
    .exec 0 (.setContent x (.new "" 0 0 100)), .exec 0 (.setContent y (.new "" 0 0 100))]

/-- A saved node has content. -/
theorem isSome_apply_setOp {m : ContentMap} {n z : NodeId} {content : FileContent}
    (h : z = n ∨ m[n]?.isSome = true) : (m.apply (setOp z content))[n]?.isSome = true := by
  rw [ContentMap.getElem?_apply]
  split_ifs with hn
  · cases hold : m[n]? <;> rfl
  · exact h.resolve_left hn

theorem performAll_pairRun (b : ReplicaId) (x y p : NodeId) (r₁ r₂ : String) (k₁ : NodeKind) :
    ∃ d, (init "d" b).performAll (pairRun b x y p r₁ r₂ k₁) = some d ∧
      d.tree = pairTree b x y p r₁ r₂ k₁ .file ∧
      d.content[x]?.isSome = true ∧ d.content[y]?.isSome = true := by
  refine ⟨_, rfl, rfl, ?_, ?_⟩
  · exact isSome_apply_setOp (Or.inr (isSome_apply_setOp (Or.inl rfl)))
  · exact isSome_apply_setOp (Or.inl rfl)

/-- The listing of a directory that a path leads to. -/
theorem ls_of_resolve {n : NodeId} (hr : d.tree.resolve path = some n)
    (hdir : n = ROOT ∨ (d.tree.edge n).map Edge.kind = some .dir) :
    d.ls path = .ok ((d.tree.readdir n).map fun entry =>
      ⟨entry.1, entry.2.2 = .dir, d.content[entry.2.1]?, entry.2.1⟩) := by
  have hls : d.resolveDir path = .ok n := by
    unfold resolveDir
    rw [hr]
    exact if_neg fun h => hdir.elim h.1 h.2
  rw [ls, hls]

/-- Where a path leads to a directory of files, those with content are written. -/
theorem write_mem_of_lists {k : ℕ} {out : OsPath} {w : Walk} {n c : NodeId} {r : String}
    (hr : d.tree.resolve path = some n)
    (hdir : n = ROOT ∨ (d.tree.edge n).map Edge.kind = some .dir)
    (hfiles : ∀ s m, d.tree.Called n s m → d.tree.kindOf m = .file) (hl : d.tree.Lists n r c)
    (hcontent : d.content[c]?.isSome = true) :
    .write (out.join r) [] ∈ (d.materializeDir freeHost (k + 1) path out w).2.calls := by
  obtain ⟨kind, hmem⟩ := hl
  refine write_mem_materializeDir (e := ⟨r, kind = .dir, d.content[c]?, c⟩) (ls_of_resolve hr hdir)
    (fun e he => ?_) (List.mem_map_of_mem hmem) hcontent
  obtain ⟨entry, hentry, rfl⟩ := List.mem_map.1 he
  obtain ⟨s, hs, hkind, -⟩ := shown_of_mem_readdir hentry
  simp [hkind, hfiles s _ hs]

theorem calls_materialize_free (d : Drive) (k : ℕ) (out : OsPath) :
    (d.materialize freeHost k out).2.calls =
      (d.materializeDir freeHost k "/" out ⟨⟨0, 0, 0⟩, [.createDirAll out]⟩).2.calls := by
  have hworks : freeHost.works [] (.createDirAll out) = true := rfl
  simp only [materialize, hworks, if_true]

/-- Two received files of one name are written, one of them under its conflict name. -/
theorem write_pairRun {r : String}
    (hd : (init "d" b).performAll (pairRun b "n" "m" ROOT r r .file) = some d) (out : OsPath) :
    .write (out.join r) [] ∈ (d.materialize freeHost 1 out).2.calls ∧
      .write (out.join (conflictName r ⟨1, b⟩)) [] ∈ (d.materialize freeHost 1 out).2.calls := by
  obtain ⟨d', hd', htree, hn, hm⟩ := performAll_pairRun b "n" "m" ROOT r r .file
  obtain rfl := Option.some_injective _ (hd.symm.trans hd')
  have ht : d.tree.Replayed := htree ▸ replayed_applyAll _
  have hcalled : ∀ {q s c}, d.tree.Called q s c ↔
      c = "n" ∧ q = ROOT ∧ s = r ∨ c = "m" ∧ q = ROOT ∧ s = r := by
    rw [htree]
    exact called_pairTree (by decide) (by decide) (by decide) (Or.inl rfl) (by decide) (by decide)
  have hstamp : d.tree.definingTs "n" = ⟨1, b⟩ ∧ d.tree.definingTs "m" = ⟨2, b⟩ := by
    rw [htree]
    exact definingTs_pairTree (by decide)
  have hlt : d.tree.definingTs "n" < d.tree.definingTs "m" := by
    rw [hstamp.1, hstamp.2]
    exact Timestamp.lt_of_lamport_lt Nat.one_lt_two
  have hkind : ∀ s c, d.tree.Called ROOT s c → d.tree.kindOf c = .file := by
    intro s c hc
    obtain ⟨hkn, hkm⟩ : d.tree.kindOf "n" = .file ∧ d.tree.kindOf "m" = .file := by
      rw [htree]
      exact kindOf_pairTree (by decide) (by decide) (by decide) (Or.inl rfl)
    rcases hcalled.1 hc with ⟨rfl, -⟩ | ⟨rfl, -⟩
    · exact hkn
    · exact hkm
  have hroot : d.tree.resolve "/" = some ROOT := if_pos (by decide)
  have hlistm : d.tree.Lists ROOT r "m" := by
    refine ht.lists_iff.2 ⟨r, hcalled.2 (Or.inr ⟨rfl, rfl, rfl⟩), Or.inl ⟨fun c hc => ?_, rfl⟩⟩
    rcases hcalled.1 hc with ⟨rfl, -⟩ | ⟨rfl, -⟩
    · exact hlt.le
    · exact le_rfl
  have hlistn : d.tree.Lists ROOT (conflictName r ⟨1, b⟩) "n" :=
    ht.lists_iff.2 ⟨r, hcalled.2 (Or.inl ⟨rfl, rfl, rfl⟩),
      Or.inr ⟨⟨"m", hcalled.2 (Or.inr ⟨rfl, rfl, rfl⟩), hlt⟩, by rw [hstamp.1]⟩⟩
  rw [calls_materialize_free]
  exact ⟨write_mem_of_lists hroot (Or.inl rfl) hkind hlistm hm,
    write_mem_of_lists hroot (Or.inl rfl) hkind hlistn hn⟩

/-- What is in a moved limbo is written under its name. -/
theorem write_limboRun {r : String}
    (hd : (init "d" b).performAll (pairRun b LIMBO "x" LIMBO "l" r .dir) = some d) (out : OsPath) :
    .write ((out.join "l").join r) [] ∈ (d.materialize freeHost 2 out).2.calls := by
  obtain ⟨d', hd', htree, -, hx⟩ := performAll_pairRun b LIMBO "x" LIMBO "l" r .dir
  obtain rfl := Option.some_injective _ (hd.symm.trans hd')
  have ht : d.tree.Replayed := htree ▸ replayed_applyAll _
  have hcalled : ∀ {q s c}, d.tree.Called q s c ↔
      c = LIMBO ∧ q = ROOT ∧ s = "l" ∨ c = "x" ∧ q = LIMBO ∧ s = r := by
    rw [htree]
    exact called_pairTree (by decide) (by decide) (by decide) (Or.inr rfl) (by decide) (by decide)
  obtain ⟨hlimbo, hfile⟩ : d.tree.edges[LIMBO]? = some ⟨ROOT, "l", .dir⟩ ∧
      d.tree.edges["x"]? = some ⟨LIMBO, r, .file⟩ := by
    rw [htree]
    exact edge_pairTree (by decide) (by decide) (by decide) (Or.inr rfl)
  have halone : ∀ {q s c m}, d.tree.Called q s c → d.tree.Called q s m → m = c := by
    intro q s c m hc hm
    rcases hcalled.1 hc with ⟨rfl, rfl, -⟩ | ⟨rfl, rfl, -⟩ <;>
      rcases hcalled.1 hm with ⟨rfl, hq, -⟩ | ⟨rfl, hq, -⟩
    · rfl
    · exact absurd hq (by decide)
    · exact absurd hq (by decide)
    · rfl
  have hlists : ∀ {q s c}, d.tree.Lists q s c ↔ d.tree.Called q s c := by
    intro q s c
    rw [ht.lists_iff]
    constructor
    · rintro ⟨b', hc, ⟨-, rfl⟩ | ⟨⟨m, hm, hlt⟩, -⟩⟩
      · exact hc
      · exact absurd hlt (halone hc hm ▸ lt_irrefl _)
    · exact fun hc => ⟨s, hc, Or.inl ⟨fun m hm => halone hc hm ▸ le_rfl, rfl⟩⟩
  have hroot : d.tree.resolve "/" = some ROOT := if_pos (by decide)
  have hl : d.tree.resolve (joinPath "/" "l") = some LIMBO := by
    rw [resolve_joinPath _ _ ⟨by decide, by decide⟩, hroot]
    have hc : d.tree.Called ROOT "l" LIMBO := hcalled.2 (Or.inl ⟨rfl, rfl, rfl⟩)
    exact lookupChild_of_unique (hlists.2 hc) fun m hm => halone hc (hlists.1 hm)
  have hdir : (d.tree.edge LIMBO).map Edge.kind = some .dir := by rw [edge, hlimbo]; rfl
  have hfiles : ∀ s m, d.tree.Called LIMBO s m → d.tree.kindOf m = .file := by
    intro s m hm
    rcases hcalled.1 hm with ⟨-, hq, -⟩ | ⟨rfl, -⟩
    · exact absurd hq (by decide)
    · rw [kindOf, hfile]
      rfl
  have hwrite : ∀ w, .write ((out.join "l").join r) [] ∈
      (d.materializeDir freeHost 1 (joinPath "/" "l") (out.join "l") w).2.calls := fun w =>
    write_mem_of_lists hl (Or.inr hdir) hfiles
      (hlists.2 (hcalled.2 (Or.inr ⟨rfl, rfl, rfl⟩))) hx
  -- the limbo is the first entry of the root
  rw [calls_materialize_free, materializeDir, ls_of_resolve hroot (Or.inl rfl)]
  obtain ⟨kind, hmem⟩ := hlists.2 (hcalled.2 (Or.inl ⟨rfl, rfl, rfl⟩))
  cases hentries : d.tree.readdir ROOT with
  | nil => exact absurd (hentries ▸ hmem) List.not_mem_nil
  | cons entry rest =>
    obtain ⟨s, c, k⟩ := entry
    have hfirst : (s, c, k) ∈ d.tree.readdir ROOT := hentries ▸ List.mem_cons_self
    have hc : c = LIMBO ∧ s = "l" := by
      rcases hcalled.1 (hlists.1 ⟨k, hfirst⟩) with ⟨hc, -, hs⟩ | ⟨-, hq, -⟩
      · exact ⟨hc, hs⟩
      · exact absurd hq (by decide)
    obtain ⟨rfl, rfl⟩ := hc
    have hk : k = .dir := by
      obtain ⟨-, -, hk, -⟩ := shown_of_mem_readdir hfirst
      rw [hk, kindOf, hlimbo]
      rfl
    rw [List.map_cons]
    refine materializeEntries_cons_grows (grows_materializeDir d 1) ?_
    rw [materializeEntry_dir (by simp [hk])]
    exact hwrite _

/-- Whatever comes in with received moves, materializing stays inside its target in every state of
every run, for every target, store and disk, exactly if what comes in is harmless. -/
theorem materialize_inside_iff (I : Inflow) :
    (∀ (name : String) (replica : ReplicaId) (es : List Event) (d : Drive), I.replica replica →
      (∀ op, .remoteMove op ∈ es → I.Carries op) → (init name replica).performAll es = some d →
        ∀ (cwd : List String) (out : OsPath) (host : Host) (k : ℕ),
          ∀ c ∈ (d.materialize host k out).2.calls, c.Inside cwd out) ↔ I.Harmless := by
  constructor
  · intro h
    have hwrite : ∀ {b x y p r₁ r₂ k₁ d}, I.replica b → I.Carries ⟨⟨1, b⟩, x, ROOT, r₁, k₁⟩ →
        I.Carries ⟨⟨2, b⟩, y, p, r₂, .file⟩ →
        (init "d" b).performAll (pairRun b x y p r₁ r₂ k₁) = some d →
        ∀ (out : OsPath) (k : ℕ), ∀ c ∈ (d.materialize freeHost k out).2.calls,
          c.Inside [] out := by
      intro b x y p r₁ r₂ k₁ d hb h₁ h₂ hd out k
      refine h "d" b _ d hb (fun op hop => ?_) hd [] out freeHost k
      obtain rfl | rfl : op = _ ∨ op = _ := by simpa [pairRun] using hop
      · exact h₁
      · exact h₂
    have hsafe : ∀ {b r}, I.replica b → I.Name r →
        SafeName r ∧ SafeName (conflictName r ⟨1, b⟩) := by
      intro b r hb hr
      obtain ⟨d, hd, -⟩ := performAll_pairRun b "n" "m" ROOT r r .file
      have hn : ("n" : NodeId) ≠ LIMBO ∧ ("m" : NodeId) ≠ LIMBO := by decide
      have hcalls := hwrite hb ⟨Or.inr hr, hb, fun h => absurd h hn.1⟩
        ⟨Or.inr hr, hb, fun h => absurd h hn.2⟩ hd
      exact ⟨safeName_of_inside fun out => hcalls out 1 _ (write_pairRun hd out).1,
        safeName_of_inside fun out => hcalls out 1 _ (write_pairRun hd out).2⟩
    obtain ⟨b, hb⟩ := I.own
    refine ⟨fun hlimbo => ?_, fun r hr => (hsafe hb hr).1, fun r ts hr hts =>
      (hsafe hts hr).2.of_conflictName ts.lamport⟩
    obtain ⟨d, hd, -⟩ := performAll_pairRun b LIMBO "x" LIMBO "l" "../../x" .dir
    have hl : validateName "l" = .ok () := by decide
    have hx : ("x" : NodeId) ≠ LIMBO := by decide
    have hcalls := hwrite hb ⟨Or.inr (Or.inl hl), hb, fun _ => hlimbo⟩
      ⟨Or.inl rfl, hb, fun h => absurd h hx⟩ hd
    have houtside := hcalls ⟨true, ["o"]⟩ 2 _ (write_limboRun hd _)
    revert houtside
    unfold DiskCall.Inside
    decide
  · intro hI name replica es d hreplica hes hrun cwd out host k c hc
    have hinv := (inv_init name replica).performAll hrun
    have hlog := hI.namedLog hreplica hes hrun
    have hjoin : ∀ path entries, d.ls path = .ok entries → ∀ e ∈ entries, ∀ p,
        Under out p → Under out (p.join e.name) := fun _ _ hls _ he _ hp =>
      hp.join (hI.safeName hinv hlog hls he)
    exact DiskCall.inside_of_under cwd (materialize_calls hjoin (Under.refl out) hc)

end Pair

/-- A file is received whose name steps up. -/
def receivedUp : List Event :=
  [.remoteMove ⟨⟨1, "b"⟩, "n", ROOT, "../x", .file⟩,
    .remoteContent ⟨⟨2, "b"⟩, .set "n" "" 0 0 100⟩]

/-- It is written next to the target. -/
theorem materialize_outside :
    let d := ((init "d" "a").performAll receivedUp).get (by decide +kernel)
    d.Reachable ∧ (d.materialize freeHost 1 ⟨true, ["o"]⟩).2.calls =
      [.createDirAll ⟨true, ["o"]⟩, .write ⟨true, ["o", "..", "x"]⟩ []] ∧
      ¬(DiskCall.write ⟨true, ["o", "..", "x"]⟩ []).Inside [] ⟨true, ["o"]⟩ := by
  intro d
  exact ⟨⟨"d", "a", receivedUp, (Option.some_get _).symm⟩, by decide +kernel, by decide⟩

end Drive

end CeDrive
