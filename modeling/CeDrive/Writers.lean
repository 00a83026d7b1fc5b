import CeDrive.FreshIds
import CeDrive.Replicas

/-!
# Ids of several writers

Each writer of a drive runs in a process of its own, whose id counter starts at zero. It
creates directories and files, and receives the operations of the others. The id of a new
node is the tick and the counter, not the replica, so two writers that work offline mint the
same ids.

No two writers ever mint one id exactly if no writer creates a node at a tick and counter at
which another did (`ids_apart_iff`). Then all creations of a drive that has received
everything stand in its tree, as each is the only move of its node (`edges_of_creations`).
-/

open SortedLog Relation Forest

namespace CeDrive

/-! ## Ids -/

theorem length_leftpad_mono {w n m : ℕ} (h : n ≤ m) :
    ((Nat.toDigits 16 n).leftpad w '0').length ≤ ((Nat.toDigits 16 m).leftpad w '0').length := by
  have hm : 0 < (Nat.toDigits 16 m).length := Nat.length_toDigits_pos
  have hlt := (Nat.length_toDigits_le_iff (b := 16) (n := m) (by omega) hm).1 le_rfl
  have hle := (Nat.length_toDigits_le_iff (b := 16) (n := n) (by omega) hm).2 (h.trans_lt hlt)
  rw [List.length_leftpad, List.length_leftpad]
  omega

/-- Along one counter an id is minted once, however wide its parts. -/
theorem freshNodeId_injective_of_le {l l' c c' : ℕ} (hl : l ≤ l') (hc : c ≤ c')
    (h : (freshNodeId l c).1 = (freshNodeId l' c').1) : l = l' ∧ c = c' := by
  have hlist := congrArg String.toList h
  rw [toList_freshNodeId, toList_freshNodeId] at hlist
  have hlen := congrArg List.length hlist
  rw [List.length_append, List.length_append] at hlen
  have h₁ := length_leftpad_mono (w := 12) hl
  have h₂ := length_leftpad_mono (w := 8) hc
  obtain ⟨htick, hctr⟩ := List.append_inj hlist (by omega)
  exact ⟨Digits.leftpad_toDigits_injective (by omega) le_rfl 12 htick,
    Digits.leftpad_toDigits_injective (by omega) le_rfl 8 hctr⟩

/-- An id determines its tick and counter, if the tick fits its field. -/
theorem freshNodeId_injective_of_lt {l l' c c' : ℕ} (hl : l < 16 ^ 12) (hl' : l' < 16 ^ 12)
    (h : (freshNodeId l c).1 = (freshNodeId l' c').1) : l = l' ∧ c = c' := by
  obtain rfl := tick_injective hl hl' h
  rcases le_total c c' with hc | hc
  · exact freshNodeId_injective_of_le le_rfl hc h
  · exact ⟨rfl, (freshNodeId_injective_of_le le_rfl hc h.symm).2.symm⟩

/-- An id of a later tick is another one, if the counter of the earlier fits its field. -/
theorem freshNodeId_ne_of_lt {l l' c c' : ℕ} (hl : l < l') (hc : c < 16 ^ 8) :
    (freshNodeId l' c').1 ≠ (freshNodeId l c).1 := by
  intro h
  have hlist := congrArg String.toList h
  rw [toList_freshNodeId, toList_freshNodeId] at hlist
  have hlen := congrArg List.length hlist
  have hfield := Digits.length_leftpad_toDigits (b := 16) (w := 8) (by omega) (by omega) hc
  have hle := length_leftpad_mono (w := 12) hl.le
  have hle' : 8 ≤ ((Nat.toDigits 16 c').leftpad 8 '0').length := by
    rw [List.length_leftpad]
    omega
  rw [List.length_append, List.length_append] at hlen
  have htick := (List.append_inj hlist (by omega)).1
  exact hl.ne' (Digits.leftpad_toDigits_injective (by omega) le_rfl 12 htick)

namespace DriveTree

variable {n : NodeId} {e : Edge}

/-! ## Logs of creations -/

/-- Moves in ascending order, one for each node, each into the root or into a node moved
before it, are all performed. -/
theorem edges_of_creations {ops : List MoveOp} (hasc : Ascending MoveOp.ts ops)
    (hchild : ops.Pairwise fun a b => a.child ≠ b.child) (hroot : ∀ op ∈ ops, op.child ≠ ROOT)
    (hparent : ∀ op ∈ ops, op.newParent = ROOT ∨
      ∃ p ∈ ops, p.child = op.newParent ∧ p.ts < op.ts) :
    (ops.foldl doPush new).edges[n]? = some e ↔ ∃ op ∈ ops, op.child = n ∧ op.edge = e := by
  induction ops using List.reverseRecOn generalizing n e with
  | nil => simp [new]
  | append_singleton ops op ih =>
    obtain ⟨hasc, -, hlast⟩ := List.pairwise_append.1 hasc
    obtain ⟨hchild, -, hfresh⟩ := List.pairwise_append.1 hchild
    have hlast : ∀ o ∈ ops, o.ts < op.ts := fun o ho => hlast o ho op (List.mem_singleton_self op)
    have hfresh : ∀ o ∈ ops, o.child ≠ op.child := fun o ho =>
      hfresh o ho op (List.mem_singleton_self op)
    -- what is before an operation of the list is in the list, so it is not `op`
    have hbefore : ∀ p ∈ ops ++ [op], p.ts < op.ts → p ∈ ops := by
      intro p hp hlt
      rcases List.mem_append.1 hp with hp | hp
      · exact hp
      · exact absurd hlt (List.mem_singleton.1 hp ▸ lt_irrefl _)
    have hsub : ∀ o ∈ ops, o ∈ ops ++ [op] := fun o ho => List.mem_append_left _ ho
    have hop : op ∈ ops ++ [op] := List.mem_append_right _ (List.mem_singleton_self op)
    have hparents : ∀ o ∈ ops, o.newParent = ROOT ∨
        ∃ p ∈ ops, p.child = o.newParent ∧ p.ts < o.ts := by
      intro o ho
      rcases hparent o (hsub o ho) with htop | ⟨p, hp, hc, hlt⟩
      · exact Or.inl htop
      · exact Or.inr ⟨p, hbefore p hp (hlt.trans (hlast o ho)), hc, hlt⟩
    have ih := fun {n e} => ih (n := n) (e := e) hasc hchild (fun o ho => hroot o (hsub o ho)) hparents
    have hkeep : ¬Reaches (ops.foldl doPush new).parentOf op.newParent op.child := by
      intro hr
      rcases ReflTransGen.cases_tail hr with heq | ⟨y, -, hy⟩
      · rcases hparent op hop with hp | ⟨p, hp, hc, hlt⟩
        · exact hroot op hop (heq.trans hp)
        · exact hfresh p (hbefore p hp hlt) (hc.trans heq.symm)
      · obtain ⟨e, he, hparent_eq⟩ := parentOf_eq_some.1 hy
        obtain ⟨o, ho, -, rfl⟩ := ih.1 he
        rcases hparent o (hsub o ho) with hp | ⟨p, hp, hc, hlt⟩
        · exact hroot op hop (hparent_eq.symm.trans hp)
        · exact hfresh p (hbefore p hp (hlt.trans (hlast o ho))) (hc.trans hparent_eq)
    have hg : (ops.foldl doPush new).Grounded :=
      (grounded_new.run ops).congr (foldl_doPush new ops).2.1.symm
    rw [List.foldl_append, List.foldl_cons, List.foldl_nil]
    classical
    rw [hg.edges_doPush, if_neg hkeep, Std.ExtTreeMap.getElem?_insert]
    by_cases hn : op.child = n
    · subst hn
      rw [if_pos Std.ReflCmp.compare_self, Option.some_inj]
      constructor
      · rintro rfl
        exact ⟨op, hop, rfl, rfl⟩
      · rintro ⟨o, ho, hc, rfl⟩
        rcases List.mem_append.1 ho with ho | ho
        · exact absurd hc (hfresh o ho)
        · rw [List.mem_singleton.1 ho]
    · rw [if_neg (mt Std.LawfulEqCmp.compare_eq_iff_eq.1 hn), ih]
      simp [or_and_right, exists_or, hn]

end DriveTree

/-! ## Creations -/

/-- A local operation that may create a node. -/
inductive Create
  | mkdir (parentPath name : String)
  | addFile (parentPath name : String) (content : FileContent)

def Create.op : Create → LocalOp
  | mkdir parentPath name => .mkdir parentPath name
  | addFile parentPath name content => .addFile parentPath name content

/-- A node's creation, with the counter that went into its id. -/
structure Creation where
  op : MoveOp
  ctr : ℕ
  deriving DecidableEq

/-- The creations print one id : they share tick and counter, or a tick has outgrown its
field and the digits of tick and counter run together. -/
def Creation.Clashes (m m' : Creation) : Prop :=
  m.op.ts.lamport = m'.op.ts.lamport ∧ m.ctr = m'.ctr ∨
    16 ^ 12 ≤ max m.op.ts.lamport m'.op.ts.lamport ∧
      (freshNodeId m.op.ts.lamport m.ctr).1 = (freshNodeId m'.op.ts.lamport m'.ctr).1

instance (m m' : Creation) : Decidable (m.Clashes m') :=
  inferInstanceAs (Decidable (_ ∧ _ ∨ _ ∧ _))

theorem Creation.clashes_iff {m m' : Creation} : m.Clashes m' ↔
    (freshNodeId m.op.ts.lamport m.ctr).1 = (freshNodeId m'.op.ts.lamport m'.ctr).1 := by
  constructor
  · rintro (⟨hl, hc⟩ | ⟨-, h⟩)
    · rw [hl, hc]
    · exact h
  · intro h
    by_cases hwide : 16 ^ 12 ≤ max m.op.ts.lamport m'.op.ts.lamport
    · exact Or.inr ⟨hwide, h⟩
    · exact Or.inl (freshNodeId_injective_of_lt (by omega) (by omega) h)

namespace Drive

variable {d d' : Drive} {ctr ctr' : ℕ} {c : Create} {m : Creation}

/-- The creation that an operation performs, if it passes its checks and its name is free. -/
def creation (d : Drive) (ctr : ℕ) : Create → Option Creation
  | .mkdir parentPath name =>
    match d.mkdirCheck parentPath name with
    | .ok parent => some ⟨⟨d.nextTs, d.nextId ctr, parent, name, .dir⟩, ctr⟩
    | .error _ => none
  | .addFile parentPath name _ =>
    match d.addFileCheck parentPath name with
    | .ok (parent, none) => some ⟨⟨d.nextTs, d.nextId ctr, parent, name, .file⟩, ctr⟩
    | _ => none

theorem lamport_lt_of_tick {t : Timestamp × Drive} (h : d.tick = some t) :
    d.state.lamport + 1 < 2 ^ 64 := by
  obtain ⟨l, hl, -⟩ := Option.bind_eq_some_iff.1 h
  unfold checkedSucc at hl
  split_ifs at hl with hlt
  exact hlt

/-- The parent of a creation is the root or has an edge. -/
theorem Inv.edge_of_resolveDir (h : d.Inv) {path : String} {n : NodeId}
    (hr : d.resolveDir path = .ok n) : n = ROOT ∨ ∃ e, d.tree.edges[n]? = some e :=
  h.replayed.mirror.edge_of_resolve (resolveDir_eq_ok hr).1

/-- The data of a creation. -/
theorem Inv.creation_eq_some (h : d.Inv) (hm : d.creation ctr c = some m) :
    m.op.ts = d.nextTs ∧ m.op.child = d.nextId ctr ∧ m.ctr = ctr ∧
      (m.op.newParent = ROOT ∨ ∃ e, d.tree.edges[m.op.newParent]? = some e) := by
  cases c with
  | mkdir parentPath name =>
    simp only [creation] at hm
    split at hm
    · rename_i parent hc
      obtain rfl := Option.some_injective _ hm
      exact ⟨rfl, rfl, rfl, h.edge_of_resolveDir (resolveDir_of_mkdirCheck hc)⟩
    · cases hm
  | addFile parentPath name content =>
    simp only [creation] at hm
    split at hm
    · rename_i parent hc
      obtain rfl := Option.some_injective _ hm
      exact ⟨rfl, rfl, rfl, h.edge_of_resolveDir (resolveDir_of_addFileCheck hc)⟩
    · cases hm

/-- A creating operation logs its creation and advances the counter, any other logs no move
and leaves the counter. -/
theorem exec_create (he : d.exec ctr c.op = some (d', ctr')) :
    (d.creation ctr c = none ∧ d'.state.moveLog = d.state.moveLog ∧ ctr' = ctr ∧
      d.state.lamport ≤ d'.state.lamport) ∨
    ∃ m, d.creation ctr c = some m ∧ d'.state.moveLog = d.state.moveLog ++ [m.op] ∧
      ctr' = (ctr + 1) % 2 ^ 64 ∧ d.state.lamport + 1 < 2 ^ 64 ∧
      d.state.lamport < d'.state.lamport := by
  cases c with
  | mkdir parentPath name =>
    obtain ⟨r, hr, heq⟩ := Option.map_eq_some_iff.1 he
    obtain ⟨e, hc, rfl⟩ | ⟨parent, hc, rfl⟩ := mkdir_eq_some hr
    · obtain ⟨rfl, rfl⟩ := Prod.mk.inj heq
      exact Or.inl ⟨by simp [creation, hc], rfl, rfl, le_rfl⟩
    · obtain ⟨rfl, rfl⟩ := Prod.mk.inj heq
      refine Or.inr ⟨⟨⟨d.nextTs, d.nextId ctr, parent, name, .dir⟩, ctr⟩, by simp [creation, hc],
        rfl, rfl, ?_, Nat.lt_succ_self _⟩
      rw [mkdir, hc] at hr
      obtain ⟨t, ht, -⟩ := Option.bind_eq_some_iff.1 hr
      exact lamport_lt_of_tick ht
  | addFile parentPath name content =>
    obtain ⟨r, hr, heq⟩ := Option.map_eq_some_iff.1 he
    obtain ⟨e, hc, rfl⟩ | ⟨parent, existing, hc, rfl⟩ | ⟨parent, hc, rfl⟩ := addFile_eq_some hr
    · obtain ⟨rfl, rfl⟩ := Prod.mk.inj heq
      exact Or.inl ⟨by simp [creation, hc], rfl, rfl, le_rfl⟩
    · obtain ⟨rfl, rfl⟩ := Prod.mk.inj heq
      exact Or.inl ⟨by simp [creation, hc], rfl, rfl, Nat.le_succ _⟩
    · obtain ⟨rfl, rfl⟩ := Prod.mk.inj heq
      refine Or.inr ⟨⟨⟨d.nextTs, d.nextId ctr, parent, name, .file⟩, ctr⟩, by simp [creation, hc],
        rfl, rfl, ?_, Nat.lt_succ_of_lt (Nat.lt_succ_self _)⟩
      rw [addFile, hc] at hr
      obtain ⟨t, ht, -⟩ := Option.bind_eq_some_iff.1 hr
      exact lamport_lt_of_tick ht

end Drive

/-! ## Runs of several writers -/

/-- A net of drives, the id counter of each process, and the nodes each created. -/
structure Writers (ι : Type*) where
  drives : Net ι
  ctr : ι → ℕ
  made : ι → List Creation

/-- A creation at one writer, or a delivery of what stands in the log of `src`. -/
inductive WriterEvent (ι : Type*)
  | create (i : ι) (c : Create)
  | deliverMove (src : ι) (k : ℕ) (dst : ι)
  | deliverContent (src : ι) (k : ℕ) (dst : ι)

namespace Writers

variable {ι : Type*} {σ σ' : Writers ι} {name : ι → ReplicaId} {i j k : ι}

def start (drive : String) (name : ι → ReplicaId) : Writers ι :=
  ⟨Net.init drive name, fun _ => 0, fun _ => []⟩

/-- No id was minted by two writers. -/
def IdsApart (σ : Writers ι) : Prop :=
  ∀ i j, i ≠ j → ∀ m ∈ σ.made i, ∀ m' ∈ σ.made j, m.op.child ≠ m'.op.child

/-- Every writer has the moves of every other. -/
def Exchanged (σ : Writers ι) : Prop :=
  ∀ i j, ∀ op ∈ (σ.drives i).state.moveLog, op ∈ (σ.drives j).state.moveLog

/-- Every node created is live at every writer, where it was created, and no other creation
has its id. -/
def AllPresent (σ : Writers ι) : Prop :=
  ∀ k i, ∀ m ∈ σ.made i,
    (σ.drives k).tree.edges[m.op.child]? = some m.op.edge ∧
      (σ.drives k).tree.isLive m.op.child = true ∧
      ∀ j, ∀ m' ∈ σ.made j, m'.op.child = m.op.child → m' = m

/-! ## What the logs hold -/

/-- Creations bear the id of their tick and counter, which ascend at each writer; the logs
hold creations only, each of a node whose parent was created before. -/
structure Inv (name : ι → ReplicaId) (σ : Writers ι) : Prop where
  synced : Net.Synced name σ.drives
  ctr_le : ∀ i, σ.ctr i ≤ (σ.drives i).state.lamport
  child : ∀ i, ∀ m ∈ σ.made i, m.op.child = (freshNodeId m.op.ts.lamport m.ctr).1
  lamport_le : ∀ i, ∀ m ∈ σ.made i, m.op.ts.lamport ≤ (σ.drives i).state.lamport
  ctr_lt : ∀ i, ∀ m ∈ σ.made i, m.ctr < σ.ctr i
  ascending : ∀ i, (σ.made i).Pairwise fun a b => a.op.ts.lamport < b.op.ts.lamport ∧ a.ctr < b.ctr
  logged : ∀ i, ∀ m ∈ σ.made i, m.op ∈ (σ.drives i).state.moveLog
  created : ∀ k, ∀ op ∈ (σ.drives k).state.moveLog, ∃ i, ∃ m ∈ σ.made i, m.op = op
  parent : ∀ i, ∀ m ∈ σ.made i, m.op.newParent = ROOT ∨
    ∃ j, ∃ p ∈ σ.made j, p.op.child = m.op.newParent ∧ p.op.ts < m.op.ts

theorem inv_start (drive : String) (name : ι → ReplicaId) : (start drive name).Inv name where
  synced := Net.synced_init drive name
  ctr_le _ := le_rfl
  child _ _ hm := absurd hm List.not_mem_nil
  lamport_le _ _ hm := absurd hm List.not_mem_nil
  ctr_lt _ _ hm := absurd hm List.not_mem_nil
  ascending _ := List.Pairwise.nil
  logged _ _ hm := absurd hm List.not_mem_nil
  created _ _ hop := absurd hop List.not_mem_nil
  parent _ _ hm := absurd hm List.not_mem_nil

/-- Creations of one writer have distinct ids. -/
theorem Inv.eq_of_child_self (h : σ.Inv name) {m m' : Creation} (hm : m ∈ σ.made i)
    (hm' : m' ∈ σ.made i) (heq : m.op.child = m'.op.child) : m = m' := by
  have hne : (σ.made i).Pairwise fun a b => a.op.child ≠ b.op.child :=
    (h.ascending i).imp_of_mem fun {a b} ha hb hab heq => by
      rw [h.child i a ha, h.child i b hb] at heq
      exact hab.1.ne (freshNodeId_injective_of_le hab.1.le hab.2.le heq).1
  exact List.inj_on_of_nodup_map (List.pairwise_map.2 hne) hm hm' heq

theorem Inv.eq_of_child (h : σ.Inv name) (hids : σ.IdsApart) {m m' : Creation}
    (hm : m ∈ σ.made i) (hm' : m' ∈ σ.made j) (heq : m.op.child = m'.op.child) : m = m' := by
  by_cases hij : i = j
  · subst hij
    exact h.eq_of_child_self hm hm' heq
  · exact absurd heq (hids i j hij m hm m' hm')

theorem Inv.child_ne (h : σ.Inv name) {m : Creation} (hm : m ∈ σ.made i) {s : NodeId}
    (hs : s.toList.length < 20) : m.op.child ≠ s :=
  h.child i m hm ▸ freshNodeId_ne hs _ _

/-- The tree's log holds the moves of the drive. -/
theorem Inv.mem_logOps (h : σ.Inv name) {op : MoveOp} :
    op ∈ (σ.drives k).tree.logOps ↔ op ∈ (σ.drives k).state.moveLog := by
  rw [(h.synced.inv k).tree]
  exact DriveTree.mem_logOps_applyAll (fun a ha b hb heq =>
    h.synced.moves.unique k k a ha b hb (congrArg _ heq) (congrArg _ heq)) op

/-- When all is exchanged and ids are apart, every creation is performed. -/
theorem Inv.edges_iff (h : σ.Inv name) (hids : σ.IdsApart) (hex : σ.Exchanged) {n : NodeId}
    {e : Edge} : (σ.drives k).tree.edges[n]? = some e ↔
      ∃ op ∈ (σ.drives k).tree.logOps, op.child = n ∧ op.edge = e := by
  have hreplayed := (h.synced.inv k).replayed
  have hmade : ∀ op ∈ (σ.drives k).tree.logOps, ∃ i, ∃ m ∈ σ.made i, m.op = op := fun op hop =>
    h.created k op (h.mem_logOps.1 hop)
  rw [hreplayed.alike_foldl_doPush.view.1]
  refine DriveTree.edges_of_creations hreplayed.ascending ?_ (fun op hop => ?_) fun op hop => ?_
  · refine List.Pairwise.imp_of_mem (fun {a b} ha hb hab heq => ?_) hreplayed.ascending
    obtain ⟨i, m, hm, rfl⟩ := hmade a ha
    obtain ⟨j, m', hm', rfl⟩ := hmade b hb
    rw [h.eq_of_child hids hm hm' heq] at hab
    exact lt_irrefl _ hab
  · obtain ⟨i, m, hm, rfl⟩ := hmade op hop
    exact h.child_ne hm (by decide)
  · obtain ⟨i, m, hm, rfl⟩ := hmade op hop
    refine (h.parent i m hm).imp_right ?_
    rintro ⟨j, p, hp, hc, hlt⟩
    exact ⟨p.op, h.mem_logOps.2 (hex j k p.op (h.logged j p hp)), hc, hlt⟩

/-- No node is below the trash or limbo. -/
theorem Inv.not_isAncestor (h : σ.Inv name) (hids : σ.IdsApart) (hex : σ.Exchanged) {s : NodeId}
    (hs : s.toList.length < 20) (hroot : s ≠ ROOT) {m : Creation} (hm : m ∈ σ.made i) :
    (σ.drives k).tree.isAncestor s m.op.child = false := by
  rw [← Bool.not_eq_true, (h.synced.inv k).replayed.grounded.isAncestor_iff]
  intro hr
  rcases ReflTransGen.cases_tail hr with heq | ⟨y, -, hy⟩
  · exact h.child_ne hm hs heq.symm
  · obtain ⟨e, he, hparent⟩ := DriveTree.parentOf_eq_some.1 hy
    obtain ⟨op, hop, -, rfl⟩ := (h.edges_iff hids hex).1 he
    obtain ⟨j, m', hm', rfl⟩ := h.created k op (h.mem_logOps.1 hop)
    rcases h.parent j m' hm' with hp | ⟨l, p, hp, hc, -⟩
    · exact hroot (hparent.symm.trans hp)
    · exact h.child_ne hp hs (hc.trans hparent)

theorem Inv.allPresent (h : σ.Inv name) (hids : σ.IdsApart) (hex : σ.Exchanged) :
    σ.AllPresent := by
  intro k i m hm
  have hedge : (σ.drives k).tree.edges[m.op.child]? = some m.op.edge :=
    (h.edges_iff hids hex).2 ⟨m.op, h.mem_logOps.2 (hex i k m.op (h.logged i m hm)), rfl, rfl⟩
  refine ⟨hedge, ?_, fun j m' hm' heq => h.eq_of_child hids hm' hm heq⟩
  rw [DriveTree.isLive, hedge]
  simp [h.not_isAncestor hids hex (s := TRASH) (by decide) (by decide) hm,
    h.not_isAncestor hids hex (s := LIMBO) (by decide) (by decide) hm]

/-! ## Runs -/

variable [DecidableEq ι] {e : WriterEvent ι} {es : List (WriterEvent ι)}

def perform (σ : Writers ι) : WriterEvent ι → Option (Writers ι)
  | .create i c => ((σ.drives i).exec (σ.ctr i) c.op).map fun r =>
    { drives := Function.update σ.drives i r.1
      ctr := Function.update σ.ctr i r.2
      made := Function.update σ.made i
        (σ.made i ++ ((σ.drives i).creation (σ.ctr i) c).toList) }
  | .deliverMove src k dst =>
    (σ.drives.perform (.deliverMove src k dst)).map fun drives => { σ with drives := drives }
  | .deliverContent src k dst =>
    (σ.drives.perform (.deliverContent src k dst)).map fun drives => { σ with drives := drives }

def performAll (σ : Writers ι) (es : List (WriterEvent ι)) : Option (Writers ι) :=
  es.foldlM perform σ

omit [DecidableEq ι] in
/-- A creation shares its tick and counter with none of another writer, nor the digits they
run together to where a tick has outgrown its field. -/
def MintsApart (σ : Writers ι) : WriterEvent ι → Prop
  | .create i c => ∀ m ∈ (σ.drives i).creation (σ.ctr i) c, ∀ j, j ≠ i → ∀ m' ∈ σ.made j,
    ¬m.Clashes m'
  | .deliverMove .. => True
  | .deliverContent .. => True

instance [Fintype ι] : Decidable (σ.MintsApart e) :=
  match e with
  | .create i c => inferInstanceAs (Decidable (∀ m ∈ (σ.drives i).creation (σ.ctr i) c, _))
  | .deliverMove .. => inferInstanceAs (Decidable True)
  | .deliverContent .. => inferInstanceAs (Decidable True)

/-- Every step of the run from `σ` meets the condition. -/
def RunMintsApart : Writers ι → List (WriterEvent ι) → Prop
  | _, [] => True
  | σ, e :: es => σ.MintsApart e ∧ ∀ σ', σ.perform e = some σ' → RunMintsApart σ' es

/-- The clock of writer `i` advances, and its log grows by what is known to someone. -/
theorem Inv.share (h : σ.Inv name) {d : Drive}
    (hs : Net.Synced name (Function.update σ.drives i d))
    (hclock : (σ.drives i).state.lamport ≤ d.state.lamport)
    (hkeep : ∀ op ∈ (σ.drives i).state.moveLog, op ∈ d.state.moveLog)
    (hknown : ∀ op ∈ d.state.moveLog, ∃ j, op ∈ (σ.drives j).state.moveLog) :
    Inv name { σ with drives := Function.update σ.drives i d } := by
  have hnow : ∀ k, (σ.drives k).state.lamport ≤ (Function.update σ.drives i d k).state.lamport :=
    Net.forall_update (P := fun k x => (σ.drives k).state.lamport ≤ x.state.lamport) hclock
      fun _ => le_rfl
  refine ⟨hs, fun k => (h.ctr_le k).trans (hnow k), h.child,
    fun k m hm => (h.lamport_le k m hm).trans (hnow k), h.ctr_lt, h.ascending, fun k m hm => ?_,
    fun k op hop => ?_, h.parent⟩
  · by_cases hk : k = i
    · subst hk
      simpa using hkeep m.op (h.logged k m hm)
    · simpa [hk] using h.logged k m hm
  · obtain ⟨j, hj⟩ := Net.forall_log_update (fun d => d.state.moveLog) hknown
      (fun k op hop => ⟨k, hop⟩) k op hop
    exact h.created j op hj

theorem mem_update_append {α : Type*} {made : ι → List α} {x y : α} :
    y ∈ Function.update made i (made i ++ [x]) k ↔ y ∈ made k ∨ k = i ∧ y = x := by
  by_cases hk : k = i
  · subst hk
    simp
  · simp [hk]

/-- Writer `i` creates a node. -/
theorem Inv.make (h : σ.Inv name) {d : Drive} {m : Creation}
    (hs : Net.Synced name (Function.update σ.drives i d))
    (hts : m.op.ts = (σ.drives i).nextTs) (hchild : m.op.child = (σ.drives i).nextId (σ.ctr i))
    (hctr : m.ctr = σ.ctr i) (hclock : (σ.drives i).state.lamport < d.state.lamport)
    (hlog : d.state.moveLog = (σ.drives i).state.moveLog ++ [m.op])
    (hparent : m.op.newParent = ROOT ∨ ∃ e, (σ.drives i).tree.edges[m.op.newParent]? = some e) :
    Inv name ⟨Function.update σ.drives i d, Function.update σ.ctr i (σ.ctr i + 1),
      Function.update σ.made i (σ.made i ++ [m])⟩ := by
  have htick : m.op.ts.lamport = (σ.drives i).state.lamport + 1 := congrArg Timestamp.lamport hts
  have hnow : ∀ k, (σ.drives k).state.lamport ≤ (Function.update σ.drives i d k).state.lamport := by
    intro k
    by_cases hk : k = i
    · subst hk
      simpa using hclock.le
    · simp [hk]
  have hmoves : ∀ k op, op ∈ (Function.update σ.drives i d k).state.moveLog ↔
      op ∈ (σ.drives k).state.moveLog ∨ k = i ∧ op = m.op := by
    intro k op
    by_cases hk : k = i
    · subst hk
      simp [hlog]
    · simp [hk]
  refine ⟨hs, fun k => ?_, fun k m' hm' => ?_, fun k m' hm' => ?_, fun k m' hm' => ?_, fun k => ?_,
    fun k m' hm' => ?_, fun k op hop => ?_, fun k m' hm' => ?_⟩
  · by_cases hk : k = i
    · subst hk
      have hle := h.ctr_le k
      simp only [Function.update_self]
      omega
    · simpa [hk] using h.ctr_le k
  · rcases mem_update_append.1 hm' with hm' | ⟨rfl, rfl⟩
    · exact h.child k m' hm'
    · rw [hchild, Drive.nextId, htick, hctr]
  · rcases mem_update_append.1 hm' with hm' | ⟨rfl, rfl⟩
    · exact (h.lamport_le k m' hm').trans (hnow k)
    · simpa [htick] using Nat.succ_le_of_lt hclock
  · rcases mem_update_append.1 hm' with hm' | ⟨rfl, rfl⟩
    · have hlt := h.ctr_lt k m' hm'
      by_cases hk : k = i
      · subst hk
        simpa using Nat.lt_succ_of_lt hlt
      · simpa [hk] using hlt
    · simp [hctr]
  · by_cases hk : k = i
    · subst hk
      simp only [Function.update_self]
      refine List.pairwise_append.2 ⟨h.ascending k, List.pairwise_singleton _ _, fun a ha b hb => ?_⟩
      rw [List.mem_singleton.1 hb, htick, hctr]
      exact ⟨Nat.lt_succ_of_le (h.lamport_le k a ha), h.ctr_lt k a ha⟩
    · simpa [hk] using h.ascending k
  · refine (hmoves k m'.op).2 ?_
    rcases mem_update_append.1 hm' with hm' | ⟨rfl, rfl⟩
    · exact Or.inl (h.logged k m' hm')
    · exact Or.inr ⟨rfl, rfl⟩
  · rcases (hmoves k op).1 hop with hop | ⟨rfl, rfl⟩
    · obtain ⟨j, p, hp, heq⟩ := h.created k op hop
      exact ⟨j, p, mem_update_append.2 (Or.inl hp), heq⟩
    · exact ⟨k, m, mem_update_append.2 (Or.inr ⟨rfl, rfl⟩), rfl⟩
  · rcases mem_update_append.1 hm' with hm' | ⟨rfl, rfl⟩
    · refine (h.parent k m' hm').imp_right ?_
      rintro ⟨j, p, hp, hc, hlt⟩
      exact ⟨j, p, mem_update_append.2 (Or.inl hp), hc, hlt⟩
    · refine hparent.imp_right ?_
      rintro ⟨e, he⟩
      obtain ⟨op, hop, hc, -⟩ := (h.synced.inv k).replayed.exists_op_of_edge he
      have hop := h.mem_logOps.1 hop
      obtain ⟨j, p, hp, rfl⟩ := h.created k op hop
      refine ⟨j, p, mem_update_append.2 (Or.inl hp), hc, Timestamp.lt_of_lamport_lt ?_⟩
      rw [htick]
      exact Nat.lt_succ_of_le ((h.synced.inv k).move_le p.op hop)

theorem Inv.create (hname : Function.Injective name) (h : σ.Inv name) {c : Create}
    (he : σ.perform (.create i c) = some σ') : σ'.Inv name := by
  obtain ⟨⟨d, ctr'⟩, hd, rfl⟩ := Option.map_eq_some_iff.1 he
  have hs := h.synced.exec hname hd
  rcases Drive.exec_create hd with ⟨hnone, hlog, rfl, hclock⟩ | ⟨m, hm, hlog, rfl, hlt, hclock⟩
  · have hshare := h.share hs hclock (fun op hop => hlog.symm ▸ hop) fun op hop => ⟨i, hlog ▸ hop⟩
    simpa [hnone] using hshare
  · obtain ⟨hts, hchild, hctr, hparent⟩ := (h.synced.inv i).creation_eq_some hm
    have hwrap : (σ.ctr i + 1) % 2 ^ 64 = σ.ctr i + 1 :=
      Nat.mod_eq_of_lt ((Nat.succ_le_succ (h.ctr_le i)).trans_lt hlt)
    have hmake := h.make hs hts hchild hctr hclock hlog hparent
    simpa only [hm, hwrap, Option.toList_some] using hmake

theorem Inv.perform (hname : Function.Injective name) (h : σ.Inv name)
    (he : σ.perform e = some σ') : σ'.Inv name := by
  cases e with
  | create i c => exact h.create hname he
  | deliverMove src k dst =>
    obtain ⟨drives, hstep, rfl⟩ := Option.map_eq_some_iff.1 he
    have hs := h.synced.perform hname hstep
    obtain ⟨d, hr, rfl⟩ := Option.map_eq_some_iff.1 hstep
    obtain ⟨op, hop, hd⟩ := Option.bind_eq_some_iff.1 hr
    obtain rfl := Drive.applyRemoteMove_eq_some hd
    refine h.share hs (Nat.le_succ_of_le (le_max_left _ _)) (fun o ho => List.mem_append_left _ ho) ?_
    exact Drive.forall_mem_append_singleton.2 ⟨fun o ho => ⟨dst, ho⟩, src, List.mem_of_getElem? hop⟩
  | deliverContent src k dst =>
    obtain ⟨drives, hstep, rfl⟩ := Option.map_eq_some_iff.1 he
    have hs := h.synced.perform hname hstep
    obtain ⟨d, hr, rfl⟩ := Option.map_eq_some_iff.1 hstep
    obtain ⟨op, hop, hd⟩ := Option.bind_eq_some_iff.1 hr
    obtain rfl := Drive.applyRemoteContent_eq_some hd
    exact h.share hs (Nat.le_succ_of_le (le_max_left _ _)) (fun o ho => ho) fun o ho => ⟨dst, ho⟩

theorem Inv.performAll (hname : Function.Injective name) (h : σ.Inv name)
    (he : σ.performAll es = some σ') : σ'.Inv name :=
  Runs.invariant (Inv name) h he fun _ _ _ _ h he => h.perform hname he

/-- One step keeps ids apart exactly if it meets the condition. -/
theorem Inv.idsApart_iff (h : σ.Inv name) (hids : σ.IdsApart) (he : σ.perform e = some σ') :
    σ'.IdsApart ↔ σ.MintsApart e := by
  cases e with
  | create i c =>
    obtain ⟨⟨d, ctr'⟩, hd, rfl⟩ := Option.map_eq_some_iff.1 he
    cases hm : (σ.drives i).creation (σ.ctr i) c with
    | none => simpa [IdsApart, MintsApart, hm] using hids
    | some m =>
      obtain ⟨hts, hchild, hctr, -⟩ := (h.synced.inv i).creation_eq_some hm
      have hclash : ∀ j, ∀ m' ∈ σ.made j, m.Clashes m' ↔ m.op.child = m'.op.child := by
        intro j m' hm'
        rw [Creation.clashes_iff, h.child j m' hm', hchild, hts, hctr]
        rfl
      simp only [MintsApart, hm, Option.mem_some_iff, forall_eq']
      constructor
      · intro hall j hj m' hm' hc
        refine hall i j hj.symm m (mem_update_append.2 (Or.inr ⟨rfl, rfl⟩)) m'
          (mem_update_append.2 (Or.inl hm')) ((hclash j m' hm').1 hc)
      · intro hok j k hjk a ha b hb heq
        rcases mem_update_append.1 ha with hold | ⟨rfl, rfl⟩
        · rcases mem_update_append.1 hb with hold' | ⟨rfl, rfl⟩
          · exact hids j k hjk a hold b hold' heq
          · exact hok j hjk a hold ((hclash j a hold).2 heq.symm)
        · rcases mem_update_append.1 hb with hold' | ⟨rfl, rfl⟩
          · exact hok k hjk.symm b hold' ((hclash k b hold').2 heq)
          · exact hjk rfl
  | deliverMove src k dst =>
    obtain ⟨drives, -, rfl⟩ := Option.map_eq_some_iff.1 he
    exact iff_of_true hids trivial
  | deliverContent src k dst =>
    obtain ⟨drives, -, rfl⟩ := Option.map_eq_some_iff.1 he
    exact iff_of_true hids trivial

omit [DecidableEq ι] in
theorem IdsApart.mono {σ' : Writers ι} (h : σ'.IdsApart) (hmade : ∀ i, σ.made i ⊆ σ'.made i) :
    σ.IdsApart :=
  fun i j hij m hm m' hm' => h i j hij m (hmade i hm) m' (hmade j hm')

theorem made_subset (he : σ.perform e = some σ') (k : ι) : σ.made k ⊆ σ'.made k := by
  cases e with
  | create i c =>
    obtain ⟨⟨d, ctr'⟩, -, rfl⟩ := Option.map_eq_some_iff.1 he
    by_cases hk : k = i
    · subst hk
      simp
    · simp [hk]
  | deliverMove src l dst =>
    obtain ⟨drives, -, rfl⟩ := Option.map_eq_some_iff.1 he
    exact List.Subset.refl _
  | deliverContent src l dst =>
    obtain ⟨drives, -, rfl⟩ := Option.map_eq_some_iff.1 he
    exact List.Subset.refl _

theorem condition : Runs.Condition (perform (ι := ι)) MintsApart RunMintsApart :=
  ⟨fun _ => trivial, fun _ _ _ => Iff.rfl⟩

/-- A run keeps ids apart exactly if every step meets the condition. -/
theorem Inv.idsApart_performAll (hname : Function.Injective name) (h : σ.Inv name)
    (hids : σ.IdsApart) (he : σ.performAll es = some σ') : σ'.IdsApart ↔ σ.RunMintsApart es := by
  have hrun := condition.good_iff (Inv name) IdsApart h he
    (fun _ _ _ _ h he => h.perform hname he) fun e σ σ' h he => ?_
  · exact hrun.trans (and_iff_right hids)
  · constructor
    · intro hids'
      have hids := hids'.mono (made_subset he)
      exact ⟨hids, (h.idsApart_iff hids he).1 hids'⟩
    · rintro ⟨hids, hmints⟩
      exact (h.idsApart_iff hids he).2 hmints

/-- Ids across writers. After any run of writers with distinct replica ids, no id was minted
by two of them, and if they have exchanged all moves every node created is there as a node
of its own, if and only if no writer created a node at a tick and counter at which another
had. -/
theorem ids_apart_iff (hname : Function.Injective name) (drive : String)
    (es : List (WriterEvent ι)) (hrun : (start drive name).performAll es = some σ) :
    σ.IdsApart ∧ (σ.Exchanged → σ.AllPresent) ↔ (start drive name).RunMintsApart es := by
  have hinv := inv_start drive name
  have hids : (start drive name).IdsApart := fun _ _ _ _ hm => absurd hm List.not_mem_nil
  rw [← hinv.idsApart_performAll hname hids hrun]
  exact ⟨And.left, fun h => ⟨h, (hinv.performAll hname hrun).allPresent h⟩⟩

/-- The replica ids of two writers. -/
def twoNames (i : Bool) : ReplicaId :=
  if i then "a" else "b"

/-- One writer creates a directory, the other receives it and creates another in it. -/
theorem ids_apart_iff_received :
    let σ := ((start "d" twoNames).performAll [.create true (.mkdir "/" "x"), .deliverMove true 0 false,
      .create false (.mkdir "/x" "y"), .deliverMove false 1 true]).get (by decide +kernel)
    σ.IdsApart ∧ (σ.Exchanged → σ.AllPresent) := by
  intro σ
  refine (ids_apart_iff (by decide) "d" _ (Option.some_get _).symm).2 ?_
  refine condition.cons_of (by decide +kernel) (by decide +kernel) ?_
  refine condition.cons_of trivial (by decide +kernel) ?_
  refine condition.cons_of (by decide +kernel) (by decide +kernel) ?_
  exact condition.cons_of trivial (by decide +kernel) trivial

/-- Both writers create a directory before they exchange. -/
def offlineRun : List (WriterEvent Bool) :=
  [.create true (.mkdir "/" "x"), .create false (.mkdir "/" "y"), .deliverMove true 0 false,
    .deliverMove false 0 true]

/-- The two directories get one id, and only the later one is there. -/
theorem ids_collide :
    let σ := ((start "d" twoNames).performAll offlineRun).get (by decide +kernel)
    ¬σ.IdsApart ∧ σ.Exchanged ∧ ¬σ.AllPresent := by
  intro σ
  have hids : ∃ m ∈ σ.made true, ∃ m' ∈ σ.made false, m.op.child = m'.op.child := by decide +kernel
  have hlost : ∃ m ∈ σ.made true, (σ.drives true).tree.edges[m.op.child]? ≠ some m.op.edge := by
    decide +kernel
  have hex : ∀ i j, ∀ op ∈ (σ.drives i).state.moveLog, op ∈ (σ.drives j).state.moveLog := by
    decide +kernel
  refine ⟨fun h => ?_, hex, fun h => ?_⟩
  · obtain ⟨m, hm, m', hm', heq⟩ := hids
    exact h true false (by decide) m hm m' hm' heq
  · obtain ⟨m, hm, hne⟩ := hlost
    exact hne (h true true m hm).1

end Writers

end CeDrive
