import CeDrive.DriveRun
import CeDrive.Stamps

/-!
# Replicas converge

Several drives with distinct replica ids. Each performs local operations, and any operation
that stands in the log of one may be delivered to any other, in any order, at any time and
any number of times; there is no compaction. Timestamps identify operations in every run
(`Synced`), so two replicas that hold the same moves and the same content operations have
the same edges, listings and content (`replicas_converge`).
-/

open Std SortedLog Relation Stamps

namespace CeDrive

open Drive

/-- The replicas of a drive. -/
abbrev Net (ι : Type*) := ι → Drive

/-- A local operation at one replica, or the delivery of an operation that stands in the
log of `src`. -/
inductive NetEvent (ι : Type*)
  | exec (i : ι) (ctr : ℕ) (op : LocalOp)
  | deliverMove (src : ι) (k : ℕ) (dst : ι)
  | deliverContent (src : ι) (k : ℕ) (dst : ι)

namespace Net

variable {ι : Type*} [DecidableEq ι] {σ σ' : Net ι} {name : ι → ReplicaId} {i j : ι} {d : Drive}

/-- Fresh replicas of one drive. -/
def init (drive : String) (name : ι → ReplicaId) : Net ι :=
  fun i => Drive.init drive (name i)

def perform (σ : Net ι) : NetEvent ι → Option (Net ι)
  | .exec i ctr op => ((σ i).exec ctr op).map fun r => Function.update σ i r.1
  | .deliverMove src k dst =>
    (((σ src).state.moveLog[k]?).bind (σ dst).applyRemoteMove).map (Function.update σ dst)
  | .deliverContent src k dst =>
    (((σ src).state.contentLog[k]?).bind (σ dst).applyRemoteContent).map (Function.update σ dst)

def performAll (σ : Net ι) (es : List (NetEvent ι)) : Option (Net ι) :=
  es.foldlM perform σ

/-- Every replica keeps its invariant and its name, and timestamps identify operations. -/
structure Synced (name : ι → ReplicaId) (σ : Net ι) : Prop where
  inv : ∀ i, (σ i).Inv
  replica : ∀ i, (σ i).state.replica = name i
  moves : Stamped name (fun op : MoveOp => op.ts.lamport) (fun op => op.ts.replica)
    (fun i => (σ i).state.lamport) fun i => (σ i).state.moveLog
  content : Stamped name (fun s : StampedContentOp => s.ts.lamport) (fun s => s.ts.replica)
    (fun i => (σ i).state.lamport) fun i => (σ i).state.contentLog

omit [DecidableEq ι] in
theorem synced_init (drive : String) (name : ι → ReplicaId) : Synced name (init drive name) :=
  ⟨fun _ => inv_init _ _, fun _ => rfl, stamped_nil .., stamped_nil ..⟩

theorem forall_update {P : ι → Drive → Prop} (hd : P i d) (h : ∀ j, P j (σ j)) (j : ι) :
    P j (Function.update σ i d j) := by
  by_cases hj : j = i
  · rw [hj, Function.update_self]
    exact hd
  · rw [Function.update_of_ne hj]
    exact h j

theorem forall_log_update {β : Type*} (log : Drive → List β) {Q : β → Prop}
    (hd : ∀ x ∈ log d, Q x) (h : ∀ j, ∀ x ∈ log (σ j), Q x) (j : ι) :
    ∀ x ∈ log (Function.update σ i d j), Q x :=
  forall_update (P := fun _ d => ∀ x ∈ log d, Q x) hd h j

section Distinct

variable (hname : Function.Injective name)
include hname

/-- One append of a local operation at replica `i` mints a new timestamp. -/
theorem Synced.emits (h : Synced name σ) {new : Option NodeId} {unchecked : Prop}
    (he : Emits new unchecked (σ i) d) : Synced name (Function.update σ i d) := by
  have hclock : d.state.lamport = (σ i).state.lamport + 1 := by cases he <;> rfl
  have hnow : ∀ j, (σ j).state.lamport ≤ (Function.update σ i d j).state.lamport :=
    forall_update (P := fun j x => (σ j).state.lamport ≤ x.state.lamport) (by omega) fun _ => le_rfl
  have hnext : (Function.update σ i d i).state.lamport = (σ i).state.lamport + 1 := by
    rw [Function.update_self, hclock]
  refine ⟨forall_update (P := fun _ => Inv) ((h.inv i).emits he) h.inv,
    forall_update (P := fun j x => x.state.replica = name j) ?_ h.replica, ?_, ?_⟩
  · rw [← h.replica i]
    cases he <;> rfl
  · cases he with
    | move child newParent newName kind _ =>
      refine h.moves.mint hname hnow i
        ⟨(σ i).nextTs, child, newParent, newName, kind⟩ (h.replica i) (Nat.lt_succ_self _)
        hnext.ge ?_
      refine forall_log_update (fun d => d.state.moveLog) (fun op hop => ?_) fun j op hop => Or.inr ⟨j, hop⟩
      rcases List.mem_append.1 hop with hop | hop
      · exact Or.inr ⟨i, hop⟩
      · exact Or.inl (List.mem_singleton.1 hop)
    | content op _ =>
      refine h.moves.share hnow ?_
      exact forall_log_update (fun d => d.state.moveLog) (fun op hop => ⟨i, hop⟩) fun j op hop => ⟨j, hop⟩
  · cases he with
    | move child newParent newName kind _ =>
      refine h.content.share hnow ?_
      exact forall_log_update (fun d => d.state.contentLog) (fun op hop => ⟨i, hop⟩) fun j op hop => ⟨j, hop⟩
    | content op _ =>
      refine h.content.mint hname hnow i ⟨(σ i).nextTs, op⟩ (h.replica i)
        (Nat.lt_succ_self _) hnext.ge ?_
      refine forall_log_update (fun d => d.state.contentLog) (fun s hs => ?_) fun j s hs => Or.inr ⟨j, hs⟩
      rcases List.mem_append.1 hs with hs | hs
      · exact Or.inr ⟨i, hs⟩
      · exact Or.inl (List.mem_singleton.1 hs)

theorem Synced.exec (h : Synced name σ) {ctr ctr' : ℕ} {op : LocalOp}
    (he : (σ i).exec ctr op = some (d, ctr')) : Synced name (Function.update σ i d) := by
  have hrun := (h.inv i).emits_exec he
  clear he
  induction hrun with
  | refl => rwa [Function.update_eq_self]
  | @tail d₁ d₂ _ hstep ih =>
    have hstep' : Emits ((σ i).mints ctr op) op.Unchecked (Function.update σ i d₁ i) d₂ := by
      rwa [Function.update_self]
    simpa using ih.emits hname hstep'

omit hname in
theorem Synced.deliver (h : Synced name σ) (hinv : d.Inv)
    (hreplica : d.state.replica = (σ i).state.replica)
    (hclock : (σ i).state.lamport ≤ d.state.lamport)
    (hmoves : ∀ op ∈ d.state.moveLog, ∃ k, op ∈ (σ k).state.moveLog)
    (hcontent : ∀ s ∈ d.state.contentLog, ∃ k, s ∈ (σ k).state.contentLog) :
    Synced name (Function.update σ i d) := by
  have hnow : ∀ j, (σ j).state.lamport ≤ (Function.update σ i d j).state.lamport :=
    forall_update (P := fun j x => (σ j).state.lamport ≤ x.state.lamport) hclock fun _ => le_rfl
  refine ⟨forall_update (P := fun _ => Inv) hinv h.inv,
    forall_update (P := fun j x => x.state.replica = name j) (hreplica.trans (h.replica i)) h.replica,
    h.moves.share hnow ?_, h.content.share hnow ?_⟩
  · exact forall_log_update (fun d => d.state.moveLog) hmoves
      fun j op hop => ⟨j, hop⟩
  · exact forall_log_update (fun d => d.state.contentLog) hcontent
      fun j s hs => ⟨j, hs⟩

theorem Synced.perform (h : Synced name σ) {e : NetEvent ι} (he : σ.perform e = some σ') :
    Synced name σ' := by
  cases e with
  | exec i ctr op =>
    obtain ⟨⟨d, ctr'⟩, hd, rfl⟩ := Option.map_eq_some_iff.1 he
    exact h.exec hname hd
  | deliverMove src k dst =>
    obtain ⟨d, hd, rfl⟩ := Option.map_eq_some_iff.1 he
    obtain ⟨op, hop, hd⟩ := Option.bind_eq_some_iff.1 hd
    have hinv := (h.inv dst).applyRemoteMove hd
    obtain rfl := applyRemoteMove_eq_some hd
    refine h.deliver hinv rfl (Nat.le_succ_of_le (le_max_left _ _)) ?_ fun s hs => ⟨dst, hs⟩
    exact forall_mem_append_singleton.2 ⟨fun o ho => ⟨dst, ho⟩, src, List.mem_of_getElem? hop⟩
  | deliverContent src k dst =>
    obtain ⟨d, hd, rfl⟩ := Option.map_eq_some_iff.1 he
    obtain ⟨op, hop, hd⟩ := Option.bind_eq_some_iff.1 hd
    have hinv := (h.inv dst).applyRemoteContent hd
    obtain rfl := applyRemoteContent_eq_some hd
    refine h.deliver hinv rfl (Nat.le_succ_of_le (le_max_left _ _)) (fun o ho => ⟨dst, ho⟩)
      fun s hs => ?_
    rcases mem_of_mem_deliver hs with rfl | hs
    · exact ⟨src, List.mem_of_getElem? hop⟩
    · exact ⟨dst, hs⟩

theorem Synced.performAll (h : Synced name σ) {es : List (NetEvent ι)}
    (he : σ.performAll es = some σ') : Synced name σ' :=
  Runs.invariant (Synced name) h he fun _ _ _ _ h he => h.perform hname he

/-- Replica convergence. After any run of replicas with distinct ids, two of them that hold
the same moves and the same content operations have the same edges, the same listing of
every node and the same content. -/
theorem replicas_converge (drive : String) (es : List (NetEvent ι))
    (hrun : (init drive name).performAll es = some σ) (i j : ι)
    (hmoves : ∀ op, op ∈ (σ i).state.moveLog ↔ op ∈ (σ j).state.moveLog)
    (hcontent : ∀ s, s ∈ (σ i).state.contentLog ↔ s ∈ (σ j).state.contentLog) :
    (σ i).tree.edges = (σ j).tree.edges ∧
      (∀ node, (σ i).tree.readdir node = (σ j).tree.readdir node) ∧
      (σ i).content = (σ j).content := by
  have h := (synced_init drive name).performAll hname hrun
  have hts : ∀ a ∈ (σ i).state.moveLog, ∀ b ∈ (σ i).state.moveLog, a.ts = b.ts → a = b :=
    fun a ha b hb heq => h.moves.unique i i a ha b hb (congrArg _ heq) (congrArg _ heq)
  have halike : (σ i).tree.Alike (σ j).tree := by
    rw [(h.inv i).tree, (h.inv j).tree]
    exact DriveTree.alike_applyAll hts hmoves
  refine ⟨halike.view.1, halike.readdir, ?_⟩
  rw [(h.inv i).content, (h.inv j).content,
    (h.inv i).ascending.ext (h.inv j).ascending hcontent]

end Distinct

/-- Two writers create the same name and save each other's file, then exchange all. -/
theorem replicas_converge_exchange :
    let es : List (NetEvent Bool) := [.exec true 0 (.addFile "/" "f" (.new "c1" 1 0 100)),
      .exec false 0 (.addFile "/" "f" (.new "c2" 1 0 100)),
      .deliverMove true 0 false, .deliverContent true 0 false, .deliverContent true 0 false,
      .deliverContent false 1 true, .deliverMove false 0 true]
    let name : Bool → ReplicaId := fun i => if i then "a" else "b"
    let σ := ((init "d" name).performAll es).get (by decide)
    (σ true).content = (σ false).content ∧
      ∀ node, (σ true).tree.readdir node = (σ false).tree.readdir node := by
  intro es name σ
  have hname : Function.Injective name := by decide
  have hmoves : (σ true).state.moveLog.Perm (σ false).state.moveLog := by decide
  have hcontent : (σ true).state.contentLog.Perm (σ false).state.contentLog := by decide
  have h := replicas_converge hname "d" es (Option.some_get _).symm true false
    (fun _ => hmoves.mem_iff) fun _ => hcontent.mem_iff
  exact ⟨h.2.2, h.2.1⟩

end Net

end CeDrive
