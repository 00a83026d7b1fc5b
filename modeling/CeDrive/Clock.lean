import CeDrive.FreshIds
import CeDrive.Logs

/-!
# Timestamps over a drive's life

Every consumer of the logs takes a timestamp as the identity of an operation. `History`
keeps, beside the drive, all operations that ever stood in its logs and all timestamps it
minted. No two operations of the drive share a timestamp if no timestamp is minted twice
(`Accounted`).

A local operation mints the ticks after the clock. `compact` mints from 1 again and sets the
clock back. The timestamps minted over a run are strictly increasing exactly if each
compaction that keeps a node comes before anything is minted, and no operation mints while
the clock is behind an earlier tick (`timestamps_unique_iff`).
-/

open SortedLog Relation

namespace CeDrive

namespace Drive

variable {d d' : Drive} {ctr ctr' : ℕ} {op : LocalOp} {r : DriveOp}

/-- The operation passes its checks and has something to do. -/
def acts (d : Drive) : LocalOp → Bool
  | .mkdir parentPath name => (d.mkdirCheck parentPath name).isOk
  | .addFile parentPath name _ => (d.addFileCheck parentPath name).isOk
  | .mv srcPath dstParentPath dstName => (d.mvCheck srcPath dstParentPath dstName).isOk
  | .rm path => (d.resolveNode path "delete").isOk
  | .restore nodeId dstParentPath dstName => (d.restoreCheck nodeId dstParentPath dstName).isOk
  | .emptyTrash => d.trashIds ≠ []
  | .gcTrash nowSecs retentionSecs =>
    if retentionSecs = 0 then d.trashIds ≠ []
    else d.trashIds.filter (d.gcVictim (gcCutoffMs nowSecs retentionSecs)) ≠ []
  | .setContent .. => true
  | .restoreVersion path _ _ => (d.tree.resolve path).any fun node => (d.content[node]?).isSome

theorem lamport_hardDeleteOne {id : NodeId} (h : d.hardDeleteOne id = some d') :
    d.state.lamport < d'.state.lamport := by
  obtain rfl := hardDeleteOne_eq_some h
  split_ifs
  · exact Nat.lt_succ_of_lt (Nat.lt_succ_self _)
  · exact Nat.lt_succ_self _

theorem lamport_le_hardDelete {ids : List NodeId} (h : d.hardDelete ids = some d') :
    d.state.lamport + ids.length ≤ d'.state.lamport := by
  induction ids generalizing d with
  | nil => exact Option.some_injective _ h ▸ le_rfl
  | cons id ids ih =>
    obtain ⟨d₁, h₁, h⟩ := Runs.cons_eq_some.1 h
    have hlt := lamport_hardDeleteOne h₁
    have hle := ih h
    rw [List.length_cons]
    omega

theorem acts_hardDelete {ids : List NodeId} (h : d.hardDelete ids = some d') :
    ids ≠ [] ↔ d.state.lamport < d'.state.lamport := by
  have hle := lamport_le_hardDelete h
  cases ids with
  | nil => simp [Option.some_injective _ h]
  | cons id ids =>
    rw [List.length_cons] at hle
    simp only [ne_eq, reduceCtorEq, not_false_eq_true, true_iff]
    omega

/-- An operation takes a tick exactly if it acts. -/
theorem acts_iff (h : d.exec ctr op = some (d', ctr')) :
    d.acts op = true ↔ d.state.lamport < d'.state.lamport := by
  have hmoved : ∀ (d : Drive) child newParent newName kind,
      d.state.lamport < (d.moved child newParent newName kind).state.lamport :=
    fun _ _ _ _ _ => Nat.lt_succ_self _
  have hwrote : ∀ (d : Drive) op, d.state.lamport < (d.wrote op).state.lamport :=
    fun _ _ => Nat.lt_succ_self _
  cases op with
  | mkdir parentPath name =>
    obtain ⟨r, hr, heq⟩ := Option.map_eq_some_iff.1 h
    obtain rfl : r.2.1 = d' := congrArg Prod.fst heq
    obtain ⟨e, hc, rfl⟩ | ⟨parent, hc, rfl⟩ := mkdir_eq_some hr
    · simp [acts, hc, Except.isOk, Except.toBool]
    · simp [acts, hc, Except.isOk, Except.toBool, hmoved]
  | addFile parentPath name content =>
    obtain ⟨r, hr, heq⟩ := Option.map_eq_some_iff.1 h
    obtain rfl : r.2.1 = d' := congrArg Prod.fst heq
    obtain ⟨e, hc, rfl⟩ | ⟨parent, existing, hc, rfl⟩ | ⟨parent, hc, rfl⟩ := addFile_eq_some hr
    · simp [acts, hc, Except.isOk, Except.toBool]
    · simp [acts, hc, Except.isOk, Except.toBool, hwrote]
    · simp [acts, hc, Except.isOk, Except.toBool, (hmoved ..).trans (hwrote ..)]
  | mv src dstParent dstName =>
    obtain ⟨r, hr, heq⟩ := Option.map_eq_some_iff.1 h
    obtain rfl : r.2 = d' := congrArg Prod.fst heq
    obtain ⟨e, hc, rfl⟩ | ⟨node, parent, hc, rfl⟩ := mv_eq_some hr
    · simp [acts, hc, Except.isOk, Except.toBool]
    · simp [acts, hc, Except.isOk, Except.toBool, hmoved]
  | rm path =>
    obtain ⟨r, hr, heq⟩ := Option.map_eq_some_iff.1 h
    obtain rfl : r.2 = d' := congrArg Prod.fst heq
    obtain ⟨e, hc, rfl⟩ | ⟨node, hc, rfl⟩ := rm_eq_some hr
    · simp [acts, hc, Except.isOk, Except.toBool]
    · simp [acts, hc, Except.isOk, Except.toBool, hmoved]
  | restore id dstParent dstName =>
    obtain ⟨r, hr, heq⟩ := Option.map_eq_some_iff.1 h
    obtain rfl : r.2 = d' := congrArg Prod.fst heq
    obtain ⟨e, hc, rfl⟩ | ⟨parent, name, hc, -, rfl⟩ := restore_eq_some hr
    · simp [acts, hc, Except.isOk, Except.toBool]
    · simp [acts, hc, Except.isOk, Except.toBool, hmoved]
  | emptyTrash =>
    obtain ⟨⟨ids, d₁⟩, hr, heq⟩ := Option.map_eq_some_iff.1 h
    obtain rfl : d₁ = d' := congrArg Prod.fst heq
    obtain ⟨d₂, hd, hr⟩ := Option.bind_eq_some_iff.1 hr
    obtain ⟨-, rfl⟩ := Prod.mk.inj (Option.some_injective _ hr)
    simpa [acts] using acts_hardDelete hd
  | gcTrash now retention =>
    obtain ⟨⟨ids, d₁⟩, hr, heq⟩ := Option.map_eq_some_iff.1 h
    obtain rfl : d₁ = d' := congrArg Prod.fst heq
    unfold gcTrash at hr
    split_ifs at hr with hret
    · obtain ⟨d₂, hd, hr⟩ := Option.bind_eq_some_iff.1 hr
      obtain ⟨-, rfl⟩ := Prod.mk.inj (Option.some_injective _ hr)
      simpa [acts, hret] using acts_hardDelete hd
    · obtain ⟨d₂, hd, hr⟩ := Option.bind_eq_some_iff.1 hr
      obtain ⟨-, rfl⟩ := Prod.mk.inj (Option.some_injective _ hr)
      simpa only [acts, if_neg hret, decide_eq_true_eq] using acts_hardDelete hd
  | setContent id content =>
    obtain ⟨d₁, hr, heq⟩ := Option.map_eq_some_iff.1 h
    obtain rfl : d₁ = d' := congrArg Prod.fst heq
    simp [acts, pushContent_eq_some hr, hwrote]
  | restoreVersion path cid now =>
    obtain ⟨r, hr, heq⟩ := Option.map_eq_some_iff.1 h
    obtain rfl : r.2 = d' := congrArg Prod.fst heq
    obtain ⟨e, hc, rfl⟩ | ⟨node, c, hres, hc, rfl⟩ := restoreVersion_eq_some hr
    · cases hres : d.tree.resolve path with
      | none => simp [acts, hres]
      | some node => simpa [acts, hres] using hc node hres
    · simp only [acts, hres, Option.any_some, hc, Option.isSome_some, hwrote]

/-! ## Compaction -/

/-- Compaction emitted the operations `new`, each stamped with the next tick from 1. -/
structure Compaction.Emitted (replica : ReplicaId) (out : Compaction) (new : List DriveOp) : Prop where
  lamport : out.lamport = new.length
  moves : out.moves = new.filterMap DriveOp.move?
  content : out.content = new.filterMap DriveOp.content?
  stamps : new.map DriveOp.ts = ticks replica 0 new.length

theorem Compaction.Emitted.stamps_succ {replica : ReplicaId} {out : Compaction} {new : List DriveOp}
    (h : out.Emitted replica new) (hr : r.ts = ⟨out.lamport + 1, replica⟩) :
    (new ++ [r]).map DriveOp.ts = ticks replica 0 (new ++ [r]).length := by
  rw [List.map_append, List.length_append, List.length_singleton, ticks_succ, h.stamps, Nat.zero_add,
    ← h.lamport, List.map_singleton, hr]

theorem Compaction.Emitted.pushMove {replica : ReplicaId} {out : Compaction} {new : List DriveOp}
    (h : out.Emitted replica new) (child newParent : NodeId) (newName : String) (kind : NodeKind) :
    ∃ new, (out.pushMove replica child newParent newName kind).Emitted replica new :=
  ⟨new ++ [.move ⟨⟨out.lamport + 1, replica⟩, child, newParent, newName, kind⟩],
    by simp [Compaction.pushMove, h.lamport], by simp [Compaction.pushMove, h.moves, DriveOp.move?],
    by simp [Compaction.pushMove, h.content, DriveOp.content?], h.stamps_succ rfl⟩

theorem Compaction.Emitted.pushContent {replica : ReplicaId} {out : Compaction} {new : List DriveOp}
    (h : out.Emitted replica new) (op : ContentOp) :
    ∃ new, (out.pushContent replica op).Emitted replica new :=
  ⟨new ++ [.content ⟨⟨out.lamport + 1, replica⟩, op⟩],
    by simp [Compaction.pushContent, h.lamport],
    by simp [Compaction.pushContent, h.moves, DriveOp.move?],
    by simp [Compaction.pushContent, h.content, DriveOp.content?], h.stamps_succ rfl⟩

theorem exists_emitted (d : Drive) : ∃ new, d.compacted.Emitted d.state.replica new := by
  rw [compacted_eq_foldl]
  refine List.foldlRecOn
    (motive := fun out => ∃ new, Compaction.Emitted d.state.replica out new) d.visits d.emit
    ⟨[], rfl, rfl, rfl, rfl⟩ fun out ⟨new, h⟩ v _ => ?_
  exact List.foldlRecOn (motive := fun out => ∃ new, Compaction.Emitted d.state.replica out new) _ _
    (h.pushMove ..) fun out ⟨new, h⟩ op _ => h.pushContent op

/-- Compaction emits something if it keeps a node. -/
theorem Inv.liveOps_pos (h : d.Inv) : 0 < d.liveOps ↔ ∃ n, d.tree.Kept n := by
  rw [liveOps, List.sum_pos_iff_exists_pos_nat]
  constructor
  · rintro ⟨w, hw, -⟩
    obtain ⟨v, hv, rfl⟩ := List.mem_map.1 hw
    exact ⟨v.1, ((mem_visits h.replayed.mirror h.replayed.grounded).1 hv).2⟩
  · rintro ⟨n, hk⟩
    obtain ⟨e, he⟩ := hk.exists_edge
    have hv := (mem_visits h.replayed.mirror h.replayed.grounded).2 ⟨he, hk⟩
    exact ⟨_, List.mem_map_of_mem hv, Nat.succ_pos _⟩

/-- The timestamps that an event mints, from `d` to `d'`. -/
def mintedBy (d d' : Drive) : Event → List Timestamp
  | .exec .. => ticks d.state.replica d.state.lamport (d'.state.lamport - d.state.lamport)
  | .remoteMove _ => []
  | .remoteContent _ => []
  | .compact => ticks d.state.replica 0 d'.state.lamport

/-- A remote operation carries the id of another replica. -/
def Event.Foreign (replica : ReplicaId) : Event → Prop
  | .exec .. => True
  | .remoteMove op => op.ts.replica ≠ replica
  | .remoteContent s => s.ts.replica ≠ replica
  | .compact => True

/-- What an event puts into the logs it stamps with the timestamps it mints, but for what is
received. -/
theorem Inv.exists_minted (h : d.Inv) {e : Event} (he : d.perform e = some d')
    (hf : e.Foreign d.state.replica) : d'.state.replica = d.state.replica ∧
      ∃ new : List DriveOp, new.map DriveOp.ts = d.mintedBy d' e ∧
        ∀ r, d'.Logged r → d.Logged r ∨ r ∈ new ∨ r.ts.replica ≠ d.state.replica := by
  cases e with
  | exec ctr op =>
    obtain ⟨⟨d₁, ctr'⟩, hd, rfl⟩ := Option.map_eq_some_iff.1 he
    obtain ⟨new, ha⟩ := h.appended_exec hd
    refine ⟨ha.replica, new, ?_, fun r hr => (ha.logged.1 hr).imp_right Or.inl⟩
    rw [mintedBy, ha.lamport, Nat.add_sub_cancel_left, ha.stamps]
  | remoteMove op =>
    have hr : d.receive (.move op) = some d' := he
    refine ⟨by rw [applyRemoteMove_eq_some he], [], rfl, fun r hl => ?_⟩
    rcases (h.logged_receive hr r).1 hl with hold | ⟨rfl, -⟩
    · exact Or.inl hold
    · exact Or.inr (Or.inr hf)
  | remoteContent s =>
    have hr : d.receive (.content s) = some d' := he
    refine ⟨by rw [applyRemoteContent_eq_some he], [], rfl, fun r hl => ?_⟩
    rcases (h.logged_receive hr r).1 hl with hold | ⟨rfl, -⟩
    · exact Or.inl hold
    · exact Or.inr (Or.inr hf)
  | compact =>
    obtain rfl := Option.some_injective _ he
    obtain ⟨new, hem⟩ := d.exists_emitted
    refine ⟨rfl, new, ?_, fun r hr => Or.inr (Or.inl ?_)⟩
    · rw [mintedBy, show d.compact.state.lamport = new.length from hem.lamport, hem.stamps]
    · cases r with
      | move op =>
        have hr : op ∈ d.compacted.moves := hr
        rw [hem.moves, List.mem_filterMap] at hr
        simpa only [DriveOp.move?_eq_some, exists_eq_right] using hr
      | content s =>
        have hr : s ∈ d.compacted.content := hr
        rw [hem.content, List.mem_filterMap] at hr
        simpa only [DriveOp.content?_eq_some, exists_eq_right] using hr

/-- The operations in the logs. -/
def loggedOps (d : Drive) : List DriveOp :=
  d.state.moveLog.map .move ++ d.state.contentLog.map .content

theorem mem_loggedOps : r ∈ d.loggedOps ↔ d.Logged r := by
  cases r <;> simp [loggedOps, Logged]

end Drive

/-! ## Histories -/

/-- A drive, every operation that ever stood in its logs, and every timestamp it minted. -/
structure History where
  drive : Drive
  ever : List DriveOp
  minted : List Timestamp

namespace History

open Drive

variable {s s' : History} {e : Event} {es : List Event}

def start (name : String) (replica : ReplicaId) : History :=
  ⟨Drive.init name replica, [], []⟩

def perform (s : History) (e : Event) : Option History :=
  (s.drive.perform e).map fun d =>
    ⟨d, s.ever ++ d.loggedOps, s.minted ++ s.drive.mintedBy d e⟩

def performAll (s : History) (es : List Event) : Option History :=
  es.foldlM perform s

/-- An operation acts when the clock has reached every minted tick. Compaction keeps no node,
or comes before anything is minted. -/
def KeepsOrder (s : History) : Event → Prop
  | .exec _ op => s.drive.acts op = true → ∀ ts ∈ s.minted, ts.lamport ≤ s.drive.state.lamport
  | .remoteMove _ => True
  | .remoteContent _ => True
  | .compact => (∃ n, s.drive.tree.Kept n) → s.minted = []

/-- Every step of the run from `s` meets the condition. -/
def RunKeepsOrder : History → List Event → Prop
  | _, [] => True
  | s, e :: es => s.KeepsOrder e ∧ ∀ s', s.perform e = some s' → RunKeepsOrder s' es

/-- The minted timestamps account for all own operations. -/
structure Accounted (s : History) (replica : ReplicaId) : Prop where
  drive : s.drive.Inv
  own : s.drive.state.replica = replica
  minted : ∀ ts ∈ s.minted, ts.replica = replica ∧ 0 < ts.lamport
  made : ∃ made : List DriveOp, made.map DriveOp.ts = s.minted ∧
    ∀ r ∈ s.ever, r.ts.replica = replica → r ∈ made
  logged : ∀ r, s.drive.Logged r → r ∈ s.ever

theorem accounted_start (name : String) (replica : ReplicaId) :
    (start name replica).Accounted replica := by
  refine ⟨inv_init _ _, rfl, by simp [start], ⟨[], rfl, by simp [start]⟩, fun r hr => ?_⟩
  cases r <;> cases hr

theorem mem_mintedBy {d d' : Drive} {ts : Timestamp} (h : ts ∈ d.mintedBy d' e) :
    ts.replica = d.state.replica ∧ 0 < ts.lamport := by
  cases e with
  | exec => exact ⟨(mem_ticks.1 h).1, (Nat.zero_le _).trans_lt (mem_ticks.1 h).2.1⟩
  | remoteMove => cases h
  | remoteContent => cases h
  | compact => exact ⟨(mem_ticks.1 h).1, (mem_ticks.1 h).2.1⟩

theorem Accounted.perform {replica : ReplicaId} (h : s.Accounted replica) (hf : e.Foreign replica)
    (he : s.perform e = some s') : s'.Accounted replica := by
  obtain ⟨d, hd, rfl⟩ := Option.map_eq_some_iff.1 he
  obtain ⟨hreplica, new, hstamps, hlogged⟩ := h.drive.exists_minted hd (h.own.symm ▸ hf)
  obtain ⟨made, hmade, hever⟩ := h.made
  refine ⟨h.drive.perform hd, hreplica.trans h.own, fun ts hts => ?_, ⟨made ++ new, ?_, ?_⟩,
    fun r hr => List.mem_append_right _ (mem_loggedOps.2 hr)⟩
  · rcases List.mem_append.1 hts with hts | hts
    · exact h.minted ts hts
    · exact h.own ▸ mem_mintedBy hts
  · rw [List.map_append, hmade, hstamps]
  · intro r hr hown
    rcases List.mem_append.1 hr with hr | hr
    · exact List.mem_append_left _ (hever r hr hown)
    · rcases hlogged r (mem_loggedOps.1 hr) with hold | hnew | hforeign
      · exact List.mem_append_left _ (hever r (h.logged r hold) hown)
      · exact List.mem_append_right _ hnew
      · exact absurd (hown.trans h.own.symm) hforeign

/-- If no timestamp is minted twice, a timestamp identifies an own operation. -/
theorem Accounted.unique {replica : ReplicaId} (h : s.Accounted replica)
    (hinc : s.minted.Pairwise (· < ·)) {x y : DriveOp} (hx : x ∈ s.ever) (hy : y ∈ s.ever)
    (hts : x.ts = y.ts) (hown : x.ts.replica = replica) : x = y := by
  obtain ⟨made, hmade, hever⟩ := h.made
  have hnodup : (made.map DriveOp.ts).Nodup := by
    rw [hmade]
    exact hinc.imp ne_of_lt
  exact List.inj_on_of_nodup_map hnodup (hever x hx hown) (hever y hy (hts ▸ hown)) hts

/-- One step keeps the minted timestamps increasing exactly if it meets the condition. -/
theorem Accounted.pairwise_iff {replica : ReplicaId} (h : s.Accounted replica)
    (he : s.perform e = some s') (hinc : s.minted.Pairwise (· < ·)) :
    s'.minted.Pairwise (· < ·) ↔ s.KeepsOrder e := by
  obtain ⟨d, hd, rfl⟩ := Option.map_eq_some_iff.1 he
  have hlt : ∀ ts ∈ s.minted, ∀ ts' ∈ s.drive.mintedBy d e, ts < ts' ↔ ts.lamport < ts'.lamport := by
    intro ts hts ts' hts'
    rw [Timestamp.lt_iff, (h.minted ts hts).1, (mem_mintedBy hts').1, h.own]
    simp
  have hnew : (s.drive.mintedBy d e).Pairwise (· < ·) := by
    cases e with
    | exec => exact pairwise_ticks ..
    | remoteMove => exact List.Pairwise.nil
    | remoteContent => exact List.Pairwise.nil
    | compact => exact pairwise_ticks ..
  have hiff : (s.minted ++ s.drive.mintedBy d e).Pairwise (· < ·) ↔
      ∀ ts ∈ s.minted, ∀ ts' ∈ s.drive.mintedBy d e, ts.lamport < ts'.lamport := by
    simp only [List.pairwise_append, hinc, hnew, true_and]
    exact forall₂_congr fun ts hts => forall₂_congr fun ts' hts' => hlt ts hts ts' hts'
  refine hiff.trans ?_
  cases e with
  | exec ctr op =>
    obtain ⟨⟨d₁, ctr'⟩, hexec, rfl⟩ := Option.map_eq_some_iff.1 hd
    have hacts := acts_iff hexec
    constructor
    · intro hall hact ts hts
      have hmem : ⟨s.drive.state.lamport + 1, s.drive.state.replica⟩ ∈
          s.drive.mintedBy d₁ (.exec ctr op) :=
        mem_ticks.2 ⟨rfl, Nat.lt_succ_self _, Nat.add_le_add_left (Nat.sub_pos_of_lt (hacts.1 hact)) _⟩
      exact Nat.le_of_lt_succ (hall ts hts _ hmem)
    · intro hok ts hts ts' hts'
      obtain ⟨-, hgt, hle⟩ := mem_ticks.1 hts'
      have hact := hacts.2 (show s.drive.state.lamport < d₁.state.lamport by
        have hle : ts'.lamport ≤ s.drive.state.lamport + (d₁.state.lamport - s.drive.state.lamport) := hle
        omega)
      exact (hok hact ts hts).trans_lt hgt
  | remoteMove op => simp [mintedBy, KeepsOrder]
  | remoteContent op => simp [mintedBy, KeepsOrder]
  | compact =>
    have hpos := h.drive.liveOps_pos
    obtain rfl := Option.some_injective _ hd
    have hlamport := s.drive.lamport_compact
    constructor
    · intro hall hkept
      have hmem : ⟨1, s.drive.state.replica⟩ ∈ s.drive.mintedBy s.drive.compact .compact :=
        mem_ticks.2 ⟨rfl, Nat.zero_lt_one, by
          rw [hlamport, Nat.zero_add]
          exact hpos.2 hkept⟩
      refine List.eq_nil_iff_forall_not_mem.2 fun ts hts => ?_
      have hlt : ts.lamport < 1 := hall ts hts _ hmem
      exact absurd (h.minted ts hts).2 (Nat.lt_one_iff.1 hlt).not_gt
    · intro hok ts hts ts' hts'
      obtain ⟨-, hgt, hle⟩ := mem_ticks.1 hts'
      rw [hok (hpos.1 (by omega))] at hts
      cases hts

theorem minted_sublist (he : s.perform e = some s') : s.minted.Sublist s'.minted := by
  obtain ⟨d, -, rfl⟩ := Option.map_eq_some_iff.1 he
  exact List.sublist_append_left _ _

theorem condition : Runs.Condition perform KeepsOrder RunKeepsOrder :=
  ⟨fun _ => trivial, fun _ _ _ => Iff.rfl⟩

theorem Accounted.performAll {replica : ReplicaId} (h : s.Accounted replica)
    (hf : ∀ e ∈ es, e.Foreign replica) (he : s.performAll es = some s') : s'.Accounted replica :=
  Runs.invariant (Accounted · replica) h he fun e hmem _ _ h he => h.perform (hf e hmem) he

/-- A run keeps the minted timestamps increasing exactly if every step meets the condition. -/
theorem Accounted.pairwise_performAll {replica : ReplicaId} (h : s.Accounted replica)
    (hf : ∀ e ∈ es, e.Foreign replica) (hinc : s.minted.Pairwise (· < ·))
    (he : s.performAll es = some s') : s'.minted.Pairwise (· < ·) ↔ s.RunKeepsOrder es := by
  have hrun := condition.good_iff (Accounted · replica) (fun s => s.minted.Pairwise (· < ·)) h he
    (fun e hmem _ _ h he => h.perform (hf e hmem) he) fun e s s' h he => ?_
  · exact hrun.trans (and_iff_right hinc)
  · constructor
    · intro hinc'
      have hinc := hinc'.sublist (minted_sublist he)
      exact ⟨hinc, (h.pairwise_iff he hinc).1 hinc'⟩
    · rintro ⟨hinc, hkeeps⟩
      exact (h.pairwise_iff he hinc).2 hkeeps

/-- Timestamps over a drive's life. Over a run whose received operations carry other replica
ids, the timestamps the drive mints are strictly increasing and no two of the operations
that ever stood in its logs share one of its timestamps, if and only if each operation that
acts finds the clock at or above every minted tick, and each compaction that keeps a node
comes before anything is minted. -/
theorem timestamps_unique_iff (name : String) (replica : ReplicaId) (es : List Event)
    (hf : ∀ e ∈ es, e.Foreign replica) (s : History)
    (hs : (start name replica).performAll es = some s) :
    ((∀ x ∈ s.ever, ∀ y ∈ s.ever, x.ts = y.ts → x.ts.replica = replica → x = y) ∧
      s.minted.Pairwise (· < ·)) ↔ (start name replica).RunKeepsOrder es := by
  have hacc := (accounted_start name replica).performAll hf hs
  rw [← (accounted_start name replica).pairwise_performAll hf List.Pairwise.nil hs]
  exact ⟨And.right, fun hinc => ⟨fun x hx y hy => hacc.unique hinc hx hy, hinc⟩⟩

instance {replica : ReplicaId} : Decidable (e.Foreign replica) :=
  match e with
  | .exec .. => inferInstanceAs (Decidable True)
  | .remoteMove op => inferInstanceAs (Decidable (op.ts.replica ≠ replica))
  | .remoteContent s => inferInstanceAs (Decidable (s.ts.replica ≠ replica))
  | .compact => inferInstanceAs (Decidable True)

/-- A directory created, another received, and one created in it. -/
theorem timestamps_unique_iff_received :
    let s := ((start "d" "a").performAll [.exec 0 (.mkdir "/" "a"),
      .remoteMove ⟨⟨7, "b"⟩, "x", ROOT, "x", .dir⟩, .exec 1 (.mkdir "/x" "y")]).get (by decide +kernel)
    (∀ x ∈ s.ever, ∀ y ∈ s.ever, x.ts = y.ts → x.ts.replica = "a" → x = y) ∧
      s.minted.Pairwise (· < ·) := by
  intro s
  refine (timestamps_unique_iff "d" "a" _ (by decide) s (Option.some_get _).symm).2 ?_
  refine condition.cons_of (fun _ => by decide) (by decide +kernel) ?_
  refine condition.cons_of trivial (by decide +kernel) ?_
  exact condition.cons_of (fun _ => by decide +kernel) (by decide +kernel) trivial

/-- Two directories are created, the first is deleted and the drive compacted. -/
def reusedRun : List Event :=
  [.exec 0 (.mkdir "/" "a"), .exec 1 (.mkdir "/" "b"), .exec 2 (.rm "/a"), .compact]

/-- The first tick stamps the creation of the one and, again, of the other. -/
theorem timestamps_reused :
    let s := ((start "d" "a").performAll reusedRun).get (by decide +kernel)
    ¬((∀ x ∈ s.ever, ∀ y ∈ s.ever, x.ts = y.ts → x.ts.replica = "a" → x = y) ∧
      s.minted.Pairwise (· < ·)) := by
  decide +kernel

end History

end CeDrive
