import CeDrive.Changes

/-!
# Received operations

A received operation advances the clock past its own timestamp. The clock comes from the
wire : it dominates both logs afterwards exactly if the greater of the two clocks is below
`u64::MAX - 1` (`receive_dominates_iff`).

An operation may be received again. The content log has no duplicates, the log of moves is
in order of arrival and has (`redelivery_unchanged_iff`).
-/

open SortedLog

namespace CeDrive

namespace Drive

variable {d d' : Drive} {r : DriveOp} {n : ℕ}

/-! ## The clock -/

theorem isSome_checkedSucc {n : ℕ} : (checkedSucc n).isSome = true ↔ n + 1 < 2 ^ 64 := by
  unfold checkedSucc
  split_ifs with h <;> simpa using h

theorem exists_receive_iff :
    (∃ d', d.receive r = some d') ↔ max d.state.lamport r.ts.lamport + 1 < 2 ^ 64 := by
  rw [← Option.isSome_iff_exists, ← isSome_checkedSucc]
  cases r with
  | move op =>
    rw [receive, applyRemoteMove, DriveOp.ts]
    cases checkedSucc (max d.state.lamport op.ts.lamport) <;> rfl
  | content s =>
    rw [receive, applyRemoteContent, DriveOp.ts]
    cases checkedSucc (max d.state.lamport s.ts.lamport) with
    | none => rfl
    | some l =>
      simp only [Option.bind_eq_bind, Option.bind_some, Option.isSome_some, iff_true]
      split_ifs <;> rfl

theorem exists_tick_iff : (∃ s, d.tick = some s) ↔ d.state.lamport + 1 < 2 ^ 64 := by
  rw [← Option.isSome_iff_exists, ← isSome_checkedSucc, tick]
  cases checkedSucc d.state.lamport <;> rfl

/-- The clock dominates. Receiving an operation completes, and the timestamp of the next
local operation is then greater than all timestamps of both logs, if and only if the greater
of the two clocks is at most `u64::MAX - 2`. -/
theorem receive_dominates_iff (d : Drive) (h : d.Reachable) (r : DriveOp) :
    (∃ d', d.receive r = some d' ∧
      ∃ ts d'', d'.tick = some (ts, d'') ∧ ∀ x, d'.Logged x → x.ts < ts) ↔
      max d.state.lamport r.ts.lamport + 2 < 2 ^ 64 := by
  constructor
  · rintro ⟨d', hd', ts, d'', htick, -⟩
    have hlt := exists_tick_iff.1 ⟨_, htick⟩
    rwa [lamport_receive hd'] at hlt
  · intro hlt
    obtain ⟨d', hd'⟩ := exists_receive_iff.2 (show max d.state.lamport r.ts.lamport + 1 < 2 ^ 64 by omega)
    obtain ⟨⟨ts, d''⟩, htick⟩ := exists_tick_iff.2 (show d'.state.lamport + 1 < 2 ^ 64 by
      rw [lamport_receive hd']
      exact hlt)
    refine ⟨d', hd', ts, d'', htick, fun x hx => ?_⟩
    have hle := (h.inv.receive hd').lamport_le hx
    obtain rfl : ts = d'.nextTs := congrArg Prod.fst (tick_eq_some htick)
    exact Timestamp.lt_of_lamport_lt (Nat.lt_succ_of_le hle)

/-- A move of another writer. -/
theorem receive_dominates_iff_move :
    (∃ d', (init "d" "a").receive (.move ⟨⟨7, "b"⟩, "x", ROOT, "x", .dir⟩) = some d' ∧
      ∃ ts d'', d'.tick = some (ts, d'') ∧ ∀ x, d'.Logged x → x.ts < ts) :=
  (receive_dominates_iff (init "d" "a") ⟨"d", "a", [], rfl⟩ _).2 (by decide)

/-- A move stamped `u64::MAX`. -/
theorem receive_overflows :
    ¬∃ d', (init "d" "a").receive (.move ⟨⟨2 ^ 64 - 1, "b"⟩, "x", ROOT, "x", .dir⟩) = some d' ∧
      ∃ ts d'', d'.tick = some (ts, d'') ∧ ∀ x, d'.Logged x → x.ts < ts := by
  rintro ⟨d', hd', -⟩
  exact absurd (exists_receive_iff.1 ⟨d', hd'⟩) (by decide)

/-! ## Redelivery -/

/-- Two drives are alike but for their clocks. -/
structure Unchanged (d d' : Drive) : Prop where
  moveLog : d'.state.moveLog = d.state.moveLog
  contentLog : d'.state.contentLog = d.state.contentLog
  opCount : d'.opCount = d.opCount
  tree : d'.tree = d.tree
  content : d'.content = d.content
  feed : ∀ cursor, d'.changesSince cursor 0 = d.changesSince cursor 0

/-- The drive after an operation it has came `n` times more. -/
def redelivered (d : Drive) (r : DriveOp) (n : ℕ) : Drive :=
  { d with state := { d.state with
      lamport := d.state.lamport + n
      moveLog := d.state.moveLog ++ (List.replicate n r).filterMap DriveOp.move? } }

/-- The tree ignores a move it has. -/
theorem Inv.apply_of_logged (h : d.Inv) {op : MoveOp} (hop : op ∈ d.state.moveLog) :
    d.tree.apply op = d.tree := by
  have hmem : ∃ o ∈ d.tree.logOps, o.ts = op.ts := by
    rw [h.tree, DriveTree.logOps_applyAll]
    exact exists_mem_deliverAll hop
  obtain ⟨o, ho, hts⟩ := hmem
  obtain ⟨e, he, rfl⟩ := List.mem_map.1 ho
  have hasc : Ascending (fun e : LogEntry => e.op.ts) d.tree.log := by
    simpa [Ascending, DriveTree.logOps, List.pairwise_map] using h.replayed.ascending
  exact if_pos ((hasc.any_partitionPoint ⟨op, none⟩).2 ⟨e, he, hts⟩)

/-- An operation that comes again ticks the clock and, if it is a move, is logged again. -/
theorem Inv.receive_of_logged (h : d.Inv) (hr : d.Logged r) (hd' : d.receive r = some d') :
    d' = d.redelivered r 1 := by
  have hmax : max d.state.lamport r.ts.lamport = d.state.lamport := max_eq_left (h.lamport_le hr)
  cases r with
  | move op =>
    have hmax : max d.state.lamport op.ts.lamport = d.state.lamport := hmax
    rw [applyRemoteMove_eq_some hd', h.apply_of_logged hr, hmax]
    rfl
  | content s =>
    have hmax : max d.state.lamport s.ts.lamport = d.state.lamport := hmax
    have hlog : deliver StampedContentOp.ts d.state.contentLog s = d.state.contentLog :=
      h.ascending.deliver_of_mem ⟨s, hr, rfl⟩
    rw [applyRemoteContent_eq_some hd']
    simp [redelivered, DriveOp.move?, hlog, hmax]

theorem logged_redelivered (hr : d.Logged r) : (d.redelivered r n).Logged r := by
  cases r with
  | move op => exact List.mem_append_left _ hr
  | content s => exact hr

theorem redelivered_redelivered : (d.redelivered r 1).redelivered r n = d.redelivered r (n + 1) := by
  have hlog : (List.replicate (n + 1) r).filterMap DriveOp.move? =
      (List.replicate 1 r).filterMap DriveOp.move? ++ (List.replicate n r).filterMap DriveOp.move? := by
    rw [← List.filterMap_append, List.replicate_append_replicate, Nat.add_comm]
  simp only [redelivered, List.append_assoc, hlog, Nat.add_assoc, Nat.add_comm 1 n]

/-- An operation that comes again and again. -/
theorem Inv.receiveAll_replicate (h : d.Inv) (hr : d.Logged r) :
    d.receiveAll (List.replicate n r) = some d' ↔
      (n = 0 ∨ d.state.lamport + n < 2 ^ 64) ∧ d' = d.redelivered r n := by
  induction n generalizing d with
  | zero =>
    have hzero : d.redelivered r 0 = d := by simp [redelivered]
    rw [hzero, List.replicate_zero, Drive.receiveAll, List.foldlM_nil]
    simp [eq_comm]
  | succ n ih =>
    have hmax : max d.state.lamport r.ts.lamport = d.state.lamport := max_eq_left (h.lamport_le hr)
    rw [List.replicate_succ, Drive.receiveAll, Runs.cons_eq_some]
    constructor
    · rintro ⟨d₁, h₁, hrest⟩
      obtain rfl := h.receive_of_logged hr h₁
      obtain ⟨hlt, rfl⟩ := (ih (h.receive h₁) (logged_redelivered hr)).1 hrest
      have hlt₁ := exists_receive_iff.1 ⟨_, h₁⟩
      rw [hmax] at hlt₁
      refine ⟨Or.inr ?_, redelivered_redelivered⟩
      rcases hlt with rfl | hlt
      · exact hlt₁
      · rw [Nat.add_comm n 1, ← Nat.add_assoc]
        exact hlt
    · rintro ⟨hlt, rfl⟩
      obtain ⟨d₁, h₁⟩ := exists_receive_iff.2 (show max d.state.lamport r.ts.lamport + 1 < 2 ^ 64 by
        omega)
      obtain rfl := h.receive_of_logged hr h₁
      refine ⟨_, h₁, (ih (h.receive h₁) (logged_redelivered hr)).2 ⟨Or.inr ?_, ?_⟩⟩
      · change d.state.lamport + 1 + n < 2 ^ 64
        omega
      · exact redelivered_redelivered.symm

theorem unchanged_redelivered : d.Unchanged (d.redelivered r n) ↔ n = 0 ∨ ∃ s, r = .content s := by
  constructor
  · intro hun
    cases r with
    | move op =>
      have hnil := List.append_right_eq_self.1 hun.moveLog
      cases n with
      | zero => exact Or.inl rfl
      | succ n => simp [List.replicate_succ, DriveOp.move?] at hnil
    | content s => exact Or.inr ⟨s, rfl⟩
  · intro hcase
    have hlog : (d.redelivered r n).state.moveLog = d.state.moveLog := by
      rcases hcase with rfl | ⟨s, rfl⟩
      · simp [redelivered]
      · simp [redelivered, DriveOp.move?, List.filterMap_replicate]
    exact ⟨hlog, rfl, by rw [opCount, hlog]; rfl, rfl, rfl, fun cursor => by
      rw [changesSince, changesSince, ChangeLog.new, hlog]; rfl⟩

/-- Redelivery. An operation that stands in a log is received `n` more times and nothing but
the clock changes if and only if it is a content operation, and the clock stays below
`u64::MAX`, or `n` is zero. -/
theorem redelivery_unchanged_iff (d : Drive) (h : d.Reachable) (r : DriveOp) (hr : d.Logged r)
    (n : ℕ) :
    (∃ d', d.receiveAll (List.replicate n r) = some d' ∧ d.Unchanged d') ↔
      n = 0 ∨ (∃ s, r = .content s) ∧ d.state.lamport + n < 2 ^ 64 := by
  simp only [h.inv.receiveAll_replicate hr, and_assoc, exists_and_left, exists_eq_left,
    unchanged_redelivered]
  tauto

theorem Reachable.receive (h : d.Reachable) (hr : d.receive r = some d') : d'.Reachable := by
  have hevent : ∃ e, d.perform e = some d' := by
    cases r with
    | move op => exact ⟨.remoteMove op, hr⟩
    | content s => exact ⟨.remoteContent s, hr⟩
  obtain ⟨e, hd'⟩ := hevent
  obtain ⟨name, replica, es, hd⟩ := h
  refine ⟨name, replica, es ++ [e], ?_⟩
  rw [performAll, List.foldlM_append]
  exact Option.bind_eq_some_iff.2 ⟨d, hd, Runs.cons_eq_some.2 ⟨d', hd', rfl⟩⟩

/-- A save of another writer that is received three times. -/
theorem redelivery_unchanged_iff_save :
    let save : StampedContentOp := ⟨⟨4, "b"⟩, .set "f" "c1" 1 0 100⟩
    let d := ((init "d" "a").receive (.content save)).get (by decide +kernel)
    ∃ d', d.receiveAll [.content save, .content save] = some d' ∧ d.Unchanged d' := by
  intro save d
  have hinit : (init "d" "a").Reachable := ⟨"d", "a", [], rfl⟩
  have hd : d.Reachable := hinit.receive (Option.some_get _).symm
  exact (redelivery_unchanged_iff d hd (.content save) (by decide +kernel) 2).2
    (Or.inr ⟨⟨save, rfl⟩, by decide +kernel⟩)

/-- A move of another writer that is received twice is logged twice. -/
theorem redelivery_changes :
    let move : DriveOp := .move ⟨⟨4, "b"⟩, "x", ROOT, "x", .dir⟩
    let d := ((init "d" "a").receive move).get (by decide +kernel)
    ¬∃ d', d.receiveAll [move] = some d' ∧ d.Unchanged d' := by
  intro move d
  rintro ⟨d', hd', hun⟩
  have hlog : (d.receiveAll [move]).map (fun d => d.state.moveLog) ≠ some d.state.moveLog := by
    decide +kernel
  rw [hd'] at hlog
  exact hlog (congrArg some hun.moveLog)

end Drive

end CeDrive
