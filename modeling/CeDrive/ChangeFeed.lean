import CeDrive.Changes

/-!
# Polling the change feed

A client polls one drive, each time with the cursor the last poll returned, while the drive
performs local operations and receives those of other writers. `ReportsAll` says that a poll
leaves no logged operation unreported.

The cursor is the greatest timestamp delivered. A local operation is later than everything in
the logs, so later than the cursor; a received one need not be, and one that is not after
the cursor when it arrives is never reported. A poll leaves nothing unreported exactly if
each operation received before it was after the cursor, or known (`poll_reports_iff`).
-/

open SortedLog Relation

namespace CeDrive

/-- The change is that of the operation. -/
def Change.IsOf (c : Change) : DriveOp → Prop
  | .move op => c.ts = op.ts ∧ c.nodeId = op.child ∧ c.name = some op.newName ∧
      ∃ first, c.kind = ChangeLog.moveKind first op
  | .content s => c.ts = s.ts ∧ c.nodeId = s.op.target ∧ c.kind = ChangeLog.contentKind s.op

instance (c : Change) (r : DriveOp) : Decidable (c.IsOf r) :=
  match r with
  | .move op => inferInstanceAs (Decidable (_ ∧ _ ∧ _ ∧ ∃ first, c.kind = ChangeLog.moveKind first op))
  | .content _ => inferInstanceAs (Decidable (_ ∧ _ ∧ _))

theorem Change.IsOf.ts_eq {c : Change} {r : DriveOp} (h : c.IsOf r) : c.ts = r.ts := by
  cases r <;> exact h.1

namespace Drive

variable {d d' : Drive} {cursor : Cursor} {c : Change} {r : DriveOp}

/-! ## What a poll reports -/

/-- A poll reports every logged operation after the cursor. -/
theorem exists_isOf_changesSince (hr : d.Logged r) (ha : cursor.admits r.ts = true) :
    ∃ c ∈ (d.changesSince cursor 0).1, c.IsOf r := by
  rw [changesSince, ChangeLog.changesSince_zero]
  cases r with
  | move op =>
    obtain ⟨first, hfirst⟩ : ∃ first, ChangeLog.moveChange first op ∈
        ChangeLog.structural cursor [] d.state.moveLog := ChangeLog.exists_mem_structural hr ha
    exact ⟨_, List.mem_map_of_mem (ChangeLog.mem_merged.2 (Or.inl hfirst)), rfl, rfl, rfl, first, rfl⟩
  | content s =>
    exact ⟨_, List.mem_map_of_mem (ChangeLog.mem_merged.2 (Or.inr ⟨s, hr, ha, rfl⟩)), rfl, rfl, rfl⟩

/-- A poll reports logged operations after the cursor only. -/
theorem of_mem_changesSince (hc : c ∈ (d.changesSince cursor 0).1) :
    cursor.admits c.ts = true ∧ ∃ r, d.Logged r ∧ c.IsOf r := by
  rw [changesSince, ChangeLog.changesSince_zero] at hc
  obtain ⟨c, hmerged, rfl⟩ := List.mem_map.1 hc
  rcases ChangeLog.mem_merged.1 hmerged with hmove | ⟨s, hs, ha, rfl⟩
  · obtain ⟨op, hop, ha, first, rfl⟩ := ChangeLog.of_mem_structural hmove
    exact ⟨ha, .move op, hop, rfl, rfl, rfl, first, rfl⟩
  · exact ⟨ha, .content s, hs, rfl, rfl, rfl⟩

/-- The next cursor is the old one, or at a change reported. -/
theorem cursor_changesSince (d : Drive) (cursor : Cursor) :
    (d.changesSince cursor 0).2 = cursor ∨
      ∃ c ∈ (d.changesSince cursor 0).1, (d.changesSince cursor 0).2 = Cursor.atTs c.ts := by
  have hnext : (d.changesSince cursor 0).2 =
      (((d.changesSince cursor 0).1.getLast?).map fun c => Cursor.atTs c.ts).getD cursor := rfl
  rw [hnext]
  cases hlast : (d.changesSince cursor 0).1.getLast? with
  | none => exact Or.inl rfl
  | some c => exact Or.inr ⟨c, List.mem_of_getLast? hlast, rfl⟩

/-- What the cursor has passed, the next one has passed. -/
theorem not_admits_cursor_changesSince {ts : Timestamp} (h : cursor.admits ts = false) :
    (d.changesSince cursor 0).2.admits ts = false := by
  rcases d.cursor_changesSince cursor with hnext | ⟨c, hc, hnext⟩
  · rwa [hnext]
  · rw [hnext, ← Bool.not_eq_true, Cursor.admits_atTs]
    intro hlt
    have hc := (of_mem_changesSince hc).1
    cases hlast : cursor.last with
    | none => simp [Cursor.admits, hlast] at h
    | some seen =>
      simp only [Cursor.admits, hlast, decide_eq_true_eq, decide_eq_false_iff_not] at hc h
      exact h (hc.trans hlt)

end Drive

/-- A drive, the cursor of the client, and what was reported to it. -/
structure Feed where
  drive : Drive
  cursor : Cursor
  reported : List Change

inductive FeedEvent
  | exec (ctr : ℕ) (op : LocalOp)
  | receive (r : DriveOp)
  | poll

namespace Feed

variable {s s' : Feed} {r : DriveOp} {es : List FeedEvent}

def start (name : String) (replica : ReplicaId) : Feed :=
  ⟨Drive.init name replica, .beginning, []⟩

/-- Poll without a limit. -/
def poll (s : Feed) : Feed :=
  { s with
    cursor := (s.drive.changesSince s.cursor 0).2
    reported := s.reported ++ (s.drive.changesSince s.cursor 0).1 }

def perform (s : Feed) : FeedEvent → Option Feed
  | .exec ctr op => (s.drive.exec ctr op).map fun r => { s with drive := r.1 }
  | .receive r => (s.drive.receive r).map fun d => { s with drive := d }
  | .poll => some s.poll

def performAll (s : Feed) (es : List FeedEvent) : Option Feed :=
  es.foldlM perform s

def Reported (s : Feed) (r : DriveOp) : Prop :=
  ∃ c ∈ s.reported, c.IsOf r

instance : Decidable (s.Reported r) :=
  inferInstanceAs (Decidable (∃ c ∈ s.reported, c.IsOf r))

/-- No logged operation is unreported. -/
def ReportsAll (s : Feed) : Prop :=
  ∀ r, s.drive.Logged r → s.Reported r

/-- An operation is received after the cursor, or was reported, or is ignored. -/
def Keeps (s : Feed) : FeedEvent → Prop
  | .exec .. => True
  | .receive r => s.cursor.admits r.ts = true ∨ s.Reported r ∨ s.drive.Ignores r
  | .poll => True

instance {e : FeedEvent} : Decidable (s.Keeps e) :=
  match e with
  | .exec .. => inferInstanceAs (Decidable True)
  | .receive _ => inferInstanceAs (Decidable (_ ∨ _ ∨ _))
  | .poll => inferInstanceAs (Decidable True)

/-- Every step of the run from `s` meets the condition. -/
def RunKeeps : Feed → List FeedEvent → Prop
  | _, [] => True
  | s, e :: es => s.Keeps e ∧ ∀ s', s.perform e = some s' → RunKeeps s' es

/-! ## Runs that meet the condition -/

/-- Every logged operation will be reported by the next poll or was reported. -/
structure Inv (s : Feed) : Prop where
  drive : s.drive.Inv
  cursor_le : ∀ ts, s.drive.state.lamport < ts.lamport → s.cursor.admits ts = true
  pending : ∀ r, s.drive.Logged r → s.cursor.admits r.ts = true ∨ s.Reported r

theorem inv_start (name : String) (replica : ReplicaId) : (start name replica).Inv := by
  refine ⟨Drive.inv_init _ _, fun _ _ => rfl, fun r hr => Or.inl rfl⟩

/-- A poll reports everything pending. -/
theorem Inv.reportsAll_poll (h : s.Inv) : s.poll.ReportsAll := by
  intro r hr
  rcases h.pending r hr with ha | ⟨c, hc, hof⟩
  · obtain ⟨c, hc, hof⟩ := Drive.exists_isOf_changesSince hr ha
    exact ⟨c, List.mem_append_right _ hc, hof⟩
  · exact ⟨c, List.mem_append_left _ hc, hof⟩

theorem Inv.perform (h : s.Inv) {e : FeedEvent} (hok : s.Keeps e) (he : s.perform e = some s') :
    s'.Inv := by
  cases e with
  | exec ctr op =>
    obtain ⟨⟨d, ctr'⟩, hd, rfl⟩ := Option.map_eq_some_iff.1 he
    obtain ⟨new, ha⟩ := h.drive.appended_exec hd
    have hclock : s.drive.state.lamport ≤ d.state.lamport := ha.lamport ▸ Nat.le_add_right _ _
    refine ⟨h.drive.exec hd, fun ts hts => h.cursor_le ts (hclock.trans_lt hts), fun r hr => ?_⟩
    rcases ha.logged.1 hr with hr | hnew
    · exact h.pending r hr
    · exact Or.inl (h.cursor_le r.ts (ha.lamport_lt hnew))
  | receive r =>
    obtain ⟨d, hd, rfl⟩ := Option.map_eq_some_iff.1 he
    have hclock := Drive.lamport_receive hd
    refine ⟨h.drive.receive hd, fun ts hts => h.cursor_le ts ?_, fun x hx => ?_⟩
    · have hts : d.state.lamport < ts.lamport := hts
      omega
    · rcases (h.drive.logged_receive hd x).1 hx with hx | ⟨rfl, hnew⟩
      · exact h.pending x hx
      · exact hok.imp_right fun hk => hk.resolve_right hnew
  | poll =>
    obtain rfl := Option.some_injective _ he
    refine ⟨h.drive, fun ts hts => ?_, fun r hr => Or.inr (h.reportsAll_poll r hr)⟩
    rcases s.drive.cursor_changesSince s.cursor with hnext | ⟨c, hc, hnext⟩
    · exact (congrArg (fun cur => cur.admits ts) hnext).trans (h.cursor_le ts hts)
    · obtain ⟨-, r, hr, hof⟩ := Drive.of_mem_changesSince hc
      refine (congrArg (fun cur => cur.admits ts) hnext).trans (Cursor.admits_atTs.2 ?_)
      have hle := h.drive.lamport_le hr
      rw [← hof.ts_eq] at hle
      exact Timestamp.lt_of_lamport_lt (hle.trans_lt hts)

theorem condition : Runs.Condition perform Keeps RunKeeps :=
  ⟨fun _ => trivial, fun _ _ _ => Iff.rfl⟩

theorem Inv.performAll (h : s.Inv) (hok : s.RunKeeps es) (he : s.performAll es = some s') :
    s'.Inv :=
  condition.invariant Feed.Inv h hok he fun _ _ _ h hok he => h.perform hok he

/-! ## Runs that do not -/

/-- A logged operation that the cursor has passed unreported. -/
structure Missed (s : Feed) (r : DriveOp) : Prop where
  logged : s.drive.Logged r
  passed : s.cursor.admits r.ts = false
  unreported : ¬s.Reported r

theorem Missed.poll (h : s.Missed r) : s.poll.Missed r := by
  refine ⟨h.logged, Drive.not_admits_cursor_changesSince h.passed, ?_⟩
  rintro ⟨c, hc, hof⟩
  rcases List.mem_append.1 hc with hc | hc
  · exact h.unreported ⟨c, hc, hof⟩
  · have ha := (Drive.of_mem_changesSince hc).1
    rw [hof.ts_eq, h.passed] at ha
    cases ha

/-- Once missed, an operation is never reported. -/
theorem Missed.perform (hinv : s.drive.Inv) (h : s.Missed r) {e : FeedEvent}
    (he : s.perform e = some s') : s'.Missed r := by
  cases e with
  | exec ctr op =>
    obtain ⟨⟨d, ctr'⟩, hd, rfl⟩ := Option.map_eq_some_iff.1 he
    obtain ⟨new, ha⟩ := hinv.appended_exec hd
    exact ⟨ha.logged.2 (Or.inl h.logged), h.passed, h.unreported⟩
  | receive x =>
    obtain ⟨d, hd, rfl⟩ := Option.map_eq_some_iff.1 he
    exact ⟨(hinv.logged_receive hd r).2 (Or.inl h.logged), h.passed, h.unreported⟩
  | poll => exact Option.some_injective _ he ▸ h.poll

theorem inv_perform (h : s.drive.Inv) {e : FeedEvent} (he : s.perform e = some s') :
    s'.drive.Inv := by
  cases e with
  | exec ctr op =>
    obtain ⟨⟨d, ctr'⟩, hd, rfl⟩ := Option.map_eq_some_iff.1 he
    exact h.exec hd
  | receive r =>
    obtain ⟨d, hd, rfl⟩ := Option.map_eq_some_iff.1 he
    exact h.receive hd
  | poll => exact Option.some_injective _ he ▸ h

theorem Missed.performAll (hinv : s.drive.Inv) (h : s.Missed r) (he : s.performAll es = some s') :
    s'.Missed r :=
  (Runs.invariant (fun s => s.drive.Inv ∧ s.Missed r) ⟨hinv, h⟩ he fun _ _ _ _ h he =>
    ⟨inv_perform h.1 he, h.2.perform h.1 he⟩).2

/-- A step that does not meet the condition misses the operation it receives. -/
theorem exists_missed {e : FeedEvent} (hinv : s.drive.Inv) (hok : ¬s.Keeps e)
    (he : s.perform e = some s') : ∃ r, s'.Missed r := by
  cases e with
  | exec => exact absurd trivial hok
  | poll => exact absurd trivial hok
  | receive r =>
    obtain ⟨d, hd, rfl⟩ := Option.map_eq_some_iff.1 he
    simp only [Keeps, not_or, Bool.not_eq_true] at hok
    exact ⟨r, (hinv.logged_receive hd r).2 (Or.inr ⟨rfl, hok.2.2⟩), hok.1, hok.2.1⟩

theorem runKeeps_of_reportsAll (hinv : s.drive.Inv) (he : s.performAll es = some s')
    (hall : s'.poll.ReportsAll) : s.RunKeeps es := by
  induction es generalizing s with
  | nil => trivial
  | cons e es ih =>
    obtain ⟨s₁, h₁, he⟩ := Runs.cons_eq_some.1 he
    refine (condition.cons_iff h₁).2 ⟨?_, ih (inv_perform hinv h₁) he⟩
    by_contra hok
    obtain ⟨r, hr⟩ := exists_missed hinv hok h₁
    have hmissed := (hr.performAll (inv_perform hinv h₁) he).poll
    exact hmissed.unreported (hall r hmissed.logged)

/-- The feed over a run. After any run, the next poll leaves no logged operation unreported
if and only if every operation received in the run came after the cursor, or was reported
before, or is ignored. -/
theorem poll_reports_iff (name : String) (replica : ReplicaId) (es : List FeedEvent) (s : Feed)
    (hs : (start name replica).performAll es = some s) :
    s.poll.ReportsAll ↔ (start name replica).RunKeeps es :=
  ⟨runKeeps_of_reportsAll (Drive.inv_init _ _) hs,
    fun hok => ((inv_start name replica).performAll hok hs).reportsAll_poll⟩

/-- A file is created and saved, reported, and saved by another writer. -/
theorem poll_reports_iff_later :
    let save : StampedContentOp := ⟨⟨9, "b"⟩, .set "00000000000100000000" "c2" 1 0 200⟩
    let s := ((start "d" "a").performAll [.exec 0 (.addFile "/" "f" (.new "c1" 1 0 100)), .poll,
      .receive (.content save)]).get (by decide +kernel)
    s.poll.ReportsAll := by
  intro save s
  refine (poll_reports_iff "d" "a" _ s (Option.some_get _).symm).2 ?_
  refine condition.cons_of trivial (by decide +kernel) (condition.cons_of trivial rfl ?_)
  exact condition.cons_of (by decide +kernel) (by decide +kernel) trivial

/-- A directory is reported at the tick 5, then one created at the tick 3 arrives. -/
def lateRun : List FeedEvent :=
  [.receive (.move ⟨⟨5, "b"⟩, "x", ROOT, "x", .dir⟩), .poll,
    .receive (.move ⟨⟨3, "c"⟩, "y", ROOT, "y", .dir⟩)]

theorem poll_skips_late :
    let s := ((start "d" "a").performAll lateRun).get (by decide +kernel)
    ¬s.poll.ReportsAll := by
  intro s h
  obtain ⟨c, hc, hof⟩ := h (.move ⟨⟨3, "c"⟩, "y", ROOT, "y", .dir⟩) (by decide +kernel)
  have hts : c.ts = ⟨3, "c"⟩ := hof.1
  have hnone : ∀ c ∈ s.poll.reported, c.ts ≠ ⟨3, "c"⟩ := by decide +kernel
  exact hnone c hc hts

end Feed

end CeDrive
