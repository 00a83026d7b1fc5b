import CeDrive.DriveRun

/-!
# The two logs

An operation of either log is a `DriveOp`. `Logged` says that it stands in its log. A local
operation appends operations stamped with the ticks it takes (`Appended`), a received one
enters its log unless its timestamp is there.
-/

open SortedLog Relation

namespace CeDrive

/-- An operation of either collection. -/
inductive DriveOp
  | move (op : MoveOp)
  | content (op : StampedContentOp)
  deriving DecidableEq

namespace DriveOp

def ts : DriveOp → Timestamp
  | move op => op.ts
  | content op => op.ts

def move? : DriveOp → Option MoveOp
  | move op => some op
  | content _ => none

def content? : DriveOp → Option StampedContentOp
  | move _ => none
  | content op => some op

theorem move?_eq_some {r : DriveOp} {op : MoveOp} : r.move? = some op ↔ r = move op := by
  cases r <;> simp [move?]

theorem content?_eq_some {r : DriveOp} {s : StampedContentOp} : r.content? = some s ↔ r = content s := by
  cases r <;> simp [content?]

end DriveOp

namespace Drive

variable {d d' : Drive} {r : DriveOp} {ops new : List DriveOp} {k : ℕ}

/-- The operation stands in a log of the drive. -/
def Logged (d : Drive) : DriveOp → Prop
  | .move op => op ∈ d.state.moveLog
  | .content s => s ∈ d.state.contentLog

/-- A content operation whose timestamp is in the log is ignored. -/
def Ignores (d : Drive) : DriveOp → Prop
  | .move _ => False
  | .content s => ∃ s' ∈ d.state.contentLog, s'.ts = s.ts

instance : Decidable (d.Logged r) :=
  match r with
  | .move op => inferInstanceAs (Decidable (op ∈ d.state.moveLog))
  | .content s => inferInstanceAs (Decidable (s ∈ d.state.contentLog))

instance : Decidable (d.Ignores r) :=
  match r with
  | .move _ => inferInstanceAs (Decidable False)
  | .content s => inferInstanceAs (Decidable (∃ s' ∈ d.state.contentLog, s'.ts = s.ts))

/-! ## Local operations -/

/-- The timestamps of the `k` ticks after `lamport`. -/
def ticks (replica : ReplicaId) (lamport k : ℕ) : List Timestamp :=
  (List.range' (lamport + 1) k).map fun l => ⟨l, replica⟩

theorem ticks_succ (replica : ReplicaId) (lamport k : ℕ) :
    ticks replica lamport (k + 1) = ticks replica lamport k ++ [⟨lamport + k + 1, replica⟩] := by
  simp [ticks, List.range'_1_concat, Nat.add_right_comm]

theorem mem_ticks {replica : ReplicaId} {lamport : ℕ} {ts : Timestamp} :
    ts ∈ ticks replica lamport k ↔
      ts.replica = replica ∧ lamport < ts.lamport ∧ ts.lamport ≤ lamport + k := by
  obtain ⟨l, x⟩ := ts
  simp only [ticks, List.mem_map, List.mem_range'_1, Timestamp.mk.injEq]
  constructor
  · rintro ⟨l, hl, rfl, rfl⟩
    exact ⟨rfl, by omega, by omega⟩
  · rintro ⟨rfl, hlt, hle⟩
    exact ⟨l, by omega, rfl, rfl⟩

theorem pairwise_ticks (replica : ReplicaId) (lamport k : ℕ) :
    (ticks replica lamport k).Pairwise (· < ·) := by
  have hrange : (List.range' (lamport + 1) k).Pairwise (· < ·) := List.pairwise_lt_range'
  exact List.pairwise_map.2 (hrange.imp Timestamp.lt_of_lamport_lt)

/-- From `d` to `d'` the operations `new` were appended to the logs, each stamped with the
next tick. -/
structure Appended (d d' : Drive) (new : List DriveOp) : Prop where
  lamport : d'.state.lamport = d.state.lamport + new.length
  replica : d'.state.replica = d.state.replica
  moves : d'.state.moveLog = d.state.moveLog ++ new.filterMap DriveOp.move?
  content : d'.state.contentLog = d.state.contentLog ++ new.filterMap DriveOp.content?
  stamps : new.map DriveOp.ts = ticks d.state.replica d.state.lamport new.length

theorem appended_emits_run {minted : Option NodeId} {unchecked : Prop}
    (he : ReflTransGen (Emits minted unchecked) d d') : ∃ new, Appended d d' new := by
  induction he with
  | refl => exact ⟨[], rfl, rfl, by simp, by simp, rfl⟩
  | @tail d₁ d₂ _ hstep ih =>
    obtain ⟨new, h⟩ := ih
    have hlamport : d₁.state.lamport + 1 = d.state.lamport + (new.length + 1) := by
      rw [h.lamport, Nat.add_assoc]
    have hstamps : new.map DriveOp.ts ++ [d₁.nextTs] =
        ticks d.state.replica d.state.lamport (new.length + 1) := by
      rw [ticks_succ, h.stamps, nextTs, h.lamport, h.replica]
    cases hstep with
    | move child newParent newName kind _ =>
      refine ⟨new ++ [.move ⟨d₁.nextTs, child, newParent, newName, kind⟩], ?_, h.replica, ?_, ?_, ?_⟩
      · simpa [moved, pushMove] using hlamport
      · simp [moved, pushMove, h.moves, DriveOp.move?]
      · simp [moved, pushMove, h.content, DriveOp.content?]
      · simpa [DriveOp.ts] using hstamps
    | content op _ =>
      refine ⟨new ++ [.content ⟨d₁.nextTs, op⟩], ?_, h.replica, ?_, ?_, ?_⟩
      · simpa [wrote] using hlamport
      · simp [wrote, h.moves, DriveOp.move?]
      · simp [wrote, h.content, DriveOp.content?]
      · simpa [DriveOp.ts] using hstamps

theorem Appended.logged (h : Appended d d' new) : d'.Logged r ↔ d.Logged r ∨ r ∈ new := by
  cases r with
  | move op =>
    rw [Logged, Logged, h.moves, List.mem_append, List.mem_filterMap]
    simp only [DriveOp.move?_eq_some, exists_eq_right]
  | content s =>
    rw [Logged, Logged, h.content, List.mem_append, List.mem_filterMap]
    simp only [DriveOp.content?_eq_some, exists_eq_right]

/-- The operations appended are later than the clock was. -/
theorem Appended.lamport_lt (h : Appended d d' new) (hr : r ∈ new) :
    d.state.lamport < r.ts.lamport :=
  (mem_ticks.1 (h.stamps ▸ List.mem_map_of_mem hr)).2.1

/-- A local operation appends operations stamped with the ticks it takes. -/
theorem Inv.appended_exec (h : d.Inv) {op : LocalOp} {ctr' : ℕ}
    (he : d.exec ctr op = some (d', ctr')) : ∃ new, Appended d d' new :=
  appended_emits_run (h.emits_exec he)

/-! ## Received operations -/

def receive (d : Drive) : DriveOp → Option Drive
  | .move op => d.applyRemoteMove op
  | .content op => d.applyRemoteContent op

/-- Receive operations in the order they arrive. -/
def receiveAll (d : Drive) (ops : List DriveOp) : Option Drive :=
  ops.foldlM receive d

theorem Inv.lamport_le (h : d.Inv) (hr : d.Logged r) : r.ts.lamport ≤ d.state.lamport := by
  cases r with
  | move op => exact h.move_le op hr
  | content s => exact h.content_le s hr

/-- A received operation enters its log, unless it is ignored. -/
theorem Inv.logged_receive (h : d.Inv) (hr : d.receive r = some d') (x : DriveOp) :
    d'.Logged x ↔ d.Logged x ∨ x = r ∧ ¬d.Ignores r := by
  cases r with
  | move op =>
    obtain rfl := applyRemoteMove_eq_some hr
    cases x <;> simp [Logged, Ignores]
  | content s =>
    obtain rfl := applyRemoteContent_eq_some hr
    by_cases hdup : ∃ s' ∈ d.state.contentLog, s'.ts = s.ts
    · have hlog : deliver StampedContentOp.ts d.state.contentLog s = d.state.contentLog :=
        h.ascending.deliver_of_mem hdup
      cases x <;> simp only [Logged, Ignores, hlog, hdup] <;> tauto
    · have hnew : ∀ s' ∈ d.state.contentLog, s'.ts ≠ s.ts := fun s' hs' he => hdup ⟨s', hs', he⟩
      cases x with
      | move op => simp [Logged]
      | content o =>
        simp only [Logged, Ignores, hdup, not_false_eq_true, and_true, h.ascending.mem_deliver hnew,
          DriveOp.content.injEq]
        exact or_comm

theorem Inv.receive (h : d.Inv) (hr : d.receive r = some d') : d'.Inv := by
  cases r with
  | move op => exact h.applyRemoteMove hr
  | content s => exact h.applyRemoteContent hr

theorem lamport_receive (hr : d.receive r = some d') :
    d'.state.lamport = max d.state.lamport r.ts.lamport + 1 := by
  cases r with
  | move op => rw [applyRemoteMove_eq_some hr]; rfl
  | content s => rw [applyRemoteContent_eq_some hr]; rfl

/-- The moves are logged as they arrive, the content operations at their place. -/
theorem Inv.receiveAll (h : d.Inv) (hr : d.receiveAll ops = some d') :
    d'.Inv ∧ d'.state.moveLog = d.state.moveLog ++ ops.filterMap DriveOp.move? ∧
      d'.state.contentLog =
        (ops.filterMap DriveOp.content?).foldl (deliver StampedContentOp.ts) d.state.contentLog := by
  induction ops generalizing d with
  | nil =>
    obtain rfl := Option.some_injective _ hr
    simp [h]
  | cons r ops ih =>
    obtain ⟨d₁, h₁, hrest⟩ := Runs.cons_eq_some.1 hr
    have hrest : d₁.receiveAll ops = some d' := hrest
    cases r with
    | move op =>
      obtain ⟨hinv, hmoves, hcontent⟩ := ih (h.applyRemoteMove h₁) hrest
      refine ⟨hinv, ?_, ?_⟩
      · rw [hmoves, applyRemoteMove_eq_some h₁]
        simp [DriveOp.move?]
      · rw [hcontent, applyRemoteMove_eq_some h₁]
        rfl
    | content s =>
      obtain ⟨hinv, hmoves, hcontent⟩ := ih (h.applyRemoteContent h₁) hrest
      refine ⟨hinv, ?_, ?_⟩
      · rw [hmoves, applyRemoteContent_eq_some h₁]
        rfl
      · rw [hcontent, applyRemoteContent_eq_some h₁]
        rfl

end Drive

end CeDrive
