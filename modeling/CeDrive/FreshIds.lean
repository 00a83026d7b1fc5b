import CeDrive.Digits
import CeDrive.DriveRun

/-!
# Fresh ids

A drive as it is used from the command line : a sequence of processes, each starting from
the last saved state with the id counter at zero (`Session`). The id of a new node is its
Lamport tick and the counter, so it is new if its tick is later than that of every id the
drive still holds.

Local operations keep the clock at or above all those ticks (`IdsBelow`). `compact` sets the
clock back to the number of operations it emits, and need not. In a run where every
compaction leaves the clock at or above the ticks of the ids it keeps, and ticks fit the
twelve digits they are printed in, every minted id is new (`mints_fresh`); otherwise a
creation can take over a node that is there (`mints_captures`).
-/

open Std SortedLog Relation

namespace CeDrive

/-! ## Ids -/

theorem toList_freshNodeId (lamport ctr : ℕ) : (freshNodeId lamport ctr).1.toList =
    (Nat.toDigits 16 lamport).leftpad 12 '0' ++ (Nat.toDigits 16 ctr).leftpad 8 '0' := by
  simp [freshNodeId, hexPad]

/-- An id determines its tick, if the tick fits its field. -/
theorem tick_injective {l l' c c' : ℕ} (hl : l < 16 ^ 12) (hl' : l' < 16 ^ 12)
    (h : (freshNodeId l c).1 = (freshNodeId l' c').1) : l = l' := by
  have hlist := congrArg String.toList h
  rw [toList_freshNodeId, toList_freshNodeId] at hlist
  refine Digits.leftpad_toDigits_injective (b := 16) (by omega) le_rfl 12 (List.append_inj hlist ?_).1
  rw [Digits.length_leftpad_toDigits (by omega) (by omega) hl,
    Digits.length_leftpad_toDigits (by omega) (by omega) hl']

/-- An id has at least twenty digits, more than the name of a special node. -/
theorem freshNodeId_ne {s : NodeId} (hs : s.toList.length < 20) (l c : ℕ) :
    (freshNodeId l c).1 ≠ s := by
  rintro rfl
  rw [toList_freshNodeId, List.length_append, List.length_leftpad, List.length_leftpad] at hs
  omega

/-- The trash, or an id minted at a tick up to `lamport`. -/
def MintedBy (lamport : ℕ) (n : NodeId) : Prop :=
  n = TRASH ∨ ∃ l c, n = (freshNodeId l c).1 ∧ l ≤ lamport ∧ l < 16 ^ 12

theorem MintedBy.mono {l l' : ℕ} {n : NodeId} (h : MintedBy l n) (hl : l ≤ l') : MintedBy l' n :=
  h.imp_right fun ⟨k, c, hn, hk, hfit⟩ => ⟨k, c, hn, hk.trans hl, hfit⟩

/-- Every id in the logs was minted at a tick the clock has reached. -/
def DriveState.IdsBelow (s : DriveState) : Prop :=
  ∀ n, s.Mentions n → MintedBy s.lamport n

namespace Drive

variable {d d' : Drive} {ctr ctr' : ℕ} {n : NodeId}

/-- The next id is new. -/
theorem Inv.nextId_fresh (h : d.Inv) (hids : d.state.IdsBelow)
    (hfit : d.state.lamport + 1 < 16 ^ 12) :
    d.tree.edges[d.nextId ctr]? = none ∧ d.content[d.nextId ctr]? = none := by
  have hnew : ¬d.state.Mentions (d.nextId ctr) := by
    intro hm
    rcases hids _ hm with ht | ⟨l, c, heq, hl, hlfit⟩
    · exact freshNodeId_ne (by decide) _ _ ht
    · have := tick_injective hfit hlfit heq
      omega
  refine ⟨?_, ?_⟩
  · by_contra hne
    obtain ⟨e, he⟩ := Option.ne_none_iff_exists'.1 hne
    exact hnew (h.mentions_of_edge he)
  · by_contra hne
    obtain ⟨c, hc⟩ := Option.ne_none_iff_exists'.1 hne
    exact hnew (h.mentions_of_content hc)

/-- An append names an id that is in the logs, or the minted one. -/
theorem idsBelow_emits {new : Option NodeId} {unchecked : Prop} (he : Emits new unchecked d d')
    (hids : d.state.IdsBelow) (hchecked : ¬unchecked)
    (hnew : ∀ id, new = some id → MintedBy (d.state.lamport + 1) id) : d'.state.IdsBelow := by
  cases he with
  | move child newParent newName kind h =>
    intro n hn
    rcases mentions_moved.1 hn with hn | rfl
    · exact (hids n hn).mono (Nat.le_succ _)
    · rcases h with h | h | h
      · exact (hids _ h).mono (Nat.le_succ _)
      · exact Or.inl h
      · exact hnew _ h
  | content op h =>
    intro n hn
    rcases mentions_wrote.1 hn with hn | rfl
    · exact (hids n hn).mono (Nat.le_succ _)
    · exact (hids _ (h.resolve_left hchecked)).mono (Nat.le_succ _)

theorem lamport_emits {new : Option NodeId} {unchecked : Prop} (he : Emits new unchecked d d') :
    d'.state.lamport = d.state.lamport + 1 := by
  cases he <;> rfl

/-- A local operation keeps the ids below the clock. -/
theorem Inv.idsBelow_exec (h : d.Inv) (hids : d.state.IdsBelow) {op : LocalOp}
    (hop : ¬op.Unchecked) (hfit : ∀ id, d.mints ctr op = some id → d.state.lamport + 1 < 16 ^ 12)
    (he : d.exec ctr op = some (d', ctr')) : d'.state.IdsBelow := by
  have hrun := h.emits_exec he
  clear he
  suffices d'.state.IdsBelow ∧ d.state.lamport ≤ d'.state.lamport from this.1
  induction hrun with
  | refl => exact ⟨hids, le_rfl⟩
  | @tail d₁ d₂ _ hstep ih =>
    refine ⟨idsBelow_emits hstep ih.1 hop fun id hid => ?_, by rw [lamport_emits hstep]; omega⟩
    rw [mints_eq_some hid]
    exact Or.inr ⟨_, ctr, rfl, Nat.succ_le_succ ih.2, hfit id hid⟩

/-! ## Compaction -/

/-- The number of operations the live nodes and their histories take. -/
def liveOps (d : Drive) : ℕ :=
  (d.visits.map d.weight).sum

theorem lamport_compact (d : Drive) : d.compact.state.lamport = d.liveOps := by
  have h : d.compact.state.lamport = d.compacted.lamport := rfl
  rw [h, compacted_eq_foldl, lamport_foldl_emit, Nat.zero_add, liveOps]

/-- The compacted logs name kept nodes only. -/
theorem Inv.kept_of_mentions_compact (h : d.Inv) (hn : d.compact.state.Mentions n) : d.tree.Kept n := by
  have hvisit : ∀ v ∈ d.visits, d.tree.Kept v.1 := fun v hv =>
    ((mem_visits h.replayed.mirror h.replayed.grounded).1 (hv : (v.1, v.2) ∈ d.visits)).2
  have hlogs : d.compact.state.moveLog = d.compacted.moves ∧
      d.compact.state.contentLog = d.compacted.content := ⟨rfl, rfl⟩
  rw [compacted_eq_foldl] at hlogs
  rcases hn with ⟨op, hop, rfl⟩ | ⟨s, hs, rfl⟩
  · have hmap := List.mem_map_of_mem (f := fun op : MoveOp => (op.child, op.edge)) hop
    rw [hlogs.1, map_moves_foldl_emit, List.map_nil, List.nil_append] at hmap
    exact hvisit _ hmap
  · have hmap := List.mem_map_of_mem (f := StampedContentOp.op) hs
    rw [hlogs.2, map_content_foldl_emit, List.map_nil, List.nil_append] at hmap
    obtain ⟨v, hv, hop⟩ := List.mem_flatMap.1 hmap
    rw [target_of_mem_recordOps hop]
    exact hvisit v hv

/-- Compaction keeps the ids below the clock if the clock does not fall under the tick of a
kept id. -/
theorem Inv.idsBelow_compact (h : d.Inv) (hids : d.state.IdsBelow)
    (hclock : ∀ l c, l < 16 ^ 12 → d.tree.Kept (freshNodeId l c).1 → l ≤ d.liveOps) :
    d.compact.state.IdsBelow := by
  intro n hn
  have hkept := h.kept_of_mentions_compact hn
  obtain ⟨e, he⟩ := hkept.exists_edge
  rw [lamport_compact]
  refine (hids n (h.mentions_of_edge he)).imp_right ?_
  rintro ⟨l, c, rfl, -, hfit⟩
  exact ⟨l, c, rfl, hclock l c hfit hkept, hfit⟩

end Drive

/-! ## Sessions -/

/-- A drive in a process, the id counter of the process, and the state on disk. -/
structure Session where
  drive : Drive
  ctr : ℕ
  saved : DriveState

/-- What happens over the processes that use a drive. -/
inductive SessionEvent
  | exec (op : LocalOp) (h : ¬op.Unchecked)
  | compact
  | save
  | restart

namespace Session

variable {s s' : Session}

/-- A fresh drive, saved. -/
def start (name : String) (replica : ReplicaId) : Session :=
  ⟨Drive.init name replica, 0, (Drive.init name replica).state⟩

def perform (s : Session) : SessionEvent → Option Session
  | .exec op _ => (s.drive.exec s.ctr op).map fun r => ⟨r.1, r.2, s.saved⟩
  | .compact => some { s with drive := s.drive.compact }
  | .save => some { s with saved := s.drive.state }
  | .restart => some ⟨Drive.fromState s.saved, 0, s.saved⟩

def performAll (s : Session) (es : List SessionEvent) : Option Session :=
  es.foldlM perform s

/-- The id an operation mints, if any, is that of no node and of no content record. -/
def MintsFresh (s : Session) (op : LocalOp) : Prop :=
  ∀ id, s.drive.mints s.ctr op = some id →
    s.drive.tree.edges[id]? = none ∧ s.drive.content[id]? = none

/-- Ticks fit their field, and compaction leaves the clock at or above the tick of every
kept id. -/
def KeepsTicks (s : Session) : SessionEvent → Prop
  | .exec op _ => ∀ id, s.drive.mints s.ctr op = some id → s.drive.state.lamport + 1 < 16 ^ 12
  | .compact => ∀ l c, l < 16 ^ 12 → s.drive.tree.Kept (freshNodeId l c).1 → l ≤ s.drive.liveOps
  | .save => True
  | .restart => True

/-- The drive in memory and the one on disk keep their ids below their clocks. -/
structure Inv (s : Session) : Prop where
  drive : s.drive.Inv
  ids : s.drive.state.IdsBelow
  saved : (Drive.fromState s.saved).Inv
  savedIds : s.saved.IdsBelow

theorem inv_start (name : String) (replica : ReplicaId) : (start name replica).Inv := by
  have hids : (Drive.init name replica).state.IdsBelow := by
    rintro n (⟨op, hop, -⟩ | ⟨o, ho, -⟩)
    · exact absurd hop List.not_mem_nil
    · exact absurd ho List.not_mem_nil
  have hinv := Drive.inv_init name replica
  exact ⟨hinv, hids, hinv.fromState_eq.symm ▸ hinv, hids⟩

theorem Inv.perform (h : s.Inv) {e : SessionEvent} (hok : s.KeepsTicks e)
    (he : s.perform e = some s') : s'.Inv := by
  cases e with
  | exec op hop =>
    obtain ⟨⟨d, ctr⟩, hd, rfl⟩ := Option.map_eq_some_iff.1 he
    exact ⟨h.drive.exec hd, h.drive.idsBelow_exec h.ids hop hok hd, h.saved, h.savedIds⟩
  | compact =>
    obtain rfl := Option.some_injective _ he
    exact ⟨Drive.inv_compact _, h.drive.idsBelow_compact h.ids hok, h.saved, h.savedIds⟩
  | save =>
    obtain rfl := Option.some_injective _ he
    exact ⟨h.drive, h.ids, h.drive.fromState_eq.symm ▸ h.drive, h.ids⟩
  | restart =>
    obtain rfl := Option.some_injective _ he
    exact ⟨h.saved, h.savedIds, h.saved, h.savedIds⟩

/-- Every step of the run from `s` meets the condition. -/
def RunKeepsTicks : Session → List SessionEvent → Prop
  | _, [] => True
  | s, e :: es => s.KeepsTicks e ∧ ∀ s', s.perform e = some s' → RunKeepsTicks s' es

theorem condition : Runs.Condition perform KeepsTicks RunKeepsTicks :=
  ⟨fun _ => trivial, fun _ _ _ => Iff.rfl⟩

theorem Inv.performAll (h : s.Inv) {es : List SessionEvent} (hok : s.RunKeepsTicks es)
    (he : s.performAll es = some s') : s'.Inv :=
  condition.invariant Session.Inv h hok he fun _ _ _ h hok he => h.perform hok he

/-- Fresh ids. In a run of processes whose compactions keep the clock at or above the ticks
of the ids they keep, no operation mints the id of a node or of a content record. -/
theorem mints_fresh (name : String) (replica : ReplicaId) (pre post : List SessionEvent)
    (op : LocalOp) (hop : ¬op.Unchecked) (s : Session)
    (hok : (start name replica).RunKeepsTicks (pre ++ .exec op hop :: post))
    (hs : (start name replica).performAll pre = some s) : s.MintsFresh op := by
  obtain ⟨hpre, hticks, -⟩ := (condition.append_iff hs).1 hok
  have hinv := (inv_start name replica).performAll hpre hs
  intro id hid
  obtain rfl := Drive.mints_eq_some hid
  exact hinv.drive.nextId_fresh hinv.ids (hticks _ hid)

/-- Two directories created by two processes. -/
theorem mints_fresh_restart :
    let es : List SessionEvent := [.exec (.mkdir "/" "a") id, .save, .restart]
    let s := ((start "d" "a").performAll es).get (by decide +kernel)
    s.MintsFresh (.mkdir "/" "b") := by
  intro es s
  refine mints_fresh "d" "a" es [] (.mkdir "/" "b") id s ?_ (Option.some_get _).symm
  refine condition.cons_of (fun _ _ => by decide) (by decide +kernel) ?_
  refine condition.cons_of trivial rfl (condition.cons_of trivial rfl ?_)
  refine condition.cons_of (fun _ _ => ?_) (by decide +kernel) trivial
  decide +kernel

/-- Six processes : a directory is created and deleted, another created, the drive is
compacted, and the directory renamed. -/
def compactedRun : List SessionEvent :=
  [.exec (.mkdir "/" "a") id, .save, .restart, .exec (.rm "/a") id, .save, .restart,
    .exec (.mkdir "/" "b") id, .save, .restart, .compact, .save, .restart,
    .exec (.mv "/b" "/" "b2") id, .save, .restart]

/-- The next directory takes over the renamed one. -/
theorem mints_captures :
    let s := ((start "d" "a").performAll compactedRun).get (by decide +kernel)
    ¬s.MintsFresh (.mkdir "/" "d") := by
  intro s h
  have hid : s.drive.mints s.ctr (.mkdir "/" "d") = some "00000000000300000000" := by decide +kernel
  have hedge : (s.drive.tree.edges["00000000000300000000"]?).isSome = true := by decide +kernel
  rw [(h _ hid).1] at hedge
  cases hedge

end Session

end CeDrive
