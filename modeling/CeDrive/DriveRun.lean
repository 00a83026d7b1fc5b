import CeDrive.Compaction
import CeDrive.Convergence
import CeDrive.Runs

/-!
# Runs of a drive

`LocalOp` is the public operations of one writer, `exec` performs one. However an
operation chooses what to do, it does it by ticking the clock and appending to one of the
two logs : `moved` and `wrote` are the drives after one append, each operation has an
inversion lemma in these terms, and `emits_exec` sums them up. Invariants are proved for an
append and hold for every operation.

`Drive.Inv` is the invariant of all reachable drives : the live views are the replay of the
two logs, the content log is strictly ascending, and the clock dominates both logs. The
last makes the shortcuts right : a local operation is later than all that is known, so it
may be applied without sorting (`live_eq_replay`).
-/

open Std SortedLog Relation

namespace CeDrive

/-- A local operation with its arguments. `restoreVersion` also takes the wall clock. -/
inductive LocalOp
  | mkdir (parentPath name : String)
  | addFile (parentPath name : String) (content : FileContent)
  | mv (srcPath dstParentPath dstName : String)
  | rm (path : String)
  | restore (nodeId : NodeId) (dstParentPath dstName : Option String)
  | emptyTrash
  | gcTrash (nowSecs retentionSecs : ℕ)
  | setContent (id : NodeId) (content : FileContent)
  | restoreVersion (path cid : String) (nowMs : ℕ)

/-- Only `setContent` names the node it writes without looking it up. -/
def LocalOp.Unchecked : LocalOp → Prop
  | .setContent .. => True
  | _ => False

/-- A log names `n` : the node was moved, or its content was written. -/
def DriveState.Mentions (s : DriveState) (n : NodeId) : Prop :=
  (∃ op ∈ s.moveLog, op.child = n) ∨ ∃ o ∈ s.contentLog, o.op.target = n

namespace Drive

variable {d d' : Drive} {ctr : ℕ} {n : NodeId}

/-- Perform a local operation, from a drive and an id counter to those after it. An
operation that returns an error is performed too. -/
def exec (d : Drive) (ctr : ℕ) : LocalOp → Option (Drive × ℕ)
  | .mkdir parentPath name => (d.mkdir ctr parentPath name).map Prod.snd
  | .addFile parentPath name content => (d.addFile ctr parentPath name content).map Prod.snd
  | .mv src dstParent dstName => (d.mv src dstParent dstName).map fun r => (r.2, ctr)
  | .rm path => (d.rm path).map fun r => (r.2, ctr)
  | .restore id dstParent dstName => (d.restore id dstParent dstName).map fun r => (r.2, ctr)
  | .emptyTrash => d.emptyTrash.map fun r => (r.2, ctr)
  | .gcTrash now retention => (d.gcTrash now retention).map fun r => (r.2, ctr)
  | .setContent id content => (d.setContent id content).map fun r => (r, ctr)
  | .restoreVersion path cid now => (d.restoreVersion path cid now).map fun r => (r.2, ctr)

/-! ## One append -/

/-- The timestamp of the next local operation. -/
def nextTs (d : Drive) : Timestamp :=
  ⟨d.state.lamport + 1, d.state.replica⟩

/-- The id the next creation mints. -/
def nextId (d : Drive) (ctr : ℕ) : NodeId :=
  (freshNodeId (d.state.lamport + 1) ctr).1

/-- The id that a creating `mkdir` or `addFile` mints. -/
def mints (d : Drive) (ctr : ℕ) : LocalOp → Option NodeId
  | .mkdir parentPath name =>
    match d.mkdirCheck parentPath name with
    | .ok _ => some (d.nextId ctr)
    | .error _ => none
  | .addFile parentPath name _ =>
    match d.addFileCheck parentPath name with
    | .ok (_, none) => some (d.nextId ctr)
    | _ => none
  | _ => none

theorem mints_eq_some {op : LocalOp} (h : d.mints ctr op = some n) : n = d.nextId ctr := by
  unfold mints at h
  split at h
  · split at h
    · exact (Option.some_injective _ h).symm
    · cases h
  · split at h
    · exact (Option.some_injective _ h).symm
    · cases h
  · cases h

/-- The drive after its next move. -/
def moved (d : Drive) (child newParent : NodeId) (newName : String) (kind : NodeKind) : Drive :=
  { d with state := { d.state with lamport := d.state.lamport + 1 } }.pushMove
    ⟨d.nextTs, child, newParent, newName, kind⟩

/-- The drive after its next content operation. -/
def wrote (d : Drive) (op : ContentOp) : Drive :=
  { d with
    content := d.content.apply op
    state := { d.state with
      lamport := d.state.lamport + 1
      contentLog := d.state.contentLog ++ [⟨d.nextTs, op⟩] } }

theorem tick_eq_some {r : Timestamp × Drive} (h : d.tick = some r) :
    r = (d.nextTs, { d with state := { d.state with lamport := d.state.lamport + 1 } }) := by
  unfold tick at h
  obtain ⟨l, hl, h⟩ := Option.bind_eq_some_iff.1 h
  obtain rfl := checkedSucc_eq_some hl
  exact (Option.some_injective _ h).symm

theorem relocate_eq_some {child newParent : NodeId} {newName : String} {kind : NodeKind}
    (h : d.relocate child newParent newName kind = some d') :
    d' = d.moved child newParent newName kind := by
  unfold relocate at h
  obtain ⟨r, ht, h⟩ := Option.bind_eq_some_iff.1 h
  obtain rfl := tick_eq_some ht
  exact (Option.some_injective _ h).symm

theorem pushContent_eq_some {op : ContentOp} (h : d.pushContent op = some d') : d' = d.wrote op := by
  unfold pushContent at h
  obtain ⟨r, ht, h⟩ := Option.bind_eq_some_iff.1 h
  obtain rfl := tick_eq_some ht
  exact (Option.some_injective _ h).symm

/-! ## What each operation does -/

theorem resolveDir_eq_ok {path : String} (h : d.resolveDir path = .ok n) :
    d.tree.resolve path = some n ∧ (n = ROOT ∨ (d.tree.edge n).map Edge.kind = some .dir) := by
  unfold resolveDir at h
  split at h
  · cases h
  · rename_i node hres
    split_ifs at h with hdir
    obtain rfl := Except.ok.inj h
    refine ⟨hres, or_iff_not_imp_left.2 fun hne => ?_⟩
    by_contra hk
    exact hdir ⟨hne, hk⟩

theorem resolveNode_eq_ok {path action : String} (h : d.resolveNode path action = .ok n) :
    d.tree.resolve path = some n ∧ n ≠ ROOT := by
  unfold resolveNode at h
  split at h
  · cases h
  · rename_i node hres
    split_ifs at h with hroot
    obtain rfl := Except.ok.inj h
    exact ⟨hres, hroot⟩

theorem childNamed_eq_some {parent : NodeId} {name : String} (h : d.childNamed parent name = some n) :
    (name, n) ∈ d.tree.rawChildren parent ∧ d.tree.isTrashed n = false := by
  unfold childNamed at h
  obtain ⟨⟨name', c⟩, hf, rfl⟩ := Option.map_eq_some_iff.1 h
  have hp := List.find?_some hf
  simp only [Bool.and_eq_true, decide_eq_true_eq, Bool.not_eq_true'] at hp
  obtain ⟨rfl, htr⟩ := hp
  exact ⟨List.mem_of_find?_eq_some hf, htr⟩

theorem mkdir_eq_some {parentPath name : String} {r : Except String NodeId × Drive × ℕ}
    (h : d.mkdir ctr parentPath name = some r) :
    (∃ e, d.mkdirCheck parentPath name = .error e ∧ r = (.error e, d, ctr)) ∨
    ∃ parent, d.mkdirCheck parentPath name = .ok parent ∧
      r = (.ok (d.nextId ctr), d.moved (d.nextId ctr) parent name .dir, (ctr + 1) % 2 ^ 64) := by
  unfold mkdir at h
  split at h
  · rename_i e hc
    exact Or.inl ⟨e, hc, (Option.some_injective _ h).symm⟩
  · rename_i parent hc
    obtain ⟨s, ht, h⟩ := Option.bind_eq_some_iff.1 h
    obtain rfl := tick_eq_some ht
    exact Or.inr ⟨parent, hc, (Option.some_injective _ h).symm⟩

theorem addFile_eq_some {parentPath name : String} {content : FileContent}
    {r : Except String NodeId × Drive × ℕ} (h : d.addFile ctr parentPath name content = some r) :
    (∃ e, d.addFileCheck parentPath name = .error e ∧ r = (.error e, d, ctr)) ∨
    (∃ parent existing, d.addFileCheck parentPath name = .ok (parent, some existing) ∧
      r = (.ok existing, d.wrote (setOp existing content), ctr)) ∨
    ∃ parent, d.addFileCheck parentPath name = .ok (parent, none) ∧
      r = (.ok (d.nextId ctr), (d.moved (d.nextId ctr) parent name .file).wrote
        (setOp (d.nextId ctr) content), (ctr + 1) % 2 ^ 64) := by
  unfold addFile at h
  split at h
  · rename_i e hc
    exact Or.inl ⟨e, hc, (Option.some_injective _ h).symm⟩
  · rename_i parent existing hc
    obtain ⟨d₁, hw, h⟩ := Option.bind_eq_some_iff.1 h
    obtain rfl := pushContent_eq_some hw
    exact Or.inr (Or.inl ⟨parent, existing, hc, (Option.some_injective _ h).symm⟩)
  · rename_i parent hc
    obtain ⟨s, ht, h⟩ := Option.bind_eq_some_iff.1 h
    obtain rfl := tick_eq_some ht
    obtain ⟨d₁, hw, h⟩ := Option.bind_eq_some_iff.1 h
    obtain rfl := pushContent_eq_some hw
    exact Or.inr (Or.inr ⟨parent, hc, (Option.some_injective _ h).symm⟩)

/-- `mkdir` takes a valid name that no child of the directory has. -/
theorem mkdirCheck_eq_ok {parentPath name : String} {parent : NodeId} :
    d.mkdirCheck parentPath name = .ok parent ↔ checkName name = .ok () ∧
      d.resolveDir parentPath = .ok parent ∧ d.childNamed parent name = none := by
  unfold mkdirCheck
  cases hn : checkName name with
  | error e => simp [bind, Except.bind]
  | ok =>
    cases hp : d.resolveDir parentPath with
    | error e => simp [bind, Except.bind]
    | ok p =>
      cases hc : d.childNamed p name <;>
        simp only [hc, bind, Except.bind, pure, Except.pure, throw, throwThe, MonadExceptOf.throw,
          Option.isSome_none, Option.isSome_some, if_true, Bool.false_eq_true, if_false,
          Except.ok.injEq, reduceCtorEq, true_and, false_iff, not_and]
      · exact ⟨fun h => ⟨h, h ▸ hc⟩, And.left⟩
      · rintro rfl
        simp [hc]

/-- `add_file` takes a valid name that no directory among the children has. -/
theorem addFileCheck_eq_ok {parentPath name : String} {parent : NodeId} {existing : Option NodeId} :
    d.addFileCheck parentPath name = .ok (parent, existing) ↔ checkName name = .ok () ∧
      d.resolveDir parentPath = .ok parent ∧ d.childNamed parent name = existing ∧
      ∀ x, existing = some x → (d.tree.edge x).map Edge.kind = some .file := by
  unfold addFileCheck
  cases hn : checkName name with
  | error e => simp [bind, Except.bind]
  | ok =>
    cases hp : d.resolveDir parentPath with
    | error e => simp [bind, Except.bind]
    | ok p =>
      simp only [bind, Except.bind, pure, Except.pure, true_and]
      constructor
      · intro h
        split at h
        · rename_i hc
          obtain ⟨rfl, rfl⟩ := Prod.mk.inj (Except.ok.inj h)
          exact ⟨rfl, hc, by simp⟩
        · rename_i x hc
          split_ifs at h with hk
          obtain ⟨rfl, rfl⟩ := Prod.mk.inj (Except.ok.inj h)
          exact ⟨rfl, hc, by simpa using hk⟩
      · rintro ⟨hparent, rfl, hk⟩
        obtain rfl := Except.ok.inj hparent
        cases hc : d.childNamed p name with
        | none => rfl
        | some x => simp [hk x hc]

theorem resolveDir_of_mkdirCheck {parentPath name : String} {parent : NodeId}
    (h : d.mkdirCheck parentPath name = .ok parent) : d.resolveDir parentPath = .ok parent :=
  (mkdirCheck_eq_ok.1 h).2.1

theorem resolveDir_of_addFileCheck {parentPath name : String} {parent : NodeId}
    {existing : Option NodeId} (h : d.addFileCheck parentPath name = .ok (parent, existing)) :
    d.resolveDir parentPath = .ok parent :=
  (addFileCheck_eq_ok.1 h).2.1

/-- A file found by `add_file` is a listed child. -/
theorem addFileCheck_eq_some {parentPath name : String} {parent existing : NodeId}
    (h : d.addFileCheck parentPath name = .ok (parent, some existing)) :
    (name, existing) ∈ d.tree.rawChildren parent :=
  (childNamed_eq_some (addFileCheck_eq_ok.1 h).2.2.1).1

theorem mv_eq_some {src dstParent dstName : String} {r : Except String Unit × Drive}
    (h : d.mv src dstParent dstName = some r) :
    (∃ e, d.mvCheck src dstParent dstName = .error e ∧ r = (.error e, d)) ∨
    ∃ node parent, d.mvCheck src dstParent dstName = .ok (node, parent) ∧
      r = (.ok (), d.moved node parent dstName (d.tree.kindOf node)) := by
  unfold mv at h
  split at h
  · rename_i e hc
    exact Or.inl ⟨e, hc, (Option.some_injective _ h).symm⟩
  · rename_i node parent hc
    obtain ⟨d₁, hm, h⟩ := Option.bind_eq_some_iff.1 h
    obtain rfl := relocate_eq_some hm
    exact Or.inr ⟨node, parent, hc, (Option.some_injective _ h).symm⟩

theorem mvCheck_eq_ok {src dstParent dstName : String} {node parent : NodeId}
    (h : d.mvCheck src dstParent dstName = .ok (node, parent)) :
    checkName dstName = .ok () ∧ d.resolveNode src "move" = .ok node ∧
      d.resolveDir dstParent = .ok parent := by
  unfold mvCheck at h
  cases hn : checkName dstName with
  | error e => simp [hn, bind, Except.bind] at h
  | ok =>
    cases hs : d.resolveNode src "move" with
    | error e => simp [hn, hs, bind, Except.bind] at h
    | ok x =>
      cases hp : d.resolveDir dstParent with
      | error e => simp [hn, hs, hp, bind, Except.bind] at h
      | ok p =>
        simp only [hn, hs, hp, bind, Except.bind, pure, Except.pure] at h
        obtain ⟨rfl, rfl⟩ := Prod.mk.inj (Except.ok.inj h)
        exact ⟨rfl, rfl, rfl⟩

theorem rm_eq_some {path : String} {r : Except String Unit × Drive} (h : d.rm path = some r) :
    (∃ e, d.resolveNode path "delete" = .error e ∧ r = (.error e, d)) ∨
    ∃ node, d.resolveNode path "delete" = .ok node ∧
      r = (.ok (), d.moved node TRASH (d.nameOf node) (d.tree.kindOf node)) := by
  unfold rm at h
  split at h
  · rename_i e hc
    exact Or.inl ⟨e, hc, (Option.some_injective _ h).symm⟩
  · rename_i node hc
    obtain ⟨d₁, hm, h⟩ := Option.bind_eq_some_iff.1 h
    obtain rfl := relocate_eq_some hm
    exact Or.inr ⟨node, hc, (Option.some_injective _ h).symm⟩

/-- `restore` takes a trashed node, a valid name that no child of the directory has. -/
theorem restoreCheck_eq_ok {id parent : NodeId} {dstParent dstName : Option String} {name : String}
    (h : d.restoreCheck id dstParent dstName = .ok (parent, name)) : d.tree.isTrashed id = true ∧
      checkName name = .ok () ∧ d.resolveDir (dstParent.getD "/") = .ok parent ∧
      d.childNamed parent name = none ∧ name = dstName.getD (d.nameOf id) := by
  unfold restoreCheck at h
  by_cases htr : d.tree.isTrashed id = true
  · simp only [htr, Bool.not_true, Bool.false_eq_true, if_false, bind, Except.bind] at h
    cases hn : checkName (dstName.getD (d.nameOf id)) with
    | error e => simp [hn] at h
    | ok =>
      cases hp : d.resolveDir (dstParent.getD "/") with
      | error e => simp [hn, hp] at h
      | ok p =>
        cases hc : d.childNamed p (dstName.getD (d.nameOf id)) with
        | some x => simp [hn, hp, hc, throw, throwThe, MonadExceptOf.throw] at h
        | none =>
          simp only [hn, hp, hc, Option.isSome_none, Bool.false_eq_true, if_false, pure,
            Except.pure] at h
          obtain ⟨rfl, rfl⟩ := Prod.mk.inj (Except.ok.inj h)
          exact ⟨htr, hn, rfl, hc, rfl⟩
  · simp [htr, throw, throwThe, MonadExceptOf.throw, bind, Except.bind] at h

theorem restore_eq_some {id : NodeId} {dstParent dstName : Option String}
    {r : Except String Unit × Drive} (h : d.restore id dstParent dstName = some r) :
    (∃ e, d.restoreCheck id dstParent dstName = .error e ∧ r = (.error e, d)) ∨
    ∃ parent name, d.restoreCheck id dstParent dstName = .ok (parent, name) ∧
      d.tree.isTrashed id = true ∧
      r = (.ok (), d.moved id parent name (d.tree.kindOf id)) := by
  unfold restore at h
  split at h
  · rename_i e hc
    exact Or.inl ⟨e, hc, (Option.some_injective _ h).symm⟩
  · rename_i parent name hc
    obtain ⟨d₁, hm, h⟩ := Option.bind_eq_some_iff.1 h
    obtain rfl := relocate_eq_some hm
    exact Or.inr ⟨parent, name, hc, (restoreCheck_eq_ok hc).1, (Option.some_injective _ h).symm⟩

theorem hardDeleteOne_eq_some {id : NodeId} (h : d.hardDeleteOne id = some d') :
    let d₁ := d.moved id LIMBO id (d.tree.kindOf id)
    d' = if (d.content[id]?).isSome then d₁.wrote (.remove id) else d₁ := by
  unfold hardDeleteOne at h
  obtain ⟨d₁, hm, h⟩ := Option.bind_eq_some_iff.1 h
  obtain rfl := relocate_eq_some hm
  split_ifs at h with hc
  · exact (pushContent_eq_some h).trans (if_pos hc).symm
  · exact (Option.some_injective _ h).symm.trans (if_neg hc).symm

theorem restoreVersion_eq_some {path cid : String} {now : ℕ} {r : Except String Unit × Drive}
    (h : d.restoreVersion path cid now = some r) :
    (∃ e, (∀ node, d.tree.resolve path = some node → d.content[node]? = none) ∧
      r = (.error e, d)) ∨ ∃ node c, d.tree.resolve path = some node ∧
      d.content[node]? = some c ∧ r = (.ok (), d.wrote (.restore node cid now)) := by
  unfold restoreVersion at h
  split at h
  · rename_i hres
    exact Or.inl ⟨_, fun node hnode => absurd hnode (by simp [hres]), (Option.some_injective _ h).symm⟩
  · rename_i node hres
    split_ifs at h with hc
    · refine Or.inl ⟨_, fun node' hnode => ?_, (Option.some_injective _ h).symm⟩
      obtain rfl := Option.some_injective _ (hres.symm.trans hnode)
      exact Option.isNone_iff_eq_none.1 hc
    · obtain ⟨d₁, hw, h⟩ := Option.bind_eq_some_iff.1 h
      obtain rfl := pushContent_eq_some hw
      obtain ⟨c, hc⟩ : ∃ c, d.content[node]? = some c :=
        Option.ne_none_iff_exists'.1 fun hn => hc (by simp [hn])
      exact Or.inr ⟨node, c, hres, hc, (Option.some_injective _ h).symm⟩

theorem applyRemoteMove_eq_some {op : MoveOp} (h : d.applyRemoteMove op = some d') :
    d' = { d with
      tree := d.tree.apply op
      state := { d.state with
        lamport := max d.state.lamport op.ts.lamport + 1
        moveLog := d.state.moveLog ++ [op] } } := by
  unfold applyRemoteMove at h
  obtain ⟨l, hl, h⟩ := Option.bind_eq_some_iff.1 h
  obtain rfl := checkedSucc_eq_some hl
  exact (Option.some_injective _ h).symm

/-- A content operation that is new is delivered to the log and its target is refolded. -/
theorem applyRemoteContent_eq_some {op : StampedContentOp} (h : d.applyRemoteContent op = some d') :
    let log := deliver StampedContentOp.ts d.state.contentLog op
    d' = { d with
      content := if log = d.state.contentLog then d.content else refoldKey d.content log op.op.target
      state := { d.state with
        lamport := max d.state.lamport op.ts.lamport + 1
        contentLog := log } } := by
  unfold applyRemoteContent at h
  obtain ⟨l, hl, h⟩ := Option.bind_eq_some_iff.1 h
  obtain rfl := checkedSucc_eq_some hl
  dsimp only at h
  simp only [deliver]
  split_ifs at h with hdup
  · simp only [if_pos hdup]
    exact (Option.some_injective _ h).symm
  · have hne : d.state.contentLog.take (partitionPoint (fun z => z.ts < op.ts) d.state.contentLog) ++
        op :: d.state.contentLog.drop (partitionPoint (fun z => z.ts < op.ts) d.state.contentLog) ≠
          d.state.contentLog := by
      intro heq
      have hlen := congrArg List.length heq
      simp only [List.length_append, List.length_cons, List.length_take, List.length_drop] at hlen
      omega
    simp only [if_neg hdup, if_neg hne]
    exact (Option.some_injective _ h).symm

/-! ## Calls as appends -/

theorem tick_eq (d : Drive) : d.tick = (checkedSucc d.state.lamport).map fun _ =>
    (d.nextTs, { d with state := { d.state with lamport := d.state.lamport + 1 } }) := by
  rw [tick]
  cases hl : checkedSucc d.state.lamport with
  | none => rfl
  | some l =>
    obtain rfl := checkedSucc_eq_some hl
    rfl

theorem relocate_eq (d : Drive) (child newParent : NodeId) (newName : String) (kind : NodeKind) :
    d.relocate child newParent newName kind =
      (checkedSucc d.state.lamport).map fun _ => d.moved child newParent newName kind := by
  rw [relocate, tick_eq]
  cases checkedSucc d.state.lamport <;> rfl

theorem pushContent_eq (d : Drive) (op : ContentOp) :
    d.pushContent op = (checkedSucc d.state.lamport).map fun _ => d.wrote op := by
  rw [pushContent, tick_eq]
  cases checkedSucc d.state.lamport <;> rfl

theorem mkdir_of_ok {parentPath name : String} {parent : NodeId}
    (h : d.mkdirCheck parentPath name = .ok parent) :
    d.mkdir ctr parentPath name = (checkedSucc d.state.lamport).map fun _ =>
      (.ok (d.nextId ctr), d.moved (d.nextId ctr) parent name .dir, (ctr + 1) % 2 ^ 64) := by
  simp only [mkdir, h, tick_eq]
  cases checkedSucc d.state.lamport <;> rfl

theorem addFile_of_ok_some {parentPath name : String} {content : FileContent}
    {parent existing : NodeId} (h : d.addFileCheck parentPath name = .ok (parent, some existing)) :
    d.addFile ctr parentPath name content = (checkedSucc d.state.lamport).map fun _ =>
      (.ok existing, d.wrote (setOp existing content), ctr) := by
  simp only [addFile, h, pushContent_eq]
  cases checkedSucc d.state.lamport <;> rfl

theorem addFile_of_ok_none {parentPath name : String} {content : FileContent} {parent : NodeId}
    (h : d.addFileCheck parentPath name = .ok (parent, none)) :
    d.addFile ctr parentPath name content = (checkedSucc d.state.lamport).bind fun _ =>
      (checkedSucc (d.state.lamport + 1)).map fun _ => (.ok (d.nextId ctr),
        (d.moved (d.nextId ctr) parent name .file).wrote (setOp (d.nextId ctr) content),
        (ctr + 1) % 2 ^ 64) := by
  simp only [addFile, h, tick_eq]
  cases checkedSucc d.state.lamport with
  | none => rfl
  | some l =>
    have hmoved : { d with state := { d.state with lamport := d.state.lamport + 1 } }.pushMove
        ⟨d.nextTs, d.nextId ctr, parent, name, .file⟩ = d.moved (d.nextId ctr) parent name .file := rfl
    have hlamport : (d.moved (d.nextId ctr) parent name .file).state.lamport = d.state.lamport + 1 :=
      rfl
    have hid : (freshNodeId d.nextTs.lamport ctr).1 = d.nextId ctr := rfl
    simp only [Option.map_some, Option.bind_eq_bind, Option.bind_some, hid, hmoved, pushContent_eq,
      hlamport]
    cases checkedSucc (d.state.lamport + 1) <;> rfl

theorem mvCheck_eq_ok_iff {src dstParent dstName : String} {node parent : NodeId} :
    d.mvCheck src dstParent dstName = .ok (node, parent) ↔ checkName dstName = .ok () ∧
      d.resolveNode src "move" = .ok node ∧ d.resolveDir dstParent = .ok parent := by
  refine ⟨mvCheck_eq_ok, fun ⟨hn, hs, hp⟩ => ?_⟩
  rw [mvCheck, hn, hs, hp]
  rfl

theorem mv_of_ok {src dstParent dstName : String} {node parent : NodeId}
    (h : d.mvCheck src dstParent dstName = .ok (node, parent)) :
    d.mv src dstParent dstName = (checkedSucc d.state.lamport).map fun _ =>
      (.ok (), d.moved node parent dstName (d.tree.kindOf node)) := by
  simp only [mv, h, relocate_eq]
  cases checkedSucc d.state.lamport <;> rfl

theorem rm_of_ok {path : String} {node : NodeId} (h : d.resolveNode path "delete" = .ok node) :
    d.rm path = (checkedSucc d.state.lamport).map fun _ =>
      (.ok (), d.moved node TRASH (d.nameOf node) (d.tree.kindOf node)) := by
  simp only [rm, h, relocate_eq]
  cases checkedSucc d.state.lamport <;> rfl

/-! ## The invariant -/

/-- The live views are the replay of the logs, which the clock dominates. -/
structure Inv (d : Drive) : Prop where
  tree : d.tree = DriveTree.applyAll d.state.moveLog
  content : d.content = foldContent d.state.contentLog
  ascending : Ascending StampedContentOp.ts d.state.contentLog
  move_le : ∀ op ∈ d.state.moveLog, op.ts.lamport ≤ d.state.lamport
  content_le : ∀ s ∈ d.state.contentLog, s.ts.lamport ≤ d.state.lamport

theorem inv_init (name : String) (replica : ReplicaId) : (init name replica).Inv := by
  refine ⟨rfl, rfl, List.Pairwise.nil, ?_, ?_⟩ <;> simp [init]

theorem Inv.replayed (h : d.Inv) : d.tree.Replayed :=
  h.tree ▸ DriveTree.replayed_applyAll _

theorem Inv.getElem?_content (h : d.Inv) (n : NodeId) :
    d.content[n]? = foldRecord d.state.contentLog n := by
  rw [h.content, getElem?_foldContent h.ascending]

theorem Inv.fromState_eq (h : d.Inv) : fromState d.state = d := by
  rw [fromState, ← h.tree, ← h.content]

/-- A local move is later than the whole log, so it is performed at once. -/
theorem Inv.tree_moved (h : d.Inv) (child newParent : NodeId) (newName : String) (kind : NodeKind) :
    (d.moved child newParent newName kind).tree =
      d.tree.doPush ⟨d.nextTs, child, newParent, newName, kind⟩ := by
  refine DriveTree.apply_of_forall_lt fun o ho => ?_
  rw [h.tree, DriveTree.logOps_applyAll] at ho
  exact Timestamp.lt_of_lamport_lt (Nat.lt_succ_of_le (h.move_le o (mem_of_mem_deliverAll ho)))

theorem forall_mem_append_singleton {α : Type*} {P : α → Prop} {l : List α} {x : α} :
    (∀ y ∈ l ++ [x], P y) ↔ (∀ y ∈ l, P y) ∧ P x := by
  simp [or_imp, forall_and]

theorem Inv.moved (h : d.Inv) (child newParent : NodeId) (newName : String) (kind : NodeKind) :
    (d.moved child newParent newName kind).Inv where
  tree := by
    simp only [Drive.moved, pushMove, DriveTree.applyAll, List.foldl_append, List.foldl_cons,
      List.foldl_nil, h.tree]
  content := h.content
  ascending := h.ascending
  move_le := forall_mem_append_singleton.2
    ⟨fun op hop => (h.move_le op hop).trans (Nat.le_succ _), le_rfl⟩
  content_le s hs := (h.content_le s hs).trans (Nat.le_succ _)

theorem Inv.wrote (h : d.Inv) (op : ContentOp) : (d.wrote op).Inv := by
  have hasc : Ascending StampedContentOp.ts (d.state.contentLog ++ [⟨d.nextTs, op⟩]) :=
    h.ascending.append_singleton fun s hs =>
      Timestamp.lt_of_lamport_lt (Nat.lt_succ_of_le (h.content_le s hs))
  refine ⟨h.tree, ?_, hasc, fun o ho => (h.move_le o ho).trans (Nat.le_succ _), ?_⟩
  · exact (congrArg (fun m : ContentMap => m.apply op) h.content).trans (foldContent_append hasc).symm
  · exact forall_mem_append_singleton.2
      ⟨fun s hs => (h.content_le s hs).trans (Nat.le_succ _), le_rfl⟩

theorem Inv.mkdir (h : d.Inv) {parentPath name : String} {r : Except String NodeId × Drive × ℕ}
    (hr : d.mkdir ctr parentPath name = some r) : r.2.1.Inv := by
  obtain ⟨e, -, rfl⟩ | ⟨parent, -, rfl⟩ := mkdir_eq_some hr
  · exact h
  · exact h.moved ..

theorem Inv.addFile (h : d.Inv) {parentPath name : String} {content : FileContent}
    {r : Except String NodeId × Drive × ℕ} (hr : d.addFile ctr parentPath name content = some r) :
    r.2.1.Inv := by
  obtain ⟨e, -, rfl⟩ | ⟨parent, existing, -, rfl⟩ | ⟨parent, -, rfl⟩ := addFile_eq_some hr
  · exact h
  · exact h.wrote _
  · exact (h.moved ..).wrote _

theorem Inv.rm (h : d.Inv) {path : String} {r : Except String Unit × Drive}
    (hr : d.rm path = some r) : r.2.Inv := by
  obtain ⟨e, -, rfl⟩ | ⟨node, -, rfl⟩ := rm_eq_some hr
  · exact h
  · exact h.moved ..

theorem Inv.applyRemoteMove (h : d.Inv) {op : MoveOp} (hr : d.applyRemoteMove op = some d') :
    d'.Inv := by
  obtain rfl := applyRemoteMove_eq_some hr
  have hle : d.state.lamport ≤ max d.state.lamport op.ts.lamport + 1 := by omega
  refine ⟨?_, h.content, h.ascending, ?_, fun s hs => (h.content_le s hs).trans hle⟩
  · simp only [DriveTree.applyAll, List.foldl_append, List.foldl_cons, List.foldl_nil, h.tree]
  · refine forall_mem_append_singleton.2 ⟨fun o ho => (h.move_le o ho).trans hle, ?_⟩
    exact (le_max_right _ _).trans (Nat.le_succ _)

/-- Refolding the target of a delivered operation gives the fold of the new log. -/
theorem Inv.applyRemoteContent (h : d.Inv) {op : StampedContentOp}
    (hr : d.applyRemoteContent op = some d') : d'.Inv := by
  obtain rfl := applyRemoteContent_eq_some hr
  have hle : d.state.lamport ≤ max d.state.lamport op.ts.lamport + 1 := by omega
  have hasc := h.ascending.deliver op
  refine ⟨h.tree, ?_, hasc, fun o ho => (h.move_le o ho).trans hle, fun s hs => ?_⟩
  · by_cases hdup : ∃ s ∈ d.state.contentLog, s.ts = op.ts
    · simpa [h.ascending.deliver_of_mem hdup] using h.content
    have hnew : ∀ s ∈ d.state.contentLog, s.ts ≠ op.ts := fun s hs he => hdup ⟨s, hs, he⟩
    have hne : deliver StampedContentOp.ts d.state.contentLog op ≠ d.state.contentLog := fun heq =>
      hnew op (heq ▸ (h.ascending.mem_deliver hnew).2 (Or.inl rfl)) rfl
    refine ExtTreeMap.ext_getElem? fun n => ?_
    simp only [if_neg hne]
    rw [getElem?_refoldKey hasc, getElem?_foldContent hasc]
    split_ifs with hn
    · rw [hn]
    · rw [h.getElem?_content, foldRecord_deliver_of_ne h.ascending (Ne.symm hn)]
  · by_cases hdup : ∃ s ∈ d.state.contentLog, s.ts = op.ts
    · simp only [h.ascending.deliver_of_mem hdup] at hs
      exact (h.content_le s hs).trans hle
    · rcases (h.ascending.mem_deliver fun s hs he => hdup ⟨s, hs, he⟩).1 hs with rfl | hs
      · exact (le_max_right _ _).trans (Nat.le_succ _)
      · exact (h.content_le s hs).trans hle

/-- Compaction rebuilds both views from the logs it writes. -/
theorem inv_compact (d : Drive) : d.compact.Inv :=
  have h := d.stamped_compacted
  ⟨rfl, rfl, h.content, h.move_le, h.content_le⟩

theorem Inv.mentions_of_edge (h : d.Inv) {e : Edge} (he : d.tree.edges[n]? = some e) :
    d.state.Mentions n := by
  obtain ⟨op, hop, hc, -⟩ := h.replayed.exists_op_of_edge he
  rw [h.tree, DriveTree.logOps_applyAll] at hop
  exact Or.inl ⟨op, mem_of_mem_deliverAll hop, hc⟩

theorem Inv.mentions_of_content (h : d.Inv) {c : FileContent} (hc : d.content[n]? = some c) :
    d.state.Mentions n := by
  rw [h.getElem?_content] at hc
  by_contra hn
  have hnone : (d.state.contentLog.map StampedContentOp.op).filter (fun op => op.target = n) = [] := by
    rw [List.filter_eq_nil_iff]
    rintro op hop htarget
    obtain ⟨s, hs, rfl⟩ := List.mem_map.1 hop
    exact hn (Or.inr ⟨s, hs, by simpa using htarget⟩)
  rw [foldRecord, hnone] at hc
  cases hc

theorem Inv.mentions_of_resolve (h : d.Inv) {path : String} (hr : d.tree.resolve path = some n)
    (hne : n ≠ ROOT) : d.state.Mentions n := by
  obtain ⟨e, he⟩ := (h.replayed.mirror.edge_of_resolve hr).resolve_left hne
  exact h.mentions_of_edge he

/-! ## An operation as appends -/

/-- One append of a local operation : a move of a node that is known, of the trash, or of
the id the operation mints; or a write to a known node. -/
inductive Emits (new : Option NodeId) (unchecked : Prop) : Drive → Drive → Prop
  | move (d : Drive) (child newParent : NodeId) (newName : String) (kind : NodeKind)
      (h : d.state.Mentions child ∨ child = TRASH ∨ new = some child) :
      Emits new unchecked d (d.moved child newParent newName kind)
  | content (d : Drive) (op : ContentOp) (h : unchecked ∨ d.state.Mentions op.target) :
      Emits new unchecked d (d.wrote op)

theorem Inv.emits {new : Option NodeId} {unchecked : Prop} (h : d.Inv)
    (he : Emits new unchecked d d') : d'.Inv := by
  cases he with
  | move => exact h.moved ..
  | content => exact h.wrote _

theorem mentions_moved {child newParent : NodeId} {newName : String} {kind : NodeKind} :
    (d.moved child newParent newName kind).state.Mentions n ↔ d.state.Mentions n ∨ child = n := by
  simp [DriveState.Mentions, moved, pushMove, or_and_right, exists_or, or_right_comm]

theorem mentions_wrote {op : ContentOp} :
    (d.wrote op).state.Mentions n ↔ d.state.Mentions n ∨ op.target = n := by
  simp [DriveState.Mentions, wrote, or_and_right, exists_or, or_assoc]

theorem emits_hardDelete {new : Option NodeId} {unchecked : Prop} {ids : List NodeId}
    (hids : ∀ id ∈ ids, d.state.Mentions id) (h : d.hardDelete ids = some d') :
    ReflTransGen (Emits new unchecked) d d' := by
  induction ids generalizing d with
  | nil =>
    obtain rfl := Option.some_injective _ h
    exact .refl
  | cons id ids ih =>
    obtain ⟨d₁, h₁, h⟩ := Runs.cons_eq_some.1 h
    obtain rfl := hardDeleteOne_eq_some h₁
    have hid := hids id List.mem_cons_self
    have hmove : Emits new unchecked d (d.moved id LIMBO id (d.tree.kindOf id)) :=
      .move d id LIMBO id _ (Or.inl hid)
    have hrest : ∀ i ∈ ids, (d.moved id LIMBO id (d.tree.kindOf id)).state.Mentions i := fun i hi =>
      mentions_moved.2 (Or.inl (hids i (List.mem_cons_of_mem _ hi)))
    split_ifs at h with hc
    · have hremove : Emits new unchecked (d.moved id LIMBO id (d.tree.kindOf id))
          ((d.moved id LIMBO id (d.tree.kindOf id)).wrote (.remove id)) :=
        .content _ _ (Or.inr (mentions_moved.2 (Or.inr rfl)))
      refine .head hmove (.head hremove ?_)
      exact ih (fun i hi => mentions_wrote.2 (Or.inl (hrest i hi))) h
    · exact .head hmove (ih hrest h)

theorem Inv.mentions_trashIds (h : d.Inv) (hid : n ∈ d.trashIds) : d.state.Mentions n := by
  obtain ⟨⟨r, c, k⟩, hmem, rfl⟩ := List.mem_map.1 hid
  obtain ⟨name, hraw, -⟩ := DriveTree.mem_readdir_iff.1 ⟨r, k, hmem⟩
  obtain ⟨e, he, -⟩ := h.replayed.mirror.mem_rawChildren.1 hraw
  exact h.mentions_of_edge he

theorem Inv.emits_emptyTrash {new : Option NodeId} {unchecked : Prop} (h : d.Inv) {ids : List NodeId}
    (he : d.emptyTrash = some (ids, d')) : ReflTransGen (Emits new unchecked) d d' := by
  obtain ⟨d₁, hd, hr⟩ := Option.bind_eq_some_iff.1 he
  obtain ⟨rfl, rfl⟩ := Prod.mk.inj (Option.some_injective _ hr)
  exact emits_hardDelete (fun id hid => h.mentions_trashIds hid) hd

/-- Every local operation is a sequence of appends. -/
theorem Inv.emits_exec (h : d.Inv) {op : LocalOp} {ctr' : ℕ} (he : d.exec ctr op = some (d', ctr')) :
    ReflTransGen (Emits (d.mints ctr op) op.Unchecked) d d' := by
  cases op with
  | mkdir parentPath name =>
    obtain ⟨r, hr, heq⟩ := Option.map_eq_some_iff.1 he
    obtain ⟨e, -, rfl⟩ | ⟨parent, hc, rfl⟩ := mkdir_eq_some hr
    · exact (Prod.mk.inj heq).1 ▸ .refl
    · exact (Prod.mk.inj heq).1 ▸ .single (.move _ _ _ _ _ (Or.inr (Or.inr (by simp [mints, hc]))))
  | addFile parentPath name content =>
    obtain ⟨r, hr, heq⟩ := Option.map_eq_some_iff.1 he
    obtain ⟨e, -, rfl⟩ | ⟨parent, existing, hc, rfl⟩ | ⟨parent, hc, rfl⟩ := addFile_eq_some hr
    · exact (Prod.mk.inj heq).1 ▸ .refl
    · obtain ⟨e, hedge, -⟩ := h.replayed.mirror.mem_rawChildren.1 (addFileCheck_eq_some hc)
      exact (Prod.mk.inj heq).1 ▸ .single (.content _ _ (Or.inr (h.mentions_of_edge hedge)))
    · have hmove : Emits (d.mints ctr (.addFile parentPath name content))
          (LocalOp.addFile parentPath name content).Unchecked d
          (d.moved (d.nextId ctr) parent name .file) :=
        .move _ _ _ _ _ (Or.inr (Or.inr (by simp [mints, hc])))
      refine (Prod.mk.inj heq).1 ▸ .tail (.single hmove) (.content _ _ (Or.inr ?_))
      exact mentions_moved.2 (Or.inr rfl)
  | mv src dstParent dstName =>
    obtain ⟨r, hr, heq⟩ := Option.map_eq_some_iff.1 he
    obtain ⟨e, -, rfl⟩ | ⟨node, parent, hc, rfl⟩ := mv_eq_some hr
    · exact (Prod.mk.inj heq).1 ▸ .refl
    · obtain ⟨hres, hne⟩ := resolveNode_eq_ok (mvCheck_eq_ok hc).2.1
      exact (Prod.mk.inj heq).1 ▸ .single (.move _ _ _ _ _ (Or.inl (h.mentions_of_resolve hres hne)))
  | rm path =>
    obtain ⟨r, hr, heq⟩ := Option.map_eq_some_iff.1 he
    obtain ⟨e, -, rfl⟩ | ⟨node, hc, rfl⟩ := rm_eq_some hr
    · exact (Prod.mk.inj heq).1 ▸ .refl
    · obtain ⟨hres, hne⟩ := resolveNode_eq_ok hc
      exact (Prod.mk.inj heq).1 ▸ .single (.move _ _ _ _ _ (Or.inl (h.mentions_of_resolve hres hne)))
  | restore id dstParent dstName =>
    obtain ⟨r, hr, heq⟩ := Option.map_eq_some_iff.1 he
    obtain ⟨e, -, rfl⟩ | ⟨parent, name, -, htr, rfl⟩ := restore_eq_some hr
    · exact (Prod.mk.inj heq).1 ▸ .refl
    · have hid : d.state.Mentions id ∨ id = TRASH := by
        rcases ReflTransGen.cases_head (h.replayed.grounded.isAncestor_iff.1 htr) with hid | ⟨y, hy, -⟩
        · exact Or.inr hid
        · obtain ⟨e, hedge, -⟩ := DriveTree.parentOf_eq_some.1 hy
          exact Or.inl (h.mentions_of_edge hedge)
      exact (Prod.mk.inj heq).1 ▸ .single (.move _ _ _ _ _ (hid.imp_right Or.inl))
  | emptyTrash =>
    obtain ⟨⟨ids, d₁⟩, hr, heq⟩ := Option.map_eq_some_iff.1 he
    exact (Prod.mk.inj heq).1 ▸ h.emits_emptyTrash hr
  | gcTrash now retention =>
    obtain ⟨⟨ids, d₁⟩, hr, heq⟩ := Option.map_eq_some_iff.1 he
    obtain rfl := (Prod.mk.inj heq).1
    unfold gcTrash at hr
    split_ifs at hr
    · exact h.emits_emptyTrash hr
    · obtain ⟨d₂, hd, hr⟩ := Option.bind_eq_some_iff.1 hr
      obtain ⟨rfl, rfl⟩ := Prod.mk.inj (Option.some_injective _ hr)
      exact emits_hardDelete (fun id hid => h.mentions_trashIds (List.mem_of_mem_filter hid)) hd
  | setContent id content =>
    obtain ⟨r, hr, heq⟩ := Option.map_eq_some_iff.1 he
    obtain rfl := pushContent_eq_some hr
    exact (Prod.mk.inj heq).1 ▸ .single (.content _ _ (Or.inl trivial))
  | restoreVersion path cid now =>
    obtain ⟨r, hr, heq⟩ := Option.map_eq_some_iff.1 he
    obtain ⟨e, -, rfl⟩ | ⟨node, c, -, hc, rfl⟩ := restoreVersion_eq_some hr
    · exact (Prod.mk.inj heq).1 ▸ .refl
    · exact (Prod.mk.inj heq).1 ▸ .single (.content _ _ (Or.inr (h.mentions_of_content hc)))

theorem Inv.emits_run {new : Option NodeId} {unchecked : Prop} (h : d.Inv)
    (he : ReflTransGen (Emits new unchecked) d d') : d'.Inv := by
  induction he with
  | refl => exact h
  | tail _ hstep ih => exact ih.emits hstep

theorem Inv.exec (h : d.Inv) {op : LocalOp} {ctr' : ℕ} (he : d.exec ctr op = some (d', ctr')) :
    d'.Inv :=
  h.emits_run (h.emits_exec he)

/-! ## Reachable drives -/

/-- What can happen to a drive : a local operation with the id counter of its process, a
remote operation, or compaction. -/
inductive Event
  | exec (ctr : ℕ) (op : LocalOp)
  | remoteMove (op : MoveOp)
  | remoteContent (op : StampedContentOp)
  | compact

def perform (d : Drive) : Event → Option Drive
  | .exec ctr op => (d.exec ctr op).map Prod.fst
  | .remoteMove op => d.applyRemoteMove op
  | .remoteContent op => d.applyRemoteContent op
  | .compact => some d.compact

/-- A sequence of events. -/
def performAll (d : Drive) (es : List Event) : Option Drive :=
  es.foldlM perform d

theorem performAll_exec {ctr' : ℕ} {op : LocalOp} (h : d.exec ctr op = some (d', ctr')) :
    d.performAll [.exec ctr op] = some d' := by
  simp [performAll, perform, h]

/-- The drives reached from a fresh one. -/
def Reachable (d : Drive) : Prop :=
  ∃ name replica es, (init name replica).performAll es = some d

theorem Inv.perform (h : d.Inv) {e : Event} (he : d.perform e = some d') : d'.Inv := by
  cases e with
  | exec ctr op =>
    obtain ⟨⟨d₁, ctr'⟩, hr, rfl⟩ := Option.map_eq_some_iff.1 he
    exact h.exec hr
  | remoteMove op => exact h.applyRemoteMove he
  | remoteContent op => exact h.applyRemoteContent he
  | compact => exact Option.some_injective _ he ▸ inv_compact d

theorem Inv.performAll (h : d.Inv) {es : List Event} (he : d.performAll es = some d') : d'.Inv :=
  Runs.invariant Drive.Inv h he fun _ _ _ _ h he => h.perform he

theorem Reachable.inv (h : d.Reachable) : d.Inv := by
  obtain ⟨name, replica, es, he⟩ := h
  exact (inv_init name replica).performAll he

/-- Live views equal replay. In every reachable drive the tree is the replay of the move
log, the content map is the fold of the content log, and the content log is strictly
ascending; so reloading the persisted state gives the same drive. Both incremental paths
of the next content operation agree with the full fold. -/
theorem live_eq_replay (d : Drive) (h : d.Reachable) :
    d.tree = DriveTree.applyAll d.state.moveLog ∧
      d.content = foldContent d.state.contentLog ∧
      (d.state.contentLog.Pairwise fun a b => a.ts < b.ts) ∧
      fromState d.state = d ∧
      (∀ op d', d.pushContent op = some d' → d'.content = foldContent d'.state.contentLog) ∧
      ∀ op d', d.applyRemoteContent op = some d' → d'.content = foldContent d'.state.contentLog := by
  have hinv := h.inv
  refine ⟨hinv.tree, hinv.content, hinv.ascending, hinv.fromState_eq, fun op d' hp => ?_,
    fun op d' hr => (hinv.applyRemoteContent hr).content⟩
  exact pushContent_eq_some hp ▸ (hinv.wrote op).content

/-- A file saved locally, then an earlier save of another writer, twice. -/
theorem live_eq_replay_late_save :
    let save : StampedContentOp := ⟨⟨1, "b"⟩, .set "00000000000100000000" "c9" 1 0 900⟩
    let d := ((init "d" "a").performAll [.exec 0 (.addFile "/" "f" (.new "c1" 1 0 100)),
      .remoteContent save, .remoteContent save]).get (by decide)
    d.content = foldContent d.state.contentLog ∧ fromState d.state = d := by
  intro save d
  have h := live_eq_replay d ⟨"d", "a", _, (Option.some_get _).symm⟩
  exact ⟨h.2.1, h.2.2.2.1⟩

end Drive

end CeDrive
