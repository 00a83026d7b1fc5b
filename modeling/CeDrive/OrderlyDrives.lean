import CeDrive.PushIds
import CeDrive.Writers

/-!
# Orderly drives

A drive is `Orderly` for a disk if its listings are tidy, no id of a later tick is in use, and the
saves and deletions of a push go to what its paths lead to. It is ready for the push
(`Orderly.ready`), and the ids of a push are spare as long as the counter stays within the eight hex
digits that an id has for it (`Ahead.hasSpareIds`).
-/

namespace CeDrive

/-- The number of entries, at any depth. -/
def DiskDir.size : DiskDir → ℕ
  | nil => 0
  | file _ _ rest => rest.size + 1
  | dir _ entries rest => entries.size + rest.size + 1

namespace Drive

variable {d d' : Drive} {store : ObjectStore} {disk D : DiskDir} {q x : List String}
  {f : DiskFile} {n p : NodeId} {y : NodeId × NodeKind} {ctr l l' i : ℕ} {now : ℕ × ℕ}

/-- No id of a later tick is in use. -/
structure Ahead (d : Drive) : Prop where
  unused : ∀ ⦃l c⦄, d.state.lamport < l → d.tree.Unused (freshNodeId l c).1
  empty : ∀ ⦃l c⦄, d.state.lamport < l → d.content[(freshNodeId l c).1]? = none

theorem Ahead.spare (h : d.Ahead) (hl : d.state.lamport < l) (kind : NodeKind) :
    d.Spare (freshNodeId l i).1 kind :=
  ⟨h.unused hl, fun _ => h.empty hl⟩

/-- A file that is not on the disk shares its bare name with no sibling, if it is listed by it. -/
def Alone (d : Drive) (disk : DiskDir) : Prop :=
  ∀ ⦃q r p c⦄, d.tree.ListedAt q p → d.tree.Lists p r c → ¬d.tree.IsDir c →
    (∀ f, ¬disk.HasFile (q ++ [r]) f) → d.tree.Called p r c → ∀ m, d.tree.Called p r m → m = c

/-- Where the saves and the deletions of a push go to what its paths lead to. -/
structure Orderly (d : Drive) (store : ObjectStore) (disk : DiskDir) : Prop where
  tidy : d.tree.Tidy
  ahead : d.Ahead
  /-- No directory is listed where the disk has a file. -/
  file : ∀ ⦃q f n⦄, disk.HasFile q f → d.tree.ListedAt q n → ¬d.tree.IsDir n
  /-- What is listed where the disk has a file is current, or it is what `add_file` edits. -/
  save : ∀ ⦃q r f p n⦄, disk.HasFile (q ++ [r]) f → d.tree.ListedAt q p → d.tree.Lists p r n →
    d.recordedCid n = some (store.cidOf f.bytes) ∨ d.childNamed p r = some n
  alone : d.Alone disk

theorem Orderly.ready (h : d.Orderly store disk) (hinv : d.Inv) : d.Ready store disk := by
  have ht := hinv.replayed
  have htrash : Reserved TRASH := Or.inr (Or.inl rfl)
  refine ⟨h.tidy.legible, fun _ => DriveTree.not_trashed_of_listedAt ht h.tidy.reserved .root,
    fun q n _ hq => ?_, fun q f n hf hq _ => h.file hf hq.listedAt,
    fun q r f p n hf hq _ hl => h.save hf hq.listedAt hl, fun q r p n hq hdir hl hfile hnot => ?_⟩
  · by_cases hnone : ∃ r m, d.tree.Lists n r m
    · obtain ⟨r, m, hl⟩ := hnone
      exact Or.inl (h.tidy.leaf hq.listedAt hl)
    · exact Or.inr fun r m hl => hnone ⟨r, m, hl⟩
  · refine ⟨hq, hdir, hl, hfile, fun hr => ?_, h.alone hq.listedAt hl hfile hnot⟩
    -- nothing is above TRASH
    obtain rfl := hr.eq_of_top (h.tidy.reserved.parentOf_eq_none htrash)
    obtain ⟨e, he, -⟩ := ht.edge_of_lists hl
    exact h.tidy.reserved.not_reserved he htrash

theorem orderly_init (name : String) (replica : ReplicaId) :
    (init name replica).Orderly store disk := by
  have ht := (inv_init name replica).replayed
  have hlists : ∀ {p r m}, ¬(init name replica).tree.Lists p r m := by
    intro p r m hl
    obtain ⟨e, he, -⟩ := ht.edge_of_lists hl
    simp [init, DriveTree.new] at he
  refine ⟨⟨DriveTree.reservedFree_new, fun _ _ _ _ _ hl => absurd hl hlists,
    fun _ _ _ _ _ hl => absurd hl hlists, fun _ _ _ _ _ _ hl => absurd hl hlists⟩,
    ⟨fun l c _ => ⟨by simp [init, DriveTree.new], fun m e he => by simp [init, DriveTree.new] at he⟩,
      fun l c _ => by simp [init]⟩, fun x f n hf hn => ?_, fun _ _ _ _ _ _ _ hl => absurd hl hlists,
    fun _ _ _ _ _ hl => absurd hl hlists⟩
  rcases DriveTree.listedAt_cases hn with ⟨rfl, -⟩ | ⟨q, p, r, -, -, hl⟩
  · exact absurd hf (DiskDir.not_hasFile_nil disk)
  · exact absurd hl hlists

/-! ## The ids of a push -/

/-- Ids of the ticks after `now` and up to `now'`, with `k` counts at most. -/
structure LaterIds (ids : List (NodeId × NodeKind)) (now now' : ℕ × ℕ) (k : ℕ) : Prop where
  tick : now.1 ≤ now'.1
  count : now'.2 ≤ now.2 + k
  mem : ∀ y ∈ ids, ∃ l c, now.1 < l ∧ l ≤ now'.1 ∧ c < now.2 + k ∧ y.1 = (freshNodeId l c).1
  nodup : now.2 + k ≤ 16 ^ 8 → (ids.map Prod.fst).Nodup

theorem LaterIds.nil (now : ℕ × ℕ) {l k : ℕ} (hl : now.1 ≤ l) : LaterIds [] now (l, now.2) k where
  tick := hl
  count := Nat.le_add_right ..
  mem := by simp
  nodup := by simp

theorem LaterIds.one (now : ℕ × ℕ) {l : ℕ} (hl : now.1 < l) (kind : NodeKind) :
    LaterIds [((freshNodeId (now.1 + 1) now.2).1, kind)] now (l, (now.2 + 1) % 2 ^ 64) 1 where
  tick := hl.le
  count := Nat.mod_le ..
  mem y hy := ⟨_, _, Nat.lt_succ_self _, hl, Nat.lt_succ_self _, by rw [List.mem_singleton.1 hy]⟩
  nodup := by simp

theorem LaterIds.trans {ids ids' : List (NodeId × NodeKind)} {now now₁ now' : ℕ × ℕ} {k k' : ℕ}
    (h : LaterIds ids now now₁ k) (h' : LaterIds ids' now₁ now' k') :
    LaterIds (ids ++ ids') now now' (k + k') where
  tick := h.tick.trans h'.tick
  count := by
    have hcount := h.count
    have hcount' := h'.count
    omega
  mem y hy := by
    have hcount := h.count
    rcases List.mem_append.1 hy with hy | hy
    · obtain ⟨l, c, hl, hl', hc, heq⟩ := h.mem y hy
      exact ⟨l, c, hl, hl'.trans h'.tick, by omega, heq⟩
    · obtain ⟨l, c, hl, hl', hc, heq⟩ := h'.mem y hy
      exact ⟨l, c, h.tick.trans_lt hl, hl', by omega, heq⟩
  nodup hk := by
    have hcount := h.count
    rw [List.map_append, List.nodup_append]
    refine ⟨h.nodup (by omega), h'.nodup (by omega), fun id hid id' hid' heq => ?_⟩
    obtain ⟨y, hy, rfl⟩ := List.mem_map.1 hid
    obtain ⟨y', hy', rfl⟩ := List.mem_map.1 hid'
    obtain ⟨l, c, -, hl, hc, hfresh⟩ := h.mem y hy
    obtain ⟨l', c', hl', -, -, hfresh'⟩ := h'.mem y' hy'
    -- the later of the two is of a later tick
    have hne : (freshNodeId l' c').1 ≠ (freshNodeId l c).1 :=
      freshNodeId_ne_of_lt (hl.trans_lt hl') (by omega)
    exact hne (by rw [← hfresh, ← hfresh', heq])

theorem minted_fileIds : LaterIds (d.fileIds store x f now).1 now (d.fileIds store x f now).2 1 := by
  unfold fileIds
  split_ifs
  · exact .nil now le_rfl
  · exact .nil now (Nat.le_succ _)
  · exact .one now (by omega) .file

theorem minted_dirIds : LaterIds (d.dirIds x now).1 now (d.dirIds x now).2 1 := by
  unfold dirIds
  split_ifs
  · exact .nil now le_rfl
  · exact .one now (Nat.lt_succ_self _) .dir

theorem minted_newIds (d : Drive) (store : ObjectStore) (D : DiskDir) (q : List String)
    (now : ℕ × ℕ) : LaterIds (d.newIds store D q now).1 now (d.newIds store D q now).2 D.size := by
  induction D generalizing q now with
  | nil => exact .nil now le_rfl
  | file name f rest ih =>
    rw [newIds, DiskDir.size, Nat.add_comm]
    exact minted_fileIds.trans (ih ..)
  | dir name entries rest ihe ih =>
    rw [newIds, DiskDir.size, Nat.add_comm]
    exact minted_dirIds.trans ((ihe ..).trans (ih ..))

/-- The ids of a push are of later ticks. -/
theorem Ahead.hasSpareIds (h : d.Ahead) (hctr : ctr + disk.size ≤ 16 ^ 8) :
    d.HasSpareIds store disk ctr := by
  have hids := d.minted_newIds store disk [] (d.state.lamport, ctr)
  refine ⟨hids.nodup hctr, fun y hy => ?_⟩
  obtain ⟨l, c, hl, -, -, heq⟩ := hids.mem y hy
  exact heq ▸ h.spare hl y.2

end Drive

end CeDrive
