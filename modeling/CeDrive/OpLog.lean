import Mathlib.Data.List.Induction
import Mathlib.Data.List.Sort
import Mathlib.Data.List.TakeWhile
import Mathlib.Order.Basic

/-!
# Operation logs

Two parts, over arbitrary operations.

`SortedLog` : lists strictly ascending in a key. `deliver` inserts one operation at its
place and ignores an operation whose key is there already. A strictly ascending list is
fixed by its members (`Ascending.ext`), so a log built by `deliver` depends only on the
set of operations delivered (`deliverAll_eq_of_mem_iff`), provided no two of them share
a key.

`Undoable` : a machine whose operations return a record of what they displaced, from
which the operation can be reverted. `revert_perform` need only hold up to `Same`, a
relation that operations cannot see through, on the states that are `Valid`. Then
reverting a suffix of a run, performing a new operation and performing the suffix again
is the run with the operation inserted (`Undoable.Replays.insert`).
-/

namespace SortedLog

variable {α K : Type*} [LinearOrder K]

/-- Index of the first element where `p` fails : the partition point of a list all of
whose elements with `p` come first. -/
def partitionPoint (p : α → Bool) (l : List α) : ℕ :=
  l.findIdx fun x => !p x

theorem take_partitionPoint (p : α → Bool) (l : List α) :
    l.take (partitionPoint p l) = l.takeWhile p :=
  List.takeWhile_eq_take_findIdx_not.symm

theorem drop_partitionPoint (p : α → Bool) (l : List α) :
    l.drop (partitionPoint p l) = l.dropWhile p :=
  List.dropWhile_eq_drop_findIdx_not.symm

/-- Strictly ascending in the key. -/
def Ascending (key : α → K) (l : List α) : Prop :=
  l.Pairwise fun x y => key x < key y

variable {key : α → K} {l l' : List α} {x y : α}

theorem Ascending.key_injective (h : Ascending key l) (hx : x ∈ l) (hy : y ∈ l)
    (hk : key x = key y) : x = y := by
  induction l with
  | nil => cases hx
  | cons a l ih =>
    obtain ⟨ha, hl⟩ := List.pairwise_cons.1 h
    rcases List.mem_cons.1 hx with rfl | hx' <;> rcases List.mem_cons.1 hy with rfl | hy'
    · rfl
    · exact absurd hk (ha y hy').ne
    · exact absurd hk.symm (ha x hx').ne
    · exact ih hl hx' hy'

theorem Ascending.nodup (h : Ascending key l) : l.Nodup :=
  List.Pairwise.imp (fun hlt heq => hlt.ne (congrArg key heq)) h

/-- A strictly ascending list is fixed by its members. -/
theorem Ascending.ext (h : Ascending key l) (h' : Ascending key l')
    (hmem : ∀ x, x ∈ l ↔ x ∈ l') : l = l' :=
  List.Perm.eq_of_pairwise (fun _ _ _ _ h₁ h₂ => absurd h₂ h₁.asymm) h h'
    ((List.perm_ext_iff_of_nodup h.nodup h'.nodup).2 hmem)

/-- The last operation has the greatest key. -/
theorem Ascending.le_getLast? (h : Ascending key l) (hx : x ∈ l) :
    ∃ y, l.getLast? = some y ∧ key x ≤ key y := by
  rcases List.eq_nil_or_concat' l with rfl | ⟨init, y, rfl⟩
  · cases hx
  · refine ⟨y, by simp, ?_⟩
    rcases List.mem_append.1 hx with hx | hx
    · exact ((List.pairwise_append.1 h).2.2 x hx y (List.mem_singleton_self y)).le
    · exact (congrArg key (List.mem_singleton.1 hx)).le

/-- A search finds the element of least key. -/
theorem Ascending.find?_eq_some (h : Ascending key l) {p : α → Bool} :
    l.find? p = some x ↔ x ∈ l ∧ p x = true ∧ ∀ y ∈ l, p y = true → key x ≤ key y := by
  induction l with
  | nil => simp
  | cons a l ih =>
    obtain ⟨hlt, hl⟩ := List.pairwise_cons.1 h
    rw [List.find?_cons]
    by_cases ha : p a = true
    · rw [ha]
      constructor
      · rintro ⟨⟩
        refine ⟨List.mem_cons_self, ha, fun y hy _ => ?_⟩
        rcases List.mem_cons.1 hy with rfl | hy
        · exact le_rfl
        · exact (hlt y hy).le
      · rintro ⟨hx, -, hmin⟩
        rcases List.mem_cons.1 hx with rfl | hx
        · rfl
        · exact absurd (hmin a List.mem_cons_self ha) (not_le_of_gt (hlt x hx))
    · rw [Bool.not_eq_true] at ha
      simp only [ha]
      rw [ih hl]
      constructor
      · rintro ⟨hx, hpx, hmin⟩
        refine ⟨List.mem_cons_of_mem _ hx, hpx, fun y hy hpy => ?_⟩
        rcases List.mem_cons.1 hy with rfl | hy
        · rw [ha] at hpy
          cases hpy
        · exact hmin y hy hpy
      · rintro ⟨hx, hpx, hmin⟩
        rcases List.mem_cons.1 hx with rfl | hx
        · rw [ha] at hpx
          cases hpx
        · exact ⟨hx, hpx, fun y hy => hmin y (List.mem_cons_of_mem _ hy)⟩

/-- A search from the end finds the element of greatest key. -/
theorem Ascending.find?_reverse_eq_some (h : Ascending key l) {p : α → Bool} :
    l.reverse.find? p = some x ↔ x ∈ l ∧ p x = true ∧ ∀ y ∈ l, p y = true → key y ≤ key x := by
  have hrev : Ascending (fun x => OrderDual.toDual (key x)) l.reverse := List.pairwise_reverse.2 h
  rw [hrev.find?_eq_some]
  simp only [List.mem_reverse, OrderDual.toDual_le_toDual]

/-- A list without two operations of one key becomes strictly ascending when sorted. -/
theorem ascending_insertionSort (h : l.Pairwise fun x y => key x ≠ key y) :
    Ascending key (l.insertionSort fun x y => key x ≤ key y) := by
  have : Std.Total fun x y => key x ≤ key y := ⟨fun x y => le_total (key x) (key y)⟩
  have : IsTrans α fun x y => key x ≤ key y := ⟨fun _ _ _ => le_trans⟩
  have hne : (l.insertionSort fun x y => key x ≤ key y).Pairwise fun x y => key x ≠ key y :=
    h.perm (List.perm_insertionSort _ l).symm fun hxy => Ne.symm hxy
  exact (List.pairwise_and_iff.2 ⟨List.pairwise_insertionSort _ l, hne⟩).imp
    fun hxy => lt_of_le_of_ne hxy.1 hxy.2

/-- A strictly ascending list is sorted. -/
theorem Ascending.insertionSort_eq (h : Ascending key l) :
    (l.insertionSort fun x y => key x ≤ key y) = l :=
  List.Pairwise.insertionSort_eq (h.imp le_of_lt)

/-- The elements above an element are those behind it. -/
theorem Ascending.filter_lt {pre post : List α} (h : Ascending key (pre ++ x :: post)) :
    ((pre ++ x :: post).filter fun y => key x < key y) = post := by
  obtain ⟨-, hpost, hpre⟩ := List.pairwise_append.1 h
  have hbelow : ∀ y ∈ pre, ¬key x < key y := fun y hy => (hpre y hy x List.mem_cons_self).asymm
  have habove : ∀ y ∈ post, key x < key y := (List.pairwise_cons.1 hpost).1
  rw [List.filter_append, List.filter_cons_of_neg (by simp),
    List.filter_eq_nil_iff.2 (by simpa using hbelow), List.filter_eq_self.2 (by simpa using habove),
    List.nil_append]

/-- Everything before the partition point of `key x` is below `x`, everything from it on
is at or above `x`. -/
theorem Ascending.lt_of_mem_takeWhile (hy : y ∈ l.takeWhile fun z => key z < key x) :
    key y < key x := by
  simpa using List.mem_takeWhile_imp hy

theorem Ascending.le_of_mem_dropWhile (h : Ascending key l)
    (hy : y ∈ l.dropWhile fun z => key z < key x) : key x ≤ key y := by
  induction l with
  | nil => cases hy
  | cons a l ih =>
    obtain ⟨ha, hl⟩ := List.pairwise_cons.1 h
    by_cases hax : key a < key x
    · rw [List.dropWhile_cons_of_pos (by simpa using hax)] at hy
      exact ih hl hy
    · rw [List.dropWhile_cons_of_neg (by simpa using hax)] at hy
      rcases List.mem_cons.1 hy with rfl | hy
      · exact not_lt.1 hax
      · exact (not_lt.1 hax).trans (ha y hy).le

/-- Insert `x` at its place, unless the log holds an operation with its key. -/
def deliver (key : α → K) (l : List α) (x : α) : List α :=
  if (l[partitionPoint (fun z => key z < key x) l]?).any fun z => key z = key x then l
  else l.take (partitionPoint (fun z => key z < key x) l) ++
    x :: l.drop (partitionPoint (fun z => key z < key x) l)

/-- The test of `deliver` looks at one element, which is the only one that can have the
key. -/
theorem Ascending.any_partitionPoint (h : Ascending key l) (x : α) :
    ((l[partitionPoint (fun z => key z < key x) l]?).any fun z => key z = key x) = true ↔
      ∃ y ∈ l, key y = key x := by
  rw [← List.head?_drop, drop_partitionPoint]
  constructor
  · intro hany
    cases hd : l.dropWhile (fun z => key z < key x) with
    | nil => simp [hd] at hany
    | cons y rest =>
      have hy : y ∈ l.dropWhile fun z => key z < key x := by simp [hd]
      exact ⟨y, List.dropWhile_subset _ hy, by simpa [hd] using hany⟩
  · rintro ⟨y, hy, hk⟩
    have hy' : y ∈ l.dropWhile fun z => key z < key x := by
      rw [← List.takeWhile_append_dropWhile (p := fun z => decide (key z < key x)) (l := l)]
        at hy
      rcases List.mem_append.1 hy with hy | hy
      · exact absurd hk (Ascending.lt_of_mem_takeWhile hy).ne
      · exact hy
    cases hd : l.dropWhile (fun z => key z < key x) with
    | nil => simp [hd] at hy'
    | cons z rest =>
      have hz : z ∈ l.dropWhile fun z => key z < key x := by simp [hd]
      have hzx := h.le_of_mem_dropWhile hz
      have hzy : key z ≤ key y := by
        rw [hd] at hy'
        rcases List.mem_cons.1 hy' with rfl | hy''
        · exact le_rfl
        · have hasc : Ascending key (z :: rest) := hd ▸ h.sublist (List.dropWhile_sublist _)
          exact ((List.pairwise_cons.1 hasc).1 y hy'').le
      simpa [hd] using le_antisymm (hzy.trans hk.le) hzx

theorem Ascending.deliver_of_mem (h : Ascending key l) (hx : ∃ y ∈ l, key y = key x) :
    deliver key l x = l :=
  if_pos ((h.any_partitionPoint x).2 hx)

theorem Ascending.deliver_of_not_mem (h : Ascending key l) (hx : ∀ y ∈ l, key y ≠ key x) :
    deliver key l x = (l.takeWhile fun z => key z < key x) ++
      x :: l.dropWhile fun z => key z < key x := by
  rw [deliver, if_neg fun hany => ?_, take_partitionPoint, drop_partitionPoint]
  obtain ⟨y, hy, hk⟩ := (h.any_partitionPoint x).1 hany
  exact hx y hy hk

theorem Ascending.mem_deliver (h : Ascending key l) (hx : ∀ y ∈ l, key y ≠ key x) :
    y ∈ deliver key l x ↔ y = x ∨ y ∈ l := by
  rw [h.deliver_of_not_mem hx, List.mem_append, List.mem_cons, or_left_comm,
    ← List.mem_append, List.takeWhile_append_dropWhile]

/-- Delivery adds at most the operation delivered. -/
theorem mem_of_mem_deliver (hy : y ∈ SortedLog.deliver key l x) : y = x ∨ y ∈ l := by
  unfold SortedLog.deliver at hy
  split_ifs at hy
  · exact Or.inr hy
  · rcases List.mem_append.1 hy with hy | hy
    · exact Or.inr (List.mem_of_mem_take hy)
    · exact (List.mem_cons.1 hy).imp_right List.mem_of_mem_drop

/-- Delivery keeps the log strictly ascending. -/
theorem Ascending.deliver (h : Ascending key l) (x : α) : Ascending key (deliver key l x) := by
  by_cases hx : ∃ y ∈ l, key y = key x
  · rwa [h.deliver_of_mem hx]
  have hx' : ∀ y ∈ l, key y ≠ key x := fun y hy hk => hx ⟨y, hy, hk⟩
  rw [h.deliver_of_not_mem hx']
  have hge : ∀ y ∈ l.dropWhile fun z => key z < key x, key x < key y := fun y hy =>
    lt_of_le_of_ne (h.le_of_mem_dropWhile hy) (hx' y (List.dropWhile_subset _ hy)).symm
  refine List.pairwise_append.2 ⟨h.sublist (List.takeWhile_sublist _),
    List.pairwise_cons.2 ⟨hge, h.sublist (List.dropWhile_sublist _)⟩, fun a ha b hb => ?_⟩
  rcases List.mem_cons.1 hb with rfl | hb
  · exact Ascending.lt_of_mem_takeWhile ha
  · exact (Ascending.lt_of_mem_takeWhile ha).trans (hge b hb)

/-- An operation after everything in the log is appended. -/
theorem deliver_of_forall_lt (h : ∀ y ∈ l, key y < key x) : deliver key l x = l ++ [x] := by
  have hp : partitionPoint (fun z => key z < key x) l = l.length :=
    List.findIdx_eq_length_of_false (by simpa using h)
  simp [SortedLog.deliver, hp]

theorem Ascending.append_singleton (h : Ascending key l) (hx : ∀ y ∈ l, key y < key x) :
    Ascending key (l ++ [x]) :=
  deliver_of_forall_lt hx ▸ h.deliver x

/-- Deliver a sequence of operations, in that order. -/
def deliverAll (key : α → K) (xs : List α) : List α :=
  xs.foldl (SortedLog.deliver key) []

theorem deliverAll_append_singleton (key : α → K) (xs : List α) (x : α) :
    deliverAll key (xs ++ [x]) = SortedLog.deliver key (deliverAll key xs) x := by
  simp [deliverAll]

theorem ascending_deliverAll (key : α → K) (xs : List α) : Ascending key (deliverAll key xs) := by
  induction xs using List.reverseRecOn with
  | nil => exact List.Pairwise.nil
  | append_singleton xs x ih =>
    rw [deliverAll_append_singleton]
    exact ih.deliver x

/-- Everything in the log was delivered. -/
theorem mem_of_mem_deliverAll {xs : List α} (h : y ∈ deliverAll key xs) : y ∈ xs := by
  induction xs using List.reverseRecOn with
  | nil => simp [deliverAll] at h
  | append_singleton xs x ih =>
    rw [deliverAll_append_singleton] at h
    have hasc := ascending_deliverAll key xs
    rcases mem_of_mem_deliver h with rfl | h
    · simp
    · exact List.mem_append_left _ (ih h)

/-- The key of every delivered operation is in the log. -/
theorem exists_mem_deliverAll {xs : List α} (h : x ∈ xs) : ∃ y ∈ deliverAll key xs, key y = key x := by
  induction xs using List.reverseRecOn with
  | nil => cases h
  | append_singleton xs z ih =>
    rw [deliverAll_append_singleton]
    have hasc := ascending_deliverAll key xs
    by_cases hz : ∃ y ∈ deliverAll key xs, key y = key z
    · rw [hasc.deliver_of_mem hz]
      rcases List.mem_append.1 h with h | h
      · exact ih h
      · exact List.mem_singleton.1 h ▸ hz
    · have hnew : ∀ y ∈ deliverAll key xs, key y ≠ key z := fun y hy hk => hz ⟨y, hy, hk⟩
      rcases List.mem_append.1 h with h | h
      · obtain ⟨y, hy, hk⟩ := ih h
        exact ⟨y, (hasc.mem_deliver hnew).2 (Or.inr hy), hk⟩
      · exact ⟨z, (hasc.mem_deliver hnew).2 (Or.inl rfl), by rw [List.mem_singleton.1 h]⟩

/-- If no two of the delivered operations share a key, the log holds exactly them. -/
theorem mem_deliverAll {xs : List α}
    (hinj : ∀ x ∈ xs, ∀ y ∈ xs, key x = key y → x = y) :
    y ∈ deliverAll key xs ↔ y ∈ xs := by
  induction xs using List.reverseRecOn with
  | nil => simp [deliverAll]
  | append_singleton xs x ih =>
    have hsub : ∀ z ∈ xs, z ∈ xs ++ [x] := fun z hz => List.mem_append_left _ hz
    have ih := ih fun a ha b hb => hinj a (hsub a ha) b (hsub b hb)
    have hasc := ascending_deliverAll key xs
    rw [deliverAll_append_singleton]
    by_cases hx : ∃ z ∈ deliverAll key xs, key z = key x
    · obtain ⟨z, hz, hk⟩ := hx
      have hzx := hinj z (hsub z (mem_of_mem_deliverAll hz)) x (by simp) hk
      rw [hasc.deliver_of_mem ⟨z, hz, hk⟩, ih]
      refine ⟨hsub y, fun hy => ?_⟩
      rcases List.mem_append.1 hy with hy | hy
      · exact hy
      · rw [List.mem_singleton.1 hy, ← hzx]
        exact mem_of_mem_deliverAll hz
    · rw [hasc.mem_deliver fun z hz hk => hx ⟨z, hz, hk⟩, ih]
      simp [or_comm]

/-- The log depends only on which operations were delivered, not on their order or
multiplicity. -/
theorem deliverAll_eq_of_mem_iff {xs asc : List α} (hasc : Ascending key asc)
    (hmem : ∀ x, x ∈ xs ↔ x ∈ asc) : deliverAll key xs = asc := by
  refine (ascending_deliverAll key xs).ext hasc fun x => ?_
  rw [mem_deliverAll, hmem]
  exact fun x hx y hy => hasc.key_injective ((hmem x).1 hx) ((hmem y).1 hy)

end SortedLog

namespace UndoLog

/-- An operation with the record of what it displaced. -/
structure Entry (Op ρ : Type*) where
  op : Op
  old : ρ

end UndoLog

open UndoLog

/-- A machine with revertible operations. -/
structure Undoable (σ Op ρ : Type*) where
  /-- Perform an operation, returning the record of what it displaced. -/
  perform : σ → Op → ρ × σ
  /-- Revert a performed operation. -/
  revert : σ → Entry Op ρ → σ
  /-- The states operations are run from. -/
  Valid : σ → Prop
  /-- The states no operation tells apart. -/
  Same : σ → σ → Prop
  same_equivalence : Equivalence Same
  valid_of_same : ∀ {s s'}, Valid s → Same s s' → Valid s'
  perform_valid : ∀ {s} op, Valid s → Valid (perform s op).2
  perform_same : ∀ {s s'} op, Same s s' →
    (perform s op).1 = (perform s' op).1 ∧ Same (perform s op).2 (perform s' op).2
  revert_same : ∀ {s s'} e, Same s s' → Same (revert s e) (revert s' e)
  revert_perform : ∀ {s} op, Valid s →
    Same (revert (perform s op).2 ⟨op, (perform s op).1⟩) s

namespace Undoable

variable {σ Op ρ : Type*} (M : Undoable σ Op ρ)

theorem Same.refl (s : σ) : M.Same s s := M.same_equivalence.refl s

variable {M} in
theorem Same.symm {s s' : σ} (h : M.Same s s') : M.Same s' s := M.same_equivalence.symm h

variable {M} in
theorem Same.trans {s s' s'' : σ} (h : M.Same s s') (h' : M.Same s' s'') : M.Same s s'' :=
  M.same_equivalence.trans h h'

/-- Perform a sequence of operations, logging each with its record. -/
def run (s : σ) : List Op → List (Entry Op ρ) × σ
  | [] => ([], s)
  | op :: ops =>
    (⟨op, (M.perform s op).1⟩ :: (run (M.perform s op).2 ops).1, (run (M.perform s op).2 ops).2)

/-- Revert a sequence of entries, the last one first. -/
def unwind (s : σ) (es : List (Entry Op ρ)) : σ :=
  es.foldr (fun e s => M.revert s e) s

theorem run_ops (s : σ) (ops : List Op) : (M.run s ops).1.map Entry.op = ops := by
  induction ops generalizing s with
  | nil => rfl
  | cons op ops ih => simp [run, ih]

theorem run_append (s : σ) (ops ops' : List Op) :
    M.run s (ops ++ ops') =
      ((M.run s ops).1 ++ (M.run (M.run s ops).2 ops').1, (M.run (M.run s ops).2 ops').2) := by
  induction ops generalizing s with
  | nil => rfl
  | cons op ops ih => simp [run, ih]

theorem run_valid {s : σ} (hs : M.Valid s) (ops : List Op) : M.Valid (M.run s ops).2 := by
  induction ops generalizing s with
  | nil => exact hs
  | cons op ops ih => exact ih (M.perform_valid op hs)

/-- A run cannot tell two `Same` states apart : the records agree too. -/
theorem run_same {s s' : σ} (h : M.Same s s') (ops : List Op) :
    (M.run s ops).1 = (M.run s' ops).1 ∧ M.Same (M.run s ops).2 (M.run s' ops).2 := by
  induction ops generalizing s s' with
  | nil => exact ⟨rfl, h⟩
  | cons op ops ih =>
    obtain ⟨hr, hs⟩ := M.perform_same op h
    obtain ⟨hrs, hss⟩ := ih hs
    exact ⟨by simp [run, hr, hrs], hss⟩

theorem unwind_same {s s' : σ} (h : M.Same s s') (es : List (Entry Op ρ)) :
    M.Same (M.unwind s es) (M.unwind s' es) := by
  induction es with
  | nil => exact h
  | cons e es ih => exact M.revert_same e ih

/-- Reverting a whole run leads back to its start. -/
theorem unwind_run {s : σ} (hs : M.Valid s) (ops : List Op) :
    M.Same (M.unwind (M.run s ops).2 (M.run s ops).1) s := by
  induction ops generalizing s with
  | nil => exact Same.refl M s
  | cons op ops ih =>
    exact Same.trans (M.revert_same _ (ih (M.perform_valid op hs))) (M.revert_perform op hs)

/-- `log` and `s` are what performing the operations of `log` in order from `s₀` gives. -/
def Replays (s₀ : σ) (log : List (Entry Op ρ)) (s : σ) : Prop :=
  log = (M.run s₀ (log.map Entry.op)).1 ∧ M.Same s (M.run s₀ (log.map Entry.op)).2

theorem Replays.valid {M : Undoable σ Op ρ} {s₀ s : σ} {log : List (Entry Op ρ)}
    (hs₀ : M.Valid s₀) (h : M.Replays s₀ log s) : M.Valid s :=
  M.valid_of_same (M.run_valid hs₀ _) h.2.symm

/-- Undo, do, redo : inserting an operation before a suffix of the log. -/
theorem Replays.insert {M : Undoable σ Op ρ} {s₀ s : σ} {pre tail : List (Entry Op ρ)}
    (hs₀ : M.Valid s₀) (h : M.Replays s₀ (pre ++ tail) s) (op : Op) :
    let s₁ := M.unwind s tail
    let r := M.run s₁ (op :: tail.map Entry.op)
    M.Replays s₀ (pre ++ r.1) r.2 := by
  intro s₁ r
  obtain ⟨hlog, hs⟩ := h
  rw [List.map_append, M.run_append] at hlog hs
  have hlen : pre.length = (M.run s₀ (pre.map Entry.op)).1.length := by
    simpa using (congrArg List.length (M.run_ops s₀ (pre.map Entry.op))).symm
  obtain ⟨hpre, htail⟩ := List.append_inj hlog hlen
  have hv := M.run_valid hs₀ (pre.map Entry.op)
  -- undoing the suffix leads back to the state after `pre`
  have hs₁ : M.Same s₁ (M.run s₀ (pre.map Entry.op)).2 := by
    have h := M.unwind_run hv (tail.map Entry.op)
    rw [← htail] at h
    exact Same.trans (M.unwind_same hs tail) h
  obtain ⟨hr, hrs⟩ := M.run_same hs₁ (op :: tail.map Entry.op)
  have hmap : (pre ++ r.1).map Entry.op = pre.map Entry.op ++ op :: tail.map Entry.op := by
    rw [List.map_append, M.run_ops]
  refine ⟨?_, ?_⟩
  · rw [hmap, M.run_append, ← hpre]
    exact congrArg _ hr
  · rw [hmap, M.run_append]
    exact hrs

end Undoable
