import Mathlib.Data.Finset.Card
import Mathlib.Data.Fintype.Card
import Mathlib.Logic.Relation
import Mathlib.Logic.Function.Basic

/-!
# Parent functions

A partial function `parent : α → Option α` read as a set of parent pointers. `Reaches` is
reachability along the pointers, `Acyclic` says that no node is its own proper ancestor.

Five kinds of result :

* `climb k x`, the `k`-th ancestor, and `within k x a`, the walk that looks for `a` in at
  most `k` steps. On an acyclic function whose pointers start in a finite set, the walk
  with as many steps as the set has elements misses nothing (`within_iff_reaches`);
* one pointer changed (`Function.update`). The change keeps the function acyclic exactly
  when the new parent is not below the node (`acyclic_update`), and leaves the ancestors
  of every node that is not below it as they were (`reaches_update_of_not_reaches`);
* nodes renamed (`reaches_rename`);
* fewer pointers (`Restricts`) : reachability and cycles only disappear;
* `bfs`, the breadth-first order of the nodes below a root. It lists each of them once, and
  all of them if it may take one step more than there are pointers (`bfs_closed`).
-/

namespace Forest

variable {α : Type*}

/-- `x` points to `y`. -/
def Up (parent : α → Option α) (x y : α) : Prop :=
  parent x = some y

/-- `a` is `x` or an ancestor of `x`. -/
def Reaches (parent : α → Option α) : α → α → Prop :=
  Relation.ReflTransGen (Up parent)

/-- No node is a proper ancestor of itself. -/
def Acyclic (parent : α → Option α) : Prop :=
  ∀ x, ¬Relation.TransGen (Up parent) x x

variable {parent : α → Option α} {x y z a : α}

theorem Up.unique (hy : Up parent x y) (hz : Up parent x z) : y = z :=
  Option.some_injective _ (hy.symm.trans hz)

@[refl] theorem Reaches.refl (x : α) : Reaches parent x x :=
  Relation.ReflTransGen.refl

theorem Reaches.head (h : Up parent x y) (hyz : Reaches parent y z) : Reaches parent x z :=
  Relation.ReflTransGen.head h hyz

theorem Reaches.tail (hxy : Reaches parent x y) (h : Up parent y z) : Reaches parent x z :=
  Relation.ReflTransGen.tail hxy h

/-- The ancestors of a node are itself and the ancestors of its parent. -/
theorem reaches_iff_of_parent (hx : parent x = some y) :
    Reaches parent x a ↔ a = x ∨ Reaches parent y a := by
  constructor
  · intro h
    rcases Relation.ReflTransGen.cases_head h with rfl | ⟨y', hy', h⟩
    · exact Or.inl rfl
    · rw [Up.unique hy' hx] at h
      exact Or.inr h
  · rintro (rfl | h)
    · exact Reaches.refl a
    · exact Reaches.head hx h

theorem Reaches.eq_of_top (h : Reaches parent x a) (hx : parent x = none) : a = x := by
  rcases Relation.ReflTransGen.cases_head h with rfl | ⟨y, hy, -⟩
  · rfl
  · rw [Up, hx] at hy
    cases hy

/-- A node has one topmost ancestor. -/
theorem eq_of_reaches_tops {b : α} (ha : Reaches parent x a) (hb : Reaches parent x b)
    (ha' : parent a = none) (hb' : parent b = none) : a = b := by
  have huniq : Relator.RightUnique (Up parent) := fun _ _ _ => Up.unique
  rcases Relation.ReflTransGen.total_of_right_unique huniq ha hb with h | h
  · exact (Reaches.eq_of_top h ha').symm
  · exact Reaches.eq_of_top h hb'

theorem Acyclic.ne_of_up (h : Acyclic parent) (hxy : Up parent x y) : x ≠ y := by
  rintro rfl
  exact h x (Relation.TransGen.single hxy)

/-- A parent is not below its child. -/
theorem Acyclic.not_reaches_of_up (h : Acyclic parent) (hxy : Up parent x y) :
    ¬Reaches parent y x :=
  fun hyx => h x (Relation.TransGen.head' hxy hyx)

theorem Acyclic.antisymm (h : Acyclic parent) (hxy : Reaches parent x y)
    (hyx : Reaches parent y x) : x = y := by
  rcases Relation.reflTransGen_iff_eq_or_transGen.1 hxy with rfl | hxy
  · rfl
  · exact absurd (hxy.trans_left hyx) (h x)

/-- Every node reached from a cycle is on the cycle. -/
theorem reaches_back_of_cycle (hx : Relation.TransGen (Up parent) x x)
    (hxy : Reaches parent x y) : Reaches parent y x := by
  induction hxy with
  | refl => exact Reaches.refl x
  | @tail y z _ hyz ih =>
    rcases Relation.ReflTransGen.cases_head ih with rfl | ⟨w, hyw, hwx⟩
    · obtain ⟨w, hyw, hwx⟩ := Relation.TransGen.head'_iff.1 hx
      exact hyw.unique hyz ▸ hwx
    · exact hyw.unique hyz ▸ hwx

/-! ## Bounded walks -/

/-- The `k`-th ancestor. -/
def climb (parent : α → Option α) : ℕ → α → Option α
  | 0, x => some x
  | k + 1, x => (parent x).bind (climb parent k)

/-- Look for `a` from `x` upwards in at most `k` nodes. -/
def within [DecidableEq α] (parent : α → Option α) (a : α) : ℕ → α → Bool
  | 0, _ => false
  | k + 1, x =>
    if x = a then true
    else match parent x with
      | some y => within parent a k y
      | none => false

theorem climb_succ_of_parent (hx : parent x = some y) (k : ℕ) :
    climb parent (k + 1) x = climb parent k y := by
  simp [climb, hx]

theorem climb_add (j k : ℕ) (x : α) :
    climb parent (j + k) x = (climb parent j x).bind (climb parent k) := by
  induction j generalizing x with
  | zero => simp [climb]
  | succ j ih =>
    rw [Nat.succ_add, climb, climb, Option.bind_assoc]
    exact congrArg _ (funext ih)

theorem reaches_of_climb : ∀ {k : ℕ} {x : α}, climb parent k x = some a → Reaches parent x a
  | 0, x, h => by
    obtain rfl := Option.some_injective _ h
    exact Reaches.refl x
  | k + 1, x, h => by
    obtain ⟨y, hy, hk⟩ := Option.bind_eq_some_iff.1 h
    exact Reaches.head hy (reaches_of_climb hk)

theorem exists_climb_of_reaches (h : Reaches parent x a) : ∃ k, climb parent k x = some a := by
  induction h using Relation.ReflTransGen.head_induction_on with
  | refl => exact ⟨0, rfl⟩
  | head hxy _ ih =>
    obtain ⟨k, hk⟩ := ih
    exact ⟨k + 1, (climb_succ_of_parent hxy k).trans hk⟩

theorem transGen_of_climb {k : ℕ} (h : climb parent (k + 1) x = some a) :
    Relation.TransGen (Up parent) x a := by
  obtain ⟨y, hy, hk⟩ := Option.bind_eq_some_iff.1 h
  exact Relation.TransGen.head' hy (reaches_of_climb hk)

/-- On an acyclic function the ancestors met on the way up are distinct. -/
theorem climb_injective (hac : Acyclic parent) {i j : ℕ} (hi : climb parent i x = some a)
    (hj : climb parent j x = some a) : i = j := by
  have aux : ∀ {i j : ℕ}, i < j → climb parent i x = some a → climb parent j x ≠ some a := by
    intro i j hij hi hj
    obtain ⟨d, rfl⟩ := Nat.exists_eq_add_of_lt hij
    rw [Nat.add_assoc, climb_add, hi] at hj
    exact hac a (transGen_of_climb hj)
  rcases Nat.lt_trichotomy i j with h | h | h
  · exact absurd hj (aux h hi)
  · exact h
  · exact absurd hi (aux h hj)

/-- The nodes met before the `k`-th ancestor all have a parent. -/
theorem parent_of_climb {k i : ℕ} (h : climb parent k x = some a) (hi : i < k) :
    ∃ y z, climb parent i x = some y ∧ parent y = some z := by
  obtain ⟨d, rfl⟩ := Nat.exists_eq_add_of_lt hi
  rw [Nat.add_assoc, climb_add] at h
  obtain ⟨y, hy, hd⟩ := Option.bind_eq_some_iff.1 h
  obtain ⟨z, hz, -⟩ := Option.bind_eq_some_iff.1 hd
  exact ⟨y, z, hy, hz⟩

/-- An acyclic function whose pointers start in `s` has no chain longer than `s`. -/
theorem le_card_of_climb (hac : Acyclic parent) {s : Finset α}
    (hs : ∀ x, parent x ≠ none → x ∈ s) {k : ℕ} (h : climb parent k x = some a) :
    k ≤ s.card := by
  classical
  have : Nonempty α := ⟨x⟩
  choose! f g hf using fun i (hi : i < k) => parent_of_climb h hi
  have hinj : Set.InjOn f (Finset.range k : Finset ℕ) := by
    intro i hi j hj hij
    have hi' := (hf i (Finset.mem_range.1 hi)).1
    have hj' := (hf j (Finset.mem_range.1 hj)).1
    rw [← hij] at hj'
    exact climb_injective hac hi' hj'
  have hmaps : ∀ i ∈ Finset.range k, f i ∈ s := by
    intro i hi
    refine hs _ ?_
    rw [(hf i (Finset.mem_range.1 hi)).2]
    exact Option.some_ne_none _
  simpa using Finset.card_le_card_of_injOn f hmaps hinj

/-- With finitely many parents, the way up from a node ends. -/
theorem exists_top (hac : Acyclic parent) {s : Finset α} (hs : ∀ x, parent x ≠ none → x ∈ s)
    (x : α) : ∃ a, Reaches parent x a ∧ parent a = none := by
  by_contra! hnone
  have hclimb : ∀ k, ∃ a, climb parent k x = some a := by
    intro k
    induction k with
    | zero => exact ⟨x, rfl⟩
    | succ k ih =>
      obtain ⟨a, ha⟩ := ih
      obtain ⟨b, hb⟩ := Option.ne_none_iff_exists'.1 (hnone a (reaches_of_climb ha))
      exact ⟨b, by rw [climb_add, ha]; simp [climb, hb]⟩
  obtain ⟨a, ha⟩ := hclimb (s.card + 1)
  exact absurd (le_card_of_climb hac hs ha) (by omega)

section Within

variable [DecidableEq α]

theorem reaches_of_within : ∀ {k : ℕ} {x : α}, within parent a k x = true → Reaches parent x a
  | 0, x, h => by simp [within] at h
  | k + 1, x, h => by
    by_cases hxa : x = a
    · exact hxa ▸ Reaches.refl x
    · cases hp : parent x with
      | none => simp [within, hxa, hp] at h
      | some y =>
        exact Reaches.head hp (reaches_of_within (k := k) (by simpa [within, hxa, hp] using h))

theorem within_of_climb : ∀ {j k : ℕ} {x : α}, climb parent j x = some a → j < k →
    within parent a k x = true
  | _, 0, _, _, hk => absurd hk (Nat.not_lt_zero _)
  | 0, k + 1, x, h, _ => by
    obtain rfl := Option.some_injective _ h
    simp [within]
  | j + 1, k + 1, x, h, hk => by
    obtain ⟨y, hy, hj⟩ := Option.bind_eq_some_iff.1 h
    by_cases hxa : x = a
    · simp [within, hxa]
    · simpa [within, hxa, hy] using within_of_climb hj (Nat.lt_of_succ_lt_succ hk)

/-- A walk with more nodes than there are pointers finds every ancestor. -/
theorem within_iff_reaches (hac : Acyclic parent) {s : Finset α}
    (hs : ∀ x, parent x ≠ none → x ∈ s) {k : ℕ} (hk : s.card < k) :
    within parent a k x = true ↔ Reaches parent x a := by
  refine ⟨reaches_of_within, fun h => ?_⟩
  obtain ⟨j, hj⟩ := exists_climb_of_reaches h
  exact within_of_climb hj (Nat.lt_of_le_of_lt (le_card_of_climb hac hs hj) hk)

end Within

/-! ## One pointer changed -/

section Update

variable [DecidableEq α] {c p : α}

theorem up_update_of_ne (h : x ≠ c) {v : Option α} :
    Up (Function.update parent c v) x y ↔ Up parent x y := by
  rw [Up, Up, Function.update_of_ne h]

/-- Ancestors of a node that is not below `c` do not depend on the pointer of `c`. -/
theorem reaches_update_of_not_reaches {v : Option α} (h : ¬Reaches parent x c) :
    Reaches (Function.update parent c v) x a ↔ Reaches parent x a := by
  constructor
  · intro hxa
    induction hxa with
    | refl => exact Reaches.refl x
    | tail _ hyz ih =>
      refine ih.tail ((up_update_of_ne ?_).1 hyz)
      rintro rfl
      exact h ih
  · intro hxa
    induction hxa with
    | refl => exact Reaches.refl x
    | tail hxy hyz ih =>
      refine Reaches.tail ih ((up_update_of_ne ?_).2 hyz)
      rintro rfl
      exact h hxy

/-- What reaches `a` still does once some node points to `a`. -/
theorem reaches_update_top (h : Reaches parent x a) :
    Reaches (Function.update parent c (some a)) x a := by
  induction h using Relation.ReflTransGen.head_induction_on with
  | refl => exact Reaches.refl a
  | @head x y hxy _ ih =>
    by_cases hx : x = c
    · subst hx
      exact Reaches.head (Function.update_self ..) (Reaches.refl a)
    · exact Reaches.head ((up_update_of_ne hx).2 hxy) ih

/-- Whether a node is below `c` does not depend on the pointer of `c`. -/
theorem reaches_self_update {v : Option α} :
    Reaches (Function.update parent c v) x c ↔ Reaches parent x c := by
  constructor
  · intro h
    by_contra hn
    exact hn ((reaches_update_of_not_reaches hn).1 h)
  · intro h
    by_contra hn
    have h' : Reaches (Function.update (Function.update parent c v) c (parent c)) x c := by
      simpa using h
    exact hn ((reaches_update_of_not_reaches hn).1 h')

/-- Pointing `c` to a node that is not below `c` makes no cycle. -/
theorem acyclic_update (hac : Acyclic parent) (h : ¬Reaches parent p c) :
    Acyclic (Function.update parent c (some p)) := by
  intro x hx
  obtain ⟨y, hxy, hyx⟩ := Relation.TransGen.head'_iff.1 hx
  by_cases hxc : Reaches (Function.update parent c (some p)) x c
  · -- the cycle passes through `c`, and so through `p` back to `c`
    have hcc : Relation.TransGen (Up (Function.update parent c (some p))) c c :=
      Relation.TransGen.trans_left (Relation.TransGen.trans_right
        (reaches_back_of_cycle hx hxc) hx) hxc
    obtain ⟨z, hcz, hzc⟩ := Relation.TransGen.head'_iff.1 hcc
    rw [Up, Function.update_self, Option.some_inj] at hcz
    subst hcz
    exact h (reaches_self_update.1 hzc)
  · have hne : x ≠ c := fun e => hxc (e ▸ Reaches.refl x)
    have hyc : ¬Reaches parent y c := fun e =>
      hxc (Reaches.head hxy (reaches_self_update.2 e))
    exact hac x (Relation.TransGen.head' ((up_update_of_ne hne).1 hxy)
      ((reaches_update_of_not_reaches hyc).1 hyx))

end Update

/-! ## Many pointers changed -/

section Agree

variable {parent' : α → Option α}

/-- If the pointers on the way from `x` to `a` are kept, `a` is still above `x`. -/
theorem reaches_of_agree (hxa : Reaches parent x a)
    (h : ∀ y, Reaches parent x y → Reaches parent y a → y ≠ a → parent' y = parent y) :
    Reaches parent' x a := by
  induction hxa using Relation.ReflTransGen.head_induction_on with
  | refl => exact Reaches.refl a
  | @head x y hxy hya ih =>
    by_cases hxa : x = a
    · exact hxa ▸ Reaches.refl x
    · refine Reaches.head ((h x (Reaches.refl x) (Reaches.head hxy hya) hxa).trans hxy) ?_
      exact ih fun z hyz hza hne => h z (Reaches.head hxy hyz) hza hne

/-- If every node above `x` keeps its pointer, `x` keeps its ancestors. -/
theorem reaches_congr (h : ∀ y, Reaches parent x y → parent' y = parent y) :
    Reaches parent' x a ↔ Reaches parent x a := by
  refine ⟨fun hxa => ?_, fun hxa => reaches_of_agree hxa fun y hy _ _ => h y hy⟩
  induction hxa with
  | refl => exact Reaches.refl x
  | tail _ hyz ih => exact ih.tail ((h _ ih).symm.trans hyz)

/-- Siblings that are not above `l` are pointed to `l`. The nodes below `l` are then those
that were, and those below one of the siblings. -/
theorem reaches_redirect (hac : Acyclic parent) {s : Set α} {l top : α}
    (hs : ∀ y ∈ s, parent y = some top) (hs' : ∀ y ∈ s, parent' y = some l)
    (hrest : ∀ y, y ∉ s → parent' y = parent y) :
    Reaches parent' x l ↔ Reaches parent x l ∨ ∃ y ∈ s, Reaches parent x y := by
  have hlast : ∀ y ∈ s, ∀ z ∈ s, Reaches parent z y → z = y := by
    intro y hy z hz hzy
    by_contra hne
    have htop := ((reaches_iff_of_parent (hs z hz)).1 hzy).resolve_left (Ne.symm hne)
    exact hac.not_reaches_of_up (hs y hy) htop
  by_cases hx : ∃ y ∈ s, Reaches parent x y
  · refine iff_of_true ?_ (Or.inr hx)
    obtain ⟨y, hy, hxy⟩ := hx
    refine Reaches.tail (reaches_of_agree hxy fun z _ hzy hne => hrest z fun hz => ?_) (hs' y hy)
    exact hne (hlast y hy z hz hzy)
  · rw [or_iff_left hx]
    exact reaches_congr fun y hy => hrest y fun hys => hx ⟨y, hys, hy⟩

end Agree

/-! ## Nodes renamed -/

section Rename

variable {β : Type*} {parent' : β → Option β} {f : α → β} {s : Set α}

/-- Renaming the nodes of a set closed under parents renames the ancestors of its nodes. -/
theorem reaches_rename (hf : Set.InjOn f s) (hs : ∀ x ∈ s, ∀ y, Up parent x y → y ∈ s)
    (hparent : ∀ x ∈ s, parent' (f x) = (parent x).map f) (hx : x ∈ s) (ha : a ∈ s) :
    Reaches parent' (f x) (f a) ↔ Reaches parent x a := by
  constructor
  · intro h
    suffices ∀ u, Reaches parent' u (f a) → ∀ x ∈ s, f x = u → Reaches parent x a from
      this _ h x hx rfl
    intro u hu
    induction hu using Relation.ReflTransGen.head_induction_on with
    | refl =>
      intro x hx hfx
      rw [hf hx ha hfx]
    | head huv _ ih =>
      rintro x hx rfl
      obtain ⟨y, hxy, rfl⟩ := Option.map_eq_some_iff.1 ((hparent x hx).symm.trans huv)
      exact Reaches.head hxy (ih y (hs x hx y hxy) rfl)
  · intro h
    induction h using Relation.ReflTransGen.head_induction_on with
    | refl => exact Reaches.refl _
    | @head x y hxy _ ih =>
      refine Reaches.head (y := f y) ?_ (ih (hs x hx y hxy))
      rw [Up, hparent x hx, hxy, Option.map_some]

end Rename

/-! ## Fewer pointers -/

/-- Every pointer of `parent'` is one of `parent`. -/
def Restricts (parent' parent : α → Option α) : Prop :=
  ∀ x y, parent' x = some y → parent x = some y

variable {parent' : α → Option α}

theorem Restricts.reaches (h : Restricts parent' parent) (hxa : Reaches parent' x a) :
    Reaches parent x a :=
  Relation.ReflTransGen.mono (fun y z => h y z) _ _ hxa

theorem Restricts.acyclic (h : Restricts parent' parent) (hac : Acyclic parent) : Acyclic parent' :=
  fun x hx => hac x (Relation.TransGen.mono (fun y z => h y z) x x hx)

/-! ## Breadth-first order -/

section Breadth

/-- The nodes below those of `queue`, breadth first, at most `k` of them. -/
def bfs (succ : α → List α) : ℕ → List α → List α
  | 0, _ => []
  | _ + 1, [] => []
  | k + 1, x :: queue => x :: bfs succ k (queue ++ succ x)

/-- `succ` lists children, each once. -/
structure Downward (parent : α → Option α) (succ : α → List α) : Prop where
  up : ∀ x, ∀ y ∈ succ x, Up parent y x
  nodup : ∀ x, (succ x).Nodup

/-- Between two steps of a traversal from `r` : `done` is visited, `queue` is waiting. -/
structure Front (parent : α → Option α) (succ : α → List α) (r : α) (done queue : List α) :
    Prop where
  nodup : (done ++ queue).Nodup
  reaches : ∀ x ∈ done ++ queue, Reaches parent x r
  found : ∀ x ∈ done ++ queue, x = r ∨ ∃ y ∈ done, x ∈ succ y
  closed : ∀ x ∈ done, ∀ y ∈ succ x, y ∈ done ++ queue

variable {succ : α → List α} {r : α} {done queue : List α}

theorem front_init (parent : α → Option α) (succ : α → List α) (r : α) :
    Front parent succ r [] [r] where
  nodup := List.nodup_singleton r
  reaches x hx := by rw [List.mem_singleton.1 hx]
  found x hx := Or.inl (List.mem_singleton.1 hx)
  closed x hx := absurd hx List.not_mem_nil

/-- The children of the next node are new : they have no other parent, and the root is not
below itself. -/
theorem Front.step (hac : Acyclic parent) (hd : Downward parent succ)
    (h : Front parent succ r done (x :: queue)) :
    Front parent succ r (done ++ [x]) (queue ++ succ x) := by
  have heq : done ++ [x] ++ (queue ++ succ x) = done ++ x :: queue ++ succ x := by simp
  have hx : x ∈ done ++ x :: queue := by simp
  have hxd : x ∉ done := fun hmem =>
    (List.nodup_append.1 h.nodup).2.2 x hmem x List.mem_cons_self rfl
  refine ⟨?_, ?_, ?_, ?_⟩
  · rw [heq]
    refine List.nodup_append.2 ⟨h.nodup, hd.nodup x, ?_⟩
    rintro y hy z hz rfl
    have hyx := hd.up x y hz
    rcases h.found y hy with rfl | ⟨w, hw, hyw⟩
    · exact hac.not_reaches_of_up hyx (h.reaches x hx)
    · exact hxd (hyx.unique (hd.up w y hyw) ▸ hw)
  · rw [heq]
    intro y hy
    rcases List.mem_append.1 hy with hy | hy
    · exact h.reaches y hy
    · exact (h.reaches x hx).head (hd.up x y hy)
  · rw [heq]
    intro y hy
    rcases List.mem_append.1 hy with hy | hy
    · exact (h.found y hy).imp_right fun ⟨w, hw, hyw⟩ => ⟨w, List.mem_append_left _ hw, hyw⟩
    · exact Or.inr ⟨x, by simp, hy⟩
  · rw [heq]
    intro y hy z hz
    rcases List.mem_append.1 hy with hy | hy
    · exact List.mem_append_left _ (h.closed y hy z hz)
    · exact List.mem_append_right _ (List.mem_singleton.1 hy ▸ hz)

/-- A traversal ends with an empty queue, or has taken all its steps. -/
theorem Front.bfs (hac : Acyclic parent) (hd : Downward parent succ) (k : ℕ)
    (h : Front parent succ r done queue) :
    ∃ rest, Front parent succ r (done ++ bfs succ k queue) rest ∧
      (rest = [] ∨ (bfs succ k queue).length = k) := by
  induction k generalizing done queue with
  | zero => exact ⟨queue, by simpa [Forest.bfs] using h, Or.inr rfl⟩
  | succ k ih =>
    cases queue with
    | nil => exact ⟨[], by simpa [Forest.bfs] using h, Or.inl rfl⟩
    | cons x queue =>
      obtain ⟨rest, hf, hend⟩ := ih (h.step hac hd)
      refine ⟨rest, by simpa [Forest.bfs] using hf, hend.imp_right fun hlen => ?_⟩
      rw [Forest.bfs, List.length_cons, hlen]

/-- All nodes of a traversal but the root have a parent. -/
theorem Front.length_le (hd : Downward parent succ) {s : Finset α}
    (hs : ∀ x, parent x ≠ none → x ∈ s) (h : Front parent succ r done queue) :
    (done ++ queue).length ≤ s.card + 1 := by
  classical
  have hsub : (done ++ queue).toFinset ⊆ insert r s := by
    intro x hx
    rcases h.found x (List.mem_toFinset.1 hx) with rfl | ⟨y, -, hxy⟩
    · exact Finset.mem_insert_self _ _
    · refine Finset.mem_insert_of_mem (hs x ?_)
      rw [hd.up y x hxy]
      exact Option.some_ne_none y
  rw [← List.toFinset_card_of_nodup h.nodup]
  exact (Finset.card_le_card hsub).trans (Finset.card_insert_le r s)

/-- With one step more than there are pointers the traversal leaves nothing waiting. -/
theorem front_bfs (hac : Acyclic parent) (hd : Downward parent succ) {s : Finset α}
    (hs : ∀ x, parent x ≠ none → x ∈ s) {k : ℕ} (hk : s.card < k) (r : α) :
    Front parent succ r (bfs succ k [r]) [] := by
  obtain ⟨rest, hf, hend⟩ := (front_init parent succ r).bfs hac hd k
  have hlen := hf.length_le hd hs
  rcases hend with rfl | hend
  · exact hf
  · have hrest : rest.length = 0 := by
      simp only [List.nil_append, List.length_append, hend] at hlen
      omega
    rwa [List.length_eq_zero_iff.1 hrest] at hf

end Breadth

end Forest
