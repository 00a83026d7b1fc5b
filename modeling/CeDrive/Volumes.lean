import Mathlib.Data.List.Basic
import Mathlib.Data.Option.Basic
import Mathlib.Logic.Function.Basic

/-!
# Files that outlive a crash

A volume maps paths to inodes and inodes to data. Changes of the directory become durable in
order but at any time, data when it is synced : a power loss gives back the directory as it was
at some time since the last one, and any data for an inode that was not synced (`powerLoss`). A
process that is killed leaves its calls half done, and a torn write (`cut`).

Some paths are kept, the others are scratch. Calls that write scratch files only, and rename
one over a kept path only once it is synced, never touch what a kept path holds in any
directory that a power loss may give back (`Safe`, `Safe.apply`). So replacing a kept file by
writing a scratch file, syncing and renaming it is atomic : however it is cut, every such
directory holds at the kept paths what an old one held, or what the current one held with the
file replaced (`Safe.replace`).
-/

namespace Volumes

variable {π β : Type*}

/-- `past` are the directories since the last power loss, `next` is above all inodes. -/
structure Volume (π β : Type*) where
  dir : π → Option ℕ
  past : List (π → Option ℕ)
  data : ℕ → β
  synced : ℕ → Bool
  next : ℕ

/-- Open a file for writing with the data `b`, write it, sync it, rename it, remove it. -/
inductive Call (π β : Type*)
  | create (p : π) (b : β)
  | write (p : π) (b : β)
  | sync (p : π)
  | rename (p q : π)
  | remove (p : π)

namespace Volume

variable [DecidableEq π]

def empty (b : β) : Volume π β :=
  ⟨fun _ => none, [], fun _ => b, fun _ => true, 0⟩

/-- The directories that a power loss may give back. -/
def dirs (v : Volume π β) : List (π → Option ℕ) :=
  v.dir :: v.past

/-- What a directory holds at a path. -/
def holds (v : Volume π β) (D : π → Option ℕ) (p : π) : Option β :=
  (D p).map v.data

def read (v : Volume π β) (p : π) : Option β :=
  v.holds v.dir p

/-- Set the data of an inode, unsynced. -/
def put (v : Volume π β) (i : ℕ) (b : β) : Volume π β :=
  { v with data := Function.update v.data i b, synced := Function.update v.synced i false }

/-- Change the directory. -/
def relink (v : Volume π β) (D : π → Option ℕ) : Volume π β :=
  { v with dir := D, past := v.dirs }

def apply (v : Volume π β) : Call π β → Volume π β
  | .create p b =>
    match v.dir p with
    | some i => v.put i b
    | none =>
      { (v.put v.next b).relink (Function.update v.dir p (some v.next)) with next := v.next + 1 }
  | .write p b =>
    match v.dir p with
    | some i => v.put i b
    | none => v
  | .sync p =>
    match v.dir p with
    | some i => { v with synced := Function.update v.synced i true }
    | none => v
  | .rename p q =>
    match v.dir p with
    | some i => v.relink (Function.update (Function.update v.dir q (some i)) p none)
    | none => v
  | .remove p => v.relink (Function.update v.dir p none)

def applyAll (v : Volume π β) (calls : List (Call π β)) : Volume π β :=
  calls.foldl apply v

section Equations

variable {v : Volume π β} {p : π} {i : ℕ}

theorem apply_create_of_some (hi : v.dir p = some i) (b : β) : v.apply (.create p b) = v.put i b := by
  rw [apply, hi]

theorem apply_create_of_none (hi : v.dir p = none) (b : β) : v.apply (.create p b) =
    { (v.put v.next b).relink (Function.update v.dir p (some v.next)) with next := v.next + 1 } := by
  rw [apply, hi]

theorem apply_write (hi : v.dir p = some i) (b : β) : v.apply (.write p b) = v.put i b := by
  rw [apply, hi]

theorem apply_sync (hi : v.dir p = some i) :
    v.apply (.sync p) = { v with synced := Function.update v.synced i true } := by
  rw [apply, hi]

theorem apply_rename (hi : v.dir p = some i) (q : π) : v.apply (.rename p q) =
    v.relink (Function.update (Function.update v.dir q (some i)) p none) := by
  rw [apply, hi]

end Equations

/-- The power fails : the directory is the `k`-th from the current one, and inodes that were not
synced hold `junk`. -/
def powerLoss (v : Volume π β) (k : ℕ) (junk : ℕ → β) : Volume π β :=
  { v with
    dir := (v.dirs[k]?).getD v.dir
    past := []
    data := fun i => if v.synced i then v.data i else junk i
    synced := fun _ => true }

end Volume

/-- A write that is under way writes something else. -/
def tornWrite (torn : β) : Option (Call π β) → List (Call π β)
  | some (.write p _) => [.write p torn]
  | _ => []

/-- The calls of a process that is killed after `k` of them, a write under way being torn. -/
def cut (calls : List (Call π β)) : Option (ℕ × β) → List (Call π β)
  | none => calls
  | some (k, torn) => calls.take k ++ tornWrite torn calls[k]?

/-! ## Kept paths -/

variable {P : π → Prop} {v : Volume π β} {D : π → Option ℕ} {p q : π} {i : ℕ} {b : β}

/-- What the kept paths hold is synced, and no scratch file of the current directory shares an
inode with them. -/
structure Safe (P : π → Prop) (v : Volume π β) : Prop where
  synced : ∀ D ∈ v.dirs, ∀ q i, P q → D q = some i → v.synced i = true
  apart : ∀ D ∈ v.dirs, ∀ q i, P q → D q = some i → ∀ p, v.dir p = some i → P p
  unlinked : ∀ D ∈ v.dirs, ∀ p p' i, D p = some i → D p' = some i → p = p'
  below : ∀ D ∈ v.dirs, ∀ p i, D p = some i → i < v.next

/-- A call that writes scratch files, and renames a file over a kept path only once it is
synced. -/
def Allowed (P : π → Prop) (v : Volume π β) : Call π β → Prop
  | .create p _ | .write p _ => ¬P p
  | .sync _ | .remove _ => True
  | .rename p q => ¬P p ∧ (P q → ∀ i, v.dir p = some i → v.synced i = true)

theorem Volume.mem_dirs_self (v : Volume π β) : v.dir ∈ v.dirs :=
  List.mem_cons_self

theorem safe_empty (P : π → Prop) (b : β) : Safe P (Volume.empty b : Volume π β) := by
  have hnone : ∀ D ∈ (Volume.empty b : Volume π β).dirs, ∀ p i, D p ≠ some i := by
    intro D hD p i
    rw [List.mem_singleton.1 hD]
    exact Option.some_ne_none i ∘ Eq.symm
  exact ⟨fun D hD q i _ h => absurd h (hnone D hD q i), fun D hD q i _ h => absurd h (hnone D hD q i),
    fun D hD p _ i h => absurd h (hnone D hD p i), fun D hD p i h => absurd h (hnone D hD p i)⟩

/-- Data of an inode that no kept path has in any directory may change. -/
theorem Safe.put (h : Safe P v) (hi : ∀ D ∈ v.dirs, ∀ q, P q → D q ≠ some i) (b : β) :
    Safe P (v.put i b) := by
  refine ⟨fun D hD q j hq hj => ?_, h.apart, h.unlinked, h.below⟩
  have hne : j ≠ i := fun hji => hi D hD q hq (hji ▸ hj)
  exact (Function.update_of_ne hne _ _).trans (h.synced D hD q j hq hj)

/-- A directory may follow whose kept paths have synced inodes that none of its scratch paths
has, if no scratch path of it has an inode that a kept path had. -/
theorem Safe.relink (h : Safe P v) (hsync : ∀ q i, P q → D q = some i → v.synced i = true)
    (hold : ∀ D' ∈ v.dirs, ∀ q i, P q → D' q = some i → ∀ p, D p = some i → P p)
    (hinj : ∀ p p' i, D p = some i → D p' = some i → p = p')
    (hbelow : ∀ p i, D p = some i → i < v.next) : Safe P (v.relink D) where
  synced D' hD' q i hq hi := by
    rcases List.mem_cons.1 hD' with rfl | hD'
    · exact hsync q i hq hi
    · exact h.synced D' hD' q i hq hi
  apart D' hD' q i hq hi p hp := by
    rcases List.mem_cons.1 hD' with rfl | hD'
    · exact hinj q p i hi hp ▸ hq
    · exact hold D' hD' q i hq hi p hp
  unlinked D' hD' := by
    rcases List.mem_cons.1 hD' with rfl | hD'
    · exact hinj
    · exact h.unlinked D' hD'
  below D' hD' := by
    rcases List.mem_cons.1 hD' with rfl | hD'
    · exact hbelow
    · exact h.below D' hD'

/-- More inodes may be in use. -/
theorem Safe.grow (h : Safe P v) {n : ℕ} (hn : v.next ≤ n) : Safe P { v with next := n } :=
  ⟨h.synced, h.apart, h.unlinked, fun D hD p i hi => Nat.lt_of_lt_of_le (h.below D hD p i hi) hn⟩

/-- What a kept path holds in a directory of the volume does not depend on an inode that no kept
path has. -/
theorem holds_put (hi : ∀ D ∈ v.dirs, ∀ q, P q → D q ≠ some i) (hD : D ∈ v.dirs) (hq : P q) :
    (v.put i b).holds D q = v.holds D q := by
  unfold Volume.holds
  cases hj : D q with
  | none => rfl
  | some j =>
    have hne : j ≠ i := fun hji => hi D hD q hq (hji ▸ hj)
    have hdata : (v.put i b).data j = v.data j := by
      show Function.update v.data i b j = v.data j
      exact Function.update_of_ne hne b v.data
    exact congrArg some hdata

/-- The inode of a scratch file is that of no kept path. -/
theorem Safe.ne_of_scratch (h : Safe P v) (hp : ¬P p) (hi : v.dir p = some i) :
    ∀ D ∈ v.dirs, ∀ q, P q → D q ≠ some i :=
  fun D hD q hq hqi => hp (h.apart D hD q i hq hqi p hi)

theorem Safe.ne_next (h : Safe P v) : ∀ D ∈ v.dirs, ∀ q, P q → D q ≠ some v.next :=
  fun D hD q _ hq => absurd (h.below D hD q v.next hq) (Nat.lt_irrefl _)

variable [DecidableEq π]

theorem eq_some_of_update {n j : ℕ} (h : Function.update D p (some n) q = some j) :
    q = p ∧ j = n ∨ q ≠ p ∧ D q = some j := by
  by_cases hq : q = p
  · rw [hq, Function.update_self] at h
    exact Or.inl ⟨hq, (Option.some_injective _ h).symm⟩
  · rw [Function.update_of_ne hq] at h
    exact Or.inr ⟨hq, h⟩

theorem eq_some_of_update_none {j : ℕ} (h : Function.update D p none q = some j) :
    q ≠ p ∧ D q = some j := by
  by_cases hq : q = p
  · rw [hq, Function.update_self] at h
    cases h
  · rw [Function.update_of_ne hq] at h
    exact ⟨hq, h⟩

/-- Allowed calls leave what the kept paths hold in every directory so far. -/
theorem Safe.holds_apply (h : Safe P v) {c : Call π β} (hc : Allowed P v c) (hD : D ∈ v.dirs)
    (hq : P q) : (v.apply c).holds D q = v.holds D q := by
  cases c with
  | create p b =>
    cases hi : v.dir p with
    | some i =>
      rw [Volume.apply_create_of_some hi]
      exact holds_put (h.ne_of_scratch hc hi) hD hq
    | none =>
      rw [Volume.apply_create_of_none hi]
      exact holds_put h.ne_next hD hq
  | write p b =>
    cases hi : v.dir p with
    | some i =>
      rw [Volume.apply_write hi]
      exact holds_put (h.ne_of_scratch hc hi) hD hq
    | none =>
      rw [Volume.apply, hi]
  | sync p =>
    rw [Volume.apply]
    split <;> rfl
  | rename p q' =>
    rw [Volume.apply]
    split <;> rfl
  | remove p => rfl

/-- Allowed calls keep a volume safe. -/
theorem Safe.apply (h : Safe P v) {c : Call π β} (hc : Allowed P v c) : Safe P (v.apply c) := by
  have hself := v.mem_dirs_self
  cases c with
  | create p b =>
    cases hi : v.dir p with
    | some i =>
      rw [Volume.apply_create_of_some hi]
      exact h.put (h.ne_of_scratch hc hi) b
    | none =>
      rw [Volume.apply_create_of_none hi]
      have hput := (h.put h.ne_next b).grow (Nat.le_succ v.next)
      refine hput.relink (fun q j hq hj => ?_) (fun D' hD' q j hq hj p' hp' => ?_)
        (fun p' p'' j hj hj' => ?_) fun p' j hj => ?_
      · rcases eq_some_of_update hj with ⟨rfl, -⟩ | ⟨-, hj⟩
        · exact absurd hq hc
        · exact hput.synced v.dir hself q j hq hj
      · rcases eq_some_of_update hp' with ⟨-, rfl⟩ | ⟨-, hp'⟩
        · exact absurd hj (h.ne_next D' hD' q hq)
        · exact h.apart D' hD' q j hq hj p' hp'
      · have hbelow := h.below v.dir hself
        rcases eq_some_of_update hj with ⟨hp', hji⟩ | ⟨-, hold⟩ <;>
          rcases eq_some_of_update hj' with ⟨hp'', hji'⟩ | ⟨-, hold'⟩
        · rw [hp', hp'']
        · exact absurd (hbelow p'' _ (hji ▸ hold')) (Nat.lt_irrefl _)
        · exact absurd (hbelow p' _ (hji' ▸ hold)) (Nat.lt_irrefl _)
        · exact h.unlinked v.dir hself p' p'' j hold hold'
      · rcases eq_some_of_update hj with ⟨-, rfl⟩ | ⟨-, hj⟩
        · exact Nat.lt_succ_self _
        · exact Nat.lt_succ_of_lt (h.below v.dir hself p' j hj)
  | write p b =>
    cases hi : v.dir p with
    | some i =>
      rw [Volume.apply_write hi]
      exact h.put (h.ne_of_scratch hc hi) b
    | none =>
      rw [Volume.apply, hi]
      exact h
  | sync p =>
    cases hi : v.dir p with
    | some i =>
      rw [Volume.apply_sync hi]
      refine ⟨fun D hD q j hq hj => ?_, h.apart, h.unlinked, h.below⟩
      by_cases hji : j = i
      · rw [hji]
        exact Function.update_self ..
      · exact (Function.update_of_ne hji _ _).trans (h.synced D hD q j hq hj)
    | none =>
      rw [Volume.apply, hi]
      exact h
  | rename p q =>
    cases hi : v.dir p with
    | none =>
      rw [Volume.apply, hi]
      exact h
    | some i =>
      obtain ⟨hscratch, hsync⟩ := hc
      rw [Volume.apply_rename hi]
      -- a path of the new directory is `q` with the inode of `p`, or an old path
      have hnew : ∀ p' j, Function.update (Function.update v.dir q (some i)) p none p' = some j →
          p' ≠ p ∧ (p' = q ∧ j = i ∨ p' ≠ q ∧ v.dir p' = some j) := by
        intro p' j hj
        obtain ⟨hp', hj⟩ := eq_some_of_update_none hj
        exact ⟨hp', eq_some_of_update hj⟩
      refine h.relink (fun q' j hq' hj => ?_) (fun D' hD' q' j hq' hj p' hp' => ?_)
        (fun p' p'' j hj hj' => ?_) fun p' j hj => ?_
      · obtain ⟨-, ⟨rfl, rfl⟩ | ⟨-, hj⟩⟩ := hnew q' j hj
        · exact hsync hq' j hi
        · exact h.synced v.dir hself q' j hq' hj
      · obtain ⟨-, ⟨rfl, rfl⟩ | ⟨-, hp'⟩⟩ := hnew p' j hp'
        · exact absurd (h.apart D' hD' q' j hq' hj p hi) hscratch
        · exact h.apart D' hD' q' j hq' hj p' hp'
      · obtain ⟨hp', ⟨hq, hji⟩ | ⟨-, hold⟩⟩ := hnew p' j hj <;>
          obtain ⟨hp'', ⟨hq', hji'⟩ | ⟨-, hold'⟩⟩ := hnew p'' j hj'
        · rw [hq, hq']
        · exact absurd (h.unlinked v.dir hself p'' p i (hji ▸ hold') hi) hp''
        · exact absurd (h.unlinked v.dir hself p' p i (hji' ▸ hold) hi) hp'
        · exact h.unlinked v.dir hself p' p'' j hold hold'
      · obtain ⟨-, ⟨-, rfl⟩ | ⟨-, hj⟩⟩ := hnew p' j hj
        · exact h.below v.dir hself p j hi
        · exact h.below v.dir hself p' j hj
  | remove p =>
    have hold : ∀ p' j, Function.update v.dir p none p' = some j → v.dir p' = some j :=
      fun p' j hj => (eq_some_of_update_none hj).2
    exact h.relink (fun q' j hq' hj => h.synced v.dir hself q' j hq' (hold q' j hj))
      (fun D' hD' q' j hq' hj p' hp' => h.apart D' hD' q' j hq' hj p' (hold p' j hp'))
      (fun p' p'' j hj hj' => h.unlinked v.dir hself p' p'' j (hold p' j hj) (hold p'' j hj'))
      fun p' j hj => h.below v.dir hself p' j (hold p' j hj)

/-! ## What the kept paths hold -/

/-- What the kept paths of a directory hold. -/
def view (P : π → Prop) (v : Volume π β) (D : π → Option ℕ) : {p // P p} → Option β :=
  fun p => v.holds D p

/-- What the kept paths hold in each directory that a power loss may give back, the current one
first. -/
def views (P : π → Prop) (v : Volume π β) : List ({p // P p} → Option β) :=
  v.dirs.map (view P v)

omit [DecidableEq π] in
/-- The data of the kept paths is as in `v`. -/
theorem map_view_eq {v' : Volume π β} {Ds : List (π → Option ℕ)}
    (h : ∀ D ∈ Ds, ∀ q, P q → v'.holds D q = v.holds D q) : Ds.map (view P v') = Ds.map (view P v) :=
  List.map_congr_left fun D hD => funext fun q => h D hD q q.2

/-- A call on a scratch file. -/
def Scratch (P : π → Prop) : Call π β → Prop
  | .create p _ | .write p _ | .sync p => ¬P p
  | .rename .. | .remove _ => False

omit [DecidableEq π] in
theorem Scratch.allowed {c : Call π β} (hc : Scratch P c) : Allowed P v c := by
  cases c with
  | create p b => exact hc
  | write p b => exact hc
  | sync p => trivial
  | rename p q => exact hc.elim
  | remove p => exact hc.elim

/-- Calls on scratch files change no view : the current one may be repeated. -/
theorem Safe.views_scratch (h : Safe P v) {c : Call π β} (hc : Scratch P c) :
    ∃ k, views P (v.apply c) = List.replicate k (view P v v.dir) ++ views P v := by
  have hholds : ∀ D ∈ v.dirs, ∀ q, P q → (v.apply c).holds D q = v.holds D q := fun D hD q hq =>
    h.holds_apply hc.allowed hD hq
  by_cases hdirs : (v.apply c).dirs = v.dirs
  · exact ⟨0, by rw [views, hdirs, map_view_eq hholds, views, List.replicate_zero, List.nil_append]⟩
  · cases c with
    | create p b =>
      cases hi : v.dir p with
      | some i => exact absurd (by rw [Volume.apply_create_of_some hi]; rfl) hdirs
      | none =>
        refine ⟨1, ?_⟩
        have hnew : (v.apply (.create p b)).dirs = Function.update v.dir p (some v.next) :: v.dirs := by
          rw [Volume.apply_create_of_none hi]
          rfl
        have hview : view P (v.apply (.create p b)) (Function.update v.dir p (some v.next)) =
            view P v v.dir := by
          funext q
          have hq : (q : π) ≠ p := fun heq => hc (heq ▸ q.2)
          have hsame : Function.update v.dir p (some v.next) q = v.dir q := Function.update_of_ne hq _ _
          rw [view, Volume.holds, hsame]
          exact hholds v.dir v.mem_dirs_self q q.2
        rw [views, hnew, List.map_cons, hview, map_view_eq hholds]
        rfl
    | write p b =>
      refine absurd ?_ hdirs
      rw [Volume.apply]
      split <;> rfl
    | sync p =>
      refine absurd ?_ hdirs
      rw [Volume.apply]
      split <;> rfl
    | rename p q => exact hc.elim
    | remove p => exact hc.elim

/-- Several calls on scratch files. -/
theorem Safe.applyAll_scratch (h : Safe P v) {calls : List (Call π β)} (hc : ∀ c ∈ calls, Scratch P c) :
    Safe P (v.applyAll calls) ∧
      (view P (v.applyAll calls) (v.applyAll calls).dir = view P v v.dir) ∧
      ∃ k, views P (v.applyAll calls) = List.replicate k (view P v v.dir) ++ views P v := by
  induction calls generalizing v with
  | nil => exact ⟨h, rfl, 0, rfl⟩
  | cons c calls ih =>
    have hscratch := hc c List.mem_cons_self
    obtain ⟨k, hk⟩ := h.views_scratch hscratch
    have hhead : view P (v.apply c) (v.apply c).dir = view P v v.dir := by
      have hfst := congrArg List.head? hk
      rw [show (views P (v.apply c)).head? = some (view P (v.apply c) (v.apply c).dir) from rfl] at hfst
      cases k with
      | zero => exact Option.some_injective _ hfst
      | succ k => exact Option.some_injective _ hfst
    obtain ⟨hsafe, hview, m, hm⟩ := ih (h.apply hscratch.allowed)
      fun c' hc' => hc c' (List.mem_cons_of_mem _ hc')
    refine ⟨hsafe, hview.trans hhead, m + k, hm.trans ?_⟩
    rw [hhead, hk, ← List.append_assoc, List.replicate_append_replicate]

/-- A synced scratch file that is renamed over a kept path replaces what it holds. -/
theorem Safe.views_rename (h : Safe P v) (hp : ¬P p) (hq : P q) (hi : v.dir p = some i)
    (hsync : v.synced i = true) : Safe P (v.apply (.rename p q)) ∧
      views P (v.apply (.rename p q)) =
        Function.update (view P v v.dir) ⟨q, hq⟩ (some (v.data i)) :: views P v := by
  have hc : Allowed P v (.rename p q) :=
    ⟨hp, fun _ j hj => Option.some_injective _ (hi.symm.trans hj) ▸ hsync⟩
  refine ⟨h.apply hc, ?_⟩
  have hview : view P v (Function.update (Function.update v.dir q (some i)) p none) =
      Function.update (view P v v.dir) ⟨q, hq⟩ (some (v.data i)) := by
    funext r
    have hrp : (r : π) ≠ p := fun heq => hp (heq ▸ r.2)
    rw [view, Volume.holds, Function.update_of_ne hrp]
    by_cases hrq : r = ⟨q, hq⟩
    · subst hrq
      rw [Function.update_self, Function.update_self]
      rfl
    · rw [Function.update_of_ne hrq, Function.update_of_ne fun heq => hrq (Subtype.ext heq)]
      rfl
  rw [Volume.apply_rename hi, ← hview]
  rfl

/-- Removing a file. -/
theorem Safe.views_remove (h : Safe P v) (p : π) : Safe P (v.apply (.remove p)) ∧
    views P (v.apply (.remove p)) =
      (fun q : {q // P q} => if (q : π) = p then none else view P v v.dir q) :: views P v := by
  refine ⟨h.apply trivial, ?_⟩
  have hview : view P v (Function.update v.dir p none) =
      fun q : {q // P q} => if (q : π) = p then none else view P v v.dir q := by
    funext q
    rw [view, Volume.holds]
    split_ifs with hq
    · rw [hq, Function.update_self]
      rfl
    · rw [Function.update_of_ne hq]
      rfl
  rw [← hview]
  rfl

/-! ## Atomic replacement -/

/-- Write `b` to a scratch file, opened with `e`, sync it, and rename it over `dest`. -/
def replaceCalls (tmp dest : π) (e b : β) : List (Call π β) :=
  [.create tmp e, .write tmp b, .sync tmp, .rename tmp dest]

/-- Once written and synced, the scratch file holds what was written. -/
theorem ready_of_sync (v : Volume π β) (tmp : π) (e b : β) :
    ∃ i, (v.applyAll [.create tmp e, .write tmp b, .sync tmp]).dir tmp = some i ∧
      (v.applyAll [.create tmp e, .write tmp b, .sync tmp]).data i = b ∧
      (v.applyAll [.create tmp e, .write tmp b, .sync tmp]).synced i = true := by
  obtain ⟨i, hi⟩ : ∃ i, (v.apply (.create tmp e)).dir tmp = some i := by
    cases hi : v.dir tmp with
    | some i => exact ⟨i, by rw [Volume.apply_create_of_some hi]; exact hi⟩
    | none => exact ⟨v.next, by rw [Volume.apply_create_of_none hi]; exact Function.update_self ..⟩
  have hcalls : v.applyAll [.create tmp e, .write tmp b, .sync tmp] =
      ((v.apply (.create tmp e)).apply (.write tmp b)).apply (.sync tmp) := rfl
  have hdir : ((v.apply (.create tmp e)).put i b).dir tmp = some i := hi
  rw [hcalls, Volume.apply_write hi, Volume.apply_sync hdir]
  exact ⟨i, hdir, Function.update_self .., Function.update_self ..⟩

omit [DecidableEq π] in
theorem cut_append (calls rest : List (Call π β)) (k : ℕ) (torn : β) :
    cut (calls ++ rest) (some (k, torn)) =
      if k < calls.length then cut calls (some (k, torn))
      else calls ++ cut rest (some (k - calls.length, torn)) := by
  show (calls ++ rest).take k ++ tornWrite torn (calls ++ rest)[k]? = _
  split_ifs with hk
  · rw [List.take_append_of_le_length (Nat.le_of_lt hk), List.getElem?_append_left hk]
    rfl
  · rw [List.take_append, List.take_of_length_le (Nat.le_of_not_lt hk),
      List.getElem?_append_right (Nat.le_of_not_lt hk), List.append_assoc]
    rfl

omit [DecidableEq π] in
/-- Cut before the rename, only the scratch file was written. -/
theorem scratch_cut {tmp dest : π} {e b torn : β} {k : ℕ} (htmp : ¬P tmp) (hk : k < 4) :
    ∀ c ∈ cut (replaceCalls tmp dest e b) (some (k, torn)), Scratch P c := by
  have hk : k = 0 ∨ k = 1 ∨ k = 2 ∨ k = 3 := by omega
  rcases hk with rfl | rfl | rfl | rfl <;> simp [cut, tornWrite, replaceCalls, Scratch, htmp]

omit [DecidableEq π] in
theorem cut_removes (ps : List π) (c : Option (ℕ × β)) :
    ∃ qs, qs <+: ps ∧ cut (ps.map (Call.remove (β := β))) c = qs.map .remove := by
  cases c with
  | none => exact ⟨ps, List.prefix_rfl, rfl⟩
  | some kt =>
    obtain ⟨k, torn⟩ := kt
    refine ⟨ps.take k, List.take_prefix k ps, ?_⟩
    show (ps.map .remove).take k ++ tornWrite torn (ps.map .remove)[k]? = _
    rw [List.getElem?_map, List.map_take]
    cases ps[k]? <;> exact List.append_nil _

section Replace

variable {ρ : Type*} {dest : π} (hdest : P dest) (f : ({p // P p} → Option β) → ρ)

/-- Removing files that `f` does not read once `dest` is there repeats what it reads. -/
theorem Safe.applyAll_removes (h : Safe P v) {ps : List π} (hne : dest ∉ ps)
    (hf : ∀ w : {p // P p} → Option β, (w ⟨dest, hdest⟩).isSome = true → ∀ p ∈ ps,
      f (fun q => if (q : π) = p then none else w q) = f w)
    (hthere : (view P v v.dir ⟨dest, hdest⟩).isSome = true) :
    Safe P (v.applyAll (ps.map .remove)) ∧
      ∃ n, (views P (v.applyAll (ps.map .remove))).map f =
        List.replicate n (f (view P v v.dir)) ++ (views P v).map f := by
  induction ps generalizing v with
  | nil => exact ⟨h, 0, rfl⟩
  | cons p ps ih =>
    obtain ⟨hsafe, hviews⟩ := h.views_remove p
    have hhead : view P (v.apply (.remove p)) (v.apply (.remove p)).dir =
        fun q : {q // P q} => if (q : π) = p then none else view P v v.dir q :=
      (List.cons.inj hviews).1
    have hdp : dest ≠ p := fun heq => hne (heq ▸ List.mem_cons_self)
    have hkeep : f (view P (v.apply (.remove p)) (v.apply (.remove p)).dir) = f (view P v v.dir) := by
      rw [hhead]
      exact hf _ hthere p List.mem_cons_self
    obtain ⟨hs, n, hn⟩ := ih hsafe (fun hmem => hne (List.mem_cons_of_mem _ hmem))
      (fun w hw p' hp' => hf w hw p' (List.mem_cons_of_mem _ hp'))
      (by rw [hhead]; simpa [hdp] using hthere)
    refine ⟨hs, n + 1, hn.trans ?_⟩
    rw [hkeep, hviews, List.map_cons, hf _ hthere p List.mem_cons_self, List.replicate_succ',
      List.append_assoc]
    rfl

/-- Replacing a kept file is atomic. Let `f` read what the kept paths hold, and not depend on
the files removed at the end once `dest` is there. However the calls are cut, `f` reads in every
directory that a power loss may give back what it read in one before, what it read in the
current one, or what it reads there with `b` in `dest`; and it reads the latter in the current
directory exactly if the rename was done. -/
theorem Safe.replace (h : Safe P v) {tmp : π} (htmp : ¬P tmp) (e b : β) {ps : List π}
    (hne : dest ∉ ps)
    (hf : ∀ w : {p // P p} → Option β, (w ⟨dest, hdest⟩).isSome = true → ∀ p ∈ ps,
      f (fun q => if (q : π) = p then none else w q) = f w) (c : Option (ℕ × β)) :
    Safe P (v.applyAll (cut (replaceCalls tmp dest e b ++ ps.map .remove) c)) ∧
      ∃ n m, (views P (v.applyAll (cut (replaceCalls tmp dest e b ++ ps.map .remove) c))).map f =
          List.replicate n (f (Function.update (view P v v.dir) ⟨dest, hdest⟩ (some b))) ++
            (List.replicate m (f (view P v v.dir)) ++ (views P v).map f) ∧
        (n = 0 ↔ ∃ k torn, c = some (k, torn) ∧ k < 4) := by
  by_cases hcut : ∃ k torn, c = some (k, torn) ∧ k < 4
  · obtain ⟨k, torn, rfl, hk⟩ := hcut
    have hcalls : cut (replaceCalls tmp dest e b ++ ps.map .remove) (some (k, torn)) =
        cut (replaceCalls tmp dest e b) (some (k, torn)) :=
      (cut_append _ _ _ _).trans (if_pos hk)
    obtain ⟨hsafe, -, m, hm⟩ := h.applyAll_scratch (scratch_cut htmp hk)
    rw [hcalls]
    refine ⟨hsafe, 0, m, ?_, iff_of_true rfl ⟨k, torn, rfl, hk⟩⟩
    rw [hm, List.map_append, List.map_replicate]
    rfl
  · -- the rename was done, and some of the files were removed
    obtain ⟨qs, hqs, hcalls⟩ : ∃ qs, qs <+: ps ∧
        cut (replaceCalls tmp dest e b ++ ps.map .remove) c =
          replaceCalls tmp dest e b ++ qs.map .remove := by
      cases c with
      | none => exact ⟨ps, List.prefix_rfl, rfl⟩
      | some kt =>
        obtain ⟨k, torn⟩ := kt
        have hk : ¬k < 4 := fun hk => hcut ⟨k, torn, rfl, hk⟩
        obtain ⟨qs, hqs, heq⟩ := cut_removes ps (some (k - 4, torn))
        refine ⟨qs, hqs, ((cut_append _ _ _ _).trans (if_neg hk)).trans ?_⟩
        rw [← heq]
        rfl
    have hscratch : ∀ c ∈ [Call.create tmp e, .write tmp b, .sync tmp], Scratch P c := by
      simp [Scratch, htmp]
    obtain ⟨hsafe, hview, m, hm⟩ := h.applyAll_scratch hscratch
    obtain ⟨i, hi, hdata, hsync⟩ := ready_of_sync v tmp e b
    obtain ⟨hren, hviews⟩ := hsafe.views_rename htmp hdest hi hsync
    rw [hview, hdata, hm] at hviews
    have hhead := (List.cons.inj hviews).1
    have hdone : v.applyAll (replaceCalls tmp dest e b ++ qs.map .remove) =
        ((v.applyAll [.create tmp e, .write tmp b, .sync tmp]).apply (.rename tmp dest)).applyAll
          (qs.map .remove) := by
      rw [Volume.applyAll, List.foldl_append]
      rfl
    obtain ⟨hs, n, hn⟩ := hren.applyAll_removes hdest f (fun hmem => hne (hqs.subset hmem))
      (fun w hw p hp => hf w hw p (hqs.subset hp))
      (by rw [hhead]; simp)
    rw [hcalls, hdone]
    refine ⟨hs, n + 1, m, hn.trans ?_, iff_of_false (Nat.succ_ne_zero n) hcut⟩
    rw [hhead, hviews, List.map_cons, List.map_append, List.map_replicate, List.replicate_succ',
      List.append_assoc]
    rfl

end Replace

/-- Of the kept files that are not removed, a replacement changes only `dest`, and only once it
is renamed. -/
theorem Safe.read_replace (h : Safe P v) {dest tmp : π} (hdest : P dest) (htmp : ¬P tmp) (e b : β)
    {ps : List π} (hne : dest ∉ ps) (c : Option (ℕ × β)) (hq : P q) (hqs : q ∉ ps) :
    (q ≠ dest ∨ (∃ k torn, c = some (k, torn) ∧ k < 4) →
      (v.applyAll (cut (replaceCalls tmp dest e b ++ ps.map .remove) c)).read q = v.read q) ∧
    (q = dest → (¬∃ k torn, c = some (k, torn) ∧ k < 4) →
      (v.applyAll (cut (replaceCalls tmp dest e b ++ ps.map .remove) c)).read q = some b) := by
  have hf : ∀ w : {p // P p} → Option β, (w ⟨dest, hdest⟩).isSome = true → ∀ p ∈ ps,
      (fun w : {p // P p} → Option β => w ⟨q, hq⟩) (fun x => if (x : π) = p then none else w x) =
        w ⟨q, hq⟩ :=
    fun w _ p hp => if_neg fun hqp : q = p => hqs (hqp ▸ hp)
  obtain ⟨-, n, m, hviews, hiff⟩ := h.replace hdest (fun w => w ⟨q, hq⟩) htmp e b hne hf c
  generalize v.applyAll (cut (replaceCalls tmp dest e b ++ ps.map .remove) c) = v' at hviews
  have hold (v : Volume π β) : ((views P v).map fun w => w ⟨q, hq⟩).head? = some (v.read q) := rfl
  have hnew := hold v'
  rw [hviews] at hnew
  constructor
  · rintro hor
    cases n with
    | zero =>
      rw [List.replicate_zero, List.nil_append] at hnew
      cases m with
      | zero => exact Option.some_injective _ (hnew.symm.trans (hold v))
      | succ m => exact (Option.some_injective _ hnew).symm
    | succ n =>
      have hqd : q ≠ dest := hor.resolve_right (mt hiff.2 (Nat.succ_ne_zero n))
      have hup := (Option.some_injective _ hnew).symm
      rw [Function.update_of_ne fun heq => hqd (congrArg Subtype.val heq)] at hup
      exact hup
  · rintro rfl hc
    cases n with
    | zero => exact absurd (hiff.1 rfl) hc
    | succ n =>
      have hup := (Option.some_injective _ hnew).symm
      rw [Function.update_self] at hup
      exact hup

omit [DecidableEq π] in
/-- After a power loss one of the directories is the current one, with what its kept paths
held. -/
theorem Safe.powerLoss (h : Safe P v) (k : ℕ) (junk : ℕ → β) : Safe P (v.powerLoss k junk) ∧
    ∃ w ∈ views P v, views P (v.powerLoss k junk) = [w] := by
  obtain ⟨D, hD, hdir⟩ : ∃ D ∈ v.dirs, (v.powerLoss k junk).dir = D := by
    cases hk : v.dirs[k]? with
    | none => exact ⟨v.dir, v.mem_dirs_self, congrArg (·.getD v.dir) hk⟩
    | some D => exact ⟨D, List.mem_of_getElem? hk, congrArg (·.getD v.dir) hk⟩
  have hdirs : (v.powerLoss k junk).dirs = [D] := congrArg (List.cons · []) hdir
  have hholds : ∀ q, P q → (v.powerLoss k junk).holds D q = v.holds D q := by
    intro q hq
    unfold Volume.holds
    cases hi : D q with
    | none => rfl
    | some i => exact congrArg some (if_pos (h.synced D hD q i hq hi))
  refine ⟨⟨fun _ _ _ _ _ _ => rfl, ?_, ?_, ?_⟩, view P v D, List.mem_map_of_mem hD, ?_⟩
  · intro D' hD' q i hq hi p hp
    rw [hdirs, List.mem_singleton] at hD'
    rw [hdir] at hp
    subst hD'
    exact h.unlinked D' hD q p i hi hp ▸ hq
  · intro D' hD'
    rw [hdirs, List.mem_singleton] at hD'
    subst hD'
    exact h.unlinked D' hD
  · intro D' hD'
    rw [hdirs, List.mem_singleton] at hD'
    subst hD'
    exact h.below D' hD
  · rw [views, hdirs]
    exact congrArg (List.cons · []) (funext fun q => hholds q q.2)

end Volumes
