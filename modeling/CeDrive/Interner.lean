import Mathlib.Data.List.Basic
import Mathlib.Data.List.Induction
import Mathlib.Data.Nat.Notation
import Mathlib.Data.Option.Basic
import Mathlib.Order.Basic
import Mathlib.Tactic.SplitIfs
import Std.Data.ExtTreeMap.Lemmas

/-!
# Interners

An interner gives a key the next number when it first sees it, from one on, and finds it again
in both directions. That the two directions agree and that all numbers are below the next one
are fields, so every interner has them. One interner is below another if the latter has seen
more keys : then it has all numbers of the former (`numOf_of_le`), and gives none of them to
another key (`eq_of_le`). The numbers are the places of the keys in the order of first sight
(`numOf_ofKeys`).
-/

set_option linter.unusedSectionVars false

open Std (ExtTreeMap TransOrd LawfulEqOrd)

variable {κ : Type*} [Ord κ] [TransOrd κ] [LawfulEqOrd κ]

/-- Keys and their numbers, in both directions. -/
structure Interner (κ : Type*) [Ord κ] [TransOrd κ] where
  numOf : ExtTreeMap κ ℕ
  keyOf : ExtTreeMap ℕ κ
  next : ℕ
  inverse : ∀ (k : κ) (n : ℕ), numOf[k]? = some n ↔ keyOf[n]? = some k
  below : ∀ (k : κ) (n : ℕ), numOf[k]? = some n → n < next

namespace Interner

variable {t t' : Interner κ} {k k' : κ} {n : ℕ}

/-- No key has been seen. -/
def empty : Interner κ where
  numOf := ∅
  keyOf := ∅
  next := 1
  inverse := by simp
  below := by simp

theorem keyOf_next (t : Interner κ) : t.keyOf[t.next]? = none := by
  rw [Option.eq_none_iff_forall_ne_some]
  exact fun k hk => Nat.lt_irrefl _ (t.below k _ ((t.inverse k _).2 hk))

/-- The interner after an unseen key. -/
def extend (t : Interner κ) (k : κ) (hk : t.numOf[k]? = none) : Interner κ where
  numOf := t.numOf.insert k t.next
  keyOf := t.keyOf.insert t.next k
  next := t.next + 1
  inverse k' n := by
    simp only [ExtTreeMap.getElem?_insert, Std.compare_eq_iff_eq]
    have hinverse := t.inverse k' n
    have hnext := t.keyOf_next
    split_ifs <;> simp_all
  below k' n hn := by
    rw [ExtTreeMap.getElem?_insert] at hn
    split_ifs at hn
    · exact Option.some_injective _ hn ▸ Nat.lt_succ_self _
    · exact Nat.lt_succ_of_lt (t.below k' n hn)

/-- The number of a key, the next one on first sight. -/
def intern (t : Interner κ) (k : κ) : ℕ × Interner κ :=
  match hk : t.numOf[k]? with
  | some n => (n, t)
  | none => (t.next, t.extend k hk)

theorem intern_of_some (h : t.numOf[k]? = some n) : t.intern k = (n, t) := by
  unfold intern
  split
  · rename_i hk
    rw [Option.some_injective _ (h.symm.trans hk)]
  · rename_i hk
    cases h.symm.trans hk

theorem intern_of_none (h : t.numOf[k]? = none) : t.intern k = (t.next, t.extend k h) := by
  unfold intern
  split
  · rename_i hk
    cases h.symm.trans hk
  · rfl

/-- The other keys keep their numbers. -/
theorem numOf_intern (h : t.numOf[k']? = some n) (k : κ) : (t.intern k).2.numOf[k']? = some n := by
  cases hk : t.numOf[k]? with
  | some m => rwa [intern_of_some hk]
  | none =>
    have hne : k ≠ k' := by
      rintro rfl
      cases h.symm.trans hk
    rw [intern_of_none hk, extend, ExtTreeMap.getElem?_insert, if_neg, h]
    rwa [Std.compare_eq_iff_eq]

theorem numOf_injective (h : t.numOf[k]? = some n) (h' : t.numOf[k']? = some n) : k = k' :=
  Option.some_injective _ (((t.inverse k n).1 h).symm.trans ((t.inverse k' n).1 h'))

/-! ## Extensions -/

/-- The interner after more keys. -/
def internAll (t : Interner κ) (ks : List κ) : Interner κ :=
  ks.foldl (fun t k => (t.intern k).2) t

instance : Preorder (Interner κ) where
  le t t' := ∃ ks, t.internAll ks = t'
  le_refl t := ⟨[], rfl⟩
  le_trans := by
    rintro t _ _ ⟨ks, rfl⟩ ⟨ks', rfl⟩
    exact ⟨ks ++ ks', List.foldl_append⟩

theorem le_intern (t : Interner κ) (k : κ) : t ≤ (t.intern k).2 :=
  ⟨[k], rfl⟩

/-- A key keeps its number. -/
theorem numOf_of_le (hle : t ≤ t') (h : t.numOf[k]? = some n) : t'.numOf[k]? = some n := by
  obtain ⟨ks, rfl⟩ := hle
  induction ks generalizing t with
  | nil => exact h
  | cons k' ks ih => exact ih (numOf_intern h k')

theorem keyOf_of_le (hle : t ≤ t') (h : t.keyOf[n]? = some k) : t'.keyOf[n]? = some k :=
  (t'.inverse k n).1 (numOf_of_le hle ((t.inverse k n).2 h))

/-- No other key gets its number. -/
theorem eq_of_le (hle : t ≤ t') (h : t.numOf[k]? = some n) (h' : t'.numOf[k']? = some n) :
    k' = k :=
  numOf_injective h' (numOf_of_le hle h)

/-! ## First sights -/

theorem eraseDups_snoc_of_mem {α : Type*} [DecidableEq α] {l : List α} {x : α} (h : x ∈ l) :
    (l ++ [x]).eraseDups = l.eraseDups := by
  rw [List.eraseDups_append]
  simp [List.removeAll, h]

theorem eraseDups_snoc_of_not_mem {α : Type*} [DecidableEq α] {l : List α} {x : α} (h : x ∉ l) :
    (l ++ [x]).eraseDups = l.eraseDups ++ [x] := by
  rw [List.eraseDups_append]
  simp [List.removeAll, h, List.eraseDups_cons]

/-- The interner that saw the keys in the order given. -/
def ofKeys (ks : List κ) : Interner κ :=
  empty.internAll ks

theorem ofKeys_snoc (ks : List κ) (k : κ) : ofKeys (ks ++ [k]) = ((ofKeys ks).intern k).2 :=
  List.foldl_append

theorem internAll_ofKeys (ks ks' : List κ) : (ofKeys ks).internAll ks' = ofKeys (ks ++ ks') :=
  List.foldl_append.symm

/-- The next number is ahead of the keys that were seen by one. -/
theorem next_ofKeys (ks : List κ) : (ofKeys ks).next = (ofKeys ks).keyOf.size + 1 := by
  induction ks using List.reverseRecOn with
  | nil => simp [ofKeys, internAll, empty]
  | append_singleton ks k ih =>
    rw [ofKeys_snoc]
    cases hk : (ofKeys ks).numOf[k]? with
    | some n => rwa [intern_of_some hk]
    | none =>
      have hfresh : (ofKeys ks).next ∉ (ofKeys ks).keyOf := by
        rw [ExtTreeMap.mem_iff_isSome_getElem?, keyOf_next]
        exact Bool.false_ne_true
      rw [intern_of_none hk, extend, ExtTreeMap.size_insert, if_neg (by simpa using hfresh)]
      exact congrArg Nat.succ ih

variable [DecidableEq κ]

/-- A key's number is its place in the order of first sight. -/
theorem numOf_ofKeys (ks : List κ) : (∀ k, (ofKeys ks).numOf[k]? =
    if k ∈ ks then some (ks.eraseDups.idxOf k + 1) else none) ∧
      (ofKeys ks).next = ks.eraseDups.length + 1 := by
  induction ks using List.reverseRecOn with
  | nil => simp [ofKeys, internAll, empty]
  | append_singleton ks k ih =>
    obtain ⟨hnum, hnext⟩ := ih
    have hk := hnum k
    rw [ofKeys_snoc]
    by_cases hmem : k ∈ ks
    · rw [if_pos hmem] at hk
      rw [intern_of_some hk, eraseDups_snoc_of_mem hmem]
      refine ⟨fun k' => ?_, hnext⟩
      have hiff : k' ∈ ks ++ [k] ↔ k' ∈ ks := by
        rw [List.mem_append, List.mem_singleton, or_iff_left_of_imp]
        rintro rfl
        exact hmem
      simp only [hnum k', hiff]
    · rw [if_neg hmem] at hk
      rw [intern_of_none hk, eraseDups_snoc_of_not_mem hmem]
      refine ⟨fun k' => ?_, by simp [extend, hnext]⟩
      rw [extend, ExtTreeMap.getElem?_insert]
      simp only [Std.compare_eq_iff_eq, List.mem_append, List.mem_singleton]
      by_cases heq : k = k'
      · subst heq
        have hfresh : k ∉ ks.eraseDups := by rwa [List.mem_eraseDups]
        simp [hnext, List.idxOf_append_of_notMem hfresh]
      · rw [if_neg heq, hnum k']
        by_cases hmem' : k' ∈ ks
        · have hold : k' ∈ ks.eraseDups := by rwa [List.mem_eraseDups]
          simp [hmem', List.idxOf_append_of_mem hold]
        · simp [hmem', Ne.symm heq]

end Interner
