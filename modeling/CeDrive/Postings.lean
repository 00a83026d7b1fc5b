import Mathlib.Data.List.Induction
import Mathlib.Data.List.Nodup
import Mathlib.Data.Nat.Notation
import Mathlib.Tactic.SplitIfs
import Std.Data.ExtTreeMap.Lemmas

/-!
# Inverted indices

Each key has the list of the positions that were posted under it. Documents are lists of keys
without duplicates. An index of the documents (`Indexes`) has for each key the positions of
the documents with it, in ascending order, whether it was extended by one document at a time
or built at once.
-/

set_option linter.unusedSectionVars false

open Std

namespace Postings

variable {κ : Type*} [Ord κ] [TransOrd κ] [LawfulEqOrd κ]

abbrev Index (κ : Type*) [Ord κ] := ExtTreeMap κ (List ℕ)

/-- The positions posted under a key. -/
def posted (m : Index κ) (k : κ) : List ℕ :=
  (m[k]?).getD []

def post (i : ℕ) (m : Index κ) (k : κ) : Index κ :=
  m.insert k (posted m k ++ [i])

/-- Post a document under its keys. -/
def postAll (m : Index κ) (i : ℕ) (keys : List κ) : Index κ :=
  keys.foldl (post i) m

/-- Post every document. -/
def build (docs : List (List κ)) : Index κ :=
  docs.zipIdx.foldl (fun m p => postAll m p.2 p.1) ∅

variable [DecidableEq κ] {m : Index κ} {k : κ} {i : ℕ} {keys : List κ} {docs : List (List κ)}

theorem posted_post (i : ℕ) (m : Index κ) (k k' : κ) :
    posted (post i m k) k' = posted m k' ++ if k = k' then [i] else [] := by
  simp only [posted, post, ExtTreeMap.getElem?_insert, Std.compare_eq_iff_eq]
  split_ifs with h
  · simp [h]
  · simp

theorem posted_postAll (hnodup : keys.Nodup) (m : Index κ) (i : ℕ) (k : κ) :
    posted (postAll m i keys) k = posted m k ++ if k ∈ keys then [i] else [] := by
  induction keys generalizing m with
  | nil => simp [postAll]
  | cons k' keys ih =>
    obtain ⟨hk', hnodup⟩ := List.nodup_cons.1 hnodup
    have hrest : posted (postAll m i (k' :: keys)) k = posted (postAll (post i m k') i keys) k := rfl
    rw [hrest, ih hnodup, posted_post, List.append_assoc]
    grind

/-- The index has each key's documents, once each and in order. -/
def Indexes (m : Index κ) (docs : List (List κ)) : Prop :=
  ∀ k, posted m k = docs.findIdxs fun keys => decide (k ∈ keys)

theorem Indexes.empty : Indexes (∅ : Index κ) [] := by
  intro k
  simp [posted]

theorem Indexes.postAll (h : Indexes m docs) (hnodup : keys.Nodup) :
    Indexes (postAll m docs.length keys) (docs ++ [keys]) := by
  intro k
  rw [posted_postAll hnodup, h k, List.findIdxs_append, List.findIdxs_singleton]
  simp

theorem indexes_build (hnodup : ∀ keys ∈ docs, keys.Nodup) : Indexes (build docs) docs := by
  induction docs using List.reverseRecOn with
  | nil => exact Indexes.empty
  | append_singleton docs keys ih =>
    have hbuild : build (docs ++ [keys]) = Postings.postAll (build docs) docs.length keys := by
      simp [build, List.zipIdx_append]
    rw [hbuild]
    exact (ih fun k hk => hnodup k (List.mem_append_left _ hk)).postAll
      (hnodup keys (List.mem_append_right _ (List.mem_singleton_self _)))

theorem Indexes.mem_posted_iff (h : Indexes m docs) :
    i ∈ posted m k ↔ ∃ keys, docs[i]? = some keys ∧ k ∈ keys := by
  rw [h k, List.mem_findIdxs_iff_exists_getElem_pos]
  constructor
  · rintro ⟨hi, hk⟩
    exact ⟨docs[i], List.getElem?_eq_getElem hi, of_decide_eq_true hk⟩
  · rintro ⟨keys, hkeys, hk⟩
    obtain ⟨hi, rfl⟩ := List.getElem?_eq_some_iff.1 hkeys
    exact ⟨hi, decide_eq_true hk⟩

/-- A key has each document that holds it once, and no other. -/
theorem Indexes.count_posted (h : Indexes m docs) (k : κ) (i : ℕ) :
    (posted m k).count i = if docs[i]?.any (fun keys => k ∈ keys) then 1 else 0 := by
  have hnodup : (posted m k).Nodup := h k ▸ List.nodup_findIdxs
  rw [hnodup.count]
  exact if_congr (h.mem_posted_iff.trans (by simp [Option.any_eq_true])) rfl rfl

end Postings
