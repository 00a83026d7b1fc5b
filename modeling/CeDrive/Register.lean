import Mathlib.Data.List.Induction
import Mathlib.Order.Bounds.Basic
import Mathlib.Order.MinMax

/-!
# A register that keeps the greatest value

Values carry a tag. A register keeps the greater of its value and the one written, but
ignores a value that has the tag of its own. So it may miss the greatest value written : it
holds it in the end exactly if the greatest value was written once while the register did
not hold a lesser one of its tag (`isGreatest_iff`).
-/

namespace Register

variable {α κ : Type*} [LinearOrder α] [DecidableEq κ] (tag : α → κ)

/-- The value after `x` is written. -/
def write (cur x : α) : α :=
  if tag x = tag cur then cur else max cur x

/-- An empty register takes any value. -/
def writeTo : Option α → α → Option α
  | none, x => some x
  | some cur, x => some (write tag cur x)

/-- The register after the values of a list were written. -/
def read (l : List α) : Option α :=
  l.foldl (writeTo tag) none

variable {tag} {l pre post : List α} {cur x m : α}

theorem read_append : read tag (pre ++ post) = post.foldl (writeTo tag) (read tag pre) :=
  List.foldl_append

theorem read_append_singleton : read tag (l ++ [x]) = writeTo tag (read tag l) x := by
  rw [read_append]
  rfl

theorem write_of_tag (h : tag x = tag cur) : write tag cur x = cur :=
  if_pos h

theorem write_of_le (h : x ≤ cur) : write tag cur x = cur := by
  rw [write, max_eq_left h, ite_self]

theorem write_of_ge (htag : tag x ≠ tag cur) (h : cur ≤ x) : write tag cur x = x := by
  rw [write, if_neg htag, max_eq_right h]

theorem write_eq_or (tag : α → κ) (cur x : α) :
    write tag cur x = cur ∨ tag x ≠ tag cur ∧ write tag cur x = x := by
  by_cases htag : tag x = tag cur
  · exact Or.inl (write_of_tag htag)
  · exact (le_total x cur).imp write_of_le fun h => ⟨htag, write_of_ge htag h⟩

/-- The value held was written while the register did not hold another of its tag. -/
theorem exists_of_read (h : read tag l = some m) : ∃ pre post, l = pre ++ m :: post ∧
    ∀ c, read tag pre = some c → tag c = tag m → c = m := by
  induction l using List.reverseRecOn generalizing m with
  | nil => cases h
  | append_singleton l x ih =>
    rw [read_append_singleton] at h
    cases hl : read tag l with
    | none =>
      obtain rfl : x = m := by simpa [hl, writeTo] using h
      exact ⟨l, [], rfl, fun c hc => by simp [hl] at hc⟩
    | some cur =>
      obtain rfl : write tag cur x = m := by simpa [hl, writeTo] using h
      rcases write_eq_or tag cur x with hw | ⟨htag, hw⟩
      · obtain ⟨pre, post, rfl, hpre⟩ := ih (hl.trans (congrArg some hw.symm))
        exact ⟨pre, post ++ [x], by simp, hpre⟩
      · rw [hw]
        refine ⟨l, [], rfl, fun c hc hct => ?_⟩
        obtain rfl := Option.some_injective _ (hl.symm.trans hc)
        exact absurd hct.symm htag

theorem mem_of_read (h : read tag l = some m) : m ∈ l := by
  obtain ⟨pre, post, rfl, -⟩ := exists_of_read h
  simp

/-- Values that are not greater leave the register alone. -/
theorem foldl_writeTo_of_le (h : ∀ y ∈ l, y ≤ m) : l.foldl (writeTo tag) (some m) = some m := by
  induction l with
  | nil => rfl
  | cons y l ih =>
    rw [List.foldl_cons, writeTo, write_of_le (h y List.mem_cons_self)]
    exact ih fun z hz => h z (List.mem_cons_of_mem _ hz)

theorem isGreatest_iff : (∃ m, read tag l = some m ∧ IsGreatest {y | y ∈ l} m) ↔
    ∃ pre m post, l = pre ++ m :: post ∧ (∀ y ∈ l, y ≤ m) ∧
      ∀ c, read tag pre = some c → tag c = tag m → c = m := by
  constructor
  · rintro ⟨m, hm, -, hle⟩
    obtain ⟨pre, post, hl, hpre⟩ := exists_of_read hm
    exact ⟨pre, m, post, hl, fun y hy => hle hy, hpre⟩
  · rintro ⟨pre, m, post, rfl, hle, hpre⟩
    have hwrite : writeTo tag (read tag pre) m = some m := by
      cases hc : read tag pre with
      | none => rfl
      | some c =>
        have hcm : c ≤ m := hle c (List.mem_append_left _ (mem_of_read hc))
        by_cases htag : tag m = tag c
        · rw [writeTo, write_of_tag htag, hpre c hc htag.symm]
        · rw [writeTo, write_of_ge htag hcm]
    refine ⟨m, ?_, by simp, fun y hy => hle y hy⟩
    rw [read_append, List.foldl_cons, hwrite]
    exact foldl_writeTo_of_le fun y hy => hle y (List.mem_append_right _ (List.mem_cons_of_mem _ hy))

end Register
