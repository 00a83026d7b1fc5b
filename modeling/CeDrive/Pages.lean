import Mathlib.Data.Nat.Notation
import Mathlib.Data.List.Basic
import Mathlib.Order.Basic

/-!
# Pages

A source answers a cursor with a page and the next cursor, or fails. A client polls it until
a page is empty (`drain`). If each page is the next part of what is left at the cursor, and
empty only when nothing is left (`Delivers`), the pages together are what was left at the
start (`Delivers.drain_eq`). If pages only never repeat or reorder (`Serves`), polling still
ends, with a sublist of it (`Serves.exists_drain`).
-/

namespace Pages

variable {C α : Type*} {poll : C → Option (List α × C)} {rest : C → List α} {Valid : C → Prop}
  {c : C} {k : ℕ}

/-- Poll until a page is empty, at most `k` times : the pages together, or `none` if a poll
fails or all were needed. -/
def drain (poll : C → Option (List α × C)) : ℕ → C → Option (List α)
  | 0, _ => none
  | k + 1, c =>
    match poll c with
    | none => none
    | some ([], _) => some []
    | some (x :: page, c) => (drain poll k c).map (x :: page ++ ·)

/-- From a valid cursor, a page is followed by what is left of `rest`, with entries skipped. -/
def Serves (poll : C → Option (List α × C)) (rest : C → List α) (Valid : C → Prop) : Prop :=
  ∀ c, Valid c → ∃ page c', poll c = some (page, c') ∧ Valid c' ∧ (page ++ rest c').Sublist (rest c)

/-- From a valid cursor, a page is followed by what is left of `rest`, and is empty only if
nothing is left. -/
def Delivers (poll : C → Option (List α × C)) (rest : C → List α) (Valid : C → Prop) : Prop :=
  ∀ c, Valid c → ∃ page c', poll c = some (page, c') ∧ Valid c' ∧ rest c = page ++ rest c' ∧
    (page = [] → rest c = [])

theorem drain_succ {page : List α} {c' : C} (h : poll c = some (page, c')) (hne : page ≠ []) (k : ℕ) :
    drain poll (k + 1) c = (drain poll k c').map (page ++ ·) := by
  cases page with
  | nil => exact absurd rfl hne
  | cons x page => rw [drain, h]

theorem drain_of_nil {c' : C} (h : poll c = some ([], c')) (k : ℕ) :
    drain poll (k + 1) c = some [] := by
  rw [drain, h]

theorem Serves.exists_drain (h : Serves poll rest Valid) (hc : Valid c) (hk : (rest c).length < k) :
    ∃ out, drain poll k c = some out ∧ out.Sublist (rest c) := by
  induction k generalizing c with
  | zero => cases hk
  | succ k ih =>
    obtain ⟨page, c', hpoll, hc', hsub⟩ := h c hc
    rcases eq_or_ne page [] with rfl | hne
    · exact ⟨[], drain_of_nil hpoll k, List.nil_sublist _⟩
    · have hlen := hsub.length_le
      have hpos := List.length_pos_iff.2 hne
      rw [List.length_append] at hlen
      obtain ⟨out, hout, hrest⟩ := ih hc' (by omega)
      refine ⟨page ++ out, by rw [drain_succ hpoll hne, hout, Option.map_some], ?_⟩
      exact ((List.Sublist.refl page).append hrest).trans hsub

theorem Delivers.drain_eq (h : Delivers poll rest Valid) (hc : Valid c)
    (hk : (rest c).length < k) : drain poll k c = some (rest c) := by
  induction k generalizing c with
  | zero => cases hk
  | succ k ih =>
    obtain ⟨page, c', hpoll, hc', hrest, hempty⟩ := h c hc
    rcases eq_or_ne page [] with rfl | hne
    · rw [drain_of_nil hpoll, hempty rfl]
    · have hlen := congrArg List.length hrest
      have hpos := List.length_pos_iff.2 hne
      rw [List.length_append] at hlen
      rw [drain_succ hpoll hne, ih hc' (by omega), Option.map_some, hrest]

end Pages
