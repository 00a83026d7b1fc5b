import Mathlib.Data.List.Basic
import Mathlib.Logic.Function.Basic

/-!
# Stamps of several writers

Participants with distinct names stamp their operations with a clock and their name, and
pass operations on. `Stamped` says that nobody knows an operation of a participant that is
later than its clock, and that a stamp identifies an operation. Both are kept when
operations are passed on (`Stamped.share`) and when a participant stamps a new one with a
clock value it has not reached (`Stamped.mint`).
-/

namespace Stamps

variable {ι α ρ : Type*}

/-- `name i` is the name of participant `i`, `now i` its clock, `log i` what it knows. -/
structure Stamped (name : ι → ρ) (clock : α → ℕ) (writer : α → ρ) (now : ι → ℕ)
    (log : ι → List α) : Prop where
  bounded : ∀ i j, ∀ x ∈ log j, writer x = name i → clock x ≤ now i
  unique : ∀ i j, ∀ x ∈ log i, ∀ y ∈ log j, clock x = clock y → writer x = writer y → x = y

variable {name : ι → ρ} {clock : α → ℕ} {writer : α → ρ} {now now' : ι → ℕ}
  {log log' : ι → List α}

theorem stamped_nil (name : ι → ρ) (clock : α → ℕ) (writer : α → ρ) (now : ι → ℕ) :
    Stamped name clock writer now fun _ => [] where
  bounded _ _ _ hx := absurd hx List.not_mem_nil
  unique _ _ _ hx := absurd hx List.not_mem_nil

/-- Clocks advance, and everything known was known to someone. -/
theorem Stamped.share (h : Stamped name clock writer now log) (hnow : ∀ i, now i ≤ now' i)
    (hlog : ∀ j, ∀ x ∈ log' j, ∃ k, x ∈ log k) : Stamped name clock writer now' log' where
  bounded i j x hx hw := by
    obtain ⟨k, hk⟩ := hlog j x hx
    exact Nat.le_trans (h.bounded i k x hk hw) (hnow i)
  unique i j x hx y hy := by
    obtain ⟨k, hk⟩ := hlog i x hx
    obtain ⟨l, hl⟩ := hlog j y hy
    exact h.unique k l x hk y hl

/-- Participant `i` stamps `op` with a clock value it had not reached. -/
theorem Stamped.mint (h : Stamped name clock writer now log) (hname : Function.Injective name)
    (hnow : ∀ i, now i ≤ now' i) (i : ι) (op : α) (hw : writer op = name i) (hlt : now i < clock op)
    (hle : clock op ≤ now' i) (hlog : ∀ j, ∀ x ∈ log' j, x = op ∨ ∃ k, x ∈ log k) :
    Stamped name clock writer now' log' := by
  have hnew : ∀ k, ∀ x ∈ log k, clock x = clock op → writer x ≠ writer op := by
    intro k x hx hc hwx
    have hb := h.bounded i k x hx (hwx.trans hw)
    omega
  refine ⟨fun j k x hx hwx => ?_, fun j k x hx y hy hc hwxy => ?_⟩
  · rcases hlog k x hx with rfl | ⟨l, hl⟩
    · rwa [hname (hwx.symm.trans hw)]
    · exact Nat.le_trans (h.bounded j l x hl hwx) (hnow j)
  · rcases hlog j x hx with rfl | ⟨l, hl⟩
    · rcases hlog k y hy with rfl | ⟨m, hm⟩
      · rfl
      · exact absurd hwxy.symm (hnew m y hm hc.symm)
    · rcases hlog k y hy with rfl | ⟨m, hm⟩
      · exact absurd hwxy (hnew l x hl hc)
      · exact h.unique l m x hl y hm hc hwxy

end Stamps
