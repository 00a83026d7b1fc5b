import Mathlib.Data.List.DropRight

/-!
# A capped list that skips repeats

Entries are appended to a list, the oldest are dropped over a cap, and an entry with the key
of the last one is skipped. `Among k` : a key is among the `k` last entries. Each entry that
is appended moves the others one place back, so a key stays in the list while fewer entries
than the cap are appended after it (`Among.push`).
-/

namespace Capped

variable {α κ : Type*} (key : α → κ) (cap : ℕ)

/-- Append an entry, unless the last one has its key, and drop the oldest over the cap. -/
def push [DecidableEq κ] (l : List α) (x : α) : List α :=
  if (l.getLast?).any fun y => key y = key x then l else (l ++ [x]).rtake cap

/-- The key is that of one of the last `k` entries. -/
def Among (l : List α) (k : ℕ) (y : κ) : Prop :=
  ∃ x ∈ l.reverse.take k, key x = y

variable {key cap} {l : List α} {k k' : ℕ} {x : α} {y : κ}

theorem Among.mono (h : Among key l k y) (hk : k ≤ k') : Among key l k' y := by
  obtain ⟨z, hz, rfl⟩ := h
  exact ⟨z, (List.take_prefix_take_left hk).subset hz, rfl⟩

theorem Among.exists_mem (h : Among key l k y) : ∃ z ∈ l, key z = y := by
  obtain ⟨z, hz, rfl⟩ := h
  exact ⟨z, List.mem_reverse.1 (List.mem_of_mem_take hz), rfl⟩

variable [DecidableEq κ]

theorem push_of_last (h : (l.getLast?).any (fun z => key z = key x) = true) :
    push key cap l x = l :=
  if_pos h

/-- The entries from the last one back. -/
theorem reverse_push (h : (l.getLast?).any (fun z => key z = key x) = false) :
    (push key cap l x).reverse = (x :: l.reverse).take cap := by
  rw [push, h, if_neg Bool.false_ne_true, List.rtake_eq_reverse_take_reverse, List.reverse_reverse,
    List.reverse_append, List.reverse_singleton, List.singleton_append]

theorem length_push_le : (push key cap l x).length ≤ l.length + 1 := by
  cases hlast : (l.getLast?).any fun z => key z = key x with
  | true =>
    rw [push_of_last hlast]
    exact Nat.le_succ _
  | false =>
    rw [← List.length_reverse, reverse_push hlast]
    exact (List.length_take_le' _ _).trans (by simp)

/-- While there is room nothing is dropped. -/
theorem push_of_lt (h : l.length < cap) : push key cap l x =
    if (l.getLast?).any (fun z => key z = key x) = true then l else l ++ [x] := by
  have hlen : (l ++ [x]).length ≤ cap := by
    rw [List.length_append]
    exact h
  rw [push, List.rtake, Nat.sub_eq_zero_of_le hlen, List.drop_zero]

/-- The last entry has the key of the new one then, whether that was appended or skipped. -/
theorem getLast?_push (key : α → κ) (l : List α) (x : α) (hcap : 0 < cap) :
    ∃ y, (push key cap l x).getLast? = some y ∧ key y = key x := by
  cases hlast : (l.getLast?).any fun z => key z = key x with
  | true =>
    obtain ⟨z, hz, hkey⟩ := (Option.any_eq_true _ _).1 hlast
    exact ⟨z, by rw [push_of_last hlast, hz], by simpa using hkey⟩
  | false =>
    obtain ⟨cap, rfl⟩ := Nat.exists_eq_add_of_lt hcap
    refine ⟨x, ?_, rfl⟩
    rw [← List.head?_reverse, reverse_push hlast, Nat.zero_add, List.take_succ_cons, List.head?_cons]

theorem among_push_self (hcap : 0 < cap) : Among key (push key cap l x) 1 (key x) := by
  obtain ⟨y, hy, hkey⟩ := getLast?_push key l x hcap
  obtain ⟨l', hl'⟩ := List.getLast?_eq_some_iff.1 hy
  exact ⟨y, by simp [hl'], hkey⟩

/-- One entry more moves a key one place back. -/
theorem Among.push (h : Among key l k y) (hk : k < cap) : Among key (push key cap l x) (k + 1) y := by
  cases hlast : (l.getLast?).any fun z => key z = key x with
  | true =>
    rw [push_of_last hlast]
    exact h.mono (Nat.le_succ k)
  | false =>
    obtain ⟨z, hz, rfl⟩ := h
    refine ⟨z, ?_, rfl⟩
    rw [reverse_push hlast, List.take_take, Nat.min_eq_left hk, List.take_succ_cons]
    exact List.mem_cons_of_mem _ hz

end Capped
