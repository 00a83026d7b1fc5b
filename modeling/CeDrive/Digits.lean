import Mathlib.Algebra.GroupWithZero.Nat
import Mathlib.Data.List.Basic

/-!
# Numerals in fields of fixed width

`value b` reads a numeral of base `b`, up to sixteen, back. It ignores leading zeros, so a
number that fits a field of `w` digits is determined by the padded field
(`leftpad_toDigits_injective`), and two such fields that are the same length are told apart
in a concatenation. Equal fields are ordered as their numbers (`field_lt`).
-/

namespace Digits

/-- The value of a digit up to `f`. -/
def digitVal (c : Char) : ℕ :=
  ((List.range 16).map Nat.digitChar).idxOf c

theorem digitVal_digitChar {k : ℕ} (h : k < 16) : digitVal (Nat.digitChar k) = k := by
  revert k
  decide

/-- The number a list of digits stands for. -/
def value (b : ℕ) (l : List Char) : ℕ :=
  l.foldl (fun acc c => b * acc + digitVal c) 0

theorem value_append_singleton (b : ℕ) (l : List Char) (c : Char) :
    value b (l ++ [c]) = b * value b l + digitVal c := by
  simp [value]

theorem value_toDigits {b : ℕ} (hb : 1 < b) (hb' : b ≤ 16) (n : ℕ) :
    value b (Nat.toDigits b n) = n := by
  induction n using Nat.strongRecOn with
  | _ n ih =>
    rw [Nat.toDigits_eq_if hb]
    split_ifs with hlt
    · have h := value_append_singleton b [] (Nat.digitChar n)
      rw [digitVal_digitChar (by omega)] at h
      simpa [value] using h
    · rw [value_append_singleton, ih _ (Nat.div_lt_self (by omega) hb),
        digitVal_digitChar (by have := Nat.mod_lt n (by omega : 0 < b); omega), Nat.div_add_mod]

theorem toDigits_injective {b : ℕ} (hb : 1 < b) (hb' : b ≤ 16) : Function.Injective (Nat.toDigits b) :=
  fun n m h => by rw [← value_toDigits hb hb' n, h, value_toDigits hb hb']

/-- Every digit is that of a number below the base. -/
theorem exists_of_mem_toDigits {b : ℕ} (hb : 1 < b) {n : ℕ} {c : Char} (h : c ∈ Nat.toDigits b n) :
    ∃ k < b, c = Nat.digitChar k := by
  induction n using Nat.strongRecOn with
  | _ n ih =>
    rw [Nat.toDigits_eq_if hb] at h
    split_ifs at h with hlt
    · exact ⟨n, hlt, List.mem_singleton.1 h⟩
    · rcases List.mem_append.1 h with h | h
      · exact ih _ (Nat.div_lt_self (by omega) hb) h
      · exact ⟨n % b, Nat.mod_lt n (by omega), List.mem_singleton.1 h⟩

theorem value_replicate_append (b k : ℕ) (l : List Char) :
    value b (List.replicate k '0' ++ l) = value b l := by
  induction k with
  | zero => rfl
  | succ k ih =>
    rw [← ih]
    simp [value, List.replicate_succ, show digitVal '0' = 0 from rfl]

theorem value_leftpad (b w : ℕ) (l : List Char) : value b (l.leftpad w '0') = value b l :=
  value_replicate_append b _ l

/-- A padded field determines its number. -/
theorem leftpad_toDigits_injective {b : ℕ} (hb : 1 < b) (hb' : b ≤ 16) (w : ℕ) {n m : ℕ}
    (h : (Nat.toDigits b n).leftpad w '0' = (Nat.toDigits b m).leftpad w '0') : n = m := by
  have hv := congrArg (value b) h
  rwa [value_leftpad, value_leftpad, value_toDigits hb hb', value_toDigits hb hb'] at hv

/-- A number that fits its field fills it exactly. -/
theorem length_leftpad_toDigits {b w n : ℕ} (hb : 1 < b) (hw : 0 < w) (h : n < b ^ w) :
    ((Nat.toDigits b n).leftpad w '0').length = w := by
  rw [List.length_leftpad]
  exact Nat.max_eq_left ((Nat.length_toDigits_le_iff hb hw).2 h)

/-! ## Order -/

theorem append_lt_append_iff {a b x y : List Char} (h : a.length = b.length) :
    a ++ x < b ++ y ↔ a < b ∨ a = b ∧ x < y := by
  induction a generalizing b with
  | nil =>
    obtain rfl := List.length_eq_zero_iff.1 h.symm
    simp
  | cons c a ih =>
    cases b with
    | nil => cases h
    | cons d b =>
      rw [List.cons_append, List.cons_append, List.cons_lt_cons_iff, List.cons_lt_cons_iff,
        ih (Nat.succ.inj h), List.cons.injEq, and_or_left, or_assoc, and_assoc]

/-- The last `w` digits of a number. -/
def field (b : ℕ) : ℕ → ℕ → List Char
  | 0, _ => []
  | w + 1, n => field b w (n / b) ++ [Nat.digitChar (n % b)]

theorem length_field (b w n : ℕ) : (field b w n).length = w := by
  induction w generalizing n with
  | zero => rfl
  | succ w ih => simp [field, ih]

/-- A number that fits its field fills it with its last digits. -/
theorem leftpad_toDigits_eq {b : ℕ} (hb : 1 < b) {w n : ℕ} (h : n < b ^ (w + 1)) :
    (Nat.toDigits b n).leftpad (w + 1) '0' = field b (w + 1) n := by
  induction w generalizing n with
  | zero =>
    rw [Nat.zero_add, Nat.pow_one] at h
    rw [Nat.toDigits_of_lt_base h, field, Nat.mod_eq_of_lt h]
    rfl
  | succ w ih =>
    have hrest : n / b < b ^ (w + 1) := Nat.div_lt_of_lt_mul (by rwa [← Nat.pow_succ'])
    rw [field, ← ih hrest, Nat.toDigits_eq_if hb]
    split_ifs with hlt
    · rw [Nat.div_eq_of_lt hlt, Nat.mod_eq_of_lt hlt, Nat.toDigits_of_lt_base (Nat.zero_lt_of_lt hb)]
      simp [List.leftpad, List.replicate_succ']
    · simp [List.leftpad]

theorem digitChar_lt {i j : ℕ} (hj : j < 16) (h : i < j) : Nat.digitChar i < Nat.digitChar j := by
  revert i
  revert j
  decide

theorem field_lt {b : ℕ} (hb : 0 < b) (hb' : b ≤ 16) {w n m : ℕ} (hm : m < b ^ w) (h : n < m) :
    field b w n < field b w m := by
  induction w generalizing n m with
  | zero => simp at hm; omega
  | succ w ih =>
    have hrest : m / b < b ^ w := Nat.div_lt_of_lt_mul (by rwa [← Nat.pow_succ'])
    rw [field, field, append_lt_append_iff (by rw [length_field, length_field])]
    rcases Nat.lt_or_eq_of_le (Nat.div_le_div_right (Nat.le_of_lt h) : n / b ≤ m / b) with hlt | heq
    · exact Or.inl (ih hrest hlt)
    · refine Or.inr ⟨by rw [heq], ?_⟩
      have hmod : n % b < m % b := by
        have hn := Nat.div_add_mod n b
        have hm := Nat.div_add_mod m b
        rw [heq] at hn
        omega
      exact List.cons_lt_cons_iff.2 (Or.inl (digitChar_lt (Nat.lt_of_lt_of_le (Nat.mod_lt m hb) hb') hmod))

/-- Texts that start with fields of one width are ordered as the numbers there. -/
theorem leftpad_toDigits_append_lt {b w n m : ℕ} (hb : 1 < b) (hb' : b ≤ 16)
    (hm : m < b ^ (w + 1)) (h : n < m) (x y : List Char) :
    (Nat.toDigits b n).leftpad (w + 1) '0' ++ x < (Nat.toDigits b m).leftpad (w + 1) '0' ++ y := by
  rw [leftpad_toDigits_eq hb (Nat.lt_trans h hm), leftpad_toDigits_eq hb hm,
    append_lt_append_iff (by rw [length_field, length_field])]
  exact Or.inl (field_lt (Nat.zero_lt_of_lt hb) hb' hm h)

/-- A byte is determined by the character with its number. -/
theorem toUInt8_ofNat_toNat (b : UInt8) : UInt8.ofNat (Char.ofNat b.toNat).toNat = b := by
  have hvalid : b.toNat.isValidChar := Or.inl (Nat.lt_trans b.toNat_lt (by decide))
  rw [Char.ofNat, dif_pos hvalid]
  exact UInt8.ofNat_toNat

end Digits
