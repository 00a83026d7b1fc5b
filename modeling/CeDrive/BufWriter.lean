import Mathlib.Data.List.Basic
import Mathlib.Data.Nat.Notation
import Mathlib.Tactic.SplitIfs

/-!
# Buffered writers

`std::io::BufWriter` over a file. Small writes are gathered in a buffer of `cap` elements. What
does not fit sends the buffer to the file first, and what would fill it goes to the file itself.
A write to the file may fail after some of its elements, and the buffer keeps the others.

What is in the file is at every time a beginning of what was written, and all of it once the
buffer went there (`writeAll_spec`, `flushBuf_spec`).
-/

structure BufWriter (α : Type*) where
  file : List α
  buf : List α

namespace BufWriter

variable {α : Type*}

/-- What gets into the file of a write that fails after some elements, or not at all. -/
def reached : Option ℕ → List α → List α
  | none, l => l
  | some n, l => l.take n

/-- What was written, to the file or the buffer. -/
def all (b : BufWriter α) : List α :=
  b.file ++ b.buf

/-- Send the buffer to the file. -/
def flushBuf (b : BufWriter α) (fault : Option ℕ) : Bool × BufWriter α :=
  let out := reached fault b.buf
  (out.length = b.buf.length, ⟨b.file ++ out, b.buf.drop out.length⟩)

/-- Send the buffer to the file, if `n` more elements do not fit. -/
def makeRoom (cap : ℕ) (b : BufWriter α) (fault : Option ℕ) (n : ℕ) : Bool × BufWriter α :=
  if cap - b.buf.length < n then b.flushBuf fault else (true, b)

/-- Where the writes of a `write_all` fail : that of the buffer, and that of its own elements. -/
structure Faults where
  buf : Option ℕ
  own : Option ℕ

/-- `write_all`, with the file after each of its writes there. -/
def writeAll (cap : ℕ) (b : BufWriter α) (faults : Faults) (l : List α) :
    List (List α) × Bool × BufWriter α :=
  if l.length < cap - b.buf.length then ([], true, ⟨b.file, b.buf ++ l⟩)
  else match b.makeRoom cap faults.buf l.length with
    | (false, b) => ([b.file], false, b)
    | (true, b) =>
      if cap ≤ l.length then
        let out := reached faults.own l
        ([b.file, b.file ++ out], out.length = l.length, ⟨b.file ++ out, b.buf⟩)
      else ([b.file], true, ⟨b.file, b.buf ++ l⟩)

variable {b b' : BufWriter α} {cap : ℕ} {fault : Option ℕ} {faults : Faults} {l : List α} {ok : Bool}
  {files : List (List α)}

theorem reached_isPrefix (fault : Option ℕ) (l : List α) : reached fault l <+: l := by
  cases fault with
  | none => exact List.prefix_refl l
  | some n => exact List.take_prefix n l

theorem reached_eq_self (h : (reached fault l).length = l.length) : reached fault l = l :=
  (reached_isPrefix fault l).eq_of_length h

theorem file_prefix_all (b : BufWriter α) : b.file <+: b.all :=
  List.prefix_append ..

/-- The buffer is sent in order, and all of it unless the write fails. -/
theorem flushBuf_spec (h : b.flushBuf fault = (ok, b')) :
    b'.all = b.all ∧ b'.buf.length ≤ b.buf.length ∧
      (ok = true → b' = ⟨b.all, []⟩) ∧ (fault = none → ok = true) := by
  obtain ⟨rfl, rfl⟩ := Prod.mk.inj h
  have hsplit : reached fault b.buf ++ b.buf.drop (reached fault b.buf).length = b.buf := by
    conv_rhs => rw [← List.take_append_drop (reached fault b.buf).length b.buf]
    rw [← List.prefix_iff_eq_take.1 (reached_isPrefix fault b.buf)]
  refine ⟨?_, by simp, fun hok => ?_, ?_⟩
  · rw [all, List.append_assoc, hsplit, all]
  · rw [reached_eq_self (of_decide_eq_true hok), List.drop_length, all]
  · rintro rfl
    exact decide_eq_true rfl

@[simp] theorem flushBuf_none (b : BufWriter α) : b.flushBuf none = (true, ⟨b.all, []⟩) := by
  simp [flushBuf, reached, all]

/-- The buffer is empty then, or has room. -/
theorem makeRoom_spec {n : ℕ} (hbuf : b.buf.length ≤ cap) (h : b.makeRoom cap fault n = (ok, b')) :
    b'.all = b.all ∧ b'.buf.length ≤ cap ∧
      (ok = true → b'.buf = [] ∨ b'.buf.length + n ≤ cap) ∧ (fault = none → ok = true) := by
  unfold makeRoom at h
  split_ifs at h
  · obtain ⟨hall, hle, hsent, hok⟩ := flushBuf_spec h
    exact ⟨hall, Nat.le_trans hle hbuf, fun hs => Or.inl (by rw [hsent hs]), hok⟩
  · obtain ⟨rfl, rfl⟩ := Prod.mk.inj h
    exact ⟨rfl, hbuf, fun _ => Or.inr (by omega), fun _ => rfl⟩

theorem all_buffered (b : BufWriter α) (l : List α) : all ⟨b.file, b.buf ++ l⟩ = b.all ++ l :=
  (List.append_assoc ..).symm

/-- A write keeps the order, and nothing is lost unless it fails. -/
theorem writeAll_spec (hbuf : b.buf.length ≤ cap)
    (h : b.writeAll cap faults l = (files, ok, b')) :
    (∀ file ∈ files, file <+: b.all ++ l) ∧ b'.all <+: b.all ++ l ∧ b'.buf.length ≤ cap ∧
      (ok = true → b'.all = b.all ++ l) ∧ (faults = ⟨none, none⟩ → ok = true) := by
  unfold writeAll at h
  by_cases hroom : l.length < cap - b.buf.length
  · rw [if_pos hroom, Prod.mk.injEq, Prod.mk.injEq] at h
    obtain ⟨rfl, rfl, rfl⟩ := h
    refine ⟨by simp, b.all_buffered l ▸ List.prefix_refl _, ?_, fun _ => b.all_buffered l,
      fun _ => rfl⟩
    rw [List.length_append]
    omega
  rw [if_neg hroom] at h
  rcases hsend : b.makeRoom cap faults.buf l.length with ⟨sent, b₁⟩
  obtain ⟨hall, hroom₁, hsent, hok⟩ := makeRoom_spec hbuf hsend
  have hfile : b₁.file <+: b.all ++ l :=
    (hall ▸ file_prefix_all b₁).trans (List.prefix_append ..)
  rw [hsend] at h
  cases sent with
  | false =>
    simp only [Prod.mk.injEq] at h
    obtain ⟨rfl, rfl, rfl⟩ := h
    exact ⟨List.forall_mem_singleton.2 hfile, hall ▸ List.prefix_append .., hroom₁,
      fun h => absurd h Bool.false_ne_true, fun hf => hok (by rw [hf])⟩
  | true =>
    dsimp only at h
    by_cases hbig : cap ≤ l.length
    · -- the elements go to the file, over an empty buffer
      have hempty : b₁.buf = [] := by
        rcases hsent rfl with hnil | hfit
        · exact hnil
        · exact List.length_eq_zero_iff.1 (by omega)
      have hwritten : b₁.file = b.all := by rw [← hall, all, hempty, List.append_nil]
      have hpart : b₁.file ++ reached faults.own l <+: b.all ++ l :=
        hwritten ▸ (List.prefix_append_right_inj _).2 (reached_isPrefix faults.own l)
      rw [if_pos hbig, Prod.mk.injEq, Prod.mk.injEq] at h
      obtain ⟨rfl, rfl, rfl⟩ := h
      refine ⟨?_, ?_, hroom₁, fun hok => ?_, ?_⟩
      · exact List.forall_mem_cons.2 ⟨hfile, List.forall_mem_singleton.2 hpart⟩
      · rwa [all, hempty, List.append_nil]
      · rw [all, hempty, List.append_nil, hwritten, reached_eq_self (of_decide_eq_true hok)]
      · rintro rfl
        exact decide_eq_true rfl
    · rw [if_neg hbig, Prod.mk.injEq, Prod.mk.injEq] at h
      obtain ⟨rfl, rfl, rfl⟩ := h
      have hall' : all ⟨b₁.file, b₁.buf ++ l⟩ = b.all ++ l := by rw [all_buffered, hall]
      refine ⟨List.forall_mem_singleton.2 hfile, hall' ▸ List.prefix_refl _, ?_, fun _ => hall',
        fun _ => rfl⟩
      rw [List.length_append]
      rcases hsent rfl with hnil | hfit
      · rw [hnil, List.length_nil]
        omega
      · exact hfit

/-- What is as long as the buffer goes to the file at once. -/
theorem writeAll_of_le (hfile : b.buf = []) (hlong : cap ≤ l.length) :
    b.writeAll cap ⟨none, none⟩ l =
      ([b.file, b.file ++ l], true, ⟨b.file ++ l, []⟩) := by
  have hroom : b.makeRoom cap none l.length = (true, b) := by
    rw [makeRoom, flushBuf_none, all, hfile, List.append_nil, ← hfile, ite_self]
  simp [writeAll, hroom, hlong, reached, hfile]

end BufWriter
