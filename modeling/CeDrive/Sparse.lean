import Mathlib.Data.List.GetD
import Mathlib.Data.Nat.Notation
import Mathlib.Tactic.SplitIfs

/-!
# Sparse files

A file as its size and the element at each position, `zero` from the size on. A read is clamped
at the end of the file, a write puts its elements where they go and grows the file to hold
them, and a truncation drops what is past the size and fills up to it with `zero`.
-/

namespace Sparse

@[ext]
structure File {α : Type*} (zero : α) where
  size : ℕ
  elem : ℕ → α
  elem_of_le : ∀ i, size ≤ i → elem i = zero

namespace File

variable {α : Type*} {zero : α}

/-- The file of a list. -/
def ofList (l : List α) : File zero where
  size := l.length
  elem i := l.getD i zero
  elem_of_le _ h := List.getD_eq_default _ _ h

/-- The elements at `[offset, offset + size)` that there are. -/
def read (f : File zero) (offset size : ℕ) : List α :=
  (List.range' offset (min (offset + size) f.size - offset)).map f.elem

def write (f : File zero) (offset : ℕ) (data : List α) : File zero where
  size := max f.size (offset + data.length)
  elem i := if offset ≤ i ∧ i < offset + data.length then data.getD (i - offset) zero else f.elem i
  elem_of_le i h := by
    have hsize : f.size ≤ i := by omega
    rw [if_neg (by omega), f.elem_of_le i hsize]

def truncate (f : File zero) (size : ℕ) : File zero where
  size := size
  elem i := if i < size then f.elem i else zero
  elem_of_le i h := if_neg (by omega)

theorem read_ofList (l : List α) (offset size : ℕ) :
    (ofList l : File zero).read offset size = (l.drop offset).take size := by
  refine List.ext_getElem ?_ fun i hi hi' => ?_
  · simp only [read, ofList, List.length_map, List.length_range', List.length_take,
      List.length_drop]
    omega
  · have hlt : offset + i < l.length := by
      rw [List.length_take, List.length_drop] at hi'
      omega
    simp [read, ofList, hlt]

theorem truncate_ofList (l : List α) (size : ℕ) :
    (ofList l : File zero).truncate size =
      ofList (l.take size ++ List.replicate (size - l.length) zero) := by
  refine File.ext ?_ (funext fun i => ?_)
  · simp only [truncate, ofList, List.length_append, List.length_take, List.length_replicate]
    omega
  · simp only [truncate, ofList, List.getD_eq_getElem?_getD, List.getElem?_append,
      List.getElem?_take, List.getElem?_replicate, List.length_take]
    grind

/-- A write into the list is one into the file, if the list was filled up to its end. -/
theorem write_ofList {l : List α} {offset : ℕ} {data : List α}
    (h : offset + data.length ≤ l.length) :
    (ofList l : File zero).write offset data =
      ofList (l.take offset ++ data ++ l.drop (offset + data.length)) := by
  refine File.ext ?_ (funext fun i => ?_)
  · simp only [write, ofList, List.length_append, List.length_take, List.length_drop]
    omega
  · simp only [write, ofList, List.getD_eq_getElem?_getD, List.getElem?_append,
      List.getElem?_take, List.getElem?_drop, List.length_append, List.length_take]
    grind

/-- A write grows the file as a truncation to its end would. -/
theorem write_truncate {f : File zero} {offset : ℕ} {data : List α}
    (h : f.size ≤ offset + data.length) :
    (f.truncate (offset + data.length)).write offset data = f.write offset data := by
  refine File.ext ?_ (funext fun i => ?_)
  · simp only [write, truncate]
    omega
  · simp only [write, truncate]
    split_ifs with hin hlt
    · rfl
    · rfl
    · exact (f.elem_of_le i (by omega)).symm

end File

end Sparse
