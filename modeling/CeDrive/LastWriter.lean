import CeDrive.OrderFree
import CeDrive.Register
import Mathlib.Data.Prod.Lex

/-!
# The last writer

Saves of one file are folded by last-writer-wins on `(mtime_ms, cid)`. The pair of the record
is a register tagged by the cid : a save of the current cid is ignored, also when its time is
the newer one. So the record holds the greatest pair saved exactly if a save of that pair
found no older time of its cid (`record_isGreatest_iff`).
-/

open Std (ExtTreeMap)

namespace CeDrive

open Browser (Save)

/-- The pair last-writer-wins compares. -/
def FileContent.stamp (c : FileContent) : ℕ ×ₗ String :=
  toLex (c.mtimeMs, c.cid)

/-- The pair of a save. -/
def Browser.Save.stamp (s : Save) : ℕ ×ₗ String :=
  toLex (s.mtimeMs, s.cid)

/-- The map after saves of one file. -/
def saved (id : NodeId) (saves : List Save) : ContentMap :=
  (saves.map fun s => s.op id).foldl ContentMap.apply ∅

namespace LastWriter

variable {id : NodeId} {saves pre : List Save} {s : Save} {c : FileContent}

@[simp] theorem mtimeMs_pushVersion {v : Version} : (c.pushVersion v).mtimeMs = c.mtimeMs := by
  unfold FileContent.pushVersion
  split_ifs <;> rfl

/-- The cid of a pair. -/
def cidOf (p : ℕ ×ₗ String) : String :=
  (ofLex p).2

theorem stamp_lt_iff {s : Save} : c.stamp < s.stamp ↔
    s.mtimeMs > c.mtimeMs ∨ s.mtimeMs = c.mtimeMs ∧ s.cid > c.cid := by
  rw [FileContent.stamp, Browser.Save.stamp, Prod.Lex.toLex_lt_toLex, gt_iff_lt, gt_iff_lt, eq_comm]

/-- A save writes its pair to the pair of the record. -/
theorem stamp_record (c : FileContent) (s : Save) :
    (({ c with mode := s.mode } : FileContent).record s.cid s.size s.mtimeMs).2.stamp =
      Register.write cidOf c.stamp s.stamp := by
  rcases ({ c with mode := s.mode } : FileContent).record_cases s.cid s.size s.mtimeMs with
    ⟨hcid, heq⟩ | ⟨hcid, hloses, v, heq⟩ | ⟨hcid, hwins, heq⟩
  · have htag : cidOf s.stamp = cidOf c.stamp := hcid
    rw [Register.write_of_tag htag, heq]
    rfl
  · have hle : s.stamp ≤ c.stamp := not_lt.1 fun hlt => hloses (stamp_lt_iff.1 hlt)
    rw [Register.write_of_le hle, heq, FileContent.stamp, FileContent.cid_pushVersion,
      mtimeMs_pushVersion]
    rfl
  · have htag : cidOf s.stamp ≠ cidOf c.stamp := hcid
    rw [Register.write_of_ge htag (stamp_lt_iff.2 hwins).le, heq]
    rfl

theorem saved_append_singleton : saved id (saves ++ [s]) = (saved id saves).apply (s.op id) := by
  simp [saved]

/-- The pair of the record is what the register reads. -/
theorem map_stamp_saved (id : NodeId) (saves : List Save) :
    (saved id saves)[id]?.map FileContent.stamp =
      Register.read cidOf (saves.map Browser.Save.stamp) := by
  induction saves using List.reverseRecOn with
  | nil => simp [saved, Register.read]
  | append_singleton saves s ih =>
    have htarget : (s.op id).target = id := rfl
    rw [saved_append_singleton, ContentMap.getElem?_apply, if_pos htarget, List.map_append,
      List.map_singleton, Register.read_append_singleton, ← ih]
    cases (saved id saves)[id]? with
    | none => rfl
    | some c => exact congrArg some (stamp_record c s)

end LastWriter

open LastWriter

/-- The record of a file holds the greatest pair saved exactly if a save of it did not find
the record at its cid with another time. -/
theorem record_isGreatest_iff (id : NodeId) (saves : List Save) :
    (∃ c, (saved id saves)[id]? = some c ∧ IsGreatest {p | ∃ s ∈ saves, s.stamp = p} c.stamp) ↔
      ∃ pre s post, saves = pre ++ s :: post ∧ (∀ s' ∈ saves, s'.stamp ≤ s.stamp) ∧
        ∀ c, (saved id pre)[id]? = some c → c.cid = s.cid → c.mtimeMs = s.mtimeMs := by
  have hread : (∃ c, (saved id saves)[id]? = some c ∧
        IsGreatest {p | ∃ s ∈ saves, s.stamp = p} c.stamp) ↔
      ∃ p, Register.read cidOf (saves.map Browser.Save.stamp) = some p ∧
        IsGreatest {q | q ∈ saves.map Browser.Save.stamp} p := by
    simp [← map_stamp_saved id]
  rw [hread, Register.isGreatest_iff]
  constructor
  · rintro ⟨pre', p, post', hl, hle, hpre⟩
    obtain ⟨pre, tail, rfl, rfl, htail⟩ := List.map_eq_append_iff.1 hl
    obtain ⟨s, post, rfl, rfl, rfl⟩ := List.map_eq_cons_iff.1 htail
    refine ⟨pre, s, post, rfl, fun s' hs' => hle _ (List.mem_map_of_mem hs'), fun c hc hcid => ?_⟩
    have hread : Register.read cidOf (pre.map Browser.Save.stamp) = some c.stamp := by
      rw [← map_stamp_saved id, hc]
      rfl
    exact congrArg (fun p => (ofLex p).1) (hpre c.stamp hread hcid)
  · rintro ⟨pre, s, post, rfl, hle, hpre⟩
    refine ⟨pre.map Browser.Save.stamp, s.stamp, post.map Browser.Save.stamp, by simp, ?_, ?_⟩
    · rintro p hp
      obtain ⟨s', hs', rfl⟩ := List.mem_map.1 hp
      exact hle s' hs'
    · intro p hp hcid
      rw [← map_stamp_saved id, Option.map_eq_some_iff] at hp
      obtain ⟨c, hc, rfl⟩ := hp
      have hcid' : c.cid = s.cid := hcid
      rw [FileContent.stamp, Browser.Save.stamp, hcid', hpre c hc hcid']

/-- A save of the current cid with a newer time is ignored, and an older save wins after it. -/
theorem record_not_greatest : ¬∀ saves : List Save, saves ≠ [] →
    ∃ c, (saved "f" saves)["f"]? = some c ∧
      IsGreatest {p | ∃ s ∈ saves, s.stamp = p} c.stamp := by
  intro h
  obtain ⟨c, hc, -, hle⟩ := h [⟨"a", 1, 0, 1⟩, ⟨"a", 1, 0, 5⟩, ⟨"b", 1, 0, 3⟩] (by simp)
  have hcur : some c.stamp = some (toLex (3, "b")) := by
    rw [← Option.map_some, ← hc, map_stamp_saved]
    decide
  have hnewer : toLex (5, "a") ≤ c.stamp := hle ⟨⟨"a", 1, 0, 5⟩, by simp, rfl⟩
  rw [Option.some_injective _ hcur] at hnewer
  exact absurd hnewer (by decide)

end CeDrive
