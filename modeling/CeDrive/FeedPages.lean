import CeDrive.Changes
import CeDrive.Pages

/-!
# The change feed page by page

A client that polls with a limit and the cursor it was given gets the feed in pages. Each
poll scans, merges and sorts the logs anew. If no two operations of the logs share a
timestamp, the cursor of a page admits exactly the changes after it
(`merged_eq_filter`), so the pages together are what one poll without a limit returns
(`drain_changesSince`).
-/

open SortedLog

namespace CeDrive

namespace Cursor

variable {cursor : Cursor} {ts ts' : Timestamp}

theorem admits_of_lt (h : cursor.admits ts = true) (hlt : ts < ts') : cursor.admits ts' = true := by
  cases hlast : cursor.last with
  | none => simp [admits, hlast]
  | some seen =>
    simp only [admits, hlast, decide_eq_true_eq] at h ⊢
    exact h.trans hlt

end Cursor

namespace ChangeLog

variable {f : ChangeLog} {cursor cursor' : Cursor} {limit : ℕ}

/-- No two operations of the logs share a timestamp. -/
def Stamped (f : ChangeLog) : Prop :=
  (f.moveLog.map MoveOp.ts ++ f.contentLog.map StampedContentOp.ts).Nodup

instance (f : ChangeLog) : Decidable f.Stamped :=
  inferInstanceAs (Decidable (List.Nodup _))

theorem Stamped.moves (h : f.Stamped) : f.moveLog.Pairwise fun a b => a.ts ≠ b.ts :=
  List.pairwise_map.1 (List.nodup_append'.1 h).1

theorem Stamped.ascending_merged (h : f.Stamped) (cursor : Cursor) :
    Ascending Change.ts (f.merged cursor) := by
  obtain ⟨-, hcontent, hapart⟩ := List.nodup_append.1 h
  refine ascending_merged_of h.moves (List.pairwise_map.1 hcontent) (fun op hop s hs => ?_) cursor
  exact hapart _ (List.mem_map_of_mem hop) _ (List.mem_map_of_mem hs)

/-- A later cursor keeps the changes it admits. -/
theorem Stamped.merged_eq_filter (h : f.Stamped)
    (hle : ∀ ts, cursor'.admits ts = true → cursor.admits ts = true) :
    f.merged cursor' = (f.merged cursor).filter fun c => cursor'.admits c.ts := by
  refine (h.ascending_merged cursor').ext ((h.ascending_merged cursor).filter _) fun c => ?_
  rw [List.mem_filter, mem_merged, mem_merged, mem_structural h.moves, mem_structural h.moves]
  constructor
  · rintro (⟨op, hop, ha, rfl⟩ | ⟨s, hs, ha, rfl⟩)
    · exact ⟨Or.inl ⟨op, hop, hle _ ha, rfl⟩, ha⟩
    · exact ⟨Or.inr ⟨s, hs, hle _ ha, rfl⟩, ha⟩
  · rintro ⟨⟨op, hop, -, rfl⟩ | ⟨s, hs, -, rfl⟩, ha⟩
    · exact Or.inl ⟨op, hop, ha, rfl⟩
    · exact Or.inr ⟨s, hs, ha, rfl⟩

/-- After the change `c` of the feed, the feed goes on with the changes behind it. -/
theorem Stamped.merged_atTs (h : f.Stamped) {pre post : List Change} {c : Change}
    (hf : f.merged cursor = pre ++ c :: post) : f.merged (.atTs c.ts) = post := by
  have hmem : c ∈ f.merged cursor := by
    rw [hf]
    simp
  have hc : cursor.admits c.ts = true := admits_of_mem_merged hmem
  rw [h.merged_eq_filter fun ts hts => Cursor.admits_of_lt hc (Cursor.admits_atTs.1 hts), hf]
  exact (hf ▸ h.ascending_merged cursor).filter_lt

/-- A page is the first `limit` changes. -/
theorem changesSince_fst (hlimit : limit ≠ 0) :
    (f.changesSince cursor limit).1 = ((f.merged cursor).take limit).map f.fill := by
  unfold changesSince
  dsimp only
  split_ifs with h
  · rfl
  · rw [List.take_of_length_le (by omega)]

theorem Stamped.delivers (h : f.Stamped) (hlimit : limit ≠ 0) :
    Pages.Delivers (fun cursor => some (f.changesSince cursor limit))
      (fun cursor => (f.changesSince cursor 0).1) fun _ => True := by
  intro cursor _
  refine ⟨(f.changesSince cursor limit).1, (f.changesSince cursor limit).2, rfl, trivial, ?_⟩
  have hnext : (f.changesSince cursor limit).2 =
      (((f.changesSince cursor limit).1.getLast?).map fun c => Cursor.atTs c.ts).getD cursor := rfl
  rw [changesSince_fst hlimit] at hnext ⊢
  simp only [changesSince_zero]
  rcases List.eq_nil_or_concat' ((f.merged cursor).take limit) with hnil | ⟨pre, c, hpage⟩
  · have hempty : f.merged cursor = [] := (List.take_eq_nil_iff.1 hnil).resolve_left hlimit
    rw [hnil] at hnext
    simp [hnext, hempty]
  · have hsplit : f.merged cursor = pre ++ c :: (f.merged cursor).drop limit := by
      conv_lhs => rw [← List.take_append_drop limit (f.merged cursor), hpage]
      simp
    have hcursor : (f.changesSince cursor limit).2 = Cursor.atTs c.ts := by
      rw [hnext, hpage]
      simp [fill]
    rw [hcursor, h.merged_atTs hsplit, hpage, ← List.map_append]
    refine ⟨?_, fun hnil => by simp at hnil⟩
    conv_lhs => rw [hsplit]
    simp

/-- Pages make up the feed. If no two operations share a timestamp, polling with a limit until
a page is empty ends, whatever the cursor, and returns what one poll without a limit does. -/
theorem drain_changesSince (f : ChangeLog) (h : f.Stamped) (cursor : Cursor) (limit : ℕ)
    (hlimit : 1 ≤ limit) : ∃ bound, ∀ polls, bound ≤ polls →
      Pages.drain (fun cursor => some (f.changesSince cursor limit)) polls cursor =
        some (f.changesSince cursor 0).1 :=
  ⟨(f.changesSince cursor 0).1.length + 1, fun _ hpolls =>
    (h.delivers (Nat.one_le_iff_ne_zero.1 hlimit)).drain_eq trivial hpolls⟩

/-- Four operations in no order of their timestamps, one of them before the cursor. -/
def unsorted : ChangeLog where
  moveLog := [⟨⟨5, "a"⟩, "n", ROOT, "x", .file⟩, ⟨⟨2, "b"⟩, "m", ROOT, "y", .dir⟩,
    ⟨⟨7, "a"⟩, "n", "m", "z", .file⟩]
  contentLog := [⟨⟨6, "a"⟩, .set "n" "c" 1 0 0⟩]
  tree := .new

theorem drain_changesSince_unsorted : ∃ bound, ∀ polls, bound ≤ polls →
    Pages.drain (fun cursor => some (unsorted.changesSince cursor 1)) polls (.atTs ⟨2, "b"⟩) =
      some (unsorted.changesSince (.atTs ⟨2, "b"⟩) 0).1 :=
  drain_changesSince unsorted (by decide) (.atTs ⟨2, "b"⟩) 1 le_rfl

end ChangeLog

end CeDrive
