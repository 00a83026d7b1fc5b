import CeDrive.NamedLogs
import CeDrive.OsPath

/-!
# Plain names

A plain name is one step on the disk as well as in a drive path. The checks of the local
operations let only plain names pass. A received move is not checked: if every received move
carries a plain name, a replica id without a slash where conflict names show it, and is not a
move of the limbo, then every name that is listed is plain, conflict names included
(`Inv.plain_of_lists`).
-/

namespace CeDrive

/-- A name that is one step down. -/
structure Plain (name : String) : Prop where
  ne_empty : name ≠ ""
  ne_dot : name ≠ "."
  ne_dots : name ≠ ".."
  no_slash : '/' ∉ name.toList

theorem Plain.isComponent {name : String} (h : Plain name) : DriveTree.IsComponent name :=
  ⟨h.ne_empty, h.no_slash⟩

theorem plain_of_validateName {name : String} (h : validateName name = .ok ()) : Plain name := by
  obtain ⟨hne, hslash⟩ := slash_not_mem_of_validateName h
  have hdots : ¬(name = "." ∨ name = "..") := by
    unfold validateName at h
    split at h
    · cases h
    · split at h
      · cases h
      · assumption
  exact ⟨hne, (not_or.1 hdots).1, (not_or.1 hdots).2, hslash⟩

/-- A replica id whose short form has no slash. -/
def PlainReplica (replica : ReplicaId) : Prop :=
  '/' ∉ (DriveTree.short replica).toList

theorem Plain.conflictName {name : String} (h : Plain name) {ts : Timestamp}
    (hts : PlainReplica ts.replica) : Plain (DriveTree.conflictName name ts) := by
  have hlong : 2 < (DriveTree.conflictName name ts).toList.length := by
    rw [DriveTree.toList_conflictName]
    simp only [List.length_append]
    have : ".conflict-".toList.length = 10 := rfl
    omega
  refine ⟨?_, ?_, ?_, ?_⟩
  · intro heq
    rw [heq] at hlong
    exact absurd hlong (by decide)
  · intro heq
    rw [heq] at hlong
    exact absurd hlong (by decide)
  · intro heq
    rw [heq] at hlong
    exact absurd hlong (by decide)
  · have hdigits : '/' ∉ Nat.toDigits 10 ts.lamport := fun hmem =>
      absurd (Nat.isDigit_of_mem_toDigits (by omega) le_rfl hmem) (by decide)
    rw [DriveTree.toList_conflictName]
    simp only [List.mem_append, List.mem_cons, not_or]
    exact ⟨h.no_slash, by decide, hts, by decide, hdigits⟩

namespace OsPath

/-- A plain name is its own only component. -/
theorem ofString_of_plain {name : String} (h : Plain name) : ofString name = ⟨false, [name]⟩ := by
  have hsplit : DriveTree.splitSlash name = [name] := by
    simp [DriveTree.splitSlash, List.splitOn_eq_singleton h.no_slash]
  have habs : name.toList.head? ≠ some '/' := fun hhead =>
    h.no_slash (List.mem_of_head? hhead)
  simp [ofString, hsplit, habs, h.ne_empty, h.ne_dot]

end OsPath

/-! ## Logs of plain moves -/

/-- The new name of a move is plain, and its stamp shows no slash. -/
abbrev MoveOp.Plain (op : MoveOp) : Prop :=
  op.Named CeDrive.Plain PlainReplica

namespace Drive

variable {d : Drive} {n p : NodeId} {r : String}

/-- A received move is plain. -/
abbrev Event.Plain (e : Event) : Prop :=
  e.Named CeDrive.Plain PlainReplica

/-- All moves of the log are plain, and those of the next operations will be. -/
abbrev PlainLog (d : Drive) : Prop :=
  d.NamedLog Plain PlainReplica

/-- Every name listed in a directory that a path leads to is plain. -/
theorem Inv.plain_of_lists (h : d.Inv) (hp : d.PlainLog) (hne : p ≠ LIMBO)
    (hl : d.tree.Lists p r n) : Plain r := by
  rcases h.named_of_lists hp hne hl with hname | ⟨name, ts, hname, hts, rfl⟩
  · exact hname
  · exact hname.conflictName hts

end Drive

end CeDrive
