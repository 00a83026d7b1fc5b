import CeDrive.Paths

/-!
# Paths on the disk

`std::path::Path` on Unix : the components between the slashes, and whether a slash comes
first. Empty components and `.` name no step. `location` is the place a path leads to from a
working directory where no directory is a link : `..` steps up, and stays at the root.
-/

namespace CeDrive

/-- A path on the disk. -/
structure OsPath where
  absolute : Bool
  comps : List String
  deriving DecidableEq

namespace OsPath

def ofString (s : String) : OsPath :=
  ⟨s.toList.head? = some '/', (DriveTree.splitSlash s).filter fun c => c ≠ "" ∧ c ≠ "."⟩

/-- `Path::display`. -/
def display (p : OsPath) : String :=
  (if p.absolute then "/" else "") ++ "/".intercalate p.comps

/-- `Path::join` : an absolute path replaces the base. -/
def join (p : OsPath) (s : String) : OsPath :=
  if (ofString s).absolute then ofString s else { p with comps := p.comps ++ (ofString s).comps }

/-- The part of a file name before its last dot. A dot that comes first starts no
extension. -/
def fileStem (name : String) : String :=
  match (name.toList.reverse.dropWhile (· ≠ '.')).tail.reverse with
  | [] => name
  | stem => String.ofList stem

/-- `Path::with_extension`. A path without a file name is left as it is. -/
def withExtension (p : OsPath) (ext : String) : OsPath :=
  match p.comps.getLast? with
  | none => p
  | some name =>
    if name = ".." then p else { p with comps := p.comps.dropLast ++ [fileStem name ++ "." ++ ext] }

/-- One step on the disk, from a directory given by its names from the root. -/
def step (dir : List String) (comp : String) : List String :=
  if comp = ".." then dir.dropLast else dir ++ [comp]

/-- The place a path leads to. -/
def location (cwd : List String) (p : OsPath) : List String :=
  p.comps.foldl step (if p.absolute then [] else cwd)

/-- The places a path passes on its way from the working directory, its end included. -/
def stations (cwd : List String) (p : OsPath) : List (List String) :=
  p.comps.inits.tail.map fun comps => location cwd { p with comps := comps }

theorem mem_stations {cwd loc : List String} {p : OsPath} : loc ∈ p.stations cwd ↔
    ∃ comps, comps ≠ [] ∧ comps <+: p.comps ∧ location cwd { p with comps := comps } = loc := by
  unfold stations
  cases hcomps : p.comps with
  | nil =>
    refine iff_of_false (by simp) ?_
    rintro ⟨comps, hne, hpre, -⟩
    exact hne (List.prefix_nil.1 hpre)
  | cons c cs =>
    simp only [List.inits_cons, List.tail_cons, List.map_map, List.mem_map, List.mem_inits]
    constructor
    · rintro ⟨comps, hpre, rfl⟩
      exact ⟨c :: comps, by simp, List.cons_prefix_cons.2 ⟨rfl, hpre⟩, rfl⟩
    · rintro ⟨comps, hne, hpre, rfl⟩
      obtain ⟨x, comps, rfl⟩ := List.exists_cons_of_ne_nil hne
      obtain ⟨rfl, hpre'⟩ := List.cons_prefix_cons.1 hpre
      exact ⟨comps, hpre', rfl⟩

/-- A text without a slash, longer than a dot, lengthens the last component. -/
theorem exists_comps_append (s : String) : ∃ init piece, ∀ t : String, '/' ∉ t.toList →
    2 ≤ t.toList.length → (ofString (s ++ t)).comps = init ++ [piece ++ t] := by
  obtain ⟨init, piece, heq⟩ := exists_splitOn_append s.toList
  refine ⟨(init.map String.ofList).filter fun c => c ≠ "" ∧ c ≠ ".", String.ofList piece,
    fun t ht hlong => ?_⟩
  have hsplit : DriveTree.splitSlash (s ++ t) =
      init.map String.ofList ++ [String.ofList piece ++ t] := by
    rw [DriveTree.splitSlash, String.toList_append, heq t.toList ht, List.map_append,
      List.map_singleton, String.ofList_append, String.ofList_toList]
  have hlen : 2 ≤ (String.ofList piece ++ t).toList.length := by
    rw [String.toList_append, List.length_append]
    omega
  have hpiece : String.ofList piece ++ t ≠ "" ∧ String.ofList piece ++ t ≠ "." := by
    constructor <;> intro h <;> rw [h] at hlen <;> exact absurd hlen (by decide)
  have hsingle : [String.ofList piece ++ t].filter (fun c => c ≠ "" ∧ c ≠ ".") =
      [String.ofList piece ++ t] := List.filter_eq_self.2 fun c hc => by
    rw [List.mem_singleton.1 hc]
    exact decide_eq_true hpiece
  simp only [ofString, hsplit, List.filter_append]
  rw [hsingle]

end OsPath

end CeDrive
