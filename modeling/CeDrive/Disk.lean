import CeDrive.OsPath

/-!
# A directory on the disk

The entries of a directory, in the order in which `push_dir` visits them and by their names as
`to_string_lossy` gives them, which may be one for two entries. `look` is what stands at a place
below it. `place` is the last step of `create_dir_all` and of `write` : it makes a directory unless
it is there, or writes a file, and fails as `std::fs` does if the directory above is missing, or if
a file or a directory is in the way.
-/

namespace CeDrive

/-- A regular file. -/
structure DiskFile where
  bytes : List UInt8
  mode : ℕ
  mtimeMs : ℕ
  deriving DecidableEq

/-- The entries of a directory. -/
inductive DiskDir
  | nil
  | file (name : String) (f : DiskFile) (rest : DiskDir)
  | dir (name : String) (entries rest : DiskDir)
  deriving DecidableEq

inductive DiskNode
  | file (f : DiskFile)
  | dir (entries : DiskDir)

namespace DiskDir

/-! ## One directory -/

def names : DiskDir → List String
  | nil => []
  | file name _ rest => name :: rest.names
  | dir name _ rest => name :: rest.names

/-- The entry of a name. -/
def lookup : DiskDir → String → Option DiskNode
  | nil, _ => none
  | file name f rest, x => if name = x then some (.file f) else rest.lookup x
  | dir name entries rest, x => if name = x then some (.dir entries) else rest.lookup x

def cons (name : String) : DiskNode → DiskDir → DiskDir
  | .file f, rest => file name f rest
  | .dir entries, rest => dir name entries rest

/-- Set the entry of a name. -/
def put (x : String) (node : DiskNode) : DiskDir → DiskDir
  | nil => cons x node nil
  | file name f rest =>
    if x < name then cons x node (file name f rest)
    else if x = name then cons x node rest else file name f (rest.put x node)
  | dir name entries rest =>
    if x < name then cons x node (dir name entries rest)
    else if x = name then cons x node rest else dir name entries (rest.put x node)

/-! ## The tree below -/

/-- What stands at a place : nothing, a directory, or a file. -/
def look : DiskDir → List String → Option (Option DiskFile)
  | _, [] => some none
  | D, x :: q =>
    match D.lookup x with
    | none => none
    | some (.file f) => if q = [] then some (some f) else none
    | some (.dir entries) => entries.look q

/-- A directory without entries, or a file. -/
def made : Option DiskFile → DiskNode
  | none => .dir nil
  | some f => .file f

/-- Make a directory, or write a file. -/
def place (node : Option DiskFile) : DiskDir → List String → Option DiskDir
  | D, [] => if node = none then some D else none
  | D, x :: q =>
    match D.lookup x with
    | none => if q = [] then some (D.put x (made node)) else none
    | some (.file _) => if q = [] ∧ node ≠ none then some (D.put x (made node)) else none
    | some (.dir entries) => (entries.place node q).map fun entries => D.put x (.dir entries)

/-- The names ascend, in every directory. -/
def Sorted : DiskDir → Prop
  | nil => True
  | file name _ rest => (∀ m ∈ rest.names, name < m) ∧ rest.Sorted
  | dir name entries rest => (∀ m ∈ rest.names, name < m) ∧ entries.Sorted ∧ rest.Sorted

/-- No two names are one, in any directory. -/
def Apart : DiskDir → Prop
  | nil => True
  | file name _ rest => name ∉ rest.names ∧ rest.Apart
  | dir name entries rest => name ∉ rest.names ∧ entries.Apart ∧ rest.Apart

/-- A file and its place, met on a walk of the entries. -/
def HasFile : DiskDir → List String → DiskFile → Prop
  | nil, _, _ => False
  | file name f rest, q, g => (q = [name] ∧ g = f) ∨ rest.HasFile q g
  | dir name entries rest, q, g => (∃ q', q = name :: q' ∧ entries.HasFile q' g) ∨ rest.HasFile q g

/-- The place of a directory, met on a walk of the entries. -/
def HasDir : DiskDir → List String → Prop
  | nil, _ => False
  | file _ _ rest, q => rest.HasDir q
  | dir name entries rest, q =>
    (∃ q', q = name :: q' ∧ (q' = [] ∨ entries.HasDir q')) ∨ rest.HasDir q

variable {D D' rest : DiskDir} {q : List String} {x y m name : String} {node node' : DiskNode}
  {new : Option DiskFile}

/-! ## What is set and what is placed -/

theorem lookup_cons : (cons name node rest).lookup x =
    if name = x then some node else rest.lookup x := by
  cases node <;> rfl

theorem names_cons : (cons name node rest).names = name :: rest.names := by
  cases node <;> rfl

theorem put_cons : (cons name node rest).put x node' =
    if x < name then cons x node' (cons name node rest)
    else if x = name then cons x node' rest else cons name node (rest.put x node') := by
  cases node <;> rfl

/-- Induction over the entries of one directory. -/
theorem cons_induction {P : DiskDir → Prop} (nil : P nil)
    (cons : ∀ name node rest, P rest → P (cons name node rest)) (D : DiskDir) : P D := by
  induction D with
  | nil => exact nil
  | file name f rest ih => exact cons name (.file f) rest ih
  | dir name entries rest _ ih => exact cons name (.dir entries) rest ih

theorem lookup_put (x : String) (node : DiskNode) (D : DiskDir) (y : String) :
    (D.put x node).lookup y = if x = y then some node else D.lookup y := by
  induction D using cons_induction with
  | nil => exact lookup_cons
  | cons name _ rest ih =>
    rw [put_cons, lookup_cons]
    by_cases hlt : x < name
    · rw [if_pos hlt, lookup_cons, lookup_cons]
    by_cases heq : x = name
    · subst heq
      rw [if_neg hlt, if_pos rfl, lookup_cons]
      by_cases hxy : x = y <;> simp [hxy]
    · rw [if_neg hlt, if_neg heq, lookup_cons, ih]
      by_cases hxy : x = y
      · subst hxy
        rw [if_neg (Ne.symm heq), if_pos rfl, if_pos rfl]
      · simp [hxy]

theorem look_put (x : String) (node : DiskNode) (D : DiskDir) (y : String) (q : List String) :
    (D.put x node).look (y :: q) = if x = y then (cons x node nil).look (x :: q) else D.look (y :: q) := by
  rw [look, lookup_put, look, lookup_cons, if_pos rfl, look]
  by_cases hxy : x = y <;> simp [hxy]

@[simp] theorem look_made : (cons x (made new) nil).look (x :: q) = if q = [] then some new else none := by
  rw [look, lookup_cons, if_pos rfl]
  cases new with
  | some f => rfl
  | none => cases q <;> rfl

/-- What is placed stands at its place, and all else as before. -/
theorem look_place (h : D.place new q = some D') (q' : List String) :
    D'.look q' = if q' = q then some new else D.look q' := by
  induction q generalizing D D' q' with
  | nil =>
    rw [place] at h
    split_ifs at h with hnew
    obtain rfl := Option.some_injective _ h
    subst hnew
    cases q' <;> rfl
  | cons x q ih =>
    cases q' with
    | nil => rfl
    | cons y q' =>
      by_cases hxy : x = y
      swap
      · have hput : ∃ node, D' = D.put x node := by
          rw [place] at h
          split at h
          · split_ifs at h
            exact ⟨_, (Option.some_injective _ h).symm⟩
          · split_ifs at h
            exact ⟨_, (Option.some_injective _ h).symm⟩
          · obtain ⟨entries, -, rfl⟩ := Option.map_eq_some_iff.1 h
            exact ⟨_, rfl⟩
        obtain ⟨node, rfl⟩ := hput
        rw [look_put, if_neg hxy, if_neg fun heq => hxy (List.cons.inj heq).1.symm]
      subst hxy
      rw [place] at h
      split at h
      · rename_i hx
        split_ifs at h with hq
        obtain rfl := Option.some_injective _ h
        rw [look_put, if_pos rfl, look_made, look, hx, hq]
        simp
      · rename_i f hx
        split_ifs at h with hq
        obtain rfl := Option.some_injective _ h
        rw [look_put, if_pos rfl, look_made, look, hx, hq.1]
        by_cases hq' : q' = [] <;> simp [hq']
      · rename_i entries hx
        obtain ⟨entries', he, rfl⟩ := Option.map_eq_some_iff.1 h
        have hlook : (D.put x (.dir entries')).look (x :: q') = entries'.look q' := by
          rw [look, lookup_put, if_pos rfl]
        rw [hlook, ih he, look, hx]
        simp

/-! ## Sorted names -/

theorem sorted_cons : (cons name node rest).Sorted ↔
    (∀ m ∈ rest.names, name < m) ∧ (∀ entries, node = .dir entries → entries.Sorted) ∧
      rest.Sorted := by
  cases node with
  | file f => simp [cons, Sorted]
  | dir entries => simp [cons, Sorted]

theorem mem_names_put (hm : m ∈ (D.put x node).names) : m = x ∨ m ∈ D.names := by
  induction D using cons_induction with
  | nil => simpa [put, names_cons, names] using hm
  | cons name _ rest ih =>
    rw [put_cons] at hm
    rw [names_cons]
    split_ifs at hm with hlt heq
    · rwa [names_cons, names_cons, List.mem_cons] at hm
    · rw [names_cons] at hm
      exact (List.mem_cons.1 hm).imp_right (List.mem_cons_of_mem _)
    · rw [names_cons] at hm
      rcases List.mem_cons.1 hm with rfl | hm
      · exact Or.inr List.mem_cons_self
      · exact (ih hm).imp_right (List.mem_cons_of_mem _)

theorem Sorted.put (hs : D.Sorted) (hnode : ∀ entries, node = .dir entries → entries.Sorted) :
    (D.put x node).Sorted := by
  induction D using cons_induction with
  | nil => exact sorted_cons.2 ⟨by simp [names], hnode, trivial⟩
  | cons name old rest ih =>
    obtain ⟨hlt, hold, hrest⟩ := sorted_cons.1 hs
    rw [put_cons]
    split_ifs with hx heq
    · refine sorted_cons.2 ⟨fun m hm => ?_, hnode, hs⟩
      rw [names_cons] at hm
      rcases List.mem_cons.1 hm with rfl | hm
      · exact hx
      · exact hx.trans (hlt m hm)
    · exact sorted_cons.2 ⟨heq ▸ hlt, hnode, hrest⟩
    · refine sorted_cons.2 ⟨fun m hm => ?_, hold, ih hrest⟩
      rcases mem_names_put hm with rfl | hm
      · exact lt_of_le_of_ne (not_lt.1 hx) (Ne.symm heq)
      · exact hlt m hm

theorem Sorted.lookup (hs : D.Sorted) {entries : DiskDir} (h : D.lookup x = some (.dir entries)) :
    entries.Sorted := by
  induction D using cons_induction with
  | nil => cases h
  | cons name _ rest ih =>
    obtain ⟨-, hnode, hrest⟩ := sorted_cons.1 hs
    rw [lookup_cons] at h
    split_ifs at h
    · exact hnode _ (Option.some_injective _ h)
    · exact ih hrest h

/-- The names stay sorted. -/
theorem Sorted.place (hs : D.Sorted) (h : D.place new q = some D') : D'.Sorted := by
  have hmade : ∀ entries, made new = .dir entries → entries.Sorted := by
    intro entries heq
    cases new with
    | some f => cases heq
    | none =>
      cases heq
      trivial
  induction q generalizing D D' with
  | nil =>
    rw [DiskDir.place] at h
    split_ifs at h
    exact Option.some_injective _ h ▸ hs
  | cons x q ih =>
    rw [DiskDir.place] at h
    split at h
    · split_ifs at h
      exact Option.some_injective _ h ▸ hs.put hmade
    · split_ifs at h
      exact Option.some_injective _ h ▸ hs.put hmade
    · rename_i entries hx
      obtain ⟨entries', he, rfl⟩ := Option.map_eq_some_iff.1 h
      refine hs.put fun es heq => ?_
      cases heq
      exact ih (hs.lookup hx) he

theorem Sorted.apart (hs : D.Sorted) : D.Apart := by
  induction D with
  | nil => trivial
  | file name f rest ih => exact ⟨fun hm => lt_irrefl _ (hs.1 name hm), ih hs.2⟩
  | dir name entries rest ihe ih =>
    exact ⟨fun hm => lt_irrefl _ (hs.1 name hm), ihe hs.2.1, ih hs.2.2⟩

/-! ## A walk meets what stands there -/

theorem not_hasFile_nil (D : DiskDir) {f : DiskFile} : ¬D.HasFile [] f := by
  induction D with
  | nil => exact id
  | file name g rest ih => simpa [HasFile] using ih
  | dir name entries rest _ ih => simpa [HasFile] using ih

theorem not_hasDir_nil (D : DiskDir) : ¬D.HasDir [] := by
  induction D with
  | nil => exact id
  | file name g rest ih => simpa [HasDir] using ih
  | dir name entries rest _ ih => simpa [HasDir] using ih

theorem head_mem_names_of_hasFile {f : DiskFile} (h : D.HasFile (x :: q) f) : x ∈ D.names := by
  induction D with
  | nil => exact h.elim
  | file name g rest ih =>
    rcases h with ⟨heq, -⟩ | h
    · exact (List.cons.inj heq).1 ▸ List.mem_cons_self
    · exact List.mem_cons_of_mem _ (ih h)
  | dir name entries rest _ ih =>
    rcases h with ⟨q', heq, -⟩ | h
    · exact (List.cons.inj heq).1 ▸ List.mem_cons_self
    · exact List.mem_cons_of_mem _ (ih h)

theorem head_mem_names_of_hasDir (h : D.HasDir (x :: q)) : x ∈ D.names := by
  induction D with
  | nil => exact h.elim
  | file name g rest ih => exact List.mem_cons_of_mem _ (ih h)
  | dir name entries rest _ ih =>
    rcases h with ⟨q', heq, -⟩ | h
    · exact (List.cons.inj heq).1 ▸ List.mem_cons_self
    · exact List.mem_cons_of_mem _ (ih h)

/-- With names apart the walk meets a file exactly where it stands. -/
theorem Apart.hasFile_iff (hs : D.Apart) {f : DiskFile} :
    D.HasFile q f ↔ D.look q = some (some f) := by
  cases q with
  | nil => exact iff_of_false (not_hasFile_nil D) (by simp [look])
  | cons x q =>
    induction D generalizing x q with
    | nil => exact iff_of_false id (by simp [look, DiskDir.lookup])
    | file name g rest ih =>
      rw [HasFile, look, DiskDir.lookup]
      by_cases hx : name = x
      · subst hx
        have hrest : ¬rest.HasFile (name :: q) f := fun h =>
          hs.1 (head_mem_names_of_hasFile h)
        cases q with
        | nil => simp [hrest, eq_comm]
        | cons y q => simp [hrest]
      · rw [if_neg hx, ih hs.2, look]
        simp [Ne.symm hx]
    | dir name entries rest ihe ih =>
      rw [HasFile, look, DiskDir.lookup]
      by_cases hx : name = x
      · subst hx
        have hrest : ¬rest.HasFile (name :: q) f := fun h =>
          hs.1 (head_mem_names_of_hasFile h)
        cases q with
        | nil => simp [hrest, not_hasFile_nil, look]
        | cons y q => simp [hrest, ihe hs.2.1]
      · rw [if_neg hx, ih hs.2.2, look]
        simp [Ne.symm hx]

theorem Apart.hasDir_iff (hs : D.Apart) : D.HasDir (x :: q) ↔ D.look (x :: q) = some none := by
  induction D generalizing x q with
  | nil => exact iff_of_false id (by simp [look, DiskDir.lookup])
  | file name g rest ih =>
    rw [HasDir, look, DiskDir.lookup]
    by_cases hx : name = x
    · subst hx
      have hrest : ¬rest.HasDir (name :: q) := fun h =>
        hs.1 (head_mem_names_of_hasDir h)
      cases q with
      | nil => simp [hrest]
      | cons y q => simp [hrest]
    · rw [if_neg hx, ih hs.2, look]
  | dir name entries rest ihe ih =>
    rw [HasDir, look, DiskDir.lookup]
    by_cases hx : name = x
    · subst hx
      have hrest : ¬rest.HasDir (name :: q) := fun h =>
        hs.1 (head_mem_names_of_hasDir h)
      cases q with
      | nil => simp [hrest, look]
      | cons y q => simp [hrest, ihe hs.2.1]
    · rw [if_neg hx, ih hs.2.2, look]
      simp [Ne.symm hx]

end DiskDir

end CeDrive
