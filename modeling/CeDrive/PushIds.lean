import CeDrive.PushSteps

/-!
# The ids of a push

`newIds` reads off the drive before a push which ids it mints : one for every file and every
directory of the disk whose path resolves to nothing, at the tick and the count that the saves and
the creations before it leave.
-/

namespace CeDrive

namespace Drive

variable {d d' : Drive} {store : ObjectStore} {D : DiskDir} {q x : List String} {f : DiskFile}
  {now : ℕ × ℕ}

/-- What the push of a file mints, and the clock and the counter after it. -/
def fileIds (d : Drive) (store : ObjectStore) (x : List String) (f : DiskFile) (now : ℕ × ℕ) :
    List (NodeId × NodeKind) × ℕ × ℕ :=
  if d.existingCid (pathBelow "/" x) = some (store.cidOf f.bytes) then ([], now)
  else if (d.tree.resolve (pathBelow "/" x)).isSome then ([], now.1 + 1, now.2)
  else ([((freshNodeId (now.1 + 1) now.2).1, .file)], now.1 + 2, (now.2 + 1) % 2 ^ 64)

def dirIds (d : Drive) (x : List String) (now : ℕ × ℕ) : List (NodeId × NodeKind) × ℕ × ℕ :=
  if (d.tree.resolve (pathBelow "/" x)).isSome then ([], now)
  else ([((freshNodeId (now.1 + 1) now.2).1, .dir)], now.1 + 1, (now.2 + 1) % 2 ^ 64)

/-- Of the entries of the directory at `q`. -/
def newIds (d : Drive) (store : ObjectStore) : DiskDir → List String → ℕ × ℕ →
    List (NodeId × NodeKind) × ℕ × ℕ
  | .nil, _, now => ([], now)
  | .file name f rest, q, now =>
    let here := d.fileIds store (q ++ [name]) f now
    let after := newIds d store rest q here.2
    (here.1 ++ after.1, after.2)
  | .dir name entries rest, q, now =>
    let here := d.dirIds (q ++ [name]) now
    let below := newIds d store entries (q ++ [name]) here.2
    let after := newIds d store rest q below.2
    (here.1 ++ (below.1 ++ after.1), after.2)

/-- The ids that a push would mint are not in use. -/
def HasSpareIds (d : Drive) (store : ObjectStore) (disk : DiskDir) (ctr : ℕ) : Prop :=
  d.AllSpare (d.newIds store disk [] (d.state.lamport, ctr)).1

theorem not_reserved_of_mem_fileIds {y : NodeId × NodeKind}
    (hy : y ∈ (d.fileIds store x f now).1) : ¬Reserved y.1 := by
  unfold fileIds at hy
  split_ifs at hy
  · cases hy
  · cases hy
  · rw [List.mem_singleton] at hy
    exact hy ▸ not_reserved_freshNodeId _ _

theorem not_reserved_of_mem_dirIds {y : NodeId × NodeKind} (hy : y ∈ (d.dirIds x now).1) :
    ¬Reserved y.1 := by
  unfold dirIds at hy
  split_ifs at hy
  · cases hy
  · rw [List.mem_singleton] at hy
    exact hy ▸ not_reserved_freshNodeId _ _

theorem not_reserved_of_mem_newIds {y : NodeId × NodeKind} (hy : y ∈ (d.newIds store D q now).1) :
    ¬Reserved y.1 := by
  induction D generalizing q now with
  | nil => cases hy
  | file name f rest ih =>
    rcases List.mem_append.1 hy with hy | hy
    · exact not_reserved_of_mem_fileIds hy
    · exact ih hy
  | dir name entries rest ihe ih =>
    rcases List.mem_append.1 hy with hy | hy
    · exact not_reserved_of_mem_dirIds hy
    · exact (List.mem_append.1 hy).elim ihe ih

/-- The ids depend on what the paths of the entries resolve to, and on the cids recorded there. -/
theorem newIds_congr
    (hfile : ∀ y f, D.HasFile y f →
      d'.tree.resolve (pathBelow "/" (q ++ y)) = d.tree.resolve (pathBelow "/" (q ++ y)) ∧
        d'.existingCid (pathBelow "/" (q ++ y)) = d.existingCid (pathBelow "/" (q ++ y)))
    (hdir : ∀ y, D.HasDir y →
      d'.tree.resolve (pathBelow "/" (q ++ y)) = d.tree.resolve (pathBelow "/" (q ++ y))) :
    d'.newIds store D q now = d.newIds store D q now := by
  induction D generalizing q now with
  | nil => rfl
  | file name f rest ih =>
    obtain ⟨hres, hcid⟩ := hfile [name] f (Or.inl ⟨rfl, rfl⟩)
    have hhere : d'.fileIds store (q ++ [name]) f now = d.fileIds store (q ++ [name]) f now := by
      rw [fileIds, fileIds, hres, hcid]
    rw [newIds, newIds, hhere, ih (fun y g hy => hfile y g (Or.inr hy)) hdir]
  | dir name entries rest ihe ih =>
    have hhere : d'.dirIds (q ++ [name]) now = d.dirIds (q ++ [name]) now := by
      rw [dirIds, dirIds, hdir [name] (Or.inl ⟨[], rfl, Or.inl rfl⟩)]
    rw [newIds, newIds, hhere,
      ihe (fun y g hy => by simpa using hfile (name :: y) g (Or.inl ⟨y, rfl, hy⟩))
        (fun y hy => by simpa using hdir (name :: y) (Or.inl ⟨y, rfl, Or.inr hy⟩)),
      ih (fun y g hy => hfile y g (Or.inr hy)) fun y hy => hdir y (Or.inr hy)]

/-- Nothing is minted for what resolves. -/
theorem newIds_eq_nil
    (hfile : ∀ y f, D.HasFile y f → (d.tree.resolve (pathBelow "/" (q ++ y))).isSome)
    (hdir : ∀ y, D.HasDir y → (d.tree.resolve (pathBelow "/" (q ++ y))).isSome) :
    (d.newIds store D q now).1 = [] := by
  induction D generalizing q now with
  | nil => rfl
  | file name f rest ih =>
    have hhere : (d.fileIds store (q ++ [name]) f now).1 = [] := by
      rw [fileIds, if_pos (hfile [name] f (Or.inl ⟨rfl, rfl⟩))]
      split_ifs <;> rfl
    rw [newIds, hhere, List.nil_append]
    exact ih (fun y g hy => hfile y g (Or.inr hy)) hdir
  | dir name entries rest ihe ih =>
    have hhere : (d.dirIds (q ++ [name]) now).1 = [] := by
      rw [dirIds, if_pos (hdir [name] (Or.inl ⟨[], rfl, Or.inl rfl⟩))]
    rw [newIds, hhere, List.nil_append]
    refine List.append_eq_nil_iff.2 ⟨ihe (fun y g hy => ?_) fun y hy => ?_,
      ih (fun y g hy => hfile y g (Or.inr hy)) fun y hy => hdir y (Or.inr hy)⟩
    · simpa using hfile (name :: y) g (Or.inl ⟨y, rfl, hy⟩)
    · simpa using hdir (name :: y) (Or.inl ⟨y, rfl, Or.inr hy⟩)

end Drive

end CeDrive
