import CeDrive.PushIds
import CeDrive.PushRuns

/-!
# The first part of a push

`pushDir` visits the entries of the disk one after the other, and each part of it is a `Pass` : the
drive stays ready, only the paths through the entries visited change, the ids minted are those of
`newIds`, and every file visited is listed afterwards, with the cid of its bytes exactly if its save
wins over what was recorded (`pass_pushDir`). A pass whose files are all current saves nothing.
-/

open Std (ExtTreeMap)

namespace CeDrive

namespace Drive

variable {d d' : Drive} {n : NodeId} {store : ObjectStore} {disk : DiskDir} {f : DiskFile}
  {content : FileContent} {x : List String}

/-! ## What a part of a push does -/

/-- The file at a path has the recorded cid of its bytes. -/
def Current (d : Drive) (store : ObjectStore) (x : List String) (f : DiskFile) : Prop :=
  ∃ n, d.tree.Walked x n ∧ d.recordedCid n = some (store.cidOf f.bytes)

/-- The save of a file wins over what is recorded at its path. -/
def Wins (d : Drive) (store : ObjectStore) (x : List String) (f : DiskFile) : Prop :=
  ∀ n c, d.tree.Walked x n → d.content[n]? = some c → c.cid = store.cidOf f.bytes ∨
    c.mtimeMs < f.mtimeMs ∨ c.mtimeMs = f.mtimeMs ∧ c.cid < store.cidOf f.bytes

/-- The file is listed, with the cid of its bytes exactly if its save wins. -/
def Settles (d d' : Drive) (store : ObjectStore) (x : List String) (f : DiskFile) : Prop :=
  ∃ n, d'.tree.Walked x n ∧ ¬d'.tree.IsDir n ∧
    (d'.recordedCid n = some (store.cidOf f.bytes) ↔ d.Wins store x f)

theorem recordedCid_wrote_iff : (d.wrote (setOp n content)).recordedCid n = some content.cid ↔
    ∀ c, d.content[n]? = some c → c.cid = content.cid ∨ c.mtimeMs < content.mtimeMs ∨
      c.mtimeMs = content.mtimeMs ∧ c.cid < content.cid := by
  rw [recordedCid, getElem?_content_wrote, if_pos rfl]
  cases d.content[n]? with
  | none => simp [ContentMap.applyRecord, setOp, FileContent.new]
  | some c =>
    simp only [ContentMap.applyRecord, setOp, Option.map_some, Option.some.injEq, forall_eq']
    exact FileContent.cid_record_eq_iff ..

/-- What is compared with the cid of the file at a path. -/
theorem existingCid_of_walked (hleg : d.tree.Legible) (hx : d.tree.Walked x n) :
    d.existingCid (pathBelow "/" x) = d.recordedCid n := by
  rw [existingCid, hleg.resolve_of_walked hx]
  rfl

theorem existingCid_eq_some {q : List String} {p : NodeId} {r : String} (store : ObjectStore)
    (f : DiskFile) (hleg : d.tree.Legible) (hq : d.tree.Walked q p) (hdir : d.tree.IsDir p)
    (hr : DriveTree.IsComponent r) :
    d.existingCid (pathBelow "/" (q ++ [r])) = some (store.cidOf f.bytes) ↔
      d.Current store (q ++ [r]) f := by
  rw [existingCid, Option.bind_eq_some_iff]
  refine exists_congr fun n => and_congr_left' ?_
  rw [hleg.resolve_child hq hdir hr]
  refine ⟨.child hq hdir, fun hn => ?_⟩
  obtain ⟨p', hp', -, hl⟩ := DriveTree.walked_append_singleton.1 hn
  exact hleg.walked_unique hp' hq ▸ hl

theorem SameAt.current (h : d.SameAt d' x) : d'.Current store x f ↔ d.Current store x f := by
  refine exists_congr fun n => ?_
  rw [h.walked]
  refine and_congr_right fun hn => ?_
  rw [recordedCid, recordedCid, h.record n hn]

theorem SameAt.wins (h : d.SameAt d' x) : d'.Wins store x f ↔ d.Wins store x f := by
  refine forall_congr' fun n => forall_congr' fun c => ?_
  rw [h.walked]
  exact imp_congr_right fun hn => by rw [h.record n hn]

theorem Settles.left {d₁ : Drive} (h : d₁.Settles d' store x f) (hs : d.SameAt d₁ x) :
    d.Settles d' store x f := by
  obtain ⟨n, hn, hfile, hcid⟩ := h
  exact ⟨n, hn, hfile, hcid.trans hs.wins⟩

theorem Settles.right {d₁ : Drive} (h : d.Settles d₁ store x f) (hs : d₁.SameAt d' x) :
    d.Settles d' store x f := by
  obtain ⟨n, hn, hfile, hcid⟩ := h
  refine ⟨n, (hs.walked n).2 hn, mt (hs.kind n hn).1 hfile, ?_⟩
  rw [recordedCid, hs.record n hn]
  exact hcid

section

variable (h : d.SameAt d' x) (hready : d.Ready store disk) (hready' : d'.Ready store disk)
  (hx : ∀ b ∈ x, DriveTree.IsComponent b) (hin : (∃ f, disk.HasFile x f) ∨ disk.HasDir x)
include h hready hready' hx hin

/-- On a path of the disk the same is found. -/
theorem SameAt.resolve_eq : d'.tree.resolve (pathBelow "/" x) = d.tree.resolve (pathBelow "/" x) := by
  have hbelow : ∀ z r, z ++ [r] <+: x → disk.Inhabited z := by
    rintro z r ⟨y, rfl⟩
    exact ⟨r, y, by simpa using hin⟩
  have hroot : DriveTree.components "/" = [] := by decide
  refine Option.ext fun n => ?_
  rw [DriveTree.resolve_eq, DriveTree.resolve_eq, components_pathBelow hx, hroot, List.nil_append]
  exact (hready'.resolveFrom_iff hbelow).trans ((h.walked n).trans (hready.resolveFrom_iff hbelow).symm)

theorem SameAt.existingCid_eq :
    d'.existingCid (pathBelow "/" x) = d.existingCid (pathBelow "/" x) := by
  have hbelow : ∀ z r, z ++ [r] <+: x → disk.Inhabited z := by
    rintro z r ⟨y, rfl⟩
    exact ⟨r, y, by simpa using hin⟩
  have hroot : DriveTree.components "/" = [] := by decide
  rw [existingCid, existingCid, h.resolve_eq hready hready' hx hin]
  refine Option.bind_congr fun n hn => ?_
  rw [DriveTree.resolve_eq, components_pathBelow hx, hroot, List.nil_append,
    hready.resolveFrom_iff hbelow] at hn
  rw [h.record n hn]

end

end Drive

/-- A part of a push that succeeds : it keeps the drive ready, mints the ids, changes what it touches
only, settles its files, and finds or makes its directories. If the files are all current it saves
nothing. -/
structure Pass (store : ObjectStore) (disk : DiskDir) (touched : List String → Prop)
    (files : List String → DiskFile → Prop) (dirs : List String → Prop)
    (minted : List (NodeId × NodeKind) × ℕ × ℕ) (s s' : PushState) : Prop where
  run : PushRun store disk s s'
  inv : s'.drive.Inv
  ready : s'.drive.Ready store disk
  tidy : s.drive.tree.Tidy → s'.drive.tree.Tidy
  clock : minted.2 = (s'.drive.state.lamport, s'.ctr)
  spare : ∀ id kind, s.drive.Spare id kind → ¬Reserved id → id ∉ minted.1.map Prod.fst →
    s'.drive.Spare id kind
  removed : s'.report.removed = s.report.removed
  same : ∀ x, ¬touched x → s.drive.SameAt s'.drive x
  grows : ∀ x n, s.drive.tree.Walked x n →
    s'.drive.tree.Walked x n ∧ (s'.drive.tree.IsDir n ↔ s.drive.tree.IsDir n)
  settles : ∀ x f, files x f → s.drive.Settles s'.drive store x f
  opens : ∀ x, dirs x → ∃ n, s'.drive.tree.Walked x n ∧
    ((∀ m, s.drive.tree.Walked x m → s.drive.tree.IsDir m) → s'.drive.tree.IsDir n)
  quiet : (∀ x f, files x f → s.drive.Current store x f) →
    s'.report.changed = s.report.changed ∧
      ∀ x n, s'.drive.tree.Walked x n → ¬s'.drive.tree.IsDir n → s.drive.tree.Walked x n

namespace Pass

variable {store : ObjectStore} {disk : DiskDir} {touched touched' : List String → Prop}
  {files files' : List String → DiskFile → Prop} {dirs dirs' : List String → Prop}
  {minted minted' : List (NodeId × NodeKind) × ℕ × ℕ} {s s₁ s' : PushState}

theorem refl (hinv : s.drive.Inv) (hready : s.drive.Ready store disk) :
    Pass store disk (fun _ => False) (fun _ _ => False) (fun _ => False)
      ([], s.drive.state.lamport, s.ctr) s s where
  run := .refl
  inv := hinv
  ready := hready
  tidy := id
  clock := rfl
  spare _ _ hs _ _ := hs
  removed := rfl
  same x _ := .refl _ x
  grows _ _ hn := ⟨hn, Iff.rfl⟩
  settles _ _ := False.elim
  opens _ := False.elim
  quiet _ := ⟨rfl, fun _ _ hn _ => hn⟩

theorem trans (h : Pass store disk touched files dirs minted s s₁)
    (h' : Pass store disk touched' files' dirs' minted' s₁ s')
    (hft : ∀ x f, files x f → ¬touched' x) (hft' : ∀ x f, files' x f → ¬touched x)
    (hdt' : ∀ x, dirs' x → ¬touched x) :
    Pass store disk (fun x => touched x ∨ touched' x) (fun x f => files x f ∨ files' x f)
      (fun x => dirs x ∨ dirs' x) (minted.1 ++ minted'.1, minted'.2) s s' where
  run := h.run.trans h'.run
  inv := h'.inv
  ready := h'.ready
  tidy := h'.tidy ∘ h.tidy
  clock := h'.clock
  spare id kind hs hid hmem := by
    rw [List.map_append, List.mem_append, not_or] at hmem
    exact h'.spare id kind (h.spare id kind hs hid hmem.1) hid hmem.2
  removed := h'.removed.trans h.removed
  same x hx := (h.same x fun ht => hx (Or.inl ht)).trans (h'.same x fun ht => hx (Or.inr ht))
  grows x n hn := by
    obtain ⟨hn₁, hk₁⟩ := h.grows x n hn
    obtain ⟨hn', hk'⟩ := h'.grows x n hn₁
    exact ⟨hn', hk'.trans hk₁⟩
  settles x f hf := by
    rcases hf with hf | hf
    · exact (h.settles x f hf).right (h'.same x (hft x f hf))
    · exact (h'.settles x f hf).left (h.same x (hft' x f hf))
  opens x hx := by
    rcases hx with hx | hx
    · obtain ⟨n, hn, hdir⟩ := h.opens x hx
      obtain ⟨hn', hk'⟩ := h'.grows x n hn
      exact ⟨n, hn', fun hall => hk'.2 (hdir hall)⟩
    · obtain ⟨n, hn, hdir⟩ := h'.opens x hx
      have hsame := h.same x (hdt' x hx)
      refine ⟨n, hn, fun hall => hdir fun m hm => ?_⟩
      have hm := (hsame.walked m).1 hm
      exact (hsame.kind m hm).2 (hall m hm)
  quiet hcur := by
    obtain ⟨hchanged, hlisted⟩ := h.quiet fun x f hf => hcur x f (Or.inl hf)
    obtain ⟨hchanged', hlisted'⟩ := h'.quiet fun x f hf =>
      (h.same x (hft' x f hf)).current.2 (hcur x f (Or.inr hf))
    refine ⟨hchanged'.trans hchanged, fun x n hn hfile => ?_⟩
    have hn₁ := hlisted' x n hn hfile
    exact hlisted x n hn₁ (mt (h'.grows x n hn₁).2.2 hfile)

/-- A part may be said to touch more. -/
theorem mono (h : Pass store disk touched files dirs minted s s')
    (ht : ∀ x, touched x → touched' x) (hf : ∀ x f, files' x f ↔ files x f)
    (hd : ∀ x, dirs' x → dirs x) : Pass store disk touched' files' dirs' minted s s' where
  run := h.run
  inv := h.inv
  ready := h.ready
  tidy := h.tidy
  clock := h.clock
  spare := h.spare
  removed := h.removed
  same x hx := h.same x (mt (ht x) hx)
  grows := h.grows
  settles x f hx := h.settles x f ((hf x f).1 hx)
  opens x hx := h.opens x (hd x hx)
  quiet hcur := h.quiet fun x f hx => hcur x f ((hf x f).2 hx)

end Pass

namespace DiskDir

/-- Every name is one component of a path. -/
def Plain : DiskDir → Prop
  | nil => True
  | file name _ rest => DriveTree.IsComponent name ∧ rest.Plain
  | dir name entries rest => DriveTree.IsComponent name ∧ entries.Plain ∧ rest.Plain

/-- A path through one of the entries of the directory at `q`. -/
def Through (D : DiskDir) (q x : List String) : Prop :=
  ∃ a ∈ D.names, q ++ [a] <+: x

/-- The path of a file of the directory at `q`. -/
def FileAt (D : DiskDir) (q x : List String) (f : DiskFile) : Prop :=
  ∃ y, x = q ++ y ∧ D.HasFile y f

/-- The path of a directory in the directory at `q`. -/
def DirAt (D : DiskDir) (q x : List String) : Prop :=
  ∃ y, x = q ++ y ∧ D.HasDir y

variable {D : DiskDir} {q x y : List String} {a : String} {f : DiskFile}

theorem through_append_cons : D.Through q (q ++ a :: y) ↔ a ∈ D.names := by
  simp [Through]

theorem exists_of_hasFile (h : D.HasFile y f) : ∃ a ∈ D.names, ∃ y', y = a :: y' := by
  cases y with
  | nil => exact absurd h (not_hasFile_nil D)
  | cons a y => exact ⟨a, head_mem_names_of_hasFile h, y, rfl⟩

theorem exists_of_hasDir (h : D.HasDir y) : ∃ a ∈ D.names, ∃ y', y = a :: y' := by
  cases y with
  | nil => exact absurd h (not_hasDir_nil D)
  | cons a y => exact ⟨a, head_mem_names_of_hasDir h, y, rfl⟩

theorem Plain.isComponent (h : D.Plain) (hy : D.HasFile y f) : ∀ b ∈ y, DriveTree.IsComponent b := by
  induction D generalizing y with
  | nil => exact hy.elim
  | file name g rest ih =>
    rcases hy with ⟨rfl, -⟩ | hy
    · intro b hb
      exact List.mem_singleton.1 hb ▸ h.1
    · exact ih h.2 hy
  | dir name entries rest ihe ih =>
    rcases hy with ⟨y, rfl, hy⟩ | hy
    · exact List.forall_mem_cons.2 ⟨h.1, ihe h.2.1 hy⟩
    · exact ih h.2.2 hy

theorem Plain.isComponent_of_hasDir (h : D.Plain) (hy : D.HasDir y) :
    ∀ b ∈ y, DriveTree.IsComponent b := by
  induction D generalizing y with
  | nil => exact hy.elim
  | file name g rest ih => exact ih h.2 hy
  | dir name entries rest ihe ih =>
    rcases hy with ⟨y, rfl, rfl | hy⟩ | hy
    · simpa using h.1
    · exact List.forall_mem_cons.2 ⟨h.1, ihe h.2.1 hy⟩
    · exact ih h.2.2 hy

end DiskDir

namespace Pass

variable {store : ObjectStore} {disk entries rest : DiskDir} {q : List String} {name : String}
  {f : DiskFile} {minted minted' minted'' : List (NodeId × NodeKind) × ℕ × ℕ}
  {s s₁ s₂ s' : PushState}

/-- A file, and then the entries after it. -/
theorem cons_file (hname : name ∉ rest.names)
    (h : Pass store disk (fun x => x = q ++ [name]) (fun x g => x = q ++ [name] ∧ g = f)
      (fun _ => False) minted s s₁)
    (h' : Pass store disk (rest.Through q) (rest.FileAt q) (rest.DirAt q) minted' s₁ s') :
    Pass store disk ((DiskDir.file name f rest).Through q) ((DiskDir.file name f rest).FileAt q)
      ((DiskDir.file name f rest).DirAt q) (minted.1 ++ minted'.1, minted'.2) s s' := by
  refine (h.trans h' ?_ ?_ ?_).mono ?_ ?_ fun x => Or.inr
  · rintro x g ⟨rfl, -⟩ hx
    exact hname (DiskDir.through_append_cons.1 hx)
  · rintro x g ⟨y, rfl, hy⟩ hx
    obtain ⟨a, ha, y, rfl⟩ := DiskDir.exists_of_hasFile hy
    obtain ⟨rfl, -⟩ := List.cons.inj (List.append_cancel_left hx)
    exact hname ha
  · rintro x ⟨y, rfl, hy⟩ hx
    obtain ⟨a, ha, y, rfl⟩ := DiskDir.exists_of_hasDir hy
    obtain ⟨rfl, -⟩ := List.cons.inj (List.append_cancel_left hx)
    exact hname ha
  · rintro x (rfl | ⟨a, ha, hx⟩)
    · exact DiskDir.through_append_cons.2 List.mem_cons_self
    · exact ⟨a, List.mem_cons_of_mem _ ha, hx⟩
  · intro x g
    constructor
    · rintro ⟨y, rfl, ⟨rfl, rfl⟩ | hy⟩
      · exact Or.inl ⟨rfl, rfl⟩
      · exact Or.inr ⟨y, rfl, hy⟩
    · rintro (⟨rfl, rfl⟩ | ⟨y, rfl, hy⟩)
      · exact ⟨[name], rfl, Or.inl ⟨rfl, rfl⟩⟩
      · exact ⟨y, rfl, Or.inr hy⟩

/-- A directory, its entries, and then the entries after it. -/
theorem cons_dir (hname : name ∉ rest.names)
    (h : Pass store disk (fun x => x = q ++ [name]) (fun _ _ => False) (fun x => x = q ++ [name])
      minted s s₁)
    (h' : Pass store disk (entries.Through (q ++ [name])) (entries.FileAt (q ++ [name]))
      (entries.DirAt (q ++ [name])) minted' s₁ s₂)
    (h'' : Pass store disk (rest.Through q) (rest.FileAt q) (rest.DirAt q) minted'' s₂ s') :
    Pass store disk ((DiskDir.dir name entries rest).Through q)
      ((DiskDir.dir name entries rest).FileAt q) ((DiskDir.dir name entries rest).DirAt q)
      (minted.1 ++ (minted'.1 ++ minted''.1), minted''.2) s s' := by
  rw [← List.append_assoc]
  -- neither the directory nor its entries are on the way to the entries after it
  have hout : ∀ a ∈ rest.names, ∀ y,
      ¬(q ++ a :: y = q ++ [name] ∨ entries.Through (q ++ [name]) (q ++ a :: y)) := by
    intro a ha y hx
    have hne : name ≠ a := (ne_of_mem_of_not_mem ha hname).symm
    rcases hx with hx | ⟨b, -, hx⟩
    · exact hne (List.cons.inj (List.append_cancel_left hx)).1.symm
    · rw [List.append_assoc, List.prefix_append_right_inj] at hx
      exact hne (List.cons_prefix_cons.1 hx).1
  refine ((h.trans h' ?_ ?_ ?_).trans h'' ?_ ?_ ?_).mono ?_ ?_ ?_
  · exact fun x g => False.elim
  · rintro x g ⟨y, rfl, hy⟩ hx
    obtain ⟨a, -, y, rfl⟩ := DiskDir.exists_of_hasFile hy
    simp at hx
  · rintro x ⟨y, rfl, hy⟩ hx
    obtain ⟨a, -, y, rfl⟩ := DiskDir.exists_of_hasDir hy
    simp at hx
  · rintro x g (hno | ⟨y, rfl, hy⟩) hx
    · exact hno
    · rw [List.append_assoc] at hx
      exact hname (DiskDir.through_append_cons.1 hx)
  · rintro x g ⟨y, rfl, hy⟩ hx
    obtain ⟨a, ha, y, rfl⟩ := DiskDir.exists_of_hasFile hy
    exact hout a ha y hx
  · rintro x ⟨y, rfl, hy⟩ hx
    obtain ⟨a, ha, y, rfl⟩ := DiskDir.exists_of_hasDir hy
    exact hout a ha y hx
  · rintro x ((rfl | ⟨a, -, hx⟩) | ⟨a, ha, hx⟩)
    · exact DiskDir.through_append_cons.2 List.mem_cons_self
    · exact ⟨name, List.mem_cons_self, (List.prefix_append ..).trans hx⟩
    · exact ⟨a, List.mem_cons_of_mem _ ha, hx⟩
  · intro x g
    constructor
    · rintro ⟨y, rfl, ⟨y, rfl, hy⟩ | hy⟩
      · exact Or.inl (Or.inr ⟨y, by simp, hy⟩)
      · exact Or.inr ⟨y, rfl, hy⟩
    · rintro ((hno | ⟨y, rfl, hy⟩) | ⟨y, rfl, hy⟩)
      · exact hno.elim
      · exact ⟨name :: y, by simp, Or.inl ⟨y, rfl, hy⟩⟩
      · exact ⟨y, rfl, Or.inr hy⟩
  · rintro x ⟨y, rfl, ⟨y, rfl, rfl | hy⟩ | hy⟩
    · exact Or.inl (Or.inl rfl)
    · exact Or.inl (Or.inr ⟨y, by simp, hy⟩)
    · exact Or.inr ⟨y, rfl, hy⟩

end Pass

namespace PushStep

open Drive

variable {store : ObjectStore} {disk D : DiskDir} {s s' : PushState} {q : List String} {p : NodeId}
  {r : String} {f : DiskFile} {content : FileContent}

theorem ensureDirPath_eq (hleg : s.drive.tree.Legible) (hq : s.drive.tree.Walked q p) :
    ensureDirPath (pathBelow "/" q) s = some (.ok (), s) := by
  rw [ensureDirPath, if_pos (Or.inr ?_)]
  rw [hleg.resolve_of_walked hq]
  rfl

/-- The directory that `add_file` and `mkdir` go to. -/
theorem resolveDir_eq {p' : NodeId} (hleg : s.drive.tree.Legible) (hq : s.drive.tree.Walked q p)
    (h : s.drive.resolveDir (pathBelow "/" q) = .ok p') : p' = p ∧ s.drive.tree.IsDir p := by
  obtain ⟨hres, hdir⟩ := resolveDir_eq_ok h
  rw [hleg.resolve_of_walked hq] at hres
  obtain rfl := Option.some_injective _ hres
  exact ⟨rfl, hdir⟩

/-- No entries are pushed below a file that lists nothing. -/
theorem pushDir_ne_ok (hleg : s.drive.tree.Legible) (hq : s.drive.tree.Walked q p)
    (hfile : ¬s.drive.tree.IsDir p) (hnone : ∀ r m, ¬s.drive.tree.Lists p r m) (hplain : D.Plain)
    (hne : D ≠ .nil) : pushDir store D (pathBelow "/" q) s ≠ some (.ok (), s') := by
  have hresolve : ∀ r, DriveTree.IsComponent r →
      s.drive.tree.resolve (joinPath (pathBelow "/" q) r) = none := by
    intro r hr
    have hpath : joinPath (pathBelow "/" q) r = pathBelow "/" (q ++ [r]) := by simp
    have hroot : DriveTree.components "/" = [] := by decide
    have hcomps : ∀ b ∈ q ++ [r], DriveTree.IsComponent b := fun b hb =>
      (List.mem_append.1 hb).elim (hleg.isComponent hq b) fun hb => List.mem_singleton.1 hb ▸ hr
    rw [hpath, DriveTree.resolve_eq, components_pathBelow hcomps, hroot, List.nil_append,
      DriveTree.resolveFrom_append, hleg.resolveFrom_of_walked hq, Option.bind_some,
      DriveTree.resolveFrom_singleton, Option.eq_none_iff_forall_ne_some]
    exact fun m hm => hnone r m (DriveTree.lists_of_lookupChild hm)
  intro h
  cases D with
  | nil => exact hne rfl
  | file name f rest =>
    obtain ⟨s₁, h, -⟩ := andThen_eq_ok.1 h
    unfold pushFile at h
    dsimp only at h
    split at h
    · cases h
    · rename_i put hput
      rw [existingCid, hresolve name hplain.1, Option.bind_none, if_neg (by simp)] at h
      obtain ⟨s₂, hs₂, h⟩ := andThen_eq_ok.1 h
      obtain ⟨-, rfl⟩ := Prod.mk.inj (Option.some_injective _
        ((ensureDirPath_eq (s := { s with uploads := s.uploads ++ [f.bytes] }) hleg hq).symm.trans hs₂))
      obtain ⟨s₃, hs₃, -⟩ := andThen_eq_ok.1 h
      obtain ⟨res, hres, heq⟩ := Option.map_eq_some_iff.1 (orError_eq_ok.1 hs₃)
      obtain ⟨e, -, rfl⟩ | ⟨p', m, hcheck, rfl⟩ | ⟨p', hcheck, rfl⟩ := Drive.addFile_eq_some hres
      · cases (Prod.mk.inj heq).1
      · exact hfile (resolveDir_eq hleg hq (addFileCheck_eq_ok.1 hcheck).2.1).2
      · exact hfile (resolveDir_eq hleg hq (addFileCheck_eq_ok.1 hcheck).2.1).2
  | dir name entries rest =>
    obtain ⟨s₂, h, -⟩ := andThen_eq_ok.1 h
    obtain ⟨s₁, h, -⟩ := andThen_eq_ok.1 h
    rw [ensureDir, if_pos (hresolve name hplain.1)] at h
    obtain ⟨s₃, hs₃, h⟩ := andThen_eq_ok.1 h
    obtain ⟨-, rfl⟩ := Prod.mk.inj (Option.some_injective _ ((ensureDirPath_eq hleg hq).symm.trans hs₃))
    obtain ⟨res, hmk, heq⟩ := Option.map_eq_some_iff.1 h
    obtain ⟨e, -, rfl⟩ | ⟨p', hcheck, rfl⟩ := Drive.mkdir_eq_some hmk
    · cases (Prod.mk.inj heq).1
    · exact hfile (resolveDir_eq hleg hq (mkdirCheck_eq_ok.1 hcheck).2.1).2

/-- A save of the file that is listed at the path. -/
theorem pass_edit {m : NodeId} (h : At store disk s q p r) (hc : Saves store f content)
    (hf : disk.HasFile (q ++ [r]) f) (hl : s.drive.tree.Lists p r m)
    (hchild : s.drive.childNamed p r = some m) (hfile : ¬s.drive.tree.IsDir m)
    (hnot : ¬s.drive.Current store (q ++ [r]) f) (uploads : List (List UInt8)) (chunks : ℕ) :
    Pass store disk (fun x => x = q ++ [r]) (fun x g => x = q ++ [r] ∧ g = f) (fun _ => False)
      ([], s.drive.state.lamport + 1, s.ctr) s
      ⟨s.drive.wrote (setOp m content), s.ctr,
        ⟨s.report.changed + 1, s.report.removed, chunks⟩, uploads⟩ := by
  have hm := DriveTree.Walked.child h.walked h.dir hl
  refine ⟨.single (.edit h hf hl hc uploads chunks), h.inv.wrote _,
    h.ready.wrote h.inv hl hchild hfile content, id, rfl, fun id kind hs _ _ => ?_, rfl,
    fun x hx => sameAt_wrote h.inv h.walked h.dir hl content hx, fun x n hn => ⟨hn, Iff.rfl⟩, ?_,
    fun _ => False.elim, fun hcur => absurd (hcur _ _ ⟨rfl, rfl⟩) hnot⟩
  · have hne : m ≠ id := by
      rintro rfl
      obtain ⟨e, he, -⟩ := h.inv.replayed.edge_of_lists hl
      exact absurd (hs.unused.edge.symm.trans he) (by simp)
    refine ⟨hs.unused, fun hk => ?_⟩
    rw [getElem?_content_wrote, if_neg hne]
    exact hs.empty hk
  · rintro x g ⟨rfl, rfl⟩
    refine ⟨m, hm, hfile, ?_⟩
    rw [← hc.cid, recordedCid_wrote_iff, hc.cid, hc.mtime]
    constructor
    · intro hall n c hn
      obtain rfl := h.ready.legible.walked_unique hn hm
      exact hall c
    · exact fun hwins c => hwins m c hm

/-- A new file, where nothing is listed. -/
theorem pass_create (h : Vacant store disk s q p r .file) (hc : Saves store f content)
    (hf : disk.HasFile (q ++ [r]) f) (hnot : ¬s.drive.Current store (q ++ [r]) f)
    (uploads : List (List UInt8)) (chunks : ℕ) :
    Pass store disk (fun x => x = q ++ [r]) (fun x g => x = q ++ [r] ∧ g = f) (fun _ => False)
      ([(s.drive.nextId s.ctr, .file)], s.drive.state.lamport + 2, (s.ctr + 1) % 2 ^ 64) s
      ⟨(s.drive.moved (s.drive.nextId s.ctr) p r .file).wrote
        (setOp (s.drive.nextId s.ctr) content), (s.ctr + 1) % 2 ^ 64,
        ⟨s.report.changed + 1, s.report.removed, chunks⟩, uploads⟩ := by
  have hg := h.grafted
  have hm := h.ready_moved (iff_of_true rfl ⟨f, hf⟩)
  have hinv₁ : (s.drive.moved (s.drive.nextId s.ctr) p r .file).Inv := h.inv.moved ..
  have hq₁ := (hg.walked _ _).2 (Or.inl h.walked)
  have hdir₁ := (h.isDir_iff h.walked).2 h.dir
  have hl₁ := (hg.lists _ _ _).2 (Or.inr ⟨rfl, rfl, rfl⟩)
  have hfile₁ := mt h.isDir_self.1 NodeKind.noConfusion
  refine ⟨.single (.create h hf hc uploads chunks), hinv₁.wrote _,
    hm.wrote hinv₁ hl₁ h.childNamed_self hfile₁ content, h.tidy_moved, rfl,
    fun id kind hs hid hmem => ?_, rfl, fun x hx =>
      (h.sameAt hx).trans (sameAt_wrote hinv₁ hq₁ hdir₁ hl₁ content hx),
    fun x n hn => ⟨(hg.walked _ _).2 (Or.inl hn), h.isDir_iff hn⟩, ?_, fun _ => False.elim,
    fun hcur => absurd (hcur _ _ ⟨rfl, rfl⟩) hnot⟩
  · have hne : id ≠ s.drive.nextId s.ctr := fun heq => hmem (by simp [heq])
    have hs₁ := h.spare_moved hs hid hne
    refine ⟨hs₁.unused, fun hk => ?_⟩
    rw [getElem?_content_wrote, if_neg hne.symm]
    exact hs₁.empty hk
  · rintro x g ⟨rfl, rfl⟩
    refine ⟨s.drive.nextId s.ctr, .child hq₁ hdir₁ hl₁, hfile₁, iff_of_true ?_ fun n c hn _ => ?_⟩
    · rw [← hc.cid, recordedCid_wrote_iff]
      intro c hold
      have hempty : s.drive.content[s.drive.nextId s.ctr]? = none := h.spare.empty rfl
      exact absurd (hempty.symm.trans hold) (by simp)
    · obtain ⟨p₁, hp₁, -, hn⟩ := DriveTree.walked_append_singleton.1 hn
      obtain rfl := h.ready.legible.walked_unique hp₁ h.walked
      exact absurd hn (h.name n)

theorem pass_pushFile (hat : At store disk s q p r) (hf : disk.HasFile (q ++ [r]) f)
    (hspare : s.drive.AllSpare
      (s.drive.fileIds store (q ++ [r]) f (s.drive.state.lamport, s.ctr)).1)
    (h : pushFile store (pathBelow "/" q) r f s = some (.ok (), s')) :
    Pass store disk (fun x => x = q ++ [r]) (fun x g => x = q ++ [r] ∧ g = f) (fun _ => False)
      (s.drive.fileIds store (q ++ [r]) f (s.drive.state.lamport, s.ctr)) s s' := by
  obtain ⟨hready, hinv, hq, hdir, hr⟩ := hat
  have hleg := hready.legible
  have hpt := DriveTree.ne_trash_of_walked hinv.replayed hq
  have hpath : joinPath (pathBelow "/" q) r = pathBelow "/" (q ++ [r]) := by simp
  have hexisting := existingCid_eq_some store f hleg hq hdir hr
  have hresolve : ∀ n, s.drive.tree.resolve (pathBelow "/" (q ++ [r])) = some n ↔
      s.drive.tree.Lists p r n := fun _ => hleg.resolve_child hq hdir hr
  unfold pushFile at h
  dsimp only at h
  split at h
  · cases h
  rename_i put hput
  have hcontent := store.content_eq hput
  have hsaves : Saves store f put.content := ⟨by rw [hcontent]; rfl, by rw [hcontent]; rfl⟩
  rw [hpath, hsaves.cid] at h
  unfold fileIds at hspare ⊢
  split_ifs at h with heq
  · -- the recorded cid is that of the bytes
    obtain ⟨-, rfl⟩ := Prod.mk.inj (Option.some_injective _ h)
    rw [if_pos heq]
    refine ⟨.single (.keep s _), hinv, hready, id, rfl, fun _ _ hs _ _ => hs, rfl,
      fun x _ => .refl _ x, fun x n hn => ⟨hn, Iff.rfl⟩, ?_, fun _ => False.elim,
      fun _ => ⟨rfl, fun _ _ hn _ => hn⟩⟩
    rintro x g ⟨rfl, rfl⟩
    obtain ⟨n, hn, hrecord⟩ := hexisting.1 heq
    refine ⟨n, hn, hready.file hf hn hrecord, iff_of_true hrecord fun m c hm hc => Or.inl ?_⟩
    obtain rfl := hleg.walked_unique hm hn
    rw [recordedCid, hc] at hrecord
    exact Option.some_injective _ hrecord
  · have hcur := mt hexisting.2 heq
    -- what is listed under the name is what `child_named` finds
    have hsave : ∀ n, s.drive.tree.Lists p r n → s.drive.childNamed p r = some n := fun n hn =>
      (hready.save hf hq hdir hn).resolve_left fun hc => hcur ⟨n, .child hq hdir hn, hc⟩
    obtain ⟨s₁, hs₁, h⟩ := andThen_eq_ok.1 h
    obtain ⟨-, rfl⟩ := Prod.mk.inj (Option.some_injective _
      ((ensureDirPath_eq (s := { s with uploads := s.uploads ++ [f.bytes] }) hleg hq).symm.trans hs₁))
    obtain ⟨s₂, hs₂, h⟩ := andThen_eq_ok.1 h
    obtain ⟨-, rfl⟩ := Prod.mk.inj (Option.some_injective _ h)
    obtain ⟨res, hres, heq'⟩ := Option.map_eq_some_iff.1 (orError_eq_ok.1 hs₂)
    obtain ⟨hok, rfl⟩ := Prod.mk.inj heq'
    rw [if_neg heq] at hspare ⊢
    obtain ⟨e, -, rfl⟩ | ⟨p', m, hcheck, rfl⟩ | ⟨p', hcheck, rfl⟩ := Drive.addFile_eq_some hres
    · cases hok
    · obtain ⟨-, hdir', hc, hkind⟩ := addFileCheck_eq_ok.1 hcheck
      obtain ⟨rfl, -⟩ := resolveDir_eq (s := s) hleg hq hdir'
      obtain ⟨w, -, hw⟩ := hinv.replayed.exists_lists ((childNamed_eq_some_iff hpt).1 hc).1
      obtain rfl := Option.some_injective _ ((hsave w hw).symm.trans hc)
      have hfile : ¬s.drive.tree.IsDir w := by
        rintro (hroot | hd)
        · exact DriveTree.ne_root_of_walked hinv.replayed hq hw hroot
        · cases hd.symm.trans (hkind w rfl)
      rw [if_pos (by rw [(hresolve w).2 hw]; rfl)]
      exact pass_edit ⟨hready, hinv, hq, hdir, hr⟩ hsaves hf hw hc hfile hcur _ _
    · obtain ⟨-, hdir', hc, -⟩ := addFileCheck_eq_ok.1 hcheck
      obtain ⟨rfl, -⟩ := resolveDir_eq (s := s) hleg hq hdir'
      have hname : ∀ n, ¬s.drive.tree.Lists p' r n := fun n hn =>
        absurd ((hsave n hn).symm.trans hc) (by simp)
      have hnone : ¬(s.drive.tree.resolve (pathBelow "/" (q ++ [r]))).isSome := fun hsome => by
        obtain ⟨n, hn⟩ := Option.isSome_iff_exists.1 hsome
        exact hname n ((hresolve n).1 hn)
      rw [if_neg hnone] at hspare ⊢
      have hlive := hready.live fun heq => by
        rw [heq] at hf
        exact hf
      exact pass_create ⟨⟨hready, hinv, hq, hdir, hr⟩, hlive, hname,
        hspare.2 _ List.mem_cons_self⟩ hsaves hf hcur _ _

theorem pass_ensureDir (hat : At store disk s q p r) (hd : disk.HasDir (q ++ [r]))
    (hf : ∀ f, ¬disk.HasFile (q ++ [r]) f)
    (hspare : s.drive.AllSpare (s.drive.dirIds (q ++ [r]) (s.drive.state.lamport, s.ctr)).1)
    (h : ensureDir (pathBelow "/" q) r s = some (.ok (), s')) :
    Pass store disk (fun x => x = q ++ [r]) (fun _ _ => False) (fun x => x = q ++ [r])
      (s.drive.dirIds (q ++ [r]) (s.drive.state.lamport, s.ctr)) s s' := by
  obtain ⟨hready, hinv, hq, hdir, hr⟩ := hat
  have hleg := hready.legible
  have hpath : joinPath (pathBelow "/" q) r = pathBelow "/" (q ++ [r]) := by simp
  have hresolve : ∀ n, s.drive.tree.resolve (pathBelow "/" (q ++ [r])) = some n ↔
      s.drive.tree.Lists p r n := fun _ => hleg.resolve_child hq hdir hr
  unfold ensureDir at h
  unfold dirIds at hspare ⊢
  rw [hpath] at h
  split_ifs at h with hres
  · obtain ⟨s₁, hs₁, h⟩ := andThen_eq_ok.1 h
    obtain ⟨-, rfl⟩ := Prod.mk.inj (Option.some_injective _ ((ensureDirPath_eq hleg hq).symm.trans hs₁))
    obtain ⟨res, hmk, heq⟩ := Option.map_eq_some_iff.1 h
    obtain ⟨hok, rfl⟩ := Prod.mk.inj heq
    obtain ⟨e, -, rfl⟩ | ⟨p', hcheck, rfl⟩ := Drive.mkdir_eq_some hmk
    · cases hok
    obtain ⟨-, hdir', -⟩ := mkdirCheck_eq_ok.1 hcheck
    obtain ⟨rfl, -⟩ := resolveDir_eq hleg hq hdir'
    have hname : ∀ n, ¬s.drive.tree.Lists p' r n := fun n hn =>
      absurd (hres.symm.trans ((hresolve n).2 hn)) (by simp)
    have hnone : ¬(s.drive.tree.resolve (pathBelow "/" (q ++ [r]))).isSome := by
      rw [hres]
      exact Bool.false_ne_true
    rw [if_neg hnone] at hspare ⊢
    have hlive := hready.live fun heq => by
      rw [heq] at hd
      exact hd
    have hv : Vacant store disk s q p' r .dir := ⟨⟨hready, hinv, hq, hdir, hr⟩, hlive, hname,
      hspare.2 _ List.mem_cons_self⟩
    have hg := hv.grafted
    have hnew := hv.isDir_self.2 rfl
    have hnofile : NodeKind.dir = .file ↔ ∃ f, disk.HasFile (q ++ [r]) f :=
      iff_of_false NodeKind.noConfusion (not_exists.2 hf)
    refine ⟨.single (.mkdir hv hd), hinv.moved .., hv.ready_moved hnofile, hv.tidy_moved, rfl,
      fun id kind hs hid hmem => hv.spare_moved hs hid fun heq => hmem (heq ▸ List.mem_cons_self),
      rfl, fun x hx => hv.sameAt hx,
      fun x n hn => ⟨(hg.walked _ _).2 (Or.inl hn), hv.isDir_iff hn⟩, fun _ _ => False.elim, ?_,
      fun _ => ⟨rfl, fun x n hn hfile => ?_⟩⟩
    · rintro x rfl
      exact ⟨_, (hg.walked _ _).2 (Or.inr ⟨rfl, rfl⟩), fun _ => hnew⟩
    · rcases (hg.walked _ _).1 hn with hn | ⟨-, rfl⟩
      · exact hn
      · exact absurd hnew hfile
  · obtain ⟨-, rfl⟩ := Prod.mk.inj (Option.some_injective _ h)
    obtain ⟨c, hc⟩ := Option.ne_none_iff_exists'.1 hres
    rw [if_pos (by rw [hc]; rfl)]
    have hcw : s.drive.tree.Walked (q ++ [r]) c := .child hq hdir ((hresolve c).1 hc)
    refine ⟨.refl, hinv, hready, id, rfl, fun _ _ hs _ _ => hs, rfl, fun x _ => .refl _ x,
      fun x n hn => ⟨hn, Iff.rfl⟩, fun _ _ => False.elim, ?_, fun _ => ⟨rfl, fun _ _ hn _ => hn⟩⟩
    rintro x rfl
    exact ⟨c, hcw, fun hall => hall c hcw⟩

theorem not_hasFile_of_hasDir (hs : disk.Apart) {y : List String} (hy : disk.HasDir y)
    (f : DiskFile) : ¬disk.HasFile y f := by
  cases y with
  | nil => exact absurd hy (DiskDir.not_hasDir_nil disk)
  | cons a y =>
    rw [hs.hasFile_iff, hs.hasDir_iff.1 hy]
    simp

/-- The entries of a directory, one after the other. -/
theorem pass_pushDir (hdisk : disk.Apart) (hs : D.Apart) (hplain : D.Plain)
    (hfiles : ∀ y f, D.HasFile y f → disk.HasFile (q ++ y) f)
    (hdirs : ∀ y, D.HasDir y → disk.HasDir (q ++ y)) (hready : s.drive.Ready store disk)
    (hinv : s.drive.Inv) (hq : s.drive.tree.Walked q p) (hdir : D ≠ .nil → s.drive.tree.IsDir p)
    (hspare : s.drive.AllSpare (s.drive.newIds store D q (s.drive.state.lamport, s.ctr)).1)
    (h : pushDir store D (pathBelow "/" q) s = some (.ok (), s')) :
    Pass store disk (D.Through q) (D.FileAt q) (D.DirAt q)
      (s.drive.newIds store D q (s.drive.state.lamport, s.ctr)) s s' := by
  -- what is found below the entries to come is as it was
  have hcongr : ∀ {touched files dirs minted} {s s₁ : PushState} {E : DiskDir} {q : List String},
      ∀ now, s.drive.Ready store disk → Pass store disk touched files dirs minted s s₁ → E.Plain →
      (∀ b ∈ q, DriveTree.IsComponent b) → (∀ y f, E.HasFile y f → disk.HasFile (q ++ y) f) →
      (∀ y, E.HasDir y → disk.HasDir (q ++ y)) → (∀ a ∈ E.names, ∀ y, ¬touched (q ++ a :: y)) →
      s₁.drive.newIds store E q now = s.drive.newIds store E q now := by
    intro touched files dirs minted s s₁ E q now hready hpass hE hq hf hd hout
    refine newIds_congr (fun y f hy => ?_) fun y hy => ?_
    · obtain ⟨a, ha, y, rfl⟩ := DiskDir.exists_of_hasFile hy
      have hsame := hpass.same _ (hout a ha y)
      have hcomps : ∀ b ∈ q ++ a :: y, DriveTree.IsComponent b := fun b hb =>
        (List.mem_append.1 hb).elim (hq b) (hE.isComponent hy b)
      have hin : (∃ f, disk.HasFile (q ++ a :: y) f) ∨ disk.HasDir (q ++ a :: y) :=
        Or.inl ⟨f, hf _ f hy⟩
      exact ⟨hsame.resolve_eq hready hpass.ready hcomps hin,
        hsame.existingCid_eq hready hpass.ready hcomps hin⟩
    · obtain ⟨a, ha, y, rfl⟩ := DiskDir.exists_of_hasDir hy
      exact (hpass.same _ (hout a ha y)).resolve_eq hready hpass.ready
        (fun b hb => (List.mem_append.1 hb).elim (hq b) (hE.isComponent_of_hasDir hy b))
        (Or.inr (hd _ hy))
  induction D generalizing q p s s' with
  | nil =>
    obtain ⟨-, rfl⟩ := Prod.mk.inj (Option.some_injective _ h)
    exact (Pass.refl hinv hready).mono (fun _ => False.elim)
      (fun x f => iff_of_false (fun ⟨_, _, hf⟩ => hf) id) fun _ ⟨_, _, hd⟩ => hd
  | file name f rest ih =>
    obtain ⟨hnot, hrest⟩ := hs
    obtain ⟨hname, hplain⟩ := hplain
    have hdir := hdir (by simp)
    have hcomps := hready.legible.isComponent hq
    rw [newIds] at hspare ⊢
    obtain ⟨s₁, h₁, h₂⟩ := andThen_eq_ok.1 h
    have hp₁ := pass_pushFile ⟨hready, hinv, hq, hdir, hname⟩
      (hfiles [name] f (Or.inl ⟨rfl, rfl⟩)) hspare.left h₁
    have hf₂ := fun y g hy => hfiles y g (Or.inr hy)
    have hids := hcongr (s₁.drive.state.lamport, s₁.ctr) hready hp₁ hplain hcomps hf₂ hdirs
      fun a ha y heq => ne_of_mem_of_not_mem ha hnot (List.cons.inj (List.append_cancel_left heq)).1
    obtain ⟨hq₁, hd₁⟩ := hp₁.grows q p hq
    rw [hp₁.clock] at hspare ⊢
    have hp₂ := ih hrest hplain hf₂ hdirs hp₁.ready hp₁.inv hq₁ (fun _ => hd₁.2 hdir)
      (by
        rw [hids]
        exact hspare.right hp₁.spare fun x hx => not_reserved_of_mem_newIds hx) h₂
    rw [hids] at hp₂
    exact hp₁.cons_file hnot hp₂
  | dir name entries rest ihe ih =>
    obtain ⟨hnot, hentries, hrest⟩ := hs
    obtain ⟨hname, hpe, hpr⟩ := hplain
    have hdir := hdir (by simp)
    have hcomps := hready.legible.isComponent hq
    have hcomps' : ∀ b ∈ q ++ [name], DriveTree.IsComponent b := fun b hb =>
      (List.mem_append.1 hb).elim (hcomps b) fun hb => List.mem_singleton.1 hb ▸ hname
    have hself := hdirs [name] (Or.inl ⟨[], rfl, Or.inl rfl⟩)
    rw [newIds] at hspare ⊢
    obtain ⟨s₂, h₂, h₃⟩ := andThen_eq_ok.1 h
    obtain ⟨s₁, h₁, h₂⟩ := andThen_eq_ok.1 h₂
    have hp₁ := pass_ensureDir ⟨hready, hinv, hq, hdir, hname⟩ hself
      (not_hasFile_of_hasDir hdisk hself) hspare.left h₁
    obtain ⟨c, hc, -⟩ := hp₁.opens _ rfl
    have hspare₁ := hspare.right hp₁.spare fun x hx =>
      (List.mem_append.1 hx).elim not_reserved_of_mem_newIds not_reserved_of_mem_newIds
    -- the entries are pushed to the path of the directory
    have hpath : joinPath (pathBelow "/" q) name = pathBelow "/" (q ++ [name]) := by simp
    rw [hpath] at h₂
    have hfe : ∀ y g, entries.HasFile y g → disk.HasFile (q ++ [name] ++ y) g := fun y g hy => by
      simpa using hfiles (name :: y) g (Or.inl ⟨y, rfl, hy⟩)
    have hde : ∀ y, entries.HasDir y → disk.HasDir (q ++ [name] ++ y) := fun y hy => by
      simpa using hdirs (name :: y) (Or.inl ⟨y, rfl, Or.inr hy⟩)
    have hcdir : entries ≠ .nil → s₁.drive.tree.IsDir c := by
      intro hne
      have hin : disk.Inhabited (q ++ [name]) := by
        cases entries with
        | nil => exact absurd rfl hne
        | file a g es => exact ⟨a, [], Or.inl ⟨g, hfe [a] g (Or.inl ⟨rfl, rfl⟩)⟩⟩
        | dir a es es' => exact ⟨a, [], Or.inr (hde [a] (Or.inl ⟨[], rfl, Or.inl rfl⟩))⟩
      refine (hp₁.ready.through hin hc).elim id fun hnone => ?_
      by_contra hfile
      exact pushDir_ne_ok hp₁.ready.legible hc hfile hnone hpe hne h₂
    have hids₁ := hcongr (s₁.drive.state.lamport, s₁.ctr) hready hp₁ hpe hcomps' hfe hde
      fun a ha y heq => by simp at heq
    rw [hp₁.clock] at hspare₁ ⊢
    have hp₂ := ihe hentries hpe hfe hde hp₁.ready hp₁.inv hc hcdir
      (by
        rw [hids₁]
        exact hspare₁.left) h₂
    rw [hids₁] at hp₂
    have hfr := fun y g hy => hfiles y g (Or.inr hy)
    have hdr := fun y hy => hdirs y (Or.inr hy)
    have hids₂ := (hcongr (s₂.drive.state.lamport, s₂.ctr) hp₁.ready hp₂ hpr hcomps hfr hdr
      fun a ha y hin => by
        obtain ⟨b, -, hx⟩ := hin
        rw [List.append_assoc, List.prefix_append_right_inj] at hx
        exact ne_of_mem_of_not_mem ha hnot (List.cons_prefix_cons.1 hx).1.symm).trans
      (hcongr _ hready hp₁ hpr hcomps hfr hdr
        fun a ha y heq => ne_of_mem_of_not_mem ha hnot (List.cons.inj (List.append_cancel_left heq)).1)
    have hq₂ := hp₂.grows q p (hp₁.grows q p hq).1
    have hspare₂ := hspare₁.right hp₂.spare fun x hx => not_reserved_of_mem_newIds hx
    rw [hp₂.clock] at hspare₂ ⊢
    have hp₃ := ih hrest hpr hfr hdr hp₂.ready hp₂.inv hq₂.1
      (fun _ => hq₂.2.2 ((hp₁.grows q p hq).2.2 hdir))
      (by
        rw [hids₂]
        exact hspare₂) h₃
    rw [hids₂] at hp₃
    exact hp₁.cons_dir hnot hp₂ hp₃

end PushStep

end CeDrive
