import CeDrive.Interning
import CeDrive.PushMatches
import CeDrive.Sparse
import CeDrive.WriteBack

/-!
# The drive as a Windows directory

The callbacks of the ProjFS adapter, `crates/ce-drive-mount/src/windows.rs`, over the names of
`winnames.rs` and the fields of `projfs_logic.rs`. ProjFS asks by path : for the entries of a
directory, for the placeholder of an entry, for the bytes of a file. `none` is the HRESULT of a
file that is not found.

Nothing is kept from one callback to the next but inodes and handles (`Serves`). What is projected
is the drive without the names that Windows cannot represent and all below them, and what is
enumerated at one time is what has a placeholder at another (`projected_iff`).
-/

namespace CeDrive

/-! ## Names -/

/-- Device names. -/
def RESERVED : List String :=
  ["CON", "PRN", "AUX", "NUL", "COM1", "COM2", "COM3", "COM4", "COM5", "COM6", "COM7", "COM8",
    "COM9", "LPT1", "LPT2", "LPT3", "LPT4", "LPT5", "LPT6", "LPT7", "LPT8", "LPT9"]

def FORBIDDEN : List Char :=
  ['<', '>', ':', '"', '/', '\\', '|', '?', '*', '\x00']

/-- `eq_ignore_ascii_case`. -/
def eqIgnoreAsciiCase (a b : List Char) : Bool :=
  a.map Char.toLower = b.map Char.toLower

/-- A name that Windows can represent, as it is. -/
def normalizeWindows (name : String) : Option String :=
  if name = "" ∨ name = "." ∨ name = ".." then none
  else if name.toList.any fun c => c ∈ FORBIDDEN ∨ c.toNat < 0x20 then none
  else if name.toList.getLast? = some '.' ∨ name.toList.getLast? = some ' ' then none
  else
    let stem := (name.toList.splitOn '.').headD name.toList
    if RESERVED.any fun r => eqIgnoreAsciiCase r.toList stem then none else some name

def Representable (name : String) : Prop :=
  (normalizeWindows name).isSome = true

instance : DecidablePred Representable :=
  fun _ => inferInstanceAs (Decidable (_ = true))

/-- The parts of a Windows path that are not empty. -/
def winComponents (p : String) : List String :=
  ((p.toList.splitOn '\\').map String.ofList).filter (· ≠ "")

/-- Push the components, each after a slash. -/
def pushComponents (out : String) : List String → Option String
  | [] => some out
  | comp :: comps =>
    (normalizeWindows comp).bind fun name => pushComponents (out ++ "/" ++ name) comps

def winPathToEngine (p : String) : Option String :=
  if p = "\\" ∨ p = "" then some "/" else pushComponents "" (winComponents p)

/-! ## Fields -/

structure BasicInfoFields where
  isDirectory : Bool
  fileSize : ℕ
  filetime : ℕ
  fileAttributes : ℕ
  deriving DecidableEq, Repr

def FILE_ATTRIBUTE_DIRECTORY : ℕ := 0x10

def FILE_ATTRIBUTE_NORMAL : ℕ := 0x80

def EPOCH_DIFF_100NS : ℕ := 116444736000000000

/-- The value of a saturating `u64` operation. -/
def saturate (n : ℕ) : ℕ :=
  min n (2 ^ 64 - 1)

def msToFiletime (mtimeMs : ℕ) : ℕ :=
  saturate (EPOCH_DIFF_100NS + saturate (mtimeMs * 10000))

def basicInfoFields (a : Attr) : BasicInfoFields where
  isDirectory := a.isDir
  fileSize := a.size
  filetime := msToFiletime a.mtimeMs
  fileAttributes := if a.isDir then FILE_ATTRIBUTE_DIRECTORY else FILE_ATTRIBUTE_NORMAL

/-- `PRJ_FILE_BASIC_INFO`, with one field for its four times. -/
structure PrjFileBasicInfo where
  isDirectory : Bool
  fileSize : ℤ
  time : ℤ
  fileAttributes : ℕ
  deriving DecidableEq, Repr

/-- Sizes and times are cast to `i64`. -/
def toBasicInfo (a : Attr) : PrjFileBasicInfo where
  isDirectory := (basicInfoFields a).isDirectory
  fileSize := Int.bmod (basicInfoFields a).fileSize (2 ^ 64)
  time := Int.bmod (basicInfoFields a).filetime (2 ^ 64)
  fileAttributes := (basicInfoFields a).fileAttributes

namespace Vfs

/-! ## Callbacks -/

def readdirplusPath (v : Vfs) (path : String) : Except String (List DirEntryPlus) × Vfs :=
  match v.lookupPath path with
  | (.error e, v) => (.error e, v)
  | (.ok attr, v) => v.readdirplus attr.ino

/-- The entries put into the buffer, in which there is room for `room` of them. -/
def getDirEnum (v : Vfs) (winPath : String) (room : ℕ) :
    Option (List (String × PrjFileBasicInfo)) × Vfs :=
  match winPathToEngine winPath with
  | none => (none, v)
  | some path =>
    match v.readdirplusPath path with
    | (.error _, v) => (none, v)
    | (.ok entries, v) =>
      (some ((entries.filterMap fun e =>
        (normalizeWindows e.name).map fun name => (name, toBasicInfo e.attr)).take room), v)

/-- The placeholder written for the path. -/
def getPlaceholder (v : Vfs) (winPath : String) : Option PrjFileBasicInfo × Vfs :=
  match winPathToEngine winPath with
  | none => (none, v)
  | some path =>
    match v.lookupPath path with
    | (.error _, v) => (none, v)
    | (.ok attr, v) => (some (toBasicInfo attr), v)

/-- Resolve, open, read and release. A read that fails leaves the file open. -/
def readThroughEngine (v : Vfs) (store : BlockStore) (path : String) (offset length nowMs : ℕ) :
    Option (Except String (List UInt8) × Vfs) :=
  match v.lookupPath path with
  | (.error e, v) => some (.error e, v)
  | (.ok attr, v) =>
    match v.openFile attr.ino with
    | (.error e, v) => some (.error e, v)
    | (.ok fh, v) => (v.read store fh offset length).bind fun r =>
      match r with
      | (.error e, v) => some (.error e, v)
      | (.ok bytes, v) => (v.flush store fh nowMs).map fun r =>
        (.ok bytes, if r.1.isOk then r.2.close fh else r.2)

/-- How `PrjWriteFileData` ends : it takes the bytes, or fails with a code after some of them. -/
inductive PrjWrite
  | ok
  | error (code torn : ℕ)

/-- What the callback returns : success, a file that is not found, or the code of a write. -/
inductive HResult
  | ok
  | notFound
  | code (code : ℕ)
  deriving DecidableEq, Repr

/-- Give the bytes to ProjFS, if there are any. Beside the result stands what got into the file. -/
def prjWriteFileData (write : PrjWrite) (bytes : List UInt8) : HResult × List UInt8 :=
  if bytes = [] then (.ok, [])
  else match write with
    | .ok => (.ok, bytes)
    | .error code torn => (.code code, bytes.take torn)

/-- The result, and what got into the range of the file. -/
def getFileData (v : Vfs) (store : BlockStore) (write : PrjWrite) (winPath : String)
    (offset length nowMs : ℕ) : Option ((HResult × List UInt8) × Vfs) :=
  match winPathToEngine winPath with
  | none => some ((.notFound, []), v)
  | some path =>
    (v.readThroughEngine store path offset length nowMs).map fun r =>
      match r.1 with
      | .error _ => ((.notFound, []), r.2)
      | .ok bytes => (prjWriteFileData write bytes, r.2)

end Vfs

/-! ## Names and paths -/

section Names

variable {name b p r path : String} {comps : List String}

theorem normalizeWindows_eq_some :
    normalizeWindows name = some b ↔ Representable name ∧ b = name := by
  unfold Representable
  constructor
  · intro h
    refine ⟨h ▸ rfl, ?_⟩
    unfold normalizeWindows at h
    dsimp only at h
    split_ifs at h
    exact (Option.some_injective _ h).symm
  · rintro ⟨h, rfl⟩
    obtain ⟨b, hb⟩ := Option.isSome_iff_exists.1 h
    rw [hb]
    unfold normalizeWindows at hb
    dsimp only at hb
    split_ifs at hb
    exact hb.symm

theorem Representable.normalizeWindows (h : Representable name) :
    normalizeWindows name = some name :=
  normalizeWindows_eq_some.2 ⟨h, rfl⟩

theorem normalizeWindows_eq_none (h : ¬Representable name) : normalizeWindows name = none := by
  rwa [Representable, Option.not_isSome_iff_eq_none] at h

/-- What Windows can represent has no separator of either kind. -/
theorem Representable.plain (h : Representable name) :
    DriveTree.IsComponent name ∧ '\\' ∉ name.toList := by
  have hsome := h.normalizeWindows
  unfold CeDrive.normalizeWindows at hsome
  dsimp only at hsome
  split_ifs at hsome with hempty hchar
  rw [Bool.not_eq_true, List.any_eq_false] at hchar
  have hfree : ∀ c ∈ FORBIDDEN, c ∉ name.toList := fun c hc hmem => by
    simpa [hc] using hchar c hmem
  exact ⟨⟨fun he => hempty (Or.inl he), hfree _ (by decide)⟩, hfree _ (by decide)⟩

theorem pushComponents_eq_some (out : String) : pushComponents out comps = some path ↔
    (∀ c ∈ comps, Representable c) ∧ path.toList = out.toList ++ DriveTree.slashed comps := by
  induction comps generalizing out with
  | nil => simp [pushComponents, ← String.toList_inj, eq_comm]
  | cons c comps ih =>
    rw [pushComponents, Option.bind_eq_some_iff, List.forall_mem_cons]
    constructor
    · rintro ⟨name, hname, hrest⟩
      obtain ⟨hc, rfl⟩ := normalizeWindows_eq_some.1 hname
      obtain ⟨hcomps, hpath⟩ := (ih _).1 hrest
      exact ⟨⟨hc, hcomps⟩, by simpa [DriveTree.slashed] using hpath⟩
    · rintro ⟨⟨hc, hcomps⟩, hpath⟩
      exact ⟨c, hc.normalizeWindows, (ih _).2 ⟨hcomps, by simpa [DriveTree.slashed] using hpath⟩⟩

theorem winPathToEngine_eq_some (h : winPathToEngine p = some path) :
    (∀ c ∈ winComponents p, Representable c) ∧ DriveTree.components path = winComponents p := by
  unfold winPathToEngine at h
  split_ifs at h with hroot
  · obtain rfl := Option.some_injective _ h
    rcases hroot with rfl | rfl <;> exact ⟨by decide, by decide⟩
  · obtain ⟨hcomps, hpath⟩ := (pushComponents_eq_some _).1 h
    refine ⟨hcomps, ?_⟩
    rw [DriveTree.components_eq, hpath, String.toList_empty, List.nil_append,
      ← DriveTree.components_pathString]
    exact DriveTree.components_pathString_of_isComponent fun c hc => (hcomps c hc).plain.1

theorem exists_winPathToEngine (h : ∀ c ∈ winComponents p, Representable c) :
    ∃ path, winPathToEngine p = some path ∧ DriveTree.components path = winComponents p := by
  obtain ⟨path, hpath⟩ : ∃ path, winPathToEngine p = some path := by
    unfold winPathToEngine
    split_ifs
    · exact ⟨_, rfl⟩
    · exact ⟨String.ofList (DriveTree.slashed (winComponents p)),
        (pushComponents_eq_some _).2 ⟨h, by simp⟩⟩
  exact ⟨path, hpath, (winPathToEngine_eq_some hpath).2⟩

theorem winComponents_append (hr : r ≠ "" ∧ '\\' ∉ r.toList) :
    winComponents (p ++ "\\" ++ r) = winComponents p ++ [r] := by
  have hparts : (p ++ "\\" ++ r).toList = p.toList ++ '\\' :: r.toList := by simp
  rw [winComponents, hparts, List.splitOn_append_cons_self, List.splitOn_eq_singleton hr.2]
  simp [winComponents, hr.1]

end Names

/-! ## What a node looks like -/

/-- The attributes of a node, under an inode. -/
def Drive.attr (d : Drive) (ino : Ino) (n : NodeId) : Attr :=
  if n = ROOT then ⟨ROOT_INO, 0, 0o755, 0, true⟩
  else
    let isDir := (d.tree.edge n).map Edge.kind = some .dir
    match d.content[n]? with
    | some c => ⟨ino, c.size, c.mode, c.mtimeMs, isDir⟩
    | none => ⟨ino, 0, if isDir then 0o755 else 0o644, 0, isDir⟩

/-- The information on a node, which does not depend on its inode. -/
def Drive.basicInfo (d : Drive) (n : NodeId) : PrjFileBasicInfo :=
  toBasicInfo (d.attr 0 n)

theorem Drive.toBasicInfo_attr (d : Drive) (ino : Ino) (n : NodeId) :
    toBasicInfo (d.attr ino n) = d.basicInfo n := by
  unfold basicInfo attr
  split_ifs
  · rfl
  · dsimp only
    split <;> rfl

/-- The node that is projected at a Windows path. -/
def Drive.Projects (d : Drive) (p : String) (n : NodeId) : Prop :=
  (∀ c ∈ winComponents p, Representable c) ∧ d.tree.ListedAt (winComponents p) n

/-- The entries of a node that Windows can represent. -/
def Drive.projected (d : Drive) (n : NodeId) : List (String × PrjFileBasicInfo) :=
  ((d.tree.readdir n).filter fun e => Representable e.1).map fun e => (e.1, d.basicInfo e.2.1)

theorem Drive.mem_projected {d : Drive} {n : NodeId} {r : String} {info : PrjFileBasicInfo} :
    (r, info) ∈ d.projected n ↔
      Representable r ∧ ∃ c, d.tree.Lists n r c ∧ info = d.basicInfo c := by
  rw [projected, List.mem_map]
  constructor
  · rintro ⟨⟨b, c, k⟩, he, heq⟩
    obtain ⟨rfl, rfl⟩ := Prod.mk.inj heq
    obtain ⟨he, hr⟩ := List.mem_filter.1 he
    exact ⟨of_decide_eq_true hr, c, ⟨k, he⟩, rfl⟩
  · rintro ⟨hr, c, ⟨k, he⟩, rfl⟩
    exact ⟨(r, c, k), List.mem_filter.2 ⟨he, decide_eq_true hr⟩, rfl⟩

namespace Vfs

variable {v v' v'' : Vfs} {n : NodeId} {ino : Ino} {path p r : String} {store : BlockStore}
  {info : PrjFileBasicInfo} {offset length nowMs room : ℕ} {bytes : List UInt8}

/-- The same drive, served. -/
structure Serves (v v' : Vfs) : Prop where
  inv : v'.Inv
  drive : v'.drive = v.drive

theorem Serves.trans (h : v.Serves v') (h' : v'.Serves v'') : v.Serves v'' :=
  ⟨h'.inv, h'.drive.trans h.drive⟩

theorem Inv.serves_internNodes (h : v.Inv) (nodes : List NodeId) : v.Serves (v.internNodes nodes) :=
  ⟨h.internNodes nodes, (h.undisturbed_internNodes nodes).drive⟩

theorem Inv.internAttr_eq (h : v.Inv) (hn : n = ROOT ∨ ∃ e, v.drive.tree.edges[n]? = some e) :
    (v.internAttr n).1 = .ok (v.drive.attr (v.intern n).1 n) := by
  have hi := h.intern n
  have hnode := (hi.table n _).1 (inoOf_intern_self v n)
  by_cases hroot : n = ROOT
  · have hone : (v.intern n).1 = ROOT_INO :=
      Option.some_injective _
        ((inoOf_intern_self v n).symm.trans ((hi.table n _).2 (hroot ▸ hi.root)))
    rw [internAttr, attrOf, if_pos hone, Drive.attr, if_pos hroot]
  · have hne : (v.intern n).1 ≠ ROOT_INO := fun heq =>
      hroot (Option.some_injective _ ((heq ▸ hnode).symm.trans hi.root))
    obtain ⟨e, he⟩ := hn.resolve_left hroot
    have hedge : v.drive.tree.edge n = some e := he
    simp only [internAttr, attrOf, if_neg hne, nodeAt, hnode, drive_intern, bind, Except.bind,
      Drive.attr, if_neg hroot, hedge, Option.map_some, Option.some_inj]
    cases v.drive.content[n]? <;> rfl

theorem Inv.lookupPath_eq (h : v.Inv) (path : String) :
    (∃ n, v.drive.tree.resolve path = some n ∧ ∃ ino v', v.lookupPath path =
        (.ok (v.drive.attr ino n), v') ∧ v.Serves v' ∧
          v'.nodeOf[(v.drive.attr ino n).ino]? = some n) ∨
      v.drive.tree.resolve path = none ∧ ∃ e, v.lookupPath path = (.error e, v) := by
  unfold lookupPath
  split_ifs with hroot
  · have hres : v.drive.tree.resolve path = some ROOT := by
      rcases hroot with rfl | rfl <;> rfl
    exact Or.inl ⟨ROOT, hres, 0, v, rfl, ⟨h, rfl⟩, h.root⟩
  · cases hres : v.drive.tree.resolve path with
    | none => exact Or.inr ⟨rfl, _, rfl⟩
    | some n =>
      have hattr := h.internAttr_eq (h.drive.replayed.mirror.edge_of_resolve hres)
      have hi := h.intern n
      refine Or.inl ⟨n, rfl, (v.intern n).1, (v.intern n).2, Prod.ext hattr rfl,
        h.serves_internNodes [n], ?_⟩
      rw [Drive.attr]
      split_ifs with hn
      · exact hn ▸ hi.root
      · have hnode := (hi.table n _).1 (inoOf_intern_self v n)
        dsimp only
        split <;> exact hnode

theorem Inv.attrAll_eq (h : v.Inv) {entries : List DriveTree.Listed}
    (hedge : ∀ e ∈ entries, ∃ edge, v.drive.tree.edges[e.2.1]? = some edge) :
    ∃ out v', v.attrAll entries = (.ok out, v') ∧ v.Serves v' ∧
      out.map (fun e => (e.name, toBasicInfo e.attr)) =
        entries.map fun e => (e.1, v.drive.basicInfo e.2.1) := by
  induction entries generalizing v with
  | nil => exact ⟨[], v, rfl, ⟨h, rfl⟩, rfl⟩
  | cons e entries ih =>
    obtain ⟨he, hentries⟩ := List.forall_mem_cons.1 hedge
    have hserves := h.serves_internNodes [e.2.1]
    have hdrive : (v.intern e.2.1).2.drive = v.drive := hserves.drive
    have hattr : v.internAttr e.2.1 = (.ok (v.drive.attr (v.intern e.2.1).1 e.2.1),
      (v.intern e.2.1).2) := Prod.ext (h.internAttr_eq (Or.inr he)) rfl
    obtain ⟨out, v', hall, hv', hout⟩ := ih hserves.inv (hdrive ▸ hentries)
    refine ⟨⟨e.1, v.drive.attr (v.intern e.2.1).1 e.2.1, e.2.1⟩ :: out, v', ?_,
      hserves.trans hv', ?_⟩
    · have hall' : (v.intern e.2.1).2.attrAll entries = (.ok out, v') := hall
      simp only [attrAll, hattr, hall']
    · rw [List.map_cons, List.map_cons, hout, hserves.drive, Drive.toBasicInfo_attr]

theorem Inv.readdirplus_eq (h : v.Inv) (hn : v.nodeOf[ino]? = some n) :
    ∃ out v', v.readdirplus ino = (.ok out, v') ∧ v.Serves v' ∧
      out.map (fun e => (e.name, toBasicInfo e.attr)) =
        (v.drive.tree.readdir n).map fun e => (e.1, v.drive.basicInfo e.2.1) := by
  rw [readdirplus, nodeAt, hn]
  refine h.attrAll_eq fun e he => ?_
  obtain ⟨edge, hedge, -⟩ := h.drive.replayed.edge_of_lists ⟨e.2.2, he⟩
  exact ⟨edge, hedge⟩

/-! ## One callback -/

/-- The engine finds the node that is projected at the path, or nothing is projected there. -/
theorem Inv.find_cases (h : v.Inv) (htidy : v.drive.tree.Tidy) (p : String) :
    (∃ n path ino v', v.drive.Projects p n ∧ winPathToEngine p = some path ∧
        v.lookupPath path = (.ok (v.drive.attr ino n), v') ∧ v.Serves v' ∧
        v'.nodeOf[(v.drive.attr ino n).ino]? = some n) ∨
      (∀ n, ¬v.drive.Projects p n) ∧ (winPathToEngine p = none ∨
        ∃ path e, winPathToEngine p = some path ∧ v.lookupPath path = (.error e, v)) := by
  cases hp : winPathToEngine p with
  | none =>
    refine Or.inr ⟨fun n hn => ?_, Or.inl rfl⟩
    obtain ⟨path, hpath, -⟩ := exists_winPathToEngine hn.1
    cases hp.symm.trans hpath
  | some path =>
    obtain ⟨hrep, hcomps⟩ := winPathToEngine_eq_some hp
    have hres_iff : ∀ n, v.drive.tree.resolve path = some n ↔
        v.drive.tree.ListedAt (winComponents p) n := fun n => by
      rw [DriveTree.resolve_eq, hcomps, htidy.resolveFrom_eq_some]
    rcases h.lookupPath_eq path with ⟨n, hres, ino, v', hlookup, hserves, hnode⟩ | ⟨hres, e, he⟩
    · exact Or.inl ⟨n, path, ino, v', ⟨hrep, (hres_iff n).1 hres⟩, rfl, hlookup,
        hserves, hnode⟩
    · refine Or.inr ⟨fun n hn => ?_, Or.inr ⟨path, e, rfl, he⟩⟩
      cases hres.symm.trans ((hres_iff n).2 hn.2)

theorem Inv.getPlaceholder_spec (h : v.Inv) (htidy : v.drive.tree.Tidy) (p : String) :
    v.Serves (v.getPlaceholder p).2 ∧ ∀ info, (v.getPlaceholder p).1 = some info ↔
      ∃ n, v.drive.Projects p n ∧ info = v.drive.basicInfo n := by
  unfold getPlaceholder
  rcases h.find_cases htidy p with ⟨n, path, ino, v', hn, hpath, hlookup, hserves, -⟩ |
    ⟨hnot, hnone | ⟨path, e, hpath, hlookup⟩⟩
  · simp only [hpath, hlookup, Drive.toBasicInfo_attr]
    refine ⟨hserves, fun info => ⟨fun hinfo => ⟨n, hn, (Option.some_injective _ hinfo).symm⟩, ?_⟩⟩
    rintro ⟨m, hm, rfl⟩
    rw [htidy.listedAt_unique hn.2 hm.2]
  · simp only [hnone]
    exact ⟨⟨h, rfl⟩, fun info => iff_of_false (by simp) fun ⟨n, hn, _⟩ => hnot n hn⟩
  · simp only [hpath, hlookup]
    exact ⟨⟨h, rfl⟩, fun info => iff_of_false (by simp) fun ⟨n, hn, _⟩ => hnot n hn⟩

/-- The buffer takes the entries in order, from the first. -/
theorem Inv.getDirEnum_spec (h : v.Inv) (htidy : v.drive.tree.Tidy) (p : String) (room : ℕ) :
    v.Serves (v.getDirEnum p room).2 ∧
      ((∃ n, v.drive.Projects p n ∧
          (v.getDirEnum p room).1 = some ((v.drive.projected n).take room)) ∨
        (∀ n, ¬v.drive.Projects p n) ∧ (v.getDirEnum p room).1 = none) := by
  unfold getDirEnum readdirplusPath
  rcases h.find_cases htidy p with ⟨n, path, ino, v', hn, hpath, hlookup, hserves, hnode⟩ |
    ⟨hnot, hnone | ⟨path, e, hpath, hlookup⟩⟩
  · obtain ⟨out, v₂, hread, hserves₂, hout⟩ := hserves.inv.readdirplus_eq hnode
    have hentries : out.filterMap (fun e => (normalizeWindows e.name).map fun name =>
        (name, toBasicInfo e.attr)) = v.drive.projected n := by
      have hpair : out.filterMap (fun e => (normalizeWindows e.name).map fun name =>
          (name, toBasicInfo e.attr)) = (out.map fun e => (e.name, toBasicInfo e.attr)).filterMap
            fun e => (normalizeWindows e.1).map fun name => (name, e.2) := by
        rw [List.filterMap_map]
        rfl
      rw [hpair, hout, hserves.drive, List.filterMap_map, Drive.projected, ← List.filterMap_eq_map,
        ← List.filterMap_eq_filter, List.filterMap_filterMap]
      refine List.filterMap_congr fun e he => ?_
      by_cases hr : Representable e.1
      · simp [hr.normalizeWindows, hr]
      · simp [normalizeWindows_eq_none hr, Option.guard, hr]
    simp only [hpath, hlookup, hread, hentries]
    exact ⟨hserves.trans hserves₂, Or.inl ⟨n, hn, rfl⟩⟩
  · rw [hnone]
    exact ⟨⟨h, rfl⟩, Or.inr ⟨hnot, rfl⟩⟩
  · simp only [hpath, hlookup]
    exact ⟨⟨h, rfl⟩, Or.inr ⟨hnot, trivial⟩⟩

/-- A fresh handle reads the object of its node and is closed. -/
theorem Serves.readThroughEngine_spec (hserves : v.Serves v')
    (hlookup : v.lookupPath path = (.ok (v.drive.attr ino n), v'))
    (hnode : v'.nodeOf[(v.drive.attr ino n).ino]? = some n) {r : Except String (List UInt8) × Vfs}
    (hr : v.readThroughEngine store path offset length nowMs = some r) :
    v.Serves r.2 ∧ match v.fetch store n with
      | .error e => r.1 = .error e
      | .ok bytes => r.1 = .ok ((bytes.drop offset).take length) := by
  let v₁ : Vfs := { v' with
    nextFh := v'.nextFh + 1
    openFiles := v'.openFiles.insert v'.nextFh ⟨(v.drive.attr ino n).ino, none, false⟩ }
  have hopen : v'.openFile (v.drive.attr ino n).ino = (.ok v'.nextFh, v₁) := by
    simp [openFile, nodeAt, hnode, v₁]
  have hcold : v₁.openFiles[v'.nextFh]? = some ⟨(v.drive.attr ino n).ino, none, false⟩ := by
    simp [v₁]
  have hfetch : v₁.fetch store n = v.fetch store n := by
    simp only [fetch, v₁, hserves.drive]
  have hserves₁ : v.Serves v₁ :=
    ⟨hserves.inv.of_table hserves.inv.drive rfl rfl rfl, hserves.drive⟩
  have hnode₁ : v₁.nodeOf[(v.drive.attr ino n).ino]? = some n := hnode
  unfold readThroughEngine at hr
  simp only [hlookup, hopen] at hr
  cases hobject : v.fetch store n with
  | error e =>
    have hhyd : v₁.hydrate store v'.nextFh = .error e := by
      simp [hydrate, hcold, hnode₁, hfetch, hobject, Except.map]
    simp only [read, hhyd, Option.bind_some] at hr
    obtain rfl := Option.some_injective _ hr
    exact ⟨hserves₁, rfl⟩
  | ok bytes =>
    have hhyd : v₁.hydrate store v'.nextFh = .ok (v₁.fill v'.nextFh bytes) := by
      simp [hydrate, hcold, hnode₁, hfetch, hobject, Except.map]
    have hfilled : v₁.fill v'.nextFh bytes = { v₁ with
        openFiles := v₁.openFiles.insert v'.nextFh
          ⟨(v.drive.attr ino n).ino, some bytes, false⟩ } := by
      simp [fill, hcold]
    have hwarm : (v₁.fill v'.nextFh bytes).openFiles[v'.nextFh]? =
        some ⟨(v.drive.attr ino n).ino, some bytes, false⟩ := by
      simp [hfilled]
    simp only [read, hhyd, hwarm] at hr
    split_ifs at hr with hend
    · cases hr
    · have hclean : (v₁.fill v'.nextFh bytes).snapshot v'.nextFh = .ok none := by
        simp [snapshot, hwarm]
      simp only [Option.bind_some, flush, hclean, Option.map_some, Except.isOk, Except.toBool,
        if_true, slice_eq] at hr
      obtain rfl := Option.some_injective _ hr
      refine ⟨⟨?_, ?_⟩, rfl⟩
      · rw [hfilled]
        exact hserves.inv.of_table hserves.inv.drive rfl rfl rfl
      · rw [hfilled]
        exact hserves.drive

theorem Inv.getFileData_spec (h : v.Inv) (htidy : v.drive.tree.Tidy) (p : String)
    {write : PrjWrite} {r : (HResult × List UInt8) × Vfs}
    (hr : v.getFileData store write p offset length nowMs = some r) :
    v.Serves r.2 ∧ ((∀ n, ¬v.drive.Projects p n) → r.1 = (.notFound, [])) ∧
      ∀ n, v.drive.Projects p n → r.1 = match v.fetch store n with
        | .error _ => (.notFound, [])
        | .ok bytes => prjWriteFileData write ((bytes.drop offset).take length) := by
  unfold getFileData at hr
  rcases h.find_cases htidy p with ⟨n, path, ino, v', hn, hpath, hlookup, hserves, hnode⟩ |
    ⟨hnot, hnone | ⟨path, e, hpath, hlookup⟩⟩
  · rw [hpath] at hr
    obtain ⟨res, hres, rfl⟩ := Option.map_eq_some_iff.1 hr
    obtain ⟨hserves', hread⟩ := hserves.readThroughEngine_spec hlookup hnode hres
    refine ⟨?_, fun hnot => absurd hn (hnot n), fun m hm => ?_⟩
    · cases hres₁ : res.1 <;> simpa [hres₁] using hserves'
    rw [← htidy.listedAt_unique hn.2 hm.2]
    cases hobject : v.fetch store n with
    | error e =>
      simp only [hobject] at hread
      simp [hread]
    | ok bytes =>
      simp only [hobject] at hread
      simp [hread]
  · rw [hnone] at hr
    obtain rfl := Option.some_injective _ hr
    exact ⟨⟨h, rfl⟩, fun _ => rfl, fun n hn => absurd hn (hnot n)⟩
  · simp only [hpath, readThroughEngine, hlookup, Option.map_some] at hr
    obtain rfl := Option.some_injective _ hr
    exact ⟨⟨h, rfl⟩, fun _ => rfl, fun n hn => absurd hn (hnot n)⟩

/-! ## Callbacks in any order -/

inductive Callback
  | enumerate (p : String) (room : ℕ)
  | placeholder (p : String)
  | fileData (store : BlockStore) (write : PrjWrite) (p : String) (offset length nowMs : ℕ)

/-- The bytes of a file, and `none` where it was not hydrated. -/
abbrev NtfsFile := Sparse.File (none : Option UInt8)

/-- The file of a placeholder. -/
def blankFile (size : ℕ) : NtfsFile :=
  .ofList (List.replicate size none)

/-- The file at `p` after `bytes` got into the file at `q`. -/
def hydrateFile (p q : String) (offset : ℕ) (F : NtfsFile) (bytes : List UInt8) : NtfsFile :=
  if q = p ∧ bytes ≠ [] then F.write offset (bytes.map some) else F

/-- One callback, and the NTFS file at `p` after it. -/
def callback (p : String) (s : Vfs × NtfsFile) : Callback → Option (Vfs × NtfsFile)
  | .enumerate q room => some ((s.1.getDirEnum q room).2, s.2)
  | .placeholder q => some ((s.1.getPlaceholder q).2, s.2)
  | .fileData store write q offset length nowMs =>
    (s.1.getFileData store write q offset length nowMs).map fun r =>
      (r.2, hydrateFile p q offset s.2 r.1.2)

variable {f : String} {F F' : NtfsFile} {s s' : Vfs × NtfsFile} {c : Callback} {cs : List Callback}

theorem serves_callback (h : s.1.Inv) (htidy : s.1.drive.tree.Tidy)
    (hc : callback f s c = some s') : s.1.Serves s'.1 := by
  cases c with
  | enumerate q room =>
    obtain rfl := Option.some_injective _ hc
    exact (h.getDirEnum_spec htidy q room).1
  | placeholder q =>
    obtain rfl := Option.some_injective _ hc
    exact (h.getPlaceholder_spec htidy q).1
  | fileData store write q offset length nowMs =>
    obtain ⟨r, hr, rfl⟩ := Option.map_eq_some_iff.1 hc
    exact (h.getFileData_spec htidy q hr).1

theorem serves_callbacks (h : v.Inv) (htidy : v.drive.tree.Tidy)
    (hrun : cs.foldlM (callback f) (v, F) = some s) : v.Serves s.1 := by
  refine Runs.invariant (fun s => v.Serves s.1) ⟨h, rfl⟩ hrun fun c _ s s' hs hc => ?_
  exact hs.trans (serves_callback hs.inv (hs.drive ▸ htidy) hc)

/-- A store with one object of two bytes. -/
def twoBytes : BlockStore where
  putBytes _ := .error "read-only"
  getObject _ := .ok [65, 66]
  get_put _ _ h := nomatch h
  cid_ne _ _ h := nomatch h

/-- A request that goes past the end, one whose write fails, and the same once more. -/
def threeRequests : List Callback :=
  [.fileData twoBytes .ok "\\f" 1 5 0, .fileData twoBytes (.error 5 0) "\\f" 0 1 0,
    .enumerate "" 9, .fileData twoBytes .ok "\\f" 0 1 0]

theorem exists_projected : ∃ (d : Drive) (n : NodeId), d.Reachable ∧ d.tree.Tidy ∧
    d.Projects "\\f" n ∧
      (threeRequests.foldlM (callback "\\f") (Vfs.new d 0, blankFile 2)).isSome = true ∧
      d.content[n]? = some (.new "A" 1 0o644 100) := by
  obtain ⟨d, hd, hrun, htidy, -⟩ := Drive.exists_addedFile Drive.spellStore ⟨[66], 0o644, 200⟩
  have hok : ((Drive.init "d" "a").performAll
      [.exec 0 (.addFile "/" "f" (.new "A" 1 0o644 100))]).any (fun d =>
        (threeRequests.foldlM (callback "\\f") (Vfs.new d 0, blankFile 2)).isSome &&
          (d.tree.resolve "/f").any fun n =>
            d.content[n]? = some (.new "A" 1 0o644 100)) = true := by
    decide +kernel
  rw [hrun, Option.any_some, Bool.and_eq_true_iff] at hok
  obtain ⟨n, hn, hcontent⟩ := (Option.any_eq_true _ _).1 hok.2
  have hpath : pathBelow "/" ["f"] = "/f" := by decide
  have hcomp : ∀ r ∈ ["f"], DriveTree.IsComponent r :=
    List.forall_mem_singleton.2 ⟨by decide, by decide⟩
  have hlisted := (htidy.resolve_pathBelow hcomp).1 (hpath ▸ hn)
  have hwin : winComponents "\\f" = ["f"] := by decide
  refine ⟨d, n, hd, htidy, ⟨?_, hwin ▸ hlisted⟩, hok.1, of_decide_eq_true hcontent⟩
  rw [hwin]
  exact List.forall_mem_singleton.2 (by decide)

/-- What is enumerated is what has a placeholder, with the same information, before the callbacks
and after them : a call gives the first entries of one list, as many as there is room for, and
every call starts over. Placeholders are of the nodes at paths that Windows can represent. -/
theorem projected_iff (h : v.Reachable) (htidy : v.drive.tree.Tidy)
    (hrun : cs.foldlM (callback f) (v, F) = some s) (p : String) :
    (∃ entries : Option (List (String × PrjFileBasicInfo)),
        (∀ room, (v.getDirEnum p room).1 = entries.map (·.take room) ∧
          (s.1.getDirEnum p room).1 = entries.map (·.take room)) ∧
        ∀ r info, (∃ all, entries = some all ∧ (r, info) ∈ all) ↔
          (r ≠ "" ∧ '\\' ∉ r.toList) ∧ (s.1.getPlaceholder (p ++ "\\" ++ r)).1 = some info) ∧
      ∀ info, (s.1.getPlaceholder p).1 = some info ↔
        ∃ n, v.drive.Projects p n ∧ info = v.drive.basicInfo n := by
  have hserves := serves_callbacks h.inv htidy hrun
  have hplaceholder : ∀ q info, (s.1.getPlaceholder q).1 = some info ↔
      ∃ n, v.drive.Projects q n ∧ info = v.drive.basicInfo n := fun q =>
    hserves.drive ▸ (hserves.inv.getPlaceholder_spec (hserves.drive ▸ htidy) q).2
  have hbelow : ∀ {r info}, (r ≠ "" ∧ '\\' ∉ r.toList) ∧
      (s.1.getPlaceholder (p ++ "\\" ++ r)).1 = some info ↔
        ∃ n, v.drive.Projects p n ∧ (r, info) ∈ v.drive.projected n := by
    intro r info
    rw [hplaceholder]
    constructor
    · rintro ⟨hr, c, ⟨hrep, hlisted⟩, hinfo⟩
      rw [winComponents_append hr] at hrep hlisted
      obtain ⟨hrep, hrepr⟩ := List.forall_mem_append.1 hrep
      obtain ⟨n, hn, hl⟩ := DriveTree.listedAt_append_singleton.1 hlisted
      exact ⟨n, ⟨hrep, hn⟩,
        Drive.mem_projected.2 ⟨List.forall_mem_singleton.1 hrepr, c, hl, hinfo⟩⟩
    · rintro ⟨n, hn, hmem⟩
      obtain ⟨hr, c, hc, hinfo⟩ := Drive.mem_projected.1 hmem
      obtain ⟨⟨hne, -⟩, hslash⟩ := hr.plain
      refine ⟨⟨hne, hslash⟩, c, ⟨?_, ?_⟩, hinfo⟩
      · rw [winComponents_append ⟨hne, hslash⟩]
        exact List.forall_mem_append.2 ⟨hn.1, List.forall_mem_singleton.2 hr⟩
      · rw [winComponents_append ⟨hne, hslash⟩]
        exact .child hn.2 hc
  have hagain : ∀ room, (s.1.getDirEnum p room).1 = (v.getDirEnum p room).1 := fun room => by
    have hafter := (hserves.inv.getDirEnum_spec (hserves.drive ▸ htidy) p room).2
    rw [hserves.drive] at hafter
    rcases hafter with ⟨n, hn, hentries⟩ | ⟨hnot, hnone⟩ <;>
      rcases (h.inv.getDirEnum_spec htidy p room).2 with ⟨m, hm, hentries'⟩ | ⟨hnot', hnone'⟩
    · rw [hentries, hentries', htidy.listedAt_unique hn.2 hm.2]
    · exact absurd hn (hnot' n)
    · exact absurd hm (hnot m)
    · rw [hnone, hnone']
  refine ⟨?_, hplaceholder p⟩
  simp only [hagain, and_self, hbelow]
  by_cases hproj : ∃ n, v.drive.Projects p n
  · obtain ⟨n, hn⟩ := hproj
    refine ⟨some (v.drive.projected n), fun room => ?_, fun r info => ⟨?_, ?_⟩⟩
    · rcases (h.inv.getDirEnum_spec htidy p room).2 with ⟨m, hm, hentries⟩ | ⟨hnot, -⟩
      · rw [hentries, htidy.listedAt_unique hn.2 hm.2]
        rfl
      · exact absurd hn (hnot n)
    · rintro ⟨all, hall, hmem⟩
      exact ⟨n, hn, Option.some_injective _ hall ▸ hmem⟩
    · rintro ⟨m, hm, hmem⟩
      exact ⟨_, rfl, htidy.listedAt_unique hn.2 hm.2 ▸ hmem⟩
  · refine ⟨none, fun room => ?_, fun r info => iff_of_false ?_ ?_⟩
    · rcases (h.inv.getDirEnum_spec htidy p room).2 with ⟨m, hm, -⟩ | ⟨-, hnone⟩
      · exact absurd ⟨m, hm⟩ hproj
      · exact hnone
    · rintro ⟨all, hall, -⟩
      cases hall
    · rintro ⟨n, hn, -⟩
      exact hproj ⟨n, hn⟩

/-- A file in the root is enumerated wherever there is room for all entries, as it has a
placeholder. -/
theorem projected_iff_file : ∃ (v : Vfs) (s : Vfs × NtfsFile) (info : PrjFileBasicInfo)
    (all : List (String × PrjFileBasicInfo)),
    [.placeholder "\\f"].foldlM (callback "\\f") (v, .ofList []) = some s ∧
      (s.1.getDirEnum "" all.length).1 = some all ∧ ("f", info) ∈ all ∧
      (s.1.getPlaceholder "\\f").1 = some info := by
  obtain ⟨d, n, hd, htidy, hn, -⟩ := exists_projected
  have hv : (Vfs.new d 0).Reachable := .new hd 0
  have hrun : [.placeholder "\\f"].foldlM (callback "\\f") (Vfs.new d 0, .ofList []) =
      some (((Vfs.new d 0).getPlaceholder "\\f").2, .ofList []) := rfl
  have hinfo := ((projected_iff hv htidy hrun "\\f").2 (d.basicInfo n)).2 ⟨n, hn, rfl⟩
  have hpath : "" ++ "\\" ++ "f" = "\\f" := by decide
  obtain ⟨entries, henum, hiff⟩ := (projected_iff hv htidy hrun "").1
  obtain ⟨all, rfl, hmem⟩ := (hiff "f" (d.basicInfo n)).2 ⟨⟨by decide, by decide⟩, hpath ▸ hinfo⟩
  refine ⟨_, _, _, all, hrun, ?_, hmem, hinfo⟩
  rw [(henum all.length).2, Option.map_some, List.take_length]

/-! ## Hydration -/

variable {base : Vfs}

end Vfs

end CeDrive
