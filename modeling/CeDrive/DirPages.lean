import CeDrive.Interning
import CeDrive.Pages

/-!
# Directory pages

The FUSE adapters `crates/ce-drive-mount/src/linux_fuser.rs` and `macos_fskit.rs`. A reply
holds entries of a directory, each with the offset to go on from; the kernel asks again with
the offset of the last entry it was given, until a reply is empty. `readdir` counts `.` and
`..` in its offsets. `readdirplus` hands out offsets that count them and skips as many
children : each reply but the last loses the child behind it, so a directory is listed in full
exactly if it fits in the first reply (`paging_complete_iff`).

How many entries fit in a reply is up to the kernel. The lifetimes and the generation in the
entries are left out.
-/

namespace CeDrive

namespace Fuse

/-- An entry of a `readdir` reply. -/
structure DirEntry where
  ino : Ino
  isDir : Bool
  name : String
  deriving DecidableEq

/-- An entry of a `readdirplus` reply. -/
structure PlusEntry where
  ino : Ino
  name : String
  attr : Attr
  deriving DecidableEq

/-- The inode of `..`. -/
def parentOrSelf (ino : Ino) : Ino :=
  if ino = ROOT_INO then ROOT_INO else ROOT_INO

/-- `readdir` : the entries that fit in the reply, each with its offset. -/
def readdir (ino : Ino) (v : Vfs) (offset room : ℕ) : Except String (List (DirEntry × ℕ)) × Vfs :=
  match v.readdir ino with
  | (.error e, v) => (.error e, v)
  | (.ok entries, v) =>
    let all := ⟨ino, true, "."⟩ :: ⟨parentOrSelf ino, true, ".."⟩ ::
      entries.map fun e => ⟨e.2.1, e.2.2, e.1⟩
    (.ok (((all.zipIdx.drop offset).map fun e => (e.1, e.2 + 1)).take room), v)

/-- The entry for the directory itself, if its attributes can be read. -/
def selfEntry (ino : Ino) (v : Vfs) : List PlusEntry :=
  match v.attrOf ino with
  | .ok attr => [⟨ino, ".", attr⟩]
  | .error _ => []

def plusEntry (e : DirEntryPlus) : PlusEntry :=
  ⟨e.attr.ino, e.name, e.attr⟩

/-- `readdirplus` : the directory itself at the offset zero, then the children. -/
def readdirplus (ino : Ino) (v : Vfs) (offset room : ℕ) :
    Except String (List (PlusEntry × ℕ)) × Vfs :=
  match v.readdirplus ino with
  | (.error e, v) => (.error e, v)
  | (.ok entries, v) =>
    let dot := if offset = 0 then (selfEntry ino v).map fun e => (e, 1) else []
    let kids := (entries.zipIdx.drop offset).map fun e => (plusEntry e.1, e.2 + 2)
    (.ok ((dot ++ kids).take room), v)

/-! ## Reading a directory to its end -/

/-- A directory being read : the calls made, the offset to go on from, the engine. -/
structure Session where
  calls : ℕ
  offset : ℕ
  vfs : Vfs

variable {α : Type*}

/-- The next call, its reply with room for `rooms` entries, call by call. -/
def next (call : Vfs → ℕ → ℕ → Except String (List (α × ℕ)) × Vfs) (rooms : ℕ → ℕ) (s : Session) :
    Option (List (α × ℕ) × Session) :=
  match call s.vfs s.offset (rooms s.calls) with
  | (.error _, _) => none
  | (.ok page, v) => some (page,
      ⟨s.calls + 1, ((page.getLast?).map Prod.snd).getD s.offset, v⟩)

/-- All entries of the replies to at most `calls` calls, if an empty one was among them. -/
def readAll (call : Vfs → ℕ → ℕ → Except String (List (α × ℕ)) × Vfs) (rooms : ℕ → ℕ) (v : Vfs)
    (calls : ℕ) : Option (List α) :=
  (Pages.drain (next call rooms) calls ⟨0, 0, v⟩).map (List.map Prod.fst)

variable {ino : Ino} {v v' : Vfs} {rooms : ℕ → ℕ} {s : Session}

theorem drop_zipIdx (l : List α) (k n : ℕ) : (l.zipIdx k).drop n = (l.drop n).zipIdx (k + n) := by
  induction l generalizing k n with
  | nil => simp
  | cons a l ih =>
    cases n with
    | zero => rfl
    | succ n => rw [List.zipIdx_cons, List.drop_succ_cons, ih, List.drop_succ_cons, Nat.add_right_comm,
        Nat.add_assoc]

theorem take_zipIdx (l : List α) (k n : ℕ) : (l.zipIdx k).take n = (l.take n).zipIdx k := by
  induction l generalizing k n with
  | nil => simp
  | cons a l ih =>
    cases n with
    | zero => rfl
    | succ n => rw [List.zipIdx_cons, List.take_succ_cons, ih, List.take_succ_cons, List.zipIdx_cons]

/-- The entries from an offset on, with the offsets they are given. -/
theorem numbered_eq {β : Type*} (l : List α) (f : α → β) (offset k : ℕ) :
    ((l.zipIdx.drop offset).map fun e => (f e.1, e.2 + k)) =
      ((l.map f).drop offset).zipIdx (offset + k) := by
  rw [drop_zipIdx, Nat.zero_add, ← List.map_drop]
  induction l.drop offset generalizing offset with
  | nil => rfl
  | cons a l ih =>
    rw [List.zipIdx_cons, List.map_cons, List.map_cons, List.zipIdx_cons, ih (offset + 1),
      Nat.add_right_comm]

/-- The offset of the last entry of a page. -/
theorem getLast?_zipIdx_offset (page : List α) (k offset : ℕ) :
    (((page.zipIdx k).getLast?).map Prod.snd).getD offset =
      if page = [] then offset else k + page.length - 1 := by
  rw [List.getLast?_zipIdx]
  cases hlast : page.getLast? with
  | none => simp [List.getLast?_eq_none_iff.1 hlast]
  | some e =>
    have hne : page ≠ [] := List.ne_nil_of_mem (List.mem_of_getLast? hlast)
    simp [hne]

theorem take_eq_nil_of_le {room : ℕ} (hroom : 1 ≤ room) {l : List α} (h : l.take room = []) : l = [] :=
  (List.take_eq_nil_iff.1 h).resolve_left (by omega)

/-! ## `readdir` -/

/-- What `readdir` lists. -/
def allEntries (ino : Ino) (entries : List (String × Ino × Bool)) : List DirEntry :=
  ⟨ino, true, "."⟩ :: ⟨parentOrSelf ino, true, ".."⟩ :: entries.map fun e => ⟨e.2.1, e.2.2, e.1⟩

theorem readdir_eq_ok {entries : List (String × Ino × Bool)} (h : v.readdir ino = (.ok entries, v'))
    (offset room : ℕ) : readdir ino v offset room =
      (.ok ((((allEntries ino entries).drop offset).take room).zipIdx (offset + 1)), v') := by
  have hall := numbered_eq (allEntries ino entries) id offset 1
  rw [List.map_id] at hall
  rw [readdir, h, ← take_zipIdx, ← hall]
  rfl

/-- Each reply goes on where the one before ended. -/
theorem delivers_readdir (hrooms : ∀ k, 1 ≤ rooms k) {entries : List (String × Ino × Bool)}
    (hagain : v'.readdir ino = (.ok entries, v')) :
    Pages.Delivers (next (readdir ino) rooms)
      (fun s => ((allEntries ino entries).drop s.offset).zipIdx (s.offset + 1))
      fun s => s.vfs.readdir ino = (.ok entries, v') := by
  rintro ⟨calls, offset, w⟩ hw
  set left := (allEntries ino entries).drop offset with hleft
  set page := left.take (rooms calls) with hpage
  have hcall : next (readdir ino) rooms ⟨calls, offset, w⟩ = some (page.zipIdx (offset + 1),
      ⟨calls + 1, (((page.zipIdx (offset + 1)).getLast?).map Prod.snd).getD offset, v'⟩) := by
    rw [next, readdir_eq_ok hw]
  refine ⟨_, _, hcall, hagain, ?_, fun hnil => ?_⟩
  · have hoffset : (((page.zipIdx (offset + 1)).getLast?).map Prod.snd).getD offset =
        offset + page.length := by
      rw [getLast?_zipIdx_offset]
      split_ifs with hnil
      · simp [hnil]
      · omega
    have hrest : (allEntries ino entries).drop (offset + page.length) = left.drop page.length := by
      rw [hleft, List.drop_drop]
    have hsplit : page ++ left.drop page.length = left :=
      List.prefix_iff_eq_append.1 (List.take_prefix _ _)
    simp only [hoffset, hrest]
    conv_lhs => rw [← hleft, ← hsplit]
    rw [List.zipIdx_append, Nat.add_right_comm]
  · have hpage : page = [] := by simpa using hnil
    have hnone : left = [] := take_eq_nil_of_le (hrooms calls) hpage
    simp only [← hleft, hnone, List.zipIdx_nil]

/-- `readdir` lists `.`, `..` and every entry once. -/
theorem readAll_readdir (h : v.Inv) (hrooms : ∀ k, 1 ≤ rooms k) {entries : List (String × Ino × Bool)}
    (hr : v.readdir ino = (.ok entries, v')) {calls : ℕ} (hcalls : entries.length + 2 < calls) :
    readAll (readdir ino) rooms v calls = some (allEntries ino entries) := by
  have hdrain := (delivers_readdir hrooms (h.readdir_again hr).2).drain_eq (c := ⟨0, 0, v⟩) (k := calls) hr
    (by simpa [allEntries] using hcalls)
  rw [readAll, hdrain]
  simp [List.zipIdx_map_fst]

/-! ## `readdirplus` -/

/-- What `readdirplus` lists at the offset zero. -/
def plusEntries (ino : Ino) (v : Vfs) (entries : List DirEntryPlus) : List PlusEntry :=
  selfEntry ino v ++ entries.map plusEntry

/-- The entries that a call of `readdirplus` could return. -/
def plusLeft (ino : Ino) (v : Vfs) (entries : List DirEntryPlus) (offset : ℕ) : List (PlusEntry × ℕ) :=
  (if offset = 0 then (selfEntry ino v).map fun e => (e, 1) else []) ++
    ((entries.map plusEntry).drop offset).zipIdx (offset + 2)

theorem readdirplus_eq_ok {entries : List DirEntryPlus} (h : v.readdirplus ino = (.ok entries, v'))
    (offset room : ℕ) :
    readdirplus ino v offset room = (.ok ((plusLeft ino v' entries offset).take room), v') := by
  rw [readdirplus, h, plusLeft, ← numbered_eq]

theorem length_selfEntry_le (ino : Ino) (v : Vfs) : (selfEntry ino v).length ≤ 1 := by
  unfold selfEntry
  split
  · exact le_rfl
  · exact Nat.zero_le 1

/-- Where the entries begin that are listed from an offset on. -/
def position (ino : Ino) (v : Vfs) (offset : ℕ) : ℕ :=
  if offset = 0 then 0 else offset + (selfEntry ino v).length

/-- The offsets count one entry more than there is. -/
theorem plusLeft_eq (ino : Ino) (v : Vfs) (entries : List DirEntryPlus) (offset : ℕ) :
    plusLeft ino v entries offset = ((plusEntries ino v entries).drop (position ino v offset)).zipIdx
      (position ino v offset + 2 - (selfEntry ino v).length) := by
  unfold plusLeft position plusEntries
  split_ifs with hoffset
  · subst hoffset
    unfold selfEntry
    split <;> rfl
  · rw [Nat.add_comm offset (selfEntry ino v).length, List.drop_length_add_append, List.nil_append]
    congr 1
    omega

section

variable {entries : List DirEntryPlus} (hr : v.readdirplus ino = (.ok entries, v'))
  (hrooms : ∀ k, 1 ≤ rooms k)
include hr hrooms

/-- A reply holds the next entries, and the call after it leaves out the entry behind them. -/
theorem next_readdirplus (calls offset : ℕ) :
    ∃ page s', next (readdirplus ino) rooms ⟨calls, offset, v⟩ = some (page, s') ∧ s'.vfs = v' ∧
      page = (plusLeft ino v' entries offset).take (rooms calls) ∧
      plusLeft ino v' entries s'.offset = (plusLeft ino v' entries offset).drop (page.length + 1) := by
  set page := (plusLeft ino v' entries offset).take (rooms calls) with hpage
  have hcall : next (readdirplus ino) rooms ⟨calls, offset, v⟩ = some (page,
      ⟨calls + 1, ((page.getLast?).map Prod.snd).getD offset, v'⟩) := by
    rw [next, readdirplus_eq_ok hr]
  refine ⟨page, _, hcall, rfl, rfl, ?_⟩
  have hself := length_selfEntry_le ino v'
  rcases eq_or_ne page [] with hnil | hne
  · have hleft := take_eq_nil_of_le (hrooms calls) hnil
    rw [hnil, hleft]
    exact hleft
  have hpos := List.length_pos_iff.2 hne
  rw [plusLeft_eq, take_zipIdx] at hpage
  set taken := ((plusEntries ino v' entries).drop (position ino v' offset)).take (rooms calls)
  have hlen : page.length = taken.length := by rw [hpage, List.length_zipIdx]
  have hoffset : ((page.getLast?).map Prod.snd).getD offset =
      position ino v' offset + page.length + 1 - (selfEntry ino v').length := by
    rw [hlen, hpage, getLast?_zipIdx_offset, if_neg fun hnil => hne (by rw [hpage, hnil]; rfl)]
    omega
  have hposition : position ino v' (((page.getLast?).map Prod.snd).getD offset) =
      position ino v' offset + (page.length + 1) := by
    rw [hoffset, position, if_neg (by omega)]
    omega
  rw [plusLeft_eq, plusLeft_eq, hposition, drop_zipIdx, List.drop_drop]
  congr 1
  omega

end

theorem serves_readdirplus (hrooms : ∀ k, 1 ≤ rooms k) {entries : List DirEntryPlus}
    (hagain : v'.readdirplus ino = (.ok entries, v')) :
    Pages.Serves (next (readdirplus ino) rooms) (fun s => plusLeft ino v' entries s.offset)
      fun s => s.vfs.readdirplus ino = (.ok entries, v') := by
  rintro ⟨calls, offset, w⟩ hw
  obtain ⟨page, s', hcall, hvfs, hpage, hleft⟩ := next_readdirplus hw hrooms calls offset
  refine ⟨page, s', hcall, hvfs ▸ hagain, ?_⟩
  have hsplit : page ++ (plusLeft ino v' entries offset).drop page.length =
      plusLeft ino v' entries offset :=
    List.prefix_iff_eq_append.1 (hpage ▸ List.take_prefix _ _)
  dsimp only
  rw [hleft, ← List.drop_drop]
  refine ((List.Sublist.refl page).append (List.drop_sublist 1 _)).trans ?_
  rw [hsplit]

/-- All replies of `readdirplus` together : the entries of the first, and some of those from
the second behind it on. -/
theorem exists_readAll_readdirplus (h : v.Inv) (hrooms : ∀ k, 1 ≤ rooms k)
    {entries : List DirEntryPlus} (hr : v.readdirplus ino = (.ok entries, v')) {calls : ℕ}
    (hcalls : entries.length + 2 < calls) : ∃ out, readAll (readdirplus ino) rooms v calls = some out ∧
      ∃ more, out = (plusEntries ino v' entries).take (rooms 0) ++ more ∧
        more.Sublist ((plusEntries ino v' entries).drop (rooms 0 + 1)) := by
  have hself := length_selfEntry_le ino v'
  have hlength : (plusEntries ino v' entries).length ≤ entries.length + 1 := by
    rw [plusEntries, List.length_append, List.length_map]
    omega
  have hstart := plusLeft_eq ino v' entries 0
  rw [position, if_pos rfl, List.drop_zero, Nat.zero_add] at hstart
  have hfst : (plusLeft ino v' entries 0).map Prod.fst = plusEntries ino v' entries := by
    rw [hstart, List.zipIdx_map_fst]
  obtain ⟨page, s', hcall, hvfs, hpage, hleft⟩ := next_readdirplus hr hrooms 0 0
  have hfirst : page.map Prod.fst = (plusEntries ino v' entries).take (rooms 0) := by
    rw [hpage, List.map_take, hfst]
  obtain ⟨k, rfl⟩ : ∃ k, calls = k + 1 := ⟨calls - 1, by omega⟩
  rcases eq_or_ne page [] with rfl | hne
  · refine ⟨[], by rw [readAll, Pages.drain_of_nil hcall]; rfl, [], ?_, List.nil_sublist _⟩
    rw [← hfirst]
    rfl
  · have hlen : (plusLeft ino v' entries s'.offset).length < k := by
      rw [hleft, List.length_drop, hstart, List.length_zipIdx]
      omega
    obtain ⟨out, hout, hsub⟩ := (serves_readdirplus hrooms (h.readdirplus_again hr).2).exists_drain
      (c := s') (hvfs ▸ (h.readdirplus_again hr).2) hlen
    refine ⟨(page ++ out).map Prod.fst, by rw [readAll, Pages.drain_succ hcall hne, hout]; rfl,
      out.map Prod.fst, by rw [List.map_append, hfirst], ?_⟩
    have hmore := hsub.map Prod.fst
    rw [hleft, List.map_drop, hfst] at hmore
    have hshort : page.length = min (rooms 0) (plusEntries ino v' entries).length := by
      rw [← List.length_take, ← hfirst, List.length_map]
    rcases le_total (rooms 0) (plusEntries ino v' entries).length with hle | hle
    · rwa [hshort, min_eq_left hle] at hmore
    · rw [List.drop_eq_nil_of_le (by omega), List.sublist_nil] at hmore
      rw [hmore]
      exact List.nil_sublist _

/-- Directory paging. If every reply has room for an entry, `readdir` lists `.`, `..` and every
child once, whatever fits in the replies. `readdirplus` lists `.` and every child once if and
only if all of them fit in the first reply. -/
theorem paging_complete_iff (h : v.Reachable) (ino : Ino) (rooms : ℕ → ℕ) (hrooms : ∀ k, 1 ≤ rooms k) :
    (∀ entries v', v.readdir ino = (.ok entries, v') → ∃ bound, ∀ calls, bound ≤ calls →
      readAll (readdir ino) rooms v calls = some (allEntries ino entries)) ∧
    ∀ entries v', v.readdirplus ino = (.ok entries, v') → ∃ bound, ∀ calls, bound ≤ calls →
      ∃ out, readAll (readdirplus ino) rooms v calls = some out ∧
        (out.Perm (plusEntries ino v' entries) ↔ (plusEntries ino v' entries).length ≤ rooms 0) := by
  refine ⟨fun entries v' hr => ⟨entries.length + 3, fun calls hcalls =>
    readAll_readdir h.inv hrooms hr hcalls⟩, fun entries v' hr => ⟨entries.length + 3,
      fun calls hcalls => ?_⟩⟩
  obtain ⟨out, hout, more, rfl, hmore⟩ := exists_readAll_readdirplus h.inv hrooms hr hcalls
  refine ⟨_, hout, fun hperm => ?_, fun hfits => ?_⟩
  · have hlen := hperm.length_eq
    have hle := hmore.length_le
    rw [List.length_append, List.length_take] at hlen
    rw [List.length_drop] at hle
    omega
  · rw [List.drop_eq_nil_of_le (by omega), List.sublist_nil] at hmore
    rw [hmore, List.append_nil, List.take_of_length_le hfits]

/-- A drive with two files in the root. -/
def twoFiles : Drive :=
  ((Drive.init "d" "r").performAll [.exec 0 (.addFile "/" "a" (.new "c" 1 0 0)),
    .exec 1 (.addFile "/" "b" (.new "c" 1 0 0))]).get (by decide +kernel)

theorem reachable_twoFiles : (Vfs.new twoFiles 0).Reachable :=
  .new ⟨"d", "r", _, (Option.some_get _).symm⟩ 0

/-- Replies with room for one entry. -/
theorem paging_complete_iff_one : ∃ bound, ∀ calls, bound ≤ calls →
    readAll (readdir ROOT_INO) (fun _ => 1) (Vfs.new twoFiles 0) calls =
      some (allEntries ROOT_INO [("a", 2, false), ("b", 3, false)]) := by
  have hr : (Vfs.new twoFiles 0).readdir ROOT_INO =
      (.ok [("a", 2, false), ("b", 3, false)], ((Vfs.new twoFiles 0).readdir ROOT_INO).2) :=
    Prod.ext (by decide +kernel) rfl
  exact (paging_complete_iff reachable_twoFiles ROOT_INO (fun _ => 1) fun _ => le_rfl).1 _ _ hr

/-- With room for two entries, the first reply of `readdirplus` has the first file, the second
none. -/
theorem readdirplus_loses :
    let v := Vfs.new twoFiles 0
    v.Reachable ∧
      ((v.readdirplus ROOT_INO).1.toOption).map (List.map DirEntryPlus.name) = some ["a", "b"] ∧
      (readAll (readdirplus ROOT_INO) (fun _ => 2) v 5).map (List.map PlusEntry.name) =
        some [".", "a"] := by
  intro v
  exact ⟨reachable_twoFiles, by decide +kernel, by decide +kernel⟩

end Fuse

end CeDrive
