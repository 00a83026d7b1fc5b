import CeDrive.PushMatches
import CeDrive.SearchScan
import CeDrive.Share
import CeDrive.Walks

/-!
# Searching a drive

`build` and `search_scoped` of `crates/ce-drive-core/src/search.rs`. The index of a drive is
built by a walk of the listings; the recursion of the source is bounded by `k` here. In a tidy
tree the walk ends, and it adds one document for each listed node, with the path that leads to
it (`exists_build`). So the comparison of a scope with the path of a hit, as texts,
tells what lies below the scope in the tree (`search_scoped_eq`).
-/

open Forest

namespace CeDrive

namespace SearchIndex

variable (alnum : Char → Bool) (lower : String → String)

/-! ## The walk -/

/-- The path of an entry of a listing. -/
def childPath (path name : String) : String :=
  if path = "/" then "/" ++ name else path ++ "/" ++ name

/-- The call of `add` for an entry. -/
def addOf (path : String) (e : DirEntry) : Add :=
  ⟨e.nodeId, childPath path e.name, e.name, e.isDir, (e.content.map FileContent.size).getD 0⟩

/-- One round of the loop for each entry. -/
def indexEntries (visit : String → SearchIndex → Option SearchIndex) (path : String) :
    List DirEntry → SearchIndex → Option SearchIndex
  | [], index => some index
  | e :: entries, index =>
    let a := addOf path e
    let index := index.add alnum lower a.nodeId a.path a.name a.isDir a.size
    if e.isDir then (visit a.path index).bind (indexEntries visit path entries)
    else indexEntries visit path entries index

/-- Index one subtree, at most `k` directories deep; `none` if it goes deeper. -/
def indexDir (d : Drive) : ℕ → String → SearchIndex → Option SearchIndex
  | 0, _, _ => none
  | k + 1, path, index =>
    match d.ls path with
    | .error _ => some index
    | .ok entries => indexEntries alnum lower (indexDir d k) path entries index

/-- Build an index over every live file and folder. -/
def build (d : Drive) (k : ℕ) : Option SearchIndex :=
  indexDir alnum lower d k "/" .new

/-- Search only under a scope. -/
def searchScoped (index : SearchIndex) (query scope : String) (limit : ℕ) : List SearchHit :=
  let scope := if scope = "/" then "" else trimEndSlashes scope
  let hits := (index.search alnum lower query 0).filter fun h =>
    scope = "" ∨ h.path = scope ∨ (scope ++ "/").toList <+: h.path.toList
  if limit = 0 then hits else hits.take limit

/-! ## The calls of a walk -/

/-- The calls of `add` on a walk. -/
def walkAdds (d : Drive) : ℕ → String → Option (List Add)
  | 0, _ => none
  | k + 1, path =>
    match d.ls path with
    | .error _ => some []
    | .ok entries => collect (fun e =>
        (if e.isDir then walkAdds d k (childPath path e.name) else some []).map (addOf path e :: ·))
        entries

/-- Perform calls of `add`. -/
def addAllTo (index : SearchIndex) (adds : List Add) : SearchIndex :=
  adds.foldl (fun index a => index.add alnum lower a.nodeId a.path a.name a.isDir a.size) index

theorem indexEntries_eq {visit : String → SearchIndex → Option SearchIndex}
    {adds : String → Option (List Add)}
    (hvisit : ∀ path index, visit path index = (adds path).map (addAllTo alnum lower index))
    (path : String) (entries : List DirEntry) (index : SearchIndex) :
    indexEntries alnum lower visit path entries index =
      (collect (fun e => (if e.isDir then adds (childPath path e.name) else some []).map
        (addOf path e :: ·)) entries).map (addAllTo alnum lower index) := by
  induction entries generalizing index with
  | nil => rfl
  | cons e entries ih =>
    rw [indexEntries, collect]
    split_ifs with hdir
    · rw [hvisit]
      have hpath : (addOf path e).path = childPath path e.name := rfl
      rw [hpath]
      cases adds (childPath path e.name) with
      | none => rfl
      | some l =>
        simp only [Option.map_some, Option.bind_some, Option.bind_eq_bind, ih]
        cases collect _ entries with
        | none => rfl
        | some ls => simp [addAllTo, hpath]
    · simp only [Option.map_some, Option.bind_some, Option.bind_eq_bind, ih]
      cases collect _ entries with
      | none => rfl
      | some ls => simp [addAllTo]

theorem indexDir_eq (d : Drive) (k : ℕ) (path : String) (index : SearchIndex) :
    indexDir alnum lower d k path index = (walkAdds d k path).map (addAllTo alnum lower index) := by
  induction k generalizing path index with
  | zero => rfl
  | succ k ih =>
    rw [indexDir, walkAdds]
    cases d.ls path with
    | error e => rfl
    | ok entries => exact indexEntries_eq alnum lower ih path entries index

theorem build_eq (d : Drive) (k : ℕ) :
    build alnum lower d k = (walkAdds d k "/").map (addAll alnum lower) :=
  indexDir_eq alnum lower d k "/" .new

/-! ## What the walk meets -/

end SearchIndex

namespace DriveTree

variable {t : DriveTree} {q q' : List String} {r : String}

/-- A sequence of components ends in no slash. -/
theorem rdropWhile_slash_slashed (hq : ∀ r ∈ q, IsComponent r) :
    (slashed q).rdropWhile (· = '/') = slashed q := by
  induction q using List.reverseRecOn with
  | nil => rfl
  | append_singleton q r ih =>
    have hr := hq r (by simp)
    have hne : r.toList ≠ [] := fun hnil => hr.1 (String.toList_eq_nil_iff.1 hnil)
    rw [slashed_append, slashed_singleton]
    refine List.rdropWhile_eq_self_iff.2 fun hne' => ?_
    have hmem : (slashed q ++ '/' :: r.toList).getLast hne' ∈ r.toList := by
      rw [List.getLast_append_of_ne_nil _ (List.cons_ne_nil _ _), List.getLast_cons hne]
      exact List.getLast_mem hne
    have hlast : (slashed q ++ '/' :: r.toList).getLast hne' ≠ '/' := fun heq => hr.2 (heq ▸ hmem)
    simpa using hlast

theorem toList_pathString_concat (q : List String) (r : String) :
    (pathString (q ++ [r])).toList = slashed q ++ '/' :: r.toList := by
  rw [toList_pathString (List.append_ne_nil_of_right_ne_nil q (List.cons_ne_nil r [])),
    slashed_append, slashed_singleton]

theorem joinPath_pathString (hq : ∀ r ∈ q, IsComponent r) (r : String) :
    joinPath (pathString q) r = pathString (q ++ [r]) := by
  refine String.toList_inj.1 ?_
  rw [toList_joinPath, toList_pathString_concat]
  cases q with
  | nil => rfl
  | cons x q => rw [toList_pathString (List.cons_ne_nil x q), rdropWhile_slash_slashed hq]

theorem childPath_pathString (hq : ∀ r ∈ q, IsComponent r) (r : String) :
    SearchIndex.childPath (pathString q) r = pathString (q ++ [r]) := by
  refine String.toList_inj.1 ?_
  rw [toList_pathString_concat, SearchIndex.childPath]
  have hslash : pathString [] = "/" := by decide
  cases q with
  | nil =>
    rw [if_pos hslash, String.toList_append]
    rfl
  | cons x q =>
    have hroot : pathString (x :: q) ≠ pathString [] := fun heq =>
      List.cons_ne_nil x q (pathString_injective hq (fun _ h => absurd h List.not_mem_nil) heq)
    rw [if_neg (hslash ▸ hroot), String.toList_append, String.toList_append,
      toList_pathString (List.cons_ne_nil x q)]
    simp

theorem pathBelow_eq_pathString (hq : ∀ r ∈ q, IsComponent r) : pathBelow "/" q = pathString q := by
  induction q using List.reverseRecOn with
  | nil => rfl
  | append_singleton q r ih =>
    have hq' : ∀ r ∈ q, IsComponent r := fun r hr => hq r (List.mem_append_left _ hr)
    rw [pathBelow_append, ih hq', pathBelow_cons, pathBelow_nil, joinPath_pathString hq']

end DriveTree

namespace SearchIndex

/-- The call of `add` for an entry of a walk. -/
def added (x : List String × DirEntry) : Add :=
  ⟨x.2.nodeId, DriveTree.pathString x.1, x.2.name, x.2.isDir,
    (x.2.content.map FileContent.size).getD 0⟩

/-- The call of `add` for the node listed at `q`. -/
def addAt (d : Drive) (q : List String) (n : NodeId) : Add :=
  added (q, d.entryAt q n)

variable {d : Drive} {n : NodeId} {q : List String} {k : ℕ}

theorem addOf_pathString (hq : ∀ r ∈ q, DriveTree.IsComponent r) (e : DirEntry) :
    addOf (DriveTree.pathString q) e = added (q ++ [e.name], e) := by
  rw [addOf, DriveTree.childPath_pathString hq, added]

/-- The calls are those for the entries that a walk of the listings comes to. -/
theorem walkAdds_eq (ht : d.tree.Replayed) (h : d.tree.Tidy) (hq : d.tree.ListedAt q n)
    (hdir : d.tree.IsDir n) :
    walkAdds d k (DriveTree.pathString q) = (d.walk k q).map (List.map added) := by
  induction k generalizing q n with
  | zero => rfl
  | succ k ih =>
    have hcomp := h.isComponent hq
    obtain ⟨entries, hls, -, hentry, -⟩ := DriveTree.Tidy.ls_eq ht h hq hdir
    rw [walkAdds, Drive.walk, ← DriveTree.pathBelow_eq_pathString hcomp, hls,
      DriveTree.pathBelow_eq_pathString hcomp]
    refine collect_eq_map fun e he => ?_
    obtain ⟨hlisted, hkind, -⟩ := hentry e he
    rw [addOf_pathString hcomp, DriveTree.childPath_pathString hcomp]
    split_ifs with hd
    · rw [ih hlisted (hkind.1 hd), Option.map_map, Option.map_map]
      rfl
    · rfl

/-! ## The documents of an index -/

variable {alnum lower}

/-- The document of a call. -/
def Add.doc (alnum : Char → Bool) (lower : String → String) (a : Add) : Doc :=
  docOf alnum lower a.nodeId a.path a.name a.isDir a.size

/-- If a node is always added alike, there is one document for each node added. -/
theorem mem_docs_addAll_iff {adds : List Add}
    (hadds : ∀ a ∈ adds, ∀ b ∈ adds, a.nodeId = b.nodeId → a = b) {doc : Doc} :
    doc ∈ (addAll alnum lower adds).docs ↔ ∃ a ∈ adds, doc = a.doc alnum lower := by
  induction adds using List.reverseRecOn with
  | nil => simp [addAll, SearchIndex.new]
  | append_singleton adds a ih =>
    have hold := ih fun x hx y hy => hadds x (by simp [hx]) y (by simp [hy])
    have hcons := (addAll_inv alnum lower adds).1
    have hlast : addAll alnum lower (adds ++ [a]) =
        (addAll alnum lower adds).add alnum lower a.nodeId a.path a.name a.isDir a.size := by
      rw [addAll, List.foldl_append]
      rfl
    rw [hlast, hcons.mem_add_iff, hold]
    constructor
    · rintro (rfl | ⟨⟨b, hb, rfl⟩, -⟩)
      · exact ⟨a, by simp, rfl⟩
      · exact ⟨b, by simp [hb], rfl⟩
    · rintro ⟨b, hb, rfl⟩
      by_cases hid : b.nodeId = a.nodeId
      · obtain rfl := hadds b hb a (by simp) hid
        exact Or.inl rfl
      · refine Or.inr ⟨⟨b, ?_, rfl⟩, hid⟩
        rcases List.mem_append.1 hb with hb | hb
        · exact hb
        · exact absurd (List.mem_singleton.1 hb ▸ rfl) hid

section Build

variable (ht : d.tree.Replayed) (h : d.tree.Tidy)
include ht h

/-- The index of a tidy drive is built, and has one document for each node that is listed. -/
theorem exists_build (alnum : Char → Bool) (lower : String → String)
    (hk : d.tree.edges.size < k) :
    ∃ adds, build alnum lower d k = some (addAll alnum lower adds) ∧
      ∀ doc, doc ∈ (addAll alnum lower adds).docs ↔
        ∃ q n, q ≠ [] ∧ d.tree.ListedAt q n ∧ doc = (addAt d q n).doc alnum lower := by
  have hdir : d.tree.IsDir ROOT := Or.inl rfl
  obtain ⟨l, hl⟩ := DriveTree.Tidy.exists_walk ht h (q := []) .root hdir (by simpa using hk)
  have hmem (x) := DriveTree.Tidy.mem_walk_iff (x := x) ht h (q := []) .root hdir hl
  simp only [List.nil_append] at hmem
  have hbuild : build alnum lower d k = some (addAll alnum lower (l.map added)) := by
    have hroot : DriveTree.pathString [] = "/" := by decide
    rw [build_eq, ← hroot, walkAdds_eq ht h .root hdir, hl]
    rfl
  refine ⟨_, hbuild, fun doc => ?_⟩
  have halike : ∀ a ∈ l.map added, ∀ b ∈ l.map added, a.nodeId = b.nodeId → a = b := by
    intro a ha b hb hid
    obtain ⟨x, hx, rfl⟩ := List.mem_map.1 ha
    obtain ⟨y, hy, rfl⟩ := List.mem_map.1 hb
    obtain ⟨q, n, -, hq, rfl⟩ := (hmem x).1 hx
    obtain ⟨q', n', -, hq', rfl⟩ := (hmem y).1 hy
    obtain rfl : n = n' := hid
    rw [hq.unique ht h.reserved hq']
  rw [mem_docs_addAll_iff halike]
  constructor
  · rintro ⟨a, ha, rfl⟩
    obtain ⟨x, hx, rfl⟩ := List.mem_map.1 ha
    obtain ⟨q, n, hne, hq, rfl⟩ := (hmem x).1 hx
    exact ⟨q, n, hne, hq, rfl⟩
  · rintro ⟨q, n, hne, hq, rfl⟩
    exact ⟨_, List.mem_map_of_mem ((hmem _).2 ⟨q, n, hne, hq, rfl⟩), rfl⟩

end Build

/-! ## Scopes -/

end SearchIndex

namespace DriveTree

variable {q q' : List String}

/-- The text before a slash on which `search_scoped` compares paths. -/
theorem toList_trimEndSlashes_pathString (hq : ∀ r ∈ q, IsComponent r) :
    (trimEndSlashes (pathString q)).toList = slashed q := by
  rw [trimEndSlashes, String.toList_ofList]
  cases q with
  | nil => rfl
  | cons r q => rw [toList_pathString (List.cons_ne_nil r q), rdropWhile_slash_slashed hq]

/-- Texts of paths compared as `search_scoped` does. -/
theorem slashed_prefix_iff (hq : ∀ r ∈ q, IsComponent r) (hq' : ∀ r ∈ q', IsComponent r) :
    slashed q = [] ∨ slashed q' = slashed q ∨ slashed q ++ ['/'] <+: slashed q' ↔ q <+: q' := by
  rw [slashed_within_iff (fun r hr => (hq r hr).2) fun r hr => (hq' r hr).2]
  refine or_iff_right_of_imp fun hnil => ?_
  cases q with
  | nil => exact List.nil_prefix
  | cons r q => cases hnil

end DriveTree

namespace SearchIndex

variable {alnum : Char → Bool} {lower : String → String} {d : Drive} {k : ℕ} {index : SearchIndex}

/-- Every hit of a tidy drive's index is a listed node, at its path. -/
theorem exists_of_mem_search (ht : d.tree.Replayed) (h : d.tree.Tidy)
    (hk : d.tree.edges.size < k) (hb : build alnum lower d k = some index) {query : String}
    {x : SearchHit} (hx : x ∈ index.search alnum lower query 0) : ∃ q n score, q ≠ [] ∧
      d.tree.ListedAt q n ∧ x = hit ((addAt d q n).doc alnum lower) score := by
  obtain ⟨adds, hbuild, hdocs⟩ := exists_build ht h alnum lower hk
  obtain rfl := Option.some_injective _ (hb.symm.trans hbuild)
  obtain ⟨-, i, n, doc, -, hdoc, rfl⟩ := mem_search_iff.1 hx
  obtain ⟨q, m, hne, hq, rfl⟩ := (hdocs doc).1 (List.mem_of_getElem? hdoc)
  exact ⟨q, m, _, hne, hq, rfl⟩

/-- No node is a hit twice. -/
theorem Consistent.nodup_nodeId_search (h : index.Consistent) (query : String) :
    ((index.search alnum lower query 0).map SearchHit.nodeId).Nodup := by
  refine List.Nodup.map_on (fun x hx y hy hid => ?_) (h.nodup_search query)
  obtain ⟨-, i, n, doc, hn, hdoc, rfl⟩ := mem_search_iff.1 hx
  obtain ⟨-, j, m, doc', hm, hdoc', rfl⟩ := mem_search_iff.1 hy
  obtain rfl := h.index_eq hdoc hdoc' hid
  obtain rfl := Option.some_injective _ (hdoc.symm.trans hdoc')
  rw [Option.some_injective _ (hn.symm.trans hm)]

/-- The search of a tidy drive : the walk ends, no node is a hit twice, the path of a hit
resolves to its node, and the hits are the listed nodes whose name or path shares a word, or
three characters of one, with the query. -/
theorem search_build_iff (hd : d.Reachable) (h : d.tree.Tidy) (hk : d.tree.edges.size < k)
    (query : String) : ∃ index, build alnum lower d k = some index ∧
      ((index.search alnum lower query 0).map SearchHit.nodeId).Nodup ∧
      (∀ x ∈ index.search alnum lower query 0, d.tree.resolve x.path = some x.nodeId ∧
        ∃ q n score, d.tree.ListedAt q n ∧ x = hit ((addAt d q n).doc alnum lower) score) ∧
      ∀ q n, q ≠ [] → d.tree.ListedAt q n →
        ((∃ x ∈ index.search alnum lower query 0, x.nodeId = n) ↔ lower (trim query) ≠ "" ∧
          SharesWord alnum lower ((addAt d q n).doc alnum lower) (lower (trim query))) := by
  have ht := hd.inv.replayed
  obtain ⟨adds, hbuild, hdocs⟩ := exists_build ht h alnum lower hk
  obtain ⟨hcons, hwords⟩ := addAll_inv alnum lower adds
  have hhits {x : SearchHit} (hx : x ∈ (addAll alnum lower adds).search alnum lower query 0) :=
    exists_of_mem_search ht h hk hbuild hx
  refine ⟨_, hbuild, hcons.nodup_nodeId_search query, fun x hx => ?_, fun q n hne hq => ?_⟩
  · obtain ⟨q, n, score, -, hq, rfl⟩ := hhits hx
    refine ⟨?_, q, n, score, hq, rfl⟩
    have hres := h.resolve_of_listedAt hq
    rwa [DriveTree.pathBelow_eq_pathString (h.isComponent hq)] at hres
  · have hmem := (hdocs _).2 ⟨q, n, hne, hq, rfl⟩
    rw [← meets_iff_sharesWord (hcons.docs _ hmem) (hwords _ hmem), ← hcons.exists_hit_iff hmem]
    constructor
    · rintro ⟨x, hx, rfl⟩
      obtain ⟨q', n', score, -, hq', rfl⟩ := hhits hx
      obtain rfl := hq.unique ht h.reserved hq'
      exact ⟨score, hx⟩
    · rintro ⟨score, hx⟩
      exact ⟨_, hx, rfl⟩

/-- The drive with one file, `/f`. -/
theorem exists_tidy_file : ∃ (d : Drive) (n : NodeId), d.Reachable ∧ d.tree.Tidy ∧
    d.tree.edges.size < 2 ∧ d.tree.ListedAt ["f"] n := by
  obtain ⟨d, hd, hrun, htidy, -⟩ := Drive.exists_addedFile Drive.spellStore ⟨[66], 0o644, 200⟩
  have hok : ((Drive.init "d" "a").performAll
      [.exec 0 (.addFile "/" "f" (.new "A" 1 0o644 100))]).any (fun d =>
        d.tree.edges.size < 2 && (d.tree.resolve "/f").isSome) = true := by
    decide +kernel
  rw [hrun, Option.any_some, Bool.and_eq_true_iff, decide_eq_true_iff] at hok
  obtain ⟨n, hn⟩ := Option.isSome_iff_exists.1 hok.2
  have hpath : pathBelow "/" ["f"] = "/f" := by decide
  have hcomp : ∀ r ∈ ["f"], DriveTree.IsComponent r :=
    List.forall_mem_singleton.2 ⟨by decide, by decide⟩
  exact ⟨d, n, hd, htidy, hok.1, (htidy.resolve_pathBelow hcomp).1 (hpath ▸ hn)⟩

/-- A search for `f` finds the one file. -/
theorem search_build_iff_file : ∃ (d : Drive) (n : NodeId) (index : SearchIndex),
    build Char.isAlphanum String.toLower d 2 = some index ∧
      ∃ x ∈ index.search Char.isAlphanum String.toLower "F" 0,
        x.nodeId = n ∧ d.tree.resolve x.path = some n := by
  obtain ⟨d, n, hd, h, hk, hn⟩ := exists_tidy_file
  obtain ⟨index, hbuild, -, hpath, hiff⟩ := search_build_iff hd h hk "F"
  have hword : String.toLower (trim "F") ≠ "" ∧ SharesWord Char.isAlphanum String.toLower
      ((addAt d ["f"] n).doc Char.isAlphanum String.toLower) (String.toLower (trim "F")) := by
    have hname : "f" ∈ tokenize Char.isAlphanum String.toLower "f" := by decide +kernel
    exact ⟨by decide +kernel, "f", by decide +kernel, "f", List.mem_append_left _ hname, Or.inl rfl⟩
  obtain ⟨x, hx, rfl⟩ := (hiff ["f"] n (List.cons_ne_nil _ _) hn).2 hword
  exact ⟨d, x.nodeId, index, hbuild, x, hx, rfl, (hpath x hx).1⟩

/-- A scoped search of a tidy drive finds what lies at or below the scope in the tree. -/
theorem search_scoped_eq (hd : d.Reachable) (h : d.tree.Tidy) (hk : d.tree.edges.size < k)
    (hb : build alnum lower d k = some index) {q : List String} {top : NodeId}
    (hq : d.tree.ListedAt q top) {scope : String}
    (hscope : trimEndSlashes scope = trimEndSlashes (DriveTree.pathString q))
    (query : String) (limit : ℕ) : index.searchScoped alnum lower query scope limit =
      let hits := (index.search alnum lower query 0).filter fun x => d.tree.isAncestor top x.nodeId
      if limit = 0 then hits else hits.take limit := by
  have ht := hd.inv.replayed
  have htrim : (if scope = "/" then "" else trimEndSlashes scope) = trimEndSlashes scope := by
    split_ifs with hroot
    · rw [hroot]
      decide
    · rfl
  have hcomp := h.isComponent hq
  have htext := DriveTree.toList_trimEndSlashes_pathString hcomp
  have hhits : (index.search alnum lower query 0).filter (fun x => trimEndSlashes scope = "" ∨
        x.path = trimEndSlashes scope ∨
          (trimEndSlashes scope ++ "/").toList <+: x.path.toList) =
      (index.search alnum lower query 0).filter fun x => d.tree.isAncestor top x.nodeId := by
    refine List.filter_congr fun x hx => ?_
    obtain ⟨q', n, score, hne, hq', rfl⟩ := exists_of_mem_search ht h hk hb hx
    refine Bool.eq_iff_iff.2 ?_
    have hpath : (hit ((addAt d q' n).doc alnum lower) score).path = DriveTree.pathString q' := rfl
    have hslash : "/".toList = ['/'] := by decide
    rw [decide_eq_true_iff, hscope, hpath, ← String.toList_inj, ← String.toList_inj,
      String.toList_append, htext, DriveTree.toList_pathString hne, hslash, String.toList_empty,
      DriveTree.slashed_prefix_iff hcomp (h.isComponent hq'), ht.grounded.isAncestor_iff]
    exact (ht.reaches_iff_prefix (h.resolveFrom_eq_some.2 hq) (h.resolveFrom_eq_some.2 hq')).symm
  rw [searchScoped, htrim]
  simp only [hhits]

/-- A search of the file itself. -/
theorem search_scoped_eq_file : ∃ (d : Drive) (n : NodeId) (index : SearchIndex),
    build Char.isAlphanum String.toLower d 2 = some index ∧ d.tree.ListedAt ["f"] n ∧
      index.searchScoped Char.isAlphanum String.toLower "F" "/f/" 1 =
        ((index.search Char.isAlphanum String.toLower "F" 0).filter fun x =>
          d.tree.isAncestor n x.nodeId).take 1 := by
  obtain ⟨d, n, hd, h, hk, hn⟩ := exists_tidy_file
  obtain ⟨adds, hbuild, -⟩ := exists_build hd.inv.replayed h Char.isAlphanum String.toLower hk
  exact ⟨d, n, _, hbuild, hn, search_scoped_eq hd h hk hbuild hn (by decide) "F" 1⟩

end SearchIndex

end CeDrive
