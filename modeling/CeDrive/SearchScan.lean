import CeDrive.Search

/-!
# Searching and scanning

`crates/ce-drive-core/src/search.rs`. The index appends the postings of a new document and
posts all documents again when one is replaced or gets a text. Either way every posting list
has the documents with its word or run, once each, and a search through the postings is a scan
of the documents for those that share a word or a run with the query (`index_eq_scan`). Hence a
search finds the nodes whose last `add` and texts since do (`mem_search_performAll_iff`).

The points are sums of quarters, which an `f32` holds exactly up to 2^22.
-/

open Postings
open Std (ExtTreeMap)

namespace CeDrive

namespace SearchIndex

variable (alnum : Char → Bool) (lower : String → String)

/-- A call that changes the index. -/
inductive Call
  | add (nodeId path name : String) (isDir : Bool) (size : ℕ)
  | addText (nodeId text : String)

def perform (index : SearchIndex) : Call → SearchIndex
  | .add nodeId path name isDir size => index.add alnum lower nodeId path name isDir size
  | .addText nodeId text => (index.addText alnum lower nodeId text).2

/-- The index after calls on an empty one. -/
def performAll (calls : List Call) : SearchIndex :=
  calls.foldl (perform alnum lower) .new

theorem consistent_performAll (calls : List Call) : (performAll alnum lower calls).Consistent := by
  induction calls using List.reverseRecOn with
  | nil => exact .new
  | append_singleton calls call ih =>
    rw [performAll, List.foldl_append, ← performAll, List.foldl_cons, List.foldl_nil]
    cases call with
    | add nodeId path name isDir size => exact ih.add nodeId path name isDir size
    | addText nodeId text => exact ih.addText nodeId text

/-! ## The postings -/

variable {alnum lower} {index : SearchIndex} {doc : Doc} {q : String}

theorem Consistent.count_byToken (h : index.Consistent) (t : String) (i : ℕ) :
    (posted index.byToken t).count i =
      if index.docs[i]?.any (fun doc => t ∈ doc.tokens) then 1 else 0 := by
  rw [h.byToken.count_posted, List.getElem?_map, Option.any_map]

theorem Consistent.count_byTrigram (h : index.Consistent) (g : String) (i : ℕ) :
    (posted index.byTrigram g).count i =
      if index.docs[i]?.any (fun doc => g ∈ doc.trigrams) then 1 else 0 := by
  rw [h.byTrigram.count_posted, List.getElem?_map, Option.any_map]

/-! ## Points -/

/-- The points of a document are the sum of those it was given. -/
theorem getD_foldl_bump (ps : List (ℕ × ℕ)) (score : ExtTreeMap ℕ ℕ) (i : ℕ) :
    ((ps.foldl bump score)[i]?).getD 0 =
      (score[i]?).getD 0 + ((ps.filter fun p => p.1 = i).map Prod.snd).sum := by
  induction ps generalizing score with
  | nil => rfl
  | cons p ps ih =>
    rw [List.foldl_cons, ih, bump, ExtTreeMap.getElem?_insert]
    by_cases hp : p.1 = i
    · rw [List.filter_cons_of_pos (by simpa using hp), if_pos (Nat.compare_eq_eq.2 hp), hp]
      simp [add_assoc]
    · rw [List.filter_cons_of_neg (by simpa using hp), if_neg (mt Nat.compare_eq_eq.1 hp)]

theorem sum_filter_fst (is : List ℕ) (w i : ℕ) :
    (((is.map fun j => (j, w)).filter fun p => p.1 = i).map Prod.snd).sum = w * is.count i := by
  induction is with
  | nil => rfl
  | cons j is ih =>
    rw [List.map_cons]
    by_cases hj : j = i
    · rw [List.filter_cons_of_pos (by simpa using hj), List.map_cons, List.sum_cons, ih, hj,
        List.count_cons_self, Nat.mul_succ, add_comm]
    · rw [List.filter_cons_of_neg (by simpa using hj), ih, List.count_cons_of_ne hj]

/-- Keys whose lists have `i` once or not at all give it points for the former. -/
theorem sum_postings {keys : List String} {m : Index String} {i : ℕ} (w : ℕ) (has : String → Bool)
    (h : ∀ k, (posted m k).count i = if has k then 1 else 0) :
    (((keys.flatMap fun k => (posted m k).map fun j => (j, w)).filter fun p => p.1 = i).map
      Prod.snd).sum = w * keys.countP has := by
  induction keys with
  | nil => rfl
  | cons k keys ih =>
    rw [List.flatMap_cons, List.filter_append, List.map_append, List.sum_append, ih,
      sum_filter_fst, h k, List.countP_cons, Nat.mul_add, add_comm]

/-- What a scan counts : twice the words of the query that the document has, and a quarter of
their runs. -/
def points (alnum : Char → Bool) (lower : String → String) (doc : Doc) (q : String) : ℕ :=
  8 * (tokenize alnum lower q).countP (fun w => w ∈ doc.tokens) +
    (extend [] ((tokenize alnum lower q).flatMap trigramsOf)).countP fun g => g ∈ doc.trigrams

variable (alnum lower) in
theorem Consistent.getD_candidates (h : index.Consistent) {i : ℕ}
    (hdoc : index.docs[i]? = some doc) (q : String) :
    (((index.candidates alnum lower q).foldl bump ∅)[i]?).getD 0 = points alnum lower doc q := by
  have hwords : ∀ w, (posted index.byToken w).count i = if w ∈ doc.tokens then 1 else 0 := by
    simp [h.count_byToken, hdoc]
  have hruns : ∀ g, (posted index.byTrigram g).count i = if g ∈ doc.trigrams then 1 else 0 := by
    simp [h.count_byTrigram, hdoc]
  rw [getD_foldl_bump, candidates, List.filter_append, List.map_append, List.sum_append,
    sum_postings 8 (fun w => w ∈ doc.tokens) (by simpa using hwords),
    sum_postings 1 (fun g => g ∈ doc.trigrams) (by simpa using hruns)]
  simp [points]

/-- The points of a document that meets the query are those it counts. -/
theorem Consistent.getElem?_candidates_iff (h : index.Consistent) {i n : ℕ} :
    ((index.candidates alnum lower q).foldl bump ∅)[i]? = some n ↔ ∃ doc,
      index.docs[i]? = some doc ∧ Meets alnum lower doc q ∧ n = points alnum lower doc q := by
  have hsome : (((index.candidates alnum lower q).foldl bump ∅)[i]?).isSome ↔
      ∃ doc, index.docs[i]? = some doc ∧ Meets alnum lower doc q := by
    rw [getElem?_foldl_bump, ← h.mem_candidates_iff]
    simp
  constructor
  · intro hn
    obtain ⟨doc, hdoc, hmeets⟩ := hsome.1 (hn ▸ rfl)
    have hpoints := h.getD_candidates alnum lower hdoc q
    rw [hn] at hpoints
    exact ⟨doc, hdoc, hmeets, hpoints⟩
  · rintro ⟨doc, hdoc, hmeets, rfl⟩
    obtain ⟨n, hn⟩ := Option.isSome_iff_exists.1 (hsome.2 ⟨doc, hdoc, hmeets⟩)
    have hpoints := h.getD_candidates alnum lower hdoc q
    rw [hn] at hpoints
    exact hn.trans (congrArg some hpoints)

/-! ## The scan -/

instance (alnum : Char → Bool) (lower : String → String) (doc : Doc) (q : String) :
    Decidable (Meets alnum lower doc q) :=
  inferInstanceAs (Decidable (∃ w ∈ tokenize alnum lower q,
    w ∈ doc.tokens ∨ ∃ g ∈ trigramsOf w, g ∈ doc.trigrams))

/-- The documents that share a word or a run of characters with a query. -/
def scan (alnum : Char → Bool) (lower : String → String) (index : SearchIndex) (query : String) :
    List Doc :=
  index.docs.filter fun doc => Meets alnum lower doc (lower (trim query))

theorem not_meets_empty : ¬Meets alnum lower doc "" := by
  rintro ⟨w, hw, -⟩
  simp [tokenize] at hw

theorem Consistent.index_eq (h : index.Consistent) {i j : ℕ} {d d' : Doc}
    (hi : index.docs[i]? = some d) (hj : index.docs[j]? = some d') (hid : d.nodeId = d'.nodeId) :
    i = j := by
  have hlt : i < (index.docs.map Doc.nodeId).length := by
    simpa using (List.getElem?_eq_some_iff.1 hi).1
  refine (List.getElem?_inj hlt h.ids).1 ?_
  rw [List.getElem?_map, List.getElem?_map, hi, hj, Option.map_some, Option.map_some, hid]

/-- No node has two hits. -/
theorem Consistent.nodup_search (h : index.Consistent) (query : String) :
    (index.search alnum lower query 0).Nodup := by
  unfold search
  dsimp only
  split_ifs with hq hlimit
  · exact List.nodup_nil
  · exact absurd rfl hlimit
  · rw [(List.mergeSort_perm _ _).nodup_iff]
    refine List.Nodup.filter _ (List.pairwise_filterMap.2 ?_)
    refine ExtTreeMap.distinct_keys_toList.imp fun hne x hx y hy => ?_
    obtain ⟨d, hd, rfl⟩ := Option.map_eq_some_iff.1 hx
    obtain ⟨d', hd', rfl⟩ := Option.map_eq_some_iff.1 hy
    refine fun heq => hne (Nat.compare_eq_eq.2 ?_)
    have hid : d.nodeId = d'.nodeId := congrArg SearchHit.nodeId heq
    exact h.index_eq hd hd' hid

theorem Consistent.search_perm_scan (h : index.Consistent) (query : String) :
    (index.search alnum lower query 0).Perm ((scan alnum lower index query).map fun doc =>
      hit doc (points alnum lower doc (lower (trim query)) +
        boost lower doc (lower (trim query)))) := by
  have hscan : (scan alnum lower index query).Nodup := by
    exact List.Nodup.filter _ (List.Nodup.of_map _ h.ids)
  refine (List.perm_ext_iff_of_nodup (h.nodup_search query) ?_).2 fun x => ?_
  · refine List.Nodup.map_on (fun d hd d' hd' heq => ?_) hscan
    exact h.eq_of_nodeId (List.mem_of_mem_filter hd) (List.mem_of_mem_filter hd')
      (congrArg SearchHit.nodeId heq)
  · rw [mem_search_iff]
    simp only [h.getElem?_candidates_iff, scan, List.mem_map, List.mem_filter, decide_eq_true_eq]
    constructor
    · rintro ⟨-, i, n, doc, ⟨d, hd, hmeets, rfl⟩, hdoc, rfl⟩
      obtain rfl := Option.some_injective _ (hd.symm.trans hdoc)
      exact ⟨d, ⟨List.mem_of_getElem? hd, hmeets⟩, rfl⟩
    · rintro ⟨doc, ⟨hdoc, hmeets⟩, rfl⟩
      obtain ⟨i, hi⟩ := List.mem_iff_getElem?.1 hdoc
      exact ⟨fun hq => not_meets_empty (hq ▸ hmeets), i, _, doc, ⟨doc, hi, hmeets, rfl⟩, hi, rfl⟩

/-- The index equals a scan. After any calls, each posting list has exactly the documents with
its word or run, once each, and the hits of a search are the documents that share a word or a
run with the query, one hit each. -/
theorem index_eq_scan (alnum : Char → Bool) (lower : String → String) (calls : List Call) :
    let index := performAll alnum lower calls
    (∀ t i, (posted index.byToken t).count i =
        if index.docs[i]?.any (fun doc => t ∈ doc.tokens) then 1 else 0) ∧
      (∀ g i, (posted index.byTrigram g).count i =
        if index.docs[i]?.any (fun doc => g ∈ doc.trigrams) then 1 else 0) ∧
      ∀ query, ∃ score : Doc → ℕ, (index.search alnum lower query 0).Perm
        ((scan alnum lower index query).map fun doc => hit doc (score doc)) := by
  intro index
  have hinv := consistent_performAll alnum lower calls
  exact ⟨hinv.count_byToken, hinv.count_byTrigram, fun query => ⟨_, hinv.search_perm_scan query⟩⟩

/-! ## What is indexed -/

/-- What a node is indexed with : its last `add`, and the texts since. -/
structure Entry where
  path : String
  name : String
  isDir : Bool
  size : ℕ
  texts : List String

/-- The words of an entry. -/
def Entry.words (alnum : Char → Bool) (lower : String → String) (e : Entry) : List String :=
  tokenize alnum lower e.name ++ tokenize alnum lower e.path ++
    e.texts.flatMap (tokenize alnum lower)

/-- The entries after a call. A text for a node without one is dropped. -/
def enter (entries : String → Option Entry) : Call → String → Option Entry
  | .add nodeId path name isDir size =>
    Function.update entries nodeId (some ⟨path, name, isDir, size, []⟩)
  | .addText nodeId text =>
    Function.update entries nodeId ((entries nodeId).map fun e =>
      { e with texts := e.texts ++ [text] })

def enterAll (calls : List Call) : String → Option Entry :=
  calls.foldl enter fun _ => none

/-- A document is that of an entry. -/
structure Doc.Shows (alnum : Char → Bool) (lower : String → String) (doc : Doc) (e : Entry) :
    Prop where
  path : doc.path = e.path
  name : doc.name = e.name
  isDir : doc.isDir = e.isDir
  size : doc.size = e.size
  words : ∀ t, t ∈ doc.tokens ↔ t ∈ e.words alnum lower

/-- The documents of the index are those of the entries. -/
structure Shows (alnum : Char → Bool) (lower : String → String) (index : SearchIndex)
    (entries : String → Option Entry) : Prop where
  sound : ∀ doc ∈ index.docs, ∃ e, entries doc.nodeId = some e ∧ Doc.Shows alnum lower doc e
  complete : ∀ nodeId e, entries nodeId = some e → ∃ doc ∈ index.docs, doc.nodeId = nodeId

variable {entries : String → Option Entry} {nodeId path name text : String} {isDir : Bool} {size : ℕ}

theorem shows_docOf : Doc.Shows alnum lower (docOf alnum lower nodeId path name isDir size)
    ⟨path, name, isDir, size, []⟩ :=
  ⟨rfl, rfl, rfl, rfl, by simp [docOf, mem_extend, Entry.words]⟩

/-- A change of the document at a place is one of the documents with its node id. -/
theorem Consistent.modify_eq_map (h : index.Consistent) {i : ℕ} {d : Doc}
    (hi : index.docs[i]? = some d) (f : Doc → Doc) :
    index.docs.modify i f = index.docs.map fun x => if x.nodeId = d.nodeId then f x else x := by
  refine List.ext_getElem? fun j => ?_
  rw [List.getElem?_modify, List.getElem?_map]
  cases hj : index.docs[j]? with
  | none => rfl
  | some x =>
    have hiff : i = j ↔ x.nodeId = d.nodeId := by
      refine ⟨?_, fun hid => h.index_eq hi hj hid.symm⟩
      rintro rfl
      rw [Option.some_injective _ (hi.symm.trans hj)]
    simp [hiff]

/-- After an `add` a node has the new document, and the other nodes have theirs. -/
theorem Consistent.mem_add_iff (h : index.Consistent) {x : Doc} :
    x ∈ (index.add alnum lower nodeId path name isDir size).docs ↔
      x = docOf alnum lower nodeId path name isDir size ∨ x ∈ index.docs ∧ x.nodeId ≠ nodeId := by
  obtain ⟨doc, hdoc, ⟨i, d, hi, hid, heq⟩ | ⟨hnone, heq⟩⟩ :=
    add_cases alnum lower index nodeId path name isDir size
  · obtain rfl : doc.nodeId = nodeId := hdoc ▸ rfl
    have hmem := List.mem_of_getElem? hi
    rw [heq, hdoc]
    simp only [reindex, List.set_eq_modify, h.modify_eq_map hi, hid, List.mem_map]
    constructor
    · rintro ⟨y, hy, rfl⟩
      split_ifs with hyid
      · exact Or.inl rfl
      · exact Or.inr ⟨hy, hyid⟩
    · rintro (rfl | ⟨hx, hne⟩)
      · exact ⟨d, hmem, if_pos hid⟩
      · exact ⟨x, hx, if_neg hne⟩
  · obtain rfl : doc.nodeId = nodeId := hdoc ▸ rfl
    rw [heq, hdoc, docs_reindexLast]
    simp only [List.mem_append, List.mem_singleton]
    rw [or_comm]
    exact or_congr_right ⟨fun hx => ⟨hx, hnone x hx⟩, And.left⟩

theorem Shows.add (hinv : index.Consistent) (h : Shows alnum lower index entries)
    (nodeId path name : String) (isDir : Bool) (size : ℕ) :
    Shows alnum lower (index.add alnum lower nodeId path name isDir size)
      (enter entries (.add nodeId path name isDir size)) where
  sound x hx := by
    rcases hinv.mem_add_iff.1 hx with rfl | ⟨hx, hne⟩
    · exact ⟨_, Function.update_self .., shows_docOf⟩
    · obtain ⟨e, he, hshows⟩ := h.sound x hx
      exact ⟨e, (Function.update_of_ne hne ..).trans he, hshows⟩
  complete id e he := by
    by_cases hid : id = nodeId
    · exact ⟨_, hinv.mem_add_iff.2 (Or.inl rfl), hid.symm⟩
    · obtain ⟨x, hx, rfl⟩ := h.complete id e ((Function.update_of_ne hid ..).symm.trans he)
      exact ⟨x, hinv.mem_add_iff.2 (Or.inr ⟨hx, hid⟩), rfl⟩

/-- A document with the words of a text. -/
def withText (alnum : Char → Bool) (lower : String → String) (text : String) (d : Doc) : Doc :=
  { d with
    tokens := extend d.tokens (tokenize alnum lower text)
    trigrams := extend d.trigrams ((tokenize alnum lower text).flatMap trigramsOf) }

/-- A text goes to the document of its node. -/
theorem Consistent.docs_addText (h : index.Consistent) (nodeId text : String) :
    (index.addText alnum lower nodeId text).2.docs = index.docs.map fun x =>
      if x.nodeId = nodeId then withText alnum lower text x else x := by
  unfold SearchIndex.addText
  cases hfind : index.docs.findIdx? fun d => d.nodeId = nodeId with
  | some i =>
    obtain ⟨hi, hid, -⟩ := List.findIdx?_eq_some_iff_getElem.1 hfind
    obtain rfl : index.docs[i].nodeId = nodeId := of_decide_eq_true hid
    exact h.modify_eq_map (List.getElem?_eq_getElem hi) (withText alnum lower text)
  | none =>
    rw [List.findIdx?_eq_none_iff] at hfind
    refine ((List.map_congr_left fun x hx => ?_).trans (List.map_id _)).symm
    exact if_neg (of_decide_eq_false (hfind x hx))

theorem Doc.Shows.withText {e : Entry} (h : Doc.Shows alnum lower doc e) (text : String) :
    Doc.Shows alnum lower (SearchIndex.withText alnum lower text doc)
      { e with texts := e.texts ++ [text] } where
  path := h.path
  name := h.name
  isDir := h.isDir
  size := h.size
  words t := by
    have hwords := h.words t
    simp only [Entry.words, List.mem_append, List.flatMap_append] at hwords ⊢
    simp only [SearchIndex.withText, mem_extend, hwords, List.flatMap_singleton, or_assoc]

theorem Shows.addText (hinv : index.Consistent) (h : Shows alnum lower index entries)
    (nodeId text : String) :
    Shows alnum lower (index.addText alnum lower nodeId text).2
      (enter entries (.addText nodeId text)) where
  sound x hx := by
    rw [hinv.docs_addText] at hx
    obtain ⟨y, hy, rfl⟩ := List.mem_map.1 hx
    obtain ⟨e, he, hshows⟩ := h.sound y hy
    by_cases hid : y.nodeId = nodeId
    · rw [if_pos hid]
      refine ⟨_, ?_, hshows.withText text⟩
      subst hid
      simp [enter, SearchIndex.withText, he]
    · rw [if_neg hid]
      exact ⟨e, (Function.update_of_ne hid ..).trans he, hshows⟩
  complete id e he := by
    have hold : ∃ e, entries id = some e := by
      by_cases hid : id = nodeId
      · subst hid
        simp only [enter, Function.update_self, Option.map_eq_some_iff] at he
        obtain ⟨e, he, -⟩ := he
        exact ⟨e, he⟩
      · exact ⟨e, (Function.update_of_ne hid ..).symm.trans he⟩
    obtain ⟨e, he⟩ := hold
    obtain ⟨y, hy, rfl⟩ := h.complete id e he
    refine ⟨_, hinv.docs_addText nodeId text ▸ List.mem_map_of_mem hy, ?_⟩
    split_ifs <;> rfl

theorem shows_performAll (alnum : Char → Bool) (lower : String → String) (calls : List Call) :
    Shows alnum lower (performAll alnum lower calls) (enterAll calls) := by
  induction calls using List.reverseRecOn with
  | nil => exact ⟨nofun, nofun⟩
  | append_singleton calls call ih =>
    have hinv := consistent_performAll alnum lower calls
    rw [performAll, enterAll, List.foldl_append, List.foldl_append, ← performAll, ← enterAll]
    cases call with
    | add nodeId path name isDir size => exact ih.add hinv nodeId path name isDir size
    | addText nodeId text => exact ih.addText hinv nodeId text

/-- What a search finds : the nodes whose last `add` and texts since have a word of the query, or
three characters in a row of one. -/
theorem mem_search_performAll_iff (calls : List Call) (query nodeId : String) :
    (∃ x ∈ (performAll alnum lower calls).search alnum lower query 0, x.nodeId = nodeId) ↔
      ∃ e, enterAll calls nodeId = some e ∧
        ∃ w ∈ tokenize alnum lower (lower (trim query)), ∃ t ∈ e.words alnum lower,
          w = t ∨ ∃ g : List Char, g.length = 3 ∧ g <:+: w.toList ∧ g <:+: t.toList := by
  have hinv := consistent_performAll alnum lower calls
  have hshows := shows_performAll alnum lower calls
  have hscan : (∃ x ∈ (performAll alnum lower calls).search alnum lower query 0,
      x.nodeId = nodeId) ↔ ∃ doc ∈ (performAll alnum lower calls).docs,
        Meets alnum lower doc (lower (trim query)) ∧ doc.nodeId = nodeId := by
    simp only [(hinv.search_perm_scan query).mem_iff, scan, List.mem_map, List.mem_filter]
    constructor
    · rintro ⟨_, ⟨doc, ⟨hdoc, hmeets⟩, rfl⟩, hid⟩
      exact ⟨doc, hdoc, of_decide_eq_true hmeets, hid⟩
    · rintro ⟨doc, hdoc, hmeets, hid⟩
      exact ⟨_, ⟨doc, ⟨hdoc, decide_eq_true hmeets⟩, rfl⟩, hid⟩
  rw [hscan]
  constructor
  · rintro ⟨doc, hdoc, hmeets, rfl⟩
    obtain ⟨e, he, hs⟩ := hshows.sound doc hdoc
    rw [meets_iff (hinv.docs doc hdoc)] at hmeets
    simp only [hs.words] at hmeets
    exact ⟨e, he, hmeets⟩
  · rintro ⟨e, he, hmeets⟩
    obtain ⟨doc, hdoc, rfl⟩ := hshows.complete nodeId e he
    obtain ⟨e', he', hs⟩ := hshows.sound doc hdoc
    obtain rfl := Option.some_injective _ (he.symm.trans he')
    simp only [← hs.words] at hmeets
    exact ⟨doc, hdoc, (meets_iff (hinv.docs doc hdoc)).2 hmeets, rfl⟩

end SearchIndex

end CeDrive
