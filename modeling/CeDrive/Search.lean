import CeDrive.Postings
import CeDrive.Scopes

/-!
# Search

`crates/ce-drive-core/src/search.rs`. The index posts each document under the words of its
name and path, and under the runs of three characters in them. A search finds its candidates
by these alone, and looks for the query in their names only to rank them. So a document whose
name contains the query is found if and only if a word of the query is one of its words, or
has three characters in a row in common with one (`search_complete_iff`).

`char::is_alphanumeric` and `str::to_lowercase` are parameters. Scores count quarters, and the
order of hits that compare equal is not modelled.
-/

open Postings
open Std (ExtTreeMap)

namespace CeDrive

/-- One search result. -/
structure SearchHit where
  nodeId : String
  path : String
  name : String
  isDir : Bool
  size : ℕ
  score : ℕ
  deriving DecidableEq

/-- One indexed document. -/
structure Doc where
  nodeId : String
  path : String
  name : String
  isDir : Bool
  size : ℕ
  /-- The lowercased words of name and path, and of the text added. -/
  tokens : List String
  trigrams : List String

structure SearchIndex where
  docs : List Doc
  byToken : Index String
  byTrigram : Index String

/-! ## Words -/

section Pieces

variable {α β : Type*} {p : α → Bool} {l r : List α}

/-- A run without separators is within a piece. -/
theorem exists_piece (hr : r <:+: l) (hfree : ∀ c ∈ r, p c = false) :
    ∃ t ∈ l.splitOnP p, r <:+: t := by
  induction hn : l.length using Nat.strong_induction_on generalizing l with
  | _ n ih =>
    obtain ⟨-, heq⟩ | ⟨a, c, b, rfl, hc, heq⟩ := splitOnP_cases p l
    · exact ⟨l, heq ▸ List.mem_singleton_self l, hr⟩
    · rw [List.length_append, List.length_cons] at hn
      have hside : r <:+: a ∨ r <:+: b := by
        rcases List.infix_append_iff.1 hr with h | h | ⟨r₁, r₂, rfl, h₁, h₂⟩
        · exact Or.inl h
        · rcases List.infix_cons_iff.1 h with h | h
          · rcases List.prefix_cons_iff.1 h with rfl | ⟨t, rfl, -⟩
            · exact Or.inr List.nil_infix
            · exact absurd hc (Bool.eq_false_iff.1 (hfree c List.mem_cons_self))
          · exact Or.inr h
        · rcases List.prefix_cons_iff.1 h₂ with rfl | ⟨t, rfl, -⟩
          · exact Or.inl ((List.append_nil r₁).symm ▸ h₁.isInfix)
          · exact absurd hc (Bool.eq_false_iff.1 (hfree c (by simp)))
      rw [heq]
      rcases hside with h | h
      · obtain ⟨t, ht, hrt⟩ := ih a.length (by omega) h rfl
        exact ⟨t, List.mem_append_left _ ht, hrt⟩
      · obtain ⟨t, ht, hrt⟩ := ih b.length (by omega) h rfl
        exact ⟨t, List.mem_append_right _ ht, hrt⟩

theorem splitOnP_map (p : β → Bool) (f : α → β) (l : List α) :
    (l.map f).splitOnP p = (l.splitOnP fun c => p (f c)).map (List.map f) := by
  induction l with
  | nil => rfl
  | cons c l ih =>
    rw [List.map_cons, List.splitOnP_cons_eq_if_modifyHead, List.splitOnP_cons_eq_if_modifyHead, ih]
    obtain ⟨t, ts, ht⟩ := List.exists_cons_of_ne_nil (List.splitOnP_ne_nil (fun c => p (f c)) l)
    rw [ht]
    split_ifs <;> rfl

end Pieces

section Words

variable (alnum : Char → Bool) (lower : String → String)

/-- Split at what is not alphanumeric, and lowercase the words. -/
def tokenize (s : String) : List String :=
  ((s.toList.splitOnP fun c => !alnum c).filter fun t => t ≠ []).map fun t =>
    lower (String.ofList t)

/-- The runs of three characters of a word. A shorter word is its own. -/
def trigramsOf (token : String) : List String :=
  let chars := token.toList
  if chars.length < 3 then [token]
  else (List.range (chars.length - 2)).map fun i => String.ofList ((chars.drop i).take 3)

/-- `HashSet::extend`. -/
def extend (set : List String) (xs : List String) : List String :=
  xs.foldl (fun set x => set.insert x) set

theorem mem_extend {set xs : List String} {x : String} :
    x ∈ extend set xs ↔ x ∈ set ∨ x ∈ xs := by
  induction xs generalizing set with
  | nil => simp [extend]
  | cons y xs ih =>
    have hrest : extend set (y :: xs) = extend (set.insert y) xs := rfl
    rw [hrest, ih, List.mem_insert_iff, List.mem_cons]
    tauto

theorem nodup_extend {set : List String} (h : set.Nodup) (xs : List String) :
    (extend set xs).Nodup := by
  induction xs generalizing set with
  | nil => exact h
  | cons y xs ih => exact ih h.insert

theorem mem_trigramsOf_of_short {w g : String} (h : w.toList.length < 3) :
    g ∈ trigramsOf w ↔ g = w := by
  simp only [trigramsOf, if_pos h, List.mem_singleton]

theorem mem_trigramsOf_of_long {w g : String} (h : 3 ≤ w.toList.length) :
    g ∈ trigramsOf w ↔ g.toList.length = 3 ∧ g.toList <:+: w.toList := by
  simp only [trigramsOf, if_neg h.not_gt, List.mem_map, List.mem_range]
  constructor
  · rintro ⟨i, hi, rfl⟩
    rw [String.toList_ofList]
    refine ⟨?_, (List.take_prefix ..).isInfix.trans (List.drop_suffix ..).isInfix⟩
    rw [List.length_take, List.length_drop]
    omega
  · rintro ⟨hg, a, b, hw⟩
    have hlength : w.toList.length = a.length + 3 + b.length := by
      rw [← hw, List.length_append, List.length_append, hg]
    refine ⟨a.length, by omega, ?_⟩
    rw [← hw, List.append_assoc, List.drop_left, List.take_append_of_le_length hg.ge,
      List.take_of_length_le hg.le, String.ofList_toList]

/-- A run that two words share is a word of fewer characters, which both are, or three of
their characters in a row. -/
theorem trigrams_meet_iff (w t : String) :
    (∃ g ∈ trigramsOf w, g ∈ trigramsOf t) ↔
      w = t ∧ w.toList.length < 3 ∨
        ∃ g : List Char, g.length = 3 ∧ g <:+: w.toList ∧ g <:+: t.toList := by
  constructor
  · rintro ⟨g, hw, ht⟩
    rcases lt_or_ge w.toList.length 3 with hshort | hlong
    · obtain rfl := (mem_trigramsOf_of_short hshort).1 hw
      rcases lt_or_ge t.toList.length 3 with hshort' | hlong'
      · exact Or.inl ⟨(mem_trigramsOf_of_short hshort').1 ht, hshort⟩
      · exact absurd ((mem_trigramsOf_of_long hlong').1 ht).1 hshort.ne
    · obtain ⟨hlength, hg⟩ := (mem_trigramsOf_of_long hlong).1 hw
      rcases lt_or_ge t.toList.length 3 with hshort' | hlong'
      · obtain rfl := (mem_trigramsOf_of_short hshort').1 ht
        exact absurd hlength hshort'.ne
      · exact Or.inr ⟨g.toList, hlength, hg, ((mem_trigramsOf_of_long hlong').1 ht).2⟩
  · rintro (⟨rfl, hshort⟩ | ⟨g, hlength, hw, ht⟩)
    · exact ⟨w, (mem_trigramsOf_of_short hshort).2 rfl, (mem_trigramsOf_of_short hshort).2 rfl⟩
    · have hlong : 3 ≤ w.toList.length := hlength ▸ hw.length_le
      have hlong' : 3 ≤ t.toList.length := hlength ▸ ht.length_le
      exact ⟨String.ofList g, (mem_trigramsOf_of_long hlong).2 (by simpa using ⟨hlength, hw⟩),
        (mem_trigramsOf_of_long hlong').2 (by simpa using ⟨hlength, ht⟩)⟩

end Words

/-- The sets of a document hold each word and each run of a word once. -/
structure Doc.WellFormed (doc : Doc) : Prop where
  tokens : doc.tokens.Nodup
  trigrams : doc.trigrams.Nodup
  runs : ∀ g, g ∈ doc.trigrams ↔ ∃ t ∈ doc.tokens, g ∈ trigramsOf t

namespace SearchIndex

variable (alnum : Char → Bool) (lower : String → String)

def new : SearchIndex :=
  ⟨[], ∅, ∅⟩

/-- Post all documents again. -/
def reindex (index : SearchIndex) : SearchIndex :=
  { index with
    byToken := build (index.docs.map Doc.tokens)
    byTrigram := build (index.docs.map Doc.trigrams) }

/-- Post the last document. -/
def reindexLast (index : SearchIndex) : SearchIndex :=
  match index.docs.getLast? with
  | some doc => { index with
      byToken := postAll index.byToken (index.docs.length - 1) doc.tokens
      byTrigram := postAll index.byTrigram (index.docs.length - 1) doc.trigrams }
  | none => index

/-- The document of a node. -/
def docOf (nodeId path name : String) (isDir : Bool) (size : ℕ) : Doc :=
  let toks := tokenize alnum lower name ++ tokenize alnum lower path
  ⟨nodeId, path, name, isDir, size, extend [] toks, extend [] (toks.flatMap trigramsOf)⟩

/-- Add a document, or put it in the place of the one with its node id. -/
def add (index : SearchIndex) (nodeId path name : String) (isDir : Bool) (size : ℕ) :
    SearchIndex :=
  let doc := docOf alnum lower nodeId path name isDir size
  match index.docs.findIdx? fun d => d.nodeId = nodeId with
  | some i => reindex { index with docs := index.docs.set i doc }
  | none => reindexLast { index with docs := index.docs ++ [doc] }

/-- Add the words of a text to a document. -/
def addText (index : SearchIndex) (nodeId text : String) : Bool × SearchIndex :=
  match index.docs.findIdx? fun d => d.nodeId = nodeId with
  | some i =>
    let toks := tokenize alnum lower text
    (true, reindex { index with
      docs := index.docs.modify i fun d => { d with
        tokens := extend d.tokens toks
        trigrams := extend d.trigrams (toks.flatMap trigramsOf) } })
  | none => (false, index)

/-- `score.entry(i).or_default() += n`. -/
def bump (score : ExtTreeMap ℕ ℕ) (p : ℕ × ℕ) : ExtTreeMap ℕ ℕ :=
  score.insert p.1 ((score[p.1]?).getD 0 + p.2)

/-- The documents with the words and the runs of a query, with their points. -/
def candidates (index : SearchIndex) (q : String) : List (ℕ × ℕ) :=
  let qTokens := tokenize alnum lower q
  let qTrigrams := extend [] (qTokens.flatMap trigramsOf)
  (qTokens.flatMap fun tok => (posted index.byToken tok).map fun i => (i, 8)) ++
    qTrigrams.flatMap fun g => (posted index.byTrigram g).map fun i => (i, 1)

/-- The points for the query itself : as the name, within it or at its start, or within the
path. -/
def boost (doc : Doc) (q : String) : ℕ :=
  if lower doc.name = q then 80
  else if q.toList <:+: (lower doc.name).toList then
    40 + if q.toList <+: (lower doc.name).toList then 8 else 0
  else if q.toList <:+: (lower doc.path).toList then 20 else 0

def hit (doc : Doc) (score : ℕ) : SearchHit :=
  ⟨doc.nodeId, doc.path, doc.name, doc.isDir, doc.size, score⟩

/-- Highest score first, then the shorter path, then the smaller one. -/
def ranks (a b : SearchHit) : Bool :=
  b.score < a.score ∨ a.score = b.score ∧ (a.path.utf8ByteSize < b.path.utf8ByteSize ∨
    a.path.utf8ByteSize = b.path.utf8ByteSize ∧ a.path ≤ b.path)

/-- Up to `limit` hits, all if it is zero. -/
def search (index : SearchIndex) (query : String) (limit : ℕ) : List SearchHit :=
  let q := lower (trim query)
  if q = "" then []
  else
    let score := (index.candidates alnum lower q).foldl bump ∅
    let hits := score.toList.filterMap fun p =>
      (index.docs[p.1]?).map fun d => hit d (p.2 + boost lower d q)
    let hits := (hits.filter fun h => 0 < h.score).mergeSort ranks
    if limit ≠ 0 then hits.take limit else hits

/-! ## The postings -/

/-- One document to a node, each posted under its words and its runs. -/
structure Consistent (index : SearchIndex) : Prop where
  ids : (index.docs.map Doc.nodeId).Nodup
  docs : ∀ doc ∈ index.docs, doc.WellFormed
  byToken : Indexes index.byToken (index.docs.map Doc.tokens)
  byTrigram : Indexes index.byTrigram (index.docs.map Doc.trigrams)

variable {alnum lower} {index : SearchIndex} {doc : Doc} {q : String}

theorem Consistent.new : SearchIndex.new.Consistent :=
  ⟨List.nodup_nil, nofun, Indexes.empty, Indexes.empty⟩

theorem consistent_reindex (hids : (index.docs.map Doc.nodeId).Nodup)
    (hdocs : ∀ doc ∈ index.docs, doc.WellFormed) : index.reindex.Consistent where
  ids := hids
  docs := hdocs
  byToken := indexes_build (by simpa using fun doc hdoc => (hdocs doc hdoc).tokens)
  byTrigram := indexes_build (by simpa using fun doc hdoc => (hdocs doc hdoc).trigrams)

theorem Consistent.reindexLast (h : index.Consistent) (hdoc : doc.WellFormed)
    (hid : ∀ d ∈ index.docs, d.nodeId ≠ doc.nodeId) :
    (SearchIndex.reindexLast { index with docs := index.docs ++ [doc] }).Consistent := by
  have hlast : SearchIndex.reindexLast { index with docs := index.docs ++ [doc] } =
      { docs := index.docs ++ [doc]
        byToken := postAll index.byToken index.docs.length doc.tokens
        byTrigram := postAll index.byTrigram index.docs.length doc.trigrams } := by
    simp [SearchIndex.reindexLast]
  rw [hlast]
  refine ⟨?_, ?_, ?_, ?_⟩
  · rw [List.map_append, List.map_singleton, List.nodup_append_comm, List.singleton_append,
      List.nodup_cons]
    exact ⟨by simpa using hid, h.ids⟩
  · intro d hd
    rcases List.mem_append.1 hd with hd | hd
    · exact h.docs d hd
    · exact List.mem_singleton.1 hd ▸ hdoc
  · simpa using h.byToken.postAll hdoc.tokens
  · simpa using h.byTrigram.postAll hdoc.trigrams

/-- More words leave a document well-formed. -/
theorem wellFormed_extend (hdoc : doc.WellFormed) (toks : List String) :
    Doc.WellFormed { doc with
      tokens := extend doc.tokens toks
      trigrams := extend doc.trigrams (toks.flatMap trigramsOf) } where
  tokens := nodup_extend hdoc.tokens toks
  trigrams := nodup_extend hdoc.trigrams _
  runs g := by
    simp only [mem_extend, List.mem_flatMap, hdoc.runs]
    grind

variable {nodeId path name text : String} {isDir : Bool} {size : ℕ}

theorem wellFormed_docOf : (docOf alnum lower nodeId path name isDir size).WellFormed := by
  have hbare : Doc.WellFormed ⟨nodeId, path, name, isDir, size, [], []⟩ :=
    ⟨List.nodup_nil, List.nodup_nil, by simp⟩
  exact wellFormed_extend hbare _

variable (alnum lower) in
/-- An `add` replaces the document of the node, or appends one if it has none. -/
theorem add_cases (index : SearchIndex) (nodeId path name : String) (isDir : Bool) (size : ℕ) :
    ∃ doc, docOf alnum lower nodeId path name isDir size = doc ∧
      ((∃ i d, index.docs[i]? = some d ∧ d.nodeId = doc.nodeId ∧
          index.add alnum lower nodeId path name isDir size =
            reindex { index with docs := index.docs.set i doc }) ∨
        (∀ d ∈ index.docs, d.nodeId ≠ doc.nodeId) ∧
          index.add alnum lower nodeId path name isDir size =
            reindexLast { index with docs := index.docs ++ [doc] }) := by
  refine ⟨_, rfl, ?_⟩
  unfold add
  dsimp only
  cases hfind : index.docs.findIdx? fun d => d.nodeId = nodeId with
  | some i =>
    obtain ⟨hi, hid, -⟩ := List.findIdx?_eq_some_iff_getElem.1 hfind
    exact Or.inl ⟨i, index.docs[i], List.getElem?_eq_getElem hi, of_decide_eq_true hid, rfl⟩
  | none =>
    rw [List.findIdx?_eq_none_iff] at hfind
    exact Or.inr ⟨fun d hd => of_decide_eq_false (hfind d hd), rfl⟩

theorem docs_reindexLast (index : SearchIndex) : index.reindexLast.docs = index.docs := by
  unfold reindexLast
  split <;> rfl

/-- The documents of an index are old ones and the one added. -/
theorem mem_docs_add (h : doc ∈ (index.add alnum lower nodeId path name isDir size).docs) :
    doc ∈ index.docs ∨ doc = docOf alnum lower nodeId path name isDir size := by
  obtain ⟨d, rfl, ⟨i, _, -, -, heq⟩ | ⟨-, heq⟩⟩ :=
    add_cases alnum lower index nodeId path name isDir size
  · rw [heq] at h
    exact List.mem_or_eq_of_mem_set h
  · rw [heq, docs_reindexLast] at h
    simpa using h

theorem Consistent.add (h : index.Consistent) (nodeId path name : String) (isDir : Bool)
    (size : ℕ) : (index.add alnum lower nodeId path name isDir size).Consistent := by
  obtain ⟨doc, rfl, ⟨i, d, hi, hid, heq⟩ | ⟨hnone, heq⟩⟩ :=
    add_cases alnum lower index nodeId path name isDir size
  · rw [heq]
    refine consistent_reindex ?_ fun doc hdoc => ?_
    · obtain ⟨hlt, rfl⟩ := List.getElem?_eq_some_iff.1 hi
      rw [List.map_set, ← hid, ← List.getElem_map Doc.nodeId, List.set_getElem_self]
      · exact h.ids
      · simpa using hlt
    · rcases List.mem_or_eq_of_mem_set hdoc with hdoc | rfl
      · exact h.docs doc hdoc
      · exact wellFormed_docOf
  · rw [heq]
    exact h.reindexLast wellFormed_docOf hnone

theorem map_nodeId_modify {f : Doc → Doc} (hf : ∀ d, (f d).nodeId = d.nodeId) (docs : List Doc)
    (i : ℕ) : (docs.modify i f).map Doc.nodeId = docs.map Doc.nodeId := by
  refine List.ext_getElem? fun j => ?_
  rw [List.getElem?_map, List.getElem?_modify, List.getElem?_map]
  cases docs[j]? with
  | none => rfl
  | some d =>
    split_ifs
    · exact congrArg some (hf d)
    · rfl

theorem Consistent.addText (h : index.Consistent) (nodeId text : String) :
    (index.addText alnum lower nodeId text).2.Consistent := by
  unfold SearchIndex.addText
  split
  · refine consistent_reindex ?_ fun doc hdoc => ?_
    · dsimp only
      rw [map_nodeId_modify (by exact fun _ => rfl)]
      exact h.ids
    · obtain ⟨j, hj⟩ := List.mem_iff_getElem?.1 hdoc
      rw [List.getElem?_modify] at hj
      obtain ⟨d, hd, rfl⟩ := Option.map_eq_some_iff.1 hj
      have hwf : d.WellFormed := h.docs d (List.mem_of_getElem? hd)
      split_ifs
      · exact wellFormed_extend hwf _
      · exact hwf
  · exact h

/-! ## The hits -/

/-- Every document that has candidates for points has some. -/
theorem getElem?_foldl_bump (ps : List (ℕ × ℕ)) (score : ExtTreeMap ℕ ℕ) (i : ℕ) :
    ((ps.foldl bump score)[i]?).isSome ↔ (score[i]?).isSome ∨ i ∈ ps.map Prod.fst := by
  induction ps generalizing score with
  | nil => simp
  | cons p ps ih =>
    rw [List.foldl_cons, ih, bump, ExtTreeMap.getElem?_insert, List.map_cons, List.mem_cons]
    split_ifs with hp
    · simp [Nat.compare_eq_eq.1 hp]
    · have hne : i ≠ p.1 := fun h => hp (Nat.compare_eq_eq.2 h.symm)
      simp [hne]

theorem pos_of_foldl_bump {ps : List (ℕ × ℕ)} (hps : ∀ p ∈ ps, 0 < p.2) {score : ExtTreeMap ℕ ℕ}
    (hscore : ∀ i n : ℕ, score[i]? = some n → 0 < n) {i n : ℕ}
    (h : (ps.foldl bump score)[i]? = some n) : 0 < n := by
  induction ps generalizing score with
  | nil => exact hscore i n h
  | cons p ps ih =>
    refine ih (fun p' hp' => hps p' (List.mem_cons_of_mem _ hp')) (fun j m hm => ?_) h
    rw [bump, ExtTreeMap.getElem?_insert] at hm
    have hp := hps p List.mem_cons_self
    split_ifs at hm with hj
    · rw [Option.some.injEq] at hm
      omega
    · exact hscore j m hm

theorem pos_of_mem_candidates {p : ℕ × ℕ} (h : p ∈ index.candidates alnum lower q) : 0 < p.2 := by
  simp only [candidates, List.mem_append, List.mem_flatMap, List.mem_map] at h
  obtain ⟨_, _, _, _, rfl⟩ | ⟨_, _, _, _, rfl⟩ := h
  · exact Nat.succ_pos 7
  · exact Nat.one_pos

/-- What a document shares with a query that makes it a candidate. -/
def Meets (alnum : Char → Bool) (lower : String → String) (doc : Doc) (q : String) : Prop :=
  ∃ w ∈ tokenize alnum lower q, w ∈ doc.tokens ∨ ∃ g ∈ trigramsOf w, g ∈ doc.trigrams

theorem Consistent.mem_candidates_iff (h : index.Consistent) {i : ℕ} :
    i ∈ (index.candidates alnum lower q).map Prod.fst ↔
      ∃ doc, index.docs[i]? = some doc ∧ Meets alnum lower doc q := by
  have hwords : ∀ w, i ∈ posted index.byToken w ↔
      ∃ doc, index.docs[i]? = some doc ∧ w ∈ doc.tokens := by
    simp [h.byToken.mem_posted_iff]
  have hruns : ∀ g, i ∈ posted index.byTrigram g ↔
      ∃ doc, index.docs[i]? = some doc ∧ g ∈ doc.trigrams := by
    simp [h.byTrigram.mem_posted_iff]
  have hmem : i ∈ (index.candidates alnum lower q).map Prod.fst ↔
      (∃ w ∈ tokenize alnum lower q, i ∈ posted index.byToken w) ∨
        ∃ w ∈ tokenize alnum lower q, ∃ g ∈ trigramsOf w, i ∈ posted index.byTrigram g := by
    simp only [candidates, List.map_append, List.mem_append, List.map_flatMap, List.map_map,
      List.mem_flatMap, mem_extend, List.not_mem_nil, false_or]
    simp [Function.comp_def]
    grind
  rw [hmem]
  simp only [hwords, hruns, Meets]
  grind

/-- The hits are the candidates, each with its points. -/
theorem mem_search_iff {query : String} {x : SearchHit} :
    x ∈ index.search alnum lower query 0 ↔ lower (trim query) ≠ "" ∧ ∃ (i n : ℕ) (doc : Doc),
      ((index.candidates alnum lower (lower (trim query))).foldl bump ∅)[i]? = some n ∧
        index.docs[i]? = some doc ∧ x = hit doc (n + boost lower doc (lower (trim query))) := by
  unfold search
  dsimp only
  split_ifs with hq hlimit
  · simp [hq]
  · exact absurd rfl hlimit
  · rw [List.mem_mergeSort, and_iff_right hq]
    simp only [List.mem_filter, List.mem_filterMap, Prod.exists,
      ExtTreeMap.mem_toList_iff_getElem?_eq_some, Option.map_eq_some_iff]
    constructor
    · rintro ⟨⟨i, n, hn, doc, hdoc, rfl⟩, -⟩
      exact ⟨i, n, doc, hn, hdoc, rfl⟩
    · rintro ⟨i, n, doc, hn, hdoc, rfl⟩
      have hpos : 0 < n :=
        pos_of_foldl_bump (fun p hp => pos_of_mem_candidates hp) (by simp) hn
      exact ⟨⟨i, n, hn, doc, hdoc, rfl⟩, decide_eq_true (Nat.add_pos_left hpos _)⟩

theorem Consistent.eq_of_nodeId (h : index.Consistent) {d : Doc} (hdoc : doc ∈ index.docs)
    (hd : d ∈ index.docs) (hid : doc.nodeId = d.nodeId) : doc = d :=
  List.inj_on_of_nodup_map h.ids hdoc hd hid

/-- A document is a hit if and only if it meets the query. -/
theorem Consistent.exists_hit_iff (h : index.Consistent) (hdoc : doc ∈ index.docs)
    (query : String) : (∃ n, hit doc n ∈ index.search alnum lower query 0) ↔
      lower (trim query) ≠ "" ∧ Meets alnum lower doc (lower (trim query)) := by
  simp only [mem_search_iff]
  constructor
  · rintro ⟨n, hq, i, m, d, hm, hd, heq⟩
    obtain rfl : doc = d :=
      h.eq_of_nodeId hdoc (List.mem_of_getElem? hd) (congrArg SearchHit.nodeId heq)
    have hsome := (getElem?_foldl_bump _ ∅ i).1 (by rw [hm]; rfl)
    obtain ⟨d, hd', hmeets⟩ := h.mem_candidates_iff.1 (hsome.resolve_left (by simp))
    obtain rfl := Option.some_injective _ (hd.symm.trans hd')
    exact ⟨hq, hmeets⟩
  · rintro ⟨hq, hmeets⟩
    obtain ⟨i, hi⟩ := List.mem_iff_getElem?.1 hdoc
    have hcand := h.mem_candidates_iff.2 ⟨doc, hi, hmeets⟩
    obtain ⟨n, hn⟩ := Option.isSome_iff_exists.1
      ((getElem?_foldl_bump _ (∅ : ExtTreeMap ℕ ℕ) i).2 (Or.inr hcand))
    exact ⟨_, hq, i, n, doc, hn, hi, rfl⟩

/-! ## Complete searches -/

/-- A call of `add`. -/
structure Add where
  nodeId : String
  path : String
  name : String
  isDir : Bool
  size : ℕ

/-- The index that the calls build. -/
def addAll (alnum : Char → Bool) (lower : String → String) (adds : List Add) : SearchIndex :=
  adds.foldl (fun index a => index.add alnum lower a.nodeId a.path a.name a.isDir a.size) .new

/-- A word of `q` is a word of the name or the path, or has three characters in a row in
common with one. -/
def SharesWord (alnum : Char → Bool) (lower : String → String) (doc : Doc) (q : String) : Prop :=
  ∃ w ∈ tokenize alnum lower q,
    ∃ t ∈ tokenize alnum lower doc.name ++ tokenize alnum lower doc.path,
      w = t ∨ ∃ g : List Char, g.length = 3 ∧ g <:+: w.toList ∧ g <:+: t.toList

variable (alnum lower) in
/-- What `add` leaves of an index : postings that are right, and no words but those of names
and paths. -/
theorem addAll_inv (adds : List Add) :
    (addAll alnum lower adds).Consistent ∧ ∀ doc ∈ (addAll alnum lower adds).docs,
      ∀ t, t ∈ doc.tokens ↔
        t ∈ tokenize alnum lower doc.name ++ tokenize alnum lower doc.path := by
  induction adds using List.reverseRecOn with
  | nil => exact ⟨Consistent.new, nofun⟩
  | append_singleton adds a ih =>
    rw [addAll, List.foldl_append, ← addAll, List.foldl_cons, List.foldl_nil]
    refine ⟨ih.1.add .., fun doc hdoc t => ?_⟩
    rcases mem_docs_add hdoc with hold | rfl
    · exact ih.2 doc hold t
    · simp [docOf, mem_extend]

/-- A query meets a document in a word of both, or in three characters in a row of a word of
each. -/
theorem meets_iff (hwf : doc.WellFormed) : Meets alnum lower doc q ↔
    ∃ w ∈ tokenize alnum lower q, ∃ t ∈ doc.tokens,
      w = t ∨ ∃ g : List Char, g.length = 3 ∧ g <:+: w.toList ∧ g <:+: t.toList := by
  have hword : ∀ w, (w ∈ doc.tokens ∨ ∃ g ∈ trigramsOf w, g ∈ doc.trigrams) ↔
      ∃ t ∈ doc.tokens, w = t ∨ ∃ g ∈ trigramsOf w, g ∈ trigramsOf t := by
    intro w
    simp only [hwf.runs]
    grind
  refine exists_congr fun w => and_congr_right fun _ => ?_
  rw [hword]
  refine exists_congr fun t => and_congr_right fun _ => ?_
  rw [trigrams_meet_iff]
  tauto

theorem meets_iff_sharesWord (hwf : doc.WellFormed) (hwords : ∀ t, t ∈ doc.tokens ↔
    t ∈ tokenize alnum lower doc.name ++ tokenize alnum lower doc.path) :
    Meets alnum lower doc q ↔ SharesWord alnum lower doc q := by
  rw [meets_iff hwf]
  simp only [hwords, SharesWord]

/-- A search finds every document whose name contains the query if and only if each has a
word of the query, or three characters in a row of one, in a word of its name or path. -/
theorem search_complete_iff (alnum : Char → Bool) (lower : String → String) (adds : List Add)
    (query : String) :
    (lower (trim query) ≠ "" → ∀ doc ∈ (addAll alnum lower adds).docs,
        (lower (trim query)).toList <:+: (lower doc.name).toList →
          ∃ n, hit doc n ∈ (addAll alnum lower adds).search alnum lower query 0) ↔
      (lower (trim query) ≠ "" → ∀ doc ∈ (addAll alnum lower adds).docs,
        (lower (trim query)).toList <:+: (lower doc.name).toList →
          SharesWord alnum lower doc (lower (trim query))) := by
  obtain ⟨hinv, hwords⟩ := addAll_inv alnum lower adds
  refine forall_congr' fun hq => forall₃_congr fun doc hdoc _ => ?_
  rw [hinv.exists_hit_iff hdoc, and_iff_right hq,
    meets_iff_sharesWord (hinv.docs doc hdoc) (hwords doc hdoc)]

/-- A query for the first two letters of a name finds nothing. -/
theorem search_misses_prefix :
    let lower : String → String := fun s => String.ofList (s.toList.map Char.toLower)
    let index := addAll Char.isAlphanum lower [⟨"n", "/report", "report", false, 1⟩]
    lower (trim "re") ≠ "" ∧ ∃ doc ∈ index.docs,
      (lower (trim "re")).toList <:+: (lower doc.name).toList ∧
        ¬∃ n, hit doc n ∈ index.search Char.isAlphanum lower "re" 0 := by
  intro lower index
  have hnone : index.search Char.isAlphanum lower "re" 0 = [] := by decide +kernel
  refine ⟨by decide, docOf Char.isAlphanum lower "n" "/report" "report" false 1, ?_, ?_, ?_⟩
  · exact List.mem_singleton_self _
  · decide
  · simp [hnone]

/-! ## Long words -/

/-- Lowercasing that goes character by character, and keeps what is alphanumeric. -/
structure Charwise (alnum : Char → Bool) (lower : String → String) (f : Char → Char) : Prop where
  lower : ∀ s, lower s = String.ofList (s.toList.map f)
  alnum : ∀ c, alnum (f c) = alnum c
  idem : ∀ c, f (f c) = f c

/-- Lowercasing of the ASCII letters. -/
theorem Charwise.toLower : Charwise Char.isAlphanum
    (fun s => String.ofList (s.toList.map Char.toLower)) Char.toLower where
  lower _ := rfl
  alnum c := by
    delta Char.isAlphanum Char.isAlpha Char.isUpper Char.isLower Char.isDigit Char.toLower
    split <;> grind [UInt32.toNat_add, Char.toNat_val]
  idem c := by
    delta Char.toLower
    grind [UInt32.toNat_add, Char.toNat_val]

variable {f : Char → Char}

theorem mem_tokenize_iff {s w : String} : w ∈ tokenize alnum lower s ↔
    ∃ t ∈ s.toList.splitOnP fun c => !alnum c, t ≠ [] ∧ lower (String.ofList t) = w := by
  simp [tokenize, and_assoc]

/-- A word of a part of a lowercased string is a part of a word of the string. -/
theorem Charwise.exists_word (h : Charwise alnum lower f) {s w : String}
    (hq : q.toList <:+: (lower s).toList) (hw : w ∈ tokenize alnum lower q) :
    ∃ t ∈ tokenize alnum lower s, w.toList <:+: t.toList := by
  obtain ⟨r, hr, hne, rfl⟩ := mem_tokenize_iff.1 hw
  obtain ⟨hpart, hfree⟩ := mem_splitOnP hr
  rw [h.lower, String.toList_ofList] at hq
  have hrun : r <:+: s.toList.map f := hpart.trans hq
  -- the characters of the part are lowercase already
  have hfix : r.map f = r := by
    refine List.map_congr_left (fun c hc => ?_) |>.trans (List.map_id r)
    obtain ⟨d, -, rfl⟩ := List.mem_map.1 (hrun.subset hc)
    exact h.idem d
  obtain ⟨u, hu, hrt⟩ := exists_piece hrun hfree
  rw [splitOnP_map] at hu
  simp only [h.alnum] at hu
  obtain ⟨t, ht, rfl⟩ := List.mem_map.1 hu
  refine ⟨lower (String.ofList t), mem_tokenize_iff.2 ⟨t, ht, ?_, rfl⟩, ?_⟩
  · rintro rfl
    exact hne (List.eq_nil_of_infix_nil hrt)
  · rw [h.lower, h.lower, String.toList_ofList, String.toList_ofList, String.toList_ofList,
      String.toList_ofList, hfix]
    exact hrt

/-- Where lowercasing goes by the character, a document whose name contains `q` shares a word
with `q` if `q` has a word of three characters, and otherwise if the two have a whole word in
common. -/
theorem Charwise.sharesWord_iff (h : Charwise alnum lower f)
    (hq : q.toList <:+: (lower doc.name).toList) :
    SharesWord alnum lower doc q ↔ ∃ w ∈ tokenize alnum lower q, 3 ≤ w.toList.length ∨
      w ∈ tokenize alnum lower doc.name ++ tokenize alnum lower doc.path := by
  refine exists_congr fun w => and_congr_right fun hw => ⟨?_, ?_⟩
  · rintro ⟨t, ht, rfl | ⟨g, hlength, hg, -⟩⟩
    · exact Or.inr ht
    · exact Or.inl (hlength ▸ hg.length_le)
  · rintro (hlong | hword)
    · obtain ⟨t, ht, hwt⟩ := h.exists_word hq hw
      have hrun : w.toList.take 3 <:+: w.toList := (List.take_prefix ..).isInfix
      exact ⟨t, List.mem_append_left _ ht, Or.inr ⟨_, List.length_take_of_le hlong, hrun,
        hrun.trans hwt⟩⟩
    · exact ⟨w, hword, Or.inl rfl⟩

/-- A query with a word of three characters finds every document whose name contains it. -/
theorem Charwise.exists_hit (h : Charwise alnum lower f) {adds : List Add} {query w : String}
    (hw : w ∈ tokenize alnum lower (lower (trim query))) (hlong : 3 ≤ w.toList.length)
    (hdoc : doc ∈ (addAll alnum lower adds).docs)
    (hq : (lower (trim query)).toList <:+: (lower doc.name).toList) :
    ∃ n, hit doc n ∈ (addAll alnum lower adds).search alnum lower query 0 := by
  obtain ⟨hinv, hwords⟩ := addAll_inv alnum lower adds
  refine (hinv.exists_hit_iff hdoc query).2 ⟨?_, ?_⟩
  · rintro hempty
    rw [hempty] at hw
    simp [tokenize] at hw
  · rw [meets_iff_sharesWord (hinv.docs doc hdoc) (hwords doc hdoc), h.sharesWord_iff hq]
    exact ⟨w, hw, Or.inl hlong⟩

end SearchIndex

end CeDrive
