import CeDrive.WalkedPaths

/-!
# Walks of the listings

A search index is built, and a drive is materialized, by a walk of the listings from the root.
`walk` are the entries that such a walk comes to, each with the names that lead to it; the
recursion is bounded by `k`. In a tidy tree the walk ends (`Tidy.exists_walk`). It comes to each
listed node (`Tidy.mem_walk_iff`), to a directory before what is below it
(`Tidy.pairwise_walk`).
-/

open Forest

namespace CeDrive

/-! ## Depth -/

namespace DriveTree

variable {t : DriveTree} {q : List String} {n : NodeId}

theorem Replayed.climb_of_listedAt (ht : t.Replayed) (hq : t.ListedAt q n) :
    climb t.parentOf q.length n = some ROOT := by
  induction hq with
  | root => rfl
  | @child q p r c hq hl ih =>
    obtain ⟨e, he, rfl, -⟩ := ht.edge_of_lists hl
    rw [List.length_append, List.length_singleton, climb_succ_of_parent (parentOf_of_edge he)]
    exact ih

/-- A listed path has no more names than there are edges. -/
theorem Replayed.length_le_of_listedAt (ht : t.Replayed) (hq : t.ListedAt q n) :
    q.length ≤ t.edges.size :=
  (le_card_of_climb ht.grounded mem_keys_of_parentOf (ht.climb_of_listedAt hq)).trans t.card_keys_le

end DriveTree

/-! ## What is collected -/

section

variable {α β : Type*} {f : α → Option (List β)} {l : List α}

theorem exists_collect (h : ∀ a ∈ l, ∃ b, f a = some b) : ∃ bs, collect f l = some bs := by
  induction l with
  | nil => exact ⟨[], rfl⟩
  | cons a l ih =>
    obtain ⟨b, hb⟩ := h a List.mem_cons_self
    obtain ⟨bs, hbs⟩ := ih fun x hx => h x (List.mem_cons_of_mem _ hx)
    exact ⟨b ++ bs, collect_cons_eq_some.2 ⟨b, bs, hb, hbs, rfl⟩⟩

theorem collect_eq_map {γ : Type*} {g : α → Option (List γ)} {φ : γ → β}
    (hfg : ∀ a ∈ l, f a = (g a).map (List.map φ)) :
    collect f l = (collect g l).map (List.map φ) := by
  induction l with
  | nil => rfl
  | cons a l ih =>
    rw [collect, collect, hfg a List.mem_cons_self,
      ih fun x hx => hfg x (List.mem_cons_of_mem _ hx)]
    cases g a with
    | none => rfl
    | some b =>
      cases collect g l with
      | none => rfl
      | some bs => simp

/-- What is related within each part, and across parts in their order, is related. -/
theorem pairwise_collect {R : β → β → Prop} {bs : List β}
    (hin : ∀ a ∈ l, ∀ b, f a = some b → b.Pairwise R)
    (hacross : l.Pairwise fun a a' => ∀ b b', f a = some b → f a' = some b' →
      ∀ x ∈ b, ∀ y ∈ b', R x y) (h : collect f l = some bs) : bs.Pairwise R := by
  induction l generalizing bs with
  | nil =>
    obtain rfl := Option.some_injective _ h
    exact .nil
  | cons a l ih =>
    obtain ⟨b₁, b₂, h₁, h₂, rfl⟩ := collect_cons_eq_some.1 h
    rw [List.pairwise_cons] at hacross
    refine List.pairwise_append.2 ⟨hin a List.mem_cons_self b₁ h₁,
      ih (fun x hx => hin x (List.mem_cons_of_mem _ hx)) hacross.2 h₂, fun x hx y hy => ?_⟩
    obtain ⟨a', ha', b', hb', hy, -⟩ := exists_mem_of_collect h₂ hy
    exact hacross.1 a' ha' b₁ b' h₁ hb' x hx y hy

end

/-! ## The walk -/

namespace Drive

/-- The entries met below the directory at `q`, each with its names. -/
def walk (d : Drive) : ℕ → List String → Option (List (List String × DirEntry))
  | 0, _ => none
  | k + 1, q =>
    match d.ls (pathBelow "/" q) with
    | .error _ => none
    | .ok entries => collect (fun e => (if e.isDir then walk d k (q ++ [e.name]) else some []).map
        ((q ++ [e.name], e) :: ·)) entries

/-- The entry that lists the node at `q`. -/
def entryAt (d : Drive) (q : List String) (n : NodeId) : DirEntry :=
  ⟨q.getLast?.getD "", (d.tree.edge n).map Edge.kind = some .dir, d.content[n]?, n⟩

end Drive

namespace DriveTree.Tidy

variable {d : Drive} {n : NodeId} {q : List String} {k : ℕ} {l : List (List String × DirEntry)}
  {x : List String × DirEntry} (ht : d.tree.Replayed) (h : d.tree.Tidy)
include ht h

/-- The listing of a directory that is listed itself. -/
theorem ls_eq (hq : d.tree.ListedAt q n) (hdir : d.tree.IsDir n) :
    ∃ entries, d.ls (pathBelow "/" q) = .ok entries ∧ (entries.map DirEntry.name).Nodup ∧
      (∀ e ∈ entries, d.tree.ListedAt (q ++ [e.name]) e.nodeId ∧
        (e.isDir = true ↔ d.tree.IsDir e.nodeId) ∧ e = d.entryAt (q ++ [e.name]) e.nodeId) ∧
      ∀ r m, d.tree.ListedAt (q ++ [r]) m → ∃ e ∈ entries, e.name = r ∧ e.nodeId = m := by
  have hls := h.legible.ls_of_walked (h.walked_iff.2 hq) hdir
  refine ⟨_, hls, ?_, fun e he => ?_, fun r m hm => ?_⟩
  · have hnames := (nodup_names_iff ht.mirror (p := n)).2 fun r c c' => h.clear hq
    rwa [List.map_map]
  · obtain ⟨hwalked, hkind⟩ := h.legible.mem_ls_of_walked ht (h.walked_iff.2 hq) hdir hls he
    have hlisted := hwalked.listedAt
    refine ⟨hlisted, hkind, ?_⟩
    obtain ⟨entry, hmem, rfl⟩ := List.mem_map.1 he
    obtain ⟨p, hp, hl⟩ := listedAt_append_singleton.1 hlisted
    have hroot := ne_root_of_lists ht h.reserved hl
    have hdirEq : decide (entry.2.2 = NodeKind.dir) =
        decide ((d.tree.edge entry.2.1).map Edge.kind = some .dir) := by
      refine Bool.eq_iff_iff.2 (hkind.trans ?_)
      rw [decide_eq_true_iff, IsDir, or_iff_right hroot]
    simp only [Drive.entryAt, List.getLast?_concat, Option.getD_some, hdirEq]
  · obtain ⟨p, hp, kind, hmem⟩ := listedAt_append_singleton.1 hm
    obtain rfl := h.listedAt_unique hp hq
    exact ⟨_, List.mem_map_of_mem hmem, rfl, rfl⟩

theorem isDir_entryAt_iff (hne : q ≠ []) (hq : d.tree.ListedAt q n) :
    (d.entryAt q n).isDir = true ↔ d.tree.IsDir n := by
  obtain ⟨q', p, r, rfl, -, hl⟩ := (listedAt_cases hq).resolve_left fun hnil => hne hnil.1
  rw [IsDir, or_iff_right (ne_root_of_lists ht h.reserved hl), Drive.entryAt, decide_eq_true_iff]

/-- A walk comes to what is listed below. -/
theorem mem_walk_iff (hq : d.tree.ListedAt q n) (hdir : d.tree.IsDir n)
    (hw : d.walk k q = some l) : x ∈ l ↔ ∃ q' m, q' ≠ [] ∧ d.tree.ListedAt (q ++ q') m ∧
      x = (q ++ q', d.entryAt (q ++ q') m) := by
  induction k generalizing q n l with
  | zero => cases hw
  | succ k ih =>
    obtain ⟨entries, hls, -, hentry, hmem⟩ := ls_eq ht h hq hdir
    rw [Drive.walk, hls] at hw
    have hiff := Drive.mem_collect_iff (b := x) (P := fun e : DirEntry => ∃ q' m,
      d.tree.ListedAt (q ++ [e.name] ++ q') m ∧
        x = (q ++ [e.name] ++ q', d.entryAt (q ++ [e.name] ++ q') m)) (fun e he b' hb => ?_) hw
    · rw [hiff]
      constructor
      · rintro ⟨e, he, q', m, hm, hx⟩
        rw [List.append_assoc] at hm hx
        exact ⟨[e.name] ++ q', m, List.cons_ne_nil _ _, hm, hx⟩
      · rintro ⟨q', m, hne, hm, hx⟩
        obtain ⟨r, q', rfl⟩ := List.exists_cons_of_ne_nil hne
        rw [List.append_cons] at hm hx
        obtain ⟨c, hc⟩ := exists_listedAt_of_append hm
        obtain ⟨e, he, rfl, -⟩ := hmem r c hc
        exact ⟨e, he, q', m, hm, hx⟩
    · obtain ⟨hlisted, hkind, heq⟩ := hentry e he
      -- the entry itself, or what is listed below it
      have hsplit : (∃ q' m, d.tree.ListedAt (q ++ [e.name] ++ q') m ∧
          x = (q ++ [e.name] ++ q', d.entryAt (q ++ [e.name] ++ q') m)) ↔
          x = (q ++ [e.name], d.entryAt (q ++ [e.name]) e.nodeId) ∨
            ∃ q' m, q' ≠ [] ∧ d.tree.ListedAt (q ++ [e.name] ++ q') m ∧
              x = (q ++ [e.name] ++ q', d.entryAt (q ++ [e.name] ++ q') m) := by
        constructor
        · rintro ⟨q', m, hm, hx⟩
          rcases eq_or_ne q' [] with rfl | hne
          · rw [List.append_nil] at hm hx
            exact Or.inl (h.listedAt_unique hm hlisted ▸ hx)
          · exact Or.inr ⟨q', m, hne, hm, hx⟩
        · rintro (hx | ⟨q', m, -, hm, hx⟩)
          · exact ⟨[], e.nodeId, by rwa [List.append_nil], by rwa [List.append_nil]⟩
          · exact ⟨q', m, hm, hx⟩
      obtain ⟨l, hl, rfl⟩ := Option.map_eq_some_iff.1 hb
      rw [hsplit, List.mem_cons, ← heq]
      refine or_congr_right ?_
      split_ifs at hl with hd
      · exact ih hlisted (hkind.1 hd) hl
      · obtain rfl := Option.some_injective _ hl
        refine iff_of_false List.not_mem_nil ?_
        rintro ⟨q', m, hne, hm, -⟩
        exact hd (hkind.2 (h.isDir_of_append hm hne hlisted))

/-- The walk ends : no place is deeper than there are edges. -/
theorem exists_walk (hq : d.tree.ListedAt q n) (hdir : d.tree.IsDir n)
    (hk : d.tree.edges.size < q.length + k) : ∃ l, d.walk k q = some l := by
  induction k generalizing q n with
  | zero => exact absurd (ht.length_le_of_listedAt hq) (Nat.not_le.2 hk)
  | succ k ih =>
    obtain ⟨entries, hls, -, hentry, -⟩ := ls_eq ht h hq hdir
    rw [Drive.walk, hls]
    refine exists_collect fun e he => ?_
    obtain ⟨hlisted, hkind, -⟩ := hentry e he
    split_ifs with hd
    · have hk' : d.tree.edges.size < (q ++ [e.name]).length + k := by
        rw [List.length_append, List.length_singleton]
        omega
      obtain ⟨l, hl⟩ := ih hlisted (hkind.1 hd) hk'
      exact ⟨_, by rw [hl, Option.map_some]⟩
    · exact ⟨_, rfl⟩

/-- The walk comes to no place twice, and to a directory before what is below it. -/
theorem pairwise_walk (hq : d.tree.ListedAt q n) (hdir : d.tree.IsDir n)
    (hw : d.walk k q = some l) : l.Pairwise fun x y => ¬y.1 <+: x.1 := by
  induction k generalizing q n l with
  | zero => cases hw
  | succ k ih =>
    obtain ⟨entries, hls, hnames, hentry, -⟩ := ls_eq ht h hq hdir
    rw [Drive.walk, hls] at hw
    -- what is met by an entry lies at or below it
    have hbelow : ∀ e ∈ entries, ∀ b, ((if e.isDir then d.walk k (q ++ [e.name]) else some []).map
        ((q ++ [e.name], e) :: ·)) = some b → ∀ x ∈ b, q ++ [e.name] <+: x.1 := by
      intro e he b hb x hx
      obtain ⟨hlisted, hkind, -⟩ := hentry e he
      obtain ⟨l, hl, rfl⟩ := Option.map_eq_some_iff.1 hb
      rcases List.mem_cons.1 hx with rfl | hx
      · exact List.prefix_rfl
      · split_ifs at hl with hd
        · obtain ⟨q', m, -, -, rfl⟩ := (mem_walk_iff ht h hlisted (hkind.1 hd) hl).1 hx
          exact List.prefix_append _ _
        · obtain rfl := Option.some_injective _ hl
          cases hx
    refine pairwise_collect (fun e he b hb => ?_) ?_ hw
    · obtain ⟨hlisted, hkind, -⟩ := hentry e he
      obtain ⟨l, hl, rfl⟩ := Option.map_eq_some_iff.1 hb
      split_ifs at hl with hd
      · refine List.pairwise_cons.2 ⟨fun y hy => ?_, ih hlisted (hkind.1 hd) hl⟩
        obtain ⟨q', m, hne, -, rfl⟩ := (mem_walk_iff ht h hlisted (hkind.1 hd) hl).1 hy
        exact fun hpre => hne (List.append_right_eq_self.1
          (hpre.eq_of_length_le (List.prefix_append _ q').length_le))
      · obtain rfl := Option.some_injective _ hl
        exact List.pairwise_singleton _ _
    · refine (List.pairwise_map.1 hnames).imp_of_mem fun {e e'} he he' hne => ?_
      intro b b' hb hb' x hx y hy hpre
      have hx' := hbelow e he b hb x hx
      have hy' := (hbelow e' he' b' hb' y hy).trans hpre
      have heq := List.prefix_of_prefix_length_le hx' hy' (by simp)
      have hname := ((List.prefix_append_right_inj q).1 heq).eq_of_length rfl
      exact hne (List.singleton_injective hname)

end DriveTree.Tidy

end CeDrive
