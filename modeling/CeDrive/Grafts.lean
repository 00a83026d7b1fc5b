import CeDrive.LocalMove
import CeDrive.WalkedPaths

/-!
# A leaf more, a leaf less

What a local move does to the paths of the listings when it makes a new node, and when it trashes
a file. A new node under a name that is not listed is listed there, and nothing else changes
(`graft_walked`, `graft_listedAt`). A file that leaves keeps the names of the others, unless it is
listed under its bare name and a sibling of that name moves up (`prune_walked`, `prune_listedAt`).
-/

open Std (ExtTreeMap)
open Forest

namespace CeDrive

namespace DriveTree

variable {t t' : DriveTree} {c m n p x : NodeId} {b b' name r : String} {k : NodeKind}
  {q q₀ : List String}

/-- No edge names the node. -/
structure Unused (t : DriveTree) (id : NodeId) : Prop where
  edge : t.edges[id]? = none
  parent : ∀ ⦃m : NodeId⦄ ⦃e : Edge⦄, t.edges[m]? = some e → e.parent ≠ id

theorem Unused.not_reaches (h : t.Unused c) (hx : x ≠ c) : ¬Reaches t.parentOf x c := by
  intro hr
  rcases Relation.ReflTransGen.cases_tail hr with heq | ⟨y, -, hy⟩
  · exact hx heq.symm
  · obtain ⟨e, he, hp⟩ := parentOf_eq_some.1 hy
    exact h.parent he hp

theorem Unused.ne_of_called (h : t.Unused c) (ht : t.Replayed) (hm : t.Called x b m) : m ≠ c := by
  rintro rfl
  obtain ⟨⟨e, he, -⟩, -⟩ := ht.mirror.called_iff.1 hm
  exact absurd (h.edge.symm.trans he) (by simp)

theorem Unused.not_lists (h : t.Unused c) (ht : t.Replayed) : ¬t.Lists c r m := by
  intro hl
  obtain ⟨e, he, hp, -⟩ := ht.edge_of_lists hl
  exact h.parent he hp

theorem Unused.ne_of_walked (h : t.Unused c) (ht : t.Replayed) (hc : c ≠ ROOT)
    (hn : t.Walked q n) : n ≠ c := by
  rcases walked_cases hn with ⟨-, rfl⟩ | ⟨q', p, r, -, -, -, hl⟩
  · exact hc.symm
  · obtain ⟨b, hb⟩ := ht.called_of_lists hl
    exact h.ne_of_called ht hb

/-- A group that is as before is listed as before. -/
theorem Replayed.lists_congr (h : t.Replayed) (h' : t'.Replayed) (hc : t.Called p b c)
    (hgroup : ∀ m, t'.Called p b m ↔ t.Called p b m)
    (hts : ∀ m, t.Called p b m → t'.definingTs m = t.definingTs m) :
    t'.Lists p r c ↔ t.Lists p r c := by
  have hmax : (∀ m, t'.Called p b m → t'.definingTs m ≤ t'.definingTs c) ↔
      ∀ m, t.Called p b m → t.definingTs m ≤ t.definingTs c := by
    refine forall_congr' fun m => ?_
    rw [hgroup]
    exact imp_congr_right fun hm => by rw [hts m hm, hts c hc]
  have hover : (∃ m, t'.Called p b m ∧ t'.definingTs c < t'.definingTs m) ↔
      ∃ m, t.Called p b m ∧ t.definingTs c < t.definingTs m := by
    refine exists_congr fun m => ?_
    rw [hgroup]
    exact and_congr_right fun hm => by rw [hts m hm, hts c hc]
  rw [h'.lists_iff_of_called ((hgroup c).2 hc), h.lists_iff_of_called hc, hmax, hover, hts c hc]

theorem Moved.isDir_iff (h : Moved t t' c p name k) (hn : n ≠ c) : t'.IsDir n ↔ t.IsDir n := by
  rw [IsDir, IsDir, edge, edge, h.edge_of_ne hn]

/-! ## A new node -/

section

variable (h : Moved t t' c p b k) (ht : t.Replayed) (hun : t.Unused c) (hc : c ≠ TRASH)
  (hp : t.isTrashed p = false) (hpc : p ≠ c)
include h ht hun hc hp hpc

theorem graft_called : t'.Called x b' m ↔ t.Called x b' m ∨ (x = p ∧ b' = b ∧ m = c) := by
  have hr : ¬Reaches t.parentOf p c := hun.not_reaches hpc
  by_cases hm : m = c
  · subst hm
    constructor
    · intro hcalled
      obtain ⟨⟨e, he, rfl, rfl⟩, -⟩ := h.replayed.mirror.called_iff.1 hcalled
      obtain rfl := Option.some_injective _ ((h.edge_self hr).symm.trans he)
      exact Or.inr ⟨rfl, rfl, rfl⟩
    · rintro (hcalled | ⟨rfl, rfl, -⟩)
      · exact absurd rfl (hun.ne_of_called ht hcalled)
      · exact h.called_self ht hr hp hc
  · rw [or_iff_left fun hnew => hm hnew.2.2]
    by_cases hx : x = c
    · refine iff_of_false (fun hcalled => ?_) fun hcalled => ?_
      · obtain ⟨⟨e, he, hparent, -⟩, -⟩ := h.replayed.mirror.called_iff.1 hcalled
        rw [h.edge_of_ne hm] at he
        exact hun.parent he (hparent.trans hx)
      · obtain ⟨⟨e, he, hparent, -⟩, -⟩ := ht.mirror.called_iff.1 hcalled
        exact hun.parent he (hparent.trans hx)
    · exact h.called_iff ht (hun.not_reaches hx) hm

variable (hname : ∀ m, ¬t.Lists p b m)
include hname

theorem graft_lists : t'.Lists x r m ↔ t.Lists x r m ∨ (x = p ∧ r = b ∧ m = c) := by
  have hempty : ∀ m, ¬t.Called p b m := fun m hm =>
    let ⟨w, _, hw⟩ := ht.exists_lists hm
    hname w hw
  have hold : ∀ {b' m}, t.Called x b' m → (t'.Lists x r m ↔ t.Lists x r m) := by
    intro b' m hm
    refine ht.lists_congr h.replayed hm (fun m' => ?_) fun m' hm' =>
      h.stamp m' (hun.ne_of_called ht hm')
    rw [graft_called h ht hun hc hp hpc, or_iff_left]
    rintro ⟨rfl, rfl, -⟩
    exact hempty m hm
  constructor
  · intro hl
    obtain ⟨b', hb'⟩ := h.replayed.called_of_lists hl
    rcases (graft_called h ht hun hc hp hpc).1 hb' with hb' | ⟨rfl, rfl, rfl⟩
    · exact Or.inl ((hold hb').1 hl)
    · rcases (h.replayed.lists_iff_of_called hb').1 hl with ⟨-, rfl⟩ | ⟨⟨m', hm', hlt⟩, -⟩
      · exact Or.inr ⟨rfl, rfl, rfl⟩
      · rcases (graft_called h ht hun hc hp hpc).1 hm' with hm' | ⟨-, -, rfl⟩
        · exact absurd hm' (hempty m')
        · exact absurd hlt (lt_irrefl _)
  · rintro (hl | ⟨rfl, rfl, rfl⟩)
    · obtain ⟨b', hb'⟩ := ht.called_of_lists hl
      exact (hold hb').2 hl
    · have hself := (graft_called h ht hun hc hp hpc).2 (Or.inr ⟨rfl, rfl, rfl⟩)
      refine (h.replayed.lists_iff_of_called hself).2 (Or.inl ⟨fun m' hm' => ?_, rfl⟩)
      rcases (graft_called h ht hun hc hp hpc).1 hm' with hm' | ⟨-, -, rfl⟩
      · exact absurd hm' (hempty m')
      · exact le_rfl

/-- The new node is walked to where it was put, and all else where it was. -/
theorem graft_walked (hroot : c ≠ ROOT) (hq : t.Walked q₀ p) (hdir : t.IsDir p) :
    t'.Walked q n ↔ t.Walked q n ∨ (q = q₀ ++ [b] ∧ n = c) := by
  have hlists : ∀ {x r m}, t'.Lists x r m ↔ t.Lists x r m ∨ (x = p ∧ r = b ∧ m = c) :=
    graft_lists h ht hun hc hp hpc hname
  have hkind : ∀ {q n}, t.Walked q n → (t'.IsDir n ↔ t.IsDir n) := fun hn =>
    h.isDir_iff (hun.ne_of_walked ht hroot hn)
  have hold : ∀ {q n}, t.Walked q n → t'.Walked q n := by
    intro q n hn
    induction hn with
    | root => exact .root
    | child hx hd hl ih => exact .child ih ((hkind hx).2 hd) (hlists.2 (Or.inl hl))
  constructor
  · intro hn
    induction hn with
    | root => exact Or.inl .root
    | child _ hd hl ih =>
      rcases ih with hx | ⟨rfl, rfl⟩
      · rcases hlists.1 hl with hl | ⟨rfl, rfl, rfl⟩
        · exact Or.inl (.child hx ((hkind hx).1 hd) hl)
        · obtain rfl := hx.unique ht hq
          exact Or.inr ⟨rfl, rfl⟩
      · rcases hlists.1 hl with hl | ⟨rfl, -⟩
        · exact absurd hl (hun.not_lists ht)
        · exact absurd rfl hpc
  · rintro (hn | ⟨rfl, rfl⟩)
    · exact hold hn
    · exact .child (hold hq) ((hkind hq).2 hdir) (hlists.2 (Or.inr ⟨rfl, rfl, rfl⟩))

variable (hfree : t.ReservedFree) (hq : t.ListedAt q₀ p)
include hfree hq

/-- The new node is listed where it was put, and all else where it was. -/
theorem graft_listedAt : t'.ListedAt q n ↔ t.ListedAt q n ∨ (q = q₀ ++ [b] ∧ n = c) := by
  have hlists : ∀ {x r m}, t'.Lists x r m ↔ t.Lists x r m ∨ (x = p ∧ r = b ∧ m = c) :=
    graft_lists h ht hun hc hp hpc hname
  have hold : ∀ {q n}, t.ListedAt q n → t'.ListedAt q n := by
    intro q n hn
    induction hn with
    | root => exact .root
    | child _ hl ih => exact .child ih (hlists.2 (Or.inl hl))
  constructor
  · intro hn
    induction hn with
    | root => exact Or.inl .root
    | child _ hl ih =>
      rcases ih with hx | ⟨rfl, rfl⟩
      · rcases hlists.1 hl with hl | ⟨rfl, rfl, rfl⟩
        · exact Or.inl (.child hx hl)
        · obtain rfl := hx.unique ht hfree hq
          exact Or.inr ⟨rfl, rfl⟩
      · rcases hlists.1 hl with hl | ⟨rfl, -⟩
        · exact absurd hl (hun.not_lists ht)
        · exact absurd rfl hpc
  · rintro (hn | ⟨rfl, rfl⟩)
    · exact hold hn
    · exact .child (hold hq) (hlists.2 (Or.inr ⟨rfl, rfl, rfl⟩))

end

/-- A new node in a directory keeps the tree legible. -/
theorem Legible.graft (hleg : t.Legible) (h : Moved t t' c p b k) (ht : t.Replayed) (hun : t.Unused c)
    (hc : c ≠ TRASH) (hroot : c ≠ ROOT) (hp : t.isTrashed p = false) (hpc : p ≠ c)
    (hname : ∀ m, ¬t.Lists p b m) (hq : t.Walked q₀ p) (hdir : t.IsDir p) (hb : IsComponent b) :
    t'.Legible := by
  have hlists : ∀ {x r m}, t'.Lists x r m ↔ t.Lists x r m ∨ (x = p ∧ r = b ∧ m = c) :=
    graft_lists h ht hun hc hp hpc hname
  -- the new node lists nothing
  have hold : ∀ {q x r m}, t'.Walked q x → t'.IsDir x → t'.Lists x r m →
      t.Walked q x ∧ t.IsDir x := by
    intro q x r m hx hd hl
    rcases (graft_walked h ht hun hc hp hpc hname hroot hq hdir).1 hx with hx | ⟨-, rfl⟩
    · exact ⟨hx, (h.isDir_iff (hun.ne_of_walked ht hroot hx)).1 hd⟩
    · rcases hlists.1 hl with hl | ⟨rfl, -⟩
      · exact absurd hl (hun.not_lists ht)
      · exact absurd rfl hpc
  refine ⟨fun q x r m hx hd hl => ?_, fun q x r m m' hx hd hl hl' => ?_⟩
  · obtain ⟨hx, hd⟩ := hold hx hd hl
    rcases hlists.1 hl with hl | ⟨-, rfl, -⟩
    · exact hleg.component hx hd hl
    · exact hb
  · obtain ⟨hx, hd⟩ := hold hx hd hl
    rcases hlists.1 hl with hl | ⟨rfl, rfl, rfl⟩ <;> rcases hlists.1 hl' with hl' | ⟨h₁, h₂, rfl⟩
    · exact hleg.clear hx hd hl hl'
    · subst h₁ h₂
      exact absurd hl (hname m)
    · exact absurd hl' (hname m')
    · rfl

/-- A new node in a listed directory keeps the tree tidy. -/
theorem Tidy.graft (htidy : t.Tidy) (h : Moved t t' c p b k) (ht : t.Replayed) (hun : t.Unused c)
    (hc : c ≠ TRASH) (hpc : p ≠ c) (hname : ∀ m, ¬t.Lists p b m) (hq : t.ListedAt q₀ p)
    (hdir : t.IsDir p) (hb : IsComponent b) (hfree : t'.ReservedFree) : t'.Tidy := by
  have hp := not_trashed_of_listedAt ht htidy.reserved hq
  have hlists : ∀ {x r m}, t'.Lists x r m ↔ t.Lists x r m ∨ (x = p ∧ r = b ∧ m = c) :=
    graft_lists h ht hun hc hp hpc hname
  have hlisted : ∀ {q n}, t'.ListedAt q n ↔ t.ListedAt q n ∨ (q = q₀ ++ [b] ∧ n = c) :=
    graft_listedAt h ht hun hc hp hpc hname htidy.reserved hq
  have hnew : ∀ {r m}, ¬t'.Lists c r m := by
    intro r m hl
    rcases hlists.1 hl with hl | ⟨rfl, -⟩
    · exact hun.not_lists ht hl
    · exact hpc rfl
  refine ⟨hfree, fun q n r m hn hl => ?_, fun q x r m hx hl => ?_, fun q x r m m' hx hl hl' => ?_⟩
  · rcases hlisted.1 hn with hn | ⟨-, rfl⟩
    · have hne : n ≠ c := fun heq => hnew (heq ▸ hl)
      rw [h.isDir_iff hne]
      rcases hlists.1 hl with hl | ⟨rfl, -⟩
      · exact htidy.leaf hn hl
      · exact hdir
    · exact absurd hl hnew
  · rcases hlisted.1 hx with hx | ⟨-, rfl⟩
    · rcases hlists.1 hl with hl | ⟨-, rfl, -⟩
      · exact htidy.component hx hl
      · exact hb
    · exact absurd hl hnew
  · rcases hlisted.1 hx with hx | ⟨-, rfl⟩
    · rcases hlists.1 hl with hl | ⟨rfl, rfl, rfl⟩ <;> rcases hlists.1 hl' with hl' | ⟨h₁, h₂, rfl⟩
      · exact htidy.clear hx hl hl'
      · subst h₁ h₂
        exact absurd hl (hname m)
      · exact absurd hl' (hname m')
      · rfl
    · exact absurd hl hnew

/-! ## A file that leaves -/

/-- A file that the trash does not lie below. If it is listed under its bare name, it shares it with
no sibling. -/
structure Parts (t : DriveTree) (q₀ : List String) (p : NodeId) (r : String) (c : NodeId) : Prop where
  walked : t.Walked q₀ p
  dir : t.IsDir p
  lists : t.Lists p r c
  file : ¬t.IsDir c
  loose : ¬Reaches t.parentOf TRASH c
  alone : t.Called p r c → ∀ m, t.Called p r m → m = c

theorem Parts.child (hparts : t.Parts q₀ p r c) : t.Walked (q₀ ++ [r]) c :=
  .child hparts.walked hparts.dir hparts.lists

section

variable (h : Moved t t' c TRASH name k) (ht : t.Replayed) (hparts : t.Parts q₀ p r c)
include h ht hparts

theorem prune_called (hx : t.Walked q x) (hne : x ≠ c) :
    t'.Called x b m ↔ t.Called x b m ∧ m ≠ c := by
  by_cases hm : m = c
  · subst hm
    refine iff_of_false (fun hcalled => ?_) fun hcalled => hcalled.2 rfl
    obtain ⟨⟨e, he, rfl, -⟩, -⟩ := h.replayed.mirror.called_iff.1 hcalled
    obtain rfl := Option.some_injective _ ((h.edge_self hparts.loose).symm.trans he)
    exact ne_trash_of_walked ht hx rfl
  · rw [h.called_iff ht (not_reaches_of_walked ht hparts.child hparts.file hx hne) hm,
      and_iff_left hm]

/-- The other entries keep their names. -/
theorem prune_lists {r' : String} (hx : t.Walked q x) (hne : x ≠ c) :
    t'.Lists x r' m ↔ t.Lists x r' m ∧ m ≠ c := by
  have hcalled : ∀ {b m}, t'.Called x b m ↔ t.Called x b m ∧ m ≠ c :=
    prune_called h ht hparts hx hne
  -- a sibling of the file's bare name that was moved later stays
  have hover : ∀ {b m}, t.Called x b c → t.Called x b m → m ≠ c →
      ∃ w, t.Called x b w ∧ t.definingTs c < t.definingTs w := by
    intro b m hcb hm hmc
    obtain ⟨e, he, rfl, -⟩ := ht.edge_of_lists hparts.lists
    obtain ⟨⟨e', he', rfl, -⟩, -⟩ := ht.mirror.called_iff.1 hcb
    obtain rfl := Option.some_injective _ (he.symm.trans he')
    rcases (ht.lists_iff_of_called hcb).1 hparts.lists with ⟨-, rfl⟩ | ⟨hw, -⟩
    · exact absurd (hparts.alone hcb m hm) hmc
    · exact hw
  have hsame : ∀ {b}, t.Called x b m → m ≠ c → (t'.Lists x r' m ↔ t.Lists x r' m) := by
    intro b hm hmc
    have hm' := hcalled.2 ⟨hm, hmc⟩
    rw [h.replayed.lists_iff_of_called hm', ht.lists_iff_of_called hm, h.stamp m hmc]
    refine or_congr (and_congr_left' ⟨fun hmax m₁ hm₁ => ?_, fun hmax m₁ hm₁ => ?_⟩)
      (and_congr_left' ⟨fun ⟨m₁, hm₁, hlt⟩ => ?_, fun ⟨m₁, hm₁, hlt⟩ => ?_⟩)
    · by_cases hc : m₁ = c
      · subst hc
        obtain ⟨w, hw, hlt⟩ := hover hm₁ hm hmc
        have hwc : w ≠ m₁ := fun heq => absurd hlt (heq ▸ lt_irrefl _)
        have hle := hmax w (hcalled.2 ⟨hw, hwc⟩)
        rw [h.stamp w hwc] at hle
        exact (hlt.trans_le hle).le
      · have hle := hmax m₁ (hcalled.2 ⟨hm₁, hc⟩)
        rwa [h.stamp m₁ hc] at hle
    · obtain ⟨hm₁, hc⟩ := hcalled.1 hm₁
      rw [h.stamp m₁ hc]
      exact hmax m₁ hm₁
    · obtain ⟨hm₁, hc⟩ := hcalled.1 hm₁
      rw [h.stamp m₁ hc] at hlt
      exact ⟨m₁, hm₁, hlt⟩
    · by_cases hc : m₁ = c
      · subst hc
        obtain ⟨w, hw, hlt'⟩ := hover hm₁ hm hmc
        have hwc : w ≠ m₁ := fun heq => absurd hlt' (heq ▸ lt_irrefl _)
        exact ⟨w, hcalled.2 ⟨hw, hwc⟩, by rw [h.stamp w hwc]; exact hlt.trans hlt'⟩
      · exact ⟨m₁, hcalled.2 ⟨hm₁, hc⟩, by rwa [h.stamp m₁ hc]⟩
  constructor
  · intro hl
    obtain ⟨b, hb⟩ := h.replayed.called_of_lists hl
    obtain ⟨hm, hmc⟩ := hcalled.1 hb
    exact ⟨(hsame hm hmc).1 hl, hmc⟩
  · rintro ⟨hl, hmc⟩
    obtain ⟨b, hb⟩ := ht.called_of_lists hl
    exact (hsame hb hmc).2 hl

/-- All but the file is walked to where it was. -/
theorem prune_walked : t'.Walked q n ↔ t.Walked q n ∧ n ≠ c := by
  constructor
  · intro hn
    induction hn with
    | root => exact ⟨.root, (ne_root_of_walked ht hparts.walked hparts.lists).symm⟩
    | child _ hd hl ih =>
      obtain ⟨hl, hne⟩ := (prune_lists h ht hparts ih.1 ih.2).1 hl
      exact ⟨.child ih.1 ((h.isDir_iff ih.2).1 hd) hl, hne⟩
  · rintro ⟨hn, hne⟩
    induction hn with
    | root => exact .root
    | @child q p' r' n hp' hd hl ih =>
      have hpc : p' ≠ c := by
        rintro rfl
        exact hparts.file hd
      exact .child (ih hpc) ((h.isDir_iff hpc).2 hd)
        ((prune_lists h ht hparts hp' hpc).2 ⟨hl, hne⟩)

/-- The tree stays legible. -/
theorem Legible.prune (hleg : t.Legible) : t'.Legible := by
  refine ⟨fun q x r m hx hd hl => ?_, fun q x r m m' hx hd hl hl' => ?_⟩
  · obtain ⟨hx, hne⟩ := (prune_walked h ht hparts).1 hx
    exact hleg.component hx ((h.isDir_iff hne).1 hd) ((prune_lists h ht hparts hx hne).1 hl).1
  · obtain ⟨hx, hne⟩ := (prune_walked h ht hparts).1 hx
    exact hleg.clear hx ((h.isDir_iff hne).1 hd) ((prune_lists h ht hparts hx hne).1 hl).1
      ((prune_lists h ht hparts hx hne).1 hl').1

variable (htidy : t.Tidy)
include htidy

theorem prune_lists_of_listedAt {r' : String} (hx : t.ListedAt q x) (hne : x ≠ c) :
    t'.Lists x r' m ↔ t.Lists x r' m ∧ m ≠ c :=
  prune_lists h ht hparts (htidy.walked_iff.2 hx) hne

/-- All but the file is listed where it was. -/
theorem prune_listedAt : t'.ListedAt q n ↔ t.ListedAt q n ∧ n ≠ c := by
  constructor
  · intro hn
    induction hn with
    | root => exact ⟨.root, (ne_root_of_walked ht hparts.walked hparts.lists).symm⟩
    | child _ hl ih =>
      obtain ⟨hl, hne⟩ := (prune_lists_of_listedAt h ht hparts htidy ih.1 ih.2).1 hl
      exact ⟨.child ih.1 hl, hne⟩
  · rw [← htidy.walked_iff]
    exact fun hn => ((prune_walked h ht hparts).2 hn).listedAt

/-- The tree stays tidy. -/
theorem Tidy.prune (hfree : t'.ReservedFree) : t'.Tidy := by
  have hlisted : ∀ {q n}, t'.ListedAt q n ↔ t.ListedAt q n ∧ n ≠ c :=
    prune_listedAt h ht hparts htidy
  have hlists : ∀ {q x r m}, t.ListedAt q x → x ≠ c → t'.Lists x r m → t.Lists x r m :=
    fun hx hne hl => ((prune_lists_of_listedAt h ht hparts htidy hx hne).1 hl).1
  refine ⟨hfree, fun q n r m hn hl => ?_, fun q x r m hx hl => ?_, fun q x r m m' hx hl hl' => ?_⟩
  · obtain ⟨hn, hne⟩ := hlisted.1 hn
    exact (h.isDir_iff hne).2 (htidy.leaf hn (hlists hn hne hl))
  · obtain ⟨hx, hne⟩ := hlisted.1 hx
    exact htidy.component hx (hlists hx hne hl)
  · obtain ⟨hx, hne⟩ := hlisted.1 hx
    exact htidy.clear hx (hlists hx hne hl) (hlists hx hne hl')

end

end DriveTree

end CeDrive
