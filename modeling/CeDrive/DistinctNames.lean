import Mathlib.Data.List.MinMax
import CeDrive.Lookup

/-!
# Distinct names in a listing

A listing shows every child once (`count_readdir`). Of the children of one bare name the one
moved last keeps it, the others get conflict names, which show eight characters of a replica
id and a clock. Two entries can share a name in two ways only : two children of
one bare name were overtaken that were moved at one tick by replicas whose ids start alike,
or the conflict name of a child is the bare name of another. In a directory with neither
(`ClearNames`) the names are distinct, and in no other.
-/

open SortedLog

namespace CeDrive

namespace DriveTree

variable {t : DriveTree} {p c m : NodeId} {b b' r : String}

/-! ## Every child once -/

theorem nodup_map_shownChildren (h : t.Mirror) (p : NodeId) :
    ((t.shownChildren p).map Prod.snd).Nodup := by
  refine (List.nodup_map_iff_inj_on (ascending_shownChildren t p).nodup).2 ?_
  rintro ⟨b, c⟩ hc ⟨b', c'⟩ hc' rfl
  rw [(h.name_unique (mem_shownChildren.1 hc).1 (mem_shownChildren.1 hc').1).1]

theorem nodup_groupOf (h : t.Mirror) (p : NodeId) (b : String) :
    (groupOf (t.shownChildren p) b).Nodup :=
  (nodup_map_shownChildren h p).sublist (List.filter_sublist.map _)

/-- No node is listed twice. -/
theorem nodup_map_readdir (h : t.Mirror) (p : NodeId) :
    ((t.readdir p).map fun e => e.2.1).Nodup := by
  have hperm := (List.perm_insertionSort (fun a b : Listed => a.1 ≤ b.1)
    ((byName (t.shownChildren p)).toList.flatMap fun g => t.renderGroup g.1 g.2)).map fun e => e.2.1
  have hgroup : ∀ g : String × List NodeId, ((t.renderGroup g.1 g.2).map fun e => e.2.1).Perm g.2 := by
    intro g
    have hg := (map_renderGroup_perm t g.1 g.2).map Prod.fst
    simpa [Function.comp_def] using hg
  rw [readdir, hperm.nodup_iff, List.map_flatMap, List.nodup_flatMap]
  constructor
  · intro g hg
    rw [(hgroup g).nodup_iff, (mem_byName.1 (hg : (g.1, g.2) ∈ _)).1]
    exact nodup_groupOf h p g.1
  · have hkeys : (byName (t.shownChildren p)).toList.Pairwise fun g g' => compare g.1 g'.1 = .lt :=
      Std.ExtTreeMap.ordered_keys_toList
    refine hkeys.imp_of_mem fun {g g'} hg hg' hlt c hc hc' => ?_
    rw [(hgroup g).mem_iff, (mem_byName.1 (hg : (g.1, g.2) ∈ _)).1, mem_groupOf] at hc
    rw [(hgroup g').mem_iff, (mem_byName.1 (hg' : (g'.1, g'.2) ∈ _)).1, mem_groupOf] at hc'
    have hname := (h.name_unique (mem_shownChildren.1 hc).1 (mem_shownChildren.1 hc').1).1
    exact (compare_lt_iff_lt.1 hlt).ne hname

/-- A child that is not in the trash is listed exactly once. -/
theorem count_readdir (h : t.Mirror) {e : Edge} (he : t.edges[c]? = some e) (hc : t.isTrashed c = false) :
    ((t.readdir e.parent).map fun l => l.2.1).count c = 1 := by
  refine List.count_eq_one_of_mem (nodup_map_readdir h e.parent) ?_
  obtain ⟨r, k, hmem⟩ := mem_readdir_iff.2 ⟨e.name, h.mem_rawChildren.2 ⟨e, he, rfl, rfl⟩, Or.inr hc⟩
  exact List.mem_map_of_mem (f := fun l : Listed => l.2.1) hmem

/-! ## Conflict names -/

/-- A conflict name determines the bare name, and what it shows of the stamp. -/
theorem conflictName_inj {a a' : Timestamp} (h : conflictName b a = conflictName b' a') :
    b = b' ∧ short a.replica = short a'.replica ∧ a.lamport = a'.lamport := by
  suffices hb : b = b' from ⟨hb, conflictName_injective (hb ▸ h)⟩
  -- of two different bare names one would end within `.conflict-` in the other's conflict name
  have hshort : ∀ s : String, (short s).toList.length ≤ 8 := fun s => by
    simp [short]
  have hlonger : ∀ (s u u' : List Char), u.length ≤ 8 →
      ".conflict-".toList ++ u = s ++ (".conflict-".toList ++ u') → s = [] := by
    intro s u u' hu hs
    by_contra hne
    have hlen := congrArg List.length hs
    have hpos := List.length_pos_of_ne_nil hne
    simp only [List.length_append] at hlen
    have hdot : (".conflict-".toList ++ u)[s.length]? = some '.' := by
      rw [hs, List.getElem?_append_right le_rfl, Nat.sub_self]
      rfl
    have hten : ".conflict-".toList.length = 10 := rfl
    obtain ⟨n, hn⟩ : ∃ n, s.length = n + 1 := ⟨s.length - 1, by omega⟩
    rw [List.getElem?_append_left (by omega), hn,
      show ".conflict-".toList = '.' :: "conflict-".toList from rfl, List.getElem?_cons_succ] at hdot
    exact absurd (List.mem_of_getElem? hdot) (by decide)
  have hlist := congrArg String.toList h
  rw [toList_conflictName, toList_conflictName] at hlist
  have hcut := (append_cons_inj_of_not_mem (a := b.toList ++ (".conflict-".toList ++
    (short a.replica).toList)) (b := b'.toList ++ (".conflict-".toList ++ (short a'.replica).toList))
    (dash_not_mem_toDigits _) (dash_not_mem_toDigits _) (by simpa using hlist)).1
  refine String.toList_inj.1 ?_
  rcases List.append_eq_append_iff.1 hcut with ⟨s, hs, hrest⟩ | ⟨s, hs, hrest⟩
  · rw [hs, hlonger s _ _ (hshort _) hrest, List.append_nil]
  · rw [hs, hlonger s _ _ (hshort _) hrest, List.append_nil]

/-! ## The condition -/

/-- `c` has the bare name `b` in `p`, and another child of that name was moved later. -/
def Overtaken (t : DriveTree) (p : NodeId) (b : String) (c : NodeId) : Prop :=
  t.Called p b c ∧ ∃ m, t.Called p b m ∧ t.definingTs c < t.definingTs m

/-- Overtaken children of one bare name differ in what their conflict names show of their
stamps, and no conflict name is the bare name of a child. -/
structure ClearNames (t : DriveTree) (p : NodeId) : Prop where
  stamps : ∀ b c c', t.Overtaken p b c → t.Overtaken p b c' →
    (t.definingTs c).lamport = (t.definingTs c').lamport →
    short (t.definingTs c).replica = short (t.definingTs c').replica → c = c'
  names : ∀ b c b' m, t.Overtaken p b c → t.Called p b' m → conflictName b (t.definingTs c) ≠ b'

theorem Overtaken.lists (h : t.Replayed) (hc : t.Overtaken p b c) :
    t.Lists p (conflictName b (t.definingTs c)) c :=
  h.lists_iff.2 ⟨b, hc.1, Or.inr ⟨hc.2, rfl⟩⟩

/-- Some child of a bare name that is held keeps it. -/
theorem Replayed.exists_lists (h : t.Replayed) (hm : t.Called p b m) :
    ∃ w, t.Called p b w ∧ t.Lists p b w := by
  cases hw : (groupOf (t.shownChildren p) b).argmax t.definingTs with
  | none =>
    have hnil := List.argmax_eq_none.1 hw
    exact absurd (hnil ▸ mem_groupOf.2 hm) List.not_mem_nil
  | some w =>
    have hwb : t.Called p b w := mem_groupOf.1 (List.argmax_mem hw)
    exact ⟨w, hwb, h.lists_iff.2 ⟨b, hwb, Or.inl ⟨fun x hx =>
      List.le_of_mem_argmax (mem_groupOf.2 hx) hw, rfl⟩⟩⟩

/-- The names of a listing are distinct if no two children are listed under one name. -/
theorem nodup_names_iff (h : t.Mirror) :
    ((t.readdir p).map Prod.fst).Nodup ↔ ∀ r c c', t.Lists p r c → t.Lists p r c' → c = c' := by
  have hnd : (t.readdir p).Nodup := (nodup_map_readdir h p).of_map _
  rw [List.nodup_map_iff_inj_on hnd]
  constructor
  · rintro hinj r c c' ⟨k, hk⟩ ⟨k', hk'⟩
    exact congrArg (fun e : Listed => e.2.1) (hinj _ hk _ hk' rfl)
  · rintro hone ⟨r, c, k⟩ hk ⟨r', c', k'⟩ hk' rfl
    obtain rfl := hone r c c' ⟨k, hk⟩ ⟨k', hk'⟩
    obtain ⟨-, -, rfl, -⟩ := shown_of_mem_readdir hk
    obtain ⟨-, -, rfl, -⟩ := shown_of_mem_readdir hk'
    rfl

theorem Replayed.lists_injective_iff (h : t.Replayed) :
    (∀ r c c', t.Lists p r c → t.Lists p r c' → c = c') ↔ t.ClearNames p := by
  constructor
  · intro hone
    refine ⟨fun b c c' hc hc' hl hr => ?_, fun b c b' m hc hm heq => ?_⟩
    · have hname : conflictName b (t.definingTs c) = conflictName b (t.definingTs c') := by
        simp [conflictName, hl, hr]
      exact hone _ c c' (hc.lists h) (hname ▸ hc'.lists h)
    · subst heq
      obtain ⟨w, hwb, hw⟩ := h.exists_lists hm
      obtain rfl := hone _ c w (hc.lists h) hw
      exact DriveTree.conflictName_ne b _ (h.mirror.called_unique hwb hc.1)
  · intro hclear r c c' hc hc'
    obtain ⟨b, hb, ⟨hmax, rfl⟩ | ⟨hm, rfl⟩⟩ := h.lists_iff.1 hc <;>
      obtain ⟨b', hb', ⟨hmax', hr⟩ | ⟨hm', hr⟩⟩ := h.lists_iff.1 hc'
    · subst hr
      exact h.eq_of_definingTs_eq hb hb' (le_antisymm (hmax' c hb) (hmax c' hb'))
    · exact absurd hr.symm (hclear.names b' c' r c ⟨hb', hm'⟩ hb)
    · exact absurd hr (hclear.names b c b' c' ⟨hb, hm⟩ hb')
    · obtain ⟨rfl, hs, hl⟩ := conflictName_inj hr
      exact hclear.stamps b c c' ⟨hb, hm⟩ ⟨hb', hm'⟩ hl hs

/-- Listings. After any sequence of deliveries a directory lists every child that is not in
the trash exactly once, and its names are pairwise distinct exactly if they are clear. -/
theorem readdir_distinct_iff (ops : List MoveOp) (p : NodeId) :
    ((∀ c e, (applyAll ops).edges[c]? = some e → e.parent = p → (applyAll ops).isTrashed c = false →
        (((applyAll ops).readdir p).map fun l => l.2.1).count c = 1) ∧
      (((applyAll ops).readdir p).map Prod.fst).Nodup) ↔ (applyAll ops).ClearNames p := by
  have h := replayed_applyAll ops
  rw [nodup_names_iff h.mirror, h.lists_injective_iff]
  exact and_iff_right fun c e he hparent hc => hparent ▸ count_readdir h.mirror he hc

/-- A file whose own name is the conflict name of another. -/
theorem readdir_shows_name_twice :
    let t := applyAll [⟨⟨1, "r"⟩, "f", ROOT, "a", .file⟩, ⟨⟨2, "r"⟩, "g", ROOT, "a", .file⟩,
      ⟨⟨3, "r"⟩, "h", ROOT, "a.conflict-r-1", .file⟩]
    t.isTrashed ROOT = false ∧ ¬((t.readdir ROOT).map Prod.fst).Nodup := by
  decide +kernel

end DriveTree

end CeDrive
