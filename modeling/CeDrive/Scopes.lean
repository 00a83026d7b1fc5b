import CeDrive.Names
import CeDrive.Paths

/-!
# Scopes

`normalize_scope` of `crates/ce-drive-core/src/share.rs` cuts the white space around a path,
then the slashes. On a path whose components are all visible this cuts blanks off the first
component, if no slash is before it, and off the last, if no slash is after it
(`toList_normalizeScope`). A second time it cuts the blanks after the last component, which
no slash follows any more (`toList_normalizeScope_twice`).
-/

namespace CeDrive

open DriveTree

/-! ## White space -/

/-- `str::trim_start`. -/
def trimStart (s : String) : String :=
  String.ofList (s.toList.dropWhile isWhiteSpace)

/-- `str::trim_end`. -/
def trimEnd (s : String) : String :=
  String.ofList (s.toList.rdropWhile isWhiteSpace)

/-- `str::trim`. -/
def trim (s : String) : String :=
  trimEnd (trimStart s)

/-- Ensure a leading slash, and no trailing one except for the root. -/
def normalizeScope (scope : String) : String :=
  if trimSlashes (trim scope) = "" then "/" else "/" ++ trimSlashes (trim scope)

/-- A name with no slash and something other than white space. -/
structure Visible (b : String) : Prop where
  slash : '/' ∉ b.toList
  char : ∃ c ∈ b.toList, isWhiteSpace c = false

/-- Cut the blanks before the first name. -/
def cutFront : List String → List String
  | [] => []
  | b :: names => trimStart b :: names

/-- Cut the blanks after the last name. -/
def cutBack : List String → List String
  | [] => []
  | [b] => [trimEnd b]
  | b :: c :: names => b :: cutBack (c :: names)

/-- Cut the blanks at the ends the flags name. -/
def cut (front back : Bool) (names : List String) : List String :=
  let names := if front then cutFront names else names
  if back then cutBack names else names

/-- The path starts with a slash. -/
def slashFirst (path : String) : Bool :=
  path.toList.head? = some '/'

/-- The path ends with a slash. -/
def slashLast (path : String) : Bool :=
  path.toList.getLast? = some '/'

section Lists

variable {α : Type*} {p : α → Bool} {l l' : List α} {a : α}

theorem rdropWhile_append_of_exists (h : ∃ x ∈ l', p x = false) :
    (l ++ l').rdropWhile p = l ++ l'.rdropWhile p := by
  have hne : (l'.reverse.dropWhile p).isEmpty = false := by
    obtain ⟨x, hx, hpx⟩ := h
    rw [← Bool.not_eq_true, List.isEmpty_iff, List.dropWhile_eq_nil_iff]
    exact fun hall => by simpa [hpx] using hall x (List.mem_reverse.2 hx)
  rw [List.rdropWhile, List.reverse_append, List.dropWhile_append, hne]
  simp [List.rdropWhile]

theorem dropWhile_append_of_exists (h : ∃ x ∈ l, p x = false) :
    (l ++ l').dropWhile p = l.dropWhile p ++ l' := by
  have hne : (l.dropWhile p).isEmpty = false := by
    obtain ⟨x, hx, hpx⟩ := h
    rw [← Bool.not_eq_true, List.isEmpty_iff, List.dropWhile_eq_nil_iff]
    exact fun hall => by simpa [hpx] using hall x hx
  rw [List.dropWhile_append, hne]
  simp

/-- Of two lists, cut at the first separator. -/
theorem append_cons_prefix_iff {u v : List α} (h : a ∉ l) (h' : a ∉ l') :
    l ++ a :: u <+: l' ++ a :: v ↔ l = l' ∧ u <+: v := by
  induction l generalizing l' with
  | nil =>
    cases l' with
    | nil => simp
    | cons c l' => simp [(List.ne_of_not_mem_cons h')]
  | cons c l ih =>
    cases l' with
    | nil => simp [(List.ne_of_not_mem_cons h).symm]
    | cons d l' =>
      simp [ih (List.not_mem_of_not_mem_cons h) (List.not_mem_of_not_mem_cons h'), and_assoc]

theorem rdropWhile_cons (ha : p a = false) (l : List α) :
    (a :: l).rdropWhile p = a :: l.rdropWhile p := by
  induction l using List.reverseRecOn with
  | nil => simp [List.rdropWhile_singleton, ha]
  | append_singleton l x ih =>
    rw [← List.cons_append]
    by_cases hx : p x = true
    · rw [List.rdropWhile_concat_pos _ _ _ hx, List.rdropWhile_concat_pos _ _ _ hx, ih]
    · rw [List.rdropWhile_concat_neg _ _ _ hx, List.rdropWhile_concat_neg _ _ _ hx,
        List.cons_append]

theorem exists_dropWhile (h : ∃ x ∈ l, p x = false) : ∃ x ∈ l.dropWhile p, p x = false := by
  obtain ⟨x, hx, hpx⟩ := h
  rw [← List.takeWhile_append_dropWhile (p := p) (l := l), List.mem_append] at hx
  refine ⟨x, hx.resolve_left fun hx => ?_, hpx⟩
  simpa [hpx] using List.mem_takeWhile_imp hx

theorem exists_rdropWhile (h : ∃ x ∈ l, p x = false) : ∃ x ∈ l.rdropWhile p, p x = false := by
  obtain ⟨x, hx, hpx⟩ := h
  rw [← List.rdropWhile_append_rtakeWhile (p := p) (l := l), List.mem_append] at hx
  refine ⟨x, hx.resolve_right fun hx => ?_, hpx⟩
  simpa [hpx] using List.mem_rtakeWhile_imp hx

end Lists

variable {b path : String} {names names' : List String}

theorem Visible.ne (h : Visible b) : b.toList ≠ [] := by
  obtain ⟨c, hc, -⟩ := h.char
  exact List.ne_nil_of_mem hc

theorem Visible.trimStart (h : Visible b) : Visible (trimStart b) where
  slash hmem := h.slash ((List.dropWhile_suffix _).subset (by simpa [CeDrive.trimStart] using hmem))
  char := by simpa [CeDrive.trimStart] using exists_dropWhile h.char

theorem Visible.trimEnd (h : Visible b) : Visible (trimEnd b) where
  slash hmem := h.slash ((List.rdropWhile_prefix _ _).subset (by simpa [CeDrive.trimEnd] using hmem))
  char := by simpa [CeDrive.trimEnd] using exists_rdropWhile h.char

theorem visible_cutFront (h : ∀ b ∈ names, Visible b) : ∀ b ∈ cutFront names, Visible b := by
  cases names with
  | nil => exact h
  | cons a names =>
    simp only [cutFront, List.forall_mem_cons] at h ⊢
    exact ⟨h.1.trimStart, h.2⟩

theorem visible_cutBack (h : ∀ b ∈ names, Visible b) : ∀ b ∈ cutBack names, Visible b := by
  fun_induction cutBack names with
  | case1 => exact h
  | case2 b => simpa using (h b List.mem_cons_self).trimEnd
  | case3 b c names ih =>
    rw [List.forall_mem_cons] at h ⊢
    exact ⟨h.1, ih h.2⟩

theorem visible_cut (front back : Bool) (h : ∀ b ∈ names, Visible b) :
    ∀ b ∈ cut front back names, Visible b := by
  unfold cut
  cases front <;> cases back
  · exact h
  · exact visible_cutBack h
  · exact visible_cutFront h
  · exact visible_cutBack (visible_cutFront h)

theorem cutFront_eq_nil : cutFront names = [] ↔ names = [] := by
  cases names <;> simp [cutFront]

theorem cutBack_eq_nil : cutBack names = [] ↔ names = [] := by
  fun_cases cutBack names <;> simp

theorem cut_eq_nil (front back : Bool) : cut front back names = [] ↔ names = [] := by
  unfold cut
  cases front <;> cases back <;> simp [cutFront_eq_nil, cutBack_eq_nil]

theorem cutBack_cutBack (names : List String) : cutBack (cutBack names) = cutBack names := by
  fun_induction cutBack names with
  | case1 => rfl
  | case2 b => simp [cutBack, trimEnd, List.rdropWhile_idempotent]
  | case3 b c names ih =>
    obtain ⟨d, names', hd⟩ := List.exists_cons_of_ne_nil (cutBack_eq_nil.not.2 (List.cons_ne_nil c names))
    rw [hd] at ih ⊢
    rw [cutBack, ih]

/-- The last blanks are cut once. -/
theorem cutBack_cut (front back : Bool) (names : List String) :
    cut false true (cut front back names) = cut front true names := by
  unfold cut
  cases back <;> simp [cutBack_cutBack]

/-! ## Names between slashes -/

theorem slashed_cons (b : String) (names : List String) :
    slashed (b :: names) = '/' :: (b.toList ++ slashed names) :=
  rfl

/-- Visible names can be read off again. -/
theorem partsOf_slashed (h : ∀ b ∈ names, Visible b) : partsOf (slashed names) = names ∧
    (slashed names).rdropWhile (· = '/') = slashed names := by
  induction names using List.reverseRecOn with
  | nil => exact ⟨rfl, rfl⟩
  | append_singleton names b ih =>
    obtain ⟨hparts, hlast⟩ := ih fun c hc => h c (List.mem_append_left _ hc)
    have hb : Visible b := h b (by simp)
    rw [slashed_append, slashed_singleton]
    refine ⟨?_, ?_⟩
    · rw [partsOf_append_slash_cons hlast hb.ne hb.slash, hparts, String.ofList_toList]
    · refine List.rdropWhile_eq_self_iff.2 fun hne => ?_
      have hmem : (slashed names ++ '/' :: b.toList).getLast hne ∈ b.toList := by
        rw [List.getLast_append_of_ne_nil _ (List.cons_ne_nil _ _), List.getLast_cons hb.ne]
        exact List.getLast_mem hb.ne
      intro heq
      exact hb.slash (of_decide_eq_true heq ▸ hmem)

/-- The slashes around a path do not count. -/
theorem stripped_append {L R l : List Char} (hL : ∀ c ∈ L, c = '/') (hR : ∀ c ∈ R, c = '/') :
    stripped (L ++ l ++ R) = stripped l := by
  have hright : stripped (l ++ R) = stripped l := by
    induction R using List.reverseRecOn with
    | nil => rw [List.append_nil]
    | append_singleton R c ih =>
      rw [← List.append_assoc, hR c (by simp), stripped_append_slash]
      exact ih fun d hd => hR d (List.mem_append_left _ hd)
  induction L with
  | nil => exact hright
  | cons c L ih =>
    rw [hL c List.mem_cons_self, List.cons_append, List.cons_append, stripped_slash_cons]
    exact ih fun d hd => hL d (List.mem_cons_of_mem _ hd)

theorem stripped_slashed (hne : names ≠ []) (h : ∀ b ∈ names, Visible b) :
    '/' :: stripped (slashed names) = slashed names := by
  have hself := slashed_partsOf (slashed names)
  rw [(partsOf_slashed h).1] at hself
  split_ifs at hself with hempty
  · cases names with
    | nil => exact absurd rfl hne
    | cons b names => cases hself
  · exact hself.symm

theorem split_stripped (l : List Char) : l = l.takeWhile (· = '/') ++
    (stripped l ++ (l.dropWhile (· = '/')).rtakeWhile (· = '/')) := by
  rw [stripped, List.rdropWhile_append_rtakeWhile, List.takeWhile_append_dropWhile]

theorem eq_slash_of_mem_takeWhile (l : List Char) : ∀ c ∈ l.takeWhile (· = '/'), c = '/' := by
  intro c hc
  simpa using List.mem_takeWhile_imp hc

theorem eq_slash_of_mem_rtakeWhile (l : List Char) : ∀ c ∈ l.rtakeWhile (· = '/'), c = '/' := by
  intro c hc
  simpa using List.mem_rtakeWhile_imp hc

/-- A path is its components, with slashes around them. -/
theorem exists_slashes (hnames : components path = names) (hne : names ≠ []) : ∃ L R,
    (∀ c ∈ L, c = '/') ∧ (∀ c ∈ R, c = '/') ∧ (slashFirst path = false ↔ L = []) ∧
      (slashLast path = false ↔ R = []) ∧ '/' :: path.toList = L ++ slashed names ++ R := by
  have hslashed := slashed_partsOf path.toList
  rw [← components_eq, hnames] at hslashed
  split_ifs at hslashed with hempty
  · rw [components_eq, partsOf, if_pos hempty] at hnames
    exact absurd hnames.symm hne
  have hsplit := split_stripped path.toList
  have hL := eq_slash_of_mem_takeWhile path.toList
  have hR := eq_slash_of_mem_rtakeWhile (path.toList.dropWhile (· = '/'))
  refine ⟨_, _, hL, hR, ?_, ?_, ?_⟩
  · unfold slashFirst
    cases path.toList with
    | nil => simp
    | cons c l => by_cases hc : c = '/' <;> simp [hc]
  · have hlast : path.toList.getLast? = (stripped path.toList ++
        (path.toList.dropWhile (· = '/')).rtakeWhile (· = '/')).getLast? := by
      conv_lhs => rw [hsplit, List.getLast?_append_of_ne_nil _ (by simp [hempty])]
    rw [slashLast, hlast]
    generalize (path.toList.dropWhile (· = '/')).rtakeWhile (· = '/') = R at hR ⊢
    rcases List.eq_nil_or_concat' R with rfl | ⟨R, c, rfl⟩
    · have hend : ¬decide ((stripped path.toList).getLast hempty = '/') = true :=
        List.rdropWhile_last_not _ _ hempty
      rw [List.append_nil, List.getLast?_eq_some_getLast hempty]
      simpa using hend
    · simp [hR c (by simp)]
  · have hcomm : ∀ L : List Char, (∀ c ∈ L, c = '/') → '/' :: L = L ++ ['/'] := by
      intro L hL
      rw [List.eq_replicate_of_mem hL, ← List.replicate_succ, List.replicate_succ']
    rw [hslashed]
    conv_lhs => rw [hsplit]
    rw [← List.cons_append, hcomm _ hL]
    simp

/-! ## Cutting blanks -/

theorem slashed_cutFront (h : ∀ b ∈ names, Visible b) {l R : List Char}
    (hl : '/' :: l = slashed names ++ R) (hne : names ≠ []) :
    '/' :: l.dropWhile isWhiteSpace = slashed (cutFront names) ++ R := by
  cases names with
  | nil => exact absurd rfl hne
  | cons b names =>
    rw [slashed_cons, List.cons_append, List.cons.injEq] at hl
    rw [hl.2, List.append_assoc, dropWhile_append_of_exists (h b List.mem_cons_self).char, cutFront,
      slashed_cons]
    simp [trimStart]

theorem rdropWhile_slashed (h : ∀ b ∈ names, Visible b) :
    (slashed names).rdropWhile isWhiteSpace = slashed (cutBack names) := by
  fun_induction cutBack names with
  | case1 => rfl
  | case2 b =>
    have hcons : slashed [b] = ['/'] ++ b.toList := slashed_singleton b
    rw [hcons, rdropWhile_append_of_exists (h b List.mem_cons_self).char, slashed_singleton]
    simp [trimEnd]
  | case3 b c names ih =>
    rw [List.forall_mem_cons] at h
    have hslash : ∃ d ∈ slashed (c :: names), isWhiteSpace d = false :=
      ⟨'/', List.mem_cons_self, by decide⟩
    have hcons : slashed (b :: c :: names) = '/' :: b.toList ++ slashed (c :: names) := rfl
    rw [hcons, rdropWhile_append_of_exists hslash, ih h.2]
    rfl

/-- The white space around a path is cut off its first and last component, unless slashes
stand there. -/
theorem slashed_trim (hnames : components path = names) (hne : names ≠ [])
    (h : ∀ b ∈ names, Visible b) : ∃ L R, (∀ c ∈ L, c = '/') ∧ (∀ c ∈ R, c = '/') ∧
      '/' :: (trim path).toList =
        L ++ slashed (cut (!slashFirst path) (!slashLast path) names) ++ R := by
  obtain ⟨L, R, hL, hR, hfirst, hlast, hpath⟩ := exists_slashes hnames hne
  refine ⟨L, R, hL, hR, ?_⟩
  have hfront : '/' :: path.toList.dropWhile isWhiteSpace =
      L ++ slashed (cut (!slashFirst path) false names) ++ R := by
    cases hf : slashFirst path with
    | false =>
      rw [hfirst.1 hf, List.nil_append] at hpath ⊢
      exact slashed_cutFront h hpath hne
    | true =>
      obtain ⟨l, hl⟩ := List.head?_eq_some_iff.1 (of_decide_eq_true hf)
      rw [hl, List.dropWhile_cons_of_neg (by decide), ← hl]
      exact hpath
  have hnames' := visible_cut (!slashFirst path) false h
  rw [trim, trimEnd, trimStart, String.toList_ofList, String.toList_ofList,
    ← rdropWhile_cons (by decide), hfront]
  cases hl : slashLast path with
  | false =>
    have hslash : ∃ c ∈ slashed (cut (!slashFirst path) false names), isWhiteSpace c = false := by
      obtain ⟨b, rest, hb⟩ := List.exists_cons_of_ne_nil ((cut_eq_nil _ _).not.2 hne)
      exact ⟨'/', by rw [hb, slashed_cons]; exact List.mem_cons_self, by decide⟩
    rw [hlast.1 hl, List.append_nil, List.append_nil, rdropWhile_append_of_exists hslash,
      rdropWhile_slashed hnames']
    rfl
  | true =>
    obtain rfl | ⟨R, c, rfl⟩ := List.eq_nil_or_concat' R
    · simp [hlast.2] at hl
    · rw [hR c (by simp), ← List.append_assoc, List.rdropWhile_concat_neg _ _ _ (by decide),
        List.append_assoc]
      rfl

/-- What a scope is normalized to. -/
theorem toList_normalizeScope (hnames : components path = names) (hne : names ≠ [])
    (h : ∀ b ∈ names, Visible b) : (normalizeScope path).toList =
      slashed (cut (!slashFirst path) (!slashLast path) names) := by
  obtain ⟨L, R, hL, hR, htrim⟩ := slashed_trim hnames hne h
  have hcut := visible_cut (!slashFirst path) (!slashLast path) h
  have hstripped : '/' :: stripped (trim path).toList =
      slashed (cut (!slashFirst path) (!slashLast path) names) := by
    rw [← stripped_slash_cons, htrim, stripped_append hL hR,
      stripped_slashed ((cut_eq_nil _ _).not.2 hne) hcut]
  have hlist : (trimSlashes (trim path)).toList = stripped (trim path).toList := by
    rw [trimSlashes, String.toList_ofList, stripped]
  have hne' : trimSlashes (trim path) ≠ "" := by
    intro hempty
    rw [← hlist, hempty] at hstripped
    obtain ⟨b, rest, hb⟩ := List.exists_cons_of_ne_nil
      ((cut_eq_nil (!slashFirst path) (!slashLast path)).not.2 hne)
    rw [hb, slashed_cons] at hstripped
    have hb' : Visible b := hcut b (hb ▸ List.mem_cons_self)
    simp [hb'.ne] at hstripped
  have hroot : "/".toList = ['/'] := by decide
  rw [normalizeScope, if_neg hne', String.toList_append, hlist, ← hstripped, hroot,
    List.singleton_append]

/-- A path of slashes is normalized to the root. -/
theorem normalizeScope_of_root (hroot : components path = []) : normalizeScope path = "/" := by
  have hempty : stripped path.toList = [] := by
    rw [components_eq, partsOf] at hroot
    split_ifs at hroot with hempty
    · exact hempty
    · exact absurd (List.map_eq_nil_iff.1 hroot) (List.splitOn_ne_nil _ _)
  have hslashes : ∀ c ∈ path.toList, c = '/' := by
    intro c hc
    rw [← List.takeWhile_append_dropWhile (p := (· = '/')) (l := path.toList)] at hc
    rcases List.mem_append.1 hc with hc | hc
    · simpa using List.mem_takeWhile_imp hc
    · simpa using List.rdropWhile_eq_nil_iff.1 hempty c hc
  have hsub : ∀ c ∈ (trim path).toList, c = '/' := by
    intro c hc
    rw [trim, trimEnd, trimStart, String.toList_ofList, String.toList_ofList] at hc
    exact hslashes c ((List.dropWhile_suffix _).subset ((List.rdropWhile_prefix _ _).subset hc))
  have htrim : trimSlashes (trim path) = "" := by
    rw [trimSlashes, List.dropWhile_eq_nil_iff.2 fun c hc => decide_eq_true (hsub c hc)]
    rfl
  rw [normalizeScope, if_pos htrim]

/-- The second time, the blanks after the last component are cut. -/
theorem toList_normalizeScope_twice (hnames : components path = names) (hne : names ≠ [])
    (h : ∀ b ∈ names, Visible b) : (normalizeScope (normalizeScope path)).toList =
      slashed (cut (!slashFirst path) true names) := by
  have hlist := toList_normalizeScope hnames hne h
  have hcut := visible_cut (!slashFirst path) (!slashLast path) h
  have hne' := (cut_eq_nil (!slashFirst path) (!slashLast path)).not.2 hne
  obtain ⟨hparts, hself⟩ := partsOf_slashed hcut
  have hcomps : components (normalizeScope path) =
      cut (!slashFirst path) (!slashLast path) names := by
    rw [components_eq, hlist, hparts]
  have hfirst : slashFirst (normalizeScope path) = true := by
    obtain ⟨b, rest, hb⟩ := List.exists_cons_of_ne_nil hne'
    rw [slashFirst, hlist, hb, slashed_cons]
    rfl
  have hlast : slashLast (normalizeScope path) = false := by
    have hcons : slashed (cut (!slashFirst path) (!slashLast path) names) ≠ [] := by
      obtain ⟨b, rest, hb⟩ := List.exists_cons_of_ne_nil hne'
      rw [hb, slashed_cons]
      exact List.cons_ne_nil _ _
    have hend := List.rdropWhile_eq_self_iff.1 hself hcons
    rw [slashLast, hlist, List.getLast?_eq_some_getLast hcons]
    simpa using hend
  rw [toList_normalizeScope hcomps hne' hcut, hfirst, hlast, Bool.not_true, Bool.not_false,
    cutBack_cut]

theorem slashed_append_slash (names : List String) : ∃ u, slashed names ++ ['/'] = '/' :: u := by
  cases names with
  | nil => exact ⟨[], rfl⟩
  | cons b names => exact ⟨_, rfl⟩

/-- One path lies at or under another if its components extend those of the other. -/
theorem slashed_within_iff (h : ∀ b ∈ names, '/' ∉ b.toList) (h' : ∀ b ∈ names', '/' ∉ b.toList) :
    slashed names' = slashed names ∨ slashed names ++ ['/'] <+: slashed names' ↔ names <+: names' := by
  have hclosed : slashed names ++ ['/'] <+: slashed names' ++ ['/'] ↔ names <+: names' := by
    induction names generalizing names' with
    | nil => cases names' <;> simp [slashed_cons]
    | cons a names ih =>
      cases names' with
      | nil => simp [slashed_cons]
      | cons b names' =>
        rw [List.forall_mem_cons] at h h'
        rw [slashed_cons, slashed_cons, List.cons_append, List.cons_append, List.cons_prefix_cons,
          List.cons_prefix_cons, ← ih h.2 h'.2, List.append_assoc, List.append_assoc]
        obtain ⟨u, hu⟩ := slashed_append_slash names
        obtain ⟨v, hv⟩ := slashed_append_slash names'
        rw [hu, hv, and_iff_right rfl, append_cons_prefix_iff h.1 h'.1, String.toList_inj,
          List.cons_prefix_cons, and_iff_right rfl]
  rw [← hclosed, List.prefix_concat_iff]
  simp [eq_comm]

/-- The components a granted scope is compared by. -/
def scopeParts (scope : String) : List String :=
  cut (!slashFirst scope) true (components scope)

/-- The components a path is compared by. -/
def pathParts (path : String) : List String :=
  cut (!slashFirst path) (!slashLast path) (components path)

/-- The texts are compared as the cut components are. -/
theorem normalizeScope_within_iff {scope : String} (hs : ∀ b ∈ components scope, Visible b)
    (hp : ∀ b ∈ components path, Visible b) :
    normalizeScope (normalizeScope scope) = "/" ∨
        normalizeScope path = normalizeScope (normalizeScope scope) ∨
        (normalizeScope (normalizeScope scope) ++ "/").toList <+: (normalizeScope path).toList ↔
      scopeParts scope <+: pathParts path := by
  have hroot : "/".toList = ['/'] := by decide
  by_cases hscope : components scope = []
  · have hnil : scopeParts scope = [] := (cut_eq_nil _ _).2 hscope
    have hsame : normalizeScope "/" = "/" := normalizeScope_of_root (by decide)
    rw [hnil, normalizeScope_of_root hscope, hsame]
    simp
  · have hpfx := toList_normalizeScope_twice rfl hscope hs
    obtain ⟨b, rest, hb⟩ := List.exists_cons_of_ne_nil
      ((cut_eq_nil (!slashFirst scope) true).not.2 hscope)
    have hvis := visible_cut (!slashFirst scope) true hs
    have hb' : Visible b := hvis b (hb ▸ List.mem_cons_self)
    have hne : normalizeScope (normalizeScope scope) ≠ "/" := by
      intro heq
      rw [heq, hb, slashed_cons, hroot] at hpfx
      simp [hb'.ne] at hpfx
    rw [or_iff_right hne, ← String.toList_inj, String.toList_append, hpfx, hroot]
    by_cases hpath : components path = []
    · have hnil : pathParts path = [] := (cut_eq_nil _ _).2 hpath
      rw [normalizeScope_of_root hpath, hnil, scopeParts, hb, slashed_cons, hroot]
      simp [hb'.ne]
    · rw [toList_normalizeScope rfl hpath hp]
      exact slashed_within_iff (fun c hc => (hvis c hc).slash)
        fun c hc => (visible_cut _ _ hp c hc).slash

/-! ## Blanks at the ends -/

/-- The name starts with white space. -/
def blankFirst (b : String) : Bool :=
  (b.toList.head?).any isWhiteSpace

/-- The name ends with white space. -/
def blankLast (b : String) : Bool :=
  (b.toList.getLast?).any isWhiteSpace

theorem trimStart_eq (h : blankFirst b = false) : trimStart b = b := by
  rw [trimStart, ← String.toList_inj, String.toList_ofList]
  unfold blankFirst at h
  cases hb : b.toList with
  | nil => rfl
  | cons c l =>
    rw [hb] at h
    simpa using h

theorem trimEnd_eq (h : blankLast b = false) : trimEnd b = b := by
  rw [trimEnd, ← String.toList_inj, String.toList_ofList, List.rdropWhile_eq_self_iff]
  intro hne
  rw [blankLast, List.getLast?_eq_some_getLast hne] at h
  simpa using h

theorem blankFirst_trimStart (b : String) : blankFirst (trimStart b) = false := by
  rw [blankFirst, trimStart, String.toList_ofList]
  have hhead := List.head?_dropWhile_not isWhiteSpace b.toList
  cases hd : (b.toList.dropWhile isWhiteSpace).head? with
  | none => rfl
  | some c => simpa [hd] using hhead

theorem blankLast_trimEnd (b : String) : blankLast (trimEnd b) = false := by
  rw [blankLast, trimEnd, String.toList_ofList]
  by_cases hne : b.toList.rdropWhile isWhiteSpace = []
  · rw [hne]
    rfl
  · rw [List.getLast?_eq_some_getLast hne]
    simpa using List.rdropWhile_last_not _ _ hne

theorem Visible.blankFirst_trimEnd (h : Visible b) : blankFirst (CeDrive.trimEnd b) = blankFirst b := by
  have hne := h.trimEnd.ne
  rw [CeDrive.trimEnd, String.toList_ofList] at hne
  rw [blankFirst, blankFirst, CeDrive.trimEnd, String.toList_ofList]
  conv_rhs => rw [← List.rdropWhile_append_rtakeWhile (p := isWhiteSpace) (l := b.toList)]
  rw [List.head?_append_of_ne_nil _ hne]

theorem Visible.blankLast_trimStart (h : Visible b) :
    blankLast (CeDrive.trimStart b) = blankLast b := by
  have hne := h.trimStart.ne
  rw [CeDrive.trimStart, String.toList_ofList] at hne
  rw [blankLast, blankLast, CeDrive.trimStart, String.toList_ofList]
  conv_rhs => rw [← List.takeWhile_append_dropWhile (p := isWhiteSpace) (l := b.toList)]
  rw [List.getLast?_append_of_ne_nil _ hne]

/-- `b` without the blanks before it, if the flag says so. -/
def cutName (front : Bool) (b : String) : String :=
  if front then trimStart b else b

theorem Visible.cutName (h : Visible b) (front : Bool) : Visible (cutName front b) := by
  cases front
  · exact h
  · exact h.trimStart

theorem blankFirst_cutName (front : Bool) (b : String) :
    blankFirst (cutName front b) = (!front && blankFirst b) := by
  cases front
  · rfl
  · exact blankFirst_trimStart b

theorem cutName_eq_iff (f f' : Bool) :
    cutName f b = cutName f' b ↔ (blankFirst b = true → f = f') := by
  constructor
  · intro heq hb
    have hfirst := congrArg blankFirst heq
    simpa [blankFirst_cutName, hb] using hfirst
  · intro hf
    cases hb : blankFirst b with
    | true => rw [hf hb]
    | false => cases f <;> cases f' <;> simp [cutName, trimStart_eq hb]

/-- One name, cut in two ways. -/
theorem Visible.trimEnd_cutName_eq_iff (h : Visible b) (f f' e : Bool) :
    CeDrive.trimEnd (CeDrive.cutName f b) =
        (if e then CeDrive.trimEnd (CeDrive.cutName f' b) else CeDrive.cutName f' b) ↔
      (blankFirst b = true → f = f') ∧ (blankLast b = true → e = true) := by
  have hlast : ∀ f, blankLast (CeDrive.cutName f b) = blankLast b := by
    intro f
    cases f
    · rfl
    · exact h.blankLast_trimStart
  have hfirst : ∀ f, blankFirst (CeDrive.trimEnd (CeDrive.cutName f b)) = (!f && blankFirst b) :=
    fun f => ((h.cutName f).blankFirst_trimEnd).trans (blankFirst_cutName f b)
  constructor
  · intro heq
    have hf := congrArg blankFirst heq
    have hl := congrArg blankLast heq
    rw [blankLast_trimEnd] at hl
    refine ⟨fun hb => ?_, fun hb => ?_⟩
    · cases e <;> simpa [hfirst, blankFirst_cutName, hb] using hf
    · cases e
      · simp [hlast, hb] at hl
      · rfl
  · rintro ⟨hf, hl⟩
    rw [(cutName_eq_iff f f').2 hf]
    cases e
    · have hb : blankLast b = false := by simpa using hl
      exact trimEnd_eq ((hlast f').trans hb)
    · rfl

theorem trimEnd_eq_iff : trimEnd b = b ↔ blankLast b = false :=
  ⟨fun h => h ▸ blankLast_trimEnd b, trimEnd_eq⟩

/-- The last blanks of a path under another, cut off the one only, or off both. -/
theorem cutBack_prefix_iff (hne : names ≠ []) (hpre : names <+: names') (e : Bool) :
    cutBack names <+: (if e then cutBack names' else names') ↔
      ∀ b, names.getLast? = some b → blankLast b = true → names = names' ∧ e = true := by
  induction names generalizing names' with
  | nil => exact absurd rfl hne
  | cons a names ih =>
    obtain ⟨rest, rfl⟩ := hpre
    cases names with
    | nil =>
      cases rest with
      | nil => cases e <;> simp [cutBack, trimEnd_eq_iff]
      | cons c rest => cases e <;> simp [cutBack, trimEnd_eq_iff]
    | cons d names =>
      have hstep := ih (List.cons_ne_nil _ _) (List.prefix_append (d :: names) rest)
      cases e <;> simpa [cutBack] using hstep

theorem cut_cons (front back : Bool) (b : String) (names : List String) :
    cut front back (b :: names) =
      if back then cutBack (cutName front b :: names) else cutName front b :: names := by
  cases front <;> rfl

/-- The cut names of a path under another extend its cut names, if no blank is cut off one
of them only. -/
theorem cut_prefix_iff (h : ∀ b ∈ names, Visible b) (hpre : names <+: names') (f f' e : Bool) :
    cut f true names <+: cut f' e names' ↔
      (∀ b, names.head? = some b → blankFirst b = true → f = f') ∧
        ∀ b, names.getLast? = some b → blankLast b = true → names = names' ∧ e = true := by
  cases names with
  | nil => cases f <;> simp [cut, cutFront, cutBack]
  | cons a names =>
    obtain ⟨rest, rfl⟩ := hpre
    have ha : Visible a := h a List.mem_cons_self
    rw [List.cons_append, cut_cons, cut_cons]
    cases names with
    | nil =>
      cases rest with
      | nil =>
        have hname := ha.trimEnd_cutName_eq_iff f f' e
        cases e <;> simpa [cutBack] using hname
      | cons c rest =>
        have hname := ha.trimEnd_cutName_eq_iff f f' false
        cases e <;> simpa [cutBack] using hname
    | cons d names =>
      have hlast := cutBack_prefix_iff (List.cons_ne_nil d names)
        (List.prefix_append (d :: names) rest) e
      have hfirst := cutName_eq_iff f f' (b := a)
      cases e <;> simpa [cutBack, hfirst] using fun _ => hlast

end CeDrive
