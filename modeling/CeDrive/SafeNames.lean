import CeDrive.Materialize
import Mathlib.Data.Fintype.EquivFin

/-!
# Safe names

`materialize` joins the listed names to its target as they are. A name is safe if it is relative
and never steps above where it starts. Paths of safe names stay under their target
(`DiskCall.inside_of_under`), and a name that is written inside every target is safe
(`safeName_of_inside`).
-/

namespace CeDrive

/-! ## Safe names -/

/-- The steps never lead above the directory that is `depth` levels up. -/
def descends : ℕ → List String → Bool
  | _, [] => true
  | 0, c :: comps => if c = ".." then false else descends 1 comps
  | depth + 1, c :: comps => if c = ".." then descends depth comps else descends (depth + 2) comps

theorem descends_cons_of_ne {depth : ℕ} {c : String} {comps : List String} (hc : c ≠ "..") :
    descends depth (c :: comps) = descends (depth + 1) comps := by
  cases depth <;> simp [descends, hc]

theorem descends_of_le {m n : ℕ} {comps : List String} (h : descends m comps = true) (hmn : m ≤ n) :
    descends n comps = true := by
  induction comps generalizing m n with
  | nil => cases n <;> rfl
  | cons c comps ih =>
    by_cases hc : c = ".."
    · subst hc
      obtain ⟨m, rfl⟩ : ∃ k, m = k + 1 := Nat.exists_eq_add_one.2 (by
        by_contra hm
        obtain rfl : m = 0 := by omega
        simp [descends] at h)
      obtain ⟨n, rfl⟩ : ∃ k, n = k + 1 := Nat.exists_eq_add_one.2 (by omega)
      rw [descends, if_pos rfl] at h ⊢
      exact ih h (by omega)
    · rw [descends_cons_of_ne hc] at h ⊢
      exact ih h (by omega)

theorem descends_append {depth : ℕ} {comps more : List String} (h : descends depth comps = true)
    (hmore : descends 0 more = true) : descends depth (comps ++ more) = true := by
  induction comps generalizing depth with
  | nil => exact descends_of_le hmore (Nat.zero_le _)
  | cons c comps ih =>
    by_cases hc : c = ".."
    · subst hc
      cases depth with
      | zero => simp [descends] at h
      | succ depth =>
        rw [List.cons_append, descends, if_pos rfl]
        rw [descends, if_pos rfl] at h
        exact ih h
    · rw [List.cons_append, descends_cons_of_ne hc]
      rw [descends_cons_of_ne hc] at h
      exact ih h

theorem descends_of_append {depth : ℕ} {comps more : List String}
    (h : descends depth (comps ++ more) = true) : descends depth comps = true := by
  induction comps generalizing depth with
  | nil => cases depth <;> rfl
  | cons c comps ih =>
    cases depth <;> rw [List.cons_append, descends] at h <;> rw [descends] <;> split_ifs at h ⊢ <;>
      exact ih h

/-- A last step down changes nothing. -/
theorem descends_append_singleton {depth : ℕ} {comps : List String} {c : String} (hc : c ≠ "..") :
    descends depth (comps ++ [c]) = descends depth comps := by
  induction comps generalizing depth with
  | nil => cases depth <;> simp [descends, hc]
  | cons x comps ih => cases depth <;> simp [descends, ih]

/-- What descends stays below where it starts, all the way. -/
theorem prefix_foldl_step {base below comps : List String}
    (h : descends below.length comps = true) :
    base <+: comps.foldl OsPath.step (base ++ below) := by
  induction comps generalizing below with
  | nil => exact List.prefix_append ..
  | cons c comps ih =>
    rw [List.foldl_cons, OsPath.step]
    by_cases hc : c = ".."
    · subst hc
      rw [if_pos rfl]
      rcases List.eq_nil_or_concat' below with rfl | ⟨below, x, rfl⟩
      · simp [descends] at h
      · rw [← List.append_assoc, List.dropLast_concat]
        refine ih ?_
        simpa [descends] using h
    · have hlen : (below ++ [c]).length = below.length + 1 := by simp
      rw [if_neg hc, List.append_assoc]
      refine ih ?_
      rwa [descends_cons_of_ne hc, ← hlen] at h

/-- A name that occurs nowhere is not on the way. -/
theorem not_mem_foldl_step {z : String} {dir comps : List String} (hdir : z ∉ dir)
    (hz : z ∉ comps) : z ∉ comps.foldl OsPath.step dir := by
  induction comps generalizing dir with
  | nil => exact hdir
  | cons c comps ih =>
    rw [List.foldl_cons]
    refine ih ?_ (fun hmem => hz (List.mem_cons_of_mem _ hmem))
    rw [OsPath.step]
    split_ifs
    · exact fun hmem => hdir (List.mem_of_mem_dropLast hmem)
    · rw [List.mem_append, List.mem_singleton]
      exact not_or.2 ⟨hdir, fun heq => hz (heq ▸ List.mem_cons_self)⟩

/-- What does not descend leaves the directory it starts in for good. -/
theorem not_mem_of_climbs {z : String} {below comps : List String} (hbelow : z ∉ below)
    (hz : z ∉ comps) (h : descends below.length comps = false) :
    z ∉ comps.foldl OsPath.step (z :: below) := by
  induction comps generalizing below with
  | nil => cases below <;> simp [descends] at h
  | cons c comps ih =>
    have hz' : z ∉ comps := fun hmem => hz (List.mem_cons_of_mem _ hmem)
    rw [List.foldl_cons, OsPath.step]
    by_cases hc : c = ".."
    · subst hc
      rw [if_pos rfl]
      rcases List.eq_nil_or_concat' below with rfl | ⟨below, x, rfl⟩
      · exact not_mem_foldl_step List.not_mem_nil hz'
      · rw [← List.cons_append, List.dropLast_concat]
        refine ih (fun hmem => hbelow (List.mem_append_left _ hmem)) hz' ?_
        simpa [descends] using h
    · have hlen : (below ++ [c]).length = below.length + 1 := by simp
      rw [if_neg hc, List.cons_append]
      refine ih ?_ hz' ?_
      · rw [List.mem_append, List.mem_singleton]
        exact not_or.2 ⟨hbelow, fun heq => hz (heq ▸ List.mem_cons_self)⟩
      · rwa [descends_cons_of_ne hc, ← hlen] at h

/-- A name that joined to a directory leads to it or below, without leaving it on the way. -/
structure SafeName (name : String) : Prop where
  relative : (OsPath.ofString name).absolute = false
  below : descends 0 (OsPath.ofString name).comps = true

/-- The number at the end of a conflict name makes no difference. -/
theorem SafeName.of_conflictName {name : String} {replica : ReplicaId} {l : ℕ} (l' : ℕ)
    (h : SafeName (DriveTree.conflictName name ⟨l, replica⟩)) :
    SafeName (DriveTree.conflictName name ⟨l', replica⟩) := by
  set stem := name ++ ".conflict-" ++ DriveTree.short replica with hstem
  obtain ⟨init, piece, hcomps⟩ := OsPath.exists_comps_append stem
  have hname : ∀ n : ℕ, DriveTree.conflictName name ⟨n, replica⟩ = stem ++ ("-" ++ toString n) :=
    fun n => String.append_assoc
  have hcomps' : ∀ n : ℕ, (OsPath.ofString (stem ++ ("-" ++ toString n))).comps =
      init ++ [piece ++ ("-" ++ toString n)] := fun n => by
    refine hcomps _ ?_ ?_
    · have hdigits : '/' ∉ Nat.toDigits 10 n := fun hmem =>
        absurd (Nat.isDigit_of_mem_toDigits (by omega) le_rfl hmem) (by decide)
      simpa using hdigits
    · have hdigits : 0 < (Nat.toDigits 10 n).length := Nat.length_toDigits_pos
      have hlen : ("-" ++ toString n).toList.length = (Nat.toDigits 10 n).length + 1 := by simp
      omega
  have hlast : ∀ n : ℕ, piece ++ ("-" ++ toString n) ≠ ".." := fun n heq => by
    have hmem : '-' ∈ (piece ++ ("-" ++ toString n)).toList := by simp
    rw [heq] at hmem
    exact absurd hmem (by decide)
  have hspec : ∀ n : ℕ, SafeName (stem ++ ("-" ++ toString n)) ↔
      stem.toList.head? ≠ some '/' ∧ descends 0 init = true := by
    intro n
    have hhead : (stem ++ ("-" ++ toString n)).toList.head? = stem.toList.head? := by
      rw [String.toList_append, List.head?_append_of_ne_nil]
      simp [hstem]
    constructor
    · rintro ⟨hrel, hbelow⟩
      rw [hcomps', descends_append_singleton (hlast n)] at hbelow
      refine ⟨?_, hbelow⟩
      rw [← hhead]
      simpa [OsPath.ofString] using hrel
    · rintro ⟨hrel, hbelow⟩
      refine ⟨?_, ?_⟩
      · rw [← hhead] at hrel
        simpa [OsPath.ofString] using hrel
      · rw [hcomps', descends_append_singleton (hlast n)]
        exact hbelow
  rw [hname] at h ⊢
  exact (hspec l').2 ((hspec l).1 h)

/-! ## Calls inside the target -/

/-- The place stands once `out` does : a path to `out` passes it, or what it passes is below it. -/
def Stands (cwd : List String) (out : OsPath) (loc : List String) : Prop :=
  ∃ comps ∈ out.comps.inits, loc <+: OsPath.location cwd { out with comps := comps }

/-- The call makes and writes nothing outside `out`. `create_dir_all` makes all the directories its
path passes that are not there. -/
def DiskCall.Inside (cwd : List String) (out : OsPath) : DiskCall → Prop
  | .createDirAll path =>
    ∀ loc ∈ path.stations cwd, OsPath.location cwd out <+: loc ∨ Stands cwd out loc
  | .write path _ => OsPath.location cwd out <+: path.location cwd

instance (cwd : List String) (out : OsPath) : DecidablePred (DiskCall.Inside cwd out)
  | .createDirAll path =>
    inferInstanceAs (Decidable (∀ loc ∈ path.stations cwd,
      OsPath.location cwd out <+: loc ∨ ∃ comps ∈ out.comps.inits,
        loc <+: OsPath.location cwd { out with comps := comps }))
  | .write path _ => inferInstanceAs (Decidable (OsPath.location cwd out <+: path.location cwd))

/-- A directory made on the way counts, also where the path comes back. -/
example :
    ¬(DiskCall.createDirAll ⟨true, ["o", "..", "x", "..", "o", "d"]⟩).Inside [] ⟨true, ["o"]⟩ ∧
      (DiskCall.createDirAll ⟨true, ["o", "x", "..", "d"]⟩).Inside [] ⟨true, ["o"]⟩ := by
  decide

/-- `p` is `out` and steps that descend from it. -/
def Under (out p : OsPath) : Prop :=
  ∃ comps, descends 0 comps = true ∧ p = { out with comps := out.comps ++ comps }

theorem Under.refl (out : OsPath) : Under out out :=
  ⟨[], rfl, by rw [List.append_nil]⟩

theorem Under.join {out p : OsPath} {name : String} (h : Under out p) (hname : SafeName name) :
    Under out (p.join name) := by
  obtain ⟨comps, hcomps, rfl⟩ := h
  refine ⟨comps ++ (OsPath.ofString name).comps, descends_append hcomps hname.below, ?_⟩
  rw [OsPath.join, if_neg (by simp [hname.relative]), List.append_assoc]

theorem location_prefix_of_descends (cwd : List String) (out : OsPath) {comps : List String}
    (h : descends 0 comps = true) :
    OsPath.location cwd out <+: OsPath.location cwd { out with comps := out.comps ++ comps } := by
  rw [OsPath.location, OsPath.location, List.foldl_append]
  have hbelow : descends ([] : List String).length comps = true := h
  simpa using prefix_foldl_step hbelow

/-- A call of a path under `out` stays inside. -/
theorem DiskCall.inside_of_under (cwd : List String) {out : OsPath} {c : DiskCall}
    (h : Under out c.path) : c.Inside cwd out := by
  cases c with
  | write path bytes =>
    obtain ⟨comps, hcomps, rfl⟩ := h
    exact location_prefix_of_descends cwd out hcomps
  | createDirAll path =>
    obtain ⟨comps, hcomps, rfl⟩ := h
    intro loc hloc
    obtain ⟨passed, -, hpassed, rfl⟩ := OsPath.mem_stations.1 hloc
    rcases List.prefix_or_prefix_of_prefix hpassed (List.prefix_append out.comps comps) with
      hway | ⟨rest, rfl⟩
    · exact Or.inr ⟨passed, (List.mem_inits _ _).2 hway, List.prefix_rfl⟩
    · obtain ⟨more, rfl⟩ := (List.prefix_append_right_inj _).1 hpassed
      exact Or.inl (location_prefix_of_descends cwd out (descends_of_append hcomps))

/-- A name that is written inside every target is safe : it does not lead back to a directory whose
name it does not know. -/
theorem safeName_of_inside {name : String}
    (h : ∀ out : OsPath, (DiskCall.write (out.join name) []).Inside [] out) : SafeName name := by
  have hinf : Infinite String := Infinite.of_injective String.ofList fun _ _ => String.ofList_inj.1
  obtain ⟨z, hz⟩ := Infinite.exists_notMem_finset (".." :: (OsPath.ofString name).comps).toFinset
  rw [List.mem_toFinset, List.mem_cons, not_or] at hz
  obtain ⟨hdots, hz⟩ := hz
  have hout : OsPath.location [] ⟨true, [z]⟩ = [z] := if_neg hdots
  have hin : z ∈ ((⟨true, [z]⟩ : OsPath).join name).location [] := by
    have hpre : OsPath.location [] ⟨true, [z]⟩ <+: _ := h ⟨true, [z]⟩
    rw [hout] at hpre
    exact hpre.subset (List.mem_singleton_self z)
  have hrel : (OsPath.ofString name).absolute = false := by
    by_contra habs
    rw [Bool.not_eq_false] at habs
    rw [OsPath.join, if_pos habs, OsPath.location, if_pos habs] at hin
    exact not_mem_foldl_step List.not_mem_nil hz hin
  refine ⟨hrel, ?_⟩
  by_contra hclimbs
  rw [Bool.not_eq_true] at hclimbs
  rw [OsPath.join, if_neg (by simp [hrel]), OsPath.location, List.foldl_append] at hin
  change z ∈ (OsPath.ofString name).comps.foldl OsPath.step (OsPath.location [] ⟨true, [z]⟩) at hin
  rw [hout] at hin
  exact not_mem_of_climbs List.not_mem_nil hz hclimbs hin

end CeDrive
