import Mathlib.Data.Nat.Notation
import Mathlib.Data.Option.Basic

/-!
# Runs

A machine takes events one by one, and may stop : `es.foldlM step s`. What each step keeps a
run keeps (`invariant`). A condition on the steps of a run is given by its equations
(`Condition`) : it carries an invariant that the steps keep which meet it
(`Condition.invariant`), and if it decides of each step whether a good state stays good, it
decides so of the run (`Condition.good_iff`, `Condition.always_iff`).
-/

namespace Runs

variable {σ ε : Type*} {step : σ → ε → Option σ} {s s' : σ} {e : ε} {pre es : List ε}

theorem cons_eq_some : (e :: es).foldlM step s = some s' ↔
    ∃ s₁, step s e = some s₁ ∧ es.foldlM step s₁ = some s' := by
  rw [List.foldlM_cons]
  exact Option.bind_eq_some_iff

/-- What every step of the run keeps holds at its end. -/
theorem invariant (P : σ → Prop) (h : P s) (hrun : es.foldlM step s = some s')
    (hstep : ∀ e ∈ es, ∀ s s', P s → step s e = some s' → P s') : P s' := by
  induction es generalizing s with
  | nil => exact Option.some_injective _ hrun ▸ h
  | cons e es ih =>
    obtain ⟨s₁, he, hrun⟩ := cons_eq_some.1 hrun
    exact ih (hstep e List.mem_cons_self s s₁ h he) hrun
      fun x hx => hstep x (List.mem_cons_of_mem _ hx)

/-- `cond` says of a run that every step of it meets `keeps`. -/
structure Condition (step : σ → ε → Option σ) (keeps : σ → ε → Prop)
    (cond : σ → List ε → Prop) : Prop where
  nil : ∀ s, cond s []
  cons : ∀ s e es, cond s (e :: es) ↔ keeps s e ∧ ∀ s', step s e = some s' → cond s' es

namespace Condition

variable {keeps : σ → ε → Prop} {cond : σ → List ε → Prop} (hc : Condition step keeps cond)
include hc

theorem cons_iff (he : step s e = some s') : cond s (e :: es) ↔ keeps s e ∧ cond s' es := by
  rw [hc.cons, he]
  simp

/-- A run whose first step meets the condition, and the rest after it. -/
theorem cons_of (h : keeps s e) (he : (step s e).isSome = true)
    (hes : cond ((step s e).get he) es) : cond s (e :: es) :=
  (hc.cons_iff (Option.some_get he).symm).2 ⟨h, hes⟩

/-- A run meets the condition if it does so up to a point, and from there on. -/
theorem append_iff (hpre : pre.foldlM step s = some s') :
    cond s (pre ++ es) ↔ cond s pre ∧ cond s' es := by
  induction pre generalizing s with
  | nil =>
    obtain rfl := Option.some_injective _ hpre
    exact (and_iff_right (hc.nil s)).symm
  | cons e pre ih =>
    obtain ⟨s₁, he, hpre⟩ := cons_eq_some.1 hpre
    rw [List.cons_append, hc.cons_iff he, hc.cons_iff he, ih hpre, and_assoc]

/-- What the steps keep that meet the condition holds at the end of a run that meets it. -/
theorem invariant (P : σ → Prop) (h : P s) (hok : cond s es) (hrun : es.foldlM step s = some s')
    (hstep : ∀ e s s', P s → keeps s e → step s e = some s' → P s') : P s' := by
  induction es generalizing s with
  | nil => exact Option.some_injective _ hrun ▸ h
  | cons e es ih =>
    obtain ⟨s₁, he, hrun⟩ := cons_eq_some.1 hrun
    obtain ⟨hkeeps, hok⟩ := (hc.cons_iff he).1 hok
    exact ih (hstep e s s₁ h hkeeps he) hok hrun

/-- If a step from a good state leads to a good one exactly under the condition, all states of
a run are good exactly if the run meets it. The steps that meet it keep an invariant, which
may count the events that are left. -/
theorem always_iff (P : ℕ → σ → Prop) (good : σ → Prop) (h : P es.length s) (hgood : good s)
    (hrun : es.foldlM step s = some s')
    (hinv : ∀ n e s s', P (n + 1) s → keeps s e → step s e = some s' → P n s')
    (hstep : ∀ n e s s', P (n + 1) s → good s → step s e = some s' → (good s' ↔ keeps s e)) :
    (∀ pre s₁, pre <+: es → pre.foldlM step s = some s₁ → good s₁) ↔ cond s es := by
  induction es generalizing s with
  | nil =>
    refine iff_of_true (fun pre s₁ hpre hs₁ => ?_) (hc.nil s)
    obtain rfl := List.prefix_nil.1 hpre
    exact Option.some_injective _ hs₁ ▸ hgood
  | cons e es ih =>
    obtain ⟨s₁, he, hrun⟩ := cons_eq_some.1 hrun
    have hiff := hstep es.length e s s₁ h hgood he
    have hrest := fun hgood₁ => ih (hinv es.length e s s₁ h (hiff.1 hgood₁) he) hgood₁ hrun
    rw [hc.cons_iff he]
    constructor
    · intro hall
      have hgood₁ : good s₁ := hall [e] s₁ ⟨es, rfl⟩ (cons_eq_some.2 ⟨s₁, he, rfl⟩)
      refine ⟨hiff.1 hgood₁, (hrest hgood₁).1 fun pre s₂ hpre hs₂ => ?_⟩
      exact hall (e :: pre) s₂ (List.cons_prefix_cons.2 ⟨rfl, hpre⟩) (cons_eq_some.2 ⟨s₁, he, hs₂⟩)
    · rintro ⟨hkeeps, hcond⟩ pre s₂ hpre hs₂
      cases pre with
      | nil => exact Option.some_injective _ hs₂ ▸ hgood
      | cons x pre =>
        obtain ⟨rfl, htail⟩ := List.cons_prefix_cons.1 hpre
        obtain ⟨s₃, hs₃, hs₂⟩ := cons_eq_some.1 hs₂
        obtain rfl := Option.some_injective _ (he.symm.trans hs₃)
        exact (hrest (hiff.2 hkeeps)).2 hcond pre s₂ htail hs₂

/-- If a step leads to a good state exactly from a good one and under the condition, so does
a run, over states that satisfy an invariant. -/
theorem good_iff (P good : σ → Prop) (h : P s) (hrun : es.foldlM step s = some s')
    (hinv : ∀ e ∈ es, ∀ s s', P s → step s e = some s' → P s')
    (hstep : ∀ e s s', P s → step s e = some s' → (good s' ↔ good s ∧ keeps s e)) :
    good s' ↔ good s ∧ cond s es := by
  induction es generalizing s with
  | nil =>
    obtain rfl := Option.some_injective _ hrun
    exact (and_iff_left (hc.nil s)).symm
  | cons e es ih =>
    obtain ⟨s₁, he, hrun⟩ := cons_eq_some.1 hrun
    have hrest := ih (hinv e List.mem_cons_self s s₁ h he) hrun
      fun x hx => hinv x (List.mem_cons_of_mem _ hx)
    rw [hrest, hstep e s s₁ h he, hc.cons_iff he, and_assoc]

end Condition

end Runs
