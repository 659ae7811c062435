import Mathlib.Data.Set.Insert
import Mathlib.Logic.Function.Basic

/-!
# Runs, and the parties in them

A finite run of a transition system whose steps carry labels (`Run`). What one step preserves a
run preserves; a run through a label splits there, so what is said of a step in the middle of a
run is said of a step between two runs. Nothing is said of what a label is: it can be an event, a
call, or the party that moves.

Two notions for systems in which several parties move:

- `Exclusive`, for parties that each claim at most one element of a set that only grows, no two
  the same one. It is what "used once" comes to when a party can be stopped between finding an
  element free and using it: the claim is made with the element's entry into the set.
- `Agree`, for one operation that is implemented twice, over two kinds of state. The two agree if
  they succeed together, with one result, and lead from related states to related states. What
  they say of a failure may differ, so the relation is on outcomes and not on errors.
-/

set_option autoImplicit false

/-! ## Labelled runs -/

inductive Run {σ ε : Type} (Step : σ → ε → σ → Prop) : σ → List ε → σ → Prop where
  | nil (s : σ) : Run Step s [] s
  | cons {s₁ s₂ s₃ : σ} {e : ε} {es : List ε} (step : Step s₁ e s₂) (rest : Run Step s₂ es s₃) :
      Run Step s₁ (e :: es) s₃

namespace Run

variable {σ ε : Type} {Step : σ → ε → σ → Prop} {s t : σ} {es : List ε}

/-- An invariant of the steps is one of the runs. -/
theorem invariant {I : σ → Prop} (h : Run Step s es t) (hs : I s)
    (hstep : ∀ s e t, I s → Step s e t → I t) : I t := by
  induction h with
  | nil => exact hs
  | cons step _ ih => exact ih (hstep _ _ _ hs step)

/-- Where every step is one of another system, every run is. -/
theorem mono {Step' : σ → ε → σ → Prop} (h : Run Step s es t)
    (hstep : ∀ s e t, Step s e t → Step' s e t) : Run Step' s es t := by
  induction h with
  | nil => exact .nil _
  | cons step _ ih => exact .cons (hstep _ _ _ step) ih

/-- Runs compose. -/
theorem append {u : σ} {fs : List ε} (h : Run Step s es t) (h' : Run Step t fs u) :
    Run Step s (es ++ fs) u := by
  induction h with
  | nil => exact h'
  | cons step _ ih => exact .cons step (ih h')

/-- A run splits at each of its labels. -/
theorem split {as bs : List ε} {e : ε} (h : Run Step s (as ++ e :: bs) t) :
    ∃ s₁ s₂, Run Step s as s₁ ∧ Step s₁ e s₂ ∧ Run Step s₂ bs t := by
  induction as generalizing s with
  | nil =>
    cases h with
    | cons step rest => exact ⟨s, _, .nil s, step, rest⟩
  | cons a as ih =>
    cases h with
    | cons step rest =>
      obtain ⟨s₁, s₂, hbefore, hstep, hafter⟩ := ih rest
      exact ⟨s₁, s₂, .cons step hbefore, hstep, hafter⟩

end Run

/-! ## Exclusive claims -/

structure Exclusive {ι κ : Type} (claim : ι → Option κ) (held : Set κ) : Prop where
  mem : ∀ i k, claim i = some k → k ∈ held
  unique : ∀ i j k, claim i = some k → claim j = some k → i = j

namespace Exclusive

variable {ι κ : Type} [DecidableEq ι] {claim : ι → Option κ} {held held' : Set κ}

/-- One party changes its claim: to nothing, to what it has, or to a new element. -/
theorem update (h : Exclusive claim held) (hle : held ⊆ held') {i : ι} {x : Option κ}
    (hx : ∀ k, x = some k → claim i = some k ∨ k ∉ held ∧ k ∈ held') :
    Exclusive (Function.update claim i x) held' := by
  have hother (j : ι) (k : κ) (hji : j ≠ i) (hk : x = some k) : claim j ≠ some k := by
    intro hj
    cases hx k hk with
    | inl hi => exact hji (h.unique j i k hj hi)
    | inr hnew => exact hnew.1 (h.mem j k hj)
  constructor
  · intro j k hj
    by_cases hji : j = i
    · rw [hji, Function.update_self] at hj
      cases hx k hj with
      | inl hi => exact hle (h.mem i k hi)
      | inr hnew => exact hnew.2
    · rw [Function.update_of_ne hji] at hj
      exact hle (h.mem j k hj)
  · intro j j' k hj hj'
    by_cases hji : j = i
    · by_cases hji' : j' = i
      · rw [hji, hji']
      · rw [hji, Function.update_self] at hj
        rw [Function.update_of_ne hji'] at hj'
        exact absurd hj' (hother j' k hji' hj)
    · rw [Function.update_of_ne hji] at hj
      by_cases hji' : j' = i
      · rw [hji', Function.update_self] at hj'
        exact absurd hj (hother j k hji hj')
      · rw [Function.update_of_ne hji'] at hj'
        exact h.unique j j' k hj hj'

end Exclusive

/-! ## Agreeing implementations -/

structure Agree {ε ε' α σ τ : Type} (R : σ → τ → Prop) (x : Except ε α × σ)
    (y : Except ε' α × τ) : Prop where
  outcome : x.1.toOption = y.1.toOption
  state : R x.2 y.2

namespace Agree

variable {ε ε' α β σ τ : Type} {R : σ → τ → Prop} {s : σ} {t : τ}

theorem ok (h : R s t) (a : α) :
    Agree R ((.ok a, s) : Except ε α × σ) ((.ok a, t) : Except ε' α × τ) := ⟨rfl, h⟩

theorem error (h : R s t) (e : ε) (e' : ε') :
    Agree R ((.error e, s) : Except ε α × σ) ((.error e', t) : Except ε' α × τ) := ⟨rfl, h⟩

/-- The same operation on the same state. -/
theorem refl (x : Except ε α × σ) : Agree Eq x x := ⟨rfl, rfl⟩

/-- Agreeing operations fail together or return together. -/
theorem cases {x : Except ε α × σ} {y : Except ε' α × τ} (h : Agree R x y) :
    (∃ e e' s t, x = (.error e, s) ∧ y = (.error e', t) ∧ R s t) ∨
      ∃ a s t, x = (.ok a, s) ∧ y = (.ok a, t) ∧ R s t := by
  obtain ⟨rx, s⟩ := x
  obtain ⟨ry, t⟩ := y
  cases rx with
  | error e =>
    cases ry with
    | error e' => exact .inl ⟨e, e', s, t, rfl, rfl, h.state⟩
    | ok b => exact absurd h.outcome (by simp [Except.toOption])
  | ok a =>
    cases ry with
    | error e' => exact absurd h.outcome (by simp [Except.toOption])
    | ok b =>
      obtain rfl : a = b := Option.some.inj h.outcome
      exact .inr ⟨a, s, t, rfl, rfl, h.state⟩

/-- A judgement of the result alone. -/
theorem bind_fst {x : Except ε α × σ} {y : Except ε' α × τ} (h : Agree R x y)
    {f : Except ε α → Except ε β} {g : Except ε' α → Except ε' β}
    (hfg : ∀ rx ry, rx.toOption = ry.toOption → (f rx).toOption = (g ry).toOption) :
    Agree R (f x.1, x.2) (g y.1, y.2) := ⟨hfg _ _ h.outcome, h.state⟩

end Agree
