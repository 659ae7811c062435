import Mathlib.Data.List.Basic

/-!
# What a program can fail with

`Raises P x`: if `x` fails then with an error that satisfies `P`. One rule for each way a
program is put together, so that what it raises is read off its text.

It is the half of a specification that success leaves out. That an error names the field that
was wrong, or that one stage of a pipeline never raises the error of another one, is said with
it, at each function for its own errors and at the callers by composing.
-/

set_option autoImplicit false

namespace Except

variable {ε ε' α β : Type} {P : ε → Prop} {x : Except ε α}

def Raises (P : ε → Prop) (x : Except ε α) : Prop := ∀ e, x = .error e → P e

@[simp] theorem raises_ok {a : α} : Raises P (.ok a : Except ε α) := by
  intro e h
  cases h

@[simp] theorem raises_pure {a : α} : Raises P (pure a : Except ε α) := raises_ok

@[simp] theorem raises_error {e : ε} : Raises P (.error e : Except ε α) ↔ P e := by
  constructor
  · exact fun h => h e rfl
  · rintro he e' ⟨⟩
    exact he

@[simp] theorem raises_throw {e : ε} : Raises P (throw e : Except ε α) ↔ P e := raises_error

theorem Raises.bind {f : α → Except ε β} (hx : Raises P x)
    (hf : ∀ a, x = .ok a → Raises P (f a)) : Raises P (x >>= f) := by
  cases x with
  | error e => exact raises_error.mpr (hx e rfl)
  | ok a => exact hf a rfl

@[simp] theorem raises_map {f : α → β} : Raises P (x.map f) ↔ Raises P x := by
  cases x with
  | error e => exact raises_error.trans raises_error.symm
  | ok a => exact iff_of_true raises_ok raises_ok

/-- Both branches of a condition. -/
theorem Raises.ite {p : Prop} [Decidable p] {y : Except ε α} (hx : p → Raises P x)
    (hy : ¬p → Raises P y) : Raises P (if p then x else y) := by
  by_cases hp : p
  · rw [if_pos hp]
    exact hx hp
  · rw [if_neg hp]
    exact hy hp

/-- A check in front of the rest, as a `do` block has it. -/
theorem Raises.guard {p : Prop} [Decidable p] {e : ε} {f : β → Except ε α} (he : p → P e)
    (hx : ¬p → Raises P x) : Raises P (if p then throw e >>= f else x) :=
  .ite (fun hp => raises_error.mpr (he hp)) hx

/-- A loop over a list of checks. -/
theorem Raises.forM {f : α → Except ε PUnit} {as : List α} (h : ∀ a ∈ as, Raises P (f a)) :
    Raises P (as.forM f) := by
  induction as with
  | nil => exact raises_ok
  | cons a as ih =>
    exact .bind (h a List.mem_cons_self) fun _ _ =>
      ih fun b hb => h b (List.mem_cons_of_mem _ hb)

/-- A traversal. -/
theorem Raises.mapM' {f : α → Except ε β} {as : List α} (h : ∀ a ∈ as, Raises P (f a)) :
    Raises P (as.mapM' f) := by
  induction as with
  | nil => exact raises_ok
  | cons a as ih =>
    exact .bind (h a List.mem_cons_self) fun _ _ =>
      .bind (ih fun b hb => h b (List.mem_cons_of_mem _ hb)) fun _ _ => raises_ok

theorem Raises.option_forM {f : α → Except ε PUnit} {o : Option α}
    (h : ∀ a ∈ o, Raises P (f a)) : Raises P (o.forM f) := by
  cases o with
  | none => exact raises_ok
  | some a => exact h a rfl

end Except
