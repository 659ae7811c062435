import Mathlib.Data.List.Forall2

/-!
# Successful runs

Inversion lemmas for programs in `Except` and in a state monad over it: what a run that returned
must have returned on the way. They take a `do` block apart one bind at a time, without
unfolding the monad.

Each of them is an equivalence where one holds, so that the same lemma reads a run that returned
and builds one that returns. A `throw` under a condition is a step like the others
(`guard_eq_ok`), with the negated condition as what it leaves behind. Which order the checks
stand in is so visible in a proof, as the order in which they are obtained.
-/

set_option autoImplicit false

namespace Except

variable {ε α β : Type}

theorem isOk_iff_exists {x : Except ε α} : x.isOk = true ↔ ∃ a, x = .ok a := by
  cases x with
  | error e => simp [isOk, Except.toBool]
  | ok a => simp [isOk, Except.toBool]

theorem bind_eq_ok {x : Except ε α} {f : α → Except ε β} {b : β} :
    (x >>= f) = .ok b ↔ ∃ a, x = .ok a ∧ f a = .ok b := by
  cases x with
  | error e => simp [bind, Except.bind]
  | ok a => simp [bind, Except.bind]

theorem map_eq_ok {x : Except ε α} {f : α → β} {b : β} :
    x.map f = .ok b ↔ ∃ a, x = .ok a ∧ f a = b := by
  cases x with
  | error e => simp [Except.map]
  | ok a => simp [Except.map]

@[simp] theorem pure_eq_ok {a b : α} : (pure a : Except ε α) = .ok b ↔ a = b := by
  simp [pure, Except.pure]

@[simp] theorem throw_ne_ok {e : ε} {a : α} : (throw e : Except ε α) ≠ .ok a := by
  simp [throw, throwThe, MonadExceptOf.throw]

/-- A check in front of the rest, as a `do` block has it: it did not throw. -/
theorem guard_eq_ok {p : Prop} [Decidable p] {e : ε} {f : α → Except ε β} {rest : Except ε β}
    {b : β} : (if p then throw e >>= f else rest) = .ok b ↔ ¬p ∧ rest = .ok b := by
  by_cases hp : p
  · simp [hp, bind_eq_ok]
  · simp [hp]

/-- A check at the end of a block. -/
theorem check_eq_ok {p : Prop} [Decidable p] {e : ε} {a b : α} :
    (if p then throw e else pure a : Except ε α) = .ok b ↔ ¬p ∧ a = b := by
  by_cases hp : p
  · simp [hp]
  · simp [hp]

/-- A loop over a list of checks: all of them passed. -/
theorem forM_eq_ok {f : α → Except ε Unit} {as : List α} {u : Unit} :
    as.forM f = .ok u ↔ ∀ a ∈ as, f a = .ok () := by
  induction as with
  | nil => simp [List.forM, pure, Except.pure]
  | cons a as ih =>
    rw [List.forM, Except.bind_eq_ok]
    constructor
    · intro ⟨_, ha, has⟩
      exact List.forall_mem_cons.mpr ⟨ha, ih.mp has⟩
    · intro h
      exact ⟨_, h a List.mem_cons_self, ih.mpr fun b hb => h b (List.mem_cons_of_mem _ hb)⟩

/-- A traversal gives one result for each element, in order. -/
theorem mapM'_eq_ok {f : α → Except ε β} {as : List α} {bs : List β} :
    as.mapM' f = .ok bs ↔ List.Forall₂ (fun a b => f a = .ok b) as bs := by
  induction as generalizing bs with
  | nil =>
    rw [List.mapM'_nil, Except.pure_eq_ok, List.forall₂_nil_left_iff]
    exact eq_comm
  | cons a as ih =>
    rw [List.mapM'_cons, Except.bind_eq_ok]
    constructor
    · rintro ⟨b, hb, h⟩
      obtain ⟨bs', hbs, h⟩ := Except.bind_eq_ok.mp h
      obtain rfl := Except.pure_eq_ok.mp h
      exact .cons hb (ih.mp hbs)
    · intro h
      cases h with
      | cons hb hbs =>
        exact ⟨_, hb, Except.bind_eq_ok.mpr ⟨_, ih.mpr hbs, rfl⟩⟩

/-- A loop whose every step is an update. -/
theorem foldlM_updates {f : β → α → Except ε β} {as : List α} {us : List (β → β)}
    (h : List.Forall₂ (fun a u => ∀ b, f b a = .ok (u b)) as us) (b : β) :
    as.foldlM f b = .ok (us.foldl (fun b u => u b) b) := by
  induction h generalizing b with
  | nil => rfl
  | cons ha _ ih =>
    rw [List.foldlM_cons, List.foldl_cons, ha]
    exact ih _

/-- What every turn of a loop keeps, of the entries it has taken, holds of all at the end. -/
theorem foldlM_invariant {P : List α → β → Prop} {f : β → α → Except ε β} {as : List α}
    {b b' : β} (h : as.foldlM f b = .ok b') {done : List α} (hb : P done b)
    (hstep : ∀ done b a b', P done b → f b a = .ok b' → P (done ++ [a]) b') :
    P (done ++ as) b' := by
  induction as generalizing b done with
  | nil =>
    obtain rfl := Except.ok.inj h
    rw [List.append_nil]
    exact hb
  | cons a as ih =>
    rw [List.foldlM_cons] at h
    obtain ⟨c, hc, h⟩ := Except.bind_eq_ok.mp h
    rw [List.append_cons]
    exact ih h (hstep _ _ a c hb hc)

theorem option_forM_eq_ok {f : α → Except ε Unit} {o : Option α} {u : Unit} :
    o.forM f = .ok u ↔ ∀ a ∈ o, f a = .ok () := by
  cases o with
  | none => simp [Option.forM, pure, Except.pure]
  | some a => simp [Option.forM]

end Except

namespace StateT

variable {σ ε α β : Type} {s s' : σ}

theorem bind_eq_ok {m : StateT σ (Except ε) α} {f : α → StateT σ (Except ε) β} {b : β} :
    (m >>= f) s = .ok (b, s') ↔ ∃ a s₁, m s = .ok (a, s₁) ∧ f a s₁ = .ok (b, s') := by
  simp only [bind, StateT.bind, Except.bind]
  rcases m s with e | ⟨a, s₁⟩
  · simp
  · simp [and_assoc]

theorem pure_eq_ok {a b : α} :
    (pure a : StateT σ (Except ε) α) s = .ok (b, s') ↔ a = b ∧ s = s' := by
  show Except.ok (a, s) = .ok (b, s') ↔ _
  simp

theorem map_eq_ok {m : StateT σ (Except ε) α} {f : α → β} {b : β} :
    (f <$> m) s = .ok (b, s') ↔ ∃ a, m s = .ok (a, s') ∧ f a = b := by
  rw [map_eq_pure_bind, StateT.bind_eq_ok]
  constructor
  · rintro ⟨a, s₁, hm, hp⟩
    obtain ⟨rfl, rfl⟩ := StateT.pure_eq_ok.mp hp
    exact ⟨a, hm, rfl⟩
  · rintro ⟨a, hm, rfl⟩
    exact ⟨a, s', hm, StateT.pure_eq_ok.mpr ⟨rfl, rfl⟩⟩

theorem lift_eq_ok {x : Except ε α} {a : α} :
    (monadLift x : StateT σ (Except ε) α) s = .ok (a, s') ↔ x = .ok a ∧ s = s' := by
  show (StateT.lift x : StateT σ (Except ε) α) s = _ ↔ _
  simp only [StateT.lift, bind, Except.bind, pure, Except.pure]
  cases x with
  | error e => simp
  | ok a' => simp

@[simp] theorem throw_ne_ok {e : ε} {a : α} :
    (throw e : StateT σ (Except ε) α) s ≠ .ok (a, s') := by
  simp [throw, throwThe, MonadExceptOf.throw, StateT.lift, bind, Except.bind]

theorem guard_eq_ok {p : Prop} [Decidable p] {e : ε} {f : α → StateT σ (Except ε) β}
    {rest : StateT σ (Except ε) β} {b : β} :
    (if p then throw e >>= f else rest) s = .ok (b, s') ↔ ¬p ∧ rest s = .ok (b, s') := by
  by_cases hp : p
  · simp [hp, bind_eq_ok]
  · simp [hp]

/-- A traversal gives one result for each element, in order. -/
theorem mapM'_ok {f : α → StateT σ (Except ε) β} {as : List α} {bs : List β}
    (h : as.mapM' f s = .ok (bs, s')) :
    List.Forall₂ (fun a b => ∃ s s', f a s = .ok (b, s')) as bs := by
  induction as generalizing bs s with
  | nil =>
    obtain ⟨rfl, -⟩ := StateT.pure_eq_ok.mp h
    exact .nil
  | cons a as ih =>
    obtain ⟨b, s₁, hb, h⟩ := StateT.bind_eq_ok.mp h
    obtain ⟨bs', s₂, hbs, h⟩ := StateT.bind_eq_ok.mp h
    obtain ⟨rfl, rfl⟩ := StateT.pure_eq_ok.mp h
    exact .cons ⟨s, s₁, hb⟩ (ih hbs)

end StateT
