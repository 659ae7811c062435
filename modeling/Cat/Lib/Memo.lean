import Cat.Lib.Lru

/-!
# Remembered results

A bounded cache in front of a function. What is remembered is what the function gives, so asking
the cache is asking the function, whatever was asked before and whatever had to go. A program
that asks the cache computes what the program without one does.

The invariant is that every remembered value is the function's (`Remembers`), and it is about
values only; how full the cache is and what it evicts affects how often the function is called
and nothing else. `Computes` carries it through a program in the state monad: from every state
of the invariant the program gives this result and keeps the invariant. Loops that stop early
have rules of their own, since they leave the cache in a state that depends on where they
stopped.
-/

set_option autoImplicit false

namespace Lru

variable {κ ν : Type} [DecidableEq κ] {f : κ → Option ν} {c : Lru κ ν} {k : κ}

/-- Every remembered value is the function's. -/
def Remembers (f : κ → Option ν) (c : Lru κ ν) : Prop :=
  ∀ k v, (k, v) ∈ c.entries → f k = some v

/-- Ask the cache, and on a miss the function. What it gives is remembered; that it gives
    nothing is not. -/
def getOrCompute (f : κ → Option ν) (k : κ) (c : Lru κ ν) : Option ν × Lru κ ν :=
  match c.get k with
  | (some v, c) => (some v, c)
  | (none, c) =>
    match f k with
    | some v => (some v, c.put k v)
    | none => (none, c)

omit [DecidableEq κ] in
theorem remembers_empty (f : κ → Option ν) (cap : Nat) : (empty cap : Lru κ ν).Remembers f :=
  fun _ _ h => absurd h List.not_mem_nil

theorem Remembers.put (h : c.Remembers f) {v : ν} (hv : f k = some v) :
    (c.put k v).Remembers f := by
  intro k' v' hmem
  cases List.mem_cons.mp (List.mem_of_mem_take hmem) with
  | inl heq =>
    obtain ⟨rfl, rfl⟩ := Prod.mk.inj heq
    exact hv
  | inr hold => exact h k' v' (List.mem_filter.mp hold).1

theorem Remembers.get (h : c.Remembers f) (k : κ) : (c.get k).2.Remembers f := by
  unfold Lru.get
  cases hpeek : c.peek k with
  | none => exact h
  | some v => exact h.put (h k v (peek_eq_some.mp hpeek))

/-- **Asking the cache is asking the function**, and what is remembered stays right. -/
theorem Remembers.getOrCompute (h : c.Remembers f) (k : κ) :
    (c.getOrCompute f k).1 = f k ∧ (c.getOrCompute f k).2.Remembers f ∧
      (c.getOrCompute f k).2.cap = c.cap := by
  have hget := h.get k
  have hcap := c.get_cap k
  have hfst := c.get_fst k
  unfold Lru.getOrCompute
  generalize c.get k = looked at *
  obtain ⟨found, c'⟩ := looked
  cases found with
  | some v =>
    refine ⟨?_, hget, hcap⟩
    exact (h k v (peek_eq_some.mp hfst.symm)).symm
  | none =>
    dsimp only at hget hcap ⊢
    cases hf : f k with
    | none => exact ⟨rfl, hget, hcap⟩
    | some v => exact ⟨rfl, hget.put hf, hcap⟩

end Lru

/-- From every state of the invariant the program gives this result, and keeps the invariant. -/
def Computes {σ α : Type} (I : σ → Prop) (m : StateM σ α) (a : α) : Prop :=
  ∀ s, I s → (m.run s).1 = a ∧ I (m.run s).2

namespace Computes

variable {σ α β ε : Type} {I : σ → Prop}

theorem pure (a : α) : Computes I (Pure.pure a) a := fun _ hs => ⟨rfl, hs⟩

theorem bind {m : StateM σ α} {a : α} {k : α → StateM σ β} {b : β} (hm : Computes I m a)
    (hk : Computes I (k a) b) : Computes I (m >>= k) b := by
  intro s hs
  obtain ⟨hresult, hnext⟩ := hm s hs
  obtain ⟨hresult', hnext'⟩ := hk _ hnext
  show (((k (m.run s).1).run (m.run s).2).1 = b) ∧ I ((k (m.run s).1).run (m.run s).2).2
  rw [hresult]
  exact ⟨hresult', hnext'⟩

/-- Tests up to the first that holds. -/
theorem anyM {p : α → StateM σ Bool} {q : α → Bool} {as : List α}
    (h : ∀ a ∈ as, Computes I (p a) (q a)) : Computes I (as.anyM p) (as.any q) := by
  induction as with
  | nil => exact Computes.pure false
  | cons a as ih =>
    obtain ⟨ha, has⟩ := List.forall_mem_cons.mp h
    rw [List.any_cons]
    apply ha.bind
    cases q a with
    | true => exact Computes.pure true
    | false => exact ih has

/-- Checks up to the first that fails. -/
theorem forM {f : α → ExceptT ε (StateM σ) Unit} {g : α → Except ε Unit} {as : List α}
    (h : ∀ a ∈ as, Computes I (f a).run (g a)) : Computes I (as.forM f).run (as.forM g) := by
  induction as with
  | nil => exact Computes.pure (Except.ok ())
  | cons a as ih =>
    obtain ⟨ha, has⟩ := List.forall_mem_cons.mp h
    rw [List.forM, List.forM, ExceptT.run_bind]
    apply ha.bind
    cases g a with
    | error e => exact Computes.pure (Except.error e)
    | ok u => exact ih has

end Computes
