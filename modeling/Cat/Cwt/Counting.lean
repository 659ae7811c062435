import Cat.Cwt.Limits
import Cat.Lib.Outcome
import Mathlib.Algebra.BigOperators.Group.List.Basic

/-!
# Counting

A step of the decoder moves the counters by what the value costs and fails over a limit.
`Counts` says both at once: the step returns what its relation allows and moves the counters by
the cost the relation gives, and it does so whenever that stays within the limits. Steps
compose, costs add up.

It is a specification in two halves. `sound` takes a step that returned apart, and `complete`
says that a step returns; together they make an equivalence, and they are kept apart because the
first one also has that the counters stay within the limits once they are, which a run of many
steps needs at every point.

Each rule is for one way in which the decoder is written: a step after another (`andThen`), a
check in front of a step (`guard`), a counter that is moved and then compared (`check`), a loop
over elements (`traverse`). Counters form a commutative monoid, so the costs of a loop are a
sum, in whatever order the elements are looked at. The module names no claim.
-/

set_option autoImplicit false

namespace Cat

namespace DecodeCounters

instance : Zero DecodeCounters := ⟨{}⟩

instance : Add DecodeCounters :=
  ⟨fun a b => ⟨a.totalItems + b.totalItems, a.totalStringBytes + b.totalStringBytes,
    a.regexCount + b.regexCount, a.uriPatternCount + b.uriPatternCount⟩⟩

/-- Nothing has been counted beyond its limit. -/
structure Within (limits : CwtLimits) (c : DecodeCounters) : Prop where
  items : c.totalItems ≤ limits.maxTotalItems
  strings : c.totalStringBytes ≤ limits.maxTotalStringBytes
  regexes : c.regexCount ≤ limits.maxRegexCount
  uris : c.uriPatternCount ≤ limits.maxUriPatterns

@[simp] theorem totalItems_add (a b : DecodeCounters) :
    (a + b).totalItems = a.totalItems + b.totalItems := rfl
@[simp] theorem totalStringBytes_add (a b : DecodeCounters) :
    (a + b).totalStringBytes = a.totalStringBytes + b.totalStringBytes := rfl
@[simp] theorem regexCount_add (a b : DecodeCounters) :
    (a + b).regexCount = a.regexCount + b.regexCount := rfl
@[simp] theorem uriPatternCount_add (a b : DecodeCounters) :
    (a + b).uriPatternCount = a.uriPatternCount + b.uriPatternCount := rfl
@[simp] theorem totalItems_zero : (0 : DecodeCounters).totalItems = 0 := rfl
@[simp] theorem totalStringBytes_zero : (0 : DecodeCounters).totalStringBytes = 0 := rfl
@[simp] theorem regexCount_zero : (0 : DecodeCounters).regexCount = 0 := rfl
@[simp] theorem uriPatternCount_zero : (0 : DecodeCounters).uriPatternCount = 0 := rfl

theorem ext_counts {a b : DecodeCounters} (hi : a.totalItems = b.totalItems)
    (hs : a.totalStringBytes = b.totalStringBytes) (hr : a.regexCount = b.regexCount)
    (hu : a.uriPatternCount = b.uriPatternCount) : a = b := by
  cases a; cases b
  simp only at hi hs hr hu
  subst hi hs hr hu
  rfl

instance : AddCommMonoid DecodeCounters where
  add_assoc a b c := by apply ext_counts <;> simp [Nat.add_assoc]
  zero_add a := by apply ext_counts <;> simp
  add_zero a := by apply ext_counts <;> simp
  add_comm a b := by apply ext_counts <;> simp [Nat.add_comm]
  nsmul := nsmulRec

theorem within_zero (limits : CwtLimits) : Within limits 0 :=
  ⟨Nat.zero_le _, Nat.zero_le _, Nat.zero_le _, Nat.zero_le _⟩

theorem Within.of_add {limits : CwtLimits} {a b : DecodeCounters} (h : Within limits (a + b)) :
    Within limits a :=
  ⟨Nat.le_trans (Nat.le_add_right _ _) h.items, Nat.le_trans (Nat.le_add_right _ _) h.strings,
    Nat.le_trans (Nat.le_add_right _ _) h.regexes, Nat.le_trans (Nat.le_add_right _ _) h.uris⟩

end DecodeCounters

open DecodeCounters

/-- One item, so many string bytes, one URI pattern, one regular expression. -/
def itemCost (n : Nat) : DecodeCounters := { totalItems := n }
def stringCost (n : Nat) : DecodeCounters := { totalStringBytes := n }
def uriCost (n : Nat) : DecodeCounters := { uriPatternCount := n }
def regexCost (n : Nat) : DecodeCounters := { regexCount := n }

/-- The step returns just what `R` relates to a cost that fits. -/
structure Counts {α : Type} (limits : CwtLimits) (m : Decode α) (R : α → DecodeCounters → Prop) :
    Prop where
  sound : ∀ {s s' : DecodeCounters} {x : α}, m s = .ok (x, s') →
    ∃ c, R x c ∧ s' = s + c ∧ (Within limits s → Within limits s')
  complete : ∀ {s c : DecodeCounters} {x : α}, R x c → Within limits (s + c) →
    m s = .ok (x, s + c)

namespace Counts

variable {limits : CwtLimits} {α β : Type} {m : Decode α} {f : α → Decode β}
  {R R' : α → DecodeCounters → Prop} {S : α → β → DecodeCounters → Prop}

/-- The same step under another description. -/
theorem congr (h : Counts limits m R) (hR : ∀ x c, R x c ↔ R' x c) : Counts limits m R' where
  sound hm := by
    obtain ⟨c, hc, hs⟩ := h.sound hm
    exact ⟨c, (hR _ c).mp hc, hs⟩
  complete hc hs := h.complete ((hR _ _).mpr hc) hs

/-- A step that does not count. -/
theorem free {P : α → Prop} (h : ∀ s x s', m s = .ok (x, s') ↔ P x ∧ s = s') :
    Counts limits m fun x c => P x ∧ c = 0 where
  sound hm := by
    obtain ⟨hP, rfl⟩ := (h _ _ _).mp hm
    exact ⟨0, ⟨hP, rfl⟩, (add_zero _).symm, id⟩
  complete := by
    rintro s c x ⟨hP, rfl⟩ -
    exact (h _ _ _).mpr ⟨hP, (add_zero s).symm⟩

theorem lift (e : Except CatError α) :
    Counts limits (monadLift e : Decode α) fun x c => e = .ok x ∧ c = 0 :=
  free fun _ _ _ => StateT.lift_eq_ok

theorem ret (a : α) : Counts limits (pure a : Decode α) fun x c => a = x ∧ c = 0 :=
  free fun _ _ _ => StateT.pure_eq_ok

/-- A step that throws returns nothing. -/
theorem fail (e : CatError) : Counts limits (throw e : Decode α) fun _ _ => False where
  sound hm := absurd hm StateT.throw_ne_ok
  complete hc _ := hc.elim

/-- Two steps: what the second returns, at the sum of the costs. -/
theorem andThen (hm : Counts limits m R) (hf : ∀ a, Counts limits (f a) (S a)) :
    Counts limits (m >>= f) fun b c => ∃ a c₁ c₂, R a c₁ ∧ S a b c₂ ∧ c = c₁ + c₂ where
  sound h := by
    obtain ⟨a, s₁, ha, hb⟩ := StateT.bind_eq_ok.mp h
    obtain ⟨c₁, hR, rfl, hs₁⟩ := hm.sound ha
    obtain ⟨c₂, hS, rfl, hs₂⟩ := (hf a).sound hb
    exact ⟨c₁ + c₂, ⟨a, c₁, c₂, hR, hS, rfl⟩, add_assoc _ _ _, fun hs => hs₂ (hs₁ hs)⟩
  complete := by
    rintro s c b ⟨a, c₁, c₂, hR, hS, rfl⟩ hs
    rw [← add_assoc] at hs ⊢
    exact StateT.bind_eq_ok.mpr ⟨a, s + c₁, hm.complete hR hs.of_add, (hf a).complete hS hs⟩

/-- A check in front of a step. -/
theorem guard {p : Prop} [Decidable p] {e : CatError} {g : β → Decode α} (h : Counts limits m R) :
    Counts limits (if p then (throw e : Decode β) >>= g else m)
      fun x c => ¬p ∧ R x c where
  sound hm := by
    obtain ⟨hp, hm⟩ := StateT.guard_eq_ok.mp hm
    obtain ⟨c, hc, hs⟩ := h.sound hm
    exact ⟨c, ⟨hp, hc⟩, hs⟩
  complete hc hs := StateT.guard_eq_ok.mpr ⟨hc.1, h.complete hc.2 hs⟩

/-- A counter that is moved and then checked. -/
theorem check {p : DecodeCounters → Prop} [DecidablePred p] {e : CatError} {cost : DecodeCounters}
    (hp : ∀ s, Within limits s → ¬p s → Within limits (s + cost))
    (hp' : ∀ s, Within limits (s + cost) → ¬p s) :
    Counts limits (fun s => if p s then .error e else .ok ((), s + cost))
      fun _ c => c = cost where
  sound := by
    intro s s' x h
    by_cases hps : p s
    · rw [if_pos hps] at h
      exact absurd h (by simp)
    · rw [if_neg hps] at h
      obtain rfl := (Prod.ext_iff.mp (Except.ok.inj h)).2
      exact ⟨cost, rfl, rfl, fun hs => hp s hs hps⟩
  complete := by
    rintro s c x rfl hs
    rw [if_neg (hp' s hs)]

theorem countItem : Counts limits (countItem limits) fun _ c => c = itemCost 1 :=
  @check limits (fun s => s.totalItems + 1 > limits.maxTotalItems) _ _ (itemCost 1)
    (fun _ hs h => ⟨Nat.le_of_not_lt h, hs.strings, hs.regexes, hs.uris⟩)
    (fun _ hs => Nat.not_lt.mpr hs.items)

theorem countString (n : Nat) :
    Counts limits (countString n limits) fun _ c => c = stringCost n :=
  @check limits (fun s => s.totalStringBytes + n > limits.maxTotalStringBytes) _ _ (stringCost n)
    (fun _ hs h => ⟨hs.items, Nat.le_of_not_lt h, hs.regexes, hs.uris⟩)
    (fun _ hs => Nat.not_lt.mpr hs.strings)

theorem countUriPattern : Counts limits (countUriPattern limits) fun _ c => c = uriCost 1 :=
  @check limits (fun s => s.uriPatternCount + 1 > limits.maxUriPatterns) _ _ (uriCost 1)
    (fun _ hs h => ⟨hs.items, hs.strings, hs.regexes, Nat.le_of_not_lt h⟩)
    (fun _ hs => Nat.not_lt.mpr hs.uris)

theorem countRegex : Counts limits (countRegex limits) fun _ c => c = regexCost 1 :=
  @check limits (fun s => s.regexCount + 1 > limits.maxRegexCount) _ _ (regexCost 1)
    (fun _ hs h => ⟨hs.items, hs.strings, Nat.le_of_not_lt h, hs.uris⟩)
    (fun _ hs => Nat.not_lt.mpr hs.regexes)

/-- An item that is returned as soon as it is counted. -/
theorem countedRet (a : α) (hR : ∀ x c, (a = x ∧ c = itemCost 1) ↔ R x c) :
    Counts limits (do DecodeCounters.countItem limits; pure a) R := by
  refine (countItem.andThen fun _ => ret a).congr fun x c => (?_ : _ ↔ _).trans (hR x c)
  constructor
  · rintro ⟨_, c₁, c₂, rfl, ⟨rfl, rfl⟩, rfl⟩
    exact ⟨rfl, add_zero _⟩
  · rintro ⟨rfl, rfl⟩
    exact ⟨(), _, 0, rfl, ⟨rfl, rfl⟩, (add_zero _).symm⟩

/-- An item that is counted and then refused. -/
theorem countedFail (e : CatError) (hR : ∀ x c, ¬R x c) :
    Counts limits (do DecodeCounters.countItem limits; throw e) R := by
  refine (countItem.andThen fun _ => fail e).congr fun x c => ?_
  constructor
  · rintro ⟨_, _, _, _, hfalse, -⟩
    exact hfalse.elim
  · intro h
    exact absurd h (hR x c)

/-- A traversal: element by element, at the sum of the costs. -/
theorem traverse {γ : Type} {g : γ → Decode β} {T : γ → β → Prop} {cost : β → DecodeCounters}
    (hg : ∀ a, Counts limits (g a) fun b c => T a b ∧ c = cost b) (as : List γ) :
    Counts limits (as.mapM' g) fun bs c => List.Forall₂ T as bs ∧ c = (bs.map cost).sum := by
  induction as with
  | nil =>
    refine (Counts.ret ([] : List β)).congr fun bs c => ?_
    constructor
    · rintro ⟨rfl, rfl⟩
      exact ⟨.nil, rfl⟩
    · rintro ⟨h, rfl⟩
      cases h
      exact ⟨rfl, rfl⟩
  | cons a as ih =>
    refine ((hg a).andThen fun b => ih.andThen fun bs => Counts.ret (b :: bs)).congr fun bs c => ?_
    constructor
    · rintro ⟨b, c₁, c₂, ⟨hb, rfl⟩, ⟨bs', c₃, c₄, ⟨hbs, rfl⟩, ⟨rfl, rfl⟩, rfl⟩, rfl⟩
      refine ⟨.cons hb hbs, ?_⟩
      rw [List.map_cons, List.sum_cons, add_zero]
    · rintro ⟨h, rfl⟩
      cases h with
      | cons hb hbs =>
        exact ⟨_, _, _, ⟨hb, rfl⟩, ⟨_, _, 0, ⟨hbs, rfl⟩, ⟨rfl, rfl⟩, rfl⟩,
          by rw [List.map_cons, List.sum_cons, add_zero]⟩

/-- A traversal of elements that have one form each. -/
theorem traverse_exact {γ : Type} {g : γ → Decode β} {enc : β → γ} {P : β → Prop}
    {cost : β → DecodeCounters}
    (hg : ∀ a, Counts limits (g a) fun b c => (a = enc b ∧ P b) ∧ c = cost b) (as : List γ) :
    Counts limits (as.mapM' g) fun bs c =>
      (as = bs.map enc ∧ ∀ b ∈ bs, P b) ∧ c = (bs.map cost).sum := by
  refine (traverse hg as).congr fun bs c => and_congr_left' ?_
  constructor
  · intro h
    induction h with
    | nil => simp
    | cons hab _ ih => simp [hab.1, hab.2, ← ih.1]; exact ih.2
  · rintro ⟨rfl, hP⟩
    induction bs with
    | nil => exact .nil
    | cons b bs ih =>
      exact .cons ⟨rfl, hP b List.mem_cons_self⟩ (ih fun b' hb' => hP b' (List.mem_cons_of_mem _ hb'))

end Counts
end Cat
