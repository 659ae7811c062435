import Cat.Claims

/-!
# Claim sets at every depth

A token holds claim sets in its composites, and those are tokens again. `Throughout` says
something of every claim set that is reached through the operators one looks through, the token
itself included; `Meets` reads the composites as the Boolean formulas that they are.

Which operators one looks through is a parameter, since it differs by what is to be shown. What
a conjunction demands, each of its members demands, so a bound on issuers holds throughout the
conjunctions; a disjunction gives nothing of the kind, and a negation turns it round. `Meets` is
the other reading, where all operators count and the answer is a truth value.

Both recurse over the mutual family of tokens, composites and claim sets. The recursion is done
here, with one statement for each member of the family, and what is said about all claim sets
elsewhere goes through these two.

The last part is about two readings of one formula. When the leaves of one follow from those of
the other, the formulas follow from each other as far as each leaf stands under an even number
of negations, and the other way round where the number is odd: the parity is what is carried
along.
-/

set_option autoImplicit false

namespace Cat

mutual
/-- Of the token, and of every claim set below it that is seen. -/
def CatToken.Throughout (sees : CompositeOperator → Bool) (P : CatToken → Prop) : CatToken → Prop
  | ⟨core, cat, informational, dpop, request, ⟨orC, norC, andC⟩, moqt, custom⟩ =>
    P ⟨core, cat, informational, dpop, request, ⟨orC, norC, andC⟩, moqt, custom⟩ ∧
      throughout? sees P orC ∧ throughout? sees P norC ∧ throughout? sees P andC
def throughout? (sees : CompositeOperator → Bool) (P : CatToken → Prop) :
    Option CompositeClaim → Prop
  | none => True
  | some c => c.Throughout sees P
def CompositeClaim.Throughout (sees : CompositeOperator → Bool) (P : CatToken → Prop) :
    CompositeClaim → Prop
  | ⟨op, claims⟩ => sees op = true → allThroughout sees P claims
def ClaimSet.Throughout (sees : CompositeOperator → Bool) (P : CatToken → Prop) : ClaimSet → Prop
  | .token t => t.Throughout sees P
  | .composite c => c.Throughout sees P
def allThroughout (sees : CompositeOperator → Bool) (P : CatToken → Prop) : List ClaimSet → Prop
  | [] => True
  | cs :: css => cs.Throughout sees P ∧ allThroughout sees P css
end

/-- Of every claim set in the composites. -/
def CompositeClaims.Throughout (sees : CompositeOperator → Bool) (P : CatToken → Prop)
    (c : CompositeClaims) : Prop :=
  throughout? sees P c.orClaim ∧ throughout? sees P c.norClaim ∧ throughout? sees P c.andClaim

mutual
/-- The token and every claim set below it, in the order of the payload. -/
def CatToken.claimSets : CatToken → List CatToken
  | ⟨core, cat, informational, dpop, request, ⟨orC, norC, andC⟩, moqt, custom⟩ =>
    ⟨core, cat, informational, dpop, request, ⟨orC, norC, andC⟩, moqt, custom⟩ ::
      (claimSets? orC ++ claimSets? norC ++ claimSets? andC)
def claimSets? : Option CompositeClaim → List CatToken
  | none => []
  | some c => c.claimSets
def CompositeClaim.claimSets : CompositeClaim → List CatToken
  | ⟨_, claims⟩ => claimSetsOf claims
def ClaimSet.claimSets : ClaimSet → List CatToken
  | .token t => t.claimSets
  | .composite c => c.claimSets
def claimSetsOf : List ClaimSet → List CatToken
  | [] => []
  | cs :: css => cs.claimSets ++ claimSetsOf css
end

/-- The claim sets in the composites. -/
def CompositeClaims.claimSets (c : CompositeClaims) : List CatToken :=
  claimSets? c.orClaim ++ claimSets? c.norClaim ++ claimSets? c.andClaim

theorem CatToken.claimSets_eq (t : CatToken) : t.claimSets = t :: t.composite.claimSets := by
  obtain ⟨core, cat, informational, dpop, request, ⟨orC, norC, andC⟩, moqt, custom⟩ := t
  rw [claimSets]
  rfl

theorem mem_claimSetsOf {u : CatToken} {css : List ClaimSet} :
    u ∈ claimSetsOf css ↔ ∃ cs ∈ css, u ∈ cs.claimSets := by
  induction css with
  | nil => simp [claimSetsOf]
  | cons cs css ih => simp [claimSetsOf, ih]

theorem CompositeClaim.mem_claimSets {u : CatToken} {c : CompositeClaim} :
    u ∈ c.claimSets ↔ ∃ cs ∈ c.claims, u ∈ cs.claimSets := by
  obtain ⟨op, claims⟩ := c
  rw [claimSets, mem_claimSetsOf]

mutual
/-- What holds throughout a token holds of all its claim sets. -/
theorem CatToken.throughout_iff_claimSets {P : CatToken → Prop} : (t : CatToken) →
    (t.Throughout (fun _ => true) P ↔ ∀ t' ∈ t.claimSets, P t')
  | ⟨core, cat, informational, dpop, request, ⟨orC, norC, andC⟩, moqt, custom⟩ => by
    rw [CatToken.Throughout, CatToken.claimSets, List.forall_mem_cons, List.forall_mem_append,
      List.forall_mem_append, throughout?_iff_claimSets orC, throughout?_iff_claimSets norC,
      throughout?_iff_claimSets andC, and_assoc]
theorem throughout?_iff_claimSets {P : CatToken → Prop} : (c : Option CompositeClaim) →
    (throughout? (fun _ => true) P c ↔ ∀ t' ∈ claimSets? c, P t')
  | none => by simp [throughout?, claimSets?]
  | some c => by rw [throughout?, claimSets?, c.throughout_iff_claimSets]
theorem CompositeClaim.throughout_iff_claimSets {P : CatToken → Prop} : (c : CompositeClaim) →
    (c.Throughout (fun _ => true) P ↔ ∀ t' ∈ c.claimSets, P t')
  | ⟨op, claims⟩ => by
    rw [CompositeClaim.Throughout, CompositeClaim.claimSets, allThroughout_iff_claimSets claims]
    simp
theorem ClaimSet.throughout_iff_claimSets {P : CatToken → Prop} : (cs : ClaimSet) →
    (cs.Throughout (fun _ => true) P ↔ ∀ t' ∈ cs.claimSets, P t')
  | .token t => by rw [ClaimSet.Throughout, ClaimSet.claimSets, t.throughout_iff_claimSets]
  | .composite c => by rw [ClaimSet.Throughout, ClaimSet.claimSets, c.throughout_iff_claimSets]
theorem allThroughout_iff_claimSets {P : CatToken → Prop} : (css : List ClaimSet) →
    (allThroughout (fun _ => true) P css ↔ ∀ t' ∈ claimSetsOf css, P t')
  | [] => by simp [allThroughout, claimSetsOf]
  | cs :: css => by
    rw [allThroughout, claimSetsOf, List.forall_mem_append, cs.throughout_iff_claimSets,
      allThroughout_iff_claimSets css]
end

mutual
/-- `M` of the token, and its composites hold of what `M` says of their claim sets. Nothing
    is asked of a claim set that must not hold. -/
def CatToken.Meets (M : CatToken → Prop) : CatToken → Prop
  | ⟨core, cat, informational, dpop, request, ⟨orC, norC, andC⟩, moqt, custom⟩ =>
    M ⟨core, cat, informational, dpop, request, ⟨orC, norC, andC⟩, moqt, custom⟩ ∧
      meets? M orC ∧ meets? M norC ∧ meets? M andC
def meets? (M : CatToken → Prop) : Option CompositeClaim → Prop
  | none => True
  | some c => c.Meets M
def CompositeClaim.Meets (M : CatToken → Prop) : CompositeClaim → Prop
  | ⟨.or, claims⟩ => anyMeets M claims
  | ⟨.nor, _⟩ => True
  | ⟨.and, claims⟩ => allMeet M claims
def ClaimSet.Meets (M : CatToken → Prop) : ClaimSet → Prop
  | .token t => t.Meets M
  | .composite c => c.Meets M
def anyMeets (M : CatToken → Prop) : List ClaimSet → Prop
  | [] => False
  | cs :: css => cs.Meets M ∨ anyMeets M css
def allMeet (M : CatToken → Prop) : List ClaimSet → Prop
  | [] => True
  | cs :: css => cs.Meets M ∧ allMeet M css
end

mutual
/-- Of the token and of every claim set below it, told whether it stands under an even number
    of `nor`s. A claim set under an odd number helps by failing. -/
def CatToken.ByParity (P : Bool → CatToken → Prop) (even : Bool) : CatToken → Prop
  | ⟨core, cat, informational, dpop, request, ⟨orC, norC, andC⟩, moqt, custom⟩ =>
    P even ⟨core, cat, informational, dpop, request, ⟨orC, norC, andC⟩, moqt, custom⟩ ∧
      byParity? P even orC ∧ byParity? P even norC ∧ byParity? P even andC
def byParity? (P : Bool → CatToken → Prop) (even : Bool) : Option CompositeClaim → Prop
  | none => True
  | some c => c.ByParity P even
def CompositeClaim.ByParity (P : Bool → CatToken → Prop) (even : Bool) : CompositeClaim → Prop
  | ⟨op, claims⟩ => allByParity P (if op = .nor then !even else even) claims
def ClaimSet.ByParity (P : Bool → CatToken → Prop) (even : Bool) : ClaimSet → Prop
  | .token t => t.ByParity P even
  | .composite c => c.ByParity P even
def allByParity (P : Bool → CatToken → Prop) (even : Bool) : List ClaimSet → Prop
  | [] => True
  | cs :: css => cs.ByParity P even ∧ allByParity P even css
end

mutual
theorem CatToken.ByParity.imp {P Q : Bool → CatToken → Prop} (h : ∀ even t, P even t → Q even t) :
    ∀ (t : CatToken) (even : Bool), t.ByParity P even → t.ByParity Q even
  | ⟨core, cat, informational, dpop, request, ⟨orC, norC, andC⟩, moqt, custom⟩, even => by
    rw [CatToken.ByParity, CatToken.ByParity]
    rintro ⟨hP, hor, hnor, hand⟩
    exact ⟨h _ _ hP, byParity?_imp h orC even hor, byParity?_imp h norC even hnor,
      byParity?_imp h andC even hand⟩
theorem byParity?_imp {P Q : Bool → CatToken → Prop} (h : ∀ even t, P even t → Q even t) :
    ∀ (c : Option CompositeClaim) (even : Bool), byParity? P even c → byParity? Q even c
  | none, _ => id
  | some c, even => CompositeClaim.ByParity.imp h c even
theorem CompositeClaim.ByParity.imp {P Q : Bool → CatToken → Prop}
    (h : ∀ even t, P even t → Q even t) :
    ∀ (c : CompositeClaim) (even : Bool), c.ByParity P even → c.ByParity Q even
  | ⟨_, claims⟩, _ => allByParity_imp h claims _
theorem ClaimSet.ByParity.imp {P Q : Bool → CatToken → Prop} (h : ∀ even t, P even t → Q even t) :
    ∀ (cs : ClaimSet) (even : Bool), cs.ByParity P even → cs.ByParity Q even
  | .token t, even => CatToken.ByParity.imp h t even
  | .composite c, even => CompositeClaim.ByParity.imp h c even
theorem allByParity_imp {P Q : Bool → CatToken → Prop} (h : ∀ even t, P even t → Q even t) :
    ∀ (css : List ClaimSet) (even : Bool), allByParity P even css → allByParity Q even css
  | [], _ => id
  | cs :: css, even => fun hP =>
    ⟨ClaimSet.ByParity.imp h cs even hP.1, allByParity_imp h css even hP.2⟩
end

mutual
/-- The token read as the formula that its composites make of its claim sets, each of them
    counted as `M` counts its own claims. -/
def CatToken.holds (M : CatToken → Bool) : CatToken → Bool
  | ⟨core, cat, informational, dpop, request, ⟨orC, norC, andC⟩, moqt, custom⟩ =>
    M ⟨core, cat, informational, dpop, request, ⟨orC, norC, andC⟩, moqt, custom⟩ &&
      (holds? M orC && holds? M norC && holds? M andC)
def holds? (M : CatToken → Bool) : Option CompositeClaim → Bool
  | none => true
  | some c => c.holds M
def CompositeClaim.holds (M : CatToken → Bool) : CompositeClaim → Bool
  | ⟨.or, claims⟩ => anyHolds M claims
  | ⟨.nor, claims⟩ => !anyHolds M claims
  | ⟨.and, claims⟩ => allHold M claims
def ClaimSet.holds (M : CatToken → Bool) : ClaimSet → Bool
  | .token t => t.holds M
  | .composite c => c.holds M
def anyHolds (M : CatToken → Bool) : List ClaimSet → Bool
  | [] => false
  | cs :: css => cs.holds M || anyHolds M css
def allHold (M : CatToken → Bool) : List ClaimSet → Bool
  | [] => true
  | cs :: css => cs.holds M && allHold M css
end

/-- The composites of a token, without the token's own claims. -/
def CompositeClaims.holds (M : CatToken → Bool) (c : CompositeClaims) : Bool :=
  holds? M c.orClaim && holds? M c.norClaim && holds? M c.andClaim

theorem CatToken.holds_eq (M : CatToken → Bool) (t : CatToken) :
    t.holds M = (M t && t.composite.holds M) := by
  obtain ⟨core, cat, informational, dpop, request, ⟨orC, norC, andC⟩, moqt, custom⟩ := t
  rw [holds]
  rfl

/-- The composites of a token, without the token's own claims. -/
def CompositeClaims.Meets (M : CatToken → Prop) (c : CompositeClaims) : Prop :=
  meets? M c.orClaim ∧ meets? M c.norClaim ∧ meets? M c.andClaim

mutual
theorem CatToken.Meets.imp {M N : CatToken → Prop} (h : ∀ t, M t → N t) :
    ∀ t : CatToken, t.Meets M → t.Meets N
  | ⟨core, cat, informational, dpop, request, ⟨orC, norC, andC⟩, moqt, custom⟩ => by
    rw [CatToken.Meets, CatToken.Meets]
    rintro ⟨hM, hor, hnor, hand⟩
    exact ⟨h _ hM, meets?_imp h orC hor, meets?_imp h norC hnor, meets?_imp h andC hand⟩
theorem meets?_imp {M N : CatToken → Prop} (h : ∀ t, M t → N t) :
    ∀ c : Option CompositeClaim, meets? M c → meets? N c
  | none => id
  | some c => CompositeClaim.Meets.imp h c
theorem CompositeClaim.Meets.imp {M N : CatToken → Prop} (h : ∀ t, M t → N t) :
    ∀ c : CompositeClaim, c.Meets M → c.Meets N
  | ⟨.or, claims⟩ => anyMeets_imp h claims
  | ⟨.nor, _⟩ => id
  | ⟨.and, claims⟩ => allMeet_imp h claims
theorem ClaimSet.Meets.imp {M N : CatToken → Prop} (h : ∀ t, M t → N t) :
    ∀ cs : ClaimSet, cs.Meets M → cs.Meets N
  | .token t => CatToken.Meets.imp h t
  | .composite c => CompositeClaim.Meets.imp h c
theorem anyMeets_imp {M N : CatToken → Prop} (h : ∀ t, M t → N t) :
    ∀ css : List ClaimSet, anyMeets M css → anyMeets N css
  | [] => id
  | cs :: css => Or.imp (ClaimSet.Meets.imp h cs) (anyMeets_imp h css)
theorem allMeet_imp {M N : CatToken → Prop} (h : ∀ t, M t → N t) :
    ∀ css : List ClaimSet, allMeet M css → allMeet N css
  | [] => id
  | cs :: css => And.imp (ClaimSet.Meets.imp h cs) (allMeet_imp h css)
end

theorem CompositeClaims.Meets.imp {M N : CatToken → Prop} {c : CompositeClaims}
    (hc : c.Meets M) (h : ∀ t, M t → N t) : c.Meets N :=
  ⟨meets?_imp h _ hc.1, meets?_imp h _ hc.2.1, meets?_imp h _ hc.2.2⟩

mutual
/-- No `or` stands where something has to hold. -/
def CatToken.AndOnly : CatToken → Prop
  | ⟨_, _, _, _, _, ⟨orC, norC, andC⟩, _, _⟩ => andOnly? orC ∧ andOnly? norC ∧ andOnly? andC
def andOnly? : Option CompositeClaim → Prop
  | none => True
  | some c => c.AndOnly
def CompositeClaim.AndOnly : CompositeClaim → Prop
  | ⟨.or, _⟩ => False
  | ⟨.nor, _⟩ => True
  | ⟨.and, claims⟩ => allAndOnly claims
def ClaimSet.AndOnly : ClaimSet → Prop
  | .token t => t.AndOnly
  | .composite c => c.AndOnly
def allAndOnly : List ClaimSet → Prop
  | [] => True
  | cs :: css => cs.AndOnly ∧ allAndOnly css
end

/-- The composites of a token, without the token's own claims. -/
def CompositeClaims.AndOnly (c : CompositeClaims) : Prop :=
  andOnly? c.orClaim ∧ andOnly? c.norClaim ∧ andOnly? c.andClaim

section
variable {ι : Type} {P : ι → Prop} {M : ι → CatToken → Prop}

mutual
/-- **A conjunction holds always where each of its claim sets always does.** -/
theorem CatToken.meets_of_forall : ∀ t : CatToken, t.AndOnly → (∀ i, P i → t.Meets (M i)) →
    t.Meets fun t => ∀ i, P i → M i t
  | ⟨core, cat, informational, dpop, request, ⟨orC, norC, andC⟩, moqt, custom⟩, hand, h => by
    rw [CatToken.AndOnly] at hand
    simp only [CatToken.Meets] at h
    rw [CatToken.Meets]
    exact ⟨fun i hi => (h i hi).1, meets?_of_forall orC hand.1 fun i hi => (h i hi).2.1,
      meets?_of_forall norC hand.2.1 fun i hi => (h i hi).2.2.1,
      meets?_of_forall andC hand.2.2 fun i hi => (h i hi).2.2.2⟩
theorem meets?_of_forall : ∀ c : Option CompositeClaim, andOnly? c →
    (∀ i, P i → meets? (M i) c) → meets? (fun t => ∀ i, P i → M i t) c
  | none, _, _ => trivial
  | some c, hand, h => c.meets_of_forall hand h
theorem CompositeClaim.meets_of_forall : ∀ c : CompositeClaim, c.AndOnly →
    (∀ i, P i → c.Meets (M i)) → c.Meets fun t => ∀ i, P i → M i t
  | ⟨.or, _⟩, hand, _ => hand.elim
  | ⟨.nor, _⟩, _, _ => trivial
  | ⟨.and, claims⟩, hand, h => allMeet_of_forall claims hand h
theorem ClaimSet.meets_of_forall : ∀ cs : ClaimSet, cs.AndOnly →
    (∀ i, P i → cs.Meets (M i)) → cs.Meets fun t => ∀ i, P i → M i t
  | .token t, hand, h => t.meets_of_forall hand h
  | .composite c, hand, h => c.meets_of_forall hand h
theorem allMeet_of_forall : ∀ css : List ClaimSet, allAndOnly css →
    (∀ i, P i → allMeet (M i) css) → allMeet (fun t => ∀ i, P i → M i t) css
  | [], _, _ => trivial
  | cs :: css, hand, h => ⟨cs.meets_of_forall hand.1 fun i hi => (h i hi).1,
      allMeet_of_forall css hand.2 fun i hi => (h i hi).2⟩
end

theorem CompositeClaims.meets_of_forall (c : CompositeClaims) (hand : c.AndOnly)
    (h : ∀ i, P i → c.Meets (M i)) : c.Meets fun t => ∀ i, P i → M i t :=
  ⟨meets?_of_forall _ hand.1 fun i hi => (h i hi).1,
    meets?_of_forall _ hand.2.1 fun i hi => (h i hi).2.1,
    meets?_of_forall _ hand.2.2 fun i hi => (h i hi).2.2⟩

end

/-! ## Formulas that follow from each other

With the parity of negations above a leaf it is known in which direction the leaf has to follow.
-/

/-- `b` follows from `a`; under an odd number of `nor`s, `a` from `b`. -/
def Follows : (even : Bool) → (a b : Bool) → Prop
  | true, a, b => a = true → b = true
  | false, a, b => b = true → a = true

theorem Follows.and {even a b a' b' : Bool} (h : Follows even a b) (h' : Follows even a' b') :
    Follows even (a && a') (b && b') := by
  cases even <;> simp only [Follows, Bool.and_eq_true] at h h' ⊢ <;> exact And.imp h h'

theorem Follows.or {even a b a' b' : Bool} (h : Follows even a b) (h' : Follows even a' b') :
    Follows even (a || a') (b || b') := by
  cases even <;> simp only [Follows, Bool.or_eq_true] at h h' ⊢ <;> exact Or.imp h h'

theorem Follows.not {even a b : Bool} (h : Follows (!even) a b) : Follows even (!a) (!b) := by
  cases even <;> cases a <;> cases b <;> simp_all [Follows]

theorem Follows.refl (even a : Bool) : Follows even a a := by
  cases even <;> exact id

mutual
/-- **Formulas follow from each other by parity**: it is enough that each claim set follows in
    the direction in which it is asked. -/
theorem CatToken.holds_follows {M N : CatToken → Bool} : ∀ (t : CatToken) (even : Bool),
    t.ByParity (fun even t => Follows even (M t) (N t)) even → Follows even (t.holds M) (t.holds N)
  | ⟨core, cat, informational, dpop, request, ⟨orC, norC, andC⟩, moqt, custom⟩, even => by
    rw [CatToken.ByParity, CatToken.holds, CatToken.holds]
    rintro ⟨hown, hor, hnor, hand⟩
    apply hown.and
    apply Follows.and
    · exact (holds?_follows orC even hor).and (holds?_follows norC even hnor)
    · exact holds?_follows andC even hand
theorem holds?_follows {M N : CatToken → Bool} : ∀ (c : Option CompositeClaim) (even : Bool),
    byParity? (fun even t => Follows even (M t) (N t)) even c →
      Follows even (holds? M c) (holds? N c)
  | none, even, _ => .refl even true
  | some c, even, h => CompositeClaim.holds_follows c even h
theorem CompositeClaim.holds_follows {M N : CatToken → Bool} :
    ∀ (c : CompositeClaim) (even : Bool),
      c.ByParity (fun even t => Follows even (M t) (N t)) even →
        Follows even (c.holds M) (c.holds N)
  | ⟨.or, claims⟩, even, h => (claimSets_follow claims even h).1
  | ⟨.nor, claims⟩, even, h => (claimSets_follow claims (!even) h).1.not
  | ⟨.and, claims⟩, even, h => (claimSets_follow claims even h).2
theorem ClaimSet.holds_follows {M N : CatToken → Bool} : ∀ (cs : ClaimSet) (even : Bool),
    cs.ByParity (fun even t => Follows even (M t) (N t)) even →
      Follows even (cs.holds M) (cs.holds N)
  | .token t, even, h => CatToken.holds_follows t even h
  | .composite c, even, h => CompositeClaim.holds_follows c even h
theorem claimSets_follow {M N : CatToken → Bool} : ∀ (css : List ClaimSet) (even : Bool),
    allByParity (fun even t => Follows even (M t) (N t)) even css →
      Follows even (anyHolds M css) (anyHolds N css) ∧ Follows even (allHold M css) (allHold N css)
  | [], even, _ => ⟨.refl even false, .refl even true⟩
  | cs :: css, even, h => by
    have hcs := ClaimSet.holds_follows cs even h.1
    obtain ⟨hany, hall⟩ := claimSets_follow css even h.2
    exact ⟨hcs.or hany, hcs.and hall⟩
end

end Cat
