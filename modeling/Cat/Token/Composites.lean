import Cat.ClaimSets
import Cat.Token.Validator

/-!
# The validator's verdict as a formula

The validator walks down the composites and up again with depth limits of its own at every claim
set. Its verdict is nevertheless a formula: `validate_isOk` says that a token passes when
`CatToken.holds` does, each claim set counted by what the validator makes of the claim set's own
claims (`accepts`). The depth at which the evaluator would give up is never reached behind the
depth check.

Two questions about validators are then questions about formulas: what a stricter validator
still admits (`validate_tightened`), and whether it matters that claim sets are judged as if
they had been signed when the token was encrypted (`provenance_uniform_iff`).

Neither has the answer one would like. A formula with a negation in it is not monotone, so a
stricter validator may admit what a laxer one does not; the sums of tolerances are checked for
overflow, so a larger tolerance may refuse. `CarriesOver` collects what has to be excluded,
claim set by claim set and by the parity of negations above it, and the examples after the
theorem are what it excludes.
-/

set_option autoImplicit false

namespace Cat

theorem Except.isOk_bind {ε α β : Type} (x : Except ε α) (y : Except ε β) :
    (x >>= fun _ => y).isOk = (x.isOk && y.isOk) := by
  cases x with
  | error e => rfl
  | ok a => rfl

theorem Except.isOk_iff {ε : Type} {x : Except ε Unit} : x.isOk = true ↔ x = .ok () := by
  cases x with
  | error e => simp [Except.isOk, Except.toBool]
  | ok a => simp [Except.isOk, Except.toBool]

namespace CatTokenValidator

variable (v : CatTokenValidator) (now : Int64)

/-- A claim set as the validator counts it before its composites: its own claims, as those of
    a signed token, and the nesting below it. -/
def accepts (t : CatToken) : Bool :=
  (v.validateClaims now .signed t).isOk && !t.composite.exceedsDepthLimit maxNestingDepth

/-- A token without composites passes the composite check, and so does its empty formula. -/
theorem checkComposites_isOk (orC norC andC : Option CompositeClaim) :
    (checkComposites ⟨orC, norC, andC⟩ (judge? v now orC) (judge? v now norC)
        (judge? v now andC)).isOk =
      (!(CompositeClaims.mk orC norC andC).exceedsDepthLimit maxNestingDepth &&
        (judge? v now orC && judge? v now norC && judge? v now andC)) := by
  unfold checkComposites
  by_cases hhas : (CompositeClaims.mk orC norC andC).hasComposites
  · rw [if_pos hhas]
    split
    · rename_i hexceeds
      rw [hexceeds]
      rfl
    · rename_i hexceeds
      rw [Bool.eq_false_iff.mpr hexceeds, CompositeClaims.check]
      cases judge? v now orC <;> cases judge? v now norC <;> cases judge? v now andC <;> rfl
  · rw [if_neg hhas]
    simp only [CompositeClaims.hasComposites, Bool.or_eq_true, not_or, Bool.not_eq_true,
      Option.isSome_eq_false_iff, Option.isNone_iff_eq_none] at hhas
    obtain ⟨⟨rfl, rfl⟩, rfl⟩ := hhas
    rfl

theorem exceedsDepthLimit_eq_false {orC norC andC : Option CompositeClaim} {limit : Nat}
    (h : (CompositeClaims.mk orC norC andC).exceedsDepthLimit limit = false) :
    (∀ c ∈ orC, c.checkDepthLimit limit 0 = false) ∧
      (∀ c ∈ norC, c.checkDepthLimit limit 0 = false) ∧
      ∀ c ∈ andC, c.checkDepthLimit limit 0 = false := by
  simp only [CompositeClaims.exceedsDepthLimit, Bool.or_eq_false_iff] at h
  obtain ⟨⟨hor, hnor⟩, hand⟩ := h
  refine ⟨?_, ?_, ?_⟩
  · rintro c rfl
    exact hor
  · rintro c rfl
    exact hnor
  · rintro c rfl
    exact hand

mutual
/-- **A verdict is a formula**: a token passes when its own claims do, its nesting is within the
    limit, and its composites hold of claim sets counted by their own claims. The provenance
    is seen at the top only. -/
theorem validateWithProvenance_isOk : ∀ (t : CatToken) (p : TokenProvenance),
    (v.validateWithProvenance now p t).isOk =
      ((v.validateClaims now p t).isOk && (!t.composite.exceedsDepthLimit maxNestingDepth &&
        t.composite.holds (v.accepts now)))
  | ⟨core, cat, informational, dpop, request, ⟨orC, norC, andC⟩, moqt, custom⟩, p => by
    rw [validateWithProvenance, Except.isOk_bind, checkComposites_isOk]
    congr 1
    -- past the depth check the evaluator's own limit is out of reach
    cases hexceeds : (CompositeClaims.mk orC norC andC).exceedsDepthLimit maxNestingDepth with
    | true => rfl
    | false =>
      obtain ⟨hor, hnor, hand⟩ := exceedsDepthLimit_eq_false hexceeds
      rw [judge?_eq_holds orC hor, judge?_eq_holds norC hnor, judge?_eq_holds andC hand]
      rfl
theorem judge?_eq_holds : ∀ c : Option CompositeClaim,
    (∀ c' ∈ c, c'.checkDepthLimit maxNestingDepth 0 = false) →
      judge? v now c = holds? (v.accepts now) c
  | none, _ => rfl
  | some c, h => judge_eq_holds c 0 (h c rfl)
theorem judge_eq_holds : ∀ (c : CompositeClaim) (depth : Nat),
    c.checkDepthLimit maxNestingDepth depth = false → judge v now depth c = c.holds (v.accepts now)
  | ⟨op, claims⟩, depth, h => by
    obtain ⟨hdepth, hclaims⟩ := CompositeClaim.below_limit h
    have hshallow : ¬depth > maxEvaluateDepth := Nat.not_lt.mpr (Nat.le_of_lt hdepth)
    rw [judge, if_neg hshallow]
    obtain ⟨hany, hall⟩ := judgeAll_eq_holds claims depth hclaims
    rw [hany, hall]
    cases op with
    | or => rfl
    | nor => rfl
    | and => rfl
theorem judgeClaimSet_eq_holds : ∀ (cs : ClaimSet) (depth : Nat),
    cs.checkDepthLimit maxNestingDepth depth = false →
      judgeClaimSet v now depth cs = cs.holds (v.accepts now)
  | .token t, _, _ => by
    rw [judgeClaimSet, validateWithProvenance_isOk t, ClaimSet.holds, t.holds_eq, accepts,
      Bool.and_assoc]
  | .composite c, depth, h => judge_eq_holds c (depth + 1) h
theorem judgeAll_eq_holds : ∀ (css : List ClaimSet) (depth : Nat),
    anyExceeds maxNestingDepth depth css = false →
      judgeAny v now depth css = anyHolds (v.accepts now) css ∧
        judgeAll v now depth css = allHold (v.accepts now) css
  | [], _, _ => ⟨rfl, rfl⟩
  | cs :: css, depth, h => by
    rw [anyExceeds, Bool.or_eq_false_iff] at h
    obtain ⟨hany, hall⟩ := judgeAll_eq_holds css depth h.2
    have hcs := judgeClaimSet_eq_holds cs depth h.1
    constructor
    · rw [judgeAny, anyHolds, hcs, hany]
    · rw [judgeAll, allHold, hcs, hall]
end

/-- The verdict on a signed token counts the token as a claim set. -/
theorem validate_isOk (t : CatToken) : (v.validate now t).isOk = t.holds (v.accepts now) := by
  rw [validate, validateWithProvenance_isOk, t.holds_eq, accepts, Bool.and_assoc]

/-! ## Stricter validators -/

/-- Wherever `B` pins issuers or audiences `A` pins some of the same, `A` tolerates no more
    clock skew, and does not exempt privacy claims unless `B` does. -/
structure AtLeastAsStrict (A B : CatTokenValidator) : Prop where
  issuers : ∀ b ∈ B.expectedIssuers, ∃ a ∈ A.expectedIssuers, a ⊆ b
  audiences : ∀ b ∈ B.expectedAudiences, ∃ a ∈ A.expectedAudiences, a ⊆ b
  exp : A.expTolerance ≤ B.expTolerance
  nbf : A.nbfTolerance ≤ B.nbfTolerance
  privacy : A.dangerouslyAllowUnencryptedPrivacyClaims = true →
    B.dangerouslyAllowUnencryptedPrivacyClaims = true

/-- The tolerances can be applied to the token's times without leaving the `i64` range. -/
def Reaches (v : CatTokenValidator) (t : CatToken) : Prop :=
  (∀ exp ∈ t.core.exp, (exp.checkedAdd v.expTolerance).isSome = true) ∧
    ∀ nbf ∈ t.core.nbf, (nbf.checkedSub v.nbfTolerance).isSome = true

section
variable {A B : CatTokenValidator} {now : Int64} {p : TokenProvenance} {t : CatToken}

theorem validateClaims_eq_ok : A.validateClaims now p t = .ok () ↔
    A.validateExp now t = .ok () ∧ A.validateNbf now t = .ok () ∧ A.validateIssuer t = .ok () ∧
      A.validateAudience t = .ok () ∧ validateCatv t = .ok () ∧
      A.validatePrivacyClaims p t = .ok () ∧ validateGeographicRestrictions t = .ok () ∧
      validateRegexEre t = .ok () := by
  simp only [← Except.isOk_iff, validateClaims, Except.isOk_bind, Bool.and_eq_true]

theorem AtLeastAsStrict.validateExp (h : A.AtLeastAsStrict B) (hB : B.Reaches t)
    (hA : A.validateExp now t = .ok ()) : B.validateExp now t = .ok () := by
  unfold CatTokenValidator.validateExp at hA ⊢
  cases hexp : t.core.exp with
  | none => rfl
  | some exp =>
    rw [hexp] at hA
    obtain ⟨later, hlater⟩ := Option.isSome_iff_exists.mp (hB.1 exp hexp)
    dsimp only at hA ⊢
    rw [hlater]
    split at hA
    · exact absurd hA (by simp)
    · rename_i sooner hsooner
      have hA' : ¬now > sooner := Except.check_eq_ok.mp hA |>.1
      apply if_neg
      intro hpast
      apply hA'
      have htolerance := Int64.le_iff_toInt_le.mp h.exp
      rw [Int64.checkedAdd, Int64.ofInt?_eq_some] at hsooner hlater
      rw [gt_iff_lt, Int64.lt_iff_toInt_lt] at hpast ⊢
      omega

theorem AtLeastAsStrict.validateNbf (h : A.AtLeastAsStrict B) (hB : B.Reaches t)
    (hA : A.validateNbf now t = .ok ()) : B.validateNbf now t = .ok () := by
  unfold CatTokenValidator.validateNbf at hA ⊢
  cases hnbf : t.core.nbf with
  | none => rfl
  | some nbf =>
    rw [hnbf] at hA
    obtain ⟨sooner, hsooner⟩ := Option.isSome_iff_exists.mp (hB.2 nbf hnbf)
    dsimp only at hA ⊢
    rw [hsooner]
    split at hA
    · exact absurd hA (by simp)
    · rename_i later hlater
      have hA' : ¬now < later := Except.check_eq_ok.mp hA |>.1
      apply if_neg
      intro hearly
      apply hA'
      have htolerance := Int64.le_iff_toInt_le.mp h.nbf
      rw [Int64.checkedSub_eq_some] at hsooner hlater
      rw [Int64.lt_iff_toInt_lt] at hearly ⊢
      omega

theorem AtLeastAsStrict.validateIssuer (h : A.AtLeastAsStrict B)
    (hA : A.validateIssuer t = .ok ()) : B.validateIssuer t = .ok () := by
  unfold CatTokenValidator.validateIssuer at hA ⊢
  cases hB : B.expectedIssuers with
  | none => rfl
  | some b =>
    obtain ⟨a, ha, hsub⟩ := h.issuers b hB
    rw [Option.mem_def.mp ha] at hA
    cases hiss : t.core.iss with
    | none => simp [hiss] at hA
    | some iss =>
      rw [hiss] at hA
      dsimp only at hA ⊢
      split at hA
      · exact absurd hA (by simp)
      · rename_i hlisted
        apply if_neg
        intro hunlisted
        apply hlisted
        rw [Bool.or_eq_true] at hunlisted ⊢
        refine hunlisted.imp_right ?_
        intro hb
        rw [Bool.not_eq_true', List.contains_eq_mem, decide_eq_false_iff_not] at hb ⊢
        intro hmem
        exact hb (hsub hmem)

theorem AtLeastAsStrict.validateAudience (h : A.AtLeastAsStrict B)
    (hA : A.validateAudience t = .ok ()) : B.validateAudience t = .ok () := by
  unfold CatTokenValidator.validateAudience at hA ⊢
  cases hB : B.expectedAudiences with
  | none => rfl
  | some b =>
    obtain ⟨a, ha, hsub⟩ := h.audiences b hB
    rw [Option.mem_def.mp ha] at hA
    cases haud : t.core.aud with
    | none => simp [haud] at hA
    | some aud =>
      rw [haud] at hA
      dsimp only at hA ⊢
      split at hA
      · rename_i hany
        apply if_pos
        rw [List.any_eq_true] at hany ⊢
        obtain ⟨x, hx, hlisted⟩ := hany
        rw [Bool.and_eq_true, List.contains_iff_mem] at hlisted
        refine ⟨x, hx, ?_⟩
        rw [Bool.and_eq_true, List.contains_iff_mem]
        exact ⟨hlisted.1, hsub hlisted.2⟩
      · exact absurd hA (by simp)

theorem AtLeastAsStrict.validatePrivacyClaims (h : A.AtLeastAsStrict B)
    (hA : A.validatePrivacyClaims p t = .ok ()) : B.validatePrivacyClaims p t = .ok () := by
  unfold CatTokenValidator.validatePrivacyClaims at hA ⊢
  split
  · rfl
  · rename_i hB
    rw [if_neg] at hA
    · exact hA
    · intro hexempt
      apply hB
      rw [Bool.or_eq_true] at hexempt ⊢
      exact hexempt.imp_left h.privacy

/-- Check by check, a claim set that a validator accepts is accepted by a laxer one. -/
theorem AtLeastAsStrict.validateClaims (h : A.AtLeastAsStrict B) (hB : B.Reaches t)
    (hA : A.validateClaims now p t = .ok ()) : B.validateClaims now p t = .ok () := by
  rw [validateClaims_eq_ok] at hA ⊢
  obtain ⟨hexp, hnbf, hiss, haud, hcatv, hprivacy, hgeo, hregex⟩ := hA
  exact ⟨h.validateExp hB hexp, h.validateNbf hB hnbf, h.validateIssuer hiss,
    h.validateAudience haud, hcatv, h.validatePrivacyClaims hprivacy, hgeo, hregex⟩

/-- What carries a verdict over, claim set by claim set. Where a claim set helps by holding,
    `B` must be able to apply its tolerances; where it helps by failing, `A` must not refuse
    what `B` accepts. -/
def CarriesOver (A B : CatTokenValidator) (now : Int64) : Bool → CatToken → Prop
  | true, t => A.validateClaims now .signed t = .ok () → B.Reaches t
  | false, t => B.validateClaims now .signed t = .ok () → A.validateClaims now .signed t = .ok ()

/-- **Tightening a validator admits no more**, of tokens that carry over.

A `nor` asks its claim sets to fail, so that under it a stricter validator makes acceptance easier;
hence the parity. And a tolerance is added with a check for overflow that refuses the token, so a
validator with more tolerance can refuse what one with less admits. Both are meant that way. -/
theorem validate_tightened (hstrict : A.AtLeastAsStrict B)
    (hsets : t.ByParity (CarriesOver A B now) true) (h : A.validate now t = .ok ()) :
    B.validate now t = .ok () := by
  rw [← Except.isOk_iff, validate_isOk] at h ⊢
  refine CatToken.holds_follows t true (hsets.imp ?_ t true) h
  intro even t' hcarries
  apply Follows.and _ (Follows.refl even _)
  cases even with
  | true =>
    intro hA
    rw [Except.isOk_iff] at hA ⊢
    exact hstrict.validateClaims (hcarries hA) hA
  | false =>
    intro hB
    rw [Except.isOk_iff] at hB ⊢
    exact hcarries hB

end

/-- A token of issuer `a` that must not meet a claim set. -/
def unlessToken (core : CoreClaims) : CatToken :=
  { CatToken.new with
    core := { iss := some "a" }
    composite := ⟨none, some ⟨.nor, [.token { CatToken.new with core }]⟩, none⟩ }

/-- A token that expires at the end of the `i64` range. -/
def lastingToken : CatToken := { CatToken.new with core := { exp := some .maxValue } }

def anHour : CatTokenValidator := { dangerouslyAnyIssuer with expTolerance := 3600, exp_ok := by decide }

theorem forExpectedIssuers_atLeastAsStrict (issuers : List String) :
    (forExpectedIssuers issuers).AtLeastAsStrict dangerouslyAnyIssuer where
  issuers := by simp [dangerouslyAnyIssuer]
  audiences := by simp [dangerouslyAnyIssuer]
  exp := Int64.le_refl _
  nbf := Int64.le_refl _
  privacy := id

/-- An expired claim set fails for either validator. -/
theorem validate_tightened_expired :
    (forExpectedIssuers ["a"]).AtLeastAsStrict dangerouslyAnyIssuer ∧
      dangerouslyAnyIssuer.validate 1000 (unlessToken { exp := some 0 }) = .ok () := by
  have hstrict := forExpectedIssuers_atLeastAsStrict ["a"]
  refine ⟨hstrict, validate_tightened hstrict ?_ (by decide +kernel)⟩
  refine ⟨fun _ => ⟨?_, ?_⟩, trivial, ⟨⟨?_, trivial, trivial, trivial⟩, trivial⟩, trivial⟩
  · rintro exp ⟨⟩
  · rintro nbf ⟨⟩
  · intro hexpired
    exact absurd hexpired (by decide +kernel)

/-- A validator that trusts one issuer refuses the claim set under the `nor`, which names none,
    and admits the token; one that trusts every issuer does not. And a tolerance may carry an
    expiry out of range. -/
theorem tightened_admits_more :
    ((forExpectedIssuers ["a"]).AtLeastAsStrict dangerouslyAnyIssuer ∧
      (forExpectedIssuers ["a"]).validate 0 (unlessToken {}) = .ok () ∧
      dangerouslyAnyIssuer.validate 0 (unlessToken {}) ≠ .ok ()) ∧
    dangerouslyAnyIssuer.AtLeastAsStrict anHour ∧
      dangerouslyAnyIssuer.validate 0 lastingToken = .ok () ∧
      anHour.validate 0 lastingToken ≠ .ok () := by
  refine ⟨⟨forExpectedIssuers_atLeastAsStrict ["a"], ?_, ?_⟩, ⟨?_, ?_, ?_, ?_, id⟩, ?_, ?_⟩
  · decide +kernel
  · decide +kernel
  · simp [anHour, dangerouslyAnyIssuer]
  · simp [anHour, dangerouslyAnyIssuer]
  · decide
  · decide
  · decide +kernel
  · decide +kernel

end CatTokenValidator

/-! ## Provenance in the composites -/

/-- Whether the token has a claim that must arrive encrypted. -/
def CatToken.carriesPrivacyClaims (t : CatToken) : Bool :=
  t.informational.sub.isSome || t.cat.catgeocoord.isSome || t.cat.geohash.isSome ||
    t.cat.catgeoalt.isSome

namespace CatTokenValidator

variable (v : CatTokenValidator) (now : Int64) (t : CatToken)

theorem validatePrivacyClaims_isOk (p : TokenProvenance) :
    (v.validatePrivacyClaims p t).isOk =
      (v.dangerouslyAllowUnencryptedPrivacyClaims || p == .encrypted ||
        !t.carriesPrivacyClaims) := by
  unfold validatePrivacyClaims CatToken.carriesPrivacyClaims
  split
  · rename_i h
    rw [h]
    rfl
  · rename_i h
    rw [Bool.eq_false_iff.mpr h, Bool.false_or]
    cases t.informational.sub <;> cases t.cat.catgeocoord <;> cases t.cat.geohash <;>
      cases t.cat.catgeoalt <;> rfl

/-- An encrypted token's own claims are judged as those of an exempt signed one. -/
theorem validateClaims_encrypted :
    v.validateClaims now .encrypted t =
      v.allowUnencryptedPrivacyClaims.validateClaims now .signed t := by
  have hprivacy : v.validatePrivacyClaims .encrypted t =
      v.allowUnencryptedPrivacyClaims.validatePrivacyClaims .signed t := by
    unfold validatePrivacyClaims
    rw [if_pos (by simp), if_pos (by rfl)]
  rw [validateClaims, validateClaims, hprivacy]
  rfl

/-- The exemption is all that the exempt validator adds to a claim set. -/
theorem accepts_eq : v.accepts now t = (v.allowUnencryptedPrivacyClaims.accepts now t &&
    (v.dangerouslyAllowUnencryptedPrivacyClaims || !t.carriesPrivacyClaims)) := by
  have hclaims (w : CatTokenValidator) : (w.validateClaims now .signed t).isOk =
      ((w.validateExp now t).isOk && ((w.validateNbf now t).isOk && ((w.validateIssuer t).isOk &&
        ((w.validateAudience t).isOk && ((validateCatv t).isOk &&
          ((w.dangerouslyAllowUnencryptedPrivacyClaims || !t.carriesPrivacyClaims) &&
            ((validateGeographicRestrictions t).isOk && (validateRegexEre t).isOk))))))) := by
    have hsigned : (TokenProvenance.signed == .encrypted) = false := rfl
    simp only [validateClaims, Except.isOk_bind, validatePrivacyClaims_isOk, hsigned,
      Bool.or_false]
  rw [accepts, accepts, hclaims v, hclaims]
  -- the exempt validator's other checks are `v`'s own
  show (_ && _ && _) = (((v.validateExp now t).isOk && ((v.validateNbf now t).isOk &&
    ((v.validateIssuer t).isOk && ((v.validateAudience t).isOk && (_ && (true && _)))))) && _ && _)
  ac_rfl

/-- **Provenance is uniform** exactly when it is no matter whether the nested claim sets with
    privacy claims count as refused or by their other claims.

    A token that came encrypted may carry privacy claims. The claim sets nested in it are judged as
    if they had come in the clear, so there the same claims count as refused. Whether this shows
    depends on what the composites make of it, and under a `nor` it can make a token pass. -/
theorem provenance_uniform_iff :
    (v.validateWithProvenance now .encrypted t).isOk =
        (v.allowUnencryptedPrivacyClaims.validate now t).isOk ↔
      (v.validateClaims now .encrypted t).isOk = false ∨
      t.composite.exceedsDepthLimit maxNestingDepth = true ∨
      (t.composite.holds fun s => v.allowUnencryptedPrivacyClaims.accepts now s &&
          (v.dangerouslyAllowUnencryptedPrivacyClaims || !s.carriesPrivacyClaims)) =
        t.composite.holds (v.allowUnencryptedPrivacyClaims.accepts now) := by
  rw [← funext (v.accepts_eq now), validateWithProvenance_isOk, validate,
    validateWithProvenance_isOk, ← validateClaims_encrypted]
  cases (v.validateClaims now .encrypted t).isOk with
  | false => simp
  | true =>
    cases t.composite.exceedsDepthLimit maxNestingDepth with
    | true => simp
    | false => simp

/-- A token with one nested claim set, which names a subject. -/
def subjectToken (op : CompositeOperator) : CatToken :=
  let c : CompositeClaim := ⟨op, [.token { CatToken.new with informational := { sub := some "s" } }]⟩
  { CatToken.new with
    composite := match op with
      | .or => ⟨some c, none, none⟩
      | .nor => ⟨none, some c, none⟩
      | .and => ⟨none, none, some c⟩ }

/-- An encrypted token is refused for a nested subject under `and`, and admitted for it under
    `nor`; with the exemption it is the other way round. -/
theorem provenance_not_uniform :
    (dangerouslyAnyIssuer.validateWithProvenance 0 .encrypted (subjectToken .and)).isOk = false ∧
      (dangerouslyAnyIssuer.allowUnencryptedPrivacyClaims.validate 0 (subjectToken .and)).isOk =
        true ∧
      (dangerouslyAnyIssuer.validateWithProvenance 0 .encrypted (subjectToken .nor)).isOk = true ∧
      (dangerouslyAnyIssuer.allowUnencryptedPrivacyClaims.validate 0 (subjectToken .nor)).isOk =
        false := by
  decide +kernel

end CatTokenValidator
end Cat
