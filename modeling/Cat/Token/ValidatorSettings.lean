import Cat.Token.TimeWindow

/-!
# Setting up a validator

A `CatTokenValidator` is made like a relay's: by `dangerously_any_issuer` or
`for_expected_issuers`, and then by any chain of calls that each replace a setting and may refuse
the value they are given. `for_expected_issuers` is the first of these calls made on
`dangerously_any_issuer` (`forExpectedIssuers_eq`), so one starting point is enough.

Whether a token is valid depends on the chain only through the values set last
(`validates_iff`). The lists are sets of names without the empty one, so a list of blanks, as a
configuration file may have it, admits nobody; and no chain ends with a tolerance that is negative
or longer than an hour, because a call with such a value fails.

What no call touches is kept apart, as `CatToken.FormsValid` and the composites: the form of the
claim values is the same question for every validator, and a composite puts the questions here to
its claim sets, with the same validator.
-/

set_option autoImplicit false

namespace Cat

/-- A call of the builder. -/
inductive ValidatorSetting where
  | withExpectedIssuers (issuers : List String)
  | withExpectedAudiences (audiences : List String)
  | withClockSkewTolerance (toleranceSeconds : Int64)
  | withSeparateTolerances (expTolerance nbfTolerance : Int64)
  | allowUnencryptedPrivacyClaims

namespace ValidatorSetting

def apply (v : CatTokenValidator) : ValidatorSetting → Except CatError CatTokenValidator
  | withExpectedIssuers issuers => .ok (v.withExpectedIssuers issuers)
  | withExpectedAudiences audiences => .ok (v.withExpectedAudiences audiences)
  | withClockSkewTolerance seconds => v.withClockSkewTolerance seconds
  | withSeparateTolerances exp nbf => v.withSeparateTolerances exp nbf
  | allowUnencryptedPrivacyClaims => .ok v.allowUnencryptedPrivacyClaims

def build (settings : List ValidatorSetting) : Except CatError CatTokenValidator :=
  settings.foldlM apply .dangerouslyAnyIssuer

def issuers? : ValidatorSetting → Option (List String)
  | withExpectedIssuers issuers => some (issuers.filter fun s => !s.isEmpty)
  | _ => none

def audiences? : ValidatorSetting → Option (List String)
  | withExpectedAudiences audiences => some (audiences.filter fun s => !s.isEmpty)
  | _ => none

def expTolerance? : ValidatorSetting → Option Int64
  | withClockSkewTolerance seconds => some seconds
  | withSeparateTolerances exp _ => some exp
  | _ => none

def nbfTolerance? : ValidatorSetting → Option Int64
  | withClockSkewTolerance seconds => some seconds
  | withSeparateTolerances _ nbf => some nbf
  | _ => none

theorem forExpectedIssuers_eq (issuers : List String) :
    CatTokenValidator.forExpectedIssuers issuers =
      CatTokenValidator.dangerouslyAnyIssuer.withExpectedIssuers issuers := rfl

/-- What a chain has made of each field. -/
structure Makes (settings : List ValidatorSetting) (v : CatTokenValidator) : Prop where
  expectedIssuers : v.expectedIssuers = settings.lastSome issuers?
  expectedAudiences : v.expectedAudiences = settings.lastSome audiences?
  expTolerance : v.expTolerance = (settings.lastSome expTolerance?).getD 0
  nbfTolerance : v.nbfTolerance = (settings.lastSome nbfTolerance?).getD 0
  privacy : v.dangerouslyAllowUnencryptedPrivacyClaims = true ↔
    ValidatorSetting.allowUnencryptedPrivacyClaims ∈ settings

variable {settings : List ValidatorSetting} {s : ValidatorSetting} {v v' : CatTokenValidator}

theorem withClockSkewTolerance_ok {seconds : Int64}
    (h : v.withClockSkewTolerance seconds = .ok v') :
    v'.expectedIssuers = v.expectedIssuers ∧ v'.expectedAudiences = v.expectedAudiences ∧
      v'.expTolerance = seconds ∧ v'.nbfTolerance = seconds ∧
      v'.dangerouslyAllowUnencryptedPrivacyClaims =
        v.dangerouslyAllowUnencryptedPrivacyClaims := by
  unfold CatTokenValidator.withClockSkewTolerance at h
  split at h
  · cases h
  · obtain rfl := Except.ok.inj h
    exact ⟨rfl, rfl, rfl, rfl, rfl⟩

theorem withSeparateTolerances_ok {exp nbf : Int64}
    (h : v.withSeparateTolerances exp nbf = .ok v') :
    v'.expectedIssuers = v.expectedIssuers ∧ v'.expectedAudiences = v.expectedAudiences ∧
      v'.expTolerance = exp ∧ v'.nbfTolerance = nbf ∧
      v'.dangerouslyAllowUnencryptedPrivacyClaims =
        v.dangerouslyAllowUnencryptedPrivacyClaims := by
  unfold CatTokenValidator.withSeparateTolerances at h
  split at h
  · cases h
  · split at h
    · cases h
    · obtain rfl := Except.ok.inj h
      exact ⟨rfl, rfl, rfl, rfl, rfl⟩

theorem Makes.start : Makes [] .dangerouslyAnyIssuer := by
  constructor <;> simp [List.lastSome, CatTokenValidator.dangerouslyAnyIssuer]

/-- One call more: it replaces its own settings and leaves the others. -/
theorem Makes.apply (h : Makes settings v) (hv' : s.apply v = .ok v') :
    Makes (settings ++ [s]) v' := by
  obtain ⟨hissuers, haudiences, hexp, hnbf, hprivacy⟩ := h
  cases s with
  | withExpectedIssuers | withExpectedAudiences | allowUnencryptedPrivacyClaims =>
    obtain rfl := Except.ok.inj hv'
    constructor <;> simp [List.lastSome_concat, issuers?, audiences?, expTolerance?,
      nbfTolerance?, CatTokenValidator.withExpectedIssuers, hissuers,
      CatTokenValidator.withExpectedAudiences, haudiences,
      CatTokenValidator.allowUnencryptedPrivacyClaims, hprivacy, hexp, hnbf]
  | withClockSkewTolerance seconds =>
    obtain ⟨hissuers', haudiences', hexp', hnbf', hprivacy'⟩ := withClockSkewTolerance_ok hv'
    constructor <;> simp [List.lastSome_concat, issuers?, audiences?, expTolerance?,
      nbfTolerance?, hissuers', hissuers, haudiences', haudiences, hexp', hnbf', hprivacy',
      hprivacy]
  | withSeparateTolerances exp nbf =>
    obtain ⟨hissuers', haudiences', hexp', hnbf', hprivacy'⟩ := withSeparateTolerances_ok hv'
    constructor <;> simp [List.lastSome_concat, issuers?, audiences?, expTolerance?,
      nbfTolerance?, hissuers', hissuers, haudiences', haudiences, hexp', hnbf', hprivacy',
      hprivacy]

theorem makes_of_build (h : build settings = .ok v) : Makes settings v :=
  Except.foldlM_invariant h Makes.start fun _ _ _ _ => Makes.apply

end ValidatorSetting

/-! ## What is asked of a token

Two parts: what depends on the settings, in terms of the values set last, and what is asked of
every token.
-/

/-- The version, the places, the networks and the expressions are well formed. -/
structure CatToken.FormsValid (t : CatToken) : Prop where
  catv : CatTokenValidator.validateCatv t = .ok ()
  places : CatTokenValidator.validateGeographicRestrictions t = .ok ()
  expressions : CatTokenValidator.validateRegexEre t = .ok ()

open ValidatorSetting in
/-- What a chain of settings asks of a token. -/
structure SettingsAdmit (settings : List ValidatorSetting) (now : Int64) (p : TokenProvenance)
    (t : CatToken) : Prop where
  exp : ∀ exp ∈ t.core.exp,
    FitsI64 (exp.toInt + ((settings.lastSome expTolerance?).getD 0).toInt) ∧
      now.toInt ≤ exp.toInt + ((settings.lastSome expTolerance?).getD 0).toInt
  nbf : ∀ nbf ∈ t.core.nbf,
    FitsI64 (nbf.toInt - ((settings.lastSome nbfTolerance?).getD 0).toInt) ∧
      nbf.toInt - ((settings.lastSome nbfTolerance?).getD 0).toInt ≤ now.toInt
  issuer : ∀ issuers ∈ settings.lastSome issuers?, ∃ iss ∈ t.core.iss, iss ∈ issuers
  audience : ∀ audiences ∈ settings.lastSome audiences?,
    ∃ aud ∈ t.core.aud, ∃ a ∈ aud, a ∈ audiences
  privacy : allowUnencryptedPrivacyClaims ∈ settings ∨ p = .encrypted ∨
    t.carriesPrivacyClaims = false

theorem CatToken.withTimes_self (t : CatToken) : t.withTimes t.core.exp t.core.nbf = t := by
  cases t
  rfl

namespace CatTokenValidator

variable {v : CatTokenValidator} {now : Int64} {p : TokenProvenance} {t : CatToken}
  {settings : List ValidatorSetting}

theorem validateExp_eq_ok : v.validateExp now t = .ok () ↔ ∀ exp ∈ t.core.exp,
    FitsI64 (exp.toInt + v.expTolerance.toInt) ∧ now.toInt ≤ exp.toInt + v.expTolerance.toInt := by
  cases hexp : t.core.exp with
  | none => simp [validateExp, hexp]
  | some exp =>
    have htimes : t = t.withTimes (some exp) t.core.nbf := by
      rw [← hexp, t.withTimes_self]
    rw [htimes, validateExp_withTimes]
    simp

theorem validateNbf_eq_ok : v.validateNbf now t = .ok () ↔ ∀ nbf ∈ t.core.nbf,
    FitsI64 (nbf.toInt - v.nbfTolerance.toInt) ∧ nbf.toInt - v.nbfTolerance.toInt ≤ now.toInt := by
  cases hnbf : t.core.nbf with
  | none => simp [validateNbf, hnbf]
  | some nbf =>
    have htimes : t = t.withTimes t.core.exp (some nbf) := by
      rw [← hnbf, t.withTimes_self]
    rw [htimes, validateNbf_withTimes]
    simp

/-- The empty name is in no list, so it need not be looked for. -/
theorem validateIssuer_eq_ok : v.validateIssuer t = .ok () ↔
    ∀ issuers ∈ v.expectedIssuers, ∃ iss ∈ t.core.iss, iss ∈ issuers := by
  unfold validateIssuer
  cases hissuers : v.expectedIssuers with
  | none => simp
  | some issuers =>
    have hempty := v.issuers_ne issuers hissuers
    cases t.core.iss with
    | none => simp
    | some iss =>
      by_cases hmem : iss ∈ issuers
      · have hne : iss ≠ "" := fun h => hempty (h ▸ hmem)
        simp [hmem, hne]
      · simp [hmem]

theorem validateAudience_eq_ok : v.validateAudience t = .ok () ↔
    ∀ audiences ∈ v.expectedAudiences, ∃ aud ∈ t.core.aud, ∃ a ∈ aud, a ∈ audiences := by
  unfold validateAudience
  cases haudiences : v.expectedAudiences with
  | none => simp
  | some audiences =>
    have hempty := v.audiences_ne audiences haudiences
    cases t.core.aud with
    | none => simp
    | some aud =>
      have hiff : (aud.any fun a => !a.isEmpty && audiences.contains a) = true ↔
          ∃ a ∈ aud, a ∈ audiences := by
        rw [List.any_eq_true]
        refine exists_congr fun a => and_congr_right fun _ => ?_
        rw [Bool.and_eq_true, List.contains_iff_mem]
        refine and_iff_right_of_imp fun hmem => ?_
        have hne : a ≠ "" := fun h => hempty (h ▸ hmem)
        simp [hne]
      dsimp only
      by_cases hany : (aud.any fun a => !a.isEmpty && audiences.contains a) = true
      · rw [if_pos hany]
        simpa using hiff.mp hany
      · rw [if_neg hany]
        simpa using fun a ha hmem => hany (hiff.mpr ⟨a, ha, hmem⟩)

/-- **What a chain of settings makes of a validator**: it passes just the tokens that the values
set last admit, whose claims have the form that any validator asks for, and whose composites it
passes in turn. -/
theorem validates_iff (hbuild : ValidatorSetting.build settings = .ok v) :
    v.validateWithProvenance now p t = .ok () ↔ SettingsAdmit settings now p t ∧ t.FormsValid ∧
      v.validateCompositeClaims now t = .ok () := by
  have hmakes := ValidatorSetting.makes_of_build hbuild
  have hprivacy : v.validatePrivacyClaims p t = .ok () ↔
      ValidatorSetting.allowUnencryptedPrivacyClaims ∈ settings ∨ p = .encrypted ∨
        t.carriesPrivacyClaims = false := by
    rw [← Except.isOk_iff, validatePrivacyClaims_isOk, Bool.or_eq_true, Bool.or_eq_true,
      hmakes.privacy, or_assoc, beq_iff_eq, Bool.not_eq_true']
  rw [validateWithProvenance_eq, Except.bind_eq_ok]
  constructor
  · rintro ⟨_, hclaims, hcomposites⟩
    obtain ⟨hexp, hnbf, hissuer, haudience, hcatv, hprivate, hplaces, hexpressions⟩ :=
      validateClaims_eq_ok.mp hclaims
    rw [validateExp_eq_ok, hmakes.expTolerance] at hexp
    rw [validateNbf_eq_ok, hmakes.nbfTolerance] at hnbf
    rw [validateIssuer_eq_ok, hmakes.expectedIssuers] at hissuer
    rw [validateAudience_eq_ok, hmakes.expectedAudiences] at haudience
    exact ⟨⟨hexp, hnbf, hissuer, haudience, hprivacy.mp hprivate⟩, ⟨hcatv, hplaces, hexpressions⟩,
      hcomposites⟩
  · rintro ⟨hadm, hforms, hcomposites⟩
    refine ⟨(), validateClaims_eq_ok.mpr ⟨?_, ?_, ?_, ?_, hforms.catv, hprivacy.mpr hadm.privacy,
      hforms.places, hforms.expressions⟩, hcomposites⟩
    · rw [validateExp_eq_ok, hmakes.expTolerance]
      exact hadm.exp
    · rw [validateNbf_eq_ok, hmakes.nbfTolerance]
      exact hadm.nbf
    · rw [validateIssuer_eq_ok, hmakes.expectedIssuers]
      exact hadm.issuer
    · rw [validateAudience_eq_ok, hmakes.expectedAudiences]
      exact hadm.audience

/-- No chain ends with a tolerance below zero or above an hour. -/
theorem tolerances_of_build (hbuild : ValidatorSetting.build settings = .ok v) :
    (0 ≤ (settings.lastSome ValidatorSetting.expTolerance?).getD 0 ∧
        (settings.lastSome ValidatorSetting.expTolerance?).getD 0 ≤ maxClockSkewToleranceSecs) ∧
      0 ≤ (settings.lastSome ValidatorSetting.nbfTolerance?).getD 0 ∧
        (settings.lastSome ValidatorSetting.nbfTolerance?).getD 0 ≤ maxClockSkewToleranceSecs := by
  have hmakes := ValidatorSetting.makes_of_build hbuild
  rw [← hmakes.expTolerance, ← hmakes.nbfTolerance]
  exact ⟨v.exp_ok, v.nbf_ok⟩

end CatTokenValidator

end Cat
