import Cat.Lib.CheckedInt
import Cat.Lib.Lists
import Cat.Lib.Outcome
import Cat.Pipeline

/-!
# Validating a token's claims

`CatTokenValidator` judges a token without a request: time window, issuer, audience, version,
privacy claims, the form of geographic and network claims and of regular expressions, and the
composites, whose claim sets it judges in turn as signed tokens. A token that passed is a
`ValidatedToken`.

The source's validator and composite evaluator call each other through a closure. Here both
recurse over the token at once (`validateWithProvenance`), and `validateWithProvenance_eq` says
that this is the source's call of `validate_all`. The clock is read once per call.

The evaluator is given a function for claim sets, and in the source that function is the
validator again. Lean has to see that a claim set is smaller than the token it came from, so the
composition of the two is one mutual recursion over tokens, composites and claim sets, with a
member for each loop. The evaluator by itself is here too, as the source has it, for any
function, and the equation says that with the validator for the function it is the recursion.
Everything further on can use whichever of the two is at hand.

`any` and `all` of Rust stop at the first member that decides, and so do their counterparts
here, which matters for what the depth limit gets to see.
-/

set_option autoImplicit false

namespace Cat

open Cbor

/-! ## The form of claim values

Checks of a token by itself, with the errors that name the claim and the element.
-/

/-- Two or three capitals, or a country of two with a subdivision of up to three. Lengths are in
    bytes. -/
def validateIso3166Code (code : String) : Except CatError Unit :=
  if code.isEmpty then .error (.invalidClaimValue "Empty ISO 3166 code")
  else
    match code.toList.splitOnce '-' with
    | some (country, subdivision) =>
      if (utf8 (String.ofList country)).length ≠ 2 || !country.all Char.isUpper ||
          subdivision.isEmpty || (utf8 (String.ofList subdivision)).length > 3 ||
          !subdivision.all Char.isAlphanum then
        .error (.invalidClaimValue s!"Invalid ISO 3166 subdivision code: {code}")
      else .ok ()
    | none =>
      if ((utf8 code).length = 2 || (utf8 code).length = 3) && code.toList.all Char.isUpper then
        .ok ()
      else .error (.invalidClaimValue s!"Invalid ISO 3166 code: {code}")

/-- What in a pattern is not POSIX ERE. The character after a backslash is skipped. -/
def validatePosixEre : List Char → Option String
  | '\\' :: next :: rest =>
    if ['d', 'D', 'w', 'W', 's', 'S', 'b', 'B'].contains next then
      some (String.ofList ['\\', next] ++ " is a Perl extension, not valid POSIX ERE")
    else validatePosixEre rest
  | c :: rest =>
    if (c == '*' || c == '+' || c == '?') && rest.head? == some '?' then
      some "Non-greedy quantifiers (*?, +?, ??) are Perl extensions, not valid POSIX ERE"
    else if c == '(' && rest.head? == some '?' then
      some "Lookahead/lookbehind (?...) groups are Perl extensions, not valid POSIX ERE"
    else validatePosixEre rest
  | [] => none

def maxReasonableAsnRange : UInt32 := 65536

/-- Of a prefix only the length is checked; bits behind it are left to the codec. -/
def NetworkIdentifier.validate (n : NetworkIdentifier) : Except CatError Unit :=
  match n with
  | .ipAddress _ => .ok ()
  | .ipPrefix addr prefixLen =>
    let maxPrefix := match addr with
      | .v4 _ => 32
      | .v6 _ => 128
    if prefixLen.toNat > maxPrefix then .error (.invalidClaimValue
      s!"Prefix length {prefixLen.toNat} exceeds max {maxPrefix}")
    else .ok ()
  | .asn _ => .ok ()
  | .asnRange start stop =>
    if start > stop then .error (.invalidClaimValue
      s!"Invalid ASN range: start ({start.toNat}) > end ({stop.toNat})")
    else if stop - start > maxReasonableAsnRange then .error (.invalidClaimValue
      s!"ASN range too broad: {(stop - start).toNat} ASNs (max {maxReasonableAsnRange.toNat})")
    else .ok ()

def minGeohashLength : Nat := 4
def maxGeohashLength : Nat := 12
def validGeohashChars : List Char := "0123456789bcdefghjkmnpqrstuvwxyz".toList

/-- The alphabet has the digits and the small letters but `a`, `i`, `l` and `o`. -/
def validateGeohash (geohash : String) : Except CatError Unit :=
  let len := (utf8 geohash).length
  if len < minGeohashLength || len > maxGeohashLength then
    .error (.geographicValidationFailed
      s!"Invalid geohash length: {len} (must be {minGeohashLength}-{maxGeohashLength} characters for meaningful precision)")
  else
    match geohash.toList.find? fun c => !validGeohashChars.contains c with
    | some c => .error (.geographicValidationFailed s!"Invalid geohash character: '{c}'")
    | none => .ok ()

/-- All comparisons are false of a coordinate that is no number, so it passes here. The codec
    refuses it. -/
def validateCoordinate (coord : GeoCoordinate) : Except CatError Unit :=
  if F64.lt (F64.ofInt 90) coord.lat.abs || F64.lt (F64.ofInt 180) coord.lon.abs then
    .error (.geographicValidationFailed "Invalid coordinates")
  else .ok ()

/-! ## Composite evaluation

The evaluator of the source with its depth limit, over any judgment of claim sets.
-/

/-- A verdict on a claim set. -/
abbrev Verdict := CatToken → Except CatError Unit

def maxEvaluateDepth : Nat := 10
def maxNestingDepth : Nat := 10

/-- How an operator combines whether some and whether every claim set is acceptable. -/
def CompositeOperator.combine (op : CompositeOperator) (any all : Bool) : Bool :=
  match op with
  | .or => any
  | .nor => !any
  | .and => all

mutual
/-- Beyond the limit the answer is `false`, whatever the operator. -/
def CompositeClaim.evaluateWithDepth (V : Verdict) (depth : Nat) : CompositeClaim → Bool
  | ⟨op, claims⟩ =>
    if depth > maxEvaluateDepth then false
    else op.combine (anyClaimSet V depth claims) (allClaimSets V depth claims)
def ClaimSet.evaluateWithDepth (V : Verdict) (depth : Nat) : ClaimSet → Bool
  | .token t => (V t).isOk
  | .composite c => c.evaluateWithDepth V (depth + 1)
/-- Like `any`, up to the first member that is true. What stands behind it is not evaluated. -/
def anyClaimSet (V : Verdict) (depth : Nat) : List ClaimSet → Bool
  | [] => false
  | cs :: css => cs.evaluateWithDepth V depth || anyClaimSet V depth css
/-- Like `all`, up to the first member that is false. -/
def allClaimSets (V : Verdict) (depth : Nat) : List ClaimSet → Bool
  | [] => true
  | cs :: css => cs.evaluateWithDepth V depth && allClaimSets V depth css
end

def CompositeClaim.evaluate (V : Verdict) (c : CompositeClaim) : Bool := c.evaluateWithDepth V 0

mutual
/-- Composites in composites are counted. A member that is a claim set ends the count, although it
    may have composites of its own. -/
def CompositeClaim.checkDepthLimit (limit current : Nat) : CompositeClaim → Bool
  | ⟨_, claims⟩ => if current ≥ limit then true else anyExceeds limit current claims
def ClaimSet.checkDepthLimit (limit current : Nat) : ClaimSet → Bool
  | .token _ => false
  | .composite c => c.checkDepthLimit limit (current + 1)
def anyExceeds (limit current : Nat) : List ClaimSet → Bool
  | [] => false
  | cs :: css => cs.checkDepthLimit limit current || anyExceeds limit current css
end

/-- What passes the check is below the limit, and so are its members. -/
theorem CompositeClaim.below_limit {op : CompositeOperator} {claims : List ClaimSet}
    {limit current : Nat}
    (h : (CompositeClaim.mk op claims).checkDepthLimit limit current = false) :
    current < limit ∧ anyExceeds limit current claims = false := by
  rw [CompositeClaim.checkDepthLimit] at h
  split at h
  · cases h
  · rename_i hlt
    exact ⟨Nat.lt_of_not_le hlt, h⟩

def CompositeClaim.exceedsDepthLimit (limit : Nat) (c : CompositeClaim) : Bool :=
  c.checkDepthLimit limit 0

namespace CompositeClaims

def hasComposites (c : CompositeClaims) : Bool :=
  c.orClaim.isSome || c.norClaim.isSome || c.andClaim.isSome

def exceedsDepthLimit (limit : Nat) (c : CompositeClaims) : Bool :=
  c.orClaim.any (·.exceedsDepthLimit limit) || c.norClaim.any (·.exceedsDepthLimit limit) ||
    c.andClaim.any (·.exceedsDepthLimit limit)

/-- The three composites, judged by their evaluations. -/
def check (orOk norOk andOk : Bool) : Except CatError Unit :=
  if !orOk then .error (.invalidClaimValue "OR composite claim validation failed")
  else if !norOk then .error (.invalidClaimValue "NOR composite claim validation failed")
  else if !andOk then .error (.invalidClaimValue "AND composite claim validation failed")
  else .ok ()

def validateAll (V : Verdict) (c : CompositeClaims) : Except CatError Unit :=
  check (c.orClaim.all (·.evaluate V)) (c.norClaim.all (·.evaluate V))
    (c.andClaim.all (·.evaluate V))

end CompositeClaims

/-! ## The validator

One recursion over tokens and what is in them. A claim set is judged like a signed token of its
own, whatever the token is that it stands in.
-/

def maxClockSkewToleranceSecs : Int64 := 3600

/-- The allow-lists are sets without the empty string. The tolerances have passed
    `check_tolerance`. -/
structure CatTokenValidator where
  expectedIssuers : Option (List String) := none
  expectedAudiences : Option (List String) := none
  expTolerance : Int64 := 0
  nbfTolerance : Int64 := 0
  dangerouslyAllowUnencryptedPrivacyClaims : Bool := false
  issuers_ne : ∀ l ∈ expectedIssuers, "" ∉ l := by simp
  audiences_ne : ∀ l ∈ expectedAudiences, "" ∉ l := by simp
  exp_ok : 0 ≤ expTolerance ∧ expTolerance ≤ maxClockSkewToleranceSecs := by decide
  nbf_ok : 0 ≤ nbfTolerance ∧ nbfTolerance ≤ maxClockSkewToleranceSecs := by decide

/-- Not negative, and at most an hour. -/
def checkTolerance (name : String) (seconds : Int64) : Except CatError Unit :=
  if seconds < 0 then .error (.invalidClaimValue s!"{name} must not be negative")
  else if seconds > maxClockSkewToleranceSecs then .error (.invalidClaimValue
    s!"{name} {seconds.toInt}s exceeds cap of {maxClockSkewToleranceSecs.toInt}s")
  else .ok ()

theorem checkTolerance_ok {name : String} {seconds : Int64}
    (h : checkTolerance name seconds = .ok ()) :
    0 ≤ seconds ∧ seconds ≤ maxClockSkewToleranceSecs := by
  unfold checkTolerance at h
  split at h
  · exact absurd h (by simp)
  · split at h
    · exact absurd h (by simp)
    · exact ⟨Int64.not_lt.mp ‹_›, Int64.not_lt.mp ‹_›⟩

namespace CatTokenValidator

/-- Empty names are dropped. A list of nothing else admits no issuer. -/
def forExpectedIssuers (issuers : List String) : CatTokenValidator where
  expectedIssuers := some (issuers.filter fun s => !s.isEmpty)
  issuers_ne := by simp

def dangerouslyAnyIssuer : CatTokenValidator := {}

def withExpectedIssuers (v : CatTokenValidator) (issuers : List String) : CatTokenValidator :=
  { v with expectedIssuers := some (issuers.filter fun s => !s.isEmpty), issuers_ne := by simp }

def withExpectedAudiences (v : CatTokenValidator) (audiences : List String) :
    CatTokenValidator :=
  { v with
    expectedAudiences := some (audiences.filter fun s => !s.isEmpty)
    audiences_ne := by simp }

/-- Both are set or, if one of them is refused, neither. -/
def withSeparateTolerances (v : CatTokenValidator) (expTolerance nbfTolerance : Int64) :
    Except CatError CatTokenValidator :=
  match he : checkTolerance "exp tolerance" expTolerance with
  | .error e => .error e
  | .ok () =>
    match hn : checkTolerance "nbf tolerance" nbfTolerance with
    | .error e => .error e
    | .ok () => .ok { v with
        expTolerance, nbfTolerance
        exp_ok := checkTolerance_ok he
        nbf_ok := checkTolerance_ok hn }

def withClockSkewTolerance (v : CatTokenValidator) (toleranceSeconds : Int64) :
    Except CatError CatTokenValidator :=
  match h : checkTolerance "clock skew tolerance" toleranceSeconds with
  | .error e => .error e
  | .ok () => .ok { v with
      expTolerance := toleranceSeconds, nbfTolerance := toleranceSeconds
      exp_ok := checkTolerance_ok h
      nbf_ok := checkTolerance_ok h }

def allowUnencryptedPrivacyClaims (v : CatTokenValidator) : CatTokenValidator :=
  { v with dangerouslyAllowUnencryptedPrivacyClaims := true }

variable (v : CatTokenValidator) (now : Int64) (provenance : TokenProvenance)

/-- The tolerance is added with a check for overflow. At the sum itself the token is still accepted.
    -/
def validateExp (token : CatToken) : Except CatError Unit :=
  match token.core.exp with
  | none => .ok ()
  | some exp =>
    match exp.checkedAdd v.expTolerance with
    | none => .error (.invalidClaimValue
        "exp + tolerance overflows i64 — reject rather than accept an unbounded window")
    | some effectiveExp => if now > effectiveExp then .error .tokenExpired else .ok ()

/-- The same from the other side: the token is accepted from the difference on. -/
def validateNbf (token : CatToken) : Except CatError Unit :=
  match token.core.nbf with
  | none => .ok ()
  | some nbf =>
    match nbf.checkedSub v.nbfTolerance with
    | none => .error (.invalidClaimValue
        "nbf - tolerance underflows i64 — reject rather than accept an unbounded window")
    | some effectiveNbf => if now < effectiveNbf then .error .tokenNotYetValid else .ok ()

/-- Where issuers are expected, an empty one is refused, and so is a token without. -/
def validateIssuer (token : CatToken) : Except CatError Unit :=
  match v.expectedIssuers with
  | none => .ok ()
  | some expected =>
    match token.core.iss with
    | some iss => if iss.isEmpty || !expected.contains iss then .error .invalidIssuer else .ok ()
    | none => .error (.missingRequiredClaim "iss")

/-- One of the token's audiences is enough, unless it is the empty one. -/
def validateAudience (token : CatToken) : Except CatError Unit :=
  match v.expectedAudiences with
  | none => .ok ()
  | some expected =>
    match token.core.aud with
    | some aud =>
      if aud.any fun a => !a.isEmpty && expected.contains a then .ok ()
      else .error .invalidAudience
    | none => .error (.missingRequiredClaim "aud")

def validateCatv (token : CatToken) : Except CatError Unit :=
  match token.cat.catv with
  | none => .ok ()
  | some catv =>
    if catv ≠ 1 then .error (.invalidClaimValue
      s!"Unsupported CAT version: {catv.toNat} (only version 1 is supported)")
    else .ok ()

/-- Four claims must not travel in the clear. The error names the first of them that the token has.
    -/
def validatePrivacyClaims (token : CatToken) : Except CatError Unit :=
  if v.dangerouslyAllowUnencryptedPrivacyClaims || provenance == .encrypted then .ok ()
  else if token.informational.sub.isSome then .error (.unencryptedPrivacyClaim "sub")
  else if token.cat.catgeocoord.isSome then .error (.unencryptedPrivacyClaim "catgeocoord")
  else if token.cat.geohash.isSome then .error (.unencryptedPrivacyClaim "geohash")
  else if token.cat.catgeoalt.isSome then .error (.unencryptedPrivacyClaim "catgeoalt")
  else .ok ()

/-- That the lists are well formed. Whether a request is inside is asked later, when there is one.
    -/
def validateGeographicRestrictions (token : CatToken) : Except CatError Unit := do
  (token.cat.catgeocoord.getD []).forM validateCoordinate
  (token.cat.geohash.getD []).forM validateGeohash
  (token.cat.catgeoiso3166.getD []).forM validateIso3166Code
  (token.cat.catnip.getD []).forM NetworkIdentifier.validate

def validateMatchEre (claim : String) (mv : MatchValue) : Except CatError Unit :=
  match mv with
  | .regex pattern =>
    match validatePosixEre pattern.toList with
    | some err => .error (.invalidClaimValue s!"{claim} regex: {err}")
    | none => .ok ()
  | _ => .ok ()

/-- The dialect of the patterns. They are compiled where they are used, and may fail there still. -/
def validateRegexEre (token : CatToken) : Except CatError Unit := do
  (token.cat.catu.getD []).forM fun rule => rule.matches_.forM (validateMatchEre "catu")
  (token.cat.cath.getD []).forM fun rule => rule.matches_.forM (validateMatchEre "cath")

/-- Everything but the composites. -/
def validateClaims (token : CatToken) : Except CatError Unit := do
  v.validateExp now token
  v.validateNbf now token
  v.validateIssuer token
  v.validateAudience token
  validateCatv token
  v.validatePrivacyClaims provenance token
  validateGeographicRestrictions token
  validateRegexEre token

/-- The composites, given how each of them evaluates. -/
def checkComposites (composite : CompositeClaims) (orOk norOk andOk : Bool) :
    Except CatError Unit :=
  if composite.hasComposites then
    if composite.exceedsDepthLimit maxNestingDepth then
      .error (.invalidClaimValue "Composite claim nesting depth exceeds maximum")
    else CompositeClaims.check orOk norOk andOk
  else .ok ()

mutual
/-- A claim set's own claims come first, then its composites. The claim sets nested in these are
    judged by the same function, always as if they had come in the clear. -/
def validateWithProvenance (v : CatTokenValidator) (now : Int64) :
    TokenProvenance → CatToken → Except CatError Unit
  | provenance, ⟨core, cat, informational, dpop, request, ⟨orC, norC, andC⟩, moqt, custom⟩ => do
    v.validateClaims now provenance
      ⟨core, cat, informational, dpop, request, ⟨orC, norC, andC⟩, moqt, custom⟩
    checkComposites ⟨orC, norC, andC⟩ (judge? v now orC) (judge? v now norC) (judge? v now andC)
def judge? (v : CatTokenValidator) (now : Int64) : Option CompositeClaim → Bool
  | none => true
  | some c => judge v now 0 c
/-- A composite with its claim sets judged by the validator, as tokens that were signed. -/
def judge (v : CatTokenValidator) (now : Int64) : Nat → CompositeClaim → Bool
  | depth, ⟨op, claims⟩ =>
    if depth > maxEvaluateDepth then false
    else op.combine (judgeAny v now depth claims) (judgeAll v now depth claims)
def judgeClaimSet (v : CatTokenValidator) (now : Int64) : Nat → ClaimSet → Bool
  | _, .token t => (validateWithProvenance v now .signed t).isOk
  | depth, .composite c => judge v now (depth + 1) c
def judgeAny (v : CatTokenValidator) (now : Int64) : Nat → List ClaimSet → Bool
  | _, [] => false
  | depth, cs :: css => judgeClaimSet v now depth cs || judgeAny v now depth css
def judgeAll (v : CatTokenValidator) (now : Int64) : Nat → List ClaimSet → Bool
  | _, [] => true
  | depth, cs :: css => judgeClaimSet v now depth cs && judgeAll v now depth css
end

def validate : Verdict := v.validateWithProvenance now .signed

mutual
theorem judge_eq (v : CatTokenValidator) (now : Int64) : ∀ (depth : Nat) (c : CompositeClaim),
    judge v now depth c = c.evaluateWithDepth (v.validate now) depth
  | depth, ⟨op, claims⟩ => by
    rw [judge, CompositeClaim.evaluateWithDepth, judgeAny_eq v now, judgeAll_eq v now]
theorem judgeClaimSet_eq (v : CatTokenValidator) (now : Int64) : ∀ (depth : Nat) (cs : ClaimSet),
    judgeClaimSet v now depth cs = cs.evaluateWithDepth (v.validate now) depth
  | _, .token t => rfl
  | depth, .composite c => by
    rw [judgeClaimSet, ClaimSet.evaluateWithDepth, judge_eq v now]
theorem judgeAny_eq (v : CatTokenValidator) (now : Int64) :
    ∀ (depth : Nat) (css : List ClaimSet),
      judgeAny v now depth css = anyClaimSet (v.validate now) depth css
  | _, [] => rfl
  | depth, cs :: css => by
    rw [judgeAny, anyClaimSet, judgeClaimSet_eq v now, judgeAny_eq v now]
theorem judgeAll_eq (v : CatTokenValidator) (now : Int64) :
    ∀ (depth : Nat) (css : List ClaimSet),
      judgeAll v now depth css = allClaimSets (v.validate now) depth css
  | _, [] => rfl
  | depth, cs :: css => by
    rw [judgeAll, allClaimSets, judgeClaimSet_eq v now, judgeAll_eq v now]
end

theorem judge?_eq (c : Option CompositeClaim) :
    judge? v now c = c.all (·.evaluate (v.validate now)) := by
  cases c with
  | none => rfl
  | some c => exact judge_eq v now 0 c

/-- `validate_composite_claims`: the evaluator with the validator's own verdict. -/
def validateCompositeClaims (token : CatToken) : Except CatError Unit :=
  if token.composite.hasComposites then
    if token.composite.exceedsDepthLimit maxNestingDepth then
      .error (.invalidClaimValue "Composite claim nesting depth exceeds maximum")
    else token.composite.validateAll (v.validate now)
  else .ok ()

/-- **The validator calls the evaluator with itself.** -/
theorem validateWithProvenance_eq (t : CatToken) :
    v.validateWithProvenance now provenance t =
      v.validateClaims now provenance t >>= fun _ => v.validateCompositeClaims now t := by
  obtain ⟨core, cat, informational, dpop, request, ⟨orC, norC, andC⟩, moqt, custom⟩ := t
  rw [validateWithProvenance, judge?_eq, judge?_eq, judge?_eq]
  rfl

end CatTokenValidator

/-! ## Validated tokens

That a token was validated is a field of its type, so it need not be assumed of one.
-/

/-- A token whose signature was checked and whose claims passed a validator. -/
structure ValidatedToken where
  token : CatToken
  header : TokenHeader
  provenance : TokenProvenance
  serialized : Bytes
  validated : ∃ (v : CatTokenValidator) (now : Int64),
    v.validateWithProvenance now provenance token = .ok ()

def ValidatedToken.claims (t : ValidatedToken) : CatToken := t.token

/-- The result holds on to the fact that it was validated, by whom and when. -/
def VerifiedToken.validate (t : VerifiedToken) (validator : CatTokenValidator) (now : Int64) :
    Except CatError ValidatedToken :=
  match h : validator.validateWithProvenance now t.provenance t.token with
  | .error e => .error e
  | .ok () => .ok ⟨t.token, t.header, t.provenance, t.serialized, validator, now, h⟩

end Cat
