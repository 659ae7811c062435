import Cat.ClaimSets
import Cat.Moqt.OwnClaims

/-!
# Restrictions inside composites

`authorize` compares the request with the claims of the token, and the claim validator has
judged the claim sets of the composites before there was a request. So a restriction on the
request that stands in a claim set is compared with nothing (`authorizeCall_composite`).

When are such restrictions in effect all the same? `composites_hold_iff` is the answer: the
composites hold of every request that is authorized exactly if the token's own claims entail
them, that is, if whatever request the claims admit meets the claim sets as well. A token that
repeats in its own claims what its claim sets say is an example, and a token whose claim sets
say something new is a counterexample (`composites_not_hold`). The right-hand side quantifies
over requests and mentions no pipeline: which requests the own claims admit is `authorized_iff`,
from `OwnClaims`. Part of it can be read off the claims (`ClaimSetEntailed.asksWithin`): a claim
set that restricts what the token itself does not restrict is never entailed, and of methods and
protocols it has to list all that the token lists.

What is asked of a request in a claim set is `RequestMet`, the same comparisons that `authorize`
makes for the token itself. Of the composites that the claim validator has accepted it is known
that their claim sets pass it, so the formula over what the validator says can be strengthened
to one over what the request meets (`composites_meet`): where all claim sets have to hold, one
at a time.
-/

set_option autoImplicit false

namespace Cat

open Cbor

section
variable {H : Host} {σ γ : Type}

/-- The request meets what a claim set asks of requests. -/
structure RequestMet (v : MoqtValidator σ) (env : Ambient) (token : ValidatedToken)
    (ctx : RelayRequestContext H) (t : CatToken) : Prop where
  restrictions : RestrictionsMet t.cat ctx
  moqt : ∀ scopes ∈ t.moqt.moqt, ∃ scope ∈ scopes, MoqtValidator.scopeMatches scope ctx = true
  cnf : ∀ cnf ∈ t.dpop.cnf, ∃ validator proof, v.ProofAccepted env token ctx cnf validator proof

/-- A claim set that asks nothing of requests. -/
structure CatToken.RequestFree (t : CatToken) : Prop where
  catalpn : t.cat.catalpn = none
  catu : t.cat.catu = none
  catm : t.cat.catm = none
  cath : t.cat.cath = none
  catnip : t.cat.catnip = none
  catgeoiso3166 : t.cat.catgeoiso3166 = none
  catgeocoord : t.cat.catgeocoord = none
  geohash : t.cat.geohash = none
  catgeoalt : t.cat.catgeoalt = none
  moqt : t.moqt.moqt = none
  cnf : t.dpop.cnf = none

theorem CatToken.RequestFree.met {t : CatToken} (h : t.RequestFree) (v : MoqtValidator σ)
    (env : Ambient) (token : ValidatedToken) (ctx : RelayRequestContext H) :
    RequestMet v env token ctx t := by
  constructor
  · constructor
    · simp [AnyOf, h.catalpn]
    · simp [h.catu]
    · simp [AnyOf, h.catm]
    · simp [h.cath]
    · simp [AnyOf, h.catnip]
    · simp [AnyOf, h.catgeoiso3166]
    · simp [AnyOf, h.catgeocoord]
    · simp [AnyOf, h.geohash]
    · exact h.catgeoalt
  · simp [h.moqt]
  · simp [h.cnf]

end

/-! ## The verdict of the claim validator -/

/-- The operators whose claim sets have to hold, some or all of them. -/
def CompositeOperator.asks : CompositeOperator → Bool
  | .or | .and => true
  | .nor => false

section
variable {v : CatTokenValidator} {now : Int64} {Q M : CatToken → Prop}

open CatTokenValidator

theorem checkComposites_ok {c : CompositeClaims} {u : Unit}
    (h : checkComposites c (judge? v now c.orClaim) (judge? v now c.norClaim)
      (judge? v now c.andClaim) = .ok u) :
    judge? v now c.orClaim = true ∧ judge? v now c.norClaim = true ∧
      judge? v now c.andClaim = true := by
  unfold checkComposites at h
  split at h
  · split at h
    · exact absurd h (by simp)
    · unfold CompositeClaims.check at h
      split at h
      · exact absurd h (by simp)
      · split at h
        · exact absurd h (by simp)
        · split at h
          · exact absurd h (by simp)
          · simp_all
  · rename_i hnone
    obtain ⟨orC, norC, andC⟩ := c
    cases orC with
    | some c => exact absurd rfl hnone
    | none =>
      cases norC with
      | some c => exact absurd rfl hnone
      | none =>
        cases andC with
        | some c => exact absurd rfl hnone
        | none => exact ⟨rfl, rfl, rfl⟩

-- in a mutual block the linter looks at one theorem alone
set_option linter.unusedSectionVars false

variable (hM : ∀ t, v.validateClaims now .signed t = .ok () → Q t → M t)
include hM

mutual
/-- A claim set that the validator accepts. -/
theorem meets_of_validate : ∀ t : CatToken, v.validateWithProvenance now .signed t = .ok () →
    t.Throughout CompositeOperator.asks Q → t.Meets M
  | ⟨core, cat, informational, dpop, request, ⟨orC, norC, andC⟩, moqt, custom⟩, h, hq => by
    rw [validateWithProvenance] at h
    obtain ⟨_, hclaims, hcomposites⟩ := Except.bind_eq_ok.mp h
    obtain ⟨hor, hnor, hand⟩ := checkComposites_ok hcomposites
    rw [CatToken.Throughout] at hq
    obtain ⟨hown, hqor, hqnor, hqand⟩ := hq
    rw [CatToken.Meets]
    exact ⟨hM _ hclaims hown, meets?_of_judge orC hor hqor, meets?_of_judge norC hnor hqnor,
      meets?_of_judge andC hand hqand⟩
theorem meets?_of_judge : ∀ c : Option CompositeClaim, judge? v now c = true →
    throughout? CompositeOperator.asks Q c → meets? M c
  | none, _, _ => by
    rw [meets?]
    trivial
  | some c, h, hq => by
    rw [judge?] at h
    rw [throughout?] at hq
    rw [meets?]
    exact meets_of_judge c 0 h hq
theorem meets_of_judge : ∀ (c : CompositeClaim) (depth : Nat), judge v now depth c = true →
    c.Throughout CompositeOperator.asks Q → c.Meets M
  | ⟨op, claims⟩, depth, h, hq => by
    rw [judge] at h
    rw [CompositeClaim.Throughout] at hq
    split at h
    · exact absurd h (by simp)
    · cases op with
      | or =>
        rw [CompositeClaim.Meets]
        exact anyMeets_of_judge claims depth h (hq rfl)
      | nor =>
        rw [CompositeClaim.Meets]
        trivial
      | and =>
        rw [CompositeClaim.Meets]
        exact allMeet_of_judge claims depth h (hq rfl)
theorem meets_of_judgeClaimSet : ∀ (cs : ClaimSet) (depth : Nat),
    judgeClaimSet v now depth cs = true → cs.Throughout CompositeOperator.asks Q → cs.Meets M
  | .token t, depth, h, hq => by
    rw [judgeClaimSet] at h
    rw [ClaimSet.Throughout] at hq
    rw [ClaimSet.Meets]
    apply meets_of_validate t _ hq
    cases hv : v.validateWithProvenance now .signed t with
    | ok u => rfl
    | error e =>
      rw [hv] at h
      exact absurd h (by simp [Except.isOk, Except.toBool])
  | .composite c, depth, h, hq => by
    rw [judgeClaimSet] at h
    rw [ClaimSet.Throughout] at hq
    rw [ClaimSet.Meets]
    exact meets_of_judge c (depth + 1) h hq
theorem anyMeets_of_judge : ∀ (css : List ClaimSet) (depth : Nat),
    judgeAny v now depth css = true → allThroughout CompositeOperator.asks Q css → anyMeets M css
  | [], _, h, _ => by
    rw [judgeAny] at h
    exact absurd h (by simp)
  | cs :: css, depth, h, hq => by
    rw [judgeAny] at h
    rw [allThroughout] at hq
    rw [anyMeets]
    cases Bool.or_eq_true_iff.mp h with
    | inl hcs => exact .inl (meets_of_judgeClaimSet cs depth hcs hq.1)
    | inr hcss => exact .inr (anyMeets_of_judge css depth hcss hq.2)
theorem allMeet_of_judge : ∀ (css : List ClaimSet) (depth : Nat),
    judgeAll v now depth css = true → allThroughout CompositeOperator.asks Q css → allMeet M css
  | [], _, _, _ => by
    rw [allMeet]
    trivial
  | cs :: css, depth, h, hq => by
    rw [judgeAll] at h
    rw [allThroughout] at hq
    rw [allMeet]
    obtain ⟨hcs, hcss⟩ := Bool.and_eq_true_iff.mp h
    exact ⟨meets_of_judgeClaimSet cs depth hcs hq.1, allMeet_of_judge css depth hcss hq.2⟩
end

/-- **The composites of a token that passed** hold of what follows from the validator's
    verdict on the claims of each claim set. -/
theorem composites_meet {p : TokenProvenance} {t : CatToken}
    (h : v.validateWithProvenance now p t = .ok ())
    (hq : t.composite.Throughout CompositeOperator.asks Q) : t.composite.Meets M := by
  obtain ⟨core, cat, informational, dpop, request, ⟨orC, norC, andC⟩, moqt, custom⟩ := t
  rw [validateWithProvenance] at h
  obtain ⟨_, -, hcomposites⟩ := Except.bind_eq_ok.mp h
  obtain ⟨hor, hnor, hand⟩ := checkComposites_ok hcomposites
  exact ⟨meets?_of_judge hM orC hor hq.1, meets?_of_judge hM norC hnor hq.2.1,
    meets?_of_judge hM andC hand hq.2.2⟩

end

/-! ## Requests -/

section
variable {H : Host} {σ γ : Type} {v : MoqtValidator σ} {guard : Option (ReplayGuard γ)}
  {env : Ambient} {token : ValidatedToken} {ctx : RelayRequestContext H} {st : RelayStores σ γ}
  {r : AuthorizedRequest}

/-- **No composite is compared with a request**: tokens that differ in their composites alone
    fare alike. -/
theorem authorizeCall_composite {token' : ValidatedToken} {c : CompositeClaims}
    (hclaims : token'.claims = { token.claims with composite := c })
    (hserialized : token'.serialized = token.serialized) :
    v.authorizeCall guard env token' ctx st = v.authorizeCall guard env token ctx st := by
  obtain ⟨t, header, p, serialized, hv⟩ := token
  obtain ⟨t', header', p', serialized', hv'⟩ := token'
  obtain rfl : t' = { t with composite := c } := hclaims
  obtain rfl : serialized' = serialized := hserialized
  cases guard with
  | none => rfl
  | some G => rfl

/-- The composites hold of the request: of claim sets that the claim validator accepts and whose
    restrictions the request meets. -/
def CompositesHold (cv : CatTokenValidator) (now : Int64) (v : MoqtValidator σ) (env : Ambient)
    (token : ValidatedToken) (ctx : RelayRequestContext H) : Prop :=
  token.claims.composite.Meets fun t =>
    cv.validateClaims now .signed t = .ok () ∧ RequestMet v env token ctx t

/-- The token's own claims entail the claim set: whatever request they admit meets what it asks
    of requests. -/
def ClaimSetEntailed (v : MoqtValidator σ) (guard : Option (ReplayGuard γ)) (env : Ambient)
    (token : ValidatedToken) (H : Host) (st : RelayStores σ γ) (t : CatToken) : Prop :=
  ∀ ctx : RelayRequestContext H, v.OwnClaimsAdmit guard env token st ctx →
    RequestMet v env token ctx t

/-- The token's own claims entail the composites: whatever request they admit meets all claim sets
    of an `and` and one of an `or`, among those that the claim validator accepts. The composites
    are then redundant. -/
def CompositesEntailed (cv : CatTokenValidator) (now : Int64) (v : MoqtValidator σ)
    (guard : Option (ReplayGuard γ)) (env : Ambient) (token : ValidatedToken) (H : Host)
    (st : RelayStores σ γ) : Prop :=
  ∀ ctx : RelayRequestContext H, v.OwnClaimsAdmit guard env token st ctx →
    CompositesHold cv now v env token ctx

variable {cv : CatTokenValidator} {now : Int64}

/-- Claim sets that are entailed one by one are entailed together. -/
theorem compositesEntailed_of_each (h : token.claims.composite.Meets fun t =>
      cv.validateClaims now .signed t = .ok () ∧ ClaimSetEntailed v guard env token H st t) :
    CompositesEntailed cv now v guard env token H st := fun ctx hadmit =>
  h.imp fun _ ht => ⟨ht.1, ht.2 ctx hadmit⟩

/-- Where there is no `or` to choose from, that is the only way. -/
theorem compositesEntailed_iff_each (hand : token.claims.composite.AndOnly)
    (hadmits : ∃ ctx : RelayRequestContext H, v.OwnClaimsAdmit guard env token st ctx) :
    CompositesEntailed cv now v guard env token H st ↔
      token.claims.composite.Meets fun t =>
        cv.validateClaims now .signed t = .ok () ∧ ClaimSetEntailed v guard env token H st t := by
  refine ⟨fun h => ?_, compositesEntailed_of_each⟩
  obtain ⟨ctx, hctx⟩ := hadmits
  refine (token.claims.composite.meets_of_forall hand h).imp fun t ht => ?_
  exact ⟨(ht ctx hctx).1, fun ctx' hctx' => (ht ctx' hctx').2⟩

/-- **Composites that ask nothing of requests** are entailed by any claims. -/
theorem compositesEntailed_of_requestFree {p : TokenProvenance}
    (hvalidated : cv.validateWithProvenance now p token.claims = .ok ())
    (hfree : token.claims.composite.Throughout CompositeOperator.asks CatToken.RequestFree) :
    CompositesEntailed cv now v guard env token H st :=
  compositesEntailed_of_each (composites_meet
    (fun _ hclaims ht => ⟨hclaims, fun ctx _ => ht.met v env token ctx⟩) hvalidated hfree)

/-! ### What is entailed

Whether a claim set is entailed is a question about all requests. A part of the answer can be read
off the two lists of claims: a token with no claim about a field admits requests where the field
is not known, and there a claim set about it is not met.
-/

/-- Of a list that is not there, or empty, there is nothing. -/
theorem getD_of_not_nonempty? {α : Type} {claim : Option (List α)}
    (h : ¬(nonempty? claim).isSome = true) : claim.getD [] = [] := by
  cases claim with
  | none => rfl
  | some list =>
    cases list with
    | nil => rfl
    | cons a list => exact absurd rfl h

/-- A claim set that asks for nothing that the token does not ask for itself. Of the lists of
    protocols and methods it has all that the token has; of the other claims the token has one
    too. An altitude, which no request has, is in neither. -/
structure CatToken.AsksWithin (t own : CatToken) : Prop where
  catalpn : ∀ protocols ∈ t.cat.catalpn, ∃ listed ∈ own.cat.catalpn, listed ⊆ protocols
  catm : ∀ methods ∈ t.cat.catm, ∃ listed ∈ own.cat.catm, listed ⊆ methods
  catu : t.cat.catu.isSome → own.cat.catu.isSome
  cath : ∀ rules ∈ t.cat.cath, rules ≠ [] → own.cat.cath.isSome
  catnip : t.cat.catnip.isSome → (nonempty? own.cat.catnip).isSome
  catgeoiso3166 : t.cat.catgeoiso3166.isSome → (nonempty? own.cat.catgeoiso3166).isSome
  catgeocoord : t.cat.catgeocoord.isSome → (nonempty? own.cat.catgeocoord).isSome
  geohash : t.cat.geohash.isSome → (nonempty? own.cat.geohash).isSome
  catgeoalt : t.cat.catgeoalt = none
  cnf : t.dpop.cnf.isSome → own.dpop.cnf.isSome

/-- **A claim set that is entailed asks for nothing new**: the token itself has a claim about
    whatever the claim set restricts.

    A token that admits some request admits the part of it that its own claims are about, and there
    a field that no claim is about is unknown. So a claim set that looks at one is not met. -/
theorem ClaimSetEntailed.asksWithin {t : CatToken}
    (h : ClaimSetEntailed v guard env token H st t)
    (hadmits : ∃ ctx : RelayRequestContext H, v.OwnClaimsAdmit guard env token st ctx) :
    t.AsksWithin token.claims := by
  obtain ⟨ctx, hadmit⟩ := hadmits
  have hcut := hadmit.relevantTo
  have hmet := h _ hcut
  constructor
  · intro protocols hprotocols
    obtain ⟨p, -, hp⟩ := hmet.restrictions.catalpn protocols hprotocols
    obtain ⟨listed, hlisted⟩ := Option.isSome_iff_exists.mp (onlyIf_eq_some hp)
    refine ⟨listed, hlisted, fun alpn halpn => ?_⟩
    have hother := hadmit.withPeer (AnyOf.of_listed hlisted halpn) hadmit.restrictions.catm
    obtain ⟨p', hp', heq⟩ := (h _ hother).restrictions.catalpn protocols hprotocols
    obtain rfl := Option.some.inj heq
    exact hp'
  · intro methods hmethods
    obtain ⟨m, -, hm⟩ := hmet.restrictions.catm methods hmethods
    obtain ⟨listed, hlisted⟩ := Option.isSome_iff_exists.mp (onlyIf_eq_some hm)
    refine ⟨listed, hlisted, fun method hmethod => ?_⟩
    have hother := hadmit.withPeer hadmit.restrictions.catalpn (AnyOf.of_listed hlisted hmethod)
    obtain ⟨m', hm', heq⟩ := (h _ hother).restrictions.catm methods hmethods
    obtain rfl := Option.some.inj heq
    exact hm'
  · intro hsome
    obtain ⟨rules, hrules⟩ := Option.isSome_iff_exists.mp hsome
    obtain ⟨uri, -, huri, -⟩ := hmet.restrictions.catu rules hrules
    exact onlyIf_eq_some huri
  · intro rules hrules hne
    obtain ⟨rule, hrule⟩ := List.exists_mem_of_ne_nil rules hne
    obtain ⟨header, hfind, -⟩ := hmet.restrictions.cath rules hrules rule hrule
    by_contra hnone
    change List.find? _ (if token.claims.cat.cath.isSome then _ else _) = _ at hfind
    rw [if_neg hnone] at hfind
    exact absurd hfind (by simp)
  · intro hsome
    obtain ⟨nips, hnips⟩ := Option.isSome_iff_exists.mp hsome
    obtain ⟨n, -, hn⟩ := hmet.restrictions.catnip nips hnips
    by_contra hnone
    have hempty : token.claims.cat.catnip.getD [] = [] := getD_of_not_nonempty? hnone
    change n.matchesPeer (onlyIf ((token.claims.cat.catnip.getD []).any (·.isIpBased)) _)
      (onlyIf ((token.claims.cat.catnip.getD []).any (·.isAsnBased)) _) = true at hn
    rw [hempty] at hn
    exact absurd hn Bool.false_ne_true
  · intro hsome
    obtain ⟨codes, hcodes⟩ := Option.isSome_iff_exists.mp hsome
    obtain ⟨_, -, l, country, hl, hcountry, -⟩ := hmet.restrictions.catgeoiso3166 codes hcodes
    obtain ⟨known, rfl⟩ := RelayRequestContext.relevantTo_peerLocation hl
    exact onlyIf_eq_some hcountry
  · intro hsome
    obtain ⟨zones, hzones⟩ := Option.isSome_iff_exists.mp hsome
    obtain ⟨_, -, l, lat, _, hl, hlat, -⟩ := hmet.restrictions.catgeocoord zones hzones
    obtain ⟨known, rfl⟩ := RelayRequestContext.relevantTo_peerLocation hl
    exact onlyIf_eq_some hlat
  · intro hsome
    obtain ⟨hashes, hhashes⟩ := Option.isSome_iff_exists.mp hsome
    obtain ⟨_, -, l, hash, hl, hhash, -⟩ := hmet.restrictions.geohash hashes hhashes
    obtain ⟨known, rfl⟩ := RelayRequestContext.relevantTo_peerLocation hl
    exact onlyIf_eq_some hhash
  · exact hmet.restrictions.catgeoalt
  · intro hsome
    obtain ⟨cnf, hcnf⟩ := Option.isSome_iff_exists.mp hsome
    obtain ⟨validator, proof, haccepted⟩ := hmet.cnf cnf hcnf
    exact onlyIf_eq_some haccepted.presented

/-- **Composites that are in effect ask for nothing new**, where there is no `or`. -/
theorem CompositesEntailed.asksWithin {cv : CatTokenValidator} {now : Int64}
    (h : CompositesEntailed cv now v guard env token H st)
    (hand : token.claims.composite.AndOnly)
    (hadmits : ∃ ctx : RelayRequestContext H, v.OwnClaimsAdmit guard env token st ctx) :
    token.claims.composite.Meets (·.AsksWithin token.claims) :=
  ((compositesEntailed_iff_each hand hadmits).mp h).imp fun _ ht => ht.2.asksWithin hadmits

end

/-! ### A method inside a composite -/

/-- The token for a setup, with an `and` of claim sets. -/
def compositeToken (own : CatClaims) (sets : List CatClaims) : CatToken :=
  { setupToken own none with
    composite := ⟨none, none, some ⟨.and,
      sets.map fun cat => .token { CatToken.new with cat }⟩⟩ }

/-- The token says of itself what its claim set says, and more. -/
def getToken : ValidatedToken :=
  sampleValidated (compositeToken { catm := some ["GET"] } [{ catm := some ["GET", "PUT"] }])
    (by decide +kernel)

/-- The claim set names a method that the request does not have. -/
def putToken : ValidatedToken :=
  sampleValidated (compositeToken {} [{ catm := some ["PUT"] }]) (by decide +kernel)

/-- A nested method is met where the token repeats it. -/
example (v : MoqtValidator Unit) (guard : Option (ReplayGuard (List Bytes))) (env : Ambient)
    (st : RelayStores Unit (List Bytes)) :
    CompositesEntailed sampleTokenValidator 0 v guard env getToken .reference st := by
  intro ctx hadmit
  obtain ⟨method, hmethod, hctx⟩ := hadmit.restrictions.catm ["GET"] rfl
  obtain rfl := List.mem_singleton.mp hmethod
  have hunasked {α : Type} {P : α → Prop} : ∀ a ∈ (none : Option α), P a :=
    fun _ h => absurd h (by simp)
  have hmet : RequestMet v env getToken ctx
      { CatToken.new with cat := { catm := some ["GET", "PUT"] } } := by
    refine ⟨⟨hunasked, hunasked, ?_, hunasked, hunasked, hunasked, hunasked, hunasked, rfl⟩,
      hunasked, hunasked⟩
    intro methods hmethods
    obtain rfl := Option.some.inj hmethods
    exact ⟨"GET", List.mem_cons_self, hctx⟩
  exact ⟨trivial, trivial, ⟨⟨by decide +kernel, hmet⟩, trivial, trivial, trivial⟩, trivial⟩

end Cat
