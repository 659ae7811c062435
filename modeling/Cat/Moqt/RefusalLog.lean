import Cat.Dpop.LruJtiStore
import Cat.ErrorText
import Cat.Lib.Raises
import Cat.Moqt.Admission

/-!
# The log of a relay

What an operator reads after an attack is the log, and the log is made of the texts of
`CatError`, one line for each failure. Two things would spoil it: a text that quotes the peer,
whose line break then starts a line of the peer's own, and a label without bound, since
`error.rs` suggests a metric that is labelled with the claim. Neither happens, whatever is
presented and however the calls interleave.

`Labelled` is the property of one error: the claims and fields it names are of the fixed list
`requestNames`, and it is none of the three errors that show an algorithm or a key. Everything
else in the text of an error has passed `safeDisplay` (`ErrorText`), so a labelled error takes
one line and has at most 2200 characters (`Labelled.length_le`).

That every error of a call is labelled is proved along `authorize_precommit`: one lemma
`_raises` for each function of the source, put together by the rules of `Lib.Raises` in the
order in which that function calls the others. A function that gains a check needs one more
`.guard` in its own lemma and nothing elsewhere. `RelayStep.labelled` carries the property over
one step of one call, and `failureLog_exact` over every interleaving.

The verifiers of the host and the stores that the crate does not bring may fail with whatever
they like, so what they fail with is a hypothesis (`VerifiersLabelled`, `StoresLabelled`). The
stores that the crate brings meet it.
-/

set_option autoImplicit false

section

open Except

namespace Cat

open Cbor

/-- The claims and request fields that an authorization call names. The `cti` is named with the
    reason it is required for, since `replay_obligation` puts the two in one text. -/
def requestNames : List String :=
  ["aud", "cnf", "cattpk", "cti required when catreplay=Prohibited",
    "cti required when catreplay=ReuseDetection", "catalpn", "peer_tls_alpn", "catu",
    "request_uri", "catm", "request_method", "catpor", "catpor_block_list", "catreplay",
    "replay_guard", "catnip", "peer_ip", "peer_asn", "catgeoiso3166",
    "peer_location.country_code", "catgeocoord", "peer_location.latitude",
    "peer_location.longitude", "geohash", "peer_location.geohash", "catgeo*", "peer_location"]

/-- An error that shows an algorithm or a key that was not admitted, or what would be. -/
def CatError.isAdmission : CatError → Bool
  | .algorithmMismatch _ _ | .algorithmNotAllowed _ _ | .kidNotAllowed _ _ => true
  | _ => false

/-- The error names a claim or a field of the list, or none, and shows no key. The text of an
    algorithm or a key that was not admitted is built by the token decoder, which is not part of a
    call. -/
structure Labelled (e : CatError) : Prop where
  names : ∀ name ∈ e.names, name ∈ requestNames
  admission : e.isAdmission = false

instance (e : CatError) : Decidable (Labelled e) :=
  decidable_of_iff ((e.names.all fun name => name ∈ requestNames) = true ∧ e.isAdmission = false)
    ⟨fun h => ⟨by simpa using h.1, h.2⟩, fun h => ⟨by simpa using h.names, h.admission⟩⟩

theorem requestNames_plain : ∀ name ∈ requestNames, Plain name.toList := by
  have hall : ∀ name ∈ requestNames, (name.toList.all fun c => !isUnsafe c) = true :=
    List.forall_mem_of_all (by decide +kernel)
  exact fun name hname => plain_of_all (hall name hname)

variable {α : Type}

/-- Most errors of a call carry a detail only, and their names are none at all. The two facts about
    the constructor are one equation, so that `rfl` decides it at each use. -/
theorem labelled_nameless {e : CatError} (h : (e.names, e.isAdmission) = ([], false)) :
    Labelled e where
  names := by
    rw [(Prod.mk.inj h).1]
    exact fun _ hname => absurd hname List.not_mem_nil
  admission := (Prod.mk.inj h).2

/-- An error without names. -/
theorem raises_nameless {e : CatError} (h : (e.names, e.isAdmission) = ([], false)) :
    Raises Labelled (.error e : Except CatError α) :=
  raises_error.mpr (labelled_nameless h)

theorem requestNames_length : ∀ name ∈ requestNames, name.length ≤ 50 :=
  List.forall_mem_of_all (by decide +kernel)

/-- A labelled error is short. -/
theorem Labelled.length_le {e : CatError} (h : Labelled e) : e.display.length ≤ 2200 := by
  have hnames : ∀ name ∈ e.names, name.length ≤ 50 :=
    fun name hname => requestNames_length name (h.names name hname)
  have hdetailed : ∀ {text detail : String}, text.length ≤ 151 →
      (text ++ safeDisplay detail).length ≤ 2200 := by
    intro text detail htext
    have hdetail := length_safeDisplay detail
    rw [String.length_append]
    omega
  -- by what the constructor shows: a fixed text, a detail that `safeDisplay` has cut, or a label
  cases e with
  | invalidCbor detail | invalidBase64 detail | invalidClaimValue detail
  | unsupportedAlgorithm detail | keyOperationFailed detail | backendUnavailable detail
  | configurationRefused detail | geographicValidationFailed detail
  | moqtActionNotAuthorized detail | dpopValidationFailed detail
  | certificateValidationFailed detail | dpopAlgorithmNotSupported detail =>
    exact hdetailed (by decide)
  | malformedClaim claim detail =>
    have hclaim := hnames claim List.mem_cons_self
    refine hdetailed ?_
    rw [String.length_append, String.length_append]
    show 16 + claim.length + 2 ≤ 151
    omega
  | claimEnforcementFailed claim detail =>
    have hclaim := hnames claim List.mem_cons_self
    refine hdetailed ?_
    rw [String.length_append, String.length_append]
    show 6 + claim.length + 21 ≤ 151
    omega
  | missingRequiredClaim claim =>
    have hclaim := hnames claim List.mem_cons_self
    show ("Missing required claim: " ++ claim).length ≤ 2200
    rw [String.length_append]
    show 24 + claim.length ≤ 2200
    omega
  | unencryptedPrivacyClaim claim =>
    have hclaim := hnames claim List.mem_cons_self
    show ("Privacy-sensitive claim " ++ claim ++ " requires encryption").length ≤ 2200
    rw [String.length_append, String.length_append]
    show 24 + claim.length + 20 ≤ 2200
    omega
  | missingRelayContext claim field =>
    have hclaim := hnames claim List.mem_cons_self
    have hfield := hnames field (List.mem_cons_of_mem _ List.mem_cons_self)
    show ("Token claim " ++ claim ++ " requires request context " ++ field ++
      ", but it was not provided").length ≤ 2200
    rw [String.length_append, String.length_append, String.length_append, String.length_append]
    show 12 + claim.length + 26 + field.length + 25 ≤ 2200
    omega
  | algorithmMismatch _ _ | algorithmNotAllowed _ _ | kidNotAllowed _ _ => cases h.admission
  | _ => decide

/-! ## The URI

From the parser of URIs upwards, one lemma for each function, by the rules of `Raises`.
-/

theorem ensureAscii_raises (uri : List Char) : Raises Labelled (ensureAscii uri) :=
  .ite (fun _ => raises_ok) fun _ => raises_nameless rfl

theorem ensureNoFragment_raises (uri : List Char) : Raises Labelled (ensureNoFragment uri) :=
  .ite (fun _ => raises_nameless rfl) fun _ => raises_ok

theorem ensureNoUserinfo_raises (authority : List Char) :
    Raises Labelled (ensureNoUserinfo authority) :=
  .ite (fun _ => raises_nameless rfl) fun _ => raises_ok

/-- `uri.rs` names no claim: what is wrong with a URI is told in a detail. The same holds of the
    normalizer, which makes the same three checks. -/
theorem parseUri_raises (uri : List Char) : Raises Labelled (parseUri uri) := by
  refine .bind (ensureAscii_raises uri) fun _ _ => ?_
  refine .bind (ensureNoFragment_raises uri) fun _ _ => ?_
  exact .bind (ensureNoUserinfo_raises _) fun _ _ => raises_ok

theorem normalizeUri_raises (uri : List Char) : Raises Labelled (normalizeUri uri) := by
  refine .bind (ensureAscii_raises uri) fun _ _ => ?_
  refine .bind (ensureNoFragment_raises uri) fun _ _ => ?_
  exact .bind (ensureNoUserinfo_raises _) fun _ _ => raises_ok

theorem decomposeUri_raises (uri : String) : Raises Labelled (decomposeUri uri) :=
  .bind (normalizeUri_raises _) fun _ _ => parseUri_raises _

/-! ## The guards

Their errors carry texts of their own with nothing from the request in it, except for details,
and details are cleaned where they are rendered.
-/

section
variable {H : Host} (t : CatToken)

theorem validateMethod_raises (method : String) : Raises Labelled (validateMethod t method) := by
  unfold validateMethod
  split
  · exact raises_ok
  · exact .ite (fun _ => raises_ok) fun _ => raises_nameless rfl

theorem validateAllHeaders_raises (headers : List (String × String)) :
    Raises Labelled (validateAllHeaders H t headers) := by
  unfold validateAllHeaders
  split
  · exact raises_ok
  · refine .forM fun rule _ => ?_
    unfold validateHeader
    split
    · exact .ite (fun _ => raises_ok) fun _ => raises_nameless rfl
    · exact raises_nameless rfl

theorem enforceCatu_raises (uri : String) : Raises Labelled (enforceCatu H t uri) := by
  unfold enforceCatu
  split
  · exact raises_ok
  · refine .bind (decomposeUri_raises uri) fun _ _ => .forM fun rule _ => ?_
    exact .ite (fun _ => raises_ok) fun _ => raises_nameless rfl

theorem enforceCatnip_raises (ip : Option IpAddr) (asn : Option UInt32) :
    Raises Labelled (enforceCatnip t ip asn) := by
  unfold enforceCatnip
  split
  · exact raises_ok
  · refine .ite (fun _ => raises_ok) fun _ => .ite (fun _ => ?_) fun _ =>
      .ite (fun _ => ?_) fun _ => .ite (fun _ => raises_ok) fun _ => raises_nameless rfl
    · exact raises_error.mpr (by decide)
    · exact raises_error.mpr (by decide)

/-- The one guard that names request fields: for each of the three claims it tells which part of the
    location is missing. -/
theorem enforceGeo_raises (location : Option RequestLocation) :
    Raises Labelled (enforceGeo H t location) := by
  unfold enforceGeo
  refine .ite (fun _ => raises_ok) fun _ => ?_
  split
  · exact raises_throw.mpr (by decide)
  · rename_i location
    refine .bind (.option_forM fun codes _ => ?_) fun _ _ =>
      .bind (.option_forM fun zones _ => ?_) fun _ _ => .option_forM fun hashes _ => ?_
    · unfold enforceIso3166
      split
      · exact raises_error.mpr (by decide)
      · exact .ite (fun _ => raises_ok) fun _ => raises_nameless rfl
    · unfold enforceGeocoord
      split
      · exact raises_error.mpr (by decide)
      · exact raises_error.mpr (by decide)
      · exact .ite (fun _ => raises_ok) fun _ => raises_nameless rfl
    · unfold enforceGeohash
      split
      · exact raises_error.mpr (by decide)
      · exact .ite (fun _ => raises_ok) fun _ => raises_nameless rfl

theorem enforceCatpor_raises (env : Ambient) (list : CatPorBlockList) :
    Raises Labelled (enforceCatpor env t list).1 := by
  unfold enforceCatpor
  split
  · exact raises_ok
  · split
    · exact raises_nameless rfl
    · split
      · exact raises_nameless rfl
      · split
        · exact raises_nameless rfl
        · exact raises_ok

end

/-! ## The proof

A call may fail with an error of the proof's encoder, of the host's verifiers, or of the checks
in between. Those of the host are a hypothesis, which its own source bears out.
-/

/-- What the verifiers of the host fail with: `crypto.rs` names no claim. -/
def Host.VerifiersLabelled (H : Host) : Prop :=
  (∀ point verify, H.p256 point = .ok verify → ∀ m s, Raises Labelled (verify m s)) ∧
    ∀ n e size verify, H.rsa n e = .ok (size, verify) → ∀ m s, Raises Labelled (verify m s)

section
variable {H : Host}

theorem required_raises (member : Option String) (missing : String) :
    Raises Labelled (Jwk.required member missing) := by
  unfold Jwk.required
  split
  · exact raises_ok
  · exact raises_nameless rfl

theorem validateBase64urlSafe_raises (s fieldName : String) :
    Raises Labelled (Jwk.validateBase64urlSafe s fieldName) := by
  unfold Jwk.validateBase64urlSafe
  split
  · exact raises_nameless rfl
  · exact raises_ok

theorem canonicalJson_raises (k : Jwk) : Raises Labelled k.canonicalJson := by
  unfold Jwk.canonicalJson
  refine .ite (fun _ => ?_) fun _ => .ite (fun _ => ?_) fun _ => raises_nameless rfl
  · refine .bind (required_raises _ _) fun _ _ => .bind (required_raises _ _) fun _ _ =>
      .bind (required_raises _ _) fun _ _ => .bind (validateBase64urlSafe_raises _ _) fun _ _ =>
      .bind (validateBase64urlSafe_raises _ _) fun _ _ => ?_
    exact .guard (fun _ => labelled_nameless rfl) fun _ => raises_ok
  · exact .bind (required_raises _ _) fun _ _ => .bind (required_raises _ _) fun _ _ =>
      .bind (validateBase64urlSafe_raises _ _) fun _ _ =>
      .bind (validateBase64urlSafe_raises _ _) fun _ _ => raises_ok

theorem jwkThumbprint_raises (proof : DpopProof H) : Raises Labelled proof.jwkThumbprint := by
  rw [DpopProof.jwkThumbprint_eq]
  exact .bind (canonicalJson_raises _) fun _ _ => raises_ok

theorem decodeMember_raises (s : String) : Raises Labelled (Jwk.decodeMember H s) := by
  unfold Jwk.decodeMember
  split
  · exact raises_ok
  · exact raises_nameless rfl

theorem toVerifyingKey_raises (k : Jwk) : Raises Labelled (k.toVerifyingKey H) := by
  unfold Jwk.toVerifyingKey
  refine .guard (fun _ => labelled_nameless rfl) fun _ =>
    .guard (fun _ => labelled_nameless rfl) fun _ => .bind (required_raises _ _) fun _ _ =>
    .bind (required_raises _ _) fun _ _ => .bind (decodeMember_raises _) fun _ _ =>
    .bind (decodeMember_raises _) fun _ _ => ?_
  split
  · exact raises_ok
  · exact raises_nameless rfl

theorem toRsaPublicKey_raises (k : Jwk) : Raises Labelled (k.toRsaPublicKey H) := by
  unfold Jwk.toRsaPublicKey
  refine .guard (fun _ => labelled_nameless rfl) fun _ => .bind (required_raises _ _) fun _ _ =>
    .bind (required_raises _ _) fun _ _ => .bind (decodeMember_raises _) fun _ _ =>
    .bind (decodeMember_raises _) fun _ _ => ?_
  split
  · exact raises_nameless rfl
  · exact .guard (fun _ => labelled_nameless rfl) fun _ => raises_ok

theorem writeDpopCbor_raises (v : Value) : Raises Labelled (writeDpopCbor H v) := by
  unfold writeDpopCbor
  split
  · exact raises_ok
  · exact raises_nameless rfl

theorem jwkToCoseKey_raises (k : Jwk) : Raises Labelled (jwkToCoseKey H k) := by
  unfold jwkToCoseKey
  refine .ite (fun _ => ?_) fun _ => .ite (fun _ => ?_) fun _ => raises_nameless rfl
  · exact .guard (fun _ => labelled_nameless rfl) fun _ =>
      .bind (decodeMember_raises _) fun _ _ => .bind (decodeMember_raises _) fun _ _ => raises_ok
  · exact .bind (decodeMember_raises _) fun _ _ => .bind (decodeMember_raises _) fun _ _ =>
      raises_ok

theorem writeDpopJson_raises (what : String) (v : Json) :
    Raises Labelled (writeDpopJson H what v) := by
  unfold writeDpopJson
  split
  · exact raises_ok
  · exact raises_nameless rfl

theorem encodeHeaderAndPayload_raises (format : DpopWireFormat) (header : DpopHeader)
    (payload : DpopPayload) : Raises Labelled (encodeHeaderAndPayload H format header payload) := by
  unfold encodeHeaderAndPayload
  cases format with
  | cwt =>
    refine .bind (.bind (jwkToCoseKey_raises _) fun _ _ => writeDpopCbor_raises _) fun _ _ => ?_
    exact .bind (writeDpopCbor_raises _) fun _ _ => raises_ok
  | jwt =>
    refine .bind ?_ fun _ _ => .bind ?_ fun _ _ => raises_ok
    · unfold encodeHeaderJson
      split
      · exact raises_nameless rfl
      · exact writeDpopJson_raises _ _
    · refine .bind ?_ fun _ _ => writeDpopJson_raises _ _
      unfold jtiMember
      split
      · exact raises_ok
      · split
        · exact raises_ok
        · exact raises_nameless rfl

/-- A proof that was built here is encoded again to be verified, so the errors of the encoders are
    errors of the call. -/
theorem signingInput_raises (proof : DpopProof H) : Raises Labelled proof.signingInput := by
  unfold DpopProof.signingInput
  refine .bind ?_ fun _ _ => ?_
  · exact .ite (fun _ => encodeHeaderAndPayload_raises _ _ _) fun _ => raises_ok
  · split
    · unfold createSigningInput createCoseStructure
      split
      · exact raises_ok
      · exact raises_nameless rfl
    · exact raises_ok

/-- A verifying key is one of the host. -/
theorem p256_of_toVerifyingKey {k : Jwk} {verify : Jwk.Verifier}
    (h : k.toVerifyingKey H = .ok verify) : ∃ point, H.p256 point = .ok verify := by
  unfold Jwk.toVerifyingKey at h
  obtain ⟨-, h⟩ := Except.guard_eq_ok.mp h
  obtain ⟨-, h⟩ := Except.guard_eq_ok.mp h
  obtain ⟨x, -, h⟩ := Except.bind_eq_ok.mp h
  obtain ⟨y, -, h⟩ := Except.bind_eq_ok.mp h
  obtain ⟨xBytes, -, h⟩ := Except.bind_eq_ok.mp h
  obtain ⟨yBytes, -, h⟩ := Except.bind_eq_ok.mp h
  split at h
  · rename_i verifier hpoint
    obtain rfl := Except.pure_eq_ok.mp h
    exact ⟨_, hpoint⟩
  · cases h

theorem rsa_of_toRsaPublicKey {k : Jwk} {verify : Jwk.Verifier}
    (h : k.toRsaPublicKey H = .ok verify) : ∃ n e size, H.rsa n e = .ok (size, verify) := by
  unfold Jwk.toRsaPublicKey at h
  obtain ⟨-, h⟩ := Except.guard_eq_ok.mp h
  obtain ⟨n, -, h⟩ := Except.bind_eq_ok.mp h
  obtain ⟨e, -, h⟩ := Except.bind_eq_ok.mp h
  obtain ⟨nBytes, -, h⟩ := Except.bind_eq_ok.mp h
  obtain ⟨eBytes, -, h⟩ := Except.bind_eq_ok.mp h
  split at h
  · cases h
  · rename_i size verifier hkey
    obtain ⟨-, h⟩ := Except.guard_eq_ok.mp h
    obtain rfl := Except.pure_eq_ok.mp h
    exact ⟨_, _, _, hkey⟩

theorem verifyWithEmbeddedKey_raises (hH : H.VerifiersLabelled) (proof : DpopProof H) :
    Raises Labelled (DpopValidator.verifyWithEmbeddedKey proof) := by
  unfold DpopValidator.verifyWithEmbeddedKey
  refine .bind (signingInput_raises proof) fun _ _ =>
    .ite (fun _ => ?_) fun _ => .ite (fun _ => ?_) fun _ => raises_nameless rfl
  · refine .bind (toVerifyingKey_raises _) fun verify hverify => ?_
    obtain ⟨point, hpoint⟩ := p256_of_toVerifyingKey hverify
    exact hH.1 point verify hpoint _ _
  · refine .bind (toRsaPublicKey_raises _) fun verify hverify => ?_
    obtain ⟨n, e, size, hkey⟩ := rsa_of_toRsaPublicKey hverify
    exact hH.2 n e size verify hkey _ _

theorem validateWithoutJtiCommit_raises {σ : Type} (hH : H.VerifiersLabelled)
    (v : DpopValidator σ) (now : Int64) (proof : DpopProof H) (action : MoqtAction)
    (thumbprint : Bytes) (ath : Option Bytes) :
    Raises Labelled (v.validateWithoutJtiCommit now proof action thumbprint ath) := by
  unfold DpopValidator.validateWithoutJtiCommit
  refine .bind ?_ fun _ _ => .guard (fun _ => labelled_nameless rfl) fun _ =>
    .bind (jwkThumbprint_raises proof) fun _ _ => .guard (fun _ => labelled_nameless rfl) fun _ =>
    verifyWithEmbeddedKey_raises hH proof
  unfold DpopValidator.validateClaimsPreSig
  refine .guard (fun _ => labelled_nameless rfl) fun _ =>
    .guard (fun _ => labelled_nameless rfl) fun _ =>
    .guard (fun _ => labelled_nameless rfl) fun _ =>
    .guard (fun _ => labelled_nameless rfl) fun _ =>
    .guard (fun _ => labelled_nameless rfl) fun _ => .bind (jwkThumbprint_raises proof) fun _ _ =>
    .guard (fun _ => labelled_nameless rfl) fun _ => ?_
  unfold DpopValidator.checkAccessTokenHash
  split
  · exact raises_ok
  · split
    · exact .ite (fun _ => raises_ok) fun _ => raises_nameless rfl
    · exact raises_nameless rfl

theorem decodeSegment_raises (what : String) (seg : List Char) :
    Raises Labelled (decodeSegment H what seg) := by
  unfold decodeSegment
  split
  · exact raises_ok
  · exact raises_nameless rfl

theorem parseResourceQuery_raises (pairs : List (List Char)) :
    ∀ uri, Raises Labelled (parseResourceQuery H uri pairs) := by
  induction pairs with
  | nil => exact fun uri => raises_ok
  | cons pair pairs ih =>
    intro uri
    have hpair : Raises Labelled (parseResourcePair H uri pair) := by
      unfold parseResourcePair
      split
      · exact raises_nameless rfl
      · refine .ite (fun _ => ?_) fun _ => .ite (fun _ => ?_) fun _ => raises_nameless rfl
        · refine .guard (fun _ => labelled_nameless rfl) fun _ => .bind ?_ fun _ _ => raises_ok
          exact .mapM' fun seg _ => decodeSegment_raises _ seg
        · exact .bind (decodeSegment_raises _ _) fun _ _ => raises_ok
    rw [parseResourceQuery]
    cases h : parseResourcePair H uri pair with
    | error e => exact raises_error.mpr (hpair e h)
    | ok uri => exact ih uri

theorem parseMoqtResourceUri_raises (uri : String) :
    Raises Labelled (parseMoqtResourceUri H uri) := by
  unfold parseMoqtResourceUri
  refine .guard (fun _ => labelled_nameless rfl) fun _ =>
    .guard (fun _ => labelled_nameless rfl) fun _ =>
    .guard (fun _ => labelled_nameless rfl) fun _ =>
    .bind (parseResourceQuery_raises _ _) fun _ _ =>
    .guard (fun _ => labelled_nameless rfl) fun _ => raises_ok

theorem checkResourceUri_raises (proof : DpopProof H) (ctx : RelayRequestContext H) :
    Raises Labelled (MoqtValidator.checkResourceUri proof ctx) := by
  unfold MoqtValidator.checkResourceUri
  split
  · exact raises_ok
  · refine .bind (parseMoqtResourceUri_raises _) fun _ _ =>
      .guard (fun _ => labelled_nameless rfl) fun _ =>
      .guard (fun _ => labelled_nameless rfl) fun _ =>
      .guard (fun _ => labelled_nameless rfl) fun _ => ?_
    unfold enforceResourceShape
    split
    · exact .ite (fun _ => raises_nameless rfl) fun _ => raises_ok
    · exact .guard (fun _ => labelled_nameless rfl) fun _ =>
        .ite (fun _ => raises_nameless rfl) fun _ => raises_ok
    · exact .ite (fun _ => raises_nameless rfl) fun _ => raises_ok

theorem enforceActxShape_raises (action : MoqtAction) (actx : AuthorizationContext) :
    Raises Labelled (enforceActxShape action actx) := by
  unfold enforceActxShape
  cases action.resourceShape with
  | endpoint =>
    exact .guard (fun _ => labelled_nameless rfl) fun _ =>
      .ite (fun _ => raises_nameless rfl) fun _ => raises_ok
  | namespaceTuple =>
    exact .guard (fun _ => labelled_nameless rfl) fun _ =>
      .ite (fun _ => raises_nameless rfl) fun _ => raises_ok
  | track => exact .ite (fun _ => raises_nameless rfl) fun _ => raises_ok

end

/-! ## The calls

All errors of the pipeline, put together from those of its sections. What a store fails with is
up to the store, and for those of the crate it is shown.
-/

section
variable {H : Host} {σ₀ σ γ : Type}

namespace MoqtValidator

variable (v : MoqtValidator σ)

/-- The restrictions in the order in which `authorize_precommit` checks them: the scopes, the key,
    the audience, and then each claim about the request. -/
theorem checkRestrictions_raises (t : CatToken) (ctx : RelayRequestContext H) :
    Raises Labelled (v.checkRestrictions t ctx) := by
  unfold checkRestrictions
  refine .bind ?_ fun _ _ => .guard (fun _ => labelled_nameless rfl) fun _ =>
    .bind ?_ fun _ _ => .guard (fun _ => by decide) fun _ => .guard (fun _ => by decide) fun _ =>
    .bind ?_ fun _ _ => .bind ?_ fun _ _ => .bind ?_ fun _ _ =>
    .bind (validateAllHeaders_raises t _) fun _ _ => .bind (enforceCatnip_raises t _ _) fun _ _ =>
    enforceGeo_raises t _
  · unfold validateMoqtClaims
    refine .bind ?_ fun _ _ => .forM fun scope _ => ?_
    · unfold checkRevalidation
      split
      · exact raises_ok
      · exact .ite (fun _ => raises_nameless rfl) fun _ =>
          .ite (fun _ => raises_nameless rfl) fun _ => raises_ok
    · unfold checkActions
      split
      · exact raises_nameless rfl
      · exact raises_ok
  · unfold checkAudience
    split
    · exact .ite (fun _ => raises_ok) fun _ => raises_nameless rfl
    · exact .ite (fun _ => raises_error.mpr (by decide)) fun _ => raises_ok
  · unfold enforceCatalpn
    split
    · exact raises_ok
    · split
      · exact raises_error.mpr (by decide)
      · exact .ite (fun _ => raises_ok) fun _ => raises_nameless rfl
  · unfold requireCatu
    refine .ite (fun _ => ?_) fun _ => raises_ok
    split
    · exact raises_error.mpr (by decide)
    · exact enforceCatu_raises t _
  · unfold requireCatm
    refine .ite (fun _ => ?_) fun _ => raises_ok
    split
    · exact raises_error.mpr (by decide)
    · exact validateMethod_raises t _

theorem checkCatpor_raises (env : Ambient) (t : CatToken) (list : Option CatPorBlockList) :
    Raises Labelled (checkCatpor env t list).1 := by
  unfold checkCatpor
  split
  · split
    · exact raises_error.mpr (by decide)
    · exact enforceCatpor_raises t env _
  · exact raises_ok

/-- The texts for a missing `cti` differ by the value of `catreplay`, and both are in the list. -/
theorem replayObligation_raises (t : CatToken) (configured : Bool) :
    Raises Labelled (replayObligation t configured) := by
  have hcti : ∀ missing ∈ ["cti required when catreplay=Prohibited",
      "cti required when catreplay=ReuseDetection"],
      Raises Labelled (requireCti t configured missing) := by
    intro missing hmissing
    unfold requireCti
    refine .ite (fun _ => raises_error.mpr (by decide)) fun _ => ?_
    split
    · exact raises_ok
    · rcases List.mem_cons.mp hmissing with rfl | hmissing
      · exact raises_error.mpr (by decide)
      · obtain rfl := List.mem_singleton.mp hmissing
        exact raises_error.mpr (by decide)
  unfold replayObligation
  split
  · exact raises_map.mpr (hcti _ List.mem_cons_self)
  · exact raises_map.mpr (hcti _ (List.mem_cons_of_mem _ List.mem_cons_self))
  · exact raises_ok
  · exact raises_ok

theorem checkProof_raises (hH : H.VerifiersLabelled) (env : Ambient) (token : ValidatedToken)
    (ctx : RelayRequestContext H) (cnf : ConfirmationClaim) :
    Raises Labelled (v.checkProof env token ctx cnf) := by
  unfold checkProof
  split
  · exact raises_nameless rfl
  · rename_i proof _
    split
    · exact raises_nameless rfl
    · refine .bind (jwkThumbprint_raises proof) fun _ _ =>
        .guard (fun _ => labelled_nameless rfl) fun _ =>
        .bind (validateWithoutJtiCommit_raises hH _ _ proof _ _ _) fun _ _ =>
        .bind ?_ fun _ _ => .bind ?_ fun _ _ => .bind (checkResourceUri_raises proof ctx) fun _ _ =>
        .bind (enforceActxShape_raises _ _) fun _ _ => .bind ?_ fun _ _ => raises_ok
      · unfold checkActxTarget
        split
        · exact raises_ok
        · exact .ite (fun _ => raises_nameless rfl) fun _ =>
            .ite (fun _ => raises_nameless rfl) fun _ => raises_ok
        · exact .ite (fun _ => raises_nameless rfl) fun _ =>
            .ite (fun _ => raises_nameless rfl) fun _ => raises_ok
      · unfold checkExpectedResource
        split
        · exact raises_ok
        · split
          · exact .ite (fun _ => raises_nameless rfl) fun _ => raises_ok
          · exact raises_nameless rfl
      · unfold checkNonce
        split
        · exact raises_ok
        · split
          · exact .ite (fun _ => raises_ok) fun _ => raises_nameless rfl
          · exact raises_nameless rfl

theorem authorizePrecommit_raises (hH : H.VerifiersLabelled) (env : Ambient)
    (token : ValidatedToken) (ctx : RelayRequestContext H) (configured : Bool)
    (list : Option CatPorBlockList) :
    Raises Labelled (v.authorizePrecommit env token ctx configured list).1 := by
  unfold authorizePrecommit
  split
  · rename_i e he
    exact raises_error.mpr (v.checkRestrictions_raises token.claims ctx e he)
  · split
    · rename_i e _ he
      refine raises_error.mpr (checkCatpor_raises env token.claims list e ?_)
      rw [he]
    · unfold obligations
      refine .bind (replayObligation_raises token.claims configured) fun _ _ => ?_
      split
      · exact raises_nameless rfl
      · refine .bind ?_ fun _ _ => raises_ok
        unfold dpopCommit
        split
        · exact raises_ok
        · exact v.checkProof_raises hH env token ctx _

theorem judgeReuse_raises (obligation : CatReplayObligation) {seen : Except CatError Bool}
    (h : Raises Labelled seen) : Raises Labelled (judgeReuse obligation seen) := by
  unfold judgeReuse
  split
  · exact .bind h fun _ _ => .ite (fun _ => raises_nameless rfl) fun _ => raises_ok
  · exact h

end MoqtValidator

namespace RelayCall

/-- What the call's own stores fail with. -/
def StoresLabelled : RelayCall H σ₀ σ γ → Prop
  | sync v guard _ _ =>
    (∀ d ∈ v.dpopValidator, ∀ now key iat s,
      Raises Labelled (d.jtiStore.checkAndInsert now key iat s).1) ∧
    ∀ G ∈ guard, ∀ cti g, Raises Labelled (G.checkAndRecord cti g).1
  | async v guard _ _ =>
    (∀ now key iat s, Raises Labelled (v.jtiStore.checkAndInsert now key iat s).1) ∧
    ∀ G ∈ guard, ∀ cti g, Raises Labelled (G.checkAndRecord cti g).1

variable {c : RelayCall H σ₀ σ γ}

theorem precommit_raises (hH : H.VerifiersLabelled) (env : Ambient)
    (list : Option CatPorBlockList) : Raises Labelled (c.precommit env list).1 := by
  cases c with
  | sync v guard token ctx =>
    cases guard with
    | none => exact v.authorizePrecommit_raises hH env token ctx false none
    | some G => exact v.authorizePrecommit_raises hH env token ctx true list
  | async v guard token ctx =>
    cases guard with
    | none => exact v.sync.authorizePrecommit_raises hH env token ctx false none
    | some G => exact v.sync.authorizePrecommit_raises hH env token ctx true list

theorem commitJti_raises (hc : c.StoresLabelled) (env : Ambient) (pre : PreCommit) (s : σ) :
    Raises Labelled (c.commitJti env pre s).1 := by
  cases c with
  | sync v guard token ctx =>
    show Raises Labelled (v.commitJti env pre s).1
    unfold MoqtValidator.commitJti
    split
    · exact raises_ok
    · split
      · exact raises_nameless rfl
      · rename_i d hd
        exact hc.1 d hd _ _ _ _
  | async v guard token ctx =>
    show Raises Labelled (v.commitJti env pre s).1
    unfold AsyncMoqtValidator.commitJti
    split
    · exact raises_ok
    · exact hc.1 _ _ _ _

theorem commitReplay_raises (hc : c.StoresLabelled) (pre : PreCommit) (g : γ) :
    Raises Labelled (c.commitReplay pre g).1 := by
  cases c with
  | sync v guard token ctx =>
    show Raises Labelled (MoqtValidator.commitReplay guard pre g).1
    unfold MoqtValidator.commitReplay
    split
    · exact raises_ok
    · rename_i obligation _
      cases guard with
      | none => exact raises_error.mpr (by decide)
      | some G => exact MoqtValidator.judgeReuse_raises obligation (hc.2 G rfl _ _)
  | async v guard token ctx =>
    show Raises Labelled (v.commitReplay guard pre g).1
    unfold AsyncMoqtValidator.commitReplay
    split
    · exact raises_ok
    · rename_i obligation _
      cases hguard : v.resolveReplayGuard guard with
      | error e =>
        have hresolve : Raises Labelled (v.resolveReplayGuard guard) := by
          unfold AsyncMoqtValidator.resolveReplayGuard
          split
          · exact raises_nameless rfl
          · exact .ite (fun _ => raises_nameless rfl) fun _ => raises_ok
        exact raises_error.mpr (hresolve e hguard)
      | ok G =>
        have hG := AsyncMoqtValidator.resolveReplayGuard_ok hguard
        exact MoqtValidator.judgeReuse_raises obligation (hc.2 G hG _ _)

end RelayCall

/-! ### The stores of the crate -/

theorem InMemoryStrictJtiStore.checkAndInsert_raises (s : InMemoryStrictJtiStore) (key : String)
    (iat : Int64) : Raises Labelled (s.checkAndInsert key iat).1 := by
  unfold checkAndInsert
  split
  · exact raises_nameless rfl
  · split
    · exact raises_nameless rfl
    · split
      · exact raises_nameless rfl
      · exact raises_ok

theorem AsyncInMemoryStrictJtiStore.checkAndInsert_raises (s : AsyncInMemoryStrictJtiStore)
    (key : String) (iat : Int64) : Raises Labelled (s.checkAndInsert key iat).1 := by
  unfold checkAndInsert
  split
  · exact raises_nameless rfl
  · split
    · exact raises_nameless rfl
    · split
      · exact raises_nameless rfl
      · exact raises_ok

theorem LruJtiStore.checkAndInsert_raises (s : LruJtiStore) (c : TimedInsert) :
    Raises Labelled (s.checkAndInsert c).1 := by
  unfold checkAndInsert
  split
  · exact raises_nameless rfl
  · split
    · exact raises_nameless rfl
    · exact raises_ok

end

/-! ## Main result

A failed call writes one line. That it is one, whatever a peer has put into its request, is what
makes a log of refusals readable by line.
-/

section
variable {ι : Type} [DecidableEq ι] {H : Host} {σ₀ σ γ : Type}
  {calls : ι → RelayCall H σ₀ σ γ}

/-- The step lemma. Only three of the six kinds of step end a call with an error, and each is the
    failure of one phase of it. -/
theorem RelayStep.labelled (hH : H.VerifiersLabelled) (hcalls : ∀ i, (calls i).StoresLabelled)
    {st st' : RelayState ι σ γ} {i : ι} (hstep : RelayStep calls st i st')
    (hst : ∀ i e, (st.phase i).outcome = some (.error e) → Labelled e) :
    ∀ i e, (st'.phase i).outcome = some (.error e) → Labelled e := by
  -- the phase of one call changes
  have hupdate : ∀ {ph : ι → CallPhase} {phase : CallPhase},
      (∀ j e, (ph j).outcome = some (.error e) → Labelled e) →
      (∀ e, phase.outcome = some (.error e) → Labelled e) →
      ∀ j e, (Function.update ph i phase j).outcome = some (.error e) → Labelled e := by
    intro ph phase hph hphase j e hj
    by_cases hji : j = i
    · subst hji
      rw [Function.update_self] at hj
      exact hphase e hj
    · rw [Function.update_of_ne hji] at hj
      exact hph j e hj
  have hfailed : ∀ {e e' : CatError},
      (some (.error e) : Option (Except CatError AuthorizedRequest)) = some (.error e') →
      e = e' := by
    rintro e e' ⟨⟩
    rfl
  cases hstep with
  | decide hph h => exact hupdate hst fun _ h => by cases h
  | @reject _ _ list _ _ _ env e hph h =>
    refine hupdate hst fun e' he' => hfailed he' ▸ ?_
    exact RelayCall.precommit_raises hH env list e (congrArg Prod.fst h)
  | enter hph h => exact hupdate hst fun _ h => by cases h
  | @bar s _ _ _ _ _ env pre e hph h =>
    refine hupdate hst fun e' he' => hfailed he' ▸ ?_
    exact RelayCall.commitJti_raises (hcalls i) env pre s e (congrArg Prod.fst h)
  | authorize hph h => exact hupdate hst fun _ h => by cases h
  | @refuse _ g _ _ _ _ pre e hph h =>
    refine hupdate hst fun e' he' => hfailed he' ▸ ?_
    exact RelayCall.commitReplay_raises (hcalls i) pre g e (congrArg Prod.fst h)

/-- **One line for each failure.** In every interleaving of any calls, whatever is presented:
each error names only claims and request fields of the list and has at most 2200 characters,
and every log of such errors is read back as one line for each, also by a reader that ends
lines at any control or format character.

Who presents tokens and requests can therefore fill a log, but cannot write anything in it that is
read as another line. -/
theorem failureLog_exact (hH : H.VerifiersLabelled) (hcalls : ∀ i, (calls i).StoresLabelled)
    {stores : RelayStores σ γ} {es : List ι} {st' : RelayState ι σ γ}
    (hrun : Run (RelayStep calls) ⟨stores, fun _ => .idle⟩ es st') {failures : List CatError}
    (hfailures : ∀ e ∈ failures, ∃ i, (st'.phase i).outcome = some (.error e)) :
    (∀ e ∈ failures, (∀ name ∈ e.names, name ∈ requestNames) ∧ e.display.length ≤ 2200) ∧
    ∀ breaks : Char → Bool, breaks '\n' = true → (∀ c, breaks c = true → isUnsafe c = true) →
      (errorLog failures).splitOnP breaks = failures.map (fun e => e.display.toList) ++ [[]] := by
  have hlabelled : ∀ i e, (st'.phase i).outcome = some (.error e) → Labelled e :=
    hrun.invariant (I := fun st => ∀ i e, (st.phase i).outcome = some (.error e) → Labelled e)
      (fun _ _ h => by cases h) fun _ _ _ hst hstep => hstep.labelled hH hcalls hst
  -- the invariant of the run, read at the calls that the log is about
  have hall : ∀ e ∈ failures, Labelled e := by
    intro e he
    obtain ⟨i, hi⟩ := hfailures e he
    exact hlabelled i e hi
  refine ⟨fun e he => ⟨(hall e he).names, (hall e he).length_le⟩, ?_⟩
  refine (errorLog_exact failures).mpr fun e he name hname => ?_
  exact requestNames_plain name ((hall e he).names name hname)

end

/-! A method that would write a line of its own. -/

def forgingCall : RelayCall .reference InMemoryStrictJtiStore InMemoryStrictJtiStore (List Bytes) :=
  .sync sampleMoqtValidator (some .ofList) restrictedToken
    { setupContext with requestMethod := some "PUT\nauthorized" }

def forgingError : CatError := .invalidClaimValue "Method not allowed: PUT\nauthorized"

example : forgingError.display =
    "Invalid claim value: Method not allowed: PUT\\x0aauthorized" := by
  decide +kernel

theorem failureLog_exact_forgingCall :
    (∀ e ∈ [forgingError], (∀ name ∈ e.names, name ∈ requestNames) ∧ e.display.length ≤ 2200) ∧
    ∀ breaks : Char → Bool, breaks '\n' = true → (∀ c, breaks c = true → isUnsafe c = true) →
      (errorLog [forgingError]).splitOnP breaks = [forgingError.display.toList] ++ [[]] := by
  have hhost : Host.VerifiersLabelled .reference := by
    refine ⟨?_, ?_⟩
    · intro point verify h
      cases h
    · intro n e size verify h
      cases h
  have hstores : forgingCall.StoresLabelled := by
    refine ⟨?_, ?_⟩
    · intro d hd now key iat s
      obtain rfl := Option.some.inj hd
      exact s.checkAndInsert_raises key iat
    · intro G hG cti g
      obtain rfl := Option.some.inj hG
      exact raises_ok
  have hrun : Run (RelayStep fun _ : Unit => forgingCall)
      ⟨⟨sampleJtiStore, [], none⟩, fun _ => .idle⟩ [()]
      ⟨⟨sampleJtiStore, [], none⟩, Function.update (fun _ => .idle) () (.rejected forgingError)⟩ :=
    .cons (@RelayStep.reject _ _ _ _ _ _ _ _ _ _ _ _ _ sampleAmbient _ rfl rfl) (.nil _)
  exact failureLog_exact hhost (fun _ => hstores) hrun fun e he =>
    ⟨(), by rw [List.mem_singleton.mp he]; rfl⟩

end Cat

end
