import Cat.Cwt.Written
import Cat.Dpop.Origins
import Cat.Moqt.Mediation
import Cat.Token.EncryptedDecoder
import Cat.Token.Issue

/-!
# What is authorized was issued

A decoder accepts what its keys verify, and a key verifies what it was used for: to issue
tokens, and by a careless holder to sign proofs of possession too, which pass for tokens
(`decodeSigned_use`). A proof has no scopes. So whatever arrives, in the clear or encrypted, a
request that is authorized carries a token that was issued under one of the keys, with the
claims that its claims are read as and no others (`authorized_issued`).

The uses of a key are a set of tokens and proofs, and the assumption about signatures is that
the key verifies an input only if it is one that a use of it gave to sign. A token has one such
input and a proof another, over one structure, so that they cannot be told apart by the
signature; it is the payload of a proof that gives it away, since nothing in it is read as a
scope.

Between the signature and the authorized claims lie the decoder, the validator and, for an
encrypted token, another envelope. None of them changes a claim, and the theorem goes through
all of them from the bytes that arrived.
-/

set_option autoImplicit false

namespace Cat

open Cbor

/-! ## The uses of a key -/

inductive KeyUse (H : Host) where
  | token (t : CatToken)
  | proof (p : DpopProof H)

section
variable {H : Host}

/-- What the key is given to sign. -/
def KeyUse.Signs (key : CryptographicAlgorithm) : KeyUse H → Bytes → Prop
  | .token t, input => ∃ headerCbor payloadCbor, t.validateConstruction H = .ok () ∧
      encodeProtectedHeader H key = .ok headerCbor ∧ encodePayload H t = .ok payloadCbor ∧
      createSigningInput H headerCbor payloadCbor key.algorithmId = .ok input
  | .proof p, input => p.SignedOver input

/-- What `encode_token` has the key sign. -/
theorem signs_of_encodeToken {t : CatToken} {key : CryptographicAlgorithm} {b : Bytes}
    (h : encodeToken H t key = .ok b) :
    ∃ input signature, (KeyUse.token t : KeyUse H).Signs key input ∧
      key.sign input = .ok signature := by
  obtain ⟨headerCbor, payloadCbor, input, signature, hissued⟩ := encodeToken_eq_ok.mp h
  exact ⟨input, signature, ⟨headerCbor, payloadCbor, hissued.construction, hissued.header,
    hissued.payload, hissued.input⟩, hissued.signed⟩

/-- The key verifies what it was used to sign and nothing else. -/
def OnlyUsed (uses : Set (KeyUse H)) (key : CryptographicAlgorithm) : Prop :=
  ∀ input signature, key.verify input signature = .ok () → ∃ use ∈ uses, use.Signs key input

/-! ## What is decoded -/

/-- The keys that the decoder may come to. -/
def Decoder.MaySelect (d : Decoder) (key : CryptographicAlgorithm) : Prop :=
  match d.key with
  | .algorithm a => key = a
  | .resolver resolve => ∃ hint, resolve hint = .ok key

theorem Decoder.maySelect_of_select {d : Decoder} {envelope : ParsedCoseEnvelope} {b : Bytes}
    {key : CryptographicAlgorithm} (h : d.selectAlgorithm envelope b = .ok key) :
    d.MaySelect key := by
  have hpick : (match d.key with
      | .algorithm a => pure a
      | .resolver resolve => do
        let issuer ← peekIssuer envelope.payloadCbor
        resolve ⟨envelope.headerAlg, envelope.headerKid, issuer⟩) = Except.ok key := by
    unfold selectAlgorithm at h
    cases hadmission : d.admission with
    | none =>
      rw [hadmission] at h
      exact h
    | some policy =>
      rw [hadmission] at h
      obtain ⟨_, -, h⟩ := Except.bind_eq_ok.mp h
      exact h
  unfold MaySelect
  cases hkey : d.key with
  | algorithm a =>
    rw [hkey] at hpick
    exact (Except.pure_eq_ok.mp hpick).symm
  | resolver resolve =>
    rw [hkey] at hpick
    obtain ⟨issuer, -, hresolve⟩ := Except.bind_eq_ok.mp hpick
    exact ⟨_, hresolve⟩

/-- What a verified envelope has passed. -/
theorem verifyAndDecode_ok {envelope : ParsedCoseEnvelope} {key : CryptographicAlgorithm}
    {limits : CwtLimits} {b : Bytes} {v : VerifiedToken}
    (h : verifyAndDecode H envelope key limits b = .ok v) :
    envelope.headerAlg = key.algorithmId ∧
      (∃ input, envelope.signingInput H key.algorithmId = .ok input ∧
        key.verify input envelope.signature = .ok ()) ∧
      decodePayloadWithLimits H limits envelope.payloadCbor = .ok v.token ∧
      v.header = envelope.header := by
  obtain ⟨-, h₁⟩ := Except.guard_eq_ok.mp h
  obtain ⟨halg, h₂⟩ := Except.guard_eq_ok.mp h₁
  obtain ⟨input, hinput, h₃⟩ := Except.bind_eq_ok.mp h₂
  obtain ⟨_, hverify, h₄⟩ := Except.bind_eq_ok.mp h₃
  obtain ⟨token, htoken, h₅⟩ := Except.bind_eq_ok.mp h₄
  obtain rfl := Except.pure_eq_ok.mp h₅
  exact ⟨not_not.mp halg, ⟨input, hinput, hverify⟩, htoken, rfl⟩

/-- The token is one that was issued with the key, as it is read. -/
structure IssuedWith (H : Host) (limits : CwtLimits) (key : CryptographicAlgorithm) (t : CatToken)
    (header : TokenHeader) (claims : CatToken) : Prop where
  header_eq : header = ⟨key.algorithmId, none⟩
  has_iff : ∀ d', claims.Has d' ↔
    (∃ d ∈ t.claims, ∃ c, ReadsAs H limits d d' c) ∧ d'.IsSet

/-- The header names the algorithm and no key. -/
theorem extractHeaderInfo_of_parse {b : Bytes} {envelope : ParsedCoseEnvelope}
    (h : parseCoseEnvelope H b = .ok envelope) :
    extractHeaderInfo H envelope.headerCbor = .ok (envelope.headerAlg, envelope.headerKid) := by
  unfold parseCoseEnvelope at h
  split at h
  · cases h
  · split at h
    · cases h
    · split at h
      · cases h
      · split at h
        · split at h
          · cases h
          · obtain ⟨⟨alg, kid⟩, hinfo, rfl⟩ := Except.map_eq_ok.mp h
            exact hinfo
        · cases h

/-- A payload of a proof that is taken for a claim set has no scopes. -/
theorem moqt_of_proof {limits : CwtLimits} {payload : DpopPayload} {b : Bytes} {t : CatToken}
    (h : encodeDpopPayload H payload = .ok b)
    (hdec : decodePayloadWithLimits H limits b = .ok t) : t.moqt.moqt = none := by
  obtain ⟨es, ds, hto⟩ := decodePayloadWithLimits_ok hdec
  have heq := (read_dpopPayload h).symm.trans hto.read_eq
  simp only [Except.ok.injEq, Prod.mk.injEq, and_true, Value.map.injEq] at heq
  cases hscopes : t.moqt.moqt with
  | none => rfl
  | some scopes =>
    obtain ⟨v, c, hv, -⟩ := hto.entry_of_has
      (show isCompositeKey (i64Value (DecodedClaim.moqt scopes).label) = false from by
        rw [DecodedClaim.label]; decide) (show t.Has (.moqt scopes) from hscopes)
    rw [← heq] at hv
    obtain ⟨e, he, heq⟩ := List.mem_map.mp hv
    have hlabel : e.1 ∈ [cwtClaimIat, cwtClaimCti, cwtClaimActx, cwtClaimNonce, cwtClaimAth] :=
      (dpopPayloadEntries_labels payload).subset (List.mem_map_of_mem he)
    have hmoqt : e.1 = claimMoqt := by
      have hkey := congrArg Prod.fst heq
      exact i64Value_inj.mp hkey
    rw [hmoqt] at hlabel
    exact absurd hlabel (by decide)

variable {d : Decoder} {b : Bytes} {v : VerifiedToken}
  {uses : CryptographicAlgorithm → Set (KeyUse H)}

/-- **What a decoder accepts** is what one of its keys was used for: a token that was issued, or a
    proof, and then it has no scopes. -/
theorem decodeSigned_use (hb : Base64Lawful H)
    (hkeys : ∀ key, d.MaySelect key → OnlyUsed (uses key) key) (h : d.decodeSigned H b = .ok v) :
    ∃ key, d.MaySelect key ∧
      ((∃ t, .token t ∈ uses key ∧ IssuedWith H d.limits key t v.header v.token) ∨
        (∃ p, .proof p ∈ uses key ∧ p.wireFormat = .cwt) ∧ v.token.moqt.moqt = none) := by
  obtain ⟨envelope, henvelope, h₁⟩ := Except.bind_eq_ok.mp h
  obtain ⟨key, hkey, h₂⟩ := Except.bind_eq_ok.mp h₁
  have hselect := Decoder.maySelect_of_select hkey
  obtain ⟨halg, ⟨input, hinput, hverify⟩, htoken, hheader⟩ := verifyAndDecode_ok h₂
  refine ⟨key, hselect, ?_⟩
  obtain ⟨use, huse, hsigns⟩ := hkeys key hselect input _ hverify
  cases use with
  | token t =>
    obtain ⟨headerCbor, payloadCbor, -, hheaderCbor, hpayloadCbor, hsigned⟩ := hsigns
    obtain ⟨-, heqHeader, heqPayload⟩ := createCoseStructure_inj hinput hsigned
    have hinfo := extractHeaderInfo_of_parse henvelope
    rw [heqHeader, extractHeaderInfo_issued hheaderCbor] at hinfo
    obtain ⟨halg', hkid⟩ := Prod.mk.inj (Except.ok.inj hinfo)
    rw [heqPayload] at htoken
    refine .inl ⟨t, huse, ⟨?_, (decode_written_ok hpayloadCbor htoken).2⟩⟩
    rw [hheader, ParsedCoseEnvelope.header, ← halg', ← hkid]
  | proof p =>
    obtain ⟨bytes, hbytes, hsigned⟩ := hsigns
    cases hformat : p.wireFormat with
    | cwt =>
      rw [hformat] at hbytes hsigned
      obtain ⟨-, -, heqPayload⟩ := createCoseStructure_inj hinput hsigned
      obtain ⟨hbs, -, h₃⟩ := Except.bind_eq_ok.mp hbytes
      obtain ⟨pbs, hpayload, h₄⟩ := Except.bind_eq_ok.mp h₃
      obtain rfl := Except.pure_eq_ok.mp h₄
      rw [heqPayload] at htoken
      exact .inr ⟨⟨p, huse, hformat⟩, moqt_of_proof hpayload htoken⟩
    | jwt =>
      -- the text of a proof in JSON is not an array in CBOR
      rw [hformat] at hsigned
      obtain ⟨c, rest, rfl, hc⟩ := createCoseStructure_head hinput
      exact absurd (jwsSigningInput_head hb bytes (Except.ok.inj hsigned)) hc

/-! ## What is authorized -/

theorem VerifiedToken.validate_ok {validator : CatTokenValidator} {now : Int64}
    {token : ValidatedToken} (h : v.validate validator now = .ok token) :
    token.claims = v.token ∧ token.header = v.header := by
  unfold validate at h
  split at h
  · cases h
  · obtain rfl := Except.ok.inj h
    exact ⟨rfl, rfl⟩

/-- A decoder that decrypts decodes the token inside. -/
theorem decode_inner {G : AesGcm} {d : ContentDecoder} (h : d.decode H G b = .ok v) :
    ∃ inner w, d.decodeSigned H inner = .ok w ∧ v.token = w.token ∧ v.header = w.header := by
  unfold ContentDecoder.decode at h
  cases hkey : d.encryptionKey with
  | none =>
    rw [hkey] at h
    exact ⟨b, v, h, rfl, rfl⟩
  | some contentKey =>
    rw [hkey] at h
    obtain ⟨inner, -, h₁⟩ := Except.bind_eq_ok.mp h
    obtain ⟨w, hw, h₂⟩ := Except.bind_eq_ok.mp h₁
    obtain rfl := Except.pure_eq_ok.mp h₂
    exact ⟨inner, w, hw, rfl, rfl⟩

/-- **An authorized request carries an issued token**: whatever bytes were decoded, validated and
    authorized, one of the decoder's keys was used to issue a token whose claims are read as the
    claims of the request's token, and these are all it has.

    A proof that was signed with one of the keys may well be decoded as a token. It has no scopes,
    so it authorizes nothing. -/
theorem authorized_issued (hb : Base64Lawful H) {σ γ : Type} {G : AesGcm} {d : ContentDecoder}
    (hkeys : ∀ key, d.MaySelect key → OnlyUsed (uses key) key) (h : d.decode H G b = .ok v)
    {validator : CatTokenValidator} {now : Int64} {token : ValidatedToken}
    (hvalid : v.validate validator now = .ok token) {relay : MoqtValidator σ}
    {guard : Option (ReplayGuard γ)} {env : Ambient} {ctx : RelayRequestContext H}
    {st : RelayStores σ γ} {r : AuthorizedRequest}
    (hauth : (relay.authorizeCall guard env token ctx st).1 = .ok r) :
    ∃ key t, d.MaySelect key ∧ .token t ∈ uses key ∧
      IssuedWith H d.limits key t token.header token.claims := by
  obtain ⟨hclaims, hheader⟩ := VerifiedToken.validate_ok hvalid
  obtain ⟨inner, w, hw, htoken, hinner⟩ := decode_inner h
  obtain ⟨key, hselect, hissued | ⟨-, hscopes⟩⟩ := decodeSigned_use hb hkeys hw
  · obtain ⟨t, huse, hissued⟩ := hissued
    rw [hclaims, hheader, htoken, hinner]
    exact ⟨key, t, hselect, huse, hissued⟩
  · -- a token without scopes matches no request
    obtain ⟨pre, hpre, -⟩ := MoqtValidator.authorizeCall_ok hauth
    have hob := (MoqtValidator.authorizePrecommit_ok hpre).2.2
    obtain ⟨-, hscope, -⟩ := MoqtValidator.obligations_ok hob
    unfold MoqtValidator.matchScopeIndex at hscope
    rw [hclaims, htoken, hscopes] at hscope
    cases hscope

end

/-! ### A token for a setup -/

def setupIssued : CatToken := setupToken {} none

/-- Its header, and its claims: the audience and a scope. -/
def setupIssuedHeader : Bytes := [0xa2, 0x01, 0x05, 0x10, 0x63, 0x43, 0x41, 0x54]

def setupIssuedPayload : Bytes :=
  [0xa2, 0x03, 0x81, 0x65, 0x72, 0x65, 0x6c, 0x61, 0x79, 0x19, 0x01, 0x47, 0x81, 0x81, 0x81, 0x00]

def setupIssuedInput : Bytes :=
  [0x84, 0x64, 0x4d, 0x41, 0x43, 0x30, 0x48] ++ setupIssuedHeader ++ [0x40, 0x50] ++
    setupIssuedPayload

/-- A key that was used for this token. The code it makes of an input are its first bytes. -/
def setupIssuingKey : CryptographicAlgorithm where
  algorithmId := algHmac256_256
  sign input := .ok (input.take 4)
  verify input signature :=
    if input = setupIssuedInput ∧ signature = input.take 4 then .ok ()
    else .error .signatureVerificationFailed

def setupIssuedBytes : Bytes :=
  [0xd1, 0x84, 0x48] ++ setupIssuedHeader ++ [0xa0, 0x50] ++ setupIssuedPayload ++
    [0x44, 0x84, 0x64, 0x4d, 0x41]

theorem setupIssued_signs :
    (KeyUse.token setupIssued : KeyUse .reference).Signs setupIssuingKey setupIssuedInput :=
  ⟨setupIssuedHeader, setupIssuedPayload, by decide +kernel, by decide +kernel,
    by decide +kernel, by decide +kernel⟩

/-- The one use of the one key. -/
def setupUses (_ : CryptographicAlgorithm) : Set (KeyUse .reference) := {.token setupIssued}

theorem setupUses_onlyUsed (key : CryptographicAlgorithm)
    (hkey : (Decoder.withAlgorithm setupIssuingKey).MaySelect key) :
    OnlyUsed (setupUses key) key := by
  obtain rfl : key = setupIssuingKey := hkey
  intro input signature hverify
  have hverify : (if input = setupIssuedInput ∧ signature = input.take 4 then .ok ()
      else .error CatError.signatureVerificationFailed) = Except.ok () := hverify
  split at hverify
  · rename_i hinput
    rw [hinput.1]
    exact ⟨_, rfl, setupIssued_signs⟩
  · cases hverify

theorem authorized_issued_setup : ∃ v token r,
    (Decoder.withAlgorithm setupIssuingKey).signedOnly.decode .reference zeroGcm setupIssuedBytes =
      .ok v ∧ v.validate sampleTokenValidator 0 = .ok token ∧
    ((({} : MoqtValidator Unit).authorizeCall (none : Option (ReplayGuard (List Bytes)))
      sampleAmbient token setupContext sampleStores).1) = .ok r ∧
    ∃ t, t = setupIssued ∧
      IssuedWith .reference .default setupIssuingKey t token.header token.claims := by
  have hrun : (do
      let v ← (Decoder.withAlgorithm setupIssuingKey).signedOnly.decode .reference zeroGcm
        setupIssuedBytes
      let token ← v.validate sampleTokenValidator 0
      (({} : MoqtValidator Unit).authorizeCall (none : Option (ReplayGuard (List Bytes)))
        sampleAmbient token setupContext sampleStores).1) = .ok { matchedScopeIndex := 0 } := by
    decide +kernel
  obtain ⟨v, hv, hrun⟩ := Except.bind_eq_ok.mp hrun
  obtain ⟨token, htoken, hauth⟩ := Except.bind_eq_ok.mp hrun
  obtain ⟨key, t, hkey, ht, hissued⟩ := authorized_issued
    (base64Lawful_of_reference (fun _ => rfl) fun _ => rfl) setupUses_onlyUsed hv htoken hauth
  obtain rfl : key = setupIssuingKey := hkey
  exact ⟨v, token, _, hv, htoken, hauth, t, KeyUse.token.inj ht, hissued⟩

end Cat
