import Cat.Dpop.Validator
import Cat.Dpop.WireForms

/-!
# A proof between its maker and its reader

A client builds a proof for a request, signs it with its key and encodes it; a relay decodes it.
`decode_forRequest` says what the relay then has: a valid header, a key with the client's
thumbprint, a signature that verifies, and the payload as it was built, up to the tuple of names
that the format returns.

Everything here is what the round trips of the two formats give for a proof that was made by the
builders. The assumption on the client is that its signer and its public key belong together:
what it signs verifies under the key that the relay makes of the header. Nothing is assumed
about other keys.

The relay checks the signature over the bytes it received and not over what it read. So the
differences between what was built and what is read, where there are any, do not affect the
signature; they affect the comparison with the request, later.
-/

set_option autoImplicit false

namespace Cat

open Cbor

section
variable {H : Host} {R : JsonReader}

/-! ## Keys -/

/-- A signature under the key of a header. -/
def Jwk.verifies (H : Host) (jwk : Jwk) (alg : Int64) (message signature : Bytes) :
    Except CatError Unit := do
  if alg = algEs256 then
    let verify ← jwk.toVerifyingKey H
    verify message signature
  else if alg = algPs256 then
    let verify ← jwk.toRsaPublicKey H
    verify message signature
  else throw (.dpopAlgorithmNotSupported (toString alg.toInt))

theorem verifyWithEmbeddedKey_of_signingInput {p : DpopProof H} {input : Bytes}
    (h : p.signingInput = .ok input) :
    DpopValidator.verifyWithEmbeddedKey p =
      p.header.jwk.verifies H p.header.alg input p.signature := by
  unfold DpopValidator.verifyWithEmbeddedKey
  rw [h]
  rfl

/-- What a holder of a key has: a public key of a supported kind, and a signer whose
    signatures verify under it. -/
structure HolderKey (H : Host) (jwk : Jwk) (alg : Int64) (signer : CryptographicAlgorithm) :
    Prop where
  supported : alg ∈ supportedDpopCoseAlgorithms
  verifies : ∀ message signature, signer.sign message = .ok signature →
    jwk.verifies H alg message signature = .ok ()

theorem required_eq_ok {member : Option String} {missing s : String} :
    Jwk.required member missing = .ok s ↔ member = some s := by
  unfold Jwk.required
  cases member <;> simp

/-- The members that the thumbprint is made of are those that CBOR keeps. -/
theorem canonicalJson_coseForm {jwk : Jwk} {v : Value} {c : String}
    (hkey : jwkToCoseKey H jwk = .ok v) (h : jwk.canonicalJson = .ok c) :
    jwk.coseForm.canonicalJson = .ok c := by
  obtain ⟨kty, crv, x, y, n, e⟩ := jwk
  rcases jwkToCoseKey_eq_ok.mp hkey with ⟨hec, hcrv, -⟩ | ⟨hrsa, -⟩
  · obtain rfl : kty = "EC" := hec
    obtain rfl : crv = some "P-256" := hcrv
    obtain ⟨_, -, h₁⟩ := Except.bind_eq_ok.mp h
    obtain ⟨x', hx, h₂⟩ := Except.bind_eq_ok.mp h₁
    obtain ⟨y', hy, -⟩ := Except.bind_eq_ok.mp h₂
    obtain rfl : x = some x' := required_eq_ok.mp hx
    obtain rfl : y = some y' := required_eq_ok.mp hy
    exact h
  · obtain rfl : kty = "RSA" := hrsa
    obtain ⟨e', he, h₁⟩ := Except.bind_eq_ok.mp h
    obtain ⟨n', hn, -⟩ := Except.bind_eq_ok.mp h₁
    obtain rfl : e = some e' := required_eq_ok.mp he
    obtain rfl : n = some n' := required_eq_ok.mp hn
    exact h

theorem thumbprint_coseForm {jwk : Jwk} {v : Value} {t : Bytes}
    (hkey : jwkToCoseKey H jwk = .ok v) (h : jwk.thumbprint H = .ok t) :
    jwk.coseForm.thumbprint H = .ok t := by
  obtain ⟨c, hc, ht⟩ := Except.bind_eq_ok.mp h
  exact Except.bind_eq_ok.mpr ⟨c, canonicalJson_coseForm hkey hc, ht⟩

/-- The key that comes back verifies what the key did. -/
theorem verifies_coseForm {jwk : Jwk} {alg : Int64} {message signature : Bytes}
    (h : jwk.verifies H alg message signature = .ok ()) :
    jwk.coseForm.verifies H alg message signature = .ok () := by
  obtain ⟨kty, crv, x, y, n, e⟩ := jwk
  unfold Jwk.verifies at h ⊢
  by_cases hes : alg = algEs256
  · rw [if_pos hes] at h ⊢
    obtain ⟨verify, hverify, hok⟩ := Except.bind_eq_ok.mp h
    refine Except.bind_eq_ok.mpr ⟨verify, ?_, hok⟩
    obtain ⟨hec, h₁⟩ := Except.guard_eq_ok.mp hverify
    obtain ⟨hcrv, h₂⟩ := Except.guard_eq_ok.mp h₁
    obtain ⟨x', hx, h₃⟩ := Except.bind_eq_ok.mp h₂
    obtain ⟨y', hy, -⟩ := Except.bind_eq_ok.mp h₃
    obtain rfl : kty = "EC" := of_not_not hec
    obtain rfl : crv = some "P-256" := of_not_not hcrv
    obtain rfl : x = some x' := required_eq_ok.mp hx
    obtain rfl : y = some y' := required_eq_ok.mp hy
    exact hverify
  · rw [if_neg hes] at h ⊢
    by_cases hps : alg = algPs256
    · rw [if_pos hps] at h ⊢
      obtain ⟨verify, hverify, hok⟩ := Except.bind_eq_ok.mp h
      refine Except.bind_eq_ok.mpr ⟨verify, ?_, hok⟩
      obtain ⟨hrsa, h₁⟩ := Except.guard_eq_ok.mp hverify
      obtain ⟨n', hn, h₂⟩ := Except.bind_eq_ok.mp h₁
      obtain ⟨e', he, -⟩ := Except.bind_eq_ok.mp h₂
      obtain rfl : kty = "RSA" := of_not_not hrsa
      obtain rfl : n = some n' := required_eq_ok.mp hn
      obtain rfl : e = some e' := required_eq_ok.mp he
      exact hverify
    · rw [if_neg hps] at h
      exact absurd h Except.throw_ne_ok

/-! ## Signing -/

theorem sign_eq_ok {p signed : DpopProof H} {signer : CryptographicAlgorithm}
    (h : p.sign signer = .ok signed) : ∃ bytes input signature,
      encodeHeaderAndPayload H p.wireFormat p.header p.payload = .ok bytes ∧
      DpopProof.signingInputOf H p.wireFormat bytes p.header.alg = .ok input ∧
      signer.sign input = .ok signature ∧
      signed = { p with signature := signature, signedBytes := bytes } := by
  obtain ⟨-, h₁⟩ := Except.guard_eq_ok.mp h
  obtain ⟨bytes, hbytes, h₂⟩ := Except.bind_eq_ok.mp h₁
  obtain ⟨input, hinput, h₃⟩ := Except.bind_eq_ok.mp h₂
  obtain ⟨signature, hsignature, h₄⟩ := Except.bind_eq_ok.mp h₃
  exact ⟨bytes, input, signature, hbytes, hinput, hsignature, (Except.pure_eq_ok.mp h₄).symm⟩

/-- A signed proof is encoded over the bytes that were signed. -/
theorem encode_signed {p : DpopProof H} {bytes : SignedInput} {signature b : Bytes}
    (hbytes : encodeHeaderAndPayload H p.wireFormat p.header p.payload = .ok bytes)
    (h : ({ p with signature := signature, signedBytes := bytes } : DpopProof H).encode = .ok b) :
    DpopProof.wire H p.wireFormat bytes signature = .ok b := by
  obtain ⟨bytes', hcovered, hw⟩ := Except.bind_eq_ok.mp h
  unfold DpopProof.coveredBytes at hcovered
  split at hcovered
  · obtain rfl := Except.ok.inj (hbytes.symm.trans hcovered)
    exact hw
  · obtain rfl := Except.ok.inj hcovered
    exact hw

/-! ## What a relay reads -/

/-- The tuple of names a format returns. -/
def DpopWireFormat.namesBack (f : DpopWireFormat) (tns : List Bytes) : List Bytes :=
  match f with
  | .cwt => if tns = [] then [[]] else tns
  | .jwt => if tns = [[]] then [] else tns

/-- The one tuple it does not return. -/
theorem DpopWireFormat.namesBack_eq_iff {f : DpopWireFormat} {tns : List Bytes} :
    f.namesBack tns = tns ↔ (f = .cwt → tns ≠ []) ∧ (f = .jwt → tns ≠ [[]]) := by
  cases f with
  | cwt =>
    by_cases h : tns = []
    · simp [namesBack, h]
    · simp [namesBack, h]
  | jwt =>
    by_cases h : tns = [[]]
    · simp [namesBack, h]
    · simp [namesBack, h]

/-- What the relay has of a proof that was made with this header and this payload. -/
structure ReadAt (f : DpopWireFormat) (header : DpopHeader) (payload : DpopPayload)
    (q : DpopProof H) : Prop where
  alg : q.header.alg = header.alg
  typ : q.header.typ = header.typ
  payload_eq : q.payload = { payload with actx :=
    { payload.actx with tns := f.namesBack payload.actx.tns } }
  thumbprint : ∀ t, header.jwk.thumbprint H = .ok t → q.header.jwk.thumbprint H = .ok t
  verified : DpopValidator.verifyWithEmbeddedKey q = .ok ()

theorem decode_cwt_signed (hb : Base64Lawful H) {header : DpopHeader} {payload : DpopPayload}
    {bytes : SignedInput} {input signature b : Bytes} (haction : payload.actx.action ≠ .serverSetup)
    (henc : encodeHeaderAndPayload H .cwt header payload = .ok bytes)
    (hinput : DpopProof.signingInputOf H .cwt bytes header.alg = .ok input)
    (hverifies : header.jwk.verifies H header.alg input signature = .ok ())
    (hw : DpopProof.wire H .cwt bytes signature = .ok b) (hlen : b.length ≤ maxDpopWireSize) :
    ∃ q, DpopProof.decode H R b = .ok q ∧ ReadAt .cwt header payload q := by
  have hdec := decodeCwtProof_wire hb haction henc hw hlen
  obtain ⟨hbs, hheader, -⟩ := Except.bind_eq_ok.mp henc
  obtain ⟨key, hkey, -⟩ := encodeDpopHeader_eq_ok.mp hheader
  refine ⟨.cwtForm header payload bytes signature, ?_, rfl, rfl, rfl,
    fun t ht => thumbprint_coseForm hkey ht, ?_⟩
  · rw [DpopProof.decode, looksLikeJwt_cwt hw]
    exact hdec
  · have hsigned : (DpopProof.cwtForm header payload bytes signature : DpopProof H).signingInput =
        .ok input :=
      Except.bind_eq_ok.mpr ⟨_, decodeCwtProof_covered hdec, hinput⟩
    rw [verifyWithEmbeddedKey_of_signingInput hsigned]
    exact verifies_coseForm hverifies

theorem decode_jwt_signed (hb : Base64Lawful H) (L : JsonLaws H R) {header : DpopHeader}
    {payload : DpopPayload} {bytes : SignedInput} {input signature b : Bytes}
    (haction : payload.actx.action ≠ .serverSetup)
    (henc : encodeHeaderAndPayload H .jwt header payload = .ok bytes)
    (hinput : DpopProof.signingInputOf H .jwt bytes header.alg = .ok input)
    (hverifies : header.jwk.verifies H header.alg input signature = .ok ())
    (hw : DpopProof.wire H .jwt bytes signature = .ok b) (hlen : b.length ≤ maxDpopWireSize) :
    ∃ q, DpopProof.decode H R b = .ok q ∧ ReadAt .jwt header payload q := by
  have hdec := decodeJwtProof_wire hb L haction henc hw hlen
  obtain ⟨hbs, hheader, h₁⟩ := Except.bind_eq_ok.mp henc
  obtain ⟨pbs, hpayload, h₂⟩ := Except.bind_eq_ok.mp h₁
  obtain rfl := Except.pure_eq_ok.mp h₂
  have hne : ¬SignedInput.isEmpty ⟨hbs, pbs⟩ = true := by
    intro hempty
    obtain ⟨hh, hp⟩ : hbs = [] ∧ pbs = [] := by simpa [SignedInput.isEmpty] using hempty
    exact encodeJson_ne L hheader hpayload (hh.trans hp.symm)
  let q : DpopProof H := ⟨header, { payload with actx := payload.actx.readBackJson }, signature,
    ⟨hbs, pbs⟩, .jwt, none, by simp⟩
  refine ⟨q, ?_, rfl, rfl, rfl, fun t ht => ht, ?_⟩
  · rw [DpopProof.decode, looksLikeJwt_jwt hb hw]
    exact hdec
  · refine (verifyWithEmbeddedKey_of_signingInput ?_).trans hverifies
    refine Except.bind_eq_ok.mpr ⟨⟨hbs, pbs⟩, ?_, hinput⟩
    unfold DpopProof.coveredBytes
    rw [if_neg hne]

/-- What a client makes for a request. -/
def DpopProof.forRequest (H : Host) (iat : Int64) (action : MoqtAction) (namespaces : List Bytes)
    (track : Bytes) (alg : Int64) (jwk : Jwk) (f : DpopWireFormat) (id : String) (ath : Bytes) :
    DpopProof H :=
  (((createForMoqt H iat action namespaces track alg jwk).withWireFormat f).withReplayId
    (utf8 id)).withAccessTokenHash ath

/-- **A proof that was made for a request, signed and encoded is decoded**, and verifies. -/
theorem decode_forRequest (hb : Base64Lawful H) (L : JsonLaws H R) {iat : Int64}
    {action : MoqtAction} {namespaces : List Bytes} {track : Bytes} {alg : Int64} {jwk : Jwk}
    {f : DpopWireFormat} {id : String} {ath b : Bytes} {signer : CryptographicAlgorithm}
    {signed : DpopProof H} (haction : action ≠ .serverSetup) (hkey : HolderKey H jwk alg signer)
    (hsign : (DpopProof.forRequest H iat action namespaces track alg jwk f id ath).sign signer =
      .ok signed)
    (henc : signed.encode = .ok b) (hlen : b.length ≤ maxDpopWireSize) :
    ∃ q, DpopProof.decode H R b = .ok q ∧ ReadAt f ⟨alg, f.typ, jwk⟩
      ⟨some (utf8 id), iat, .newMoqt action namespaces track, some ath, none⟩ q := by
  obtain ⟨bytes, input, signature, hbytes, hinput, hsignature, rfl⟩ := sign_eq_ok hsign
  have hw := encode_signed hbytes henc
  have hverifies := hkey.verifies input signature hsignature
  cases f with
  | cwt => exact decode_cwt_signed hb haction hbytes hinput hverifies hw hlen
  | jwt => exact decode_jwt_signed hb L haction hbytes hinput hverifies hw hlen

end

end Cat
