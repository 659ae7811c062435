import Cat.Cwt.Acceptance
import Cat.Cwt.EncodedKeys
import Cat.Dpop.CwtRoundTrip
import Cat.Lib.Cbor.Size
import Cat.Token.IssuerBinding

/-!
# A proof presented as a token

A proof in CBOR and a signed token are one kind of object: a tagged array whose signature covers
the same structure. Only the `typ` of the header tells them apart, and the token decoder does
not read it. `proof_not_token_iff` says when a proof is refused as a token all the same; the
payload of a proof written by this crate is no reason (`decodePayload_proof`).

Whether it matters depends on keys. A client's key verifies its proofs, and a relay that takes
this key for an issuer's would accept a proof as a token that its maker wrote for itself. What
stands in the way is that the resolver has to hand out that key, and that header and payload be
decoded as a token's. The theorem lists what of this is up to the proof: the algorithm, the
labels of the header, the size.

The payload has integer labels of the same registry, and the members a proof has are claims a
token may have, or claims the decoder skips as custom ones.
-/

set_option autoImplicit false

namespace Cat

open Cbor DecodeCounters

section
variable {H : Host}

/-! ## The header

Both kinds of header are maps with an algorithm under the same label, and a token's decoder
takes that and the key identifier and passes over the rest.
-/

theorem dpopHeaderMember_other {m m' : DpopHeaderMembers} {key : Int64} {v : Value}
    (h : dpopHeaderMember m key v = .ok m') (hkey : key ≠ coseHdrAlg) : m'.alg = m.alg := by
  unfold dpopHeaderMember at h
  rw [if_neg hkey] at h
  split at h
  · obtain ⟨_, -, hm⟩ := Except.bind_eq_ok.mp h
    obtain rfl := Except.pure_eq_ok.mp hm
    rfl
  · split at h
    · obtain rfl := Except.pure_eq_ok.mp h
      rfl
    · obtain rfl := Except.pure_eq_ok.mp h
      rfl

theorem headerEntry_alg (kid : Option Bytes) (n : Int64) :
    headerEntry none kid (i64Value coseHdrAlg) (i64Value n) = .ok (some n, kid) := by
  unfold headerEntry i64Value
  dsimp only
  rw [Integer.toI64?_ofI64, Integer.toI64?_ofI64]
  rfl

theorem headerEntry_other {alg : Option Int64} {kid : Option Bytes} {key : Int64} {v : Value}
    (h : key ≠ coseHdrAlg) : ∃ kid', headerEntry alg kid (i64Value key) v = .ok (alg, kid') := by
  have h1 : ¬key = 1 := h
  unfold headerEntry i64Value
  dsimp only
  rw [Integer.toI64?_ofI64]
  dsimp only
  rw [if_neg h1]
  by_cases h4 : key = 4
  · rw [if_pos h4]
    cases v with
    | bytes b => exact ⟨_, rfl⟩
    | text s => exact ⟨_, rfl⟩
    | _ => exact ⟨_, rfl⟩
  · rw [if_neg h4]
    exact ⟨_, rfl⟩

/-- The algorithm of a proof's header is the one the token decoder finds. -/
theorem headerEntries_of_members {ds : List (Int64 × Value)} :
    ∀ {m m' : DpopHeaderMembers} {kid : Option Bytes}, (ds.map Prod.fst).Nodup →
      (m.alg.isSome → coseHdrAlg ∉ ds.map Prod.fst) →
      ds.foldlM (fun m e => dpopHeaderMember m e.1 e.2) m = .ok m' →
      ∃ kid', headerEntries m.alg kid (labelled ds) = .ok (m'.alg, kid') := by
  induction ds with
  | nil =>
    intro m m' kid _ _ h
    obtain rfl := Except.pure_eq_ok.mp h
    exact ⟨kid, rfl⟩
  | cons d ds ih =>
    obtain ⟨key, v⟩ := d
    intro m m' kid hnd halg h
    obtain ⟨hkey, hrestnd⟩ := List.nodup_cons.mp hnd
    obtain ⟨m₁, hm, hrest⟩ := Except.bind_eq_ok.mp h
    have hm : dpopHeaderMember m key v = .ok m₁ := hm
    have hcons : ∀ alg₁ kid₁, headerEntry m.alg kid (i64Value key) v = .ok (alg₁, kid₁) →
        headerEntries m.alg kid (labelled ((key, v) :: ds)) =
          headerEntries alg₁ kid₁ (labelled ds) := by
      intro alg₁ kid₁ he
      show headerEntries m.alg kid ((i64Value key, v) :: labelled ds) = _
      rw [headerEntries, he]
    by_cases h1 : key = coseHdrAlg
    · subst h1
      obtain ⟨n, hn, hm₁⟩ := Except.bind_eq_ok.mp hm
      obtain rfl := asI64_eq_ok.mp hn
      obtain rfl := Except.pure_eq_ok.mp hm₁
      have hnone : m.alg = none := by
        cases hm : m.alg with
        | none => rfl
        | some a => exact absurd List.mem_cons_self (halg (by rw [hm]; rfl))
      obtain ⟨kid', hkid⟩ := @ih { m with alg := some n } m' kid hrestnd (fun _ => hkey) hrest
      refine ⟨kid', (hcons (some n) kid ?_).trans hkid⟩
      rw [hnone]
      exact headerEntry_alg kid n
    · have hsame := dpopHeaderMember_other hm h1
      obtain ⟨kid₁, hkid₁⟩ := @headerEntry_other m.alg kid key v h1
      obtain ⟨kid', hkid⟩ := @ih m₁ m' kid₁ hrestnd
        (fun hs hin => halg (hsame ▸ hs) (List.mem_cons_of_mem _ hin)) hrest
      rw [hsame] at hkid
      exact ⟨kid', (hcons _ _ hkid₁).trans hkid⟩

theorem extractHeaderInfo_proof {b : Bytes} {header : DpopHeader}
    (h : decodeDpopHeader H b = .ok header) :
    ∃ kid, extractHeaderInfo H b = .ok (header.alg, kid) := by
  obtain ⟨ds, m, key, hread, hnd, hm, halg, -⟩ := decodeDpopHeader_eq_ok.mp h
  obtain ⟨kid, hkid⟩ := @headerEntries_of_members ds {} m none hnd (by simp) hm
  refine ⟨kid, ?_⟩
  unfold extractHeaderInfo
  rw [hread]
  dsimp only
  rw [show headerEntries none none (labelled ds) = .ok (m.alg, kid) from hkid, halg]

/-- **The envelope of a proof is that of a token.** -/
theorem parseCoseEnvelope_proof {b : Bytes} {p : DpopProof H} (h : decodeCwtProof H b = .ok p) :
    ∃ kid, parseCoseEnvelope H b = .ok ⟨coseTagSign1, p.signedBytes.headerCbor,
      p.signedBytes.payloadCbor, p.signature, p.header.alg, kid⟩ := by
  obtain ⟨hlen, hread, hheader, -⟩ := decodeCwtProof_eq_ok.mp h
  obtain ⟨kid, hkid⟩ := extractHeaderInfo_proof hheader
  refine ⟨kid, ?_⟩
  have hsize : ¬b.length > maxTokenSize := not_lt.mpr hlen
  unfold parseCoseEnvelope
  rw [if_neg hsize, hread]
  show (if coseTagSign1 ≠ coseTagSign1 ∧ coseTagSign1 ≠ coseTagMac0 then
    Except.error CatError.invalidTokenFormat else _) = _
  rw [if_neg (fun hne => hne.1 rfl), hkid]
  rfl

/-! ## The payload

Its labels are those of a time and an identifier of the token profile, and a few that no claim
of the profile has, which become custom claims.
-/

/-- The claims a token decoder finds in the payload of a proof. -/
def proofClaims (payload : DpopPayload) : List (DecodedClaim × DecodeCounters) :=
  [(.iat payload.iat, 0)] ++ (payload.cti.map fun cti => (.cti cti, 0)).toList ++
    [(.custom cwtClaimActx (by decide) (actxToCbor payload.actx), 0)] ++
    (payload.nonce.map fun nonce => (.custom cwtClaimNonce (by decide) (.text nonce), 0)).toList ++
    (payload.ath.map fun ath => (.custom cwtClaimAth (by decide) (.bytes ath), 0)).toList

theorem acceptsEntries_proof {limits : CwtLimits} {composite : CompositeDecoder}
    (payload : DpopPayload) :
    AcceptsEntries H limits composite (labelled (dpopPayloadEntries payload))
      (proofClaims payload) := by
  have hiat : ∀ n : Int64, Accepts H limits composite (i64Value n) (.iat n) 0 := fun n =>
    ClaimForm.accepts ⟨.inl rfl, rfl⟩ (show isCompositeKey (i64Value claimIat) = false by decide)
  have hcti : ∀ x : Bytes, Accepts H limits composite (.bytes x) (.cti x) 0 := fun x =>
    ClaimForm.accepts ⟨rfl, rfl⟩ (show isCompositeKey (i64Value claimCti) = false by decide)
  have hcustom : ∀ (id : Int64) (hid : isReservedClaimId id = false),
      isCompositeKey (i64Value id) = false → ∀ v : Value,
        Accepts H limits composite v (.custom id hid v) 0 :=
    fun id hid hc v => ClaimForm.accepts ⟨rfl, rfl⟩ hc
  have hactx := hcustom cwtClaimActx (by decide) (by decide)
  have hnonce := hcustom cwtClaimNonce (by decide) (by decide)
  have hath := hcustom cwtClaimAth (by decide) (by decide)
  have hback : ∀ (nonce : Option String) (ath : Option Bytes), AcceptsEntries H limits composite
      (labelled ((nonce.map fun nonce => (cwtClaimNonce, Value.text nonce)).toList ++
        (ath.map fun ath => (cwtClaimAth, Value.bytes ath)).toList))
      ((nonce.map fun nonce => (.custom cwtClaimNonce (by decide) (.text nonce), 0)).toList ++
        (ath.map fun ath => (.custom cwtClaimAth (by decide) (.bytes ath), 0)).toList) := by
    intro nonce ath
    cases nonce with
    | none =>
      cases ath with
      | none => exact .nil
      | some x => exact .cons ⟨rfl, hath (.bytes x)⟩ .nil
    | some y =>
      cases ath with
      | none => exact .cons ⟨rfl, hnonce (.text y)⟩ .nil
      | some x => exact .cons ⟨rfl, hnonce (.text y)⟩ (.cons ⟨rfl, hath (.bytes x)⟩ .nil)
  obtain ⟨cti, iat, actx, ath, nonce⟩ := payload
  cases cti with
  | none =>
    have h := hback nonce ath
    exact .cons ⟨rfl, hiat iat⟩ (.cons ⟨rfl, hactx (actxToCbor actx)⟩ h)
  | some x =>
    have h := hback nonce ath
    exact .cons ⟨rfl, hiat iat⟩ (.cons ⟨rfl, hcti x⟩ (.cons ⟨rfl, hactx (actxToCbor actx)⟩ h))

theorem labelled_keys (ds : List (Int64 × Value)) :
    (labelled ds).map Prod.fst = (ds.map Prod.fst).map i64Value := by
  rw [labelled, List.map_map, List.map_map]
  rfl

theorem passes_actx (actx : AuthorizationContext) : Passes (actxToCbor actx) := by
  have horder := (show [actxType, actxAction, actxTns, actxTn, actxParameters].Pairwise
    fun a b => labelRank a < labelRank b by decide).sublist (actxEntries_labels actx)
  rw [actxToCbor_eq, passes_labels (labelled_keys _)]
  refine ⟨horder, ?_⟩
  obtain ⟨ctxType, action, tns, tn, resource⟩ := actx
  have htext : ∀ s, Passes (.text s) := fun s => passes_of_flat trivial
  have hresource : ∀ r, Passes (.map [(.text "resource", .text r)]) := fun r =>
    passes_map.mpr ⟨keysChecked_singleton _, by simpa using htext r⟩
  cases tn <;> cases resource <;> simp [actxEntries, labelled, htext, hresource]

theorem keysChecked_proof (payload : DpopPayload) :
    (Value.map (labelled (dpopPayloadEntries payload))).ValueMaps KeysChecked := by
  have hplain := readBack_labelled fun d hd => (dpopPayloadEntries_plain payload d hd).1
  have horder := (show [cwtClaimIat, cwtClaimCti, cwtClaimActx, cwtClaimNonce,
    cwtClaimAth].Pairwise fun a b => labelRank a < labelRank b by decide).sublist
      (dpopPayloadEntries_labels payload)
  have hpass : Passes (.map (labelled (dpopPayloadEntries payload))) := by
    rw [passes_labels (labelled_keys _)]
    refine ⟨horder, ?_⟩
    obtain ⟨cti, iat, actx, ath, nonce⟩ := payload
    have hiat : Passes (i64Value iat) := passes_of_flat trivial
    have hbytes : ∀ x, Passes (.bytes x) := fun x => passes_of_flat trivial
    have htext : ∀ x, Passes (.text x) := fun x => passes_of_flat trivial
    have hactx := passes_actx actx
    cases cti <;> cases nonce <;> cases ath <;>
      simp [dpopPayloadEntries, labelled, hactx, hiat, hbytes, htext]
  rwa [Passes, hplain] at hpass

theorem walkDepth_proof (payload : DpopPayload) :
    walkDepth (.map (labelled (dpopPayloadEntries payload))) ≤ 3 := by
  have hactx : walkDepth (actxToCbor payload.actx) ≤ 2 := by
    obtain ⟨ctxType, action, tns, tn, resource⟩ := payload.actx
    rw [actxToCbor_eq, walkDepth, walkDepthEntries_le]
    cases tn <;> cases resource <;>
      simp [actxEntries, labelled, walkDepth, walkDepthEntries]
  obtain ⟨cti, iat, actx, ath, nonce⟩ := payload
  rw [walkDepth, walkDepthEntries_le]
  cases cti <;> cases nonce <;> cases ath <;>
    simp [dpopPayloadEntries, labelled, walkDepth, i64Value] <;> exact Nat.add_le_add_left hactx 1

theorem proofClaims_cost (payload : DpopPayload) :
    (proofClaims payload).length ≤ 5 ∧ ∀ x ∈ proofClaims payload, x.2 = 0 := by
  obtain ⟨cti, iat, actx, ath, nonce⟩ := payload
  cases cti <;> cases nonce <;> cases ath <;> simp [proofClaims]

/-- **The payload of a proof is a claim set**: the time and the identifier are claims of the
    profile, the rest are custom claims. -/
theorem decodePayload_proof {payload : DpopPayload} {b : Bytes}
    (h : encodeDpopPayload H payload = .ok b) (hlen : b.length ≤ 16 * 1024) :
    ∃ t, decodePayload H b = .ok t := by
  obtain ⟨hitems, hfree⟩ := proofClaims_cost payload
  have hcustom : customClaims (proofClaims payload) ≤ 5 :=
    Nat.le_trans List.countP_le_length hitems
  have hwithin : Within .default (0 + entriesCost (proofClaims payload)) := by
    rw [zero_add, entriesCost_free hfree]
    exact within_itemCost (Nat.le_trans hitems (by decide))
  have hdec : decodePayloadWith H .default (decodeCompositeClaimWithCounters H .default 10) b 0 =
      _ :=
    decodePayloadWith_of hlen (read_dpopPayload h)
      (Nat.le_trans (walkDepth_proof payload) (by decide)) (keysChecked_proof payload)
      (acceptsEntries_proof payload) (Nat.le_trans hcustom (by decide)) hwithin
  refine ⟨((proofClaims payload).map Prod.fst).foldl CatToken.assign .new, ?_⟩
  unfold decodePayload decodePayloadWithLimits decodePayloadWithLimitsAndCounters
  exact Except.map_eq_ok.mpr ⟨_, hdec, rfl⟩

/-! ## The token

What is left are reasons that have nothing to do with the kind of object: another algorithm,
another key, sizes and limits.
-/

/-- The signature of the proof verifies under the key. -/
def DpopProof.VerifiedBy (p : DpopProof H) (key : CryptographicAlgorithm) : Prop :=
  ∃ input, p.signingInput = .ok input ∧ key.verify input p.signature = .ok ()

/-- **A verified proof is accepted as a token** by a decoder with the key, if the algorithms
    agree and its payload is a claim set. -/
theorem decodeSigned_proof {b : Bytes} {p : DpopProof H} {key : CryptographicAlgorithm}
    (h : decodeCwtProof H b = .ok p) (hkey : p.VerifiedBy key) :
    (∃ v, (Decoder.withAlgorithm key).decodeSigned H b = .ok v) ↔
      key.algorithmId ≠ algHmac256_256 ∧ key.algorithmId = p.header.alg ∧
        ∃ t, decodePayload H p.signedBytes.payloadCbor = .ok t := by
  obtain ⟨kid, henvelope⟩ := parseCoseEnvelope_proof h
  obtain ⟨-, hread, hheader, hpayload, hcwt, -⟩ := decodeCwtProof_eq_ok.mp h
  have hcovered := decodeCwtProof_covered h
  obtain ⟨input, hinput, hverify⟩ := hkey
  obtain ⟨bytes, hbytes, hsign⟩ := Except.bind_eq_ok.mp hinput
  obtain rfl := Except.ok.inj (hcovered.symm.trans hbytes)
  rw [hcwt] at hsign
  have hsign : createSigningInput H p.signedBytes.headerCbor p.signedBytes.payloadCbor
      p.header.alg = .ok input := hsign
  have hselect : (Decoder.withAlgorithm key).selectAlgorithm
      ⟨coseTagSign1, p.signedBytes.headerCbor, p.signedBytes.payloadCbor, p.signature,
        p.header.alg, kid⟩ b = .ok key := rfl
  constructor
  · rintro ⟨v, hv⟩
    obtain ⟨e, he, hv₁⟩ := Except.bind_eq_ok.mp hv
    obtain rfl := Except.ok.inj (henvelope.symm.trans he)
    obtain ⟨k, hk, hv₂⟩ := Except.bind_eq_ok.mp hv₁
    obtain rfl := Except.ok.inj (hselect.symm.trans hk)
    obtain ⟨htag, hv₃⟩ := Except.guard_eq_ok.mp hv₂
    obtain ⟨halg, hv₄⟩ := Except.guard_eq_ok.mp hv₃
    obtain ⟨_, -, hv₅⟩ := Except.bind_eq_ok.mp hv₄
    obtain ⟨_, -, hv₆⟩ := Except.bind_eq_ok.mp hv₅
    obtain ⟨t, ht, -⟩ := Except.bind_eq_ok.mp hv₆
    refine ⟨fun hmac => htag ?_, (not_not.mp halg).symm, t, ht⟩
    rw [if_pos hmac]
    exact show coseTagSign1 ≠ coseTagMac0 by decide
  · rintro ⟨hmac, halg, t, ht⟩
    rw [← halg] at hsign
    refine ⟨⟨t, ⟨p.header.alg, kid⟩, .signed, b⟩, ?_⟩
    refine Except.bind_eq_ok.mpr ⟨_, henvelope, ?_⟩
    refine Except.bind_eq_ok.mpr ⟨key, hselect, ?_⟩
    refine Except.guard_eq_ok.mpr ⟨by rw [if_neg hmac]; simp, ?_⟩
    refine Except.guard_eq_ok.mpr ⟨not_not.mpr halg.symm, ?_⟩
    refine Except.bind_eq_ok.mpr ⟨input, hsign, ?_⟩
    refine Except.bind_eq_ok.mpr ⟨(), hverify, ?_⟩
    exact Except.bind_eq_ok.mpr ⟨t, ht, rfl⟩

/-- **When a verified proof is refused as a token**, whatever its `typ`: for a key of another
    algorithm, for a message authentication code, or for a payload that is no claim set — which
    is never that of a proof this crate has written.

    A proof and a token are signed in the same way, over the same structure, and both have a `typ`
    in the header. The reader of proofs looks at it and the reader of tokens does not, so what keeps
    a proof from being a token is only what it happens to hold; and the payloads of proofs are claim
    sets with custom claims. -/
theorem proof_not_token_iff {b : Bytes} {p : DpopProof H} {key : CryptographicAlgorithm}
    (h : decodeCwtProof H b = .ok p) (hkey : p.VerifiedBy key) :
    ((∀ v, (Decoder.withAlgorithm key).decodeSigned H b ≠ .ok v) ↔
      key.algorithmId = algHmac256_256 ∨ key.algorithmId ≠ p.header.alg ∨
        ∀ t, decodePayload H p.signedBytes.payloadCbor ≠ .ok t) ∧
    (encodeDpopPayload H p.payload = .ok p.signedBytes.payloadCbor →
      ∃ t, decodePayload H p.signedBytes.payloadCbor = .ok t) := by
  constructor
  · have hiff := not_congr (decodeSigned_proof h hkey)
    rw [not_exists, not_and_or, not_and_or, not_not, not_exists] at hiff
    exact hiff
  · intro hpayload
    obtain ⟨hlen, hread, -⟩ := decodeCwtProof_eq_ok.mp h
    exact decodePayload_proof hpayload
      (Nat.le_trans (H.cbor.length_of_tagged hread (by simp)) hlen)

end

/-! ### A proof that is accepted -/

/-- A key for which every signature is good. -/
def acceptingKey : CryptographicAlgorithm where
  algorithmId := algEs256
  sign _ := .ok []
  verify _ _ := .ok ()

/-- A proof for `SUBSCRIBE` on the namespace `a`, with the algorithm ES256 and an empty
    signature. -/
def unsignedProof : Bytes :=
  [0xd2, 0x84, 0x58, 0x1f, 0xa3, 0x01, 0x26, 0x04, 0xa5, 0x01, 0x02, 0x03, 0x26, 0x20, 0x01, 0x21,
    0x40, 0x22, 0x40, 0x10, 0x6e, 0x64, 0x70, 0x6f, 0x70, 0x2d, 0x70, 0x72, 0x6f, 0x6f, 0x66, 0x2b,
    0x63, 0x77, 0x74, 0xa0, 0x58, 0x1c, 0xa2, 0x06, 0x18, 0x64, 0x19, 0x01, 0x90, 0xa3, 0x00, 0x64,
    0x6d, 0x6f, 0x71, 0x74, 0x01, 0x69, 0x53, 0x55, 0x42, 0x53, 0x43, 0x52, 0x49, 0x42, 0x45, 0x02,
    0x61, 0x61, 0x40]

theorem decodeCwtProof_unsignedProof : ∃ p, decodeCwtProof .reference unsignedProof = .ok p ∧
    p.header.typ = dpopTyp ∧ p.header.alg = algEs256 ∧ p.VerifiedBy acceptingKey := by
  have hdec : (decodeCwtProof .reference unsignedProof).map
      (fun p => (p.header.typ, p.header.alg, p.signingInput.toOption.isSome)) =
        .ok (dpopTyp, algEs256, true) := by decide +kernel
  obtain ⟨p, hp, heq⟩ := Except.map_eq_ok.mp hdec
  obtain ⟨htyp, heq⟩ := Prod.mk.inj heq
  obtain ⟨halg, hinput⟩ := Prod.mk.inj heq
  refine ⟨p, hp, htyp, halg, ?_⟩
  cases hsign : p.signingInput with
  | error e =>
    rw [hsign] at hinput
    cases hinput
  | ok input => exact ⟨input, hsign, rfl⟩

theorem proof_not_token_iff_unsignedProof : ∃ p : DpopProof .reference,
    ((∀ v, (Decoder.withAlgorithm acceptingKey).decodeSigned .reference unsignedProof ≠ .ok v) ↔
      acceptingKey.algorithmId = algHmac256_256 ∨ acceptingKey.algorithmId ≠ p.header.alg ∨
        ∀ t, decodePayload .reference p.signedBytes.payloadCbor ≠ .ok t) ∧
    (encodeDpopPayload .reference p.payload = .ok p.signedBytes.payloadCbor →
      ∃ t, decodePayload .reference p.signedBytes.payloadCbor = .ok t) := by
  obtain ⟨p, hp, -, -, hkey⟩ := decodeCwtProof_unsignedProof
  exact ⟨p, proof_not_token_iff hp hkey⟩

theorem decodeSigned_not_separated :
    ¬∀ (H : Host) (key : CryptographicAlgorithm) (b : Bytes) (p : DpopProof H),
      decodeCwtProof H b = .ok p → p.header.typ = dpopTyp → p.VerifiedBy key →
        ∀ v, (Decoder.withAlgorithm key).decodeSigned H b ≠ .ok v := by
  intro h
  obtain ⟨p, hp, htyp, -, hkey⟩ := decodeCwtProof_unsignedProof
  have haccepted : ((Decoder.withAlgorithm acceptingKey).decodeSigned .reference
      unsignedProof).map (fun v => v.claims.core.iss) = .ok none := by decide +kernel
  obtain ⟨v, hv, -⟩ := Except.map_eq_ok.mp haccepted
  exact h .reference acceptingKey unsignedProof p hp htyp hkey v hv

end Cat
