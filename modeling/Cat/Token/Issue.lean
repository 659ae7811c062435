import Cat.Cwt.Encode
import Cat.Cwt.EncodedKeys
import Cat.Lib.Cbor.Size
import Cat.Token.Decoder

/-!
# Issuing a token

`encode_token` checks what it calls the construction of a token, encodes the claims, signs them
and puts both in an envelope. The envelope of a token that was issued is read as it was written,
so a decoder with the same key comes to the claims' payload and to nothing else
(`decodeSigned_issued_iff`).

The equivalence leaves one question, what becomes of the payload, and it is here that results
about the payload codec turn into results about tokens. What the key has to do with it is that
it accepts what it has signed, which is a hypothesis; that it accepts nothing else is not needed
for a token to come through.
-/

set_option autoImplicit false

namespace Cat

open Cbor

structure CwtHeader where
  alg : Int64
  kid : Option String
  typ : Option String
  deriving DecidableEq

structure Cwt where
  header : CwtHeader
  payload : CatToken
  signature : Bytes

def Cwt.new (alg : Int64) (payload : CatToken) : Cwt := ⟨⟨alg, none, some "CAT"⟩, payload, []⟩

section
variable (H : Host)

/-- The ranges of a coordinate. A NaN is on neither side of a bound. -/
def GeoCoordinate.validateConstruction (c : GeoCoordinate) : Except CatError Unit := do
  if F64.lt c.lat (F64.ofInt (-90)) || F64.lt (F64.ofInt 90) c.lat then
    throw (.invalidClaimValue s!"latitude {H.formatF64 c.lat} out of range [-90, 90]")
  if F64.lt c.lon (F64.ofInt (-180)) || F64.lt (F64.ofInt 180) c.lon then
    throw (.invalidClaimValue s!"longitude {H.formatF64 c.lon} out of range [-180, 180]")

def CatDpopSettings.validateConstruction (s : CatDpopSettings) : Except CatError Unit := do
  if s.effectiveWindow < 0 then
    throw (.invalidClaimValue "DPoP window must not be negative")

/-- `CatToken::validate_construction`. -/
def CatToken.validateConstruction (t : CatToken) : Except CatError Unit := do
  match t.cat.catgeocoord with
  | some coords => coords.forM (GeoCoordinate.validateConstruction H)
  | none => pure ()
  match t.dpop.catdpop with
  | some dpop => dpop.validateConstruction
  | none => pure ()

/-- The protected header of an issued token, in label order. -/
def encodeProtectedHeader (algorithm : CryptographicAlgorithm) : Except CatError Bytes :=
  let header := (Cwt.new algorithm.algorithmId .new).header
  writeCbor H (.map ([(i64Value 1, i64Value header.alg)] ++ optMember 4 header.kid .text ++
    optMember 16 header.typ .text))

def coseTag (algId : Int64) : UInt64 := if algId = algHmac256_256 then coseTagMac0 else coseTagSign1

/-- `encode_token`. -/
def encodeToken (t : CatToken) (algorithm : CryptographicAlgorithm) : Except Failure Bytes := do
  (t.validateConstruction H : Except CatError Unit)
  let headerCbor ← (encodeProtectedHeader H algorithm : Except CatError Bytes)
  let payloadCbor ← encodePayload H t
  let signingInput ← (createSigningInput H headerCbor payloadCbor algorithm.algorithmId :
    Except CatError Bytes)
  let signature ← (algorithm.sign signingInput : Except CatError Bytes)
  writeCbor H (.tag (coseTag algorithm.algorithmId)
    (.array [.bytes headerCbor, .map [], .bytes payloadCbor, .bytes signature]))

end

section
variable {H : Host} {t : CatToken} {algorithm : CryptographicAlgorithm} {b : Bytes}

/-- What was issued: a token with a valid construction, in an envelope with its header, payload
    and signature. -/
structure IssuedEnvelope (H : Host) (t : CatToken) (algorithm : CryptographicAlgorithm)
    (headerCbor payloadCbor signingInput signature b : Bytes) : Prop where
  construction : t.validateConstruction H = .ok ()
  header : encodeProtectedHeader H algorithm = .ok headerCbor
  payload : encodePayload H t = .ok payloadCbor
  input : createSigningInput H headerCbor payloadCbor algorithm.algorithmId = .ok signingInput
  signed : algorithm.sign signingInput = .ok signature
  envelope : H.cbor.write (.tag (coseTag algorithm.algorithmId)
    (.array [.bytes headerCbor, .map [], .bytes payloadCbor, .bytes signature])) = .ok b

theorem encodeToken_eq_ok : encodeToken H t algorithm = .ok b ↔
    ∃ headerCbor payloadCbor signingInput signature,
      IssuedEnvelope H t algorithm headerCbor payloadCbor signingInput signature b := by
  unfold encodeToken
  simp only [Except.bind_eq_ok, Failure.lift_eq_ok, writeCbor_eq_ok]
  constructor
  · rintro ⟨_, hc, header, hh, payload, hp, input, hi, signature, hs, he⟩
    exact ⟨header, payload, input, signature, hc, hh, hp, hi, hs, he⟩
  · rintro ⟨header, payload, input, signature, hissued⟩
    exact ⟨(), hissued.construction, header, hissued.header, payload, hissued.payload, input,
      hissued.input, signature, hissued.signed, hissued.envelope⟩

/-! ## The envelope -/

theorem coseTag_eq (algId : Int64) : coseTag algId = coseTagSign1 ∨ coseTag algId = coseTagMac0 := by
  unfold coseTag
  split
  · exact .inr rfl
  · exact .inl rfl

/-- The envelope is read as it was written. -/
theorem readBack_envelope (algId : Int64) (vs : List Value) :
    (Value.tag (coseTag algId) (.array vs)).readBack =
      .tag (coseTag algId) (.array (Value.readBackList vs)) := by
  rcases coseTag_eq algId with h | h <;> rw [h] <;> rfl

/-- The header of an issued token names its algorithm and no key. -/
theorem extractHeaderInfo_issued {headerCbor : Bytes}
    (h : encodeProtectedHeader H algorithm = .ok headerCbor) :
    extractHeaderInfo H headerCbor = .ok (algorithm.algorithmId, none) := by
  have hw : H.cbor.write (.map [(i64Value 1, i64Value algorithm.algorithmId),
      (i64Value 16, .text "CAT")]) = .ok headerCbor := writeCbor_eq_ok.mp h
  have hread := H.cbor.read_written hw (show _ < cborMaxRecursionDepth by
    simp [Value.height, Value.heightEntries, i64Value, cborMaxRecursionDepth])
  have hback : (Value.map [(i64Value 1, i64Value algorithm.algorithmId),
      (i64Value 16, .text "CAT")]).readBack = .map [(i64Value 1, i64Value algorithm.algorithmId),
      (i64Value 16, .text "CAT")] := rfl
  unfold extractHeaderInfo
  rw [hread, hback]
  simp [headerEntries, headerEntry, i64Value, Integer.toI64?_ofI64]

variable {headerCbor payloadCbor signingInput signature : Bytes}

theorem parseCoseEnvelope_issued
    (h : IssuedEnvelope H t algorithm headerCbor payloadCbor signingInput signature b)
    (hsize : b.length ≤ maxTokenSize) : parseCoseEnvelope H b =
      .ok ⟨coseTag algorithm.algorithmId, headerCbor, payloadCbor, signature, algorithm.algorithmId,
        none⟩ := by
  have hread := H.cbor.read_written h.envelope (show _ < cborMaxRecursionDepth by
    simp [Value.height, Value.heightList, Value.heightEntries, cborMaxRecursionDepth])
  unfold parseCoseEnvelope
  rw [if_neg (Nat.not_lt.mpr hsize), hread, readBack_envelope]
  dsimp only [List.isEmpty_nil, Value.readBackList, Value.readBack, Value.readBackEntries]
  rw [if_neg (by simp), if_neg, extractHeaderInfo_issued h.header]
  · rfl
  · rcases coseTag_eq algorithm.algorithmId with htag | htag <;> simp [htag]

/-- The payload is part of the token. -/
theorem length_payload_le
    (h : IssuedEnvelope H t algorithm headerCbor payloadCbor signingInput signature b) :
    payloadCbor.length ≤ b.length := by
  have hread := H.cbor.read_written h.envelope (show _ < cborMaxRecursionDepth by
    simp [Value.height, Value.heightList, Value.heightEntries, cborMaxRecursionDepth])
  rw [readBack_envelope] at hread
  have hmem : Value.bytes payloadCbor ∈
      Value.readBackList [.bytes headerCbor, .map [], .bytes payloadCbor, .bytes signature] := by
    simp [Value.readBackList, Value.readBack]
  exact H.cbor.length_of_tagged hread hmem

/-- **A token that was issued is decoded from its payload**, by a decoder with the algorithm it was
    issued with, if the signature just made verifies. -/
theorem decodeSigned_issued_iff
    (h : IssuedEnvelope H t algorithm headerCbor payloadCbor signingInput signature b)
    (hsize : b.length ≤ maxTokenSize) (hverify : algorithm.verify signingInput signature = .ok ())
    {v : VerifiedToken} : (Decoder.withAlgorithm algorithm).decodeSigned H b = .ok v ↔
      ∃ s, decodePayload H payloadCbor = .ok s ∧
        v = ⟨s, ⟨algorithm.algorithmId, none⟩, .signed, b⟩ := by
  unfold Decoder.decodeSigned
  rw [parseCoseEnvelope_issued h hsize]
  show verifyAndDecode H _ algorithm .default b = _ ↔ _
  unfold verifyAndDecode
  dsimp only
  have htag : ¬coseTag algorithm.algorithmId ≠
      if algorithm.algorithmId = algHmac256_256 then coseTagMac0 else coseTagSign1 := not_not.mpr rfl
  have halg : ¬algorithm.algorithmId ≠ algorithm.algorithmId := not_not.mpr rfl
  rw [Except.guard_eq_ok, and_iff_right htag, Except.guard_eq_ok, and_iff_right halg]
  have hinput : ParsedCoseEnvelope.signingInput H ⟨coseTag algorithm.algorithmId, headerCbor,
      payloadCbor, signature, algorithm.algorithmId, none⟩ algorithm.algorithmId =
        .ok signingInput := h.input
  rw [hinput]
  show (algorithm.verify signingInput signature >>= fun _ => _) = _ ↔ _
  rw [hverify]
  show (decodePayloadWithLimits H .default payloadCbor >>= fun _ => _) = _ ↔ _
  rw [Except.bind_eq_ok]
  refine exists_congr fun s => and_congr_right fun _ => ?_
  rw [Except.pure_eq_ok, eq_comm]
  rfl

end

end Cat
