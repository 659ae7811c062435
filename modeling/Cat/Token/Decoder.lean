import Cat.Cwt.Decode
import Cat.Cwt.Peek
import Cat.KeyResolver
import Cat.Pipeline

/-!
# Decoding a signed token

The COSE envelope, the choice of a key, and the check of the signature before the claims are
decoded. With a resolver the issuer is peeked from the payload while it is still unverified, and
the key is whatever the resolver holds for it; nothing compares that issuer with the one the
decoder finds afterwards.

Parsing of the envelope is kept in one function with its errors, since it is where untrusted
bytes are first looked at: a size, a tag, four elements of the right kinds. The header is a byte
string that is parsed by itself. Its unprotected sibling is read over.

Two decoders are told apart by where the key comes from, and the rest is the same function. So a
result about the rest holds of either, and one about the choice of the key is about `select`.
-/

set_option autoImplicit false

namespace Cat

open Cbor

def coseTagSign1 : UInt64 := 18
def coseTagMac0 : UInt64 := 17

def maxTokenSize : Nat := 16 * 1024

/-- An envelope taken apart, with the two fields of its header that are used. -/
structure ParsedCoseEnvelope where
  tag : UInt64
  headerCbor : Bytes
  payloadCbor : Bytes
  signature : Bytes
  headerAlg : Int64
  headerKid : Option Bytes
  deriving DecidableEq

section
variable (H : Host)

/-! ## The envelope -/

/-- One entry of the protected header: `alg` may be given once, `kid` as bytes or text. -/
def headerEntry (alg : Option Int64) (kid : Option Bytes) (key val : Value) :
    Except CatError (Option Int64 × Option Bytes) :=
  match key with
  | .integer k =>
    match k.toI64? with
    | none => .error .invalidTokenFormat
    | some k =>
      if k = 1 then
        if alg.isSome then .error (.invalidCbor "Duplicate alg in protected header")
        else match val with
          | .integer a =>
            match a.toI64? with
            | some a => .ok (some a, kid)
            | none => .error .invalidTokenFormat
          | _ => .error (.invalidClaimValue "alg must be an integer")
      else if k = 4 then
        match val with
        | .bytes b => .ok (alg, some b)
        | .text s => .ok (alg, some (utf8 s))
        | _ => .ok (alg, kid)
      else .ok (alg, kid)
  | _ => .ok (alg, kid)

def headerEntries (alg : Option Int64) (kid : Option Bytes) :
    List (Value × Value) → Except CatError (Option Int64 × Option Bytes)
  | [] => .ok (alg, kid)
  | (k, v) :: es =>
    match headerEntry alg kid k v with
    | .error e => .error e
    | .ok (alg, kid) => headerEntries alg kid es

/-- Algorithm and key identifier of a protected header. What follows the header's map in
    its byte string is not looked at. -/
def extractHeaderInfo (headerCbor : Bytes) : Except CatError (Int64 × Option Bytes) :=
  match H.cbor.read cborMaxRecursionDepth headerCbor with
  | .error e => .error (.invalidCbor e)
  | .ok (.map m, _) =>
    match headerEntries none none m with
    | .error e => .error e
    | .ok (none, _) => .error (.missingRequiredClaim "alg")
    | .ok (some alg, kid) => .ok (alg, kid)
  | .ok _ => .error .invalidTokenFormat

/-- The size is checked before anything is read, and nothing may follow the envelope. -/
def parseCoseEnvelope (coseBytes : Bytes) : Except CatError ParsedCoseEnvelope :=
  if coseBytes.length > maxTokenSize then .error .invalidTokenFormat
  else match H.cbor.read cborMaxRecursionDepth coseBytes with
    | .error e => .error (.invalidCbor e)
    | .ok (value, rest) =>
      if !rest.isEmpty then
        .error (.invalidCbor
          s!"Trailing bytes after COSE envelope: {rest.length} unconsumed bytes")
      else match value with
        -- the unprotected header must be a map, but its content is ignored
        | .tag tag (.array [.bytes headerCbor, .map _, .bytes payloadCbor, .bytes signature]) =>
          if tag ≠ coseTagSign1 ∧ tag ≠ coseTagMac0 then .error .invalidTokenFormat
          else (extractHeaderInfo H headerCbor).map fun (alg, kid) =>
            ⟨tag, headerCbor, payloadCbor, signature, alg, kid⟩
        | _ => .error .invalidTokenFormat

/-! ## Decoding -/

inductive DecoderKey where
  | algorithm (a : CryptographicAlgorithm)
  | resolver (r : KeyResolver)

/-- A decoder without an encryption key. -/
structure Decoder where
  key : DecoderKey
  admission : Option AdmissionPolicy
  limits : CwtLimits

def Decoder.withAlgorithm (a : CryptographicAlgorithm) : Decoder := ⟨.algorithm a, none, .default⟩
def Decoder.withResolver (r : KeyResolver) : Decoder := ⟨.resolver r, none, .default⟩

def ParsedCoseEnvelope.header (e : ParsedCoseEnvelope) : TokenHeader := ⟨e.headerAlg, e.headerKid⟩

/-- The signature structure of the envelope, as the key's algorithm reads it. -/
def ParsedCoseEnvelope.signingInput (e : ParsedCoseEnvelope) (algId : Int64) :
    Except CatError Bytes :=
  createSigningInput H e.headerCbor e.payloadCbor algId

/-- The tag and the algorithm have to be those of the key. The payload is decoded after the
    signature has been verified, and not before. -/
def verifyAndDecode (envelope : ParsedCoseEnvelope) (algorithm : CryptographicAlgorithm)
    (limits : CwtLimits) (serialized : Bytes) : Except CatError VerifiedToken := do
  let algId := algorithm.algorithmId
  let correctTag := if algId = algHmac256_256 then coseTagMac0 else coseTagSign1
  if envelope.tag ≠ correctTag then throw .invalidTokenFormat
  if envelope.headerAlg ≠ algId then throw (.algorithmMismatch algId envelope.headerAlg)
  let signingInput ← envelope.signingInput H algId
  algorithm.verify signingInput envelope.signature
  let token ← decodePayloadWithLimits H limits envelope.payloadCbor
  return ⟨token, envelope.header, .signed, serialized⟩

/-- The first half of `decode_signed`: admission, then the key to verify with. -/
def Decoder.selectAlgorithm (d : Decoder) (envelope : ParsedCoseEnvelope) (coseBytes : Bytes) :
    Except CatError CryptographicAlgorithm := do
  match d.admission with
  | some policy => policy.check coseBytes envelope.header
  | none => pure ()
  match d.key with
  | .algorithm alg => return alg
  | .resolver resolve =>
    let peekedIssuer ← peekIssuer envelope.payloadCbor
    resolve ⟨envelope.headerAlg, envelope.headerKid, peekedIssuer⟩

/-- To choose a key the payload may be looked into before it is verified; the choice is all that
    comes of it. -/
def Decoder.decodeSigned (d : Decoder) (coseBytes : Bytes) : Except CatError VerifiedToken := do
  let envelope ← parseCoseEnvelope H coseBytes
  let algorithm ← d.selectAlgorithm envelope coseBytes
  verifyAndDecode H envelope algorithm d.limits coseBytes

end
end Cat
