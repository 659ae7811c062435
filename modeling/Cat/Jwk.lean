import Cat.Crypto

/-!
# JSON Web Keys

The public key a proof of possession carries: its members as the text they arrived in, its
thumbprint, and the verifier it makes. Members of the wrong key type may be present; the
thumbprint and the verifiers do not look at them.

The thumbprint and the verifier are two readings of one record, and they differ in what they ask
of it. The text that is hashed takes the members as they are spelled and wants characters of
base64url; the verifier decodes them and hands the bytes to the cryptographic library, which
decides whether they are a key. A key can pass either and fail the other, and what follows from
this is in `KeyThumbprints`.
-/

set_option autoImplicit false

namespace Cat

open Cbor

/-- All members a key may have, each as the text it came in. Which of them belong together depends
    on `kty` and is not in the type, as it is not in the source's. -/
structure Jwk where
  kty : String
  crv : Option String := none
  x : Option String := none
  y : Option String := none
  n : Option String := none
  e : Option String := none
  deriving DecidableEq

def minRsaKeySize : Nat := 256

namespace Jwk

def required (member : Option String) (missing : String) : Except CatError String :=
  match member with
  | some s => .ok s
  | none => .error (.invalidClaimValue missing)

def validateBase64urlSafe (s : String) (fieldName : String) : Except CatError Unit :=
  match s.toList.find? fun c => !(c.isAlphanum || c == '-' || c == '_') with
  | some c => .error (.invalidClaimValue
      s!"JWK {fieldName} contains invalid character '{c}' (expected base64url)")
  | none => .ok ()

/-- A member of a JSON object, as the canonical text spells it. -/
def canonicalMember (name value : String) : String := "\"" ++ name ++ "\":\"" ++ value ++ "\""

def canonicalObject (members : List String) : String :=
  "\x7b" ++ String.intercalate "," members ++ "\x7d"

/-- The text the thumbprint is taken over: the members RFC 7638 asks for, in alphabetical order. -/
def canonicalJson (k : Jwk) : Except CatError String := do
  if k.kty = "EC" then
    let crv ← required k.crv "EC JWK missing crv"
    let x ← required k.x "EC JWK missing x"
    let y ← required k.y "EC JWK missing y"
    validateBase64urlSafe x "x"
    validateBase64urlSafe y "y"
    if crv.toList.contains '"' || crv.toList.contains '\\' then
      throw (.invalidClaimValue "JWK crv contains invalid characters")
    return canonicalObject [canonicalMember "crv" crv, canonicalMember "kty" "EC",
      canonicalMember "x" x, canonicalMember "y" y]
  else if k.kty = "RSA" then
    let e ← required k.e "RSA JWK missing e"
    let n ← required k.n "RSA JWK missing n"
    validateBase64urlSafe e "e"
    validateBase64urlSafe n "n"
    return canonicalObject [canonicalMember "e" e, canonicalMember "kty" "RSA",
      canonicalMember "n" n]
  else throw (.unsupportedAlgorithm s!"Unsupported key type: {k.kty}")

section
variable (H : Host) (k : Jwk)

/-- The hash of the canonical text. -/
def thumbprint : Except CatError Bytes := do
  let canonical ← k.canonicalJson
  return H.sha256 (utf8 canonical)

def decodeMember (s : String) : Except CatError Bytes :=
  match H.base64Decode s with
  | .ok b => .ok b
  | .error e => .error (.invalidBase64 e)

/-- What a public key accepts as signatures. -/
abbrev Verifier := Bytes → Bytes → Except CatError Unit

/-- `to_verifying_key`, and the ES256 verifier made of the key. -/
def toVerifyingKey : Except CatError Verifier := do
  if k.kty ≠ "EC" then throw (.invalidClaimValue "Not an EC key")
  if k.crv ≠ some "P-256" then throw (.invalidClaimValue "Not a P-256 curve")
  let x ← required k.x "Missing x coordinate"
  let y ← required k.y "Missing y coordinate"
  let xBytes ← decodeMember H x
  let yBytes ← decodeMember H y
  match H.p256 (0x04 :: (xBytes ++ yBytes)) with
  | .ok verifier => return verifier
  | .error e => throw (.keyOperationFailed e)

/-- `to_rsa_public_key`, and the PS256 verifier made of the key, if it is long enough. -/
def toRsaPublicKey : Except CatError Verifier := do
  if k.kty ≠ "RSA" then throw (.invalidClaimValue "Not an RSA key")
  let n ← required k.n "RSA JWK missing n"
  let e ← required k.e "RSA JWK missing e"
  let nBytes ← decodeMember H n
  let eBytes ← decodeMember H e
  match H.rsa nBytes eBytes with
  | .error e => throw (.keyOperationFailed s!"Invalid RSA public key: {e}")
  | .ok (size, verifier) =>
    if size < minRsaKeySize then
      throw (.keyOperationFailed
        s!"RSA key too small: {size} bytes (minimum {minRsaKeySize} bytes / 2048 bits required)")
    return verifier

end
end Jwk
end Cat
