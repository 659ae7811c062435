import Cat.Error
import Cat.Lib.Base64
import Cat.Lib.Cbor.Codec

/-!
# What the crate is linked against

Third-party code, the floating-point library, and the parts of the standard library whose output
only ends up in messages, gathered in one parameter. What is relied on is a field of the
component that promises it; a `Host` is otherwise arbitrary.

One parameter and not a dozen, because nearly every function of the crate needs some of it and
the functions call each other. A theorem that depends on more than `Host` gives says so in a
hypothesis with a name (`Base64Lawful`, `JsonLaws`), and one without such a hypothesis holds
whatever the libraries do. The CBOR codec is the exception: its laws are in its type, since
hardly anything can be said of a token format whose codec loses values.

The operations on floating-point numbers that the great-circle distance uses are here as well.
How they round is left open, and no result depends on it.
-/

set_option autoImplicit false

namespace Cat

/-- The `f64` operations that only the great-circle distance uses. -/
structure FloatOps where
  add : F64 → F64 → F64
  sub : F64 → F64 → F64
  mul : F64 → F64 → F64
  div : F64 → F64 → F64
  sqrt : F64 → F64
  sin : F64 → F64
  cos : F64 → F64
  asin : F64 → F64
  toRadians : F64 → F64
  /-- `powi(2)`. -/
  square : F64 → F64

/-- A JSON value. An object lists its members as they were inserted or read. -/
inductive Json where
  | null
  | bool (b : Bool)
  /-- A number that is an `i64`. -/
  | number (n : Int64)
  /-- Any other whole number, and any other number at all. -/
  | large (n : UInt64)
  | float (x : F64)
  | string (s : String)
  | array (items : List Json)
  | object (members : List (String × Json))

structure Host where
  /-- The CBOR library. -/
  cbor : Cbor.Codec
  /-- `serde_json::to_vec`. -/
  json : Json → Except String Cbor.Bytes
  /-- base64url without padding. -/
  base64Encode : Cbor.Bytes → String
  base64Decode : String → Except String Cbor.Bytes
  sha256 : Cbor.Bytes → Cbor.Bytes
  sha512_256 : Cbor.Bytes → Cbor.Bytes
  /-- ECDSA over P-256: the SEC 1 bytes of a public key, if they are one, give a verifier of
      message and signature. -/
  p256 : Cbor.Bytes → Except String (Cbor.Bytes → Cbor.Bytes → Except CatError Unit)
  /-- RSASSA-PSS over SHA-256: modulus and exponent, if they are a public key, give the size
      of the modulus in bytes and a verifier. -/
  rsa : Cbor.Bytes → Cbor.Bytes →
    Except String (Nat × (Cbor.Bytes → Cbor.Bytes → Except CatError Unit))
  /-- A regular expression, if it compiles within the size limits. -/
  regex : String → Option (String → Bool)
  float : FloatOps
  /-- `{}` of an `f64`. -/
  formatF64 : F64 → String
  /-- `{:?}` of a `str`. -/
  debugStr : String → String
  /-- `String::from_utf8_lossy`. -/
  utf8Lossy : Cbor.Bytes → String

/-- A host to run concrete inputs on. It has no public keys, regular expressions or hashes:
    a sample that needs one adds it. -/
def Host.reference : Host where
  cbor := .reference
  json _ := .error "no JSON"
  base64Encode b := String.ofList (Base64.encode b)
  base64Decode s := Base64.decode s.toList
  sha256 _ := []
  sha512_256 _ := []
  p256 _ := .error "no key"
  rsa _ _ := .error "no key"
  regex _ := none
  float := ⟨fun x _ => x, fun x _ => x, fun x _ => x, fun x _ => x, id, id, id, id, id, id⟩
  formatF64 f := toString f.bits.toNat
  debugStr s := s
  utf8Lossy b := (Cbor.ofUtf8? b).getD ""

end Cat
