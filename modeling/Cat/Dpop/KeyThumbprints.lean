import Cat.Dpop.CanonicalText
import Cat.Lib.BigEndian
import Cat.Moqt.ResourceUri

/-!
# One key under two thumbprints

A thumbprint is taken over the text of a key's members, the public key is made of the bytes they
decode to. Base64 has one text for the bytes, so two spellings of a key differ in the bytes of
their members: the coordinates of a point are joined before they are decoded, and a number may
start with zeros. Nothing pins the length of a member, and the lengths are all that can differ.

The consequence is that a key may be presented under another thumbprint than the one a token
confirms, and is then refused although it is the key; and that a store that tells proofs apart
by thumbprint takes one key for two. Neither lets anybody use a token of somebody else's, since
the key has to verify the proof in any spelling.

What is relied on of the host is how a point and an RSA number are read: a point from its joined
coordinates, a number from its bytes, most significant first. The theorem is an equivalence on
the lengths of the members, with no reference to thumbprints on its right-hand side.
-/

set_option autoImplicit false

namespace Cat

open Cbor

/-- The numbers of an RSA key. -/
structure RsaPublicKey where
  n : Nat
  e : Nat
  deriving DecidableEq

namespace Jwk

section
variable (H : Host) (k : Jwk)

/-- `to_verifying_key` up to the point, as some decoder of SEC 1 gives it. -/
def toVerifyingKeyWith {κ : Type} (fromSec1Bytes : Bytes → Except String κ) :
    Except CatError κ := do
  if k.kty ≠ "EC" then throw (.invalidClaimValue "Not an EC key")
  if k.crv ≠ some "P-256" then throw (.invalidClaimValue "Not a P-256 curve")
  let x ← required k.x "Missing x coordinate"
  let y ← required k.y "Missing y coordinate"
  let xBytes ← decodeMember H x
  let yBytes ← decodeMember H y
  match fromSec1Bytes (0x04 :: (xBytes ++ yBytes)) with
  | .ok key => return key
  | .error e => throw (.keyOperationFailed e)

/-- `to_rsa_public_key` up to the numbers, with the checks of `RsaPublicKey::new`. -/
def toRsaPublicKeyWith (check : RsaPublicKey → Except String Unit) :
    Except CatError RsaPublicKey := do
  if k.kty ≠ "RSA" then throw (.invalidClaimValue "Not an RSA key")
  let n ← required k.n "RSA JWK missing n"
  let e ← required k.e "RSA JWK missing e"
  let nBytes ← decodeMember H n
  let eBytes ← decodeMember H e
  let key : RsaPublicKey := ⟨BigEndian.toNat nBytes, BigEndian.toNat eBytes⟩
  match check key with
  | .ok () => return key
  | .error e => throw (.keyOperationFailed s!"Invalid RSA public key: {e}")

/-- The verifier of an elliptic key is that of its point. -/
theorem toVerifyingKey_eq : k.toVerifyingKey H = k.toVerifyingKeyWith H H.p256 := by
  unfold toVerifyingKey toVerifyingKeyWith
  by_cases hkty : k.kty = "EC"
  · by_cases hcrv : k.crv = some "P-256"
    · simp only [hkty, hcrv, ne_eq, not_true_eq_false, if_false]
      refine bind_congr fun x => bind_congr fun y => bind_congr fun xBytes =>
        bind_congr fun yBytes => ?_
      cases H.p256 (0x04 :: (xBytes ++ yBytes)) with
      | error e => rfl
      | ok verifier => rfl
    · rw [if_neg (not_not.mpr hkty), if_neg (not_not.mpr hkty), if_pos hcrv, if_pos hcrv]
      rfl
  · rw [if_pos hkty, if_pos hkty]
    rfl

variable {H k}

/-- The members of an elliptic key hold the bytes of two coordinates. -/
structure SpellsPoint (H : Host) (k : Jwk) (x y : Bytes) : Prop where
  kty : k.kty = "EC"
  crv : k.crv = some "P-256"
  x : ∃ s, k.x = some s ∧ H.base64Decode s = .ok x
  y : ∃ s, k.y = some s ∧ H.base64Decode s = .ok y

/-- The members of an RSA key hold the bytes of two numbers. -/
structure SpellsNumbers (H : Host) (k : Jwk) (n e : Bytes) : Prop where
  kty : k.kty = "RSA"
  n : ∃ s, k.n = some s ∧ H.base64Decode s = .ok n
  e : ∃ s, k.e = some s ∧ H.base64Decode s = .ok e

theorem toVerifyingKeyWith_eq_ok {κ : Type} {fromSec1Bytes : Bytes → Except String κ} {key : κ} :
    k.toVerifyingKeyWith H fromSec1Bytes = .ok key ↔
      ∃ x y, SpellsPoint H k x y ∧ fromSec1Bytes (0x04 :: (x ++ y)) = .ok key := by
  unfold toVerifyingKeyWith
  rw [Except.guard_eq_ok, Except.guard_eq_ok]
  simp only [Except.bind_eq_ok, required_eq_ok, decodeMember_eq_ok, not_not]
  constructor
  · intro h
    obtain ⟨hkty, hcrv, xText, hx, yText, hy, x, hxBytes, y, hyBytes, hkey⟩ := h
    refine ⟨x, y, ⟨hkty, hcrv, ⟨xText, hx, hxBytes⟩, ⟨yText, hy, hyBytes⟩⟩, ?_⟩
    cases hpoint : fromSec1Bytes (0x04 :: (x ++ y)) with
    | error e =>
      rw [hpoint] at hkey
      cases hkey
    | ok point =>
      rw [hpoint] at hkey
      exact congrArg Except.ok (Except.pure_eq_ok.mp hkey)
  · intro h
    obtain ⟨x, y, hspells, hpoint⟩ := h
    obtain ⟨xText, hx, hxBytes⟩ := hspells.x
    obtain ⟨yText, hy, hyBytes⟩ := hspells.y
    refine ⟨hspells.kty, hspells.crv, xText, hx, yText, hy, x, hxBytes, y, hyBytes, ?_⟩
    rw [hpoint]
    rfl

theorem toRsaPublicKeyWith_eq_ok {check : RsaPublicKey → Except String Unit} {key : RsaPublicKey} :
    k.toRsaPublicKeyWith H check = .ok key ↔ ∃ n e, SpellsNumbers H k n e ∧
      key = ⟨BigEndian.toNat n, BigEndian.toNat e⟩ ∧ check key = .ok () := by
  unfold toRsaPublicKeyWith
  rw [Except.guard_eq_ok]
  simp only [Except.bind_eq_ok, required_eq_ok, decodeMember_eq_ok, not_not]
  constructor
  · intro h
    obtain ⟨hkty, nText, hn, eText, he, n, hnBytes, e, heBytes, hkey⟩ := h
    refine ⟨n, e, ⟨hkty, ⟨nText, hn, hnBytes⟩, ⟨eText, he, heBytes⟩⟩, ?_⟩
    cases hcheck : check ⟨BigEndian.toNat n, BigEndian.toNat e⟩ with
    | error e =>
      rw [hcheck] at hkey
      cases hkey
    | ok u =>
      rw [hcheck] at hkey
      obtain rfl := Except.pure_eq_ok.mp hkey
      exact ⟨rfl, hcheck⟩
  · intro h
    obtain ⟨n, e, hspells, rfl, hcheck⟩ := h
    obtain ⟨nText, hn, hnBytes⟩ := hspells.n
    obtain ⟨eText, he, heBytes⟩ := hspells.e
    refine ⟨hspells.kty, nText, hn, eText, he, n, hnBytes, e, heBytes, ?_⟩
    rw [hcheck]
    rfl

/-- The verifier of an RSA key is that of its numbers, if it is long enough, where the
    component reads the bytes as numbers. -/
theorem toRsaPublicKey_eq_ok {check : RsaPublicKey → Except String Unit}
    {verifier : RsaPublicKey → Nat × Verifier}
    (h : ∀ n e, H.rsa n e =
      (check ⟨BigEndian.toNat n, BigEndian.toNat e⟩).map
        fun _ => verifier ⟨BigEndian.toNat n, BigEndian.toNat e⟩) {v : Verifier} :
    k.toRsaPublicKey H = .ok v ↔ ∃ key, k.toRsaPublicKeyWith H check = .ok key ∧
      minRsaKeySize ≤ (verifier key).1 ∧ (verifier key).2 = v := by
  simp only [toRsaPublicKeyWith_eq_ok]
  unfold toRsaPublicKey
  rw [Except.guard_eq_ok]
  simp only [Except.bind_eq_ok, required_eq_ok, decodeMember_eq_ok, not_not, h]
  constructor
  · intro hv
    obtain ⟨hkty, nText, hn, eText, he, n, hnBytes, e, heBytes, hv⟩ := hv
    cases hcheck : check ⟨BigEndian.toNat n, BigEndian.toNat e⟩ with
    | error e =>
      rw [hcheck] at hv
      cases hv
    | ok u =>
      rw [hcheck] at hv
      obtain ⟨hsize, hv⟩ := Except.guard_eq_ok.mp hv
      exact ⟨_, ⟨n, e, ⟨hkty, ⟨nText, hn, hnBytes⟩, ⟨eText, he, heBytes⟩⟩, rfl, hcheck⟩,
        not_lt.mp hsize, Except.pure_eq_ok.mp hv⟩
  · intro hv
    obtain ⟨_, ⟨n, e, hspells, rfl, hcheck⟩, hsize, rfl⟩ := hv
    obtain ⟨nText, hn, hnBytes⟩ := hspells.n
    obtain ⟨eText, he, heBytes⟩ := hspells.e
    refine ⟨hspells.kty, nText, hn, eText, he, n, hnBytes, e, heBytes, ?_⟩
    rw [hcheck]
    exact Except.guard_eq_ok.mpr ⟨not_lt.mpr hsize, rfl⟩

/-! ## The canonical text -/

/-- The canonical text of a point, by the texts of its coordinates. -/
def pointText (x y : String) : String :=
  canonicalObject [canonicalMember "crv" "P-256", canonicalMember "kty" "EC",
    canonicalMember "x" x, canonicalMember "y" y]

def numbersText (e n : String) : String :=
  canonicalObject [canonicalMember "e" e, canonicalMember "kty" "RSA", canonicalMember "n" n]

theorem pointText_inj {x y x' y' : String} (h : Quotable x ∧ Quotable y)
    (h' : Quotable x' ∧ Quotable y') : pointText x y = pointText x' y' ↔ x = x' ∧ y = y' := by
  have hcurve : Quotable "P-256" := by
    unfold Quotable
    decide +kernel
  have htext := @Description.text_inj (.elliptic "P-256" x y) (.elliptic "P-256" x' y')
    ⟨hcurve, h⟩ ⟨hcurve, h'⟩
  rw [Description.elliptic.injEq, and_iff_right rfl] at htext
  exact htext

theorem numbersText_inj {e n e' n' : String} (h : Quotable e ∧ Quotable n)
    (h' : Quotable e' ∧ Quotable n') : numbersText e n = numbersText e' n' ↔ e = e' ∧ n = n' := by
  have htext := @Description.text_inj (.rsa e n) (.rsa e' n') h h'
  rw [Description.rsa.injEq] at htext
  exact htext

section
variable (hb : Base64UrlLawful H)
include hb

theorem base64Encode_inj {b b' : Bytes} : H.base64Encode b = H.base64Encode b' ↔ b = b' := by
  constructor
  · intro h
    have hdecoded := congrArg H.base64Decode h
    rw [hb.decode_encode, hb.decode_encode] at hdecoded
    exact Except.ok.inj hdecoded
  · exact congrArg H.base64Encode

/-- What base64 writes passes for base64. -/
theorem validateBase64urlSafe_encode (b : Bytes) (fieldName : String) :
    validateBase64urlSafe (H.base64Encode b) fieldName = .ok () := by
  have hsafe : ∀ c ∈ Base64.alphabet, (c.isAlphanum || c == '-' || c == '_') = true :=
    List.forall_mem_of_all (by decide +kernel)
  have hfind : (H.base64Encode b).toList.find?
      (fun c => !(c.isAlphanum || c == '-' || c == '_')) = none := by
    apply List.find?_eq_none.mpr
    intro c hc
    simp only [hsafe c (hb.alphabet b c hc)]
    decide
  unfold validateBase64urlSafe
  rw [hfind]

theorem quotable_base64 (b : Bytes) : Quotable (H.base64Encode b) :=
  quotable_of_base64urlSafe (validateBase64urlSafe_encode hb b "")

theorem SpellsPoint.canonicalJson {x y : Bytes} (h : SpellsPoint H k x y) :
    k.canonicalJson = .ok (pointText (H.base64Encode x) (H.base64Encode y)) := by
  obtain ⟨xText, hx, hxBytes⟩ := h.x
  obtain ⟨yText, hy, hyBytes⟩ := h.y
  obtain rfl := hb.encode_decode _ _ hxBytes
  obtain rfl := hb.encode_decode _ _ hyBytes
  unfold Jwk.canonicalJson
  rw [if_pos h.kty]
  refine Except.bind_eq_ok.mpr ⟨"P-256", required_eq_ok.mpr h.crv, ?_⟩
  refine Except.bind_eq_ok.mpr ⟨_, required_eq_ok.mpr hx, ?_⟩
  refine Except.bind_eq_ok.mpr ⟨_, required_eq_ok.mpr hy, ?_⟩
  refine Except.bind_eq_ok.mpr ⟨(), validateBase64urlSafe_encode hb x "x", ?_⟩
  refine Except.bind_eq_ok.mpr ⟨(), validateBase64urlSafe_encode hb y "y", ?_⟩
  exact Except.guard_eq_ok.mpr ⟨by decide +kernel, rfl⟩

theorem SpellsNumbers.canonicalJson {n e : Bytes} (h : SpellsNumbers H k n e) :
    k.canonicalJson = .ok (numbersText (H.base64Encode e) (H.base64Encode n)) := by
  obtain ⟨nText, hn, hnBytes⟩ := h.n
  obtain ⟨eText, he, heBytes⟩ := h.e
  obtain rfl := hb.encode_decode _ _ hnBytes
  obtain rfl := hb.encode_decode _ _ heBytes
  unfold Jwk.canonicalJson
  rw [if_neg (by rw [h.kty]; decide), if_pos h.kty]
  refine Except.bind_eq_ok.mpr ⟨_, required_eq_ok.mpr he, ?_⟩
  refine Except.bind_eq_ok.mpr ⟨_, required_eq_ok.mpr hn, ?_⟩
  refine Except.bind_eq_ok.mpr ⟨(), validateBase64urlSafe_encode hb e "e", ?_⟩
  exact Except.bind_eq_ok.mpr ⟨(), validateBase64urlSafe_encode hb n "n", rfl⟩

end

/-! ## Two spellings -/

variable (H) in
/-- Both keys have a canonical text and a thumbprint, and they have the same ones. -/
def SameThumbprint (j k : Jwk) : Prop :=
  ∃ c t, (j.canonicalJson = .ok c ∧ k.canonicalJson = .ok c) ∧
    j.thumbprint H = .ok t ∧ k.thumbprint H = .ok t

variable (H) in
/-- How many bytes a member holds, if it can be read. -/
def memberLength (member : Option String) : Option Nat :=
  member.bind fun s => (H.base64Decode s).toOption.map List.length

/-- What is relied on of the decoder of points: an uncompressed point has one spelling. -/
structure Sec1Lawful {κ : Type} (fromSec1Bytes : Bytes → Except String κ) : Prop where
  uncompressed : ∀ b b' key, fromSec1Bytes (0x04 :: b) = .ok key →
    fromSec1Bytes (0x04 :: b') = .ok key → b = b'

theorem sameThumbprint_iff {j : Jwk} {c c' : String} (hj : j.canonicalJson = .ok c)
    (hk : k.canonicalJson = .ok c') : SameThumbprint H j k ↔ c = c' := by
  unfold SameThumbprint thumbprint
  rw [hj, hk]
  constructor
  · intro h
    obtain ⟨_, _, ⟨hc, hc'⟩, -⟩ := h
    exact (Except.ok.inj hc).trans (Except.ok.inj hc').symm
  · intro h
    subst h
    exact ⟨c, _, ⟨rfl, rfl⟩, rfl, rfl⟩

theorem memberLength_eq {member : Option String} {b : Bytes}
    (h : ∃ s, member = some s ∧ H.base64Decode s = .ok b) :
    memberLength H member = some b.length := by
  obtain ⟨s, rfl, hs⟩ := h
  simp [memberLength, hs, Except.toOption]

/-- Numbers are spelt the same where they are spelt with as many bytes. -/
theorem bytes_eq_iff_of_toNat {b b' : Bytes} (h : BigEndian.toNat b = BigEndian.toNat b') :
    b = b' ↔ b.length = b'.length := by
  constructor
  · exact congrArg List.length
  · intro hlength
    rw [← BigEndian.ofNat_toNat b, ← BigEndian.ofNat_toNat b', h, hlength]

/-- Coordinates that are joined alike are the same where they are cut alike. -/
theorem coordinates_eq_iff {x y x' y' : Bytes} (h : x ++ y = x' ++ y') :
    x = x' ∧ y = y' ↔ x.length = x'.length := by
  constructor
  · intro heq
    rw [heq.1]
  · exact List.append_inj h

/-- **One key has one thumbprint where its members hold as many bytes.** Two spellings of a
    point agree in their canonical text exactly if their first coordinates are equally long,
    two spellings of an RSA key exactly if both numbers are.

    The thumbprint is taken over the texts of the members, and the key is made of what they spell.
    Of the two coordinates only the joined length is checked, and in front of the numbers of an RSA
    key zeros do not count; so one key can be spelled in more than one way. -/
theorem thumbprint_unique_iff (hb : Base64UrlLawful H) {κ : Type}
    {fromSec1Bytes : Bytes → Except String κ} (hs : Sec1Lawful fromSec1Bytes)
    (check : RsaPublicKey → Except String Unit) (j k : Jwk) :
    (∀ key, j.toVerifyingKeyWith H fromSec1Bytes = .ok key →
      k.toVerifyingKeyWith H fromSec1Bytes = .ok key →
      (SameThumbprint H j k ↔ memberLength H j.x = memberLength H k.x)) ∧
    (∀ key, j.toRsaPublicKeyWith H check = .ok key → k.toRsaPublicKeyWith H check = .ok key →
      (SameThumbprint H j k ↔
        memberLength H j.n = memberLength H k.n ∧ memberLength H j.e = memberLength H k.e)) := by
  constructor
  · intro key hj hk
    obtain ⟨x, y, hspells, hpoint⟩ := toVerifyingKeyWith_eq_ok.mp hj
    obtain ⟨x', y', hspells', hpoint'⟩ := toVerifyingKeyWith_eq_ok.mp hk
    -- the point fixes the coordinates once they are joined, not where the first one ends
    have hjoined := hs.uncompressed _ _ key hpoint hpoint'
    rw [sameThumbprint_iff (hspells.canonicalJson hb) (hspells'.canonicalJson hb),
      pointText_inj ⟨quotable_base64 hb _, quotable_base64 hb _⟩
        ⟨quotable_base64 hb _, quotable_base64 hb _⟩, base64Encode_inj hb,
      base64Encode_inj hb, coordinates_eq_iff hjoined, memberLength_eq hspells.x,
      memberLength_eq hspells'.x, Option.some_inj]
  · intro key hj hk
    obtain ⟨n, e, hspells, rfl, -⟩ := toRsaPublicKeyWith_eq_ok.mp hj
    obtain ⟨n', e', hspells', hkey, -⟩ := toRsaPublicKeyWith_eq_ok.mp hk
    obtain ⟨hn, he⟩ := RsaPublicKey.mk.inj hkey
    rw [sameThumbprint_iff (hspells.canonicalJson hb) (hspells'.canonicalJson hb),
      numbersText_inj ⟨quotable_base64 hb _, quotable_base64 hb _⟩
        ⟨quotable_base64 hb _, quotable_base64 hb _⟩,
      base64Encode_inj hb, base64Encode_inj hb, bytes_eq_iff_of_toNat hn, bytes_eq_iff_of_toNat he,
      memberLength_eq hspells.n, memberLength_eq hspells.e, memberLength_eq hspells'.n,
      memberLength_eq hspells'.e, Option.some_inj, Option.some_inj, and_comm]

end

/-! ## A point cut elsewhere, a number with a zero in front -/

/-- `y² = x³ - 3x + b` over the field of P-256. -/
def p256Prime : Nat := 2 ^ 256 - 2 ^ 224 + 2 ^ 192 + 2 ^ 96 - 1

def p256B : Nat := 0x5ac635d8aa3a93e7b3ebbd55769886bc651d06b0cc53b0f63bce3c3e27d2604b

/-- The decoder of uncompressed points of P-256. -/
def p256FromSec1Bytes (bytes : Bytes) : Except String (Nat × Nat) :=
  let x := BigEndian.toNat ((bytes.drop 1).take 32)
  let y := BigEndian.toNat (bytes.drop 33)
  if bytes.length = 65 ∧ bytes.head? = some 0x04 ∧ x < p256Prime ∧ y < p256Prime ∧
      y * y % p256Prime = (x * x * x + (p256Prime - 3) * x + p256B) % p256Prime then
    .ok (x, y)
  else .error "signature error"

/-- A point that is read gives its coordinates back. -/
theorem coordinates_of_p256 {b : Bytes} {key : Nat × Nat}
    (h : p256FromSec1Bytes (0x04 :: b) = .ok key) :
    b = BigEndian.ofNat 32 key.1 ++ BigEndian.ofNat 32 key.2 := by
  simp only [p256FromSec1Bytes] at h
  split at h
  · rename_i hread
    obtain rfl := Except.ok.inj h
    have hlength : b.length = 64 := Nat.succ.inj hread.1
    have hx : (b.take 32).length = 32 := by simp [hlength]
    have hy : (b.drop 32).length = 32 := by simp [hlength]
    show b = BigEndian.ofNat 32 (BigEndian.toNat (b.take 32)) ++
      BigEndian.ofNat 32 (BigEndian.toNat (b.drop 32))
    rw [BigEndian.ofNat_toNat_of_length hx, BigEndian.ofNat_toNat_of_length hy,
      List.take_append_drop]
  · cases h

theorem p256FromSec1Bytes_lawful : Sec1Lawful p256FromSec1Bytes where
  uncompressed _ _ _ h h' := (coordinates_of_p256 h).trans (coordinates_of_p256 h').symm

/-- The limits of `RsaPublicKey::new`. -/
def checkRsaPublicKey (key : RsaPublicKey) : Except String Unit :=
  if key.n < 2 ^ 4096 ∧ 2 ≤ key.e ∧ key.e < 2 ^ 33 then .ok ()
  else .error "modulus or exponent out of range"

/-- The coordinates of a point, joined. -/
def pointBytes : Bytes :=
  BigEndian.ofNat 32 0x60fed4ba255a9d31c961eb74c6356d68c049b8923b61fa6ce669622e60f29fb6 ++
    BigEndian.ofNat 32 0x7903fe1008b8bc99a41ae9e95628bc64f2f1b20c2d7e9f5177a3c294d4462299

/-- The key of that point, with the first so many bytes for `x` and the others for `y`. -/
def cutPoint (length : Nat) : Jwk where
  kty := "EC"
  crv := some "P-256"
  x := some (String.ofList (Base64.encode (pointBytes.take length)))
  y := some (String.ofList (Base64.encode (pointBytes.drop length)))

/-- A key of 2048 bits with these bytes for its exponent. -/
def numbersKey (exponent : Bytes) : Jwk where
  kty := "RSA"
  n := some (String.ofList (Base64.encode (List.replicate 256 0xff)))
  e := some (String.ofList (Base64.encode exponent))

theorem cutPoint_spells (length : Nat) :
    SpellsPoint .reference (cutPoint length) (pointBytes.take length) (pointBytes.drop length) where
  kty := rfl
  crv := rfl
  x := ⟨_, rfl, reference_base64url.decode_encode _⟩
  y := ⟨_, rfl, reference_base64url.decode_encode _⟩

theorem numbersKey_spells (exponent : Bytes) :
    SpellsNumbers .reference (numbersKey exponent) (List.replicate 256 0xff) exponent where
  kty := rfl
  n := ⟨_, rfl, reference_base64url.decode_encode _⟩
  e := ⟨_, rfl, reference_base64url.decode_encode _⟩

/-- Wherever the coordinates are cut, they are accepted as one key. -/
theorem cutPoint_read : ∃ key, ∀ length,
    (cutPoint length).toVerifyingKeyWith .reference p256FromSec1Bytes = .ok key := by
  have hpoint : (p256FromSec1Bytes (0x04 :: pointBytes)).isOk = true := by decide +kernel
  obtain ⟨key, hkey⟩ := Except.isOk_iff_exists.mp hpoint
  refine ⟨key, fun length => toVerifyingKeyWith_eq_ok.mpr ⟨_, _, cutPoint_spells length, ?_⟩⟩
  rw [List.take_append_drop]
  exact hkey

theorem numbersKey_read {exponent : Bytes} (h : BigEndian.toNat exponent = 65537) :
    (numbersKey exponent).toRsaPublicKeyWith .reference checkRsaPublicKey =
      .ok ⟨BigEndian.toNat (List.replicate 256 0xff), 65537⟩ := by
  refine toRsaPublicKeyWith_eq_ok.mpr ⟨_, _, numbersKey_spells exponent, ?_, ?_⟩
  · rw [h]
  · decide +kernel

theorem thumbprint_unique_iff_samples :
    (SameThumbprint .reference (cutPoint 32) (cutPoint 31) ↔
      memberLength .reference (cutPoint 32).x = memberLength .reference (cutPoint 31).x) ∧
    (SameThumbprint .reference (numbersKey [1, 0, 1]) (numbersKey [0, 1, 0, 1]) ↔
      memberLength .reference (numbersKey [1, 0, 1]).n =
        memberLength .reference (numbersKey [0, 1, 0, 1]).n ∧
      memberLength .reference (numbersKey [1, 0, 1]).e =
        memberLength .reference (numbersKey [0, 1, 0, 1]).e) := by
  have hunique := thumbprint_unique_iff reference_base64url p256FromSec1Bytes_lawful
    checkRsaPublicKey
  obtain ⟨point, hpoint⟩ := cutPoint_read
  exact ⟨(hunique _ _).1 point (hpoint 32) (hpoint 31),
    (hunique _ _).2 _ (numbersKey_read rfl) (numbersKey_read rfl)⟩

/-- A point whose first coordinate ends a byte early, and an exponent with a zero in front:
    each is accepted as the key that it is without that, and has another canonical text. -/
theorem thumbprint_not_unique :
    (∃ key, (cutPoint 32).toVerifyingKeyWith .reference p256FromSec1Bytes = .ok key ∧
      (cutPoint 31).toVerifyingKeyWith .reference p256FromSec1Bytes = .ok key ∧
      ¬SameThumbprint .reference (cutPoint 32) (cutPoint 31)) ∧
    (∃ key, (numbersKey [1, 0, 1]).toRsaPublicKeyWith .reference checkRsaPublicKey = .ok key ∧
      (numbersKey [0, 1, 0, 1]).toRsaPublicKeyWith .reference checkRsaPublicKey = .ok key ∧
      ¬SameThumbprint .reference (numbersKey [1, 0, 1]) (numbersKey [0, 1, 0, 1])) := by
  have hb := reference_base64url
  constructor
  · obtain ⟨key, hkey⟩ := cutPoint_read
    refine ⟨key, hkey 32, hkey 31, ?_⟩
    rw [sameThumbprint_iff ((cutPoint_spells 32).canonicalJson hb)
      ((cutPoint_spells 31).canonicalJson hb),
      pointText_inj ⟨quotable_base64 hb _, quotable_base64 hb _⟩
        ⟨quotable_base64 hb _, quotable_base64 hb _⟩, base64Encode_inj hb]
    intro h
    exact absurd (congrArg List.length h.1) (by decide +kernel)
  · refine ⟨_, numbersKey_read rfl, numbersKey_read rfl, ?_⟩
    rw [sameThumbprint_iff ((numbersKey_spells _).canonicalJson hb)
      ((numbersKey_spells _).canonicalJson hb),
      numbersText_inj ⟨quotable_base64 hb _, quotable_base64 hb _⟩
        ⟨quotable_base64 hb _, quotable_base64 hb _⟩, base64Encode_inj hb]
    intro h
    exact absurd h.1 (by decide)

end Jwk
end Cat
