import Cat.Claims
import Cat.Host
import Cat.Cwt.Limits

/-!
# Claim values on the wire

The value-level half of the payload codec: what each kind of claim value is encoded as and which
CBOR values decode to it. The claim-level half (`Cat.Cwt.Encode`, `Cat.Cwt.Decode`) only says
which label takes which.

The decoder's own well-formedness check is here too: `validateCborMapOrdering` walks a map and
everything nested in its *values* — keys are fingerprinted, not descended into.

Encoders and decoders of one kind of value stand next to each other, as they do in `cwt.rs`,
because they are read together: a check that one of them makes and the other one does not is
where tokens are lost on the way. Errors and their texts are part of the functions. Numbers are
written in the shortest form that is exact, so a double that is a whole number travels as an
integer, and this is why every decoder of a number takes both.
-/

set_option autoImplicit false

namespace Cat

open Cbor

def cborTagIpv4 : UInt64 := 52
def cborTagIpv6 : UInt64 := 54
def cborTagCrs : UInt64 := 279
def crsWgs84 : UInt64 := 0

/-- The value inside a coordinate-reference-system wrapper; any other value is itself. -/
def unwrapCrsTag (value : Value) : Except CatError Value :=
  match value with
  | .tag tag inner =>
    if tag = cborTagCrs then
      match inner with
      | .array [crs, v] =>
        match crs with
        | .integer i =>
          let crsId := i.toU64?.getD 0xFFFFFFFFFFFFFFFF
          if crsId ≠ crsWgs84 then
            .error (.invalidClaimValue
              s!"Unsupported CRS identifier: {crsId.toNat} (only WGS84/0 is supported)")
          else .ok v
        | _ => .error (.invalidClaimValue "CRS Wrapper: invalid CRS identifier type")
      | _ => .error (.invalidClaimValue "CRS Wrapper tag 279: expected [crs_id, value]")
    else .ok value
  | other => .ok other

/-! ## Map ordering

The walk that runs over a decoded payload before anything is read from it.
-/

/-- Non-negative labels first, ascending; then negative ones, descending. -/
def cborCanonicalKeyCmp (a b : Int64) : Ordering :=
  match decide (0 ≤ a.toInt), decide (0 ≤ b.toInt) with
  | true, true => compare a.toInt b.toInt
  | false, false => compare b.toInt a.toInt
  | true, false => .lt
  | false, true => .gt

/-- What makes two map keys the same key. -/
inductive KeyFingerprint where
  | int (n : Int)
  | text (s : String)
  | bytes (b : Bytes)
  | other (kind : String)
  deriving DecidableEq

/-- Arrays, maps and tags have no fingerprint, so no duplicates among them are noticed. -/
def keyFingerprint : Value → Option KeyFingerprint
  | .integer i => some (.int i.val)
  | .text s => some (.text s)
  | .bytes b => some (.bytes b)
  | .bool _ => some (.other "bool")
  | .null => some (.other "null")
  | .float _ => some (.other "float")
  | _ => none

def nestingDepthError (maxDepth : Nat) : CatError :=
  .invalidCbor s!"CBOR nesting depth exceeds limit of {maxDepth}"

/-- The key part of one turn of the ordering loop: the fingerprints seen and the previous
    integer key, updated. An integer key beyond `i64` counts as `i64::MAX`. -/
def checkKey (prev : Option Int64) (seen : List KeyFingerprint) (key : Value) :
    Except CatError (Option Int64 × List KeyFingerprint) :=
  match keyFingerprint key with
  | none => .ok (prev, seen)
  | some fp =>
    if seen.contains fp then .error (.invalidCbor "Duplicate map key")
    else match key with
      | .integer i =>
        let k := i.toI64?.getD (Int64.ofInt (2 ^ 63 - 1))
        match prev with
        | some p =>
          if cborCanonicalKeyCmp k p ≠ .gt then
            .error (.invalidCbor "Map keys not in deterministic order per RFC 8949 §4.2.1")
          else .ok (some k, fp :: seen)
        | none => .ok (some k, fp :: seen)
      | _ => .ok (prev, fp :: seen)

mutual
/-- The loop over a map's entries at nesting depth `depth`. -/
def validateEntries (maxDepth depth : Nat) : Option Int64 → List KeyFingerprint →
    List (Value × Value) → Except CatError Unit
  | _, _, [] => .ok ()
  | prev, seen, (key, value) :: es =>
    match checkKey prev seen key with
    | .error e => .error e
    | .ok (prev, seen) =>
      match validateNestedMapsWithDepth maxDepth (depth + 1) value with
      | .error e => .error e
      | .ok () => validateEntries maxDepth depth prev seen es
/-- Every container and every tag on the way down counts. Keys are not looked into. -/
def validateNestedMapsWithDepth (maxDepth depth : Nat) : Value → Except CatError Unit
  | .map nested =>
    if depth > maxDepth then .error (nestingDepthError maxDepth)
    else validateEntries maxDepth depth none [] nested
  | .array arr =>
    if depth > maxDepth then .error (nestingDepthError maxDepth)
    else validateItems maxDepth (depth + 1) arr
  | .tag _ inner =>
    if depth > maxDepth then .error (nestingDepthError maxDepth)
    else validateNestedMapsWithDepth maxDepth (depth + 1) inner
  | _ => if depth > maxDepth then .error (nestingDepthError maxDepth) else .ok ()
def validateItems (maxDepth depth : Nat) : List Value → Except CatError Unit
  | [] => .ok ()
  | v :: vs =>
    match validateNestedMapsWithDepth maxDepth depth v with
    | .error e => .error e
    | .ok () => validateItems maxDepth depth vs
end

def validateCborMapOrderingWithDepth (map : List (Value × Value)) (depth maxDepth : Nat) :
    Except CatError Unit :=
  if depth > maxDepth then .error (nestingDepthError maxDepth)
  else validateEntries maxDepth depth none [] map

def validateCborMapOrderingLimited (map : List (Value × Value)) (maxDepth : Nat) :
    Except CatError Unit :=
  validateCborMapOrderingWithDepth map 0 maxDepth

/-! ## Numbers

Conversions between doubles and integers with the checks of the source. What they refuse has an
error of its own each.
-/

/-- What CBOR can spell and the profile forbids. -/
def validateFloat (f : F64) (claimName : String) : Except CatError Unit :=
  if f.isNan then
    .error (.invalidClaimValue s!"{claimName}: NaN is not permitted per CTA-5007-B §4.5")
  else if f.isInfinite then
    .error (.invalidClaimValue s!"{claimName}: infinity is not permitted per CTA-5007-B §4.5")
  else if f.scaled = 0 ∧ f.negative then
    .error (.invalidClaimValue
      s!"{claimName}: negative zero is not permitted per CTA-5007-B §4.5")
  else .ok ()

section
variable (H : Host)

/-- A float as a numeric date: no fraction, and strictly inside the `i64` range. -/
def safeFloatToI64 (f : F64) (claimName : String) : Except CatError Int64 := do
  validateFloat f claimName
  if !f.isIntegral then
    throw (.invalidClaimValue
      s!"{claimName}: fractional numeric dates are not permitted in this profile")
  if F64.le (F64.ofInt (2 ^ 63 - 1)) f || F64.le f (F64.ofInt (-2 ^ 63)) then
    throw (.invalidClaimValue s!"{claimName}: float magnitude {H.formatF64 f} exceeds i64 range")
  return Int64.ofInt f.toInt

def safeFloatToU32 (f : F64) (claimName : String) : Except CatError UInt32 := do
  validateFloat f claimName
  if F64.lt f (F64.ofInt 0) then
    throw (.invalidClaimValue s!"{claimName}: value must not be negative")
  if !f.isIntegral then
    throw (.invalidClaimValue
      s!"{claimName}: fractional values are not permitted in this profile")
  if F64.lt (F64.ofInt (2 ^ 32 - 1)) f then
    throw (.invalidClaimValue s!"{claimName}: float magnitude {H.formatF64 f} exceeds u32 range")
  return UInt32.ofNat f.toInt.toNat

end

/-- A number given as a float or as an integer in the `i64` range. -/
def decodeNumber (value : Value) (outOfRange wrongType : CatError) : Except CatError F64 :=
  match value with
  | .float f => .ok f
  | .integer i =>
    match i.toI64? with
    | some v => .ok (F64.ofInt v.toInt)
    | none => .error outOfRange
  | _ => .error wrongType

/-- Integral numbers are written as integers. The bound, `i64::MAX as f64`, is rounded up to `2 ^
    63`. -/
def encodeNumberShortest (f : F64) : Value :=
  if f.isFinite && f.isIntegral && F64.lt f.abs (F64.ofInt (2 ^ 63 - 1)) then
    .integer (.ofI64 (Int64.ofInt f.toInt))
  else .float f

def i64Value (n : Int64) : Value := .integer (.ofI64 n)
def natValue (n : Nat) (h : n < 2 ^ 64) : Value := .integer (.ofNat n h)
def u32Value (n : UInt32) : Value := natValue n.toNat (by have := n.toNat_lt; omega)

def rejectUnexpectedTag (value : Value) (claimName : String) : Except CatError Unit :=
  match value with
  | .tag tag _ => .error (.invalidClaimValue
      s!"{claimName}: unexpected CBOR tag {tag.toNat} (claims MUST NOT be tagged per CTA-5007-B §4.5)")
  | _ => .ok ()

/-- The elements of an array of text strings. -/
def decodeTexts (wrongItem : CatError) : List Value → Except CatError (List String)
  | [] => .ok []
  | .text s :: vs => (decodeTexts wrongItem vs).map (s :: ·)
  | _ :: _ => .error wrongItem

def decodeTextArray (value : Value) (context : String) : Except CatError (List String) :=
  match value with
  | .array arr => decodeTexts (.invalidClaimValue s!"{context} must contain only text strings") arr
  | _ => .error (.invalidClaimValue s!"{context} must be an array")

/-! ## Match values -/

/-- The sort key of a map entry: its label, or `i64::MAX` where it has none. -/
def integerSortKey (v : Value) : Int64 :=
  match v with
  | .integer i => i.toI64?.getD (Int64.ofInt (2 ^ 63 - 1))
  | _ => Int64.ofInt (2 ^ 63 - 1)

/-- A stable sort, so of equal keys the first one stays first. -/
def sortIntegerKeyedMap (map : List (Value × Value)) : List (Value × Value) :=
  map.mergeSort fun a b => cborCanonicalKeyCmp (integerSortKey a.1) (integerSortKey b.1) ≠ .gt

def encodeMatchValue : MatchValue → Value × Value
  | .exact s => (i64Value matchExact, .text s)
  | .pre s => (i64Value matchPrefix, .text s)
  | .suf s => (i64Value matchSuffix, .text s)
  | .contains s => (i64Value matchContains, .text s)
  | .regex s => (i64Value matchRegex, .text s)
  | .sha256 h => (i64Value matchSha256, .bytes h)
  | .sha512_256 h => (i64Value matchSha512_256, .bytes h)

/-- Each kind of match has its own type of value. -/
def decodeMatchValue (key val : Value) : Except CatError MatchValue :=
  match key with
  | .integer i =>
    match i.toI64? with
    | none => .error .invalidTokenFormat
    | some matchType =>
      if matchType = matchExact then
        match val with | .text s => .ok (.exact s) | _ => .error .invalidTokenFormat
      else if matchType = matchPrefix then
        match val with | .text s => .ok (.pre s) | _ => .error .invalidTokenFormat
      else if matchType = matchSuffix then
        match val with | .text s => .ok (.suf s) | _ => .error .invalidTokenFormat
      else if matchType = matchContains then
        match val with | .text s => .ok (.contains s) | _ => .error .invalidTokenFormat
      else if matchType = matchRegex then
        match val with | .text s => .ok (.regex s) | _ => .error .invalidTokenFormat
      else if matchType = matchSha256 then
        match val with | .bytes b => .ok (.sha256 b) | _ => .error .invalidTokenFormat
      else if matchType = matchSha512_256 then
        match val with | .bytes b => .ok (.sha512_256 b) | _ => .error .invalidTokenFormat
      else .error (.invalidClaimValue s!"Unknown match type: {matchType.toInt}")
  | _ => .error .invalidTokenFormat

def MatchValue.isRegex : MatchValue → Bool
  | .regex _ => true
  | _ => false

/-! ## Network identifiers

Addresses are tagged octets, prefixes a tagged map from the length to the leading octets, and
networks by number are integers or pairs of them.
-/

/-- The octets that a prefix reaches into. -/
def prefixByteCount (prefixLen : UInt8) : Nat := (prefixLen.toNat + 7) / 8

/-- A prefix goes out as its leading octets, with whatever bits stand behind it in the last one. -/
def encodeNetworkIdentifier : NetworkIdentifier → Except Failure Value
  | .ipAddress (.v4 a) => .ok (.tag cborTagIpv4 (.bytes (IpAddr.v4 a).octets))
  | .ipAddress (.v6 a) => .ok (.tag cborTagIpv6 (.bytes (IpAddr.v6 a).octets))
  | .ipPrefix addr prefixLen =>
    let tag := match addr with | .v4 _ => cborTagIpv4 | .v6 _ => cborTagIpv6
    let prefixBytes := prefixByteCount prefixLen
    -- `addr_bytes[..prefix_bytes]` panics when the prefix is longer than the address
    if addr.octets.length < prefixBytes then .error .panicked
    else .ok (.tag tag (.map [(natValue prefixLen.toNat (by have := prefixLen.toNat_lt; omega),
      .bytes (addr.octets.take prefixBytes))]))
  | .asn asn => .ok (u32Value asn)
  | .asnRange start stop => .ok (.array [u32Value start, u32Value stop])

/-- A prefix of whole octets has no bits behind it. -/
def validateHostBitsZero (prefixBytes : Bytes) (prefixLen : UInt8) : Except CatError Unit :=
  let bitsInLastByte := prefixLen % 8
  match prefixBytes.getLast? with
  | none => .ok ()
  | some last =>
    if bitsInLastByte ≠ 0 ∧ last &&& (0xFF >>> bitsInLastByte) ≠ 0 then
      .error (.invalidClaimValue s!"catnip: non-zero host bits in prefix /{prefixLen.toNat}")
    else .ok ()

/-- The address whose leading octets these are, the rest being zero. -/
def paddedAddress (octets : Bytes) (width : Nat) : Nat :=
  BigEndian.toNat (octets.take width ++ List.replicate (width - octets.length) 0)

/-- The prefix length named by the single key of a prefix map. -/
def decodePrefixLen (tag : UInt64) (key : Value) : Except CatError UInt8 :=
  match key with
  | .integer i =>
    match i.toI64? with
    | none => .error .invalidTokenFormat
    | some val =>
      let ofMax (maxBits : Nat) : Except CatError UInt8 :=
        if val.toInt < 0 ∨ (maxBits : Int) < val.toInt then
          .error (.invalidClaimValue
            s!"catnip: prefix length {val.toInt} out of range for tag {tag.toNat} (max {maxBits})")
        else .ok (UInt8.ofNat val.toInt.toNat)
      if tag = cborTagIpv4 then ofMax 32
      else if tag = cborTagIpv6 then ofMax 128
      else .error (.invalidClaimValue s!"Unknown IP tag: {tag.toNat}")
  | _ => .error .invalidTokenFormat

def decodeAsn (value : Value) : Except CatError UInt32 :=
  match value with
  | .integer i =>
    match i.toU32? with
    | some asn => .ok asn
    | none => .error .invalidTokenFormat
  | _ => .error .invalidTokenFormat

def decodeNetworkIdentifier (value : Value) : Except CatError NetworkIdentifier :=
  match value with
  | .tag tag (.bytes bytes) =>
    if tag = cborTagIpv4 ∧ bytes.length = 4 then
      .ok (.ipAddress (.v4 (BitVec.ofNat 32 (BigEndian.toNat bytes))))
    else if tag = cborTagIpv6 ∧ bytes.length = 16 then
      .ok (.ipAddress (.v6 (BitVec.ofNat 128 (BigEndian.toNat bytes))))
    else .error (.invalidClaimValue
      s!"Invalid IP tag/size: tag={tag.toNat}, len={bytes.length}")
  | .tag tag (.map [(k, v)]) => do
    let prefixLen ← decodePrefixLen tag k
    let prefixBytes ← match v with
      | .bytes b => pure b
      | _ => throw .invalidTokenFormat
    let expectedByteCount := prefixByteCount prefixLen
    if prefixBytes.length ≠ expectedByteCount then
      throw (.invalidClaimValue
        s!"catnip: address-with-prefix form not allowed (got {prefixBytes.length} bytes for /{prefixLen.toNat} prefix, expected {expectedByteCount})")
    validateHostBitsZero prefixBytes prefixLen
    if tag = cborTagIpv4 then
      return .ipPrefix (.v4 (BitVec.ofNat 32 (paddedAddress prefixBytes 4))) prefixLen
    else if tag = cborTagIpv6 then
      return .ipPrefix (.v6 (BitVec.ofNat 128 (paddedAddress prefixBytes 16))) prefixLen
    else throw (.invalidClaimValue s!"Unknown IP tag: {tag.toNat}")
  | .integer i => (decodeAsn (.integer i)).map .asn
  | .array [start, stop] => do
    let start ← decodeAsn start
    let stop ← decodeAsn stop
    return .asnRange start stop
  | _ => .error .invalidTokenFormat

/-! ## MOQT matches -/

/-- The wildcard has no encoding. An empty prefix or suffix, which matches as much, has one. -/
def encodeBinaryMatch (m : BinaryMatch) : Except CatError Value :=
  match m.matchType with
  | .any => .error (.invalidClaimValue
      "BinaryMatch::Any cannot be encoded on the wire; use Option::None to omit")
  | .exact => .ok (.bytes m.pattern)
  | .pre => .ok (.array [i64Value matchTypePrefix, .bytes m.pattern])
  | .suf => .ok (.array [i64Value matchTypeSuffix, .bytes m.pattern])

/-- The match for no element is written as null. -/
def encodeNamespaceMatch : NamespaceMatch → Except CatError Value
  | .nil => .ok .null
  | .match_ m =>
    if m.matchType = .any then
      .error (.invalidClaimValue
        "Namespace wildcard must use Option::None, not BinaryMatch::Any")
    else encodeBinaryMatch m

/-- An exact match is a plain byte string, a prefix or suffix a pair, and neither of the latter is
    empty. -/
def decodeBinaryMatch (value : Value) : Except CatError BinaryMatch :=
  match value with
  | .null => .error (.invalidClaimValue
      "CBOR null is not a valid binary match; use omission for wildcard")
  | .bytes data => .ok ⟨.exact, data⟩
  | .array [t, p] => do
    let matchType ← match t with
      | .integer i => match i.toI64? with
        | some v => pure v
        | none => throw .invalidTokenFormat
      | _ => throw .invalidTokenFormat
    let pattern ← match p with
      | .bytes data => pure data
      | _ => throw .invalidTokenFormat
    if matchType = matchTypePrefix then
      if pattern.isEmpty then
        throw (.invalidClaimValue "prefix match pattern must not be empty")
      else return ⟨.pre, pattern⟩
    else if matchType = matchTypeSuffix then
      if pattern.isEmpty then
        throw (.invalidClaimValue "suffix match pattern must not be empty")
      else return ⟨.suf, pattern⟩
    else throw (.invalidClaimValue s!"Unknown match type: {matchType.toInt}")
  | _ => .error .invalidTokenFormat

def decodeNamespaceMatch : Value → Except CatError NamespaceMatch
  | .null => .ok .nil
  | value => (decodeBinaryMatch value).map .match_

end Cat
