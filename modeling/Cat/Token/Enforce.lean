import Cat.Crypto
import Cat.Lib.Lru
import Cat.Uri

/-!
# Request guards

One guard per restriction claim, each judging the claim against its part of the request. A guard
passes a token that does not carry its claim. Most fail closed: an absent context input or a
list that nothing matches is an error. `enforceCatnip` and `enforceGeo` let an empty list pass.

Guards are functions of the claim and the part of the request they look at, and return nothing
or an error whose text is the source's. `catpor` also has the draw and the block list, which it
reads and writes. Matching is shared by several guards and stands in front of them: a pattern
and a text, with the comparisons by prefix, suffix, hash and regular expression that a match
value may ask for.

The distance on the sphere is in floating-point operations that are parameters, so
`within_radius` is modelled down to the last operation and nothing is said about what it rounds
to.
-/

set_option autoImplicit false

namespace Cat

open Cbor

/-- What a call reads from the machine: the two clocks and eight random bytes, if the
    generator delivers them. -/
structure Ambient where
  /-- `Utc::now().timestamp()`. -/
  utcNow : Int64
  /-- Seconds since the epoch by `SystemTime`. -/
  now : Int64
  draw : Option UInt64
  deriving DecidableEq

/-- The peer's resolved position. It has no altitude. -/
structure RequestLocation where
  latitude : Option F64 := none
  longitude : Option F64 := none
  countryCode : Option String := none
  subdivisionCode : Option String := none
  geohash : Option String := none
  ipAddress : Option IpAddr := none
  deriving DecidableEq

/-! ## Network identifiers -/

/-- The high `len` bits of a word. -/
def prefixMask (w len : Nat) : BitVec w :=
  if len = w then BitVec.allOnes w else ~~~((1#w <<< (w - len)) - 1#w)

/-- Length zero is decided before anything is shifted; a length beyond the word matches nothing. -/
def bitsInPrefix {w : Nat} (peer net : BitVec w) (len : Nat) : Bool :=
  if len = 0 then true
  else if len > w then false
  else peer &&& prefixMask w len == net &&& prefixMask w len

/-- An address of the other family is in no prefix, whatever the length. -/
def ipInPrefix (peer net : IpAddr) (prefixLen : UInt8) : Bool :=
  match peer, net with
  | .v4 p, .v4 n => bitsInPrefix p n prefixLen.toNat
  | .v6 p, .v6 n => bitsInPrefix p n prefixLen.toNat
  | _, _ => false

namespace NetworkIdentifier

def matchesIp (n : NetworkIdentifier) (peer : IpAddr) : Bool :=
  match n with
  | .ipAddress addr => addr == peer
  | .ipPrefix addr len => ipInPrefix peer addr len
  | .asn _ | .asnRange _ _ => false

/-- A range is closed at both ends. -/
def matchesAsn (n : NetworkIdentifier) (peerAsn : UInt32) : Bool :=
  match n with
  | .asn a => a == peerAsn
  | .asnRange start stop => peerAsn ≥ start && peerAsn ≤ stop
  | .ipAddress _ | .ipPrefix _ _ => false

def isIpBased : NetworkIdentifier → Bool
  | .ipAddress _ | .ipPrefix _ _ => true
  | .asn _ | .asnRange _ _ => false

def isAsnBased : NetworkIdentifier → Bool
  | .asn _ | .asnRange _ _ => true
  | .ipAddress _ | .ipPrefix _ _ => false

/-- A peer that is known by the address, or by the network it is in. -/
def matchesPeer (n : NetworkIdentifier) (peerIp : Option IpAddr) (peerAsn : Option UInt32) :
    Bool :=
  (match peerIp with
    | some ip => n.matchesIp ip
    | none => false) ||
  (match peerAsn with
    | some a => n.matchesAsn a
    | none => false)

end NetworkIdentifier

section
variable (H : Host)

/-! ## Match values -/

/-- In bytes. A longer input matches no pattern. -/
def maxRegexInputLen : Nat := 4096

/-- One match value against an input. The compiled-regex cache is left out: it only saves
    compiling a pattern again. -/
def applyMatchValue (mv : MatchValue) (input : List Char) : Bool :=
  let text := String.ofList input
  match mv with
  | .exact s => input == s.toList
  | .pre s => s.toList.isPrefixOf input
  | .suf s => s.toList.isSuffixOf input
  | .contains s => (input.splitOnceAt s.toList).isSome
  | .regex pattern =>
    if (utf8 text).length > maxRegexInputLen then false
    else match H.regex pattern with
      | some isMatch => isMatch text
      | none => false
  | .sha256 expected => H.sha256 (utf8 text) == expected
  | .sha512_256 expected => H.sha512_256 (utf8 text) == expected

/-! ## The guards -/

/-- Methods are compared as they are, letter case included; an empty list has none. -/
def validateMethod (token : CatToken) (method : String) : Except CatError Unit :=
  match token.cat.catm with
  | none => .ok ()
  | some methods =>
    if methods.contains method then .ok ()
    else .error (.invalidClaimValue s!"Method not allowed: {method}")

/-- Unfolding from some point on; `true` right after a fold, where blanks are dropped. -/
def unfoldFrom : Bool → List Char → List Char
  | true, ' ' :: rest => unfoldFrom true rest
  | true, '\t' :: rest => unfoldFrom true rest
  | _, '\r' :: '\n' :: ' ' :: rest => ' ' :: unfoldFrom true rest
  | _, '\r' :: '\n' :: '\t' :: rest => ' ' :: unfoldFrom true rest
  | _, c :: rest => c :: unfoldFrom false rest
  | _, [] => []

def unfoldHeaderValue (value : List Char) : List Char := unfoldFrom false value

/-- Of several headers with the rule's name `find` takes the first, and it alone is judged. -/
def validateHeader (requestHeaders : List (String × String)) (rule : HeaderMatchRule) :
    Except CatError Unit :=
  match requestHeaders.find? fun h => eqIgnoreAsciiCase rule.name.toList h.1.toList with
  | some (_, value) =>
    let unfolded := unfoldHeaderValue value.toList
    if rule.matches_.any fun mv => applyMatchValue H mv unfolded then .ok ()
    else .error (.invalidClaimValue s!"Header '{rule.name}' value does not match any rule")
  | none => .error (.invalidClaimValue s!"Required header '{rule.name}' is missing from request")

/-- Every rule has to be met, in the order of the list: the error is that of the first that is not.
    -/
def validateAllHeaders (token : CatToken) (requestHeaders : List (String × String)) :
    Except CatError Unit :=
  match token.cat.cath with
  | none => .ok ()
  | some rules => rules.forM (validateHeader H requestHeaders)

/-- One match is enough, of the component that the rule is about. -/
def enforceCatuRule (components : UriComponents) (rule : UriMatchRule) : Except CatError Unit :=
  if rule.matches_.any fun mv => applyMatchValue H mv (components.component rule.component) then
    .ok ()
  else .error (.invalidClaimValue
    s!"catu: URI component {rule.component.toInt} does not match any allowed value")

/-- The URI is normalized and taken apart once. One that cannot be is refused, whatever the rules.
    -/
def enforceCatu (token : CatToken) (requestUri : String) : Except CatError Unit := do
  match token.cat.catu with
  | none => return
  | some rules =>
    let components ← decomposeUri requestUri
    rules.forM (enforceCatuRule H components)

/-- An empty list is skipped. Otherwise everything that the list is about has to be known, even
    where another of its identifiers would match. -/
def enforceCatnip (token : CatToken) (peerIp : Option IpAddr) (peerAsn : Option UInt32) :
    Except CatError Unit :=
  match token.cat.catnip with
  | none => .ok ()
  | some nips =>
    if nips.isEmpty then .ok ()
    else if nips.any (·.isIpBased) && peerIp.isNone then
      .error (.missingRelayContext "catnip" "peer_ip")
    else if nips.any (·.isAsnBased) && peerAsn.isNone then
      .error (.missingRelayContext "catnip" "peer_asn")
    else if nips.any (·.matchesPeer peerIp peerAsn) then .ok ()
    else .error (.invalidClaimValue
      "catnip: peer network identifier does not match any token identifier")

/-! ## Position -/

/-- The distance on a sphere of 6371 km. The order of operations is that of the source, since each
    of them rounds. -/
def haversineMetres (lat1Deg lon1Deg lat2Deg lon2Deg : F64) : F64 :=
  let F := H.float
  let two := F64.ofInt 2
  let lat1 := F.toRadians lat1Deg
  let lat2 := F.toRadians lat2Deg
  let dlat := F.toRadians (F.sub lat2Deg lat1Deg)
  let dlon := F.toRadians (F.sub lon2Deg lon1Deg)
  let a := F.add (F.square (F.sin (F.div dlat two)))
    (F.mul (F.mul (F.cos lat1) (F.cos lat2)) (F.square (F.sin (F.div dlon two))))
  let c := F.mul two (F.asin (F.sqrt a))
  F.mul (F64.ofInt 6371000) c

/-- A code with a hyphen asks for country and subdivision, one without for the country alone. -/
def codeMatches (location : RequestLocation) (country code : String) : Bool :=
  match code.toList.splitOnce '-' with
  | some (c, sub) =>
    eqIgnoreAsciiCase c country.toList &&
      (match location.subdivisionCode with
        | some s => eqIgnoreAsciiCase s.toList sub
        | none => false)
  | none => eqIgnoreAsciiCase code.toList country.toList

def enforceIso3166 (location : RequestLocation) (codes : List String) : Except CatError Unit :=
  match location.countryCode with
  | none => .error (.missingRelayContext "catgeoiso3166" "peer_location.country_code")
  | some country =>
    if codes.any (codeMatches location country) then .ok ()
    else .error (.geographicValidationFailed
      "peer country/subdivision does not match catgeoiso3166")

/-- A peer on the rim is inside. -/
def inZone (lat lon : F64) (zone : GeoCoordinate) : Bool :=
  F64.le (haversineMetres H zone.lat zone.lon lat lon) (F64.ofInt zone.radius.toNat)

/-- Zones are alternatives. Both coordinates have to be known. -/
def enforceGeocoord (location : RequestLocation) (zones : List GeoCoordinate) :
    Except CatError Unit :=
  match location.latitude, location.longitude with
  | none, _ => .error (.missingRelayContext "catgeocoord" "peer_location.latitude")
  | some _, none => .error (.missingRelayContext "catgeocoord" "peer_location.longitude")
  | some lat, some lon =>
    if zones.any (inZone H lat lon) then .ok ()
    else .error (.geographicValidationFailed "peer coordinates outside every catgeocoord zone")

/-- The token's hash is a prefix of the peer's: a shorter hash is a larger cell. -/
def enforceGeohash (location : RequestLocation) (hashes : List String) : Except CatError Unit :=
  match location.geohash with
  | none => .error (.missingRelayContext "geohash" "peer_location.geohash")
  | some peerHash =>
    if hashes.any fun t => t.toList.isPrefixOf peerHash.toList then .ok ()
    else .error (.geographicValidationFailed "peer geohash does not match any catgeo geohash")

/-- A geographic list that is there and has an element. -/
def nonempty? {α : Type} (claim : Option (List α)) : Option (List α) :=
  claim.filter fun list => !list.isEmpty

/-- Lists with an element are judged, each by itself, and all have to be met; an altitude is not
    looked at. Without any such list no location is needed. -/
def enforceGeo (token : CatToken) (peerLocation : Option RequestLocation) :
    Except CatError Unit := do
  let iso := nonempty? token.cat.catgeoiso3166
  let coord := nonempty? token.cat.catgeocoord
  let geohash := nonempty? token.cat.geohash
  if iso.isNone && coord.isNone && geohash.isNone then return
  match peerLocation with
  | none => throw (.missingRelayContext "catgeo*" "peer_location")
  | some location =>
    iso.forM (enforceIso3166 location)
    coord.forM (enforceGeocoord H location)
    geohash.forM (enforceGeohash location)

end

/-! ## Probability of rejection -/

def porBlockListShards : Nat := 16

/-- The block list: independently bounded shards, an id in the shard its hash picks. -/
structure CatPorBlockList where
  shards : Fin porBlockListShards → Lru Bytes (Option Int64)
  hash : Bytes → UInt64

namespace CatPorBlockList

/-- The capacity is divided over the shards and rounded up, so that none is without room. -/
def withCapacity (hash : Bytes → UInt64) (capacity : Nat) : CatPorBlockList where
  shards _ := .empty (max ((capacity + porBlockListShards - 1) / porBlockListShards) 1)
  hash

def shardFor (l : CatPorBlockList) (id : Bytes) : Fin porBlockListShards :=
  ⟨(l.hash id).toNat % porBlockListShards, Nat.mod_lt _ (by decide)⟩

/-- Whether a block is still in force. -/
def inForce (now : Int64) : Option Int64 → Bool
  | some expTs => now < expTs
  | none => true

/-- Looking an id up keeps its entry from being evicted. -/
def isBlocked (l : CatPorBlockList) (now : Int64) (id : Bytes) : Bool × CatPorBlockList :=
  let (entry, shard) := (l.shards (l.shardFor id)).get id
  (match entry with
    | some expiration => inForce now expiration
    | none => false,
   { l with shards := Function.update l.shards (l.shardFor id) shard })

/-- An entry that is there is replaced. In a full shard the one that was not used for longest goes.
    -/
def add (l : CatPorBlockList) (id : Bytes) (expiration : Option Int64) : CatPorBlockList :=
  { l with
    shards := Function.update l.shards (l.shardFor id)
      ((l.shards (l.shardFor id)).put id expiration) }

end CatPorBlockList

/-- Eight random bytes as a fraction: `u64::MAX as f64` is `2^64`. -/
def catporVariate (draw : UInt64) : F64 := (F64.ofInt draw.toNat).divPow2 64

/-- An id that is blocked is refused without a draw. A draw that refuses blocks the id, until the
    expiration that the claim gives for it. -/
def enforceCatpor (env : Ambient) (token : CatToken) (blockList : CatPorBlockList) :
    Except CatError Unit × CatPorBlockList :=
  match token.cat.catpor with
  | none => (.ok (), blockList)
  | some catpor =>
    match blockList.isBlocked env.utcNow catpor.id with
    | (true, blockList) => (.error .rejectedByProbability, blockList)
    | (false, blockList) =>
      match env.draw with
      | none => (.error (.keyOperationFailed "RNG failed"), blockList)
      | some draw =>
        if F64.lt (catporVariate draw) catpor.probability then
          (.error .rejectedByProbability, blockList.add catpor.id catpor.expiration)
        else (.ok (), blockList)

end Cat
