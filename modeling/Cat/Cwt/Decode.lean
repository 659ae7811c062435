import Cat.Cwt.Values
import Cat.Lib.Hex

/-!
# Decoding a payload

`Cwt::decode_payload_with_limits_and_counters`, one definition per arm of its match on the claim
label. An arm computes what it assigns to the token, a `DecodedClaim`; the loop over the map's
entries (`decodeEntries`) applies it. An arm that leaves the token alone — a `cnf` map without a
thumbprint, an empty coordinate list — decodes to a `DecodedClaim` that holds nothing.

The split into arms is not in the source, where the match is one long function over a mutable
token. It changes nothing of what is computed: no arm reads the token it assigns to, and the
counters, which every arm may move, are passed through all of them in order (`Decode`). It is
what allows one lemma for each claim, in `Forms`.

Texts of errors and names of claims are those of the source, since they are what an operator
sees; the order of the checks inside an arm is kept too, because the first failure is the one
that is reported.

Composite claims re-enter the decoder: a claim set is written out again and read back. The
recursion is on `fuel`, one unit for each nested composite. Composites nest inside arrays inside
maps, and the ordering check bounds that nesting by `max_nesting_depth`, so
`decodePayloadWithLimitsAndCounters` starts with more than a payload can use.
-/

set_option autoImplicit false

namespace Cat

open Cbor

/-- What one claim of the payload sets in the token. -/
inductive DecodedClaim where
  | iss (s : String)
  | aud (ss : List String)
  | exp (n : Int64)
  | nbf (n : Int64)
  | cti (b : Bytes)
  | catreplay (r : ReplayProtection)
  | catpor (p : ProbabilityOfRejection)
  | catv (v : UInt32)
  | catnip (ns : List NetworkIdentifier)
  | catu (rs : List UriMatchRule)
  | catm (ms : List String)
  | catalpn (as : List Bytes)
  | cath (rs : List HeaderMatchRule)
  | catgeoiso3166 (cs : List String)
  | catgeocoord (cs : Option (List GeoCoordinate))
  | geohash (hs : Option (List String))
  | catgeoalt (a : GeoAltitude)
  | cattpk (b : Bytes)
  | sub (s : String)
  | iat (n : Int64)
  | catifdata (ss : Option (List String))
  | cnf (c : Option ConfirmationClaim)
  | catdpop (s : CatDpopSettings)
  | catif (as : Option (List (Int64 × CatIfAction)))
  | catr (r : Option CatRenewal)
  | moqt (ss : List MoqtScope)
  | moqtReval (f : F64)
  | orClaim (c : CompositeClaim)
  | norClaim (c : CompositeClaim)
  | andClaim (c : CompositeClaim)
  | custom (id : Int64) (h : isReservedClaimId id = false) (v : Value)

/-- The assignment an arm of the match ends with. An arm that found nothing to assign
    leaves the field as it was. -/
def CatToken.assign (t : CatToken) : DecodedClaim → CatToken
  | .iss s => { t with core := { t.core with iss := some s } }
  | .aud ss => { t with core := { t.core with aud := some ss } }
  | .exp n => { t with core := { t.core with exp := some n } }
  | .nbf n => { t with core := { t.core with nbf := some n } }
  | .cti b => { t with core := { t.core with cti := some b } }
  | .catreplay r => { t with cat := { t.cat with catreplay := some r } }
  | .catpor p => { t with cat := { t.cat with catpor := some p } }
  | .catv v => { t with cat := { t.cat with catv := some v } }
  | .catnip ns => { t with cat := { t.cat with catnip := some ns } }
  | .catu rs => { t with cat := { t.cat with catu := some rs } }
  | .catm ms => { t with cat := { t.cat with catm := some ms } }
  | .catalpn as => { t with cat := { t.cat with catalpn := some as } }
  | .cath rs => { t with cat := { t.cat with cath := some rs } }
  | .catgeoiso3166 cs => { t with cat := { t.cat with catgeoiso3166 := some cs } }
  | .catgeocoord (some cs) => { t with cat := { t.cat with catgeocoord := some cs } }
  | .geohash (some hs) => { t with cat := { t.cat with geohash := some hs } }
  | .catgeoalt a => { t with cat := { t.cat with catgeoalt := some a } }
  | .cattpk b => { t with cat := { t.cat with cattpk := some b } }
  | .sub s => { t with informational := { t.informational with sub := some s } }
  | .iat n => { t with informational := { t.informational with iat := some n } }
  | .catifdata (some ss) => { t with informational := { t.informational with catifdata := some ss } }
  | .cnf (some c) => { t with dpop := { t.dpop with cnf := some c } }
  | .catdpop s => { t with dpop := { t.dpop with catdpop := some s } }
  | .catif (some as) => { t with request := { t.request with catif := some as } }
  | .catr (some r) => { t with request := { t.request with catr := some r } }
  | .moqt ss => { t with moqt := { t.moqt with moqt := some ss } }
  | .moqtReval f => { t with moqt := { t.moqt with moqtReval := some f } }
  | .orClaim c => { t with composite := { t.composite with orClaim := some c } }
  | .norClaim c => { t with composite := { t.composite with norClaim := some c } }
  | .andClaim c => { t with composite := { t.composite with andClaim := some c } }
  | .custom id h v => { t with custom := t.custom.insert id v h }
  | .catgeocoord none | .geohash none | .catifdata none | .cnf none | .catif none | .catr none => t

section
variable (H : Host) (limits : CwtLimits)

open DecodeCounters

/-! ## Text and number claims

One function for each arm of the source's match. A text is compared with its own limit first and
counted against the aggregate after that, and the counters stay moved when a later check fails:
it makes no difference to anybody, since a failing payload is dropped with its counters.
-/

def validateStringLengthWithLimit (s : String) (claimName : String) (maxLength : Nat) :
    Except CatError Unit :=
  let len := (utf8 s).length
  if len > maxLength then
    .error (.invalidClaimValue
      s!"{claimName} too long: {len} bytes (max {maxLength} bytes)")
  else .ok ()

/-- A string claim of limited length, counted against the aggregate. -/
def countedString (claimName : String) (s : String) : Decode Unit := do
  validateStringLengthWithLimit s claimName limits.maxStringClaimLength
  countString (utf8 s).length limits

/-- The claims that are one text. Its length counts twice: by itself, and towards the total. -/
def decodeTextClaim (tagName claimName : String) (value : Value) : Decode String := do
  rejectUnexpectedTag value tagName
  match value with
  | .text s =>
    countedString limits claimName s
    return s
  | _ => throw (.invalidClaimValue s!"{tagName} must be a text string")

def decodeIss (value : Value) : Decode String := decodeTextClaim limits "iss" "issuer" value
def decodeSub (value : Value) : Decode String := decodeTextClaim limits "sub" "subject" value

def decodeAudience (item : Value) : Decode String := do
  countItem limits
  match item with
  | .text s =>
    countedString limits "audience" s
    return s
  | _ => throw (.invalidClaimValue "aud array items must be text strings")

/-- A text stands for the list that has it alone. -/
def decodeAud (value : Value) : Decode (List String) := do
  rejectUnexpectedTag value "aud"
  match value with
  | .text s =>
    countedString limits "audience" s
    return [s]
  | .array arr => arr.mapM' (decodeAudience limits)
  | _ => throw (.invalidClaimValue "aud must be a text string or array of text strings")

/-- An integer of 64 bits, or a float that is one. -/
def decodeNumericDate (name : String) (value : Value) : Decode Int64 := do
  rejectUnexpectedTag value name
  match value with
  | .integer i =>
    match i.toI64? with
    | some n => return n
    | none => throw .invalidTokenFormat
  | .float f => safeFloatToI64 H f name
  | _ => throw (.invalidClaimValue s!"{name} must be an integer or float")

def decodeExp (value : Value) : Decode Int64 := decodeNumericDate H "exp" value
def decodeNbf (value : Value) : Decode Int64 := decodeNumericDate H "nbf" value
def decodeIat (value : Value) : Decode Int64 := decodeNumericDate H "iat" value

def decodeCti (value : Value) : Decode Bytes := do
  rejectUnexpectedTag value "cti"
  match value with
  | .bytes b => return b
  | _ => throw (.invalidClaimValue "cti must be a byte string")

def decodeCattpk (value : Value) : Decode Bytes := do
  rejectUnexpectedTag value "cattpk"
  match value with
  | .bytes b => return b
  | _ => throw (.invalidClaimValue "cattpk must be bytes")

/-! ## CAT claims

The lists among them differ in what an empty one is. Networks, methods and protocols keep it,
zones and hashes drop it, and with the claim its restriction.
-/

def decodeCatreplay (value : Value) : Decode ReplayProtection := do
  rejectUnexpectedTag value "catreplay"
  match value with
  | .integer i =>
    match i.toU32? with
    | some v => ReplayProtection.tryFrom v
    | none => throw (.invalidClaimValue "Invalid catreplay value")
  | _ => throw (.invalidClaimValue "catreplay must be an integer")

/-- A probability outside of the unit interval is refused here, whoever signed it. -/
def decodeCatpor (value : Value) : Decode ProbabilityOfRejection := do
  rejectUnexpectedTag value "catpor"
  let (p, id, e) ← match value with
    | .array [p, id] => pure (p, id, none)
    | .array [p, id, e] => pure (p, id, some e)
    | _ => throw (.invalidClaimValue "catpor must be an array with 2 or 3 elements")
  let probability ← decodeNumber p .invalidTokenFormat
    (.invalidClaimValue "Invalid catpor probability")
  let id ← match id with
    | .bytes b => pure b
    | _ => throw (.invalidClaimValue "Invalid catpor id")
  let expiration ← match e with
    | none => pure none
    | some (.integer i) => match i.toI64? with
      | some n => pure (some n)
      | none => throw .invalidTokenFormat
    | some _ => throw (.invalidClaimValue "catpor expiration must be an integer")
  validateFloat probability "catpor.probability"
  if !(F64.le (F64.ofInt 0) probability && F64.le probability (F64.ofInt 1)) then
    throw (.invalidClaimValue
      s!"catpor probability must be in [0.0, 1.0], got {H.formatF64 probability}")
  return ⟨probability, id, expiration⟩

/-- Any number of 32 bits; which versions are supported is asked when the token is validated. -/
def decodeCatv (value : Value) : Decode UInt32 := do
  rejectUnexpectedTag value "catv"
  match value with
  | .integer i =>
    match i.toU32? with
    | some v => return v
    | none => throw (.invalidClaimValue "Invalid catv value")
  | _ => throw (.invalidClaimValue "catv must be an integer")

def decodeNip (item : Value) : Decode NetworkIdentifier := do
  countItem limits
  decodeNetworkIdentifier item

/-- The number of identifiers has a limit of its own, before any of them is read. -/
def decodeCatnip (value : Value) : Decode (List NetworkIdentifier) := do
  rejectUnexpectedTag value "catnip"
  match value with
  | .array arr =>
    if arr.length > limits.maxCatnipEntries then
      throw (.invalidCbor
        s!"Too many catnip entries: {arr.length} exceeds limit of {limits.maxCatnipEntries}")
    arr.mapM' (decodeNip limits)
  | _ => throw (.invalidClaimValue "catnip must be an array")

/-- One member of a match map, counted when it is a regular expression. -/
def decodeCountedMatch (e : Value × Value) : Decode MatchValue := do
  let m ← decodeMatchValue e.1 e.2
  if m.isRegex then countRegex limits
  return m

/-- A rule is counted as one pattern, however many matches it has. -/
def decodeUriRule (e : Value × Value) : Decode UriMatchRule := do
  let component ← match e.1 with
    | .integer i => match i.toI64? with
      | some n => pure n
      | none => throw .invalidTokenFormat
    | _ => throw (.invalidClaimValue "catu map keys must be integers")
  let matchMap ← match e.2 with
    | .map m => pure m
    | _ => throw (.invalidClaimValue "catu map values must be maps")
  let ms ← matchMap.mapM' (decodeCountedMatch limits)
  countUriPattern limits
  return ⟨component, ms⟩

def decodeCatu (value : Value) : Decode (List UriMatchRule) := do
  rejectUnexpectedTag value "catu"
  match value with
  | .map map => map.mapM' (decodeUriRule limits)
  | _ => throw (.invalidClaimValue "catu must be a map")

/-- An element of an array whose every element counts as an item and must be text. -/
def decodeCountedText (wrongItem : String) (item : Value) : Decode String := do
  countItem limits
  match item with
  | .text s => return s
  | _ => throw (.invalidClaimValue wrongItem)

def decodeCatm (value : Value) : Decode (List String) := do
  rejectUnexpectedTag value "catm"
  match value with
  | .array arr =>
    if arr.length > 50 then
      throw (.invalidClaimValue s!"catm: too many methods ({arr.length}, max 50)")
    arr.mapM' (decodeCountedText limits "catm array items must be text strings")
  | _ => throw (.invalidClaimValue "catm must be an array")

def decodeAlpn (item : Value) : Decode Bytes := do
  countItem limits
  match item with
  | .bytes b => return b
  | _ => throw (.invalidClaimValue
      "catalpn array items must be byte strings per CTA-5007-B §4.6.8")

def decodeCatalpn (value : Value) : Decode (List Bytes) := do
  rejectUnexpectedTag value "catalpn"
  match value with
  | .array arr =>
    if arr.length > 50 then
      throw (.invalidClaimValue s!"catalpn: too many entries ({arr.length}, max 50)")
    arr.mapM' (decodeAlpn limits)
  | _ => throw (.invalidClaimValue "catalpn must be an array")

def decodeHeaderRule (e : Value × Value) : Decode HeaderMatchRule := do
  let name ← match e.1 with
    | .text s => pure s
    | _ => throw (.invalidClaimValue "cath map keys must be text strings")
  let matchMap ← match e.2 with
    | .map m => pure m
    | _ => throw (.invalidClaimValue "cath map values must be maps")
  let ms ← matchMap.mapM' (decodeCountedMatch limits)
  return ⟨name, ms⟩

def decodeCath (value : Value) : Decode (List HeaderMatchRule) := do
  rejectUnexpectedTag value "cath"
  match value with
  | .map map => map.mapM' (decodeHeaderRule limits)
  | _ => throw (.invalidClaimValue "cath must be a map")

def decodeCatgeoiso3166 (value : Value) : Decode (List String) := do
  rejectUnexpectedTag value "catgeoiso3166"
  match value with
  | .array arr =>
    arr.mapM' (decodeCountedText limits "catgeoiso3166 array items must be text strings")
  | _ => throw (.invalidClaimValue "catgeoiso3166 must be an array")

/-- In whole metres, as an integer or as a float. -/
def decodeRadius (value : Value) : Except CatError UInt32 :=
  match value with
  | .integer r =>
    match r.toI64? with
    | none => .error (.invalidClaimValue "Invalid catgeocoord radius")
    | some v =>
      if v.toInt < 0 then .error (.invalidClaimValue "catgeocoord radius must not be negative")
      else if v.toInt < 2 ^ 32 then .ok (UInt32.ofNat v.toInt.toNat)
      else .error (.invalidClaimValue "catgeocoord radius exceeds u32 range")
  | .float f => safeFloatToU32 H f "catgeocoord radius"
  | _ => .error (.invalidClaimValue "catgeocoord radius must be a number")

/-- Latitude, longitude, radius, in this order. Ranges are checked after both numbers have been
    read. -/
def decodeZone (zone : Value) : Decode GeoCoordinate := do
  countItem limits
  match zone with
  | .array [lat, lon, radius] =>
    let lat ← decodeNumber lat (.invalidClaimValue "Invalid catgeocoord latitude")
      (.invalidClaimValue "catgeocoord latitude must be a number")
    let lon ← decodeNumber lon (.invalidClaimValue "Invalid catgeocoord longitude")
      (.invalidClaimValue "catgeocoord longitude must be a number")
    let radius ← decodeRadius H radius
    validateFloat lat "catgeocoord.lat"
    validateFloat lon "catgeocoord.lon"
    if F64.lt (F64.ofInt 90) lat.abs then
      throw (.invalidClaimValue "catgeocoord latitude out of range (-90 to 90)")
    if F64.lt (F64.ofInt 180) lon.abs then
      throw (.invalidClaimValue "catgeocoord longitude out of range (-180 to 180)")
    return ⟨lat, lon, radius⟩
  | .array elements => throw (.invalidClaimValue
      s!"catgeocoord zone must have exactly 3 elements (lat, lon, radius), got {elements.length}")
  | _ => throw (.invalidClaimValue "catgeocoord zones must be arrays")

/-- An empty list of zones is dropped. -/
def decodeCatgeocoord (value : Value) : Decode (Option (List GeoCoordinate)) := do
  match ← unwrapCrsTag value with
  | .array zones =>
    let coords ← zones.mapM' (decodeZone H limits)
    return if coords.isEmpty then none else some coords
  | _ => throw (.invalidClaimValue "catgeocoord must be an array")

/-- An empty list of hashes is dropped. -/
def decodeGeohash (value : Value) : Decode (Option (List String)) := do
  match ← unwrapCrsTag value with
  | .text s => return some [s]
  | .array arr =>
    let hashes ← decodeTexts (.invalidClaimValue "geohash array items must be text strings") arr
    return if hashes.isEmpty then none else some hashes
  | _ => throw (.invalidClaimValue "geohash must be text or an array of text")

def decodeCatgeoalt (value : Value) : Decode GeoAltitude := do
  match ← unwrapCrsTag value with
  | .array [altitude, deviation] =>
    let altitude ← decodeNumber altitude .invalidTokenFormat
      (.invalidClaimValue "Invalid catgeoalt altitude")
    let deviation ← decodeNumber deviation .invalidTokenFormat
      (.invalidClaimValue "Invalid catgeoalt deviation")
    validateFloat altitude "catgeoalt.altitude"
    validateFloat deviation "catgeoalt.deviation"
    return ⟨altitude, deviation⟩
  | _ => throw (.invalidClaimValue "catgeoalt must be an array of [altitude, deviation]")

/-- An empty list counts as no claim. -/
def decodeCatifdata (value : Value) : Decode (Option (List String)) := do
  rejectUnexpectedTag value "catifdata"
  match value with
  | .text s => return some [s]
  | .array arr =>
    let items ← arr.mapM' (decodeCountedText limits "catifdata array items must be text strings")
    return if items.isEmpty then none else some items
  | _ => throw (.invalidClaimValue "catifdata must be text or an array of text")

/-! ## DPoP claims

Both are maps of their own, read member by member into what has been read so far. Members under
unknown labels are skipped in either; where a label comes again the later member counts, unless
the ordering check has refused the payload before.
-/

/-- The label of a member of a claim's own map. -/
def decodeMemberKey (claimName : String) (key : Value) : Except CatError Int64 :=
  match key with
  | .integer i =>
    match i.toI64? with
    | some n => .ok n
    | none => .error (.invalidClaimValue s!"Invalid {claimName} map key")
  | _ => .error (.invalidClaimValue s!"{claimName} map keys must be integers")

/-- The members of a `cnf` map, in order: later thumbprints overwrite earlier ones, and
    members under other labels are skipped. -/
def decodeCnfMembers (jkt : Bytes) (ckt : Option Bytes) :
    List (Value × Value) → Except CatError (Bytes × Option Bytes)
  | [] => .ok (jkt, ckt)
  | (k, v) :: es =>
    match decodeMemberKey "cnf" k with
    | .error e => .error e
    | .ok key =>
      if key = cnfJkt ∨ key = cnfJktLegacy then
        match v with
        | .bytes b => decodeCnfMembers b ckt es
        | _ => .error (.invalidClaimValue "cnf jkt value must be bytes")
      else if key = cnfCkt then
        match v with
        | .bytes b => decodeCnfMembers jkt (some b) es
        | _ => .error (.invalidClaimValue "cnf ckt value must be bytes")
      else decodeCnfMembers jkt ckt es

/-- A map that yields neither a non-empty `jkt` nor a `ckt` is dropped. -/
def decodeCnf (value : Value) : Decode (Option ConfirmationClaim) := do
  rejectUnexpectedTag value "cnf"
  match value with
  | .map map =>
    let (jkt, ckt) ← decodeCnfMembers [] none map
    return if !jkt.isEmpty || ckt.isSome then some ⟨jkt, ckt⟩ else none
  | _ => throw (.invalidClaimValue "cnf must be a map")

def decodeCritKey (item : Value) : Except CatError Int64 :=
  match item with
  | .integer i =>
    match i.toI64? with
    | some n => .ok n
    | none => .error (.invalidClaimValue "Invalid catdpop crit value")
  | _ => .error (.invalidClaimValue "catdpop crit items must be integers")

def decodeCatdpopMember (settings : CatDpopSettings) (k v : Value) :
    Except CatError CatDpopSettings := do
  let key ← decodeMemberKey "catdpop" k
  if key = catdpopCrit then
    match v with
    | .array arr =>
      let critKeys ← arr.mapM' decodeCritKey
      return settings.setCritFromDecode critKeys
    | _ => throw (.invalidClaimValue "catdpop crit must be an array")
  else if key = catdpopWindow then
    match v with
    | .integer window =>
      match window.toI64? with
      | none => throw (.invalidClaimValue "Invalid DPoP window value")
      | some w =>
        if h : 1 ≤ w.toInt ∧ w.toInt ≤ catdpopMaxWindowSecs.toInt then
          return settings.setWindowFromDecode w h
        else throw (.invalidClaimValue
          s!"catdpop window must be in 1..={catdpopMaxWindowSecs.toInt} seconds (got {w.toInt})")
    | _ => throw (.invalidClaimValue "catdpop window must be an integer")
  else if key = catdpopHonorJti then
    match v with
    | .integer jtiVal =>
      match jtiVal.toI64? with
      | none => throw (.invalidClaimValue "Invalid catdpop honor_jti value")
      | some n =>
        if n = 0 then return settings.setHonorJtiFromDecode false
        else if n = 1 then return settings.setHonorJtiFromDecode true
        else throw (.invalidClaimValue "catdpop honor_jti must be 0 or 1")
    | _ => throw (.invalidClaimValue "catdpop honor_jti must be an integer")
  else throw (.invalidClaimValue s!"Unknown catdpop sub-key: {key.toInt}")

def decodeCatdpopMembers (settings : CatDpopSettings) :
    List (Value × Value) → Except CatError CatDpopSettings
  | [] => .ok settings
  | (k, v) :: es =>
    match decodeCatdpopMember settings k v with
    | .error e => .error e
    | .ok settings => decodeCatdpopMembers settings es

/-- What is critical is checked after all members have been read, since they come in any order. -/
def decodeCatdpop (value : Value) : Decode CatDpopSettings := do
  rejectUnexpectedTag value "catdpop"
  match value with
  | .map map =>
    let settings ← decodeCatdpopMembers .new map
    settings.validateCrit
    return settings
  | _ => throw (.invalidClaimValue "catdpop must be a map")

/-! ## Request claims

`catif` and `catr` are read through the constructors of their types, so what is decoded has
passed the checks of the builders too.
-/

/-- `{:02x}` of a byte. -/
def hexByte (b : UInt8) : String := String.ofList (Hex.byte b)

def ensureHeaderValueClean (name value : String) : Except CatError Unit :=
  match (utf8 name).find? fun b => b == 0 || b == 13 || b == 10 || b == 58 with
  | some b => .error (.invalidClaimValue s!"header name contains prohibited byte: 0x{hexByte b}")
  | none =>
    match (utf8 value).find? fun b => b == 0 || b == 13 || b == 10 with
    | some b => .error (.invalidClaimValue
        s!"header value for {H.debugStr name} contains prohibited control byte: 0x{hexByte b}")
    | none => .ok ()

def CatIfAction.new (status : UInt32) : Except CatError CatIfAction :=
  if 100 ≤ status ∧ status ≤ 599 then .ok ⟨status, none, none⟩
  else .error (.invalidClaimValue
    s!"catif status must be an HTTP status code in 100..=599 (got {status.toNat})")

def ensureHeadersClean : List (String × String) → Except CatError Unit
  | [] => .ok ()
  | (name, value) :: hs =>
    match ensureHeaderValueClean H name value with
    | .error e => .error e
    | .ok () => ensureHeadersClean hs

def CatIfAction.withHeaders (a : CatIfAction) (headers : List (String × String)) :
    Except CatError CatIfAction :=
  (ensureHeadersClean H headers).map fun _ => { a with headers := some headers }

def decodeCatifHeader (e : Value × Value) : Except CatError (String × String) := do
  let key ← match e.1 with
    | .text k => pure k
    | _ => throw (.invalidClaimValue "catif header keys must be text")
  let val ← match e.2 with
    | .text v => pure v
    | _ => throw (.invalidClaimValue "catif header values must be text strings")
  return (key, val)

/-- An empty header map is no header map. -/
def decodeCatifHeaders (value : Value) : Except CatError (Option (List (String × String))) :=
  match value with
  | .map [] => .ok none
  | .map hmap => (hmap.mapM' decodeCatifHeader).map some
  | _ => .error (.invalidClaimValue "catif headers must be a map")

def decodeCatifAction (arr : List Value) : Except CatError CatIfAction := do
  if arr.isEmpty then throw (.invalidClaimValue "catif action array must not be empty")
  if arr.length > 3 then
    throw (.invalidClaimValue
      "catif action array must have at most 3 members (status, headers, kid)")
  let status ← match (arr[0]? : Option Value) with
    | some (.integer i) => match i.toU32? with
      | some s => pure s
      | none => throw (.invalidClaimValue "Invalid catif status value")
    | _ => throw (.invalidClaimValue "catif status must be an integer")
  let headers ← match (arr[1]? : Option Value) with
    | some h => decodeCatifHeaders h
    | none => pure none
  let kid ← match (arr[2]? : Option Value) with
    | some (.text s) => pure (some s)
    | some _ => throw (.invalidClaimValue "catif kid must be a text string")
    | none => pure none
  let action ← CatIfAction.new status
  let action ← match headers with
    | some hdrs => action.withHeaders H hdrs
    | none => pure action
  return { action with kid := kid }

def decodeCatifEntry (e : Value × Value) : Decode (Int64 × CatIfAction) := do
  countItem limits
  let claimKey ← decodeMemberKey "catif" e.1
  match e.2 with
  | .array arr =>
    let action ← decodeCatifAction H arr
    return (claimKey, action)
  | _ => throw (.invalidClaimValue "catif action values must be arrays")

/-- An empty map counts as no claim. -/
def decodeCatif (value : Value) : Decode (Option (List (Int64 × CatIfAction))) := do
  rejectUnexpectedTag value "catif"
  match value with
  | .map entries =>
    let actions ← entries.mapM' (decodeCatifEntry H limits)
    return if actions.isEmpty then none else some actions
  | _ => throw (.invalidClaimValue "catif must be a map")

/-- The members of a `catr` map read so far. -/
structure CatrParts where
  renewalType : Option CatRenewalType := none
  expadd : Option F64 := none
  deadline : Option F64 := none
  cookieName : Option String := none
  headerName : Option String := none
  cookieParams : Option (List String) := none
  headerParams : Option (List String) := none
  statusCode : Option UInt32 := none

/-- Floats are checked for what is forbidden. That the number is whole, or positive, is not asked
    here. -/
def decodeCatrNumber (name : String) (value : Value) : Except CatError F64 := do
  let f ← decodeNumber value (.invalidClaimValue s!"Invalid catr {name} value")
    (.invalidClaimValue s!"catr {name} must be a number")
  match value with
  | .float f => validateFloat f s!"catr {name}"
  | _ => pure ()
  return f

def decodeCatrText (name : String) (value : Value) : Except CatError String :=
  match value with
  | .text s => .ok s
  | _ => .error (.invalidClaimValue s!"catr {name} must be text")

/-- Members under labels the profile does not know are skipped. -/
def decodeCatrMember (p : CatrParts) (key : Int64) (v : Value) : Except CatError CatrParts := do
  if key = catrType then
    match v with
    | .integer i =>
      match i.toU32? with
      | none => throw (.invalidClaimValue "Invalid catr type value")
      | some t =>
        match CatRenewalType.fromU32 t with
        | none => throw (.invalidClaimValue s!"Unknown catr type: {t.toNat}")
        | some rt => return { p with renewalType := some rt }
    | _ => throw (.invalidClaimValue "catr type must be an integer")
  else if key = catrExpadd then return { p with expadd := some (← decodeCatrNumber "expadd" v) }
  else if key = catrDeadline then
    return { p with deadline := some (← decodeCatrNumber "deadline" v) }
  else if key = catrCookieName then
    return { p with cookieName := some (← decodeCatrText "cookie_name" v) }
  else if key = catrHeaderName then
    return { p with headerName := some (← decodeCatrText "header_name" v) }
  else if key = catrAdditionalCookieParams then
    return { p with cookieParams := some (← decodeTextArray v "catr cookie_params") }
  else if key = catrAdditionalHeaderParams then
    return { p with headerParams := some (← decodeTextArray v "catr header_params") }
  else if key = catrStatusCode then
    match v with
    | .integer i =>
      match i.toU32? with
      | none => throw (.invalidClaimValue "Invalid catr status_code value")
      | some c => return { p with statusCode := some c }
    | _ => throw (.invalidClaimValue "catr status_code must be an integer")
  else return p

def decodeCatrMembers (p : CatrParts) : List (Value × Value) → Decode CatrParts
  | [] => return p
  | (k, v) :: es => do
    countItem limits
    let key ← decodeMemberKey "catr" k
    let p ← decodeCatrMember p key v
    decodeCatrMembers p es

/-- A map without a renewal type is dropped; with one, a positive `expadd` is required. -/
def decodeCatr (value : Value) : Decode (Option CatRenewal) := do
  rejectUnexpectedTag value "catr"
  match value with
  | .map entries =>
    let p ← decodeCatrMembers limits {} entries
    match p.renewalType with
    | none => return none
    | some rt =>
      match p.expadd with
      | some ea =>
        if F64.le ea (F64.ofInt 0) then
          throw (.invalidClaimValue "catr expadd must be a positive integer")
      | none => throw (.invalidClaimValue
          "catr expadd is required when renewal type is present")
      return some ⟨rt, p.expadd, p.deadline, p.cookieName, p.headerName, p.cookieParams,
        p.headerParams, p.statusCode⟩
  | _ => throw (.invalidClaimValue "catr must be a map")

/-! ## MOQT claims -/

/-- Actions go by number, and the error says the number. -/
def decodeAction (value : Value) : Except CatError MoqtAction :=
  match value with
  | .integer i =>
    match i.toI32? with
    | some n =>
      match MoqtAction.tryFrom n with
      | .ok a => .ok a
      | .error _ => .error (.invalidClaimValue s!"Invalid MOQT action: {n.toInt}")
    | none => .error (.invalidClaimValue "MOQT action values must be integers")
  | _ => .error (.invalidClaimValue "MOQT action values must be integers")

/-- Nothing may follow a `nil`. -/
def checkNilLast (seenNil : Bool) (idx : Nat) : List NamespaceMatch → Except CatError Unit
  | [] => .ok ()
  | ns :: rest =>
    if seenNil then .error (.invalidClaimValue
      s!"Namespace nil must be the last element (found element at index {idx} after nil)")
    else checkNilLast (ns == .nil) (idx + 1) rest

def decodeScope (value : Value) : Except CatError MoqtScope := do
  match value with
  | .array scopeArray =>
    if scopeArray.isEmpty || scopeArray.length > 3 then
      throw (.invalidClaimValue
        s!"MOQT scope array must have 1-3 elements, got {scopeArray.length}")
    let actions ← match (scopeArray[0]? : Option Value) with
      | some (.array actionsArray) => actionsArray.mapM' decodeAction
      | _ => throw (.invalidClaimValue "MOQT scope actions must be an array")
    if actions.isEmpty then
      throw (.invalidClaimValue "MOQT scope must have at least one action")
    let namespaceMatches ← match (scopeArray[1]? : Option Value) with
      | none => pure []
      | some (.array nsArray) =>
        if nsArray.length > limits.maxNamespaceMatchesPerScope then
          throw (.invalidClaimValue
            s!"Too many namespace matches per scope: {nsArray.length} (max {limits.maxNamespaceMatchesPerScope})")
        else nsArray.mapM' decodeNamespaceMatch
      | some _ => throw (.invalidClaimValue "MOQT namespace matches must be an array")
    checkNilLast false 0 namespaceMatches
    let trackMatch ← match (scopeArray[2]? : Option Value) with
      | none => pure none
      | some v => (decodeBinaryMatch v).map some
    return ⟨actions, namespaceMatches, trackMatch⟩
  | _ => throw (.invalidClaimValue "MOQT scope values must be arrays")

def decodeMoqt (value : Value) : Decode (List MoqtScope) := do
  rejectUnexpectedTag value "moqt"
  match value with
  | .array scopesArray =>
    if scopesArray.length > limits.maxMoqtScopes then
      throw (.invalidClaimValue
        s!"Too many MOQT scopes: {scopesArray.length} (max {limits.maxMoqtScopes})")
    let scopes ← (scopesArray.mapM' (decodeScope limits) : Except CatError _)
    return scopes
  | _ => throw (.invalidClaimValue "moqt must be an array")

def decodeMoqtReval (value : Value) : Decode F64 := do
  rejectUnexpectedTag value "moqt_reval"
  let f ← decodeNumber value (.invalidClaimValue "Invalid moqt_reval value")
    (.invalidClaimValue "moqt_reval must be a number")
  match value with
  | .float f => validateFloat f "moqt_reval"
  | _ => pure ()
  return f

/-! ## The claim map

The match on labels knows nothing of what has been decoded, except for how many custom claims
there are. The composites are read by a function that is passed in: the decoder calls itself
there, and with the function as a parameter everything up to that call can be stated and proved
once, without the recursion.
-/

/-- A decoder for a composite claim: label, value, nesting depth. -/
abbrev CompositeDecoder := Int64 → Value → Nat → Decode CompositeClaim

variable (composite : CompositeDecoder)

/-- The match on the claim label. What is under no label of the profile is a custom claim, kept as
    it is, and the number of those is limited. -/
def decodeClaim (customLen : Nat) (claimId : Int64) (value : Value) : Decode DecodedClaim := do
  if claimId = claimIss then return .iss (← decodeIss limits value)
  else if claimId = claimAud then return .aud (← decodeAud limits value)
  else if claimId = claimExp then return .exp (← decodeExp H value)
  else if claimId = claimNbf then return .nbf (← decodeNbf H value)
  else if claimId = claimCti then return .cti (← decodeCti value)
  else if claimId = claimCatreplay then return .catreplay (← decodeCatreplay value)
  else if claimId = claimCatpor then return .catpor (← decodeCatpor H value)
  else if claimId = claimCatv then return .catv (← decodeCatv value)
  else if claimId = claimCatnip then return .catnip (← decodeCatnip limits value)
  else if claimId = claimCatu then return .catu (← decodeCatu limits value)
  else if claimId = claimCatm then return .catm (← decodeCatm limits value)
  else if claimId = claimCatalpn then return .catalpn (← decodeCatalpn limits value)
  else if claimId = claimCath then return .cath (← decodeCath limits value)
  else if claimId = claimCatgeoiso3166 then
    return .catgeoiso3166 (← decodeCatgeoiso3166 limits value)
  else if claimId = claimCatgeocoord then
    return .catgeocoord (← decodeCatgeocoord H limits value)
  else if claimId = claimGeohash then return .geohash (← decodeGeohash value)
  else if claimId = claimCatgeoalt then return .catgeoalt (← decodeCatgeoalt value)
  else if claimId = claimCattpk then return .cattpk (← decodeCattpk value)
  else if claimId = claimSub then return .sub (← decodeSub limits value)
  else if claimId = claimIat then return .iat (← decodeIat H value)
  else if claimId = claimCatifdata then return .catifdata (← decodeCatifdata limits value)
  else if claimId = claimCnf then return .cnf (← decodeCnf value)
  else if claimId = claimCatdpop then return .catdpop (← decodeCatdpop value)
  else if claimId = claimCatif then return .catif (← decodeCatif H limits value)
  else if claimId = claimCatr then return .catr (← decodeCatr limits value)
  else if claimId = claimMoqt then return .moqt (← decodeMoqt limits value)
  else if claimId = claimMoqtReval then return .moqtReval (← decodeMoqtReval value)
  else if claimId = claimOr then do
    rejectUnexpectedTag value "composite"
    return .orClaim (← composite claimId value 0)
  else if claimId = claimNor then do
    rejectUnexpectedTag value "composite"
    return .norClaim (← composite claimId value 0)
  else if claimId = claimAnd then do
    rejectUnexpectedTag value "composite"
    return .andClaim (← composite claimId value 0)
  else if h : isReservedClaimId claimId = false then do
    if customLen ≥ limits.maxCustomClaims then
      throw (.invalidClaimValue s!"Too many custom claims (max {limits.maxCustomClaims})")
    return .custom claimId h value
  -- every reserved label has its arm above (`isReservedClaimId_cases`)
  else throw .invalidTokenFormat

/-- Claims have integers of 64 bits for labels, and nothing else. -/
def decodeClaimId (key : Value) : Except CatError Int64 :=
  match key with
  | .integer i =>
    match i.toI64? with
    | some id => .ok id
    | none => .error .invalidTokenFormat
  | _ => .error (.invalidCbor "non-integer claim label rejected")

/-- The loop over the claim map, each claim assigned as it is decoded. -/
def decodeEntries (t : CatToken) : List (Value × Value) → Decode CatToken
  | [] => return t
  | (key, value) :: es => do
    countItem limits
    let claimId ← decodeClaimId key
    let claim ← decodeClaim H limits composite t.custom.len claimId value
    decodeEntries (t.assign claim) es

/-- The claim map of a payload: its size checked, all of it read, its keys in order. -/
def readClaimsMap (cborData : Bytes) : Except CatError (List (Value × Value)) := do
  if cborData.length > limits.maxCborPayloadSize then
    throw (.invalidCbor
      s!"CBOR payload too large: {cborData.length} bytes (max {limits.maxCborPayloadSize} bytes)")
  let (value, rest) ← match H.cbor.read cborMaxRecursionDepth cborData with
    | .ok r => pure r
    | .error e => throw (.invalidCbor e)
  if !rest.isEmpty then
    throw (.invalidCbor
      s!"Trailing bytes after CBOR payload: {rest.length} unconsumed bytes")
  let claimsMap ← match value with
    | .map map => pure map
    | _ => throw .invalidTokenFormat
  validateCborMapOrderingLimited claimsMap limits.maxNestingDepth
  return claimsMap

/-- The payload decoder over a given decoder for composite claims. -/
def decodePayloadWith (cborData : Bytes) : Decode CatToken := do
  let claimsMap ← readClaimsMap H limits cborData
  decodeEntries H limits composite .new claimsMap

end

/-! ## Composite claims

A claim set that is no composite is written out again and decoded from its bytes, as the source
does it. The recursion is on the number of composites that may still be opened, which the
nesting limit bounds.
-/

def CompositeOperator.ofClaimId (claimId : Int64) : Except CatError CompositeOperator :=
  if claimId = claimOr then .ok .or
  else if claimId = claimNor then .ok .nor
  else if claimId = claimAnd then .ok .and
  else .error (.invalidClaimValue "Unknown composite operator")

/-- Whether a map key is the label of a composite claim. -/
def isCompositeKey (key : Value) : Bool :=
  match key with
  | .integer i =>
    let id := i.toI64?.getD 0
    id = claimOr || id = claimNor || id = claimAnd
  | _ => false

section
variable (H : Host) (limits : CwtLimits)

open DecodeCounters

/-- One claim set of a composite: a map whose only key is a composite label is a nested
    composite, any other map is written out and decoded as a payload of its own. -/
def decodeClaimSet (nested : CompositeDecoder) (payload : Bytes → Decode CatToken) (depth : Nat)
    (item : Value) : Decode ClaimSet := do
  countItem limits
  match item with
  | .map map =>
    match map with
    | [(k, v)] =>
      if isCompositeKey k then
        let nestedId ← match k with
          | .integer i => match i.toI64? with
            | some id => pure id
            | none => throw (.invalidClaimValue "Invalid key")
          | _ => throw (.invalidClaimValue "Composite key must be integer")
        return .composite (← nested nestedId v (depth + 1))
      else decodeTokenSet
    | _ => decodeTokenSet
  | _ => throw (.invalidClaimValue "Composite claim set must be a map")
where
  decodeTokenSet : Decode ClaimSet := do
    match H.cbor.write item with
    | .error e => throw (.invalidCbor e)
    | .ok buf => return .token (← payload buf)

/-- The array of a composite: its depth first, then its operator, then its members in turn. -/
def decodeCompositeClaimWith (nested : CompositeDecoder) (payload : Bytes → Decode CatToken) :
    CompositeDecoder := fun claimId value depth => do
  if depth ≥ limits.maxNestingDepth then
    throw (.invalidClaimValue "Composite claim nesting too deep")
  let op ← CompositeOperator.ofClaimId claimId
  let arr ← match value with
    | .array a => pure a
    | _ => throw (.invalidClaimValue "Composite claim must be an array")
  let claims ← arr.mapM' (decodeClaimSet H limits nested payload depth)
  return ⟨op, claims⟩

/-- The recursion through claim sets, `fuel` composites deep. -/
def decodeCompositeClaimWithCounters : Nat → CompositeDecoder
  | 0 => fun _ _ _ => throw (nestingDepthError limits.maxNestingDepth)
  | fuel + 1 =>
    decodeCompositeClaimWith H limits (decodeCompositeClaimWithCounters fuel)
      (decodePayloadWith H limits (decodeCompositeClaimWithCounters fuel))

def decodePayloadWithLimitsAndCounters (cborData : Bytes) : Decode CatToken :=
  decodePayloadWith H limits
    (decodeCompositeClaimWithCounters H limits (limits.maxNestingDepth + 2)) cborData

/-- The counters start from zero and are thrown away. -/
def decodePayloadWithLimits (cborData : Bytes) : Except CatError CatToken :=
  (decodePayloadWithLimitsAndCounters H limits cborData {}).map Prod.fst

end

/-- With the default limits. -/
def decodePayload (H : Host) (cborData : Bytes) : Except CatError CatToken :=
  decodePayloadWithLimits H .default cborData

end Cat
