import Cat.Cwt.Values

/-!
# Encoding a payload

`Cwt::encode_payload`. The source inserts one claim after another into a `BTreeMap` and writes
the map out; here the insertions are a table, `claimEncoders`, in source order, with one
definition per claim. An encoder that yields no value inserts nothing: the claim is absent, or —
for `cnf` and `catdpop` — its map came out empty. Custom claims go in last.

The table is over the values of the composite claims, which `encodeToken` and
`encodeCompositeClaim` compute by recursion through the claim sets.

The order of the table is not that of the payload, since the map sorts by label; it is the order
in which encoders run, and so decides which error is returned where several claims cannot be
encoded. Likewise an insertion under a label that is taken replaces what was there. With the
labels of the profile this happens in one case, a custom claim under the label of a composite,
and it is kept as it is.
-/

set_option autoImplicit false

namespace Cat

open Cbor

/-! ## The claim map -/

/-- `BTreeMap::insert`, on the entries in key order. -/
def btreeInsert {α : Type} (k : Int64) (v : α) : List (Int64 × α) → List (Int64 × α)
  | [] => [(k, v)]
  | (k', v') :: m =>
    if k.toInt < k'.toInt then (k, v) :: (k', v') :: m
    else if k = k' then (k, v) :: m
    else (k', v') :: btreeInsert k v m

def btreeInsertAll {α : Type} (m : List (Int64 × α)) (es : List (Int64 × α)) :
    List (Int64 × α) := es.foldl (fun m e => btreeInsert e.1 e.2 m) m

/-- What a claim contributes: an error, a panic, a value, or nothing. -/
abbrev Encoded := Except Failure (Option Value)

/-- A claim that is encoded whenever it is present. -/
def whenSome {α : Type} (x : Option α) (f : α → Except Failure Value) : Encoded :=
  match x with
  | none => .ok none
  | some a => (f a).map some

def textArray (ss : List String) : Value := .array (ss.map .text)

/-- One string as itself, any other number of them as an array. -/
def textOrArray (ss : List String) : Value :=
  match ss with
  | [s] => .text s
  | ss => textArray ss

/-- Sorted by kind of match, so the order within a rule is not kept. -/
def encodeMatchMap (ms : List MatchValue) : Value :=
  .map (sortIntegerKeyedMap (ms.map encodeMatchValue))

/-! ## One encoder per claim -/

def encodeIss (t : CatToken) : Encoded := whenSome t.core.iss fun s => .ok (.text s)
def encodeAud (t : CatToken) : Encoded := whenSome t.core.aud fun a => .ok (textArray a)
def encodeExp (t : CatToken) : Encoded := whenSome t.core.exp fun n => .ok (i64Value n)
def encodeNbf (t : CatToken) : Encoded := whenSome t.core.nbf fun n => .ok (i64Value n)
def encodeCti (t : CatToken) : Encoded := whenSome t.core.cti fun b => .ok (.bytes b)

def encodeCatreplay (t : CatToken) : Encoded :=
  whenSome t.cat.catreplay fun r => .ok (u32Value r.toU32)

/-- An absent expiration is left out, so the array has two elements or three. -/
def encodeCatpor (t : CatToken) : Encoded := whenSome t.cat.catpor fun p => do
  validateFloat p.probability "catpor.probability"
  let exp := match p.expiration with
    | some exp => [i64Value exp]
    | none => []
  return .array ([encodeNumberShortest p.probability, .bytes p.id] ++ exp)

def encodeCatv (t : CatToken) : Encoded := whenSome t.cat.catv fun v => .ok (u32Value v)

def encodeCatnip (t : CatToken) : Encoded := whenSome t.cat.catnip fun nips => do
  return .array (← nips.mapM' encodeNetworkIdentifier)

/-- Sorted by component. Two rules for one component become one key twice. -/
def encodeCatu (t : CatToken) : Encoded := whenSome t.cat.catu fun rules =>
  .ok (.map (sortIntegerKeyedMap
    (rules.map fun rule => (i64Value rule.component, encodeMatchMap rule.matches_))))

def encodeCatm (t : CatToken) : Encoded := whenSome t.cat.catm fun ms => .ok (textArray ms)

def encodeCatalpn (t : CatToken) : Encoded :=
  whenSome t.cat.catalpn fun as => .ok (.array (as.map .bytes))

/-- Header names are keys of text, and stay in the order of the list. -/
def encodeCath (t : CatToken) : Encoded := whenSome t.cat.cath fun rules =>
  .ok (.map (rules.map fun rule => (.text rule.name, encodeMatchMap rule.matches_)))

def encodeCatgeoiso3166 (t : CatToken) : Encoded :=
  whenSome t.cat.catgeoiso3166 fun gs => .ok (textArray gs)

def encodeCatgeocoord (t : CatToken) : Encoded := whenSome t.cat.catgeocoord fun coords => do
  coords.forM fun coord => do
    (validateFloat coord.lat "catgeocoord.lat" : Except CatError Unit)
    (validateFloat coord.lon "catgeocoord.lon" : Except CatError Unit)
  return .array (coords.map fun coord =>
    .array [encodeNumberShortest coord.lat, encodeNumberShortest coord.lon, u32Value coord.radius])

def encodeGeohash (t : CatToken) : Encoded :=
  whenSome t.cat.geohash fun hs => .ok (textOrArray hs)

def encodeCatgeoalt (t : CatToken) : Encoded := whenSome t.cat.catgeoalt fun a => do
  validateFloat a.altitude "catgeoalt.altitude"
  validateFloat a.deviation "catgeoalt.deviation"
  return .array [encodeNumberShortest a.altitude, encodeNumberShortest a.deviation]

def encodeCattpk (t : CatToken) : Encoded := whenSome t.cat.cattpk fun b => .ok (.bytes b)
def encodeSub (t : CatToken) : Encoded := whenSome t.informational.sub fun s => .ok (.text s)
def encodeIat (t : CatToken) : Encoded := whenSome t.informational.iat fun n => .ok (i64Value n)

def encodeCatifdata (t : CatToken) : Encoded :=
  whenSome t.informational.catifdata fun ss => .ok (textOrArray ss)

/-- The members of a confirmation: `ckt` when present, `jkt` when not empty. -/
def cnfMap (cnf : ConfirmationClaim) : List (Value × Value) :=
  (match cnf.ckt with
    | some ckt => [(i64Value cnfCkt, .bytes ckt)]
    | none => []) ++
  (if cnf.jkt.isEmpty then [] else [(i64Value cnfJkt, .bytes cnf.jkt)])

/-- A claim whose map is dropped when it has no members. -/
def unlessEmpty (m : List (Value × Value)) : Encoded :=
  .ok (if m.isEmpty then none else some (.map m))

/-- A confirmation without members is not written at all. -/
def encodeCnf (t : CatToken) : Encoded :=
  match t.dpop.cnf with
  | none => .ok none
  | some cnf => unlessEmpty (cnfMap cnf)

def catdpopMap (s : CatDpopSettings) : List (Value × Value) :=
  (match s.window with
    | some w => [(i64Value catdpopWindow, i64Value w)]
    | none => []) ++
  (match s.honorJti with
    | some honor => [(i64Value catdpopHonorJti, i64Value (if honor then 1 else 0))]
    | none => []) ++
  (match s.crit with
    | some crit => [(i64Value catdpopCrit, .array (crit.map i64Value))]
    | none => [])

def encodeCatdpop (t : CatToken) : Encoded :=
  match t.dpop.catdpop with
  | none => .ok none
  | some s => unlessEmpty (catdpopMap s)

/-- A `kid` without headers is preceded by an empty header map. -/
def encodeCatifAction (a : CatIfAction) : Value :=
  .array ([u32Value a.status] ++
    (match a.headers with
      | some hs => [.map (hs.map fun h => (.text h.1, .text h.2))]
      | none => []) ++
    (match a.kid with
      | some kid => (if a.headers.isNone then [.map []] else []) ++ [.text kid]
      | none => []))

/-- Sorted by number, which is not the order of the encodings when a key is negative. -/
def encodeCatif (t : CatToken) : Encoded := whenSome t.request.catif fun catif =>
  let sorted := catif.mergeSort fun a b => a.1.toInt ≤ b.1.toInt
  .ok (.map (sorted.map fun e => (i64Value e.1, encodeCatifAction e.2)))

def optMember {α : Type} (label : Int64) (x : Option α) (f : α → Value) : List (Value × Value) :=
  match x with
  | some a => [(i64Value label, f a)]
  | none => []

/-- Members that are not set are left out, `expadd` included, which the decoder insists on. -/
def encodeCatr (t : CatToken) : Encoded := whenSome t.request.catr fun catr =>
  .ok (.map ([(i64Value catrType, u32Value catr.renewalType.toU32)] ++
    optMember catrExpadd catr.expadd encodeNumberShortest ++
    optMember catrDeadline catr.deadline encodeNumberShortest ++
    optMember catrCookieName catr.cookieName .text ++
    optMember catrHeaderName catr.headerName .text ++
    optMember catrAdditionalCookieParams catr.cookieParams textArray ++
    optMember catrAdditionalHeaderParams catr.headerParams textArray ++
    optMember catrStatusCode catr.statusCode u32Value))

/-- The namespace matches of a scope; nothing may follow a `nil`. -/
def encodeNamespaceMatches (seenNil : Bool) : List NamespaceMatch → Except CatError (List Value)
  | [] => .ok []
  | ns :: rest => do
    if seenNil then throw (.invalidClaimValue "Namespace nil must be the last element")
    let v ← encodeNamespaceMatch ns
    return v :: (← encodeNamespaceMatches (seenNil || ns == .nil) rest)

/-- A track match without namespace matches is preceded by an empty array. -/
def encodeScope (scope : MoqtScope) : Except CatError Value := do
  if scope.actions.isEmpty then
    throw (.invalidClaimValue "MOQT scope must have at least one action")
  let actions := Value.array (scope.actions.map fun a => i64Value (Int64.ofInt a.toI32.toInt))
  let ns ← if scope.namespaceMatches.isEmpty then pure []
    else do pure [.array (← encodeNamespaceMatches false scope.namespaceMatches)]
  let track ← match scope.trackMatch with
    | none => pure []
    | some m => do
      if m.matchType = .any then
        throw (.invalidClaimValue "Track wildcard must use Option::None, not BinaryMatch::Any")
      let v ← encodeBinaryMatch m
      pure ((if scope.namespaceMatches.isEmpty then [.array []] else []) ++ [v])
  return .array ([actions] ++ ns ++ track)

def encodeMoqt (t : CatToken) : Encoded := whenSome t.moqt.moqt fun scopes => do
  let vs ← (scopes.mapM' encodeScope : Except CatError (List Value))
  return .array vs

def encodeMoqtReval (t : CatToken) : Encoded := whenSome t.moqt.moqtReval fun f => do
  validateFloat f "moqt_reval"
  return encodeNumberShortest f

/-! ## The token -/

/-- The values of a token's composite claims. -/
structure CompositeValues where
  orClaim : Encoded
  norClaim : Encoded
  andClaim : Encoded

/-- The insertions of `encode_payload` before the custom claims, in order. -/
def claimEncoders (c : CompositeValues) : List (Int64 × (CatToken → Encoded)) :=
  [(claimIss, encodeIss), (claimAud, encodeAud), (claimExp, encodeExp), (claimNbf, encodeNbf),
    (claimCti, encodeCti), (claimCatreplay, encodeCatreplay), (claimCatpor, encodeCatpor),
    (claimCatv, encodeCatv), (claimCatnip, encodeCatnip), (claimCatu, encodeCatu),
    (claimCatm, encodeCatm), (claimCatalpn, encodeCatalpn), (claimCath, encodeCath),
    (claimCatgeoiso3166, encodeCatgeoiso3166), (claimCatgeocoord, encodeCatgeocoord),
    (claimGeohash, encodeGeohash), (claimCatgeoalt, encodeCatgeoalt),
    (claimCattpk, encodeCattpk), (claimSub, encodeSub), (claimIat, encodeIat),
    (claimCatifdata, encodeCatifdata), (claimCnf, encodeCnf), (claimCatdpop, encodeCatdpop),
    (claimCatif, encodeCatif), (claimCatr, encodeCatr), (claimMoqt, encodeMoqt),
    (claimMoqtReval, encodeMoqtReval), (claimOr, fun _ => c.orClaim),
    (claimNor, fun _ => c.norClaim), (claimAnd, fun _ => c.andClaim)]

/-- What the encoders insert, in order. -/
def insertions (t : CatToken) : List (Int64 × (CatToken → Encoded)) →
    Except Failure (List (Int64 × Value))
  | [] => .ok []
  | (label, enc) :: encs => do
    match ← enc t with
    | none => insertions t encs
    | some v => return (label, v) :: (← insertions t encs)

/-- The claims of a token by label, in label order; custom claims overwrite. -/
def claimsMap (c : CompositeValues) (t : CatToken) : Except Failure (List (Int64 × Value)) := do
  let es ← insertions t (claimEncoders c)
  return btreeInsertAll (btreeInsertAll [] es) t.custom.entries

section
variable (H : Host)

/-- What the writer cannot represent is an error of the encoder. -/
def writeCbor (v : Value) : Except CatError Bytes :=
  match H.cbor.write v with
  | .ok b => .ok b
  | .error e => .error (.invalidCbor e)

/-- The map of a token's claims, as a CBOR value. -/
def claimsValue (m : List (Int64 × Value)) : Value := .map (m.map fun e => (i64Value e.1, e.2))

def encodePayloadWith (c : CompositeValues) (t : CatToken) : Except Failure Bytes := do
  let m ← claimsMap c t
  writeCbor H (claimsValue m)

def CompositeOperator.claimId : CompositeOperator → Int64
  | .or => claimOr
  | .nor => claimNor
  | .and => claimAnd

mutual
/-- `Cwt::encode_payload`. -/
def encodePayload : CatToken → Except Failure Bytes
  | ⟨core, cat, informational, dpop, request, ⟨orC, norC, andC⟩, moqt, custom⟩ =>
    encodePayloadWith H
      ⟨encodeCompositeClaim? orC, encodeCompositeClaim? norC, encodeCompositeClaim? andC⟩
      ⟨core, cat, informational, dpop, request, ⟨orC, norC, andC⟩, moqt, custom⟩
def encodeCompositeClaim? : Option CompositeClaim → Encoded
  | none => .ok none
  | some c => (encodeCompositeClaim c).map some
/-- The operator is not in the value: it is the label that the value stands under. -/
def encodeCompositeClaim : CompositeClaim → Except Failure Value
  | ⟨_, claims⟩ => (encodeClaimSets claims).map .array
/-- A nested claim set is encoded to bytes and these are read again, to have its value for the map.
    -/
def encodeClaimSet : ClaimSet → Except Failure Value
  | .token t => do
    let encoded ← encodePayload t
    match H.cbor.read cborMaxRecursionDepth encoded with
    | .error e => throw (.error (.invalidCbor e))
    | .ok (v, _) => return v
  | .composite c => do
    let v ← encodeCompositeClaim c
    return .map [(i64Value c.op.claimId, v)]
def encodeClaimSets : List ClaimSet → Except Failure (List Value)
  | [] => .ok []
  | cs :: css => do
    let v ← encodeClaimSet cs
    return v :: (← encodeClaimSets css)
end

end
end Cat
