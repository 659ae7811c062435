import Cat.Error
import Cat.Lib.Cbor.Value

/-!
# Claims

The claim data model: labels, the claim values, and the token they make up. Tokens nest inside
composite claims, so `CatToken`, `CompositeClaims`, `CompositeClaim` and `ClaimSet` are one
mutual family; everything else is flat.

Two types carry what their setters check. `CatDpopSettings` can only hold a window in `1..=3600`
— both the builder and the decoder refuse any other — and `CustomClaims` can only hold distinct
labels outside the reserved list. In `claims.rs` the fields are private for the same reason.
Other types have public fields there and may hold anything, so they may here: a probability
above one or a latitude beyond the poles can be built, and what becomes of it is a matter of the
encoder and the decoder.

Machine integers are `Int64` and its like, with the widths of the source, since labels and dates
are compared and subtracted in them. Texts are `String`, bytes are lists, and a hash map whose
order nobody sees is a list with distinct keys. An address is the number that its octets spell,
which is how prefixes are compared.

Setters of single fields that check nothing are left out. A token of the model is any value of
the record, so every chain of them is covered.
-/

set_option autoImplicit false

namespace Cat

open Cbor (Bytes)

/-! ## Labels -/

def claimIss : Int64 := 1
def claimAud : Int64 := 3
def claimExp : Int64 := 4
def claimNbf : Int64 := 5
def claimCti : Int64 := 7
def claimCatreplay : Int64 := 308
def claimCatpor : Int64 := 309
def claimCatv : Int64 := 310
def claimCatnip : Int64 := 311
def claimCatu : Int64 := 312
def claimCatm : Int64 := 313
def claimCatalpn : Int64 := 314
def claimCath : Int64 := 315
def claimCatgeoiso3166 : Int64 := 316
def claimCatgeocoord : Int64 := 317
def claimGeohash : Int64 := 282
def claimCatgeoalt : Int64 := 318
def claimCattpk : Int64 := 319
def claimSub : Int64 := 2
def claimIat : Int64 := 6
def claimCatifdata : Int64 := 320
def claimCnf : Int64 := 8
def claimCatdpop : Int64 := 321
def claimCatif : Int64 := 322
def claimCatr : Int64 := 323
def claimOr : Int64 := 324
def claimNor : Int64 := 325
def claimAnd : Int64 := 326
def claimMoqt : Int64 := 327
def claimMoqtReval : Int64 := 328

/-- JWK thumbprint member of `cnf`. -/
def cnfJkt : Int64 := 323
def cnfJktLegacy : Int64 := 3
/-- COSE key thumbprint member of `cnf`. -/
def cnfCkt : Int64 := 6

def catdpopCrit : Int64 := -1
def catdpopWindow : Int64 := 0
def catdpopHonorJti : Int64 := 1
def catdpopMaxWindowSecs : Int64 := 3600

def catrType : Int64 := 0
def catrExpadd : Int64 := 1
def catrDeadline : Int64 := 2
def catrCookieName : Int64 := 3
def catrHeaderName : Int64 := 4
def catrAdditionalCookieParams : Int64 := 5
def catrAdditionalHeaderParams : Int64 := 6
def catrStatusCode : Int64 := 7

def matchExact : Int64 := 0
def matchPrefix : Int64 := 1
def matchSuffix : Int64 := 2
def matchContains : Int64 := 3
def matchRegex : Int64 := 4
def matchSha256 : Int64 := -1
def matchSha512_256 : Int64 := -2

def matchTypePrefix : Int64 := 1
def matchTypeSuffix : Int64 := 2

/-- The labels a custom claim may not use. The composite labels are not among them. -/
def reservedClaimIds : List Int64 :=
  [claimIss, claimSub, claimAud, claimExp, claimNbf, claimIat, claimCti, claimCnf, claimGeohash,
    claimCatreplay, claimCatpor, claimCatv, claimCatnip, claimCatu, claimCatm, claimCatalpn,
    claimCath, claimCatgeoiso3166, claimCatgeocoord, claimCatgeoalt, claimCattpk,
    claimCatifdata, claimCatdpop, claimCatif, claimCatr, claimMoqt, claimMoqtReval]

def isReservedClaimId (key : Int64) : Bool := reservedClaimIds.contains key

/-! ## Claim values

As in the source, one type for each claim that is more than a number or a text. What a
constructor makes sure of is a field of the type where the constructor is the only way to make
one.
-/

inductive ReplayProtection where
  | permitted
  | prohibited
  | reuseDetection
  deriving DecidableEq

def ReplayProtection.toU32 : ReplayProtection → UInt32
  | .permitted => 0
  | .prohibited => 1
  | .reuseDetection => 2

def ReplayProtection.tryFrom (v : UInt32) : Except CatError ReplayProtection :=
  match v.toNat with
  | 0 => .ok .permitted
  | 1 => .ok .prohibited
  | 2 => .ok .reuseDetection
  | _ => .error (.invalidClaimValue s!"Invalid catreplay value: {v.toNat}")

structure ProbabilityOfRejection where
  probability : F64
  id : Bytes
  expiration : Option Int64
  deriving DecidableEq

structure GeoAltitude where
  altitude : F64
  deviation : F64
  deriving DecidableEq

structure GeoCoordinate where
  lat : F64
  lon : F64
  radius : UInt32
  deriving DecidableEq

/-- `std::net::IpAddr`, as the number its octets spell. -/
inductive IpAddr where
  | v4 (bits : BitVec 32)
  | v6 (bits : BitVec 128)
  deriving DecidableEq

/-- The octets in network order. -/
def IpAddr.octets : IpAddr → Bytes
  | .v4 a => BigEndian.ofNat 4 a.toNat
  | .v6 a => BigEndian.ofNat 16 a.toNat

inductive NetworkIdentifier where
  | ipAddress (addr : IpAddr)
  | ipPrefix (addr : IpAddr) (prefixLen : UInt8)
  | asn (asn : UInt32)
  | asnRange (start stop : UInt32)
  deriving DecidableEq

inductive MatchValue where
  | exact (s : String)
  | pre (s : String)
  | suf (s : String)
  | contains (s : String)
  | regex (s : String)
  | sha256 (h : Bytes)
  | sha512_256 (h : Bytes)
  deriving DecidableEq

structure UriMatchRule where
  component : Int64
  matches_ : List MatchValue
  deriving DecidableEq

structure HeaderMatchRule where
  name : String
  matches_ : List MatchValue
  deriving DecidableEq

/-- Sender constraint: a JWK thumbprint, a COSE key thumbprint, or both. A confirmation
    with a COSE thumbprint only has an empty `jkt`. -/
structure ConfirmationClaim where
  jkt : Bytes
  ckt : Option Bytes
  deriving DecidableEq

structure CatDpopSettings where
  crit : Option (List Int64)
  window : Option Int64
  honorJti : Option Bool
  /-- Neither the builder nor the decoder lets another window in. -/
  window_ok : ∀ w ∈ window, 1 ≤ w.toInt ∧ w.toInt ≤ catdpopMaxWindowSecs.toInt
  deriving DecidableEq

def CatDpopSettings.new : CatDpopSettings := ⟨none, none, none, by simp⟩

def CatDpopSettings.setCritFromDecode (s : CatDpopSettings) (keys : List Int64) :
    CatDpopSettings := { s with crit := some keys }

def CatDpopSettings.setWindowFromDecode (s : CatDpopSettings) (seconds : Int64)
    (h : 1 ≤ seconds.toInt ∧ seconds.toInt ≤ catdpopMaxWindowSecs.toInt) : CatDpopSettings :=
  { s with window := some seconds, window_ok := by simpa using h }

def CatDpopSettings.setHonorJtiFromDecode (s : CatDpopSettings) (honor : Bool) :
    CatDpopSettings := { s with honorJti := some honor }

/-- `crit` must not name a key every implementation understands. -/
def CatDpopSettings.validateCrit (s : CatDpopSettings) : Except CatError Unit :=
  match s.crit with
  | none => .ok ()
  | some crit =>
    match crit.find? fun key => [catdpopCrit, catdpopWindow, catdpopHonorJti].contains key with
    | none => .ok ()
    | some key => .error (.invalidClaimValue
        s!"catdpop crit must not contain always-understood key: {key.toInt}")

/-- Five minutes, unless the token says otherwise. -/
def CatDpopSettings.effectiveWindow (s : CatDpopSettings) : Int64 := s.window.getD 300
def CatDpopSettings.shouldHonorJti (s : CatDpopSettings) : Bool := s.honorJti.getD true

theorem CatDpopSettings.effectiveWindow_range (s : CatDpopSettings) :
    1 ≤ s.effectiveWindow.toInt ∧ s.effectiveWindow.toInt ≤ 3600 := by
  unfold effectiveWindow
  cases h : s.window with
  | none => decide
  | some w => exact s.window_ok w h

/-- `catif`: what to answer when a claim is not satisfied. -/
structure CatIfAction where
  status : UInt32
  headers : Option (List (String × String))
  kid : Option String
  deriving DecidableEq

inductive CatRenewalType where
  | automatic
  | cookie
  | header
  | redirect
  deriving DecidableEq

def CatRenewalType.toU32 : CatRenewalType → UInt32
  | .automatic => 0
  | .cookie => 1
  | .header => 2
  | .redirect => 3

def CatRenewalType.fromU32 (v : UInt32) : Option CatRenewalType :=
  match v.toNat with
  | 0 => some .automatic
  | 1 => some .cookie
  | 2 => some .header
  | 3 => some .redirect
  | _ => none

structure CatRenewal where
  renewalType : CatRenewalType
  expadd : Option F64
  deadline : Option F64
  cookieName : Option String
  headerName : Option String
  cookieParams : Option (List String)
  headerParams : Option (List String)
  statusCode : Option UInt32
  deriving DecidableEq

inductive MoqtAction where
  | clientSetup
  | serverSetup
  | publishNamespace
  | subscribeNamespace
  | subscribe
  | requestUpdate
  | publish
  | fetch
  | trackStatus
  deriving DecidableEq

def MoqtAction.toI32 : MoqtAction → Int32
  | .clientSetup => 0
  | .serverSetup => 1
  | .publishNamespace => 2
  | .subscribeNamespace => 3
  | .subscribe => 4
  | .requestUpdate => 5
  | .publish => 6
  | .fetch => 7
  | .trackStatus => 8

def MoqtAction.tryFrom (value : Int32) : Except CatError MoqtAction :=
  match value.toInt with
  | 0 => .ok .clientSetup
  | 1 => .ok .serverSetup
  | 2 => .ok .publishNamespace
  | 3 => .ok .subscribeNamespace
  | 4 => .ok .subscribe
  | 5 => .ok .requestUpdate
  | 6 => .ok .publish
  | 7 => .ok .fetch
  | 8 => .ok .trackStatus
  | _ => .error (.invalidClaimValue s!"Invalid MOQT action: {value.toInt}")

/-- What an action addresses: the relay, a namespace, or a track in one. -/
inductive MoqtResourceShape where
  | endpoint
  | namespaceTuple
  | track
  deriving DecidableEq

def MoqtAction.resourceShape : MoqtAction → MoqtResourceShape
  | .clientSetup | .serverSetup => .endpoint
  | .publishNamespace | .subscribeNamespace => .namespaceTuple
  | .subscribe | .requestUpdate | .publish | .fetch | .trackStatus => .track

inductive BinaryMatchType where
  | any
  | exact
  | pre
  | suf
  deriving DecidableEq

/-- How a name of a namespace or of a track is matched. -/
structure BinaryMatch where
  matchType : BinaryMatchType
  pattern : Bytes
  deriving DecidableEq

/-- An empty prefix or suffix would match every input; it matches none. -/
def BinaryMatch.matches_ (m : BinaryMatch) (input : Bytes) : Bool :=
  match m.matchType with
  | .any => true
  | .exact => input == m.pattern
  | .pre => if m.pattern.isEmpty then false else m.pattern.isPrefixOf input
  | .suf => if m.pattern.isEmpty then false else m.pattern.isSuffixOf input

/-- A match of one element of a namespace. `nil` matches the end, where there is no element. -/
inductive NamespaceMatch where
  | match_ (m : BinaryMatch)
  | nil
  deriving DecidableEq

def NamespaceMatch.matches_ : NamespaceMatch → Option Bytes → Bool
  | .nil, none => true
  | .nil, some _ => false
  | .match_ _, none => false
  | .match_ m, some data => m.matches_ data

structure MoqtScope where
  actions : List MoqtAction
  namespaceMatches : List NamespaceMatch
  trackMatch : Option BinaryMatch
  deriving DecidableEq

/-- The labels and values outside the profile, by label. -/
structure CustomClaims where
  entries : List (Int64 × Cbor.Value)
  nodup : (entries.map Prod.fst).Nodup
  unreserved : ∀ e ∈ entries, isReservedClaimId e.1 = false

def CustomClaims.empty : CustomClaims := ⟨[], by simp, by simp⟩
def CustomClaims.len (c : CustomClaims) : Nat := c.entries.length

/-- `HashMap::insert`: the value under a label already present is replaced. -/
def CustomClaims.insert (c : CustomClaims) (key : Int64) (value : Cbor.Value)
    (h : isReservedClaimId key = false) : CustomClaims where
  entries := c.entries.filter (fun e => e.1 != key) ++ [(key, value)]
  nodup := by
    rw [List.map_append, List.nodup_append]
    refine ⟨(List.filter_sublist.map Prod.fst).nodup c.nodup, by simp, ?_⟩
    simp only [List.map_cons, List.map_nil, List.mem_singleton, forall_eq, List.mem_map,
      List.mem_filter]
    rintro a ⟨e, ⟨-, he⟩, rfl⟩
    simpa using he
  unreserved := by
    intro e he
    rw [List.mem_append, List.mem_filter, List.mem_singleton] at he
    rcases he with ⟨he, -⟩ | rfl
    · exact c.unreserved e he
    · exact h

/-! ## The token -/

structure CoreClaims where
  iss : Option String := none
  aud : Option (List String) := none
  exp : Option Int64 := none
  nbf : Option Int64 := none
  cti : Option Bytes := none
  deriving DecidableEq

structure CatClaims where
  catreplay : Option ReplayProtection := none
  catpor : Option ProbabilityOfRejection := none
  catv : Option UInt32 := none
  catnip : Option (List NetworkIdentifier) := none
  catu : Option (List UriMatchRule) := none
  catm : Option (List String) := none
  catalpn : Option (List Bytes) := none
  cath : Option (List HeaderMatchRule) := none
  catgeoiso3166 : Option (List String) := none
  catgeocoord : Option (List GeoCoordinate) := none
  geohash : Option (List String) := none
  catgeoalt : Option GeoAltitude := none
  cattpk : Option Bytes := none
  deriving DecidableEq

structure InformationalClaims where
  sub : Option String := none
  iat : Option Int64 := none
  catifdata : Option (List String) := none
  deriving DecidableEq

structure DpopClaims where
  cnf : Option ConfirmationClaim := none
  catdpop : Option CatDpopSettings := none
  deriving DecidableEq

structure RequestClaims where
  catif : Option (List (Int64 × CatIfAction)) := none
  catr : Option CatRenewal := none
  deriving DecidableEq

structure MoqtClaims where
  moqt : Option (List MoqtScope) := none
  moqtReval : Option F64 := none
  deriving DecidableEq

inductive CompositeOperator where
  | or
  | nor
  | and
  deriving DecidableEq

mutual
structure CatToken where
  core : CoreClaims
  cat : CatClaims
  informational : InformationalClaims
  dpop : DpopClaims
  request : RequestClaims
  composite : CompositeClaims
  moqt : MoqtClaims
  custom : CustomClaims
structure CompositeClaims where
  orClaim : Option CompositeClaim
  norClaim : Option CompositeClaim
  andClaim : Option CompositeClaim
structure CompositeClaim where
  op : CompositeOperator
  claims : List ClaimSet
inductive ClaimSet where
  | token (t : CatToken)
  | composite (c : CompositeClaim)
end

def CompositeClaims.default : CompositeClaims := ⟨none, none, none⟩

/-- The token with no claims. -/
def CatToken.new : CatToken := ⟨{}, {}, {}, {}, {}, .default, {}, .empty⟩

end Cat
