import Cat.Crypto
import Cat.Lib.Outcome

/-!
# Key resolution

Which key verifies a token, from what its envelope and its peeked issuer say. Both resolvers
refuse rather than guess: the single key may be pinned to an issuer and a `kid`, and the key
ring matches the exact `(issuer, kid, algorithm)` triple.

The ring is a map, so its triples are distinct, and each triple's algorithm is the one its key
reports; `KeyRingResolver` carries both facts. With them a resolver vouches for what it returns:
the key's algorithm is the one the token names, and where the resolver is pinned, the issuer and
the `kid` are those it is pinned to. What an attacker controls before the signature is checked —
header and peeked issuer — can then choose among the keys that were configured and cannot change
what any of them stands for.

A resolver is a function from the claims of the envelope to a key or an error, and the trait
object of the source is no more than that. So a result about validation takes any resolver, and
what a particular one adds is stated here.
-/

set_option autoImplicit false

namespace Cat

open Cbor (Bytes)

/-- What a key is looked up by. -/
structure KeyHint where
  algorithmId : Int64
  kid : Option Bytes
  issuer : Option String
  deriving DecidableEq

/-- The `KeyResolver` trait. -/
abbrev KeyResolver := KeyHint → Except CatError CryptographicAlgorithm

/-! ## One key -/

/-- One key, and what a token has to say of itself to be verified with it. -/
structure SingleKeyResolver where
  algorithm : CryptographicAlgorithm
  requiredIssuer : Option String
  requiredKid : Option Bytes

namespace SingleKeyResolver

def new (algorithm : CryptographicAlgorithm) (issuer : String) : SingleKeyResolver :=
  ⟨algorithm, some issuer, none⟩

def dangerouslyAnyIssuer (algorithm : CryptographicAlgorithm) : SingleKeyResolver :=
  ⟨algorithm, none, none⟩

/-- An empty `kid` pins nothing. -/
def requireKid (r : SingleKeyResolver) (kid : Bytes) : SingleKeyResolver :=
  if kid.isEmpty then r else { r with requiredKid := some kid }

def checkIssuer (r : SingleKeyResolver) (issuer : Option String) : Except CatError Unit :=
  match r.requiredIssuer with
  | none => .ok ()
  | some expected =>
    match issuer with
    | some actual => if actual = expected then .ok () else .error .invalidIssuer
    | none => .error (.missingRequiredClaim "iss")

/-- A resolver without a `kid` of its own takes tokens with any. -/
def checkKid (r : SingleKeyResolver) (kid : Option Bytes) : Except CatError Unit :=
  match r.requiredKid with
  | none => .ok ()
  | some expected =>
    match kid with
    | some actual =>
      if actual = expected then .ok ()
      else .error (.configurationRefused
        "kid mismatch: header kid does not match pinned kid")
    | none => .error (.configurationRefused
        "kid missing from protected header but required by resolver")

def resolve (r : SingleKeyResolver) : KeyResolver := fun hint => do
  if hint.algorithmId ≠ r.algorithm.algorithmId then
    throw (.algorithmMismatch r.algorithm.algorithmId hint.algorithmId)
  r.checkIssuer hint.issuer
  r.checkKid hint.kid
  return r.algorithm

/-- What a pinned resolver has checked of a hint it resolves. -/
theorem resolve_eq_ok {r : SingleKeyResolver} {hint : KeyHint} {key : CryptographicAlgorithm}
    (h : r.resolve hint = .ok key) :
    key = r.algorithm ∧ hint.algorithmId = key.algorithmId ∧
      (∀ iss ∈ r.requiredIssuer, hint.issuer = some iss) ∧
      (∀ kid ∈ r.requiredKid, hint.kid = some kid) := by
  unfold resolve at h
  obtain ⟨halg, hrest⟩ := Except.guard_eq_ok.mp h
  obtain ⟨_, hiss, hrest⟩ := Except.bind_eq_ok.mp hrest
  obtain ⟨_, hkid, hkey⟩ := Except.bind_eq_ok.mp hrest
  obtain rfl := Except.pure_eq_ok.mp hkey
  refine ⟨rfl, not_not.mp halg, fun iss hi => ?_, fun kid hk => ?_⟩
  · simp only [checkIssuer, Option.mem_def.mp hi] at hiss
    grind
  · simp only [checkKid, Option.mem_def.mp hk] at hkid
    grind

/-- Of several pinned `kid`s the last one counts that is not empty. -/
theorem foldl_requireKid (r : SingleKeyResolver) (kids : List Bytes) :
    kids.foldl requireKid r = { r with
      requiredKid := (kids.filter fun kid => !kid.isEmpty).getLast?.or r.requiredKid } := by
  induction kids generalizing r with
  | nil => rfl
  | cons kid kids ih =>
    rw [List.foldl_cons, ih, requireKid]
    cases hkid : kid.isEmpty with
    | true => simp [hkid]
    | false =>
      have hkeep : (kid :: kids).filter (fun kid => !kid.isEmpty) =
          kid :: kids.filter fun kid => !kid.isEmpty := List.filter_cons_of_pos (by rw [hkid]; rfl)
      rw [if_neg Bool.false_ne_true, hkeep, List.getLast?_cons]
      cases (kids.filter fun kid => !kid.isEmpty).getLast? with
      | none => rfl
      | some last => rfl

/-- **A pinned resolver vouches for one key only**: whatever it resolves has the issuer it was made
for and the `kid` pinned last, and is its own key. -/
theorem resolve_pinned {algorithm key : CryptographicAlgorithm} {issuer : String}
    {kids : List Bytes} {hint : KeyHint}
    (h : (kids.foldl requireKid (new algorithm issuer)).resolve hint = .ok key) :
    key = algorithm ∧ hint.algorithmId = algorithm.algorithmId ∧ hint.issuer = some issuer ∧
      ∀ kid ∈ (kids.filter fun kid => !kid.isEmpty).getLast?, hint.kid = some kid := by
  rw [foldl_requireKid] at h
  obtain ⟨rfl, halg, hissuer, hkid⟩ := resolve_eq_ok h
  refine ⟨rfl, halg, hissuer issuer rfl, fun kid hmem => hkid kid ?_⟩
  rw [Option.mem_def.mp hmem]
  rfl

end SingleKeyResolver

/-! ## A ring of keys -/

/-- What a token says of its key: issuer, `kid` and algorithm together. -/
structure KeyEntry where
  issuer : String
  kid : Bytes
  algorithmId : Int64
  deriving DecidableEq

/-- Each triple has one key, and a key stands under its own algorithm. Both are kept as fields,
    since they hold of every ring that registrations can make. -/
structure KeyRingResolver where
  keys : List (KeyEntry × CryptographicAlgorithm)
  nodup : (keys.map Prod.fst).Nodup
  derived : ∀ e ∈ keys, e.1.algorithmId = e.2.algorithmId

namespace KeyRingResolver

def new : KeyRingResolver := ⟨[], by simp, by simp⟩

/-- `HashMap::remove`, keeping what is under other triples. -/
def removeKey (r : KeyRingResolver) (issuer : String) (kid : Bytes) (algorithmId : Int64) :
    KeyRingResolver where
  keys := r.keys.filter fun e => e.1 ≠ ⟨issuer, kid, algorithmId⟩
  nodup := (List.filter_sublist.map Prod.fst).nodup r.nodup
  derived e he := r.derived e (List.mem_filter.mp he).1

/-- `HashMap::insert`: a key already under the triple is replaced. -/
def addKey (r : KeyRingResolver) (issuer : String) (kid : Bytes)
    (algorithm : CryptographicAlgorithm) : KeyRingResolver where
  keys := (⟨issuer, kid, algorithm.algorithmId⟩, algorithm) ::
    (r.removeKey issuer kid algorithm.algorithmId).keys
  nodup := by
    rw [List.map_cons, List.nodup_cons]
    refine ⟨?_, (r.removeKey issuer kid algorithm.algorithmId).nodup⟩
    rintro hmem
    obtain ⟨e, he, heq⟩ := List.mem_map.mp hmem
    simpa [heq] using (List.mem_filter.mp he).2
  derived e he := by
    rcases List.mem_cons.mp he with rfl | he
    · rfl
    · exact (r.removeKey issuer kid algorithm.algorithmId).derived e he

def keyCount (r : KeyRingResolver) : Nat := r.keys.length

def get (r : KeyRingResolver) (entry : KeyEntry) : Option CryptographicAlgorithm :=
  (r.keys.find? fun e => e.1 = entry).map Prod.snd

def resolve (H : Host) (r : KeyRingResolver) : KeyResolver := fun hint => do
  let issuer ← match hint.issuer with
    | some issuer => pure issuer
    | none => throw (.missingRequiredClaim "iss")
  let kid ← match hint.kid with
    | some kid => pure kid
    | none => throw (.configurationRefused "kid missing from protected header")
  match r.get ⟨issuer, kid, hint.algorithmId⟩ with
  | some key => return key
  | none => throw (.configurationRefused
      s!"no key registered for (iss='{issuer}', kid='{H.utf8Lossy kid}', alg={hint.algorithmId.toInt})")

/-- The ring holds this key for the triple. -/
def Holds (r : KeyRingResolver) (issuer : String) (kid : Bytes) (algorithmId : Int64)
    (key : CryptographicAlgorithm) : Prop := (⟨issuer, kid, algorithmId⟩, key) ∈ r.keys

theorem resolve_eq_ok {H : Host} {r : KeyRingResolver} {hint : KeyHint}
    {key : CryptographicAlgorithm} (h : r.resolve H hint = .ok key) :
    ∃ issuer kid, hint.issuer = some issuer ∧ hint.kid = some kid ∧
      r.Holds issuer kid hint.algorithmId key := by
  unfold resolve at h
  dsimp only at h
  split at h
  · rename_i issuer hiss
    split at h
    · rename_i kid hkid
      simp only [pure_bind] at h
      split at h
      · rename_i k hk
        obtain rfl := Except.pure_eq_ok.mp h
        obtain ⟨e, he, rfl⟩ := Option.map_eq_some_iff.mp hk
        have hentry : e.1 = ⟨issuer, kid, hint.algorithmId⟩ := by simpa using List.find?_some he
        refine ⟨issuer, kid, hiss, hkid, ?_⟩
        rw [Holds, ← hentry]
        exact List.mem_of_find?_eq_some he
      · exact absurd h Except.throw_ne_ok
    · simp [Except.bind_eq_ok] at h
  · simp [Except.bind_eq_ok] at h

end KeyRingResolver
end Cat
