import Cat.Error

/-!
# Decode limits

`CwtLimits` bounds what the payload decoder is willing to build, `DecodeCounters` is what it has
built so far. The builder refuses a zero limit, a limit over its policy cap, and a per-string
limit over the aggregate one, so a `CwtLimits` value carries those facts.

Limits are of two kinds. Some are on one value, like the length of a string or the number of
scopes, and are compared on the spot. Four are on the payload as a whole, and for these the
decoder carries counters through everything it reads, the claim sets inside composites included.
-/

set_option autoImplicit false

namespace Cat

def cborMaxRecursionDepth : Nat := 32

/-- The bounds are those that the builder checks, so limits that it refuses cannot be made. -/
structure CwtLimits where
  maxCborPayloadSize : Nat
  maxMoqtScopes : Nat
  maxCustomClaims : Nat
  maxStringClaimLength : Nat
  maxNamespaceMatchesPerScope : Nat
  maxUriPatterns : Nat
  maxNestingDepth : Nat
  maxTotalItems : Nat
  maxTotalStringBytes : Nat
  maxRegexCount : Nat
  maxCatnipEntries : Nat
  payload_ok : 0 < maxCborPayloadSize ∧ maxCborPayloadSize ≤ 4 * 1024 * 1024
  scopes_ok : 0 < maxMoqtScopes ∧ maxMoqtScopes ≤ 100000
  custom_ok : 0 < maxCustomClaims ∧ maxCustomClaims ≤ 10000
  string_ok : 0 < maxStringClaimLength ∧ maxStringClaimLength ≤ 1024 * 1024
  namespace_ok : 0 < maxNamespaceMatchesPerScope ∧ maxNamespaceMatchesPerScope ≤ 10000
  uri_ok : 0 < maxUriPatterns ∧ maxUriPatterns ≤ 100000
  nesting_ok : 0 < maxNestingDepth ∧ maxNestingDepth ≤ 32
  items_ok : 0 < maxTotalItems ∧ maxTotalItems ≤ 1000000
  total_ok : 0 < maxTotalStringBytes ∧ maxTotalStringBytes ≤ 16 * 1024 * 1024
  regex_ok : 0 < maxRegexCount ∧ maxRegexCount ≤ 10000
  catnip_ok : 0 < maxCatnipEntries ∧ maxCatnipEntries ≤ 100000
  strings_ok : maxStringClaimLength ≤ maxTotalStringBytes

def CwtLimits.default : CwtLimits where
  maxCborPayloadSize := 16 * 1024
  maxMoqtScopes := 1000
  maxCustomClaims := 100
  maxStringClaimLength := 8 * 1024
  maxNamespaceMatchesPerScope := 100
  maxUriPatterns := 1000
  maxNestingDepth := 8
  maxTotalItems := 10000
  maxTotalStringBytes := 512 * 1024
  maxRegexCount := 50
  maxCatnipEntries := 1000
  payload_ok := by decide
  scopes_ok := by decide
  custom_ok := by decide
  string_ok := by decide
  namespace_ok := by decide
  uri_ok := by decide
  nesting_ok := by decide
  items_ok := by decide
  total_ok := by decide
  regex_ok := by decide
  catnip_ok := by decide
  strings_ok := by decide

structure DecodeCounters where
  totalItems : Nat := 0
  totalStringBytes : Nat := 0
  regexCount : Nat := 0
  uriPatternCount : Nat := 0
  deriving DecidableEq

/-- A decoding step: it may fail, and it moves the counters. -/
abbrev Decode := StateT DecodeCounters (Except CatError)

namespace DecodeCounters

/-- Counts first and compares afterwards, so the limit itself is still allowed. The others do the
    same. -/
def countItem (limits : CwtLimits) : Decode Unit := fun c =>
  let c := { c with totalItems := c.totalItems + 1 }
  if c.totalItems > limits.maxTotalItems then
    .error (.invalidCbor s!"Too many CBOR items: exceeds limit of {limits.maxTotalItems}")
  else .ok ((), c)

def countString (len : Nat) (limits : CwtLimits) : Decode Unit := fun c =>
  let c := { c with totalStringBytes := c.totalStringBytes + len }
  if c.totalStringBytes > limits.maxTotalStringBytes then
    .error (.invalidCbor s!"Total string bytes exceeds limit of {limits.maxTotalStringBytes}")
  else .ok ((), c)

def countUriPattern (limits : CwtLimits) : Decode Unit := fun c =>
  let c := { c with uriPatternCount := c.uriPatternCount + 1 }
  if c.uriPatternCount > limits.maxUriPatterns then
    .error (.invalidCbor s!"Too many URI patterns: exceeds limit of {limits.maxUriPatterns}")
  else .ok ((), c)

def countRegex (limits : CwtLimits) : Decode Unit := fun c =>
  let c := { c with regexCount := c.regexCount + 1 }
  if c.regexCount > limits.maxRegexCount then
    .error (.invalidCbor s!"Too many regex patterns: exceeds limit of {limits.maxRegexCount}")
  else .ok ((), c)

end DecodeCounters
end Cat
