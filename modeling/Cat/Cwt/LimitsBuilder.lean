import Cat.Cwt.Limits
import Cat.Lib.Outcome
import Mathlib.Logic.Function.Basic

/-!
# Building limits

Each setter of the builder takes a value above zero and within the cap of its limit, and the
last step compares the two limits on strings. What comes out is below the ceiling that the caps
make up, whatever was set and in whatever order.

The eleven setters are one function, `set`, with the limit as a parameter, and each keeps its
definition under the source's name; name and cap of a limit are tables. That all values are in
range is a field of the builder here, so a builder that holds zero cannot be written down, and
`CwtLimits` has the same field and the comparison besides. In the source both are kept by
private fields. `configure_eq_ok` says of a chain of setters when it succeeds and what it
leaves: the last value that was set for each limit.

Limits are ordered by what they let through (`LE`). The ceiling is the greatest limits there
are, and this is where a bound on every decoding of every configuration comes from.
-/

set_option autoImplicit false

namespace Cat

inductive CwtLimit where
  | maxCborPayloadSize
  | maxMoqtScopes
  | maxCustomClaims
  | maxStringClaimLength
  | maxNamespaceMatchesPerScope
  | maxUriPatterns
  | maxNestingDepth
  | maxTotalItems
  | maxTotalStringBytes
  | maxRegexCount
  | maxCatnipEntries
  deriving DecidableEq

namespace CwtLimit

def name : CwtLimit → String
  | maxCborPayloadSize => "max_cbor_payload_size"
  | maxMoqtScopes => "max_moqt_scopes"
  | maxCustomClaims => "max_custom_claims"
  | maxStringClaimLength => "max_string_claim_length"
  | maxNamespaceMatchesPerScope => "max_namespace_matches_per_scope"
  | maxUriPatterns => "max_uri_patterns"
  | maxNestingDepth => "max_nesting_depth"
  | maxTotalItems => "max_total_items"
  | maxTotalStringBytes => "max_total_string_bytes"
  | maxRegexCount => "max_regex_count"
  | maxCatnipEntries => "max_catnip_entries"

def cap : CwtLimit → Nat
  | maxCborPayloadSize => 4 * 1024 * 1024
  | maxMoqtScopes => 100000
  | maxCustomClaims => 10000
  | maxStringClaimLength => 1024 * 1024
  | maxNamespaceMatchesPerScope => 10000
  | maxUriPatterns => 100000
  | maxNestingDepth => 32
  | maxTotalItems => 1000000
  | maxTotalStringBytes => 16 * 1024 * 1024
  | maxRegexCount => 10000
  | maxCatnipEntries => 100000

/-- Above zero and within the cap. -/
def InRange (l : CwtLimit) (value : Nat) : Prop := 0 < value ∧ value ≤ l.cap

instance (l : CwtLimit) (value : Nat) : Decidable (l.InRange value) :=
  inferInstanceAs (Decidable (0 < value ∧ value ≤ l.cap))

/-- The value with the proof that it is in range, or one of two errors. -/
def checkRange (l : CwtLimit) (value : Nat) : Except CatError { v : Nat // l.InRange v } :=
  if hzero : value = 0 then .error (.invalidClaimValue s!"{l.name}: limit must be > 0")
  else if hcap : value > l.cap then
    .error (.invalidClaimValue s!"{l.name}: {value} exceeds policy cap {l.cap}")
  else .ok ⟨value, Nat.pos_of_ne_zero hzero, Nat.le_of_not_lt hcap⟩

theorem checkRange_eq_ok {l : CwtLimit} {value : Nat} {v : { v : Nat // l.InRange v }} :
    l.checkRange value = .ok v ↔ v.1 = value := by
  obtain ⟨v, hpos, hcap⟩ := v
  unfold checkRange
  constructor
  · intro h
    split at h
    · cases h
    · split at h
      · cases h
      · exact (Subtype.mk.inj (Except.ok.inj h)).symm
  · rintro rfl
    rw [dif_neg (Nat.pos_iff_ne_zero.mp hpos), dif_neg (Nat.not_lt.mpr hcap)]

end CwtLimit

namespace CwtLimits

def value (L : CwtLimits) : CwtLimit → Nat
  | .maxCborPayloadSize => L.maxCborPayloadSize
  | .maxMoqtScopes => L.maxMoqtScopes
  | .maxCustomClaims => L.maxCustomClaims
  | .maxStringClaimLength => L.maxStringClaimLength
  | .maxNamespaceMatchesPerScope => L.maxNamespaceMatchesPerScope
  | .maxUriPatterns => L.maxUriPatterns
  | .maxNestingDepth => L.maxNestingDepth
  | .maxTotalItems => L.maxTotalItems
  | .maxTotalStringBytes => L.maxTotalStringBytes
  | .maxRegexCount => L.maxRegexCount
  | .maxCatnipEntries => L.maxCatnipEntries

/-- No limit is tighter in the second. -/
instance : LE CwtLimits := ⟨fun L L' => ∀ l, L.value l ≤ L'.value l⟩

/-- The limits that values in range make up, the one on a string within that on all. -/
def ofValues (value : CwtLimit → Nat) (h : ∀ l : CwtLimit, l.InRange (value l))
    (hstrings : value .maxStringClaimLength ≤ value .maxTotalStringBytes) : CwtLimits where
  maxCborPayloadSize := value .maxCborPayloadSize
  maxMoqtScopes := value .maxMoqtScopes
  maxCustomClaims := value .maxCustomClaims
  maxStringClaimLength := value .maxStringClaimLength
  maxNamespaceMatchesPerScope := value .maxNamespaceMatchesPerScope
  maxUriPatterns := value .maxUriPatterns
  maxNestingDepth := value .maxNestingDepth
  maxTotalItems := value .maxTotalItems
  maxTotalStringBytes := value .maxTotalStringBytes
  maxRegexCount := value .maxRegexCount
  maxCatnipEntries := value .maxCatnipEntries
  payload_ok := h .maxCborPayloadSize
  scopes_ok := h .maxMoqtScopes
  custom_ok := h .maxCustomClaims
  string_ok := h .maxStringClaimLength
  namespace_ok := h .maxNamespaceMatchesPerScope
  uri_ok := h .maxUriPatterns
  nesting_ok := h .maxNestingDepth
  items_ok := h .maxTotalItems
  total_ok := h .maxTotalStringBytes
  regex_ok := h .maxRegexCount
  catnip_ok := h .maxCatnipEntries
  strings_ok := hstrings

@[simp] theorem value_ofValues (value : CwtLimit → Nat) (h : ∀ l : CwtLimit, l.InRange (value l))
    (hstrings : value .maxStringClaimLength ≤ value .maxTotalStringBytes) :
    (ofValues value h hstrings).value = value := by
  funext l
  cases l <;> rfl

theorem inRange (L : CwtLimits) (l : CwtLimit) : l.InRange (L.value l) := by
  cases l with
  | maxCborPayloadSize => exact L.payload_ok
  | maxMoqtScopes => exact L.scopes_ok
  | maxCustomClaims => exact L.custom_ok
  | maxStringClaimLength => exact L.string_ok
  | maxNamespaceMatchesPerScope => exact L.namespace_ok
  | maxUriPatterns => exact L.uri_ok
  | maxNestingDepth => exact L.nesting_ok
  | maxTotalItems => exact L.items_ok
  | maxTotalStringBytes => exact L.total_ok
  | maxRegexCount => exact L.regex_ok
  | maxCatnipEntries => exact L.catnip_ok

/-- Limits with the same values are the same: the other fields are proofs. -/
theorem value_inj {L L' : CwtLimits} (h : L.value = L'.value) : L = L' := by
  have hrebuild (M : CwtLimits) : M = ofValues M.value M.inRange M.strings_ok := rfl
  rw [hrebuild L, hrebuild L']
  congr 1

/-- Every limit at its cap. -/
def ceiling : CwtLimits := ofValues CwtLimit.cap (fun l => by cases l <;> decide) (by decide)

theorem le_ceiling (L : CwtLimits) : L ≤ ceiling := by
  intro l
  rw [ceiling, value_ofValues]
  exact (L.inRange l).2

end CwtLimits

structure CwtLimitsBuilder where
  inner : CwtLimit → Nat
  inRange : ∀ l : CwtLimit, l.InRange (inner l)

namespace CwtLimitsBuilder

def new : CwtLimitsBuilder := ⟨CwtLimits.default.value, CwtLimits.default.inRange⟩

/-- What all the setters do. -/
def set (b : CwtLimitsBuilder) (l : CwtLimit) (value : Nat) :
    Except CatError CwtLimitsBuilder := do
  let v ← l.checkRange value
  return {
    inner := Function.update b.inner l v.1
    inRange := by
      intro l'
      by_cases hl : l' = l
      · subst hl
        rw [Function.update_self]
        exact v.2
      · rw [Function.update_of_ne hl]
        exact b.inRange l' }

def maxCborPayloadSize (b : CwtLimitsBuilder) := b.set .maxCborPayloadSize
def maxMoqtScopes (b : CwtLimitsBuilder) := b.set .maxMoqtScopes
def maxCustomClaims (b : CwtLimitsBuilder) := b.set .maxCustomClaims
def maxStringClaimLength (b : CwtLimitsBuilder) := b.set .maxStringClaimLength
def maxNamespaceMatchesPerScope (b : CwtLimitsBuilder) := b.set .maxNamespaceMatchesPerScope
def maxUriPatterns (b : CwtLimitsBuilder) := b.set .maxUriPatterns
def maxNestingDepth (b : CwtLimitsBuilder) := b.set .maxNestingDepth
def maxTotalItems (b : CwtLimitsBuilder) := b.set .maxTotalItems
def maxTotalStringBytes (b : CwtLimitsBuilder) := b.set .maxTotalStringBytes
def maxRegexCount (b : CwtLimitsBuilder) := b.set .maxRegexCount
def maxCatnipEntries (b : CwtLimitsBuilder) := b.set .maxCatnipEntries

def build (b : CwtLimitsBuilder) : Except CatError CwtLimits :=
  if h : b.inner .maxStringClaimLength > b.inner .maxTotalStringBytes then
    .error (.invalidClaimValue "max_string_claim_length must not exceed max_total_string_bytes")
  else .ok (.ofValues b.inner b.inRange (Nat.le_of_not_lt h))

/-- Setters one after the other, up to the first that refuses. -/
def configure (b : CwtLimitsBuilder) (settings : List (CwtLimit × Nat)) :
    Except CatError CwtLimitsBuilder := settings.foldlM (fun b s => b.set s.1 s.2) b

variable {b b' : CwtLimitsBuilder}

theorem set_eq_ok {l : CwtLimit} {value : Nat} :
    b.set l value = .ok b' ↔ l.InRange value ∧ b'.inner = Function.update b.inner l value := by
  obtain ⟨inner, hinner⟩ := b'
  unfold set
  rw [Except.bind_eq_ok]
  constructor
  · rintro ⟨v, hv, h⟩
    obtain rfl := CwtLimit.checkRange_eq_ok.mp hv
    exact ⟨v.2, (CwtLimitsBuilder.mk.inj (Except.pure_eq_ok.mp h)).symm⟩
  · rintro ⟨hrange, rfl⟩
    exact ⟨⟨value, hrange⟩, CwtLimit.checkRange_eq_ok.mpr rfl, rfl⟩

/-- **Setters in a row** succeed if each value is in range, and the last one for a limit stays. -/
theorem configure_eq_ok {settings : List (CwtLimit × Nat)} :
    b.configure settings = .ok b' ↔ (∀ s ∈ settings, s.1.InRange s.2) ∧
      b'.inner = settings.foldl (fun value s => Function.update value s.1 s.2) b.inner := by
  induction settings generalizing b with
  | nil =>
    obtain ⟨inner, hinner⟩ := b
    obtain ⟨inner', hinner'⟩ := b'
    simp only [configure, List.foldlM_nil, Except.pure_eq_ok, List.not_mem_nil, List.foldl_nil,
      CwtLimitsBuilder.mk.injEq]
    exact ⟨fun h => ⟨fun _ hs => hs.elim, h.symm⟩, fun h => h.2.symm⟩
  | cons s settings ih =>
    rw [configure, List.foldlM_cons, Except.bind_eq_ok, List.forall_mem_cons, List.foldl_cons]
    constructor
    · rintro ⟨c, hc, h⟩
      obtain ⟨hrange, hinner⟩ := set_eq_ok.mp hc
      obtain ⟨hrest, hend⟩ := ih.mp h
      exact ⟨⟨hrange, hrest⟩, hinner ▸ hend⟩
    · rintro ⟨⟨hrange, hrest⟩, hend⟩
      cases hc : b.set s.1 s.2 with
      | error e =>
        -- a value in range is taken
        obtain ⟨v, hv⟩ : ∃ v, s.1.checkRange s.2 = .ok v :=
          ⟨⟨s.2, hrange⟩, CwtLimit.checkRange_eq_ok.mpr rfl⟩
        rw [set, hv] at hc
        cases hc
      | ok c =>
        refine ⟨c, rfl, ih.mpr ⟨hrest, ?_⟩⟩
        rw [(set_eq_ok.mp hc).2]
        exact hend

/-- The last step of a chain: one comparison, and the values as they were set. -/
theorem build_eq_ok {L : CwtLimits} :
    b.build = .ok L ↔ L.value = b.inner ∧
      b.inner .maxStringClaimLength ≤ b.inner .maxTotalStringBytes := by
  unfold build
  by_cases h : b.inner .maxStringClaimLength > b.inner .maxTotalStringBytes
  · rw [dif_pos h]
    exact iff_of_false (by simp) fun h' => absurd h'.2 (Nat.not_le.mpr h)
  · rw [dif_neg h]
    constructor
    · intro heq
      obtain rfl := Except.ok.inj heq
      exact ⟨CwtLimits.value_ofValues _ _ _, Nat.le_of_not_lt h⟩
    · rintro ⟨hvalue, hle⟩
      refine congrArg Except.ok (CwtLimits.value_inj ?_)
      rw [hvalue, CwtLimits.value_ofValues]

end CwtLimitsBuilder

end Cat
