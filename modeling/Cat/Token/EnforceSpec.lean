import Cat.Lib.Outcome
import Cat.Token.Enforce

/-!
# What a passed guard says

A restriction claim is a condition on the request: a disjunction over the values it lists
(`AnyOf`), or a conjunction of rules each of which is one. Here each condition is stated without
the guard that enforces it, and each guard is shown to pass only requests that meet it.
`enforceCatnip` and `enforceGeo` fall short of that by the empty list, which nothing meets and
which they let pass.

These are the specifications that the pipeline's results are put together from. A guard whose
code changes needs its lemma here and no other, as long as the condition stays; a condition that
changes shows in the statements that mention it, which is where it should.
-/

set_option autoImplicit false

namespace Cat

open Cbor

/-! ## Disjunctive lists

Most restrictions list alternatives, and are met if one of them matches. An absent list
restricts nothing, an empty one is met by nothing.
-/

section
variable {α : Type}

/-- Some listed value matches. A claim that lists nothing is met by nothing. -/
def AnyOf (Matches : α → Prop) (claim : Option (List α)) : Prop :=
  ∀ list ∈ claim, ∃ a ∈ list, Matches a

/-- Not the list that nothing meets. -/
def ListsSome (claim : Option (List α)) : Prop := claim ≠ some []

instance [DecidableEq α] (claim : Option (List α)) : Decidable (ListsSome claim) :=
  inferInstanceAs (Decidable (claim ≠ some []))

variable {Matches : α → Prop} {claim : Option (List α)}

theorem AnyOf.listsSome (h : AnyOf Matches claim) : ListsSome claim := by
  intro hempty
  obtain ⟨a, ha, -⟩ := h [] hempty
  exact absurd ha List.not_mem_nil

/-- A guard that skips the empty list enforces the disjunction on the others. -/
theorem AnyOf.iff_listsSome (h : claim = some [] ∨ AnyOf Matches claim) :
    AnyOf Matches claim ↔ ListsSome claim := by
  constructor
  · exact AnyOf.listsSome
  · intro hne
    cases h with
    | inl hempty => exact absurd hempty hne
    | inr hany => exact hany

theorem nonempty?_eq_some {list : List α} :
    nonempty? claim = some list ↔ claim = some list ∧ list ≠ [] := by
  unfold nonempty?
  rw [Option.filter_eq_some_iff]
  cases list with
  | nil => simp
  | cons a as => simp

theorem AnyOf.of_nonempty? (h : AnyOf Matches (nonempty? claim)) :
    claim = some [] ∨ AnyOf Matches claim := by
  by_cases hempty : claim = some []
  · exact .inl hempty
  · refine .inr fun list hlist => h list (nonempty?_eq_some.mpr ⟨hlist, ?_⟩)
    rintro rfl
    exact hempty hlist

end

/-! ## The conditions

Without the guards: what each claim says about a request.
-/

section
variable (H : Host)

/-- Every rule of `catu` has a match value for its component of the URI. -/
def CatuMet (rules : List UriMatchRule) (requestUri : Option String) : Prop :=
  ∃ uri components, requestUri = some uri ∧ decomposeUri uri = .ok components ∧
    ∀ rule ∈ rules, ∃ mv ∈ rule.matches_,
      applyMatchValue H mv (components.component rule.component) = true

/-- Every rule of `cath` has a match value for the first header of its name. -/
def CathMet (rules : List HeaderMatchRule) (headers : List (String × String)) : Prop :=
  ∀ rule ∈ rules, ∃ h,
    headers.find? (fun h => eqIgnoreAsciiCase rule.name.toList h.1.toList) = some h ∧
      ∃ mv ∈ rule.matches_, applyMatchValue H mv (unfoldHeaderValue h.2.toList) = true

/-- The location is known to be in the country, and subdivision if there is one, of a code. -/
def InCountry (location : Option RequestLocation) (code : String) : Prop :=
  ∃ l country, location = some l ∧ l.countryCode = some country ∧
    codeMatches l country code = true

def InZone (location : Option RequestLocation) (zone : GeoCoordinate) : Prop :=
  ∃ l lat lon, location = some l ∧ l.latitude = some lat ∧ l.longitude = some lon ∧
    inZone H lat lon zone = true

def InGeohash (location : Option RequestLocation) (geohash : String) : Prop :=
  ∃ l peerHash, location = some l ∧ l.geohash = some peerHash ∧
    geohash.toList.isPrefixOf peerHash.toList = true

/-- The block list is there, does not block the id, and the draw is not below the
    probability of rejection. -/
def CatporMet (env : Ambient) (catpor : ProbabilityOfRejection)
    (blockList : Option CatPorBlockList) : Prop :=
  ∃ list draw, blockList = some list ∧ (list.isBlocked env.utcNow catpor.id).1 = false ∧
    env.draw = some draw ∧ F64.lt (catporVariate draw) catpor.probability = false

end

/-! ## The guards

One lemma for each, from a guard that passed to its condition.
-/

section
variable {H : Host} {token : CatToken} {u : Unit}

theorem validateMethod_ok {method : String} :
    validateMethod token method = .ok u ↔ AnyOf (some method = some ·) token.cat.catm := by
  unfold validateMethod AnyOf
  cases token.cat.catm with
  | none => simp
  | some methods =>
    simp only [Option.mem_def, Option.some.injEq, forall_eq']
    by_cases h : method ∈ methods
    · simp [h]
    · simp [h]

theorem validateHeader_ok {headers : List (String × String)} {rule : HeaderMatchRule} :
    validateHeader H headers rule = .ok u ↔ ∃ h,
      headers.find? (fun h => eqIgnoreAsciiCase rule.name.toList h.1.toList) = some h ∧
        ∃ mv ∈ rule.matches_, applyMatchValue H mv (unfoldHeaderValue h.2.toList) = true := by
  unfold validateHeader
  cases headers.find? fun h => eqIgnoreAsciiCase rule.name.toList h.1.toList with
  | none => simp
  | some h => simp [List.any_eq_true]

theorem validateAllHeaders_ok {headers : List (String × String)} :
    validateAllHeaders H token headers = .ok u ↔
      ∀ rules ∈ token.cat.cath, CathMet H rules headers := by
  unfold validateAllHeaders
  cases token.cat.cath with
  | none => simp
  | some rules =>
    simp only [Option.mem_def, Option.some.injEq, forall_eq', CathMet]
    exact Except.forM_eq_ok.trans (forall₂_congr fun _ _ => validateHeader_ok)

theorem enforceCatu_ok {uri : String} :
    enforceCatu H token uri = .ok u ↔ ∀ rules ∈ token.cat.catu, CatuMet H rules (some uri) := by
  unfold enforceCatu CatuMet
  cases token.cat.catu with
  | none => simp
  | some rules =>
    simp only [Except.bind_eq_ok, Except.forM_eq_ok, enforceCatuRule, Option.mem_def,
      Option.some.injEq, forall_eq']
    constructor
    · intro ⟨components, hcomponents, hrules⟩
      refine ⟨uri, components, rfl, hcomponents, fun rule hrule => ?_⟩
      have h := hrules rule hrule
      split at h
      · exact List.any_eq_true.mp ‹_›
      · exact absurd h (by simp)
    · intro ⟨uri', components, huri, hcomponents, hrules⟩
      obtain rfl := huri
      refine ⟨components, hcomponents, fun rule hrule => ?_⟩
      rw [if_pos (List.any_eq_true.mpr (hrules rule hrule))]

theorem enforceCatnip_ok {ip : Option IpAddr} {asn : Option UInt32}
    (h : enforceCatnip token ip asn = .ok u) :
    token.cat.catnip = some [] ∨ AnyOf (·.matchesPeer ip asn = true) token.cat.catnip := by
  unfold enforceCatnip at h
  cases hnip : token.cat.catnip with
  | none => exact .inr (by simp [AnyOf])
  | some nips =>
    rw [hnip] at h
    dsimp only at h
    split at h
    · exact .inl (by simpa using ‹nips.isEmpty = true›)
    · split at h
      · exact absurd h (by simp)
      · split at h
        · exact absurd h (by simp)
        · split at h
          · refine .inr fun list hlist => ?_
            obtain rfl := Option.some.inj hlist
            exact List.any_eq_true.mp ‹_›
          · exact absurd h (by simp)

theorem enforceIso3166_ok {l : RequestLocation} {codes : List String}
    (h : enforceIso3166 l codes = .ok u) : ∃ code ∈ codes, InCountry (some l) code := by
  unfold enforceIso3166 at h
  split at h
  · exact absurd h (by simp)
  · split at h
    · obtain ⟨code, hcode, hmatch⟩ := List.any_eq_true.mp ‹_›
      exact ⟨code, hcode, l, _, rfl, ‹_›, hmatch⟩
    · exact absurd h (by simp)

theorem enforceGeocoord_ok {l : RequestLocation} {zones : List GeoCoordinate}
    (h : enforceGeocoord H l zones = .ok u) : ∃ zone ∈ zones, InZone H (some l) zone := by
  unfold enforceGeocoord at h
  split at h
  · exact absurd h (by simp)
  · exact absurd h (by simp)
  · split at h
    · obtain ⟨zone, hzone, hmatch⟩ := List.any_eq_true.mp ‹_›
      exact ⟨zone, hzone, l, _, _, rfl, ‹_›, ‹_›, hmatch⟩
    · exact absurd h (by simp)

theorem enforceGeohash_ok {l : RequestLocation} {hashes : List String}
    (h : enforceGeohash l hashes = .ok u) : ∃ t ∈ hashes, InGeohash (some l) t := by
  unfold enforceGeohash at h
  split at h
  · exact absurd h (by simp)
  · split at h
    · obtain ⟨t, ht, hmatch⟩ := List.any_eq_true.mp ‹_›
      exact ⟨t, ht, l, _, rfl, ‹_›, hmatch⟩
    · exact absurd h (by simp)

/-- The three geographic lists, each met unless it is empty. -/
theorem enforceGeo_ok {location : Option RequestLocation}
    (h : enforceGeo H token location = .ok u) :
    AnyOf (InCountry location) (nonempty? token.cat.catgeoiso3166) ∧
      AnyOf (InZone H location) (nonempty? token.cat.catgeocoord) ∧
      AnyOf (InGeohash location) (nonempty? token.cat.geohash) := by
  unfold enforceGeo at h
  dsimp only at h
  split at h
  · rename_i hnone
    simp only [Bool.and_eq_true, Option.isNone_iff_eq_none] at hnone
    obtain ⟨⟨hiso, hcoord⟩, hhash⟩ := hnone
    rw [hiso, hcoord, hhash]
    simp [AnyOf]
  · cases location with
    | none => exact absurd h (by simp)
    | some l =>
      simp only [Except.bind_eq_ok, Except.option_forM_eq_ok] at h
      obtain ⟨-, hiso, -, hcoord, hhash⟩ := h
      exact ⟨fun _ hl => enforceIso3166_ok (hiso _ hl),
        fun _ hl => enforceGeocoord_ok (hcoord _ hl), fun _ hl => enforceGeohash_ok (hhash _ hl)⟩

theorem enforceCatpor_ok {env : Ambient} {list : CatPorBlockList}
    (h : (enforceCatpor env token list).1 = .ok u) :
    ∀ catpor ∈ token.cat.catpor, CatporMet env catpor (some list) := by
  intro catpor hcatpor
  unfold enforceCatpor at h
  rw [show token.cat.catpor = some catpor from hcatpor] at h
  dsimp only at h
  split at h
  · exact absurd h (by simp)
  · rename_i hblocked
    split at h
    · exact absurd h (by simp)
    · split at h
      · exact absurd h (by simp)
      · rename_i draw hdraw hlt
        exact ⟨list, draw, rfl, by rw [hblocked], hdraw, Bool.eq_false_iff.mpr hlt⟩

end
end Cat
