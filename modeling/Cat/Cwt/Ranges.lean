import Cat.Cwt.Fields
import Cat.Cwt.Members

/-!
# The ranges of decoded values

Callers compare with the numbers of a decoded token without checking them again, so the decoder
has to. It checks most of them, and three it does not: the version, the sign of the revalidation
interval, and whether the numbers of a renewal are whole. `ranges_iff` says that these are all.

The property is on the token (`InRange`) and the condition is on the payload: that wherever
nothing checks, the number was a good one to begin with. Between the two stand the forms of the
claims. A number that the decoder lets through in one form only is what the form says, so for
those claims the property holds outright; for the three others it is passed on to the value
under the label.

Both are at every depth. A claim set inside a composite is decoded by the same function, and
`Sets` makes the statement about all of them from the statement about one.
-/

set_option autoImplicit false

namespace Cat

open Cbor DecodeCounters

/-! ## The property -/

/-- The doubles in the standard claims of a claim set. -/
def CatToken.floats (t : CatToken) : List F64 :=
  (t.cat.catpor.map fun p => p.probability).toList ++
    (t.cat.catgeocoord.getD []).flatMap (fun z => [z.lat, z.lon]) ++
    ((t.cat.catgeoalt.map fun a => [a.altitude, a.deviation]).getD []) ++
    ((t.request.catr.map fun r => r.expadd.toList ++ r.deadline.toList).getD []) ++
    t.moqt.moqtReval.toList

/-- The numbers of a claim set are where callers expect them. -/
structure InRange (t : CatToken) : Prop where
  catv : ∀ v, t.cat.catv = some v → v = 1
  catpor : ∀ p, t.cat.catpor = some p →
    F64.le (F64.ofInt 0) p.probability = true ∧ F64.le p.probability (F64.ofInt 1) = true
  latitude : ∀ zs, t.cat.catgeocoord = some zs → ∀ z ∈ zs,
    F64.le (F64.ofInt (-90)) z.lat = true ∧ F64.le z.lat (F64.ofInt 90) = true
  longitude : ∀ zs, t.cat.catgeocoord = some zs → ∀ z ∈ zs,
    F64.le (F64.ofInt (-180)) z.lon = true ∧ F64.le z.lon (F64.ofInt 180) = true
  window : ∀ settings, t.dpop.catdpop = some settings → ∀ w ∈ settings.window,
    1 ≤ w.toInt ∧ w.toInt ≤ 3600
  reval : ∀ f, t.moqt.moqtReval = some f → f.isFinite = true ∧ F64.le (F64.ofInt 0) f = true
  expadd : ∀ r, t.request.catr = some r → ∀ f ∈ r.expadd,
    F64.lt (F64.ofInt 0) f = true ∧ f.isIntegral = true
  deadline : ∀ r, t.request.catr = some r → ∀ f ∈ r.deadline, f.isIntegral = true
  ordinary : ∀ f ∈ t.floats, f.Ordinary

/-! ## The condition -/

/-- A claim map gives no version but 1, no negative interval and, in a renewal that has a
    type, no fractions. -/
structure RangesGiven (es : List (Value × Value)) : Prop where
  catv : ∀ v, (i64Value claimCatv, v) ∈ es → v = u32Value 1
  reval : ∀ v f, (i64Value claimMoqtReval, v) ∈ es → numericValue v = some f →
    F64.lt f (F64.ofInt 0) = false
  catr : ∀ members, (i64Value claimCatr, .map members) ∈ es →
    i64Value catrType ∈ members.map Prod.fst → ∀ key ∈ [catrExpadd, catrDeadline], ∀ f,
      (i64Value key, .float f) ∈ members → f.isIntegral = true

/-! ## Doubles -/

/-- An integer's double is whole. -/
theorem isIntegral_of_numericValue {v : Value} {f : F64} (h : numericValue v = some f)
    (hv : ∀ g, v = .float g → g.isIntegral = true) : f.isIntegral = true := by
  cases v with
  | float g =>
    obtain rfl := Option.some.inj h
    exact hv g rfl
  | integer i =>
    obtain ⟨n, -, rfl⟩ := Option.map_eq_some_iff.mp h
    apply F64.isIntegral_ofInt
    have := n.le_toInt
    have := n.toInt_lt
    omega
  | _ => exact absurd h (by simp [numericValue])

/-! ## One claim set -/

namespace DecodedSet

section
variable {H : Host} {limits : CwtLimits} (set : DecodedSet H limits)

/-- A claim of the set has the form of its entry. -/
theorem form {d : DecodedClaim} (id : Int64) (hl : d.label = id)
    (hid : isCompositeKey (i64Value id) = false) (hhas : set.token.Has d) :
    ∃ v c, (i64Value id, v) ∈ set.entries ∧ ClaimForm H limits v d c := by
  subst hl
  exact set.decodes.entry_of_has hid hhas

theorem map_checked {id : Int64} {members : List (Value × Value)}
    (h : (i64Value id, .map members) ∈ set.entries) : KeysChecked members :=
  (Value.valueMaps_map.mp ((Value.valueMaps_map.mp set.checked).2 _ h)).1

theorem catv_iff : (∀ x, set.token.cat.catv = some x → x = 1) ↔
    ∀ v, (i64Value claimCatv, v) ∈ set.entries → v = u32Value 1 := by
  constructor
  · intro h v hv
    obtain ⟨x, c, ⟨rfl, -⟩, hhas⟩ :=
      set.decodes.arm .catv (decodeCatv_counts v) (fun _ => rfl) hv
    rw [h x (hhas trivial)]
  · intro h x hx
    obtain ⟨v, c, hv, hform, -⟩ := set.form (d := .catv x) claimCatv rfl (by decide) hx
    have heq := h v hv
    rw [hform] at heq
    have hi := integer_eq_u32Value.mp heq
    rw [integer_eq_u32Value.mp rfl] at hi
    exact (Option.some.inj hi)

theorem reval_iff : (∀ f, set.token.moqt.moqtReval = some f →
      f.isFinite = true ∧ F64.le (F64.ofInt 0) f = true) ↔
    ∀ v f, (i64Value claimMoqtReval, v) ∈ set.entries → numericValue v = some f →
      F64.lt f (F64.ofInt 0) = false := by
  constructor
  · intro h v f hv hf
    obtain ⟨x, c, ⟨⟨hx, hord⟩, -⟩, hhas⟩ :=
      set.decodes.arm .moqtReval (decodeMoqtReval_counts v) (fun _ => rfl) hv
    obtain rfl : x = f := Option.some.inj (hx.symm.trans hf)
    exact hord.le_zero_iff.mp (h x (hhas trivial)).2
  · intro h f hf
    obtain ⟨v, c, hv, ⟨hform, hord⟩, -⟩ := set.form (d := .moqtReval f) claimMoqtReval rfl (by decide) hf
    exact ⟨hord.isFinite, hord.le_zero_iff.mpr (h v f hv hform)⟩

/-- The renewal of a claim set, with the members it is made of. -/
theorem catr_members {r : CatRenewal} (hr : set.token.request.catr = some r) :
    ∃ members p, (i64Value claimCatr, .map members) ∈ set.entries ∧ CatrMembers {} members p ∧
      KeysChecked members ∧ r.expadd = p.expadd ∧ r.deadline = p.deadline ∧
      (∃ rt, p.renewalType = some rt) ∧ ∀ f ∈ r.expadd, F64.le f (F64.ofInt 0) = false := by
  obtain ⟨v, c, hv, members, p, rfl, hp, hmade, -⟩ :=
    set.form (d := .catr (some r)) claimCatr rfl (by decide) hr
  refine ⟨members, p, hv, hp, set.map_checked hv, ?_⟩
  unfold CatrMade at hmade
  cases hrt : p.renewalType with
  | none => rw [hrt] at hmade; exact absurd hmade (by simp)
  | some rt =>
    rw [hrt] at hmade
    obtain ⟨ea, hea, hpos, heq⟩ := hmade
    obtain rfl := Option.some.inj heq
    refine ⟨rfl, rfl, ⟨rt, rfl⟩, fun f hf => ?_⟩
    obtain rfl : ea = f := Option.some.inj (hea.symm.trans hf)
    exact hpos

theorem catr_iff : (∀ r, set.token.request.catr = some r →
      (∀ f ∈ r.expadd, f.isIntegral = true) ∧ ∀ f ∈ r.deadline, f.isIntegral = true) ↔
    ∀ members, (i64Value claimCatr, .map members) ∈ set.entries →
      i64Value catrType ∈ members.map Prod.fst → ∀ key ∈ [catrExpadd, catrDeadline], ∀ f,
        (i64Value key, .float f) ∈ members → f.isIntegral = true := by
  constructor
  · intro h members hv htype key hkey f hf
    obtain ⟨r, c, ⟨members', p, heq, hp, hmade, -⟩, hhas⟩ :=
      set.decodes.arm .catr (decodeCatr_counts (.map members)) (fun _ => rfl) hv
    obtain rfl := Value.map.inj heq
    have hkeys := set.map_checked hv
    obtain ⟨⟨k, w⟩, hw, hk⟩ := List.mem_map.mp htype
    obtain rfl : k = i64Value catrType := hk
    obtain ⟨part, hl, hform, hset⟩ := hp.part_of_entry hkeys hw
    obtain ⟨rt, rfl⟩ := (CatrPart.of_label hform).1 hl
    have hrt : p.renewalType = some rt := hset trivial
    rw [CatrMade, hrt] at hmade
    obtain ⟨ea, -, -, rfl⟩ := hmade
    obtain ⟨hexpadd, hdeadline⟩ := h _ (hhas trivial)
    obtain ⟨part, hl, hform, hset⟩ := hp.part_of_entry hkeys hf
    rcases List.mem_pair.mp hkey with rfl | rfl
    · obtain ⟨g, rfl⟩ := (CatrPart.of_label hform).2.1 hl
      obtain rfl : f = g := Option.some.inj hform.1
      exact hexpadd f (hset trivial)
    · obtain ⟨g, rfl⟩ := (CatrPart.of_label hform).2.2 hl
      obtain rfl : f = g := Option.some.inj hform.1
      exact hdeadline f (hset trivial)
  · intro h r hr
    obtain ⟨members, p, hv, hp, hkeys, hexpadd, hdeadline, ⟨rt, hrt⟩, -⟩ := set.catr_members hr
    obtain ⟨w, hw, -⟩ := hp.entry_of_has hkeys (.renewalType rt) hrt
    have hwhole := h members hv (List.mem_map.mpr ⟨_, hw, rfl⟩)
    refine ⟨fun f hf => ?_, fun f hf => ?_⟩
    · obtain ⟨v, hv, hform⟩ := hp.entry_of_has hkeys (.expadd f) (hexpadd.symm.trans hf)
      exact isIntegral_of_numericValue hform.1 fun g hg =>
        hwhole catrExpadd (by simp) g (hg ▸ hv)
    · obtain ⟨v, hv, hform⟩ := hp.entry_of_has hkeys (.deadline f) (hdeadline.symm.trans hf)
      exact isIntegral_of_numericValue hform.1 fun g hg =>
        hwhole catrDeadline (by simp) g (hg ▸ hv)

/-- The doubles of a renewal are ordinary. -/
theorem catr_ordinary {r : CatRenewal} (hr : set.token.request.catr = some r) :
    (∀ f ∈ r.expadd, f.Ordinary) ∧ ∀ f ∈ r.deadline, f.Ordinary := by
  obtain ⟨members, p, -, hp, hkeys, hexpadd, hdeadline, -⟩ := set.catr_members hr
  refine ⟨fun f hf => ?_, fun f hf => ?_⟩
  · obtain ⟨v, -, hform⟩ := hp.entry_of_has hkeys (.expadd f) (hexpadd.symm.trans hf)
    exact hform.2
  · obtain ⟨v, -, hform⟩ := hp.entry_of_has hkeys (.deadline f) (hdeadline.symm.trans hf)
    exact hform.2

/-- Every zone has the form of its value. -/
theorem zone_form {zs : List GeoCoordinate} (h : set.token.cat.catgeocoord = some zs) :
    ∀ z ∈ zs, ∃ v, ZoneForm v z := by
  obtain ⟨v, c, -, vs, zs', -, hzs, heq, -⟩ :=
    set.form (d := .catgeocoord (some zs)) claimCatgeocoord rfl (by decide) h
  split at heq
  · exact absurd heq (by simp)
  · obtain rfl := Option.some.inj heq
    intro z hz
    obtain ⟨v, -, hv⟩ := hzs.exists_of_mem_right hz
    exact ⟨v, hv⟩

theorem floats_ordinary : ∀ f ∈ set.token.floats, f.Ordinary := by
  intro f hf
  simp only [CatToken.floats, List.mem_append, Option.mem_toList, Option.map_eq_some_iff,
    List.mem_flatMap, List.mem_cons, List.not_mem_nil, or_false] at hf
  rcases hf with (((hf | hf) | hf) | hf) | hf
  · obtain ⟨p, hp, rfl⟩ := hf
    obtain ⟨v, c, -, ⟨pv, -, -, hord, -⟩, -⟩ := set.form (d := .catpor p) claimCatpor rfl (by decide) hp
    exact hord
  · obtain ⟨z, hz, hf⟩ := hf
    cases hg : set.token.cat.catgeocoord with
    | none => rw [hg] at hz; exact absurd hz List.not_mem_nil
    | some zs =>
      rw [hg] at hz
      obtain ⟨v, lat, lon, radius, -, -, -, -, hlat, hlon, -⟩ := set.zone_form hg z hz
      rcases hf with rfl | rfl
      · exact hlat
      · exact hlon
  · cases ha : set.token.cat.catgeoalt with
    | none => rw [ha] at hf; exact absurd hf List.not_mem_nil
    | some a =>
      rw [ha] at hf
      obtain ⟨v, c, -, ⟨x, y, -, -, -, halt, hdev⟩, -⟩ :=
        set.form (d := .catgeoalt a) claimCatgeoalt rfl (by decide) ha
      rcases List.mem_pair.mp hf with rfl | rfl
      · exact halt
      · exact hdev
  · cases hr : set.token.request.catr with
    | none => rw [hr] at hf; exact absurd hf List.not_mem_nil
    | some r =>
      rw [hr] at hf
      obtain ⟨hexpadd, hdeadline⟩ := set.catr_ordinary hr
      rcases List.mem_append.mp hf with hf | hf
      · exact hexpadd f (Option.mem_toList.mp hf)
      · exact hdeadline f (Option.mem_toList.mp hf)
  · obtain ⟨v, c, -, ⟨-, hord⟩, -⟩ :=
      set.form (d := .moqtReval f) claimMoqtReval rfl (by decide) hf
    exact hord

theorem inRange_iff : InRange set.token ↔ RangesGiven set.entries := by
  constructor
  · intro h
    exact ⟨set.catv_iff.mp h.catv, set.reval_iff.mp h.reval,
      set.catr_iff.mp fun r hr => ⟨fun f hf => (h.expadd r hr f hf).2, h.deadline r hr⟩⟩
  · intro h
    have hcatr := set.catr_iff.mpr h.catr
    refine ⟨set.catv_iff.mpr h.catv, fun p hp => ?_, fun zs hzs z hz => ?_, fun zs hzs z hz => ?_,
      fun settings _ => settings.window_ok, set.reval_iff.mpr h.reval, fun r hr f hf => ?_,
      fun r hr => (hcatr r hr).2, set.floats_ordinary⟩
    · obtain ⟨v, c, -, ⟨pv, -, -, -, h0, h1⟩, -⟩ :=
        set.form (d := .catpor p) claimCatpor rfl (by decide) hp
      exact ⟨h0, h1⟩
    · obtain ⟨v, lat, lon, radius, -, -, -, -, hlat, -, h90, -⟩ := set.zone_form hzs z hz
      exact F64.between_of_abs (by decide) hlat.1 h90
    · obtain ⟨v, lat, lon, radius, -, -, -, -, -, hlon, -, h180⟩ := set.zone_form hzs z hz
      exact F64.between_of_abs (by decide) hlon.1 h180
    · obtain ⟨members, p, -, -, -, -, -, -, hpos⟩ := set.catr_members hr
      exact ⟨((set.catr_ordinary hr).1 f hf).pos_iff.mpr (hpos f hf), (hcatr r hr).1 f hf⟩

end
end DecodedSet

/-! ## The payload -/

/-- **The numbers of a decoded token are where callers expect them, throughout its claim
    sets, exactly when the maps of the payload give them so where nothing checks.**

    Most of the ranges are enforced by the decoder itself, and hold of every accepted token. Three
    are documented and not checked: the version, the sign of the revalidation interval, and whole
    numbers in a renewal. What the payload gives there is what the token has, at every depth. -/
theorem ranges_iff (H : Host) (b : Bytes) (t : CatToken) (h : decodePayload H b = .ok t) :
    ∃ es, H.cbor.read cborMaxRecursionDepth b = .ok (.map es, []) ∧
      (t.Throughout (fun _ => true) InRange ↔ ∀ m ∈ claimMaps es, RangesGiven m) :=
  decodePayload_forall DecodedSet.inRange_iff h

/-- `{310: 2}`: a version that there is not. -/
def secondVersionPayload : Bytes := [0xa1, 0x19, 0x01, 0x36, 0x02]

theorem ranges_not_given :
    ¬∀ (H : Host) (b : Bytes) (t : CatToken), decodePayload H b = .ok t →
      t.Throughout (fun _ => true) InRange := by
  intro hall
  have hdec : (decodePayload .reference secondVersionPayload).isOk = true := by decide +kernel
  cases ht : decodePayload .reference secondVersionPayload with
  | error e => rw [ht] at hdec; exact absurd hdec Bool.false_ne_true
  | ok t =>
    obtain ⟨es, hread, hiff⟩ := decodePayload_forall DecodedSet.inRange_iff ht
    have hes : Host.reference.cbor.read cborMaxRecursionDepth secondVersionPayload =
        .ok (.map [(i64Value claimCatv, i64Value 2)], []) := by rfl
    obtain rfl : es = [(i64Value claimCatv, i64Value 2)] := by
      rw [hes] at hread
      simpa using hread.symm
    have hgiven := hiff.mp (hall _ _ _ ht) _ List.mem_cons_self
    have hone : i64Value 2 = u32Value 1 := hgiven.catv _ List.mem_cons_self
    rw [i64Value, integer_eq_u32Value] at hone
    exact absurd hone (by decide)

theorem ranges_iff_secondVersion :
    ∃ t, decodePayload .reference secondVersionPayload = .ok t ∧
      ∃ es, Host.reference.cbor.read cborMaxRecursionDepth secondVersionPayload =
          .ok (.map es, []) ∧
        (t.Throughout (fun _ => true) InRange ↔ ∀ m ∈ claimMaps es, RangesGiven m) := by
  have hdec : (decodePayload .reference secondVersionPayload).isOk = true := by decide +kernel
  cases ht : decodePayload .reference secondVersionPayload with
  | error e => rw [ht] at hdec; exact absurd hdec Bool.false_ne_true
  | ok t => exact ⟨t, rfl, ranges_iff .reference secondVersionPayload t ht⟩

end Cat
