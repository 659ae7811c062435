import Cat.Cwt.Ordering

/-!
# The keys of an accepted payload

The decoder rejects a payload that hides a second value under a key. The check has three gaps,
and `map_keys_sound_iff` shows that there are no others: keys that are arrays, maps or tags are
not compared, what is inside a key is not looked at, and an integer key below `-2^63` is taken
for the greatest key, so that a smaller one may follow it.

`KeysSound` is what a map should be, stated without the check: each key once, integers in the
order of deterministic encoding, and the same of every map inside, in keys too. `KeysInReach` is
the condition, with one field for each gap. The theorem is an equivalence over accepted
payloads, so it says both that nothing else is missed and that each of the gaps is one.

The maps of a payload are in its values and in the keys of its values. The walk of the check is
over values, and so is the induction; keys are brought in at each map by what the check knows of
one.
-/

set_option autoImplicit false

namespace Cat

open Cbor

theorem decodePayloadWithLimits_checked {H : Host} {limits : CwtLimits} {b : Bytes} {t : CatToken}
    (h : decodePayloadWithLimits H limits b = .ok t) :
    ∃ es, H.cbor.read cborMaxRecursionDepth b = .ok (.map es, []) ∧
      walkDepth (.map es) ≤ limits.maxNestingDepth ∧ (Value.map es).ValueMaps KeysChecked := by
  obtain ⟨⟨t', s'⟩, hd, -⟩ := Except.map_eq_ok.mp h
  obtain ⟨es, s₁, hmap, -⟩ := StateT.bind_eq_ok.mp hd
  obtain ⟨-, hread, hord⟩ := readClaimsMap_ok (StateT.lift_eq_ok.mp hmap).1
  exact ⟨es, hread, validateCborMapOrderingLimited_eq_ok.mp hord⟩

/-! ## One map -/

/-- A key that is not compared with the others: an array, a map or a tagged value. -/
def isCompound (k : Value) : Bool := (keyFingerprint k).isNone

/-- The keys of a map that the check cannot tell apart are different, no integer below
    `-2^63` has another integer after it, and the maps inside the keys are sound. -/
structure KeysInReach (es : List (Value × Value)) : Prop where
  compound_distinct : ((es.map Prod.fst).filter isCompound).Nodup
  low_last : (intKeys es).Pairwise fun a _ => -2 ^ 63 ≤ a.val
  inside : ∀ e ∈ es, e.1.AllMaps KeysSound

/-- Keys with different fingerprints are different. -/
theorem keys_nodup {es : List (Value × Value)} (hfp : (fingerprints es).Nodup)
    (hc : ((es.map Prod.fst).filter isCompound).Nodup) : (es.map Prod.fst).Nodup := by
  induction es with
  | nil => exact List.nodup_nil
  | cons e es ih =>
    obtain ⟨k, v⟩ := e
    rw [List.map_cons, List.nodup_cons]
    unfold fingerprints at hfp
    rw [List.filterMap_cons] at hfp
    rw [List.map_cons, List.filter_cons] at hc
    cases hk : keyFingerprint k with
    | none =>
      have hcomp : isCompound k = true := by rw [isCompound, hk]; rfl
      rw [hk] at hfp
      rw [if_pos hcomp, List.nodup_cons] at hc
      refine ⟨fun hmem => hc.1 (List.mem_filter.mpr ⟨hmem, hcomp⟩), ih hfp hc.2⟩
    | some fp =>
      have hcomp : ¬isCompound k = true := by rw [isCompound, hk]; simp
      rw [hk] at hfp
      rw [if_neg hcomp] at hc
      obtain ⟨hnew, hfp⟩ := List.nodup_cons.mp hfp
      refine ⟨fun hmem => hnew ?_, ih hfp hc⟩
      obtain ⟨e, he, heq⟩ := List.mem_map.mp hmem
      exact List.mem_filterMap.mpr ⟨e, he, by rw [heq, hk]⟩

theorem clampI64_toInt (i : Integer) :
    (clampI64 i).toInt = if -2 ^ 63 ≤ i.val ∧ i.val < 2 ^ 63 then i.val else 2 ^ 63 - 1 := by
  unfold clampI64
  cases h : i.toI64? with
  | none =>
    have hout : ¬(-2 ^ 63 ≤ i.val ∧ i.val < 2 ^ 63) := fun hin => by
      rw [Integer.toI64?, if_pos hin] at h
      exact absurd h (by simp)
    rw [if_neg hout]
    decide
  | some n =>
    have hn := Integer.toI64?_eq_some.mp h
    have hlo := n.le_toInt
    have hhi := n.toInt_lt
    rw [if_pos (by omega), hn]
    rfl

/-- The order of the cut-down keys is that of the keys, unless the first is below `i64`. -/
theorem rank_lt_iff {a b : Integer}
    (h : labelRank (clampI64 a) < labelRank (clampI64 b)) :
    a.rank < b.rank ↔ -2 ^ 63 ≤ a.val := by
  have ha := a.lo
  have ha' := a.hi
  have hb := b.lo
  have hb' := b.hi
  unfold labelRank at h
  rw [clampI64_toInt, clampI64_toInt] at h
  unfold Integer.rank
  split_ifs at h ⊢ <;> omega

theorem keysSound_iff {es : List (Value × Value)} (h : KeysChecked es) :
    (KeysSound es ∧ ∀ e ∈ es, e.1.AllMaps KeysSound) ↔ KeysInReach es := by
  constructor
  · rintro ⟨hs, hin⟩
    refine ⟨hs.distinct.filter _, ?_, hin⟩
    exact (hs.ordered.and h.ordered).imp fun {a b} hab => (rank_lt_iff hab.2).mp hab.1
  · intro hr
    refine ⟨⟨keys_nodup h.distinct hr.compound_distinct, ?_⟩, hr.inside⟩
    exact (hr.low_last.and h.ordered).imp fun {a b} hab => (rank_lt_iff hab.2).mpr hab.1

/-! ## The payload -/

/-- **Every map of an accepted payload has its keys once and in order, exactly when none has
    keys that the check is blind to.**

    The check compares keys by a fingerprint, and keys that are arrays, maps or tags have none. It
    compares integers as labels of 64 bits, and one below their range counts as the greatest. And it
    descends into values, not into keys. -/
theorem map_keys_sound_iff (H : Host) (b : Bytes) (t : CatToken) (h : decodePayload H b = .ok t) :
    ∃ v, H.cbor.read cborMaxRecursionDepth b = .ok (v, []) ∧
      (v.AllMaps KeysSound ↔ v.ValueMaps KeysInReach) := by
  obtain ⟨es, hread, -, hchecked⟩ := decodePayloadWithLimits_checked h
  refine ⟨.map es, hread, ?_⟩
  rw [Value.allMaps_iff_valueMaps]
  exact hchecked.congr fun _ => keysSound_iff

/-- `{1000: {[1]: 1, [1]: 2}}`: a custom claim with two values under one key. -/
def arrayKeysPayload : Bytes := [0xa1, 0x19, 0x03, 0xe8, 0xa2, 0x81, 0x01, 0x01, 0x81, 0x01, 0x02]

def arrayKeysValue : Value :=
  .map [(i64Value 1000, .map [(.array [i64Value 1], i64Value 1),
    (.array [i64Value 1], i64Value 2)])]

theorem map_keys_not_sound :
    ¬∀ (H : Host) (b : Bytes) (t : CatToken), decodePayload H b = .ok t →
      ∀ v, H.cbor.read cborMaxRecursionDepth b = .ok (v, []) → v.AllMaps KeysSound := by
  intro hall
  have hdec : (decodePayload .reference arrayKeysPayload).isOk = true := by decide +kernel
  cases ht : decodePayload .reference arrayKeysPayload with
  | error e => rw [ht] at hdec; exact absurd hdec Bool.false_ne_true
  | ok t =>
    have hread : Host.reference.cbor.read cborMaxRecursionDepth arrayKeysPayload =
        .ok (arrayKeysValue, []) := by rfl
    have hmaps := hall .reference arrayKeysPayload t ht arrayKeysValue hread
    rw [arrayKeysValue, Value.allMaps_map] at hmaps
    have hinner := (hmaps.2 _ List.mem_cons_self).2
    exact absurd (Value.allMaps_map.mp hinner).1.distinct (by simp)

theorem map_keys_sound_iff_arrayKeys :
    ∃ t, decodePayload .reference arrayKeysPayload = .ok t ∧
      ∃ v, Host.reference.cbor.read cborMaxRecursionDepth arrayKeysPayload = .ok (v, []) ∧
        (v.AllMaps KeysSound ↔ v.ValueMaps KeysInReach) := by
  have hdec : (decodePayload .reference arrayKeysPayload).isOk = true := by decide +kernel
  cases ht : decodePayload .reference arrayKeysPayload with
  | error e => rw [ht] at hdec; exact absurd hdec Bool.false_ne_true
  | ok t => exact ⟨t, rfl, map_keys_sound_iff .reference arrayKeysPayload t ht⟩

end Cat
