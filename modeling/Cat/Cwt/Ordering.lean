import Cat.Cwt.DecodeSpec
import Cat.Lib.Cbor.Maps
import Mathlib.Data.List.Nodup

/-!
# What the ordering check checks

The check walks through the values of a map. Of every map it comes to, it wants the keys that
have a fingerprint to be different and the integer keys, cut down to `i64`, to ascend
(`KeysChecked`). `validateEntries_eq_ok` says that this and the nesting limit are all there is
to it.

That is not quite what a map should be (`KeysSound`): arrays, maps and tags have no fingerprint,
keys are not walked through, and below `-2^63` an integer counts as the greatest one.
`map_keys_sound_iff` says what these three leave open.

The loop over the entries carries the previous integer key and the fingerprints seen so far. Its
specification is stated for any such state, with the entries that are left on the right-hand
side, so that the induction goes through; for the state a map starts with it becomes
`KeysChecked` (`validateEntries_none`). The recursion over values inside values is mutual, over
arrays, entries and values, and so is its specification: each of the three says that the walk
stays within the limit and that all maps on the way pass.

How deep the walk goes is not the height of the value, as it does not enter keys and does not
count a scalar. It has a function of its own, `walkDepth`, which the height bounds.
-/

set_option autoImplicit false

namespace Cat

open Cbor

/-! ## One map

The check goes through the keys once, with the fingerprints that it has seen and the last
integer. What it asks of the keys as a whole is `KeysChecked`, with no state in it.
-/

/-- An integer key as the order check sees it. One that does not fit counts as the greatest `i64`,
    also when it is negative. -/
def clampI64 (i : Integer) : Int64 := i.toI64?.getD (Int64.ofInt (2 ^ 63 - 1))

def fingerprints (es : List (Value × Value)) : List KeyFingerprint :=
  es.filterMap fun e => keyFingerprint e.1

/-- What the check asks of one map. -/
structure KeysChecked (es : List (Value × Value)) : Prop where
  distinct : (fingerprints es).Nodup
  ordered : (intKeys es).Pairwise fun a b => labelRank (clampI64 a) < labelRank (clampI64 b)

/-- The key that the next integer key has to exceed. -/
def nextPrev (prev : Option Int64) : Value → Option Int64
  | .integer i => some (clampI64 i)
  | _ => prev

/-- An integer key is looked up among the fingerprints first, and then compared with the previous
    one. -/
theorem checkKey_integer (prev : Option Int64) (seen : List KeyFingerprint) (i : Integer) :
    checkKey prev seen (.integer i) =
      if KeyFingerprint.int i.val ∈ seen then .error (.invalidCbor "Duplicate map key")
      else if prev.all (fun q => labelRank q < labelRank (clampI64 i)) = true then
        .ok (some (clampI64 i), .int i.val :: seen)
      else .error (.invalidCbor "Map keys not in deterministic order per RFC 8949 §4.2.1") := by
  rw [checkKey, keyFingerprint]
  simp only [List.contains_iff_mem]
  split
  · rfl
  · cases prev with
    | none => simp [clampI64]
    | some q =>
      have hgt : cborCanonicalKeyCmp (clampI64 i) q = .gt ↔
          (some q).all (fun p => labelRank p < labelRank (clampI64 i)) = true := by
        rw [cborCanonicalKeyCmp_eq_gt, Option.all_some, decide_eq_true_iff]
      show (if cborCanonicalKeyCmp (clampI64 i) q ≠ .gt then _ else _) = _
      by_cases hlt : cborCanonicalKeyCmp (clampI64 i) q = .gt
      · rw [if_neg (not_not.mpr hlt), if_pos (hgt.mp hlt)]
        rfl
      · rw [if_pos hlt, if_neg fun h => hlt (hgt.mpr h)]

theorem checkKey_eq_ok {prev : Option Int64} {seen : List KeyFingerprint} {k : Value}
    {p : Option Int64 × List KeyFingerprint} :
    checkKey prev seen k = .ok p ↔
      (∀ fp ∈ keyFingerprint k, fp ∉ seen) ∧
      (∀ i, k = .integer i → ∀ q ∈ prev, labelRank q < labelRank (clampI64 i)) ∧
      p = (nextPrev prev k, (keyFingerprint k).toList ++ seen) := by
  cases k with
  | integer i =>
    have hall : prev.all (fun q => labelRank q < labelRank (clampI64 i)) = true ↔
        ∀ q, prev = some q → labelRank q < labelRank (clampI64 i) := by
      cases prev <;> simp
    rw [checkKey_integer]
    simp only [hall, keyFingerprint, nextPrev, Value.integer.injEq, forall_eq', Option.mem_def,
      Option.some.injEq, Option.toList, List.singleton_append]
    split
    · rename_i hs; simp [hs]
    · rename_i hs
      split
      · rename_i hlt
        simp only [Except.ok.injEq]
        exact ⟨fun h => ⟨hs, hlt, h.symm⟩, fun h => h.2.2.symm⟩
      · rename_i hge
        simp only [reduceCtorEq, false_iff]
        exact fun h => hge h.2.1
  | text _ | bytes _ | bool _ | null | float _ =>
    simp only [checkKey, keyFingerprint, nextPrev, Option.mem_def, Option.some.injEq, forall_eq',
      reduceCtorEq, false_implies, implies_true, true_and, Option.toList, List.singleton_append,
      List.contains_iff_mem]
    split
    · rename_i hs; simp [hs]
    · rename_i hs; simp [hs, eq_comm]
  | array _ | map _ | tag _ _ =>
    simp [checkKey, keyFingerprint, nextPrev, eq_comm]

/-- The loop over the entries passes exactly when each key is new and in order, and each
    value passes. -/
theorem validateEntries_eq_ok {maxDepth depth : Nat} {es : List (Value × Value)} {u : Unit} :
    ∀ {prev : Option Int64} {seen : List KeyFingerprint},
      validateEntries maxDepth depth prev seen es = .ok u ↔
        ((fingerprints es).Nodup ∧ ∀ fp ∈ fingerprints es, fp ∉ seen) ∧
        List.IsChain (fun a b => labelRank a < labelRank b)
          (prev.toList ++ (intKeys es).map clampI64) ∧
        ∀ e ∈ es, validateNestedMapsWithDepth maxDepth (depth + 1) e.2 = .ok () := by
  induction es with
  | nil =>
    intro prev seen
    cases prev <;> simp [validateEntries, fingerprints, intKeys]
  | cons e es ih =>
    obtain ⟨k, v⟩ := e
    intro prev seen
    -- One entry: its key, then what lies below its value, then the entries behind it.
    have hstep : validateEntries maxDepth depth prev seen ((k, v) :: es) = .ok u ↔
        ∃ p, checkKey prev seen k = .ok p ∧
          validateNestedMapsWithDepth maxDepth (depth + 1) v = .ok () ∧
          validateEntries maxDepth depth p.1 p.2 es = .ok u := by
      rw [validateEntries]
      cases checkKey prev seen k with
      | error e => simp
      | ok p =>
        cases validateNestedMapsWithDepth maxDepth (depth + 1) v with
        | error e => simp
        | ok u => simp
    -- Only an integer key joins the chain of labels; any other leaves the previous label as it was.
    have hchain : List.IsChain (fun a b => labelRank a < labelRank b)
          (prev.toList ++ (intKeys ((k, v) :: es)).map clampI64) ↔
        (∀ i, k = .integer i → ∀ q ∈ prev, labelRank q < labelRank (clampI64 i)) ∧
          List.IsChain (fun a b => labelRank a < labelRank b)
            ((nextPrev prev k).toList ++ (intKeys es).map clampI64) := by
      by_cases hk : ∃ i, k = .integer i
      · obtain ⟨i, rfl⟩ := hk
        rw [intKeys_cons_integer]
        cases prev with
        | none => simp [nextPrev]
        | some q => simp [nextPrev, List.isChain_cons_cons]
      · have hk' : ∀ i, k ≠ .integer i := fun i h => hk ⟨i, h⟩
        rw [intKeys_cons_other hk']
        have hnext : nextPrev prev k = prev := by
          cases k with
          | integer i => exact absurd rfl (hk' i)
          | _ => rfl
        rw [hnext]
        exact ⟨fun h => ⟨fun i hi => absurd hi (hk' i), h⟩, And.right⟩
    have hfps : fingerprints ((k, v) :: es) = (keyFingerprint k).toList ++ fingerprints es := by
      unfold fingerprints
      rw [List.filterMap_cons]
      cases keyFingerprint k <;> rfl
    rw [hstep, hchain, hfps, List.forall_mem_cons, List.nodup_append]
    constructor
    · rintro ⟨p, hp, hv, hes⟩
      obtain ⟨hnew, hord, rfl⟩ := checkKey_eq_ok.mp hp
      obtain ⟨⟨hnd, hseen⟩, hch, hvs⟩ := ih.mp hes
      refine ⟨⟨⟨by cases keyFingerprint k <;> simp, hnd, ?_⟩, ?_⟩, ⟨hord, hch⟩, hv, hvs⟩
      · rintro a ha b hb rfl
        exact hseen a hb (List.mem_append_left _ ha)
      · intro fp hfp
        rcases List.mem_append.mp hfp with h | h
        · exact hnew fp (Option.mem_toList.mp h)
        · exact fun hs => hseen fp h (List.mem_append_right _ hs)
    · rintro ⟨⟨⟨-, hnd, hdisj⟩, hseen⟩, ⟨hord, hch⟩, hv, hvs⟩
      refine ⟨_, checkKey_eq_ok.mpr ⟨fun fp hfp => ?_, hord, rfl⟩, hv, ih.mpr ⟨⟨hnd, ?_⟩, hch, hvs⟩⟩
      · exact hseen fp (List.mem_append_left _ (Option.mem_toList.mpr hfp))
      · intro fp hfp hmem
        rcases List.mem_append.mp hmem with h | h
        · exact hdisj fp h fp hfp rfl
        · exact hseen fp (List.mem_append_right _ hfp) h

instance labelRank_isTrans : IsTrans Int64 fun a b => labelRank a < labelRank b := ⟨fun _ _ _ => Int.lt_trans⟩

/-- The check of a map: its keys, and every value at the next depth. -/
theorem validateEntries_none {maxDepth depth : Nat} {es : List (Value × Value)} {u : Unit} :
    validateEntries maxDepth depth none [] es = .ok u ↔
      KeysChecked es ∧
        ∀ e ∈ es, validateNestedMapsWithDepth maxDepth (depth + 1) e.2 = .ok () := by
  rw [validateEntries_eq_ok]
  constructor
  · rintro ⟨⟨hnd, -⟩, hch, hvs⟩
    refine ⟨⟨hnd, ?_⟩, hvs⟩
    rw [Option.toList, List.nil_append, List.isChain_iff_pairwise, List.pairwise_map] at hch
    exact hch
  · intro ⟨hk, hvs⟩
    refine ⟨⟨hk.distinct, by simp⟩, ?_, hvs⟩
    rw [Option.toList, List.nil_append, List.isChain_iff_pairwise, List.pairwise_map]
    exact hk.ordered

/-! ## Every map on the way

The walk goes into values, to a depth that is limited. It passes if every map it comes to does,
and it comes to all that are not inside a key, provided that the limit is not met.
-/

mutual
/-- How deep the walk goes into a value: the levels at which it meets something. -/
def walkDepth : Value → Nat
  | .map es => walkDepthEntries es
  | .array vs => walkDepthItems vs
  | .tag _ v => 1 + walkDepth v
  | _ => 0
def walkDepthItems : List Value → Nat
  | [] => 0
  | v :: vs => max (1 + walkDepth v) (walkDepthItems vs)
def walkDepthEntries : List (Value × Value) → Nat
  | [] => 0
  | (_, v) :: es => max (1 + walkDepth v) (walkDepthEntries es)
end

theorem walkDepthEntries_le {es : List (Value × Value)} {n : Nat} :
    walkDepthEntries es ≤ n ↔ ∀ e ∈ es, 1 + walkDepth e.2 ≤ n := by
  induction es with
  | nil => simp [walkDepthEntries]
  | cons e es ih => simp [walkDepthEntries, ih]

mutual
/-- The walk goes no deeper than the value. -/
theorem walkDepth_le_height : (v : Value) → walkDepth v ≤ v.height
  | .map es => by
    have := walkDepthEntries_le_height es
    rw [walkDepth, Value.height]
    omega
  | .array vs => by
    have := walkDepthItems_le_height vs
    rw [walkDepth, Value.height]
    omega
  | .tag _ v => by
    have := walkDepth_le_height v
    rw [walkDepth, Value.height]
    omega
  | .integer _ | .bytes _ | .float _ | .text _ | .bool _ | .null => Nat.le_refl _
theorem walkDepthItems_le_height : (vs : List Value) → walkDepthItems vs ≤ 1 + Value.heightList vs
  | [] => Nat.zero_le _
  | v :: vs => by
    have := walkDepth_le_height v
    have := walkDepthItems_le_height vs
    rw [walkDepthItems, Value.heightList]
    omega
theorem walkDepthEntries_le_height : (es : List (Value × Value)) →
    walkDepthEntries es ≤ 1 + Value.heightEntries es
  | [] => Nat.zero_le _
  | (_, v) :: es => by
    have := walkDepth_le_height v
    have := walkDepthEntries_le_height es
    rw [walkDepthEntries, Value.heightEntries]
    omega
end

mutual
/-- **The walk passes** exactly when it stays within the limit and every map it comes to has
    its keys in order. -/
theorem validateNestedMapsWithDepth_eq_ok (maxDepth : Nat) : (v : Value) → (depth : Nat) →
    (validateNestedMapsWithDepth maxDepth depth v = .ok () ↔
      depth + walkDepth v ≤ maxDepth ∧ v.ValueMaps KeysChecked)
  | .map es, depth => by
    rw [validateNestedMapsWithDepth, Value.ValueMaps, walkDepth]
    have hes := validateEntries_values maxDepth es depth
    by_cases hd : depth > maxDepth
    · rw [if_pos hd]
      simp only [reduceCtorEq, false_iff]
      omega
    · rw [if_neg hd, validateEntries_none, hes]
      constructor
      · rintro ⟨hk, hdep, hvs⟩
        refine ⟨?_, hk, hvs⟩
        rcases hdep with rfl | hdep
        · rw [walkDepthEntries]; omega
        · exact hdep
      · rintro ⟨hdep, hk, hvs⟩
        exact ⟨hk, .inr hdep, hvs⟩
  | .array vs, depth => by
    rw [validateNestedMapsWithDepth, Value.ValueMaps, walkDepth]
    have hvs := validateItems_eq_ok maxDepth vs depth
    by_cases hd : depth > maxDepth
    · rw [if_pos hd]
      simp only [reduceCtorEq, false_iff]
      omega
    · rw [if_neg hd, hvs]
      constructor
      · rintro ⟨hdep, hvs⟩
        refine ⟨?_, hvs⟩
        rcases hdep with rfl | hdep
        · rw [walkDepthItems]; omega
        · exact hdep
      · rintro ⟨hdep, hvs⟩
        exact ⟨.inr hdep, hvs⟩
  | .tag _ v, depth => by
    rw [validateNestedMapsWithDepth, Value.ValueMaps, walkDepth]
    have hv := validateNestedMapsWithDepth_eq_ok maxDepth v (depth + 1)
    by_cases hd : depth > maxDepth
    · rw [if_pos hd]
      simp only [reduceCtorEq, false_iff]
      omega
    · rw [if_neg hd, hv, Nat.add_assoc]
  | .integer _, depth | .bytes _, depth | .float _, depth | .text _, depth | .bool _, depth
  | .null, depth => by
    simp only [validateNestedMapsWithDepth, Value.ValueMaps, walkDepth, and_true, Nat.add_zero]
    by_cases hd : depth > maxDepth
    · rw [if_pos hd]
      simp only [reduceCtorEq, false_iff]
      omega
    · rw [if_neg hd]
      simp only [true_iff]
      omega
/-- The elements of an array are a level below it, unless there are none. -/
theorem validateItems_eq_ok (maxDepth : Nat) : (vs : List Value) → (depth : Nat) →
    (validateItems maxDepth (depth + 1) vs = .ok () ↔
      (vs = [] ∨ depth + walkDepthItems vs ≤ maxDepth) ∧ Value.ValueMapsList KeysChecked vs)
  | [], depth => by simp [validateItems, Value.ValueMapsList]
  | v :: vs, depth => by
    rw [validateItems, Value.ValueMapsList, walkDepthItems]
    have hv := validateNestedMapsWithDepth_eq_ok maxDepth v (depth + 1)
    have hvs := validateItems_eq_ok maxDepth vs depth
    cases h : validateNestedMapsWithDepth maxDepth (depth + 1) v with
    | error e =>
      have hno := mt hv.mpr (by rw [h]; simp)
      simp only [reduceCtorEq, false_iff]
      rintro ⟨hdep, hm, -⟩
      exact hno ⟨by rcases hdep with h | h <;> [exact absurd h (by simp); omega], hm⟩
    | ok u =>
      have hyes := hv.mp h
      dsimp only
      rw [hvs]
      constructor
      · rintro ⟨hdep, hm⟩
        refine ⟨.inr ?_, hyes.2, hm⟩
        rcases hdep with rfl | hdep
        · rw [walkDepthItems]; omega
        · omega
      · rintro ⟨hdep, -, hm⟩
        refine ⟨.inr ?_, hm⟩
        rcases hdep with h | h <;> [exact absurd h (by simp); omega]
theorem validateEntries_values (maxDepth : Nat) : (es : List (Value × Value)) → (depth : Nat) →
    ((∀ e ∈ es, validateNestedMapsWithDepth maxDepth (depth + 1) e.2 = .ok ()) ↔
      (es = [] ∨ depth + walkDepthEntries es ≤ maxDepth) ∧
        Value.ValueMapsEntries KeysChecked es)
  | [], depth => by simp [Value.ValueMapsEntries]
  | (k, v) :: es, depth => by
    have hv := validateNestedMapsWithDepth_eq_ok maxDepth v (depth + 1)
    have hes := validateEntries_values maxDepth es depth
    rw [List.forall_mem_cons, hv, hes, Value.ValueMapsEntries, walkDepthEntries]
    constructor
    · rintro ⟨⟨hd, hm⟩, hdep, hms⟩
      refine ⟨.inr ?_, hm, hms⟩
      rcases hdep with rfl | hdep
      · rw [walkDepthEntries]; omega
      · omega
    · rintro ⟨hdep, hm, hms⟩
      rcases hdep with h | h
      · exact absurd h (by simp)
      · exact ⟨⟨by omega, hm⟩, .inr (by omega), hms⟩
end

theorem validateCborMapOrderingLimited_eq_ok {es : List (Value × Value)} {maxDepth : Nat} :
    validateCborMapOrderingLimited es maxDepth = .ok () ↔
      walkDepth (.map es) ≤ maxDepth ∧ (Value.map es).ValueMaps KeysChecked := by
  have h := validateNestedMapsWithDepth_eq_ok maxDepth (.map es) 0
  rw [Nat.zero_add] at h
  rw [← h, validateNestedMapsWithDepth]
  rfl

/-! ## Maps with labels for keys

The check for the maps that the crate writes, whose keys are labels, or texts.
-/

section
variable {es : List (Value × Value)} {ids : List Int64}

/-- The keys of the profile's maps are labels, and a label is its own fingerprint. -/
theorem fingerprints_labels (h : es.map Prod.fst = ids.map i64Value) :
    fingerprints es = ids.map fun id => KeyFingerprint.int id.toInt := by
  calc fingerprints es
      = (es.map Prod.fst).filterMap keyFingerprint := by rw [List.filterMap_map]; rfl
    _ = ids.filterMap (some ∘ fun id => KeyFingerprint.int id.toInt) := by
      rw [h, List.filterMap_map]; rfl
    _ = _ := by rw [List.filterMap_eq_map]

theorem intKeys_labels (h : es.map Prod.fst = ids.map i64Value) :
    intKeys es = ids.map Integer.ofI64 := by
  calc intKeys es
      = (es.map Prod.fst).filterMap fun k => match k with
          | .integer i => some i
          | _ => none := by rw [List.filterMap_map]; rfl
    _ = ids.filterMap (some ∘ Integer.ofI64) := by rw [h, List.filterMap_map]; rfl
    _ = _ := by rw [List.filterMap_eq_map]

theorem clampI64_ofI64 (id : Int64) : clampI64 (.ofI64 id) = id := by
  rw [clampI64, Integer.toI64?_ofI64, Option.getD_some]

/-- A map with labels for keys passes the check when its labels ascend. -/
theorem keysChecked_labels (h : es.map Prod.fst = ids.map i64Value) :
    KeysChecked es ↔ ids.Pairwise fun a b => labelRank a < labelRank b := by
  have hord : ((intKeys es).Pairwise fun a b => labelRank (clampI64 a) < labelRank (clampI64 b)) ↔
      ids.Pairwise fun a b => labelRank a < labelRank b := by
    rw [intKeys_labels h, List.pairwise_map]
    simp only [clampI64_ofI64]
  constructor
  · intro hk
    exact hord.mp hk.ordered
  · intro hp
    refine ⟨?_, hord.mpr hp⟩
    rw [fingerprints_labels h, List.nodup_iff_pairwise_ne, List.pairwise_map]
    refine hp.imp fun {a b} hlt heq => ?_
    rw [KeyFingerprint.int.injEq, Int64.toInt_inj] at heq
    rw [heq] at hlt
    exact Int.lt_irrefl _ hlt

/-- Keys that pass the check are distinct labels. -/
theorem KeysChecked.labels_nodup (hk : KeysChecked es) (h : es.map Prod.fst = ids.map i64Value) :
    ids.Nodup :=
  ((keysChecked_labels h).mp hk).imp fun hlt heq => by
    rw [heq] at hlt
    exact Int.lt_irrefl _ hlt

/-- A map with texts for keys passes the check when no text is twice. -/
theorem keysChecked_texts {names : List String} (h : es.map Prod.fst = names.map .text) :
    KeysChecked es ↔ names.Nodup := by
  have hfp : fingerprints es = names.map KeyFingerprint.text := by
    calc fingerprints es
        = (es.map Prod.fst).filterMap keyFingerprint := by rw [List.filterMap_map]; rfl
      _ = names.filterMap (some ∘ KeyFingerprint.text) := by
        rw [h, List.filterMap_map]; rfl
      _ = _ := by rw [List.filterMap_eq_map]
  have hint : intKeys es = [] := by
    calc intKeys es
        = (es.map Prod.fst).filterMap fun k => match k with
            | .integer i => some i
            | _ => none := by rw [List.filterMap_map]; rfl
      _ = names.filterMap fun _ => none := by rw [h, List.filterMap_map]; rfl
      _ = _ := List.filterMap_eq_nil_iff.mpr fun _ _ => rfl
  have hinj : Function.Injective KeyFingerprint.text := fun a b heq => KeyFingerprint.text.inj heq
  constructor
  · intro hk
    rw [← List.nodup_map_iff hinj, ← hfp]
    exact hk.distinct
  · intro hnd
    rw [← List.nodup_map_iff hinj, ← hfp] at hnd
    exact ⟨hnd, by rw [hint]; exact List.Pairwise.nil⟩

end
end Cat
