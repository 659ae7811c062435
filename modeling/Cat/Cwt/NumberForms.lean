import Cat.Cwt.Forms

/-!
# The accepted forms: numbers

The claims that hold doubles: `moqt-reval`, `catpor`, and the three about places. They are kept
apart from the other forms because a number on the wire is not a double. It may come as an
integer or as a double, and more than one integer stands for the same double beyond `2^53`, so
here a claim has several forms even where it has one meaning, and the form is stated on the
double: `numericValue v = some f`.

What the decoder asks of the double is the same either way. A double must be ordinary, that is
neither infinite nor NaN nor negative zero; an integer always is, so the check that `cwt.rs`
makes for doubles alone comes out as one condition on the value (`ordinary_check_eq_ok`).

The decoders of `catpor` and of a zone read arrays of fixed shape. Each is first rewritten as a
sequence of small readers, one for each element (`decodeCatpor_eq`), and the form of the claim
is then the conjunction of what the readers accept. A tag is accepted in one place only: around
a coordinate, where it names the reference system, and the only system there is is the first one
(`CrsForm`).
-/

set_option autoImplicit false

namespace Cat

open Cbor DecodeCounters

/-! ## Doubles

NaN, the infinities and negative zero are refused wherever a number is read. An integer that
becomes a double is none of these.
-/

section
variable {limits : CwtLimits}

/-- A whole number is rounded to a double, which is finite and not negative zero. -/
theorem ordinary_of_numericValue_integer {i : Integer} {f : F64}
    (h : numericValue (.integer i) = some f) : f.Ordinary := by
  obtain ⟨n, -, rfl⟩ := Option.map_eq_some_iff.mp h
  apply F64.ordinary_ofInt
  have := n.le_toInt
  have := n.toInt_lt
  omega

/-- A number, of which a double must be ordinary; an integer's always is. -/
theorem ordinary_check_eq_ok {v : Value} {name : String} {f : F64} (hf : numericValue v = some f)
    {u : Unit} : (match v with
      | .float g => validateFloat g name
      | _ => pure () : Except CatError Unit) = .ok u ↔ f.Ordinary := by
  cases v with
  | float g =>
    obtain rfl := Option.some.inj hf
    exact validateFloat_eq_ok
  | integer i => exact iff_of_true rfl (ordinary_of_numericValue_integer hf)
  | _ => exact absurd hf (by simp [numericValue])

/-- The revalidation interval: any ordinary double. That it be positive is not asked here; the
    decoder takes `-5.0`. -/
theorem decodeMoqtReval_counts (v : Value) :
    Counts limits (decodeMoqtReval v) fun f c => (numericValue v = some f ∧ f.Ordinary) ∧ c = 0 := by
  refine Counts.untagged ?_ (by rintro f c ⟨⟨h, -⟩, -⟩ t w rfl; simp [numericValue] at h)
  refine Counts.free fun s f s' => ?_
  rw [StateT.bind_eq_ok]
  constructor
  · rintro ⟨g, s₁, hlift, h⟩
    obtain ⟨hg, rfl⟩ := StateT.lift_eq_ok.mp hlift
    have hg := decodeNumber_eq_ok.mp hg
    cases v with
    | float g' =>
      obtain ⟨u, s₂, hlift, h⟩ := StateT.bind_eq_ok.mp h
      obtain ⟨hord, rfl⟩ := StateT.lift_eq_ok.mp hlift
      obtain ⟨rfl, rfl⟩ := StateT.pure_eq_ok.mp h
      exact ⟨⟨hg, (ordinary_check_eq_ok hg).mp hord⟩, rfl⟩
    | integer i =>
      obtain ⟨rfl, rfl⟩ := StateT.pure_eq_ok.mp h
      exact ⟨⟨hg, ordinary_of_numericValue_integer hg⟩, rfl⟩
    | _ => exact absurd hg (by simp [numericValue])
  · rintro ⟨⟨hg, hord⟩, rfl⟩
    refine ⟨f, s, StateT.lift_eq_ok.mpr ⟨decodeNumber_eq_ok.mpr hg, rfl⟩, ?_⟩
    cases v with
    | float g' =>
      exact StateT.bind_eq_ok.mpr ⟨(), s, StateT.lift_eq_ok.mpr
        ⟨(ordinary_check_eq_ok hg).mpr hord, rfl⟩, StateT.pure_eq_ok.mpr ⟨rfl, rfl⟩⟩
    | integer i => exact StateT.pure_eq_ok.mpr ⟨rfl, rfl⟩
    | _ => exact absurd hg (by simp [numericValue])

/-! ## catpor

The array has two or three elements, and the decoder matches on it as a whole. Read one element
at a time, its form is a conjunction.
-/

theorem lift_ok_bind {α β : Type} (a : α) (f : α → Decode β) :
    (liftM (Except.ok a : Except CatError α) >>= f) = f a := rfl

/-- The elements of a `catpor` array. -/
def catporParts : Value → Except CatError (Value × Value × Option Value)
  | .array [p, id] => .ok (p, id, none)
  | .array [p, id, e] => .ok (p, id, some e)
  | _ => .error (.invalidClaimValue "catpor must be an array with 2 or 3 elements")

def catporId : Value → Except CatError Bytes
  | .bytes b => .ok b
  | _ => .error (.invalidClaimValue "Invalid catpor id")

def catporExpiration : Option Value → Except CatError (Option Int64)
  | none => .ok none
  | some (.integer i) =>
    match i.toI64? with
    | some n => .ok (some n)
    | none => .error .invalidTokenFormat
  | some _ => .error (.invalidClaimValue "catpor expiration must be an integer")

/-- The decoder as a sequence of readers of one element each. The source matches on the whole array
    and on each element inside; the cases are split once, here. -/
theorem decodeCatpor_eq (H : Host) (v : Value) : decodeCatpor H v = (do
      rejectUnexpectedTag v "catpor"
      let x ← catporParts v
      let probability ← decodeNumber x.1 .invalidTokenFormat
        (.invalidClaimValue "Invalid catpor probability")
      let id ← catporId x.2.1
      let expiration ← catporExpiration x.2.2
      validateFloat probability "catpor.probability"
      if !(F64.le (F64.ofInt 0) probability && F64.le probability (F64.ofInt 1)) then
        throw (.invalidClaimValue
          s!"catpor probability must be in [0.0, 1.0], got {H.formatF64 probability}")
      return ⟨probability, id, expiration⟩) := by
  cases v with
  | array vs =>
    match vs with
    | [p, id] => cases id <;> rfl
    | [p, id, e] =>
      cases e with
      | integer i => 
        simp only [decodeCatpor, catporParts, pure_bind, lift_ok_bind, catporExpiration]
        cases id <;> cases i.toI64? <;> rfl
      | _ => cases id <;> rfl
    | [] => rfl
    | [_] => rfl
    | _ :: _ :: _ :: _ :: _ => rfl
  | _ => rfl

theorem catporParts_eq_ok {v : Value} {x : Value × Value × Option Value} :
    catporParts v = .ok x ↔ v = .array ([x.1, x.2.1] ++ x.2.2.toList) := by
  constructor
  · intro h
    unfold catporParts at h
    split at h
    · obtain rfl := Except.ok.inj h; rfl
    · obtain rfl := Except.ok.inj h; rfl
    · exact absurd h (by simp)
  · rintro rfl
    obtain ⟨p, id, e⟩ := x
    cases e <;> rfl

theorem catporId_eq_ok {v : Value} {b : Bytes} : catporId v = .ok b ↔ v = .bytes b := by
  cases v <;> simp [catporId]

/-- The expiration may be absent. A value that is there must be an integer, and one that fits 64
    bits. -/
theorem catporExpiration_eq_ok {e : Option Value} {x : Option Int64} :
    catporExpiration e = .ok x ↔ e = x.map i64Value := by
  unfold catporExpiration
  split
  · cases x <;> simp
  · rename_i i
    cases hi : i.toI64? with
    | none =>
      simp only [reduceCtorEq, false_iff]
      intro h
      obtain ⟨n, rfl, hn⟩ := Option.map_eq_some_iff.mp h.symm
      rw [integer_eq_i64Value.mp hn.symm] at hi
      exact absurd hi (by simp)
    | some n =>
      cases x with
      | none => simp
      | some m => simp [integer_eq_i64Value, hi]
  · rename_i w hw
    simp only [reduceCtorEq, false_iff]
    intro h
    obtain ⟨n, rfl, rfl⟩ := Option.map_eq_some_iff.mp h.symm
    exact hw _ rfl

/-- A probability, an identifier, and perhaps an expiration. -/
def CatporForm (v : Value) (p : ProbabilityOfRejection) : Prop :=
  ∃ pv, v = .array ([pv, .bytes p.id] ++ (p.expiration.map i64Value).toList) ∧
    numericValue pv = some p.probability ∧ p.probability.Ordinary ∧
    F64.le (F64.ofInt 0) p.probability = true ∧ F64.le p.probability (F64.ofInt 1) = true

theorem decodeCatpor_counts (H : Host) (v : Value) :
    Counts limits (decodeCatpor H v) fun p c => CatporForm v p ∧ c = 0 := by
  refine Counts.free fun s p s' => ?_
  rw [decodeCatpor_eq]
  simp only [StateT.bind_eq_ok, StateT.lift_eq_ok, StateT.guard_eq_ok, StateT.pure_eq_ok,
    rejectUnexpectedTag_eq_ok, catporParts_eq_ok, decodeNumber_eq_ok, catporId_eq_ok,
    catporExpiration_eq_ok, validateFloat_eq_ok, Bool.not_eq_true', Bool.not_eq_false,
    Bool.and_eq_true]
  constructor
  · rintro ⟨_, _, ⟨-, rfl⟩, ⟨pv, id, e⟩, _, ⟨rfl, rfl⟩, f, _, ⟨hf, rfl⟩, b, _, ⟨hb, rfl⟩, x, _,
      ⟨hx, rfl⟩, _, _, ⟨hord, rfl⟩, ⟨h0, h1⟩, rfl, rfl⟩
    dsimp only at hb hx
    subst hb hx
    exact ⟨⟨pv, rfl, hf, hord, h0, h1⟩, rfl⟩
  · rintro ⟨⟨pv, rfl, hf, hord, h0, h1⟩, rfl⟩
    exact ⟨(), s, ⟨by simp, rfl⟩, (pv, _, _), s, ⟨rfl, rfl⟩, _, s, ⟨hf, rfl⟩, p.id, s, ⟨rfl, rfl⟩,
      p.expiration, s, ⟨rfl, rfl⟩, (), s, ⟨hord, rfl⟩, ⟨h0, h1⟩, rfl, rfl⟩

end

/-! ## Places

Zones, hashes and altitudes are each a form of their own, and share how a coordinate is read and
the tag for its reference system.
-/

section
variable {limits : CwtLimits}

/-- The reference system is named by the integer zero, whichever width it was written with. -/
theorem toU64?_eq_zero {i : Integer} : i.toU64? = some 0 ↔ Value.integer i = natValue 0 (by decide) := by
  rw [natValue, Value.integer.injEq, Integer.ext_iff]
  show _ ↔ i.val = 0
  unfold Integer.toU64?
  by_cases h : 0 ≤ i.val
  · rw [if_pos h, Option.some.injEq, ← UInt64.toNat_inj, UInt64.toNat_ofNat_of_lt' (by
      have := i.hi
      show _ < 2 ^ 64
      omega)]
    show i.val.toNat = 0 ↔ _
    omega
  · rw [if_neg h]
    simp only [reduceCtorEq, false_iff]
    omega

/-- The value itself, or wrapped with the one coordinate reference system there is. -/
def CrsForm (v w : Value) : Prop :=
  (v = w ∧ ∀ x, v ≠ .tag cborTagCrs x) ∨ v = .tag cborTagCrs (.array [natValue 0 (by decide), w])

/-- The tag is taken off where it is the one of the reference system; any other tag stays on the
    value, and is refused by whoever reads it. -/
theorem unwrapCrsTag_eq_ok {v w : Value} : unwrapCrsTag v = .ok w ↔ CrsForm v w := by
  unfold CrsForm
  constructor
  · intro h
    unfold unwrapCrsTag at h
    split at h
    · rename_i tag inner
      split at h
      · rename_i htag
        subst htag
        split at h
        · split at h
          · rename_i i
            dsimp only at h
            split at h
            · exact absurd h (by simp)
            · rename_i hzero
              obtain rfl := Except.ok.inj h
              refine .inr ?_
              -- a negative number is no `u64`, and the source takes its default for it, which is
              -- not zero
              cases hi : i.toU64? with
              | none =>
                rw [hi] at hzero
                exact absurd (by decide) hzero
              | some n =>
                rw [hi, Option.getD_some, not_not] at hzero
                rw [hzero] at hi
                rw [toU64?_eq_zero.mp hi]
          · exact absurd h (by simp)
        · exact absurd h (by simp)
      · rename_i htag
        obtain rfl := Except.ok.inj h
        exact .inl ⟨rfl, fun x hx => htag (by injection hx)⟩
    · rename_i hnt
      obtain rfl := Except.ok.inj h
      exact .inl ⟨rfl, fun x hx => hnt _ _ hx⟩
  · rintro (⟨rfl, hne⟩ | rfl)
    · unfold unwrapCrsTag
      split
      · rename_i tag inner
        rw [if_neg fun htag => hne inner (by rw [htag])]
      · rfl
    · rfl

/-- A whole number of metres. -/
def RadiusForm (v : Value) (n : UInt32) : Prop :=
  v = u32Value n ∨ ∃ f, v = .float f ∧ f.Ordinary ∧ F64.lt f (F64.ofInt 0) = false ∧
    f.isIntegral = true ∧ F64.lt (F64.ofInt (2 ^ 32 - 1)) f = false ∧
    n = UInt32.ofNat f.toInt.toNat

theorem safeFloatToU32_eq_ok {H : Host} {f : F64} {name : String} {n : UInt32} :
    safeFloatToU32 H f name = .ok n ↔ f.Ordinary ∧ F64.lt f (F64.ofInt 0) = false ∧
      f.isIntegral = true ∧ F64.lt (F64.ofInt (2 ^ 32 - 1)) f = false ∧
      n = UInt32.ofNat f.toInt.toNat := by
  constructor
  · intro h
    obtain ⟨_, hf, h₁⟩ := Except.bind_eq_ok.mp h
    obtain ⟨hneg, h₂⟩ := Except.guard_eq_ok.mp h₁
    obtain ⟨hint, h₃⟩ := Except.guard_eq_ok.mp h₂
    obtain ⟨hbig, h₄⟩ := Except.guard_eq_ok.mp h₃
    exact ⟨validateFloat_eq_ok.mp hf, by simpa using hneg, by simpa using hint, by simpa using hbig,
      (Except.pure_eq_ok.mp h₄).symm⟩
  · rintro ⟨hf, hneg, hint, hbig, rfl⟩
    exact Except.bind_eq_ok.mpr ⟨(), validateFloat_eq_ok.mpr hf,
      Except.guard_eq_ok.mpr ⟨by simp [hneg], Except.guard_eq_ok.mpr ⟨by simp [hint],
        Except.guard_eq_ok.mpr ⟨by rw [hbig]; exact Bool.false_ne_true, rfl⟩⟩⟩⟩

/-- A radius as an integer, or as a double without fraction in the range of `u32`. -/
theorem decodeRadius_eq_ok {H : Host} {v : Value} {n : UInt32} :
    decodeRadius H v = .ok n ↔ RadiusForm v n := by
  unfold RadiusForm
  cases v with
  | integer i =>
    rw [integer_eq_u32Value]
    simp only [reduceCtorEq, false_and, exists_false, or_false]
    unfold decodeRadius Integer.toU32?
    dsimp only
    cases hi : i.toI64? with
    | none =>
      have hout : ¬(0 ≤ i.val ∧ i.val < 2 ^ 32) := fun hin => by
        rw [Integer.toI64?, if_pos (by omega)] at hi
        exact absurd hi (by simp)
      rw [if_neg hout]
      simp
    | some m =>
      have hm := Integer.toI64?_eq_some.mp hi
      dsimp only
      rw [hm]
      -- two checks on the integer: its sign, and then whether it fits
      by_cases hneg : m.toInt < 0
      · rw [if_pos hneg, if_neg (by omega)]
        simp
      · rw [if_neg hneg]
        by_cases hbig : m.toInt < 2 ^ 32
        · rw [if_pos hbig, if_pos (by omega)]
          simp
        · rw [if_neg hbig, if_neg (by omega)]
          simp
  | float f =>
    have hne : Value.float f ≠ u32Value n := by simp [u32Value, natValue]
    simp only [hne, false_or, Value.float.injEq, exists_eq_left']
    exact safeFloatToU32_eq_ok
  | _ => simp [decodeRadius, u32Value, natValue]

/-- A zone: latitude, longitude, radius. -/
def ZoneForm (v : Value) (z : GeoCoordinate) : Prop :=
  ∃ lat lon radius, v = .array [lat, lon, radius] ∧ numericValue lat = some z.lat ∧
    numericValue lon = some z.lon ∧ RadiusForm radius z.radius ∧ z.lat.Ordinary ∧ z.lon.Ordinary ∧
    F64.lt (F64.ofInt 90) z.lat.abs = false ∧ F64.lt (F64.ofInt 180) z.lon.abs = false

/-- A zone counts as one item, and is counted before anything in it is looked at. -/
theorem decodeZone_counts (H : Host) (v : Value) :
    Counts limits (decodeZone H limits v) fun z c => ZoneForm v z ∧ c = itemCost 1 := by
  unfold decodeZone
  refine (Counts.countItem.andThen (S := fun _ z c => ZoneForm v z ∧ c = 0) fun _ => ?_).congr
    fun z c => ?_
  · split
    · rename_i lat lon radius
      refine Counts.free fun s z s' => ?_
      simp only [StateT.bind_eq_ok, StateT.lift_eq_ok, StateT.guard_eq_ok, StateT.pure_eq_ok,
        decodeNumber_eq_ok, decodeRadius_eq_ok, validateFloat_eq_ok, Bool.not_eq_true]
      constructor
      · rintro ⟨x, _, ⟨hx, rfl⟩, y, _, ⟨hy, rfl⟩, r, _, ⟨hr, rfl⟩, _, _, ⟨hxo, rfl⟩, _, _,
          ⟨hyo, rfl⟩, h90, h180, rfl, rfl⟩
        exact ⟨⟨lat, lon, radius, rfl, hx, hy, hr, hxo, hyo, h90, h180⟩, rfl⟩
      · rintro ⟨⟨lat', lon', radius', heq, hx, hy, hr, hxo, hyo, h90, h180⟩, rfl⟩
        obtain ⟨rfl, rfl, rfl⟩ : lat = lat' ∧ lon = lon' ∧ radius = radius' := by simpa using heq
        exact ⟨_, s, ⟨hx, rfl⟩, _, s, ⟨hy, rfl⟩, _, s, ⟨hr, rfl⟩, (), s, ⟨hxo, rfl⟩, (), s,
          ⟨hyo, rfl⟩, h90, h180, rfl, rfl⟩
    · rename_i elements hne
      refine Counts.refuse fun z c h => ?_
      obtain ⟨⟨lat, lon, radius, heq, -⟩, -⟩ := h
      exact hne lat lon radius (Value.array.inj heq)
    · rename_i hna
      refine Counts.refuse fun z c h => ?_
      obtain ⟨⟨lat, lon, radius, heq, -⟩, -⟩ := h
      exact hna _ heq
  · constructor
    · rintro ⟨_, _, _, rfl, ⟨hz, rfl⟩, rfl⟩
      exact ⟨hz, add_zero _⟩
    · rintro ⟨hz, rfl⟩
      exact ⟨(), _, 0, rfl, ⟨hz, rfl⟩, (add_zero _).symm⟩

/-- A list of zones; an empty one is nothing. -/
def CatgeocoordForm (v : Value) (cs : Option (List GeoCoordinate)) (c : DecodeCounters) : Prop :=
  ∃ vs zs, CrsForm v (.array vs) ∧ List.Forall₂ ZoneForm vs zs ∧
    cs = (if zs.isEmpty then none else some zs) ∧ c = itemCost zs.length

theorem decodeCatgeocoord_counts (H : Host) (v : Value) :
    Counts limits (decodeCatgeocoord H limits v) (CatgeocoordForm v) := by
  unfold decodeCatgeocoord
  refine ((Counts.lift _).andThen (S := fun w cs c => ∃ vs zs, w = .array vs ∧
    List.Forall₂ ZoneForm vs zs ∧ cs = (if zs.isEmpty then none else some zs) ∧
      c = itemCost zs.length) fun w => ?_).congr fun cs c => ?_
  · cases w with
    | array vs =>
      refine ((Counts.traverse (decodeZone_counts H) vs).andThen fun zs =>
        Counts.ret _).congr fun cs c => ?_
      simp only [sum_itemCost]
      constructor
      · rintro ⟨zs, _, _, ⟨hzs, rfl⟩, ⟨rfl, rfl⟩, rfl⟩
        exact ⟨vs, zs, rfl, hzs, rfl, add_zero _⟩
      · rintro ⟨vs', zs, heq, hzs, rfl, rfl⟩
        obtain rfl := Value.array.inj heq
        exact ⟨zs, _, 0, ⟨hzs, rfl⟩, ⟨rfl, rfl⟩, (add_zero _).symm⟩
    | _ =>
      refine Counts.refuse fun cs c h => ?_
      obtain ⟨vs, zs, heq, -⟩ := h
      exact absurd heq (by simp)
  · simp only [unwrapCrsTag_eq_ok]
    constructor
    · rintro ⟨w, _, _, ⟨hw, rfl⟩, ⟨vs, zs, rfl, hzs, rfl, rfl⟩, rfl⟩
      exact ⟨vs, zs, hw, hzs, rfl, zero_add _⟩
    · rintro ⟨vs, zs, hw, hzs, rfl, rfl⟩
      exact ⟨_, 0, _, ⟨hw, rfl⟩, ⟨vs, zs, rfl, hzs, rfl, rfl⟩, (zero_add _).symm⟩

/-- An array of texts and nothing else, in order. -/
theorem decodeTexts_eq_ok {e : CatError} {vs : List Value} {ss : List String} :
    decodeTexts e vs = .ok ss ↔ vs = ss.map .text := by
  induction vs generalizing ss with
  | nil => cases ss <;> simp [decodeTexts]
  | cons v vs ih =>
    cases v with
    | text s =>
      rw [decodeTexts, Except.map_eq_ok]
      constructor
      · rintro ⟨l, hl, rfl⟩
        rw [ih.mp hl, List.map_cons]
      · intro h
        cases ss with
        | nil => exact absurd h (by simp)
        | cons s' l =>
          obtain ⟨heq, hl⟩ := List.cons.inj h
          obtain rfl := Value.text.inj heq
          exact ⟨l, ih.mpr hl, rfl⟩
    | _ => cases ss <;> simp [decodeTexts]

/-- A text, or an array of texts; an empty array is nothing. -/
def GeohashForm (v : Value) (hs : Option (List String)) : Prop :=
  (∃ s, hs = some [s] ∧ CrsForm v (.text s)) ∨
    ∃ l, hs = (if l.isEmpty then none else some l) ∧ CrsForm v (textArray l)

theorem decodeGeohash_counts (v : Value) :
    Counts limits (decodeGeohash v) fun hs c => GeohashForm v hs ∧ c = 0 := by
  unfold decodeGeohash
  refine ((Counts.lift _).andThen (S := fun w hs c => ((∃ s, hs = some [s] ∧ w = .text s) ∨
    ∃ l, hs = (if l.isEmpty then none else some l) ∧ w = textArray l) ∧ c = 0) fun w => ?_).congr
    fun hs c => ?_
  · cases w with
    | text s =>
      refine (Counts.ret (some [s])).congr fun hs c => and_congr_left' ?_
      constructor
      · rintro rfl
        exact .inl ⟨s, rfl, rfl⟩
      · rintro (⟨s', rfl, heq⟩ | ⟨l, -, heq⟩)
        · rw [Value.text.inj heq]
        · exact absurd heq (by simp [textArray])
    | array vs =>
      refine ((Counts.lift _).andThen fun l => Counts.ret _).congr fun hs c => ?_
      simp only [decodeTexts_eq_ok]
      constructor
      · rintro ⟨l, _, _, ⟨rfl, rfl⟩, ⟨rfl, rfl⟩, rfl⟩
        exact ⟨.inr ⟨l, rfl, rfl⟩, add_zero _⟩
      · rintro ⟨⟨s, -, heq⟩ | ⟨l, rfl, heq⟩, rfl⟩
        · exact absurd heq (by simp)
        · exact ⟨l, 0, 0, ⟨Value.array.inj heq, rfl⟩, ⟨rfl, rfl⟩, (add_zero _).symm⟩
    | _ =>
      refine Counts.refuse fun hs c h => ?_
      rcases h with ⟨⟨s, -, heq⟩ | ⟨l, -, heq⟩, -⟩ <;> exact absurd heq (by simp [textArray])
  · simp only [unwrapCrsTag_eq_ok]
    constructor
    · rintro ⟨w, _, _, ⟨hw, rfl⟩, ⟨⟨s, rfl, rfl⟩ | ⟨l, rfl, rfl⟩, rfl⟩, rfl⟩
      · exact ⟨.inl ⟨s, rfl, hw⟩, zero_add _⟩
      · exact ⟨.inr ⟨l, rfl, hw⟩, zero_add _⟩
    · rintro ⟨⟨s, rfl, hw⟩ | ⟨l, rfl, hw⟩, rfl⟩
      · exact ⟨_, 0, 0, ⟨hw, rfl⟩, ⟨.inl ⟨s, rfl, rfl⟩, rfl⟩, (zero_add _).symm⟩
      · exact ⟨_, 0, 0, ⟨hw, rfl⟩, ⟨.inr ⟨l, rfl, rfl⟩, rfl⟩, (zero_add _).symm⟩

/-- An altitude and its deviation. -/
def CatgeoaltForm (v : Value) (a : GeoAltitude) : Prop :=
  ∃ x y, CrsForm v (.array [x, y]) ∧ numericValue x = some a.altitude ∧
    numericValue y = some a.deviation ∧ a.altitude.Ordinary ∧ a.deviation.Ordinary

theorem decodeCatgeoalt_counts (v : Value) :
    Counts limits (decodeCatgeoalt v) fun a c => CatgeoaltForm v a ∧ c = 0 := by
  refine Counts.free fun s a s' => ?_
  unfold decodeCatgeoalt
  rw [StateT.bind_eq_ok]
  simp only [StateT.lift_eq_ok, unwrapCrsTag_eq_ok]
  constructor
  · rintro ⟨w, _, ⟨hw, rfl⟩, h⟩
    split at h
    · rename_i x y
      simp only [StateT.bind_eq_ok, StateT.lift_eq_ok, StateT.pure_eq_ok, decodeNumber_eq_ok,
        validateFloat_eq_ok] at h
      obtain ⟨f, _, ⟨hf, rfl⟩, g, _, ⟨hg, rfl⟩, _, _, ⟨hfo, rfl⟩, _, _, ⟨hgo, rfl⟩, rfl, rfl⟩ := h
      exact ⟨⟨x, y, hw, hf, hg, hfo, hgo⟩, rfl⟩
    · exact absurd h StateT.throw_ne_ok
  · rintro ⟨⟨x, y, hw, hf, hg, hfo, hgo⟩, rfl⟩
    refine ⟨_, s, ⟨hw, rfl⟩, ?_⟩
    simp only [StateT.bind_eq_ok, StateT.lift_eq_ok, StateT.pure_eq_ok, decodeNumber_eq_ok,
      validateFloat_eq_ok]
    exact ⟨_, s, ⟨hf, rfl⟩, _, s, ⟨hg, rfl⟩, (), s, ⟨hfo, rfl⟩, (), s, ⟨hgo, rfl⟩, rfl, rfl⟩

end
end Cat
