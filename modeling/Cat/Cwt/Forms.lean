import Cat.Cwt.Counting
import Cat.Cwt.Decode
import Cat.Cwt.Encode
import Cat.Lib.FloatInt

/-!
# The accepted forms

For each claim, the values that decode to it: a relation between a CBOR value, what it decodes
to, and what that costs. Most claims have one form, and the relation is an equation that writes
the value down; where there are several, they are listed. Each `_counts` theorem says that the
decoder of the claim accepts exactly these forms.

The relations are what the rest of the development knows of the decoder. Acceptance, costs,
round trips and the order of members are proved from them, and none of those proofs unfolds a
function of `cwt.rs`. So a change to one decoder of a claim is a change to its relation and to
one proof in this module.

The cost is part of the relation because of how the limits work. The decoder counts items,
string bytes, patterns and rules in one set of counters while it reads, and stops as soon as one
of them is over its limit; which claim was the one too many depends on everything before it.
`Counts` takes that apart: a claim has its cost whatever was read before, and the decoder
succeeds exactly if the sum stays within the limits. The proofs follow the `do` blocks of the
decoders by `Counts.andThen`, so the order of the steps is the order of the source.

Claims with doubles are in `NumberForms`, records with members in `RecordForms`.
-/

set_option autoImplicit false

namespace Cat

open Cbor DecodeCounters

/-! ## Parts

Readers that several claims share. The lemmas are equivalences, so that each of them serves in
either direction.
-/

section
variable {limits : CwtLimits}

/-- A claim that must not be tagged, where no accepted form is. -/
theorem Counts.untagged {α : Type} {m : Decode α} {R : α → DecodeCounters → Prop} {v : Value}
    {name : String} (h : Counts limits m R) (hv : ∀ x c, R x c → ∀ t w, v ≠ .tag t w) :
    Counts limits (do rejectUnexpectedTag v name; m) R := by
  refine ((Counts.lift (rejectUnexpectedTag v name)).andThen fun _ => h).congr fun x c => ?_
  constructor
  · rintro ⟨_, c₁, c₂, ⟨-, rfl⟩, hR, rfl⟩
    rw [zero_add]
    exact hR
  · intro hR
    refine ⟨(), 0, c, ⟨?_, rfl⟩, hR, (zero_add c).symm⟩
    cases v with
    | tag t w => exact absurd rfl (hv x c hR t w)
    | _ => rfl

/-- A step that throws has no form. -/
theorem Counts.refuse {α : Type} {R : α → DecodeCounters → Prop} {e : CatError}
    (h : ∀ x c, ¬R x c) : Counts limits (throw e : Decode α) R :=
  (Counts.fail e).congr fun x c => ⟨False.elim, h x c⟩

theorem validateStringLengthWithLimit_eq_ok {s name : String} {n : Nat} {u : Unit} :
    validateStringLengthWithLimit s name n = .ok u ↔ (utf8 s).length ≤ n := by
  unfold validateStringLengthWithLimit
  dsimp only
  split
  · rename_i h
    simp only [reduceCtorEq, false_iff]
    omega
  · rename_i h
    simp only [true_iff]
    omega

/-- A string that is measured and counted. -/
theorem countedString_counts (name s : String) :
    Counts limits (countedString limits name s) fun _ c =>
      (utf8 s).length ≤ limits.maxStringClaimLength ∧ c = stringCost (utf8 s).length := by
  refine ((Counts.lift _).andThen fun _ => Counts.countString _).congr fun x c => ?_
  simp only [validateStringLengthWithLimit_eq_ok]
  constructor
  · rintro ⟨_, c₁, c₂, ⟨hlen, rfl⟩, rfl, rfl⟩
    exact ⟨hlen, zero_add _⟩
  · rintro ⟨hlen, rfl⟩
    exact ⟨(), 0, _, ⟨hlen, rfl⟩, rfl, (zero_add _).symm⟩

/-- The double a number stands for. An integer beyond 64 bits stands for none. -/
def numericValue : Value → Option F64
  | .float f => some f
  | .integer i => i.toI64?.map fun n => F64.ofInt n.toInt
  | _ => none

theorem decodeNumber_eq_ok {v : Value} {e e' : CatError} {f : F64} :
    decodeNumber v e e' = .ok f ↔ numericValue v = some f := by
  unfold decodeNumber numericValue
  cases v with
  | integer i => dsimp only; cases i.toI64? <;> simp
  | _ => simp

/-- What `validate_float` refuses is what is not ordinary: infinities, NaN and negative zero. -/
theorem validateFloat_eq_ok {f : F64} {name : String} {u : Unit} :
    validateFloat f name = .ok u ↔ f.Ordinary := by
  unfold validateFloat F64.Ordinary
  cases f.isNan with
  | true => simp
  | false =>
    cases f.isInfinite with
    | true => simp
    | false =>
      simp only [Bool.false_eq_true, if_false, true_and]
      split
      · rename_i h; simp [h]
      · rename_i h; simp [h]

theorem rejectUnexpectedTag_eq_ok {v : Value} {name : String} {u : Unit} :
    rejectUnexpectedTag v name = .ok u ↔ ∀ t w, v ≠ .tag t w := by
  cases v with
  | tag t w => simp [rejectUnexpectedTag]
  | _ => simp [rejectUnexpectedTag]

end

/-! ## Text

What a text costs is its length, against the aggregate. The list claims differ in whether their
elements count as items and in what they do with a text that stands alone.
-/

section
variable (limits : CwtLimits)

/-- Text of limited length, and what it costs. -/
def TextForm (v : Value) (s : String) (c : DecodeCounters) : Prop :=
  v = .text s ∧ (utf8 s).length ≤ limits.maxStringClaimLength ∧ c = stringCost (utf8 s).length

/-- An audience in an array is an item and a string; one that stands alone is a string only. -/
def audienceCost (s : String) : DecodeCounters := itemCost 1 + stringCost (utf8 s).length

/-- One audience as a text, or any number of them as an array of texts. -/
def AudForm (v : Value) (ss : List String) (c : DecodeCounters) : Prop :=
  (∀ s ∈ ss, (utf8 s).length ≤ limits.maxStringClaimLength) ∧
    ((∃ s, ss = [s] ∧ v = .text s ∧ c = stringCost (utf8 s).length) ∨
      (v = textArray ss ∧ c = (ss.map audienceCost).sum))

variable {limits}

theorem decodeTextClaim_counts (tagName claimName : String) (v : Value) :
    Counts limits (decodeTextClaim limits tagName claimName v) (TextForm limits v) := by
  refine Counts.untagged ?_ (by rintro s c ⟨rfl, -⟩ t w; simp)
  cases v with
  | text s =>
    refine ((countedString_counts _ s).andThen fun _ => Counts.ret s).congr fun x c => ?_
    constructor
    · rintro ⟨_, c₁, c₂, ⟨hlen, rfl⟩, ⟨rfl, rfl⟩, rfl⟩
      exact ⟨rfl, hlen, add_zero _⟩
    · rintro ⟨heq, hlen, rfl⟩
      obtain rfl := Value.text.inj heq
      exact ⟨(), _, 0, ⟨hlen, rfl⟩, ⟨rfl, rfl⟩, (add_zero _).symm⟩
  | _ => exact Counts.refuse fun x c h => absurd h.1 (by simp)

theorem decodeIss_counts (v : Value) : Counts limits (decodeIss limits v) (TextForm limits v) :=
  decodeTextClaim_counts _ _ v

theorem decodeSub_counts (v : Value) : Counts limits (decodeSub limits v) (TextForm limits v) :=
  decodeTextClaim_counts _ _ v

theorem decodeAudience_counts (v : Value) :
    Counts limits (decodeAudience limits v) fun s c =>
      (v = .text s ∧ (utf8 s).length ≤ limits.maxStringClaimLength) ∧ c = audienceCost s := by
  cases v with
  | text s =>
    refine (Counts.countItem.andThen fun _ => (countedString_counts "audience" s).andThen fun _ =>
      Counts.ret s).congr fun x c => ?_
    constructor
    · rintro ⟨_, c₁, c₂, rfl, ⟨_, c₃, c₄, ⟨hlen, rfl⟩, ⟨rfl, rfl⟩, rfl⟩, rfl⟩
      exact ⟨⟨rfl, hlen⟩, by rw [add_zero, audienceCost]⟩
    · rintro ⟨⟨heq, hlen⟩, rfl⟩
      obtain rfl := Value.text.inj heq
      exact ⟨(), _, _, rfl, ⟨(), _, 0, ⟨hlen, rfl⟩, ⟨rfl, rfl⟩, rfl⟩, by rw [add_zero, audienceCost]⟩
  | _ => exact Counts.countedFail _ fun x c h => absurd h.1.1 (by simp)

/-- A single text is not counted as an item, an array counts each of its texts. -/
theorem decodeAud_counts (v : Value) : Counts limits (decodeAud limits v) (AudForm limits v) := by
  refine Counts.untagged ?_ (by rintro s c ⟨-, ⟨s, -, rfl, -⟩ | ⟨rfl, -⟩⟩ t w <;> simp [textArray])
  cases v with
  | text s =>
    refine ((countedString_counts "audience" s).andThen fun _ => Counts.ret [s]).congr fun x c => ?_
    constructor
    · rintro ⟨_, c₁, c₂, ⟨hlen, rfl⟩, ⟨rfl, rfl⟩, rfl⟩
      exact ⟨by simpa using hlen, .inl ⟨s, rfl, rfl, add_zero _⟩⟩
    · rintro ⟨hlen, ⟨s', rfl, heq, rfl⟩ | ⟨heq, -⟩⟩
      · obtain rfl := Value.text.inj heq
        exact ⟨(), _, 0, ⟨by simpa using hlen, rfl⟩, ⟨rfl, rfl⟩, (add_zero _).symm⟩
      · exact absurd heq (by simp [textArray])
  | array vs =>
    refine (Counts.traverse_exact decodeAudience_counts vs).congr fun x c => ?_
    constructor
    · rintro ⟨⟨rfl, hlen⟩, rfl⟩
      exact ⟨hlen, .inr ⟨rfl, rfl⟩⟩
    · rintro ⟨hlen, ⟨s, -, heq, -⟩ | ⟨heq, rfl⟩⟩
      · exact absurd heq (by simp)
      · exact ⟨⟨Value.array.inj heq, hlen⟩, rfl⟩
  | _ =>
    refine Counts.refuse fun x c h => ?_
    rcases h with ⟨-, ⟨s, -, heq, -⟩ | ⟨heq, -⟩⟩ <;> exact absurd heq (by simp [textArray])

/-- An array of texts each of which counts as an item. -/
theorem decodeCountedText_counts (wrongItem : String) (v : Value) :
    Counts limits (decodeCountedText limits wrongItem v) fun s c =>
      (v = .text s ∧ True) ∧ c = itemCost 1 := by
  cases v with
  | text s =>
    refine Counts.countedRet s fun x c => ?_
    rw [Value.text.injEq, and_true]
  | _ => exact Counts.countedFail _ fun x c h => absurd h.1.1 (by simp)

theorem sum_itemCost {α : Type} (as : List α) :
    (as.map fun _ => itemCost 1).sum = itemCost as.length := by
  induction as with
  | nil => rfl
  | cons a as ih =>
    rw [List.map_cons, List.sum_cons, ih, List.length_cons]
    apply ext_counts <;> simp [itemCost, Nat.add_comm]

theorem countedTexts_counts (wrongItem : String) (vs : List Value) :
    Counts limits (vs.mapM' (decodeCountedText limits wrongItem)) fun ss c =>
      vs = ss.map .text ∧ c = itemCost ss.length := by
  refine (Counts.traverse_exact (decodeCountedText_counts wrongItem) vs).congr fun ss c => ?_
  rw [sum_itemCost]
  simp

/-- An array of texts, of at most so many. -/
theorem decodeCatm_counts (v : Value) : Counts limits (decodeCatm limits v) fun ss c =>
    (v = textArray ss ∧ ss.length ≤ 50) ∧ c = itemCost ss.length := by
  refine Counts.untagged ?_ (by rintro s c ⟨⟨rfl, -⟩, -⟩ t w; simp [textArray])
  cases v with
  | array vs =>
    refine (Counts.guard (countedTexts_counts _ vs)).congr fun ss c => ?_
    constructor
    · rintro ⟨hlen, rfl, rfl⟩
      rw [List.length_map] at hlen
      exact ⟨⟨rfl, by omega⟩, rfl⟩
    · rintro ⟨⟨heq, hlen⟩, rfl⟩
      obtain rfl := Value.array.inj heq
      rw [List.length_map]
      exact ⟨by omega, rfl, rfl⟩
  | _ => exact Counts.refuse fun x c h => absurd h.1.1 (by simp [textArray])

theorem decodeCatgeoiso3166_counts (v : Value) :
    Counts limits (decodeCatgeoiso3166 limits v) fun ss c =>
      v = textArray ss ∧ c = itemCost ss.length := by
  refine Counts.untagged ?_ (by rintro s c ⟨rfl, -⟩ t w; simp [textArray])
  cases v with
  | array vs =>
    refine (countedTexts_counts _ vs).congr fun ss c => ?_
    rw [textArray, Value.array.injEq]
  | _ => exact Counts.refuse fun x c h => absurd h.1 (by simp [textArray])

/-- A text, or an array of texts; an empty array is nothing. -/
def TextsForm (v : Value) (ss : Option (List String)) (c : DecodeCounters) : Prop :=
  (∃ s, ss = some [s] ∧ v = .text s ∧ c = 0) ∨
    ∃ l, ss = (if l.isEmpty then none else some l) ∧ v = textArray l ∧ c = itemCost l.length

theorem decodeCatifdata_counts (v : Value) :
    Counts limits (decodeCatifdata limits v) (TextsForm v) := by
  refine Counts.untagged ?_ (by
    rintro s c (⟨s, -, rfl, -⟩ | ⟨l, -, rfl, -⟩) t w <;> simp [textArray])
  cases v with
  | text s =>
    refine (Counts.ret (some [s])).congr fun x c => ?_
    constructor
    · rintro ⟨rfl, rfl⟩
      exact .inl ⟨s, rfl, rfl, rfl⟩
    · rintro (⟨s', rfl, heq, rfl⟩ | ⟨l, -, heq, -⟩)
      · obtain rfl := Value.text.inj heq
        exact ⟨rfl, rfl⟩
      · exact absurd heq (by simp [textArray])
  | array vs =>
    refine ((countedTexts_counts _ vs).andThen fun ss => Counts.ret _).congr fun x c => ?_
    constructor
    · rintro ⟨ss, c₁, c₂, ⟨rfl, rfl⟩, ⟨rfl, rfl⟩, rfl⟩
      exact .inr ⟨ss, rfl, rfl, add_zero _⟩
    · rintro (⟨s', -, heq, -⟩ | ⟨l, rfl, heq, rfl⟩)
      · exact absurd heq (by simp)
      · exact ⟨l, _, 0, ⟨Value.array.inj heq, rfl⟩, ⟨rfl, rfl⟩, (add_zero _).symm⟩
  | _ =>
    refine Counts.refuse fun x c h => ?_
    rcases h with ⟨s, -, heq, -⟩ | ⟨l, -, heq, -⟩ <;> exact absurd heq (by simp [textArray])

end

/-! ## Bytes and numbers

A value that is written in one way has one form, an integer with its type. Only times are
accepted as doubles too.
-/

section
variable {limits : CwtLimits}

theorem decodeCti_counts (v : Value) :
    Counts limits (decodeCti v) fun b c => v = .bytes b ∧ c = 0 := by
  refine Counts.untagged ?_ (by rintro s c ⟨rfl, -⟩ t w; simp)
  cases v with
  | bytes b => exact (Counts.ret b).congr fun x c => by rw [Value.bytes.injEq]
  | _ => exact Counts.refuse fun x c h => absurd h.1 (by simp)

theorem decodeCattpk_counts (v : Value) :
    Counts limits (decodeCattpk v) fun b c => v = .bytes b ∧ c = 0 := by
  refine Counts.untagged ?_ (by rintro s c ⟨rfl, -⟩ t w; simp)
  cases v with
  | bytes b => exact (Counts.ret b).congr fun x c => by rw [Value.bytes.injEq]
  | _ => exact Counts.refuse fun x c h => absurd h.1 (by simp)

theorem decodeAlpn_counts (v : Value) :
    Counts limits (decodeAlpn limits v) fun b c => (v = .bytes b ∧ True) ∧ c = itemCost 1 := by
  cases v with
  | bytes b =>
    refine Counts.countedRet b fun x c => ?_
    rw [Value.bytes.injEq, and_true]
  | _ => exact Counts.countedFail _ fun x c h => absurd h.1.1 (by simp)

theorem decodeCatalpn_counts (v : Value) :
    Counts limits (decodeCatalpn limits v) fun as c =>
      (v = .array (as.map .bytes) ∧ as.length ≤ 50) ∧ c = itemCost as.length := by
  refine Counts.untagged ?_ (by rintro s c ⟨⟨rfl, -⟩, -⟩ t w; simp)
  cases v with
  | array vs =>
    refine (Counts.guard (Counts.traverse_exact decodeAlpn_counts vs)).congr fun as c => ?_
    rw [sum_itemCost]
    constructor
    · rintro ⟨hlen, ⟨rfl, -⟩, rfl⟩
      rw [List.length_map] at hlen
      exact ⟨⟨rfl, by omega⟩, rfl⟩
    · rintro ⟨⟨heq, hlen⟩, rfl⟩
      obtain rfl := Value.array.inj heq
      rw [List.length_map]
      exact ⟨by omega, ⟨rfl, fun _ _ => trivial⟩, rfl⟩
  | _ => exact Counts.refuse fun x c h => absurd h.1.1 (by simp)

theorem integer_eq_u32Value {i : Integer} {n : UInt32} :
    Value.integer i = u32Value n ↔ i.toU32? = some n := by
  have hn := n.toNat_lt
  rw [u32Value, natValue, Value.integer.injEq, Integer.ext_iff]
  show i.val = n.toNat ↔ _
  unfold Integer.toU32?
  constructor
  · intro h
    rw [if_pos (by omega), h, Int.toNat_natCast, UInt32.ofNat_toNat]
  · intro h
    split at h
    · rename_i hr
      rw [← Option.some.inj h, UInt32.toNat_ofNat_of_lt' (by
        show _ < 2 ^ 32
        omega)]
      omega
    · exact absurd h (by simp)

theorem integer_eq_i64Value {i : Integer} {n : Int64} :
    Value.integer i = i64Value n ↔ i.toI64? = some n := by
  rw [i64Value, Value.integer.injEq, Integer.ext_iff, Integer.toI64?_eq_some]
  rfl

/-- The numbers that are a kind of replay protection are those that a kind is written as. -/
theorem tryFrom_toU32 {n : UInt32} {r : ReplayProtection} :
    ReplayProtection.tryFrom n = .ok r ↔ n = r.toU32 := by
  rw [← UInt32.toNat_inj]
  unfold ReplayProtection.tryFrom
  split
  · rename_i h; rw [h]; cases r <;> simp [ReplayProtection.toU32]
  · rename_i h; rw [h]; cases r <;> simp [ReplayProtection.toU32]
  · rename_i h; rw [h]; cases r <;> simp [ReplayProtection.toU32]
  · rename_i h0 h1 h2
    cases r <;> simp_all [ReplayProtection.toU32]

theorem decodeCatreplay_counts (v : Value) :
    Counts limits (decodeCatreplay v) fun r c => v = u32Value r.toU32 ∧ c = 0 := by
  refine Counts.untagged ?_ (by rintro s c ⟨rfl, -⟩ t w; simp [u32Value, natValue])
  cases v with
  -- the two integer widths of the source: `try_into` fails on what does not fit
  | integer i =>
    dsimp only
    cases hi : i.toU32? with
    | none =>
      refine Counts.refuse fun x c h => ?_
      rw [integer_eq_u32Value, hi] at h
      exact absurd h.1 (by simp)
    | some n =>
      refine (Counts.lift _).congr fun r c => ?_
      rw [integer_eq_u32Value, hi, Option.some.injEq, tryFrom_toU32]
  | _ => exact Counts.refuse fun x c h => absurd h.1 (by simp [u32Value, natValue])

/-- Any `u32` is a version here. That it be 1 is left to validation. -/
theorem decodeCatv_counts (v : Value) :
    Counts limits (decodeCatv v) fun n c => v = u32Value n ∧ c = 0 := by
  refine Counts.untagged ?_ (by rintro s c ⟨rfl, -⟩ t w; simp [u32Value, natValue])
  cases v with
  | integer i =>
    dsimp only
    cases hi : i.toU32? with
    | none =>
      refine Counts.refuse fun x c h => ?_
      rw [integer_eq_u32Value, hi] at h
      exact absurd h.1 (by simp)
    | some n =>
      refine (Counts.ret n).congr fun r c => ?_
      rw [integer_eq_u32Value, hi, Option.some.injEq]
  | _ => exact Counts.refuse fun x c h => absurd h.1 (by simp [u32Value, natValue])

/-- A double that is a whole number of seconds, within the range of `i64`. -/
def WholeSeconds (f : F64) : Prop :=
  f.Ordinary ∧ f.isIntegral = true ∧
    ¬(F64.le (F64.ofInt (2 ^ 63 - 1)) f || F64.le f (F64.ofInt (-2 ^ 63))) = true

/-- A date as an integer, or as a double that is one. -/
def DateForm (v : Value) (n : Int64) : Prop :=
  v = i64Value n ∨ ∃ f, v = .float f ∧ WholeSeconds f ∧ n = Int64.ofInt f.toInt

theorem safeFloatToI64_eq_ok {H : Host} {f : F64} {name : String} {n : Int64} :
    safeFloatToI64 H f name = .ok n ↔ WholeSeconds f ∧ n = Int64.ofInt f.toInt := by
  constructor
  · intro h
    obtain ⟨_, hf, h₁⟩ := Except.bind_eq_ok.mp h
    obtain ⟨hint, h₂⟩ := Except.guard_eq_ok.mp h₁
    obtain ⟨hrange, h₃⟩ := Except.guard_eq_ok.mp h₂
    exact ⟨⟨validateFloat_eq_ok.mp hf, by simpa using hint, hrange⟩,
      (Except.pure_eq_ok.mp h₃).symm⟩
  · rintro ⟨⟨hf, hint, hrange⟩, rfl⟩
    exact Except.bind_eq_ok.mpr ⟨(), validateFloat_eq_ok.mpr hf,
      Except.guard_eq_ok.mpr ⟨by simp [hint], Except.guard_eq_ok.mpr ⟨hrange, rfl⟩⟩⟩

/-- An integer is the date. A double is one if it is whole and strictly inside the range of `i64`.
    -/
theorem decodeNumericDate_counts (H : Host) (name : String) (v : Value) :
    Counts limits (decodeNumericDate H name v) fun n c => DateForm v n ∧ c = 0 := by
  refine Counts.untagged ?_ (by
    rintro s c ⟨rfl | ⟨f, rfl, -⟩, -⟩ t w <;> simp [i64Value])
  cases v with
  | integer i =>
    have hform : ∀ n, DateForm (.integer i) n ↔ i.toI64? = some n := fun n => by
      rw [DateForm, integer_eq_i64Value]
      simp
    dsimp only
    cases hi : i.toI64? with
    | none =>
      refine Counts.refuse fun x c h => ?_
      rw [hform, hi] at h
      exact absurd h.1 (by simp)
    | some n =>
      refine (Counts.ret n).congr fun x c => ?_
      rw [hform, hi, Option.some.injEq]
  | float f =>
    refine (Counts.lift _).congr fun n c => and_congr_left' ?_
    rw [safeFloatToI64_eq_ok, DateForm]
    simp [i64Value]
  | _ => exact Counts.refuse fun x c h => absurd h.1 (by simp [DateForm, i64Value])

/-- The identifiers themselves have a module of their own, `Networks`. -/
theorem decodeNip_counts (v : Value) :
    Counts limits (decodeNip limits v) fun n c =>
      decodeNetworkIdentifier v = .ok n ∧ c = itemCost 1 := by
  refine (Counts.countItem.andThen fun _ => Counts.lift _).congr fun n c => ?_
  constructor
  · rintro ⟨_, c₁, c₂, rfl, ⟨h, rfl⟩, rfl⟩
    exact ⟨h, add_zero _⟩
  · rintro ⟨h, rfl⟩
    exact ⟨(), _, 0, rfl, ⟨h, rfl⟩, (add_zero _).symm⟩

/-- The network identifiers of an array. -/
def CatnipForm (limits : CwtLimits) (v : Value) (ns : List NetworkIdentifier) : Prop :=
  ∃ vs, v = .array vs ∧ vs.length ≤ limits.maxCatnipEntries ∧
    List.Forall₂ (fun v n => decodeNetworkIdentifier v = .ok n) vs ns

theorem decodeCatnip_counts (v : Value) :
    Counts limits (decodeCatnip limits v) fun ns c =>
      CatnipForm limits v ns ∧ c = itemCost ns.length := by
  refine Counts.untagged ?_ (by rintro s c ⟨⟨vs, rfl, -⟩, -⟩ t w; simp)
  cases v with
  | array vs =>
    refine (Counts.guard (Counts.traverse decodeNip_counts vs)).congr fun ns c => ?_
    rw [sum_itemCost]
    constructor
    · rintro ⟨hlen, hns, rfl⟩
      exact ⟨⟨vs, rfl, by omega, hns⟩, rfl⟩
    · rintro ⟨⟨vs', heq, hlen, hns⟩, rfl⟩
      obtain rfl := Value.array.inj heq
      exact ⟨by omega, hns, rfl⟩
  | _ =>
    refine Counts.refuse fun x c h => ?_
    obtain ⟨⟨vs, heq, -⟩, -⟩ := h
    exact absurd heq (by simp)

end
/-! ## Match rules

A rule is an entry of a map: what it is for, and its matches. The decoders are brought into the
shape of a sequence of readers first (`decodeUriRule_eq`), and then the rules of `Counts` apply
to them one after another.
-/

section
variable {limits : CwtLimits}

/-- A member of a match map has one form: its label and its text. -/
theorem decodeMatchValue_eq_ok {k v : Value} {m : MatchValue} :
    decodeMatchValue k v = .ok m ↔ (k, v) = encodeMatchValue m := by
  constructor
  · intro h
    cases k with
    | integer i =>
      unfold decodeMatchValue at h
      dsimp only at h
      cases hi : i.toI64? with
      | none => rw [hi] at h; exact absurd h (by simp)
      | some n =>
        rw [hi] at h
        rw [integer_eq_i64Value.mpr hi]
        dsimp only at h
        split_ifs at h <;> subst n <;> cases v <;>
          first | (obtain rfl := Except.ok.inj h; rfl) | cases h
    | _ => exact absurd h (by simp [decodeMatchValue])
  · intro h
    obtain ⟨hk, hv⟩ := Prod.ext_iff.mp h
    dsimp only at hk hv
    subst hk hv
    cases m <;> rfl

/-- Only a regular expression is counted, since compiling it is what the limit is for. -/
def matchCost (m : MatchValue) : DecodeCounters := if m.isRegex then regexCost 1 else 0

theorem decodeCountedMatch_counts (e : Value × Value) :
    Counts limits (decodeCountedMatch limits e) fun m c =>
      (e = encodeMatchValue m ∧ True) ∧ c = matchCost m := by
  have hafter : ∀ m : MatchValue, Counts limits
      (if m.isRegex = true then countRegex limits >>= fun _ => pure m else pure m)
      fun m' c => m = m' ∧ c = matchCost m := fun m => by
    cases hm : m.isRegex with
    | true =>
      rw [if_pos rfl]
      refine (Counts.countRegex.andThen fun _ => Counts.ret m).congr fun m' c => ?_
      rw [matchCost, hm]
      constructor
      · rintro ⟨_, c₁, c₂, rfl, ⟨rfl, rfl⟩, rfl⟩
        exact ⟨rfl, add_zero _⟩
      · rintro ⟨rfl, rfl⟩
        exact ⟨(), _, 0, rfl, ⟨rfl, rfl⟩, (add_zero _).symm⟩
    | false =>
      rw [if_neg Bool.false_ne_true]
      refine (Counts.ret m).congr fun m' c => ?_
      rw [matchCost, hm, if_neg Bool.false_ne_true]
  refine ((Counts.lift _).andThen hafter).congr fun m c => ?_
  simp only [decodeMatchValue_eq_ok, Prod.mk.eta, and_true]
  constructor
  · rintro ⟨m', c₁, c₂, ⟨he, rfl⟩, ⟨rfl, rfl⟩, rfl⟩
    exact ⟨he, zero_add _⟩
  · rintro ⟨he, rfl⟩
    exact ⟨m, 0, _, ⟨he, rfl⟩, ⟨rfl, rfl⟩, (zero_add _).symm⟩

/-- The members of a match map, in the order of the map. -/
def matchEntries (ms : List MatchValue) : Value := .map (ms.map encodeMatchValue)

def matchesCost (ms : List MatchValue) : DecodeCounters := (ms.map matchCost).sum

theorem matchMap_counts (es : List (Value × Value)) :
    Counts limits (es.mapM' (decodeCountedMatch limits)) fun ms c =>
      es = ms.map encodeMatchValue ∧ c = matchesCost ms := by
  refine (Counts.traverse_exact decodeCountedMatch_counts es).congr fun ms c => ?_
  simp [matchesCost]

/-- The component a rule is for. -/
def ruleComponent (k : Value) : Except CatError Int64 :=
  match k with
  | .integer i =>
    match i.toI64? with
    | some n => .ok n
    | none => .error .invalidTokenFormat
  | _ => .error (.invalidClaimValue "catu map keys must be integers")

/-- The header a rule is for. -/
def ruleHeader (k : Value) : Except CatError String :=
  match k with
  | .text s => .ok s
  | _ => .error (.invalidClaimValue "cath map keys must be text strings")

/-- The match map of a rule. -/
def ruleMatches (what : String) (v : Value) : Except CatError (List (Value × Value)) :=
  match v with
  | .map m => .ok m
  | _ => .error (.invalidClaimValue what)

theorem ruleComponent_eq_ok {k : Value} {n : Int64} : ruleComponent k = .ok n ↔ k = i64Value n := by
  unfold ruleComponent
  cases k with
  | integer i => rw [integer_eq_i64Value]; dsimp only; cases i.toI64? <;> simp
  | _ => simp [i64Value]

theorem ruleHeader_eq_ok {k : Value} {s : String} : ruleHeader k = .ok s ↔ k = .text s := by
  unfold ruleHeader
  cases k <;> simp

theorem ruleMatches_eq_ok {what : String} {v : Value} {es : List (Value × Value)} :
    ruleMatches what v = .ok es ↔ v = .map es := by
  unfold ruleMatches
  cases v <;> simp

/-- The decoder as a sequence of readers, as for `catpor`: first the two halves of the entry, then
    the matches, and the pattern is counted last. -/
theorem decodeUriRule_eq (e : Value × Value) : decodeUriRule limits e = (do
    let component ← ruleComponent e.1
    let matchMap ← ruleMatches "catu map values must be maps" e.2
    let ms ← matchMap.mapM' (decodeCountedMatch limits)
    countUriPattern limits
    return ⟨component, ms⟩) := by
  obtain ⟨k, v⟩ := e
  unfold decodeUriRule ruleComponent
  cases k with
  | integer i => dsimp only; cases i.toI64? <;> cases v <;> rfl
  | _ => cases v <;> rfl

/-- The same without the count: there is no limit on rules for headers of their own. -/
theorem decodeHeaderRule_eq (e : Value × Value) : decodeHeaderRule limits e = (do
    let name ← ruleHeader e.1
    let matchMap ← ruleMatches "cath map values must be maps" e.2
    let ms ← matchMap.mapM' (decodeCountedMatch limits)
    return ⟨name, ms⟩) := by
  obtain ⟨k, v⟩ := e
  cases k <;> cases v <;> rfl

def uriRuleEntry (r : UriMatchRule) : Value × Value :=
  (i64Value r.component, matchEntries r.matches_)

def headerRuleEntry (r : HeaderMatchRule) : Value × Value :=
  (.text r.name, matchEntries r.matches_)

def uriRuleCost (r : UriMatchRule) : DecodeCounters := matchesCost r.matches_ + uriCost 1
def headerRuleCost (r : HeaderMatchRule) : DecodeCounters := matchesCost r.matches_

theorem decodeUriRule_counts (e : Value × Value) :
    Counts limits (decodeUriRule limits e) fun r c =>
      (e = uriRuleEntry r ∧ True) ∧ c = uriRuleCost r := by
  rw [decodeUriRule_eq]
  refine ((Counts.lift _).andThen fun n => (Counts.lift _).andThen fun es =>
    (matchMap_counts es).andThen fun ms => Counts.countUriPattern.andThen fun _ =>
      Counts.ret _).congr fun r c => ?_
  simp only [ruleComponent_eq_ok, ruleMatches_eq_ok]
  constructor
  · rintro ⟨n, _, _, ⟨hk, rfl⟩, ⟨es, _, _, ⟨hv, rfl⟩, ⟨ms, _, _, ⟨rfl, rfl⟩,
      ⟨_, _, _, rfl, ⟨rfl, rfl⟩, rfl⟩, rfl⟩, rfl⟩, rfl⟩
    refine ⟨⟨Prod.ext hk hv, trivial⟩, ?_⟩
    rw [zero_add, zero_add, add_zero, uriRuleCost]
  · rintro ⟨⟨rfl, -⟩, rfl⟩
    refine ⟨r.component, 0, _, ⟨rfl, rfl⟩, ⟨_, 0, _, ⟨rfl, rfl⟩, ⟨r.matches_, _, _, ⟨rfl, rfl⟩,
      ⟨(), _, 0, rfl, ⟨rfl, rfl⟩, rfl⟩, rfl⟩, rfl⟩, ?_⟩
    rw [zero_add, zero_add, add_zero, uriRuleCost]

theorem decodeHeaderRule_counts (e : Value × Value) :
    Counts limits (decodeHeaderRule limits e) fun r c =>
      (e = headerRuleEntry r ∧ True) ∧ c = headerRuleCost r := by
  rw [decodeHeaderRule_eq]
  refine ((Counts.lift _).andThen fun n => (Counts.lift _).andThen fun es =>
    (matchMap_counts es).andThen fun ms => Counts.ret _).congr fun r c => ?_
  simp only [ruleHeader_eq_ok, ruleMatches_eq_ok]
  constructor
  · rintro ⟨n, _, _, ⟨hk, rfl⟩, ⟨es, _, _, ⟨hv, rfl⟩, ⟨ms, _, _, ⟨rfl, rfl⟩,
      ⟨rfl, rfl⟩, rfl⟩, rfl⟩, rfl⟩
    refine ⟨⟨Prod.ext hk hv, trivial⟩, ?_⟩
    rw [zero_add, zero_add, add_zero, headerRuleCost]
  · rintro ⟨⟨rfl, -⟩, rfl⟩
    refine ⟨r.name, 0, _, ⟨rfl, rfl⟩, ⟨_, 0, _, ⟨rfl, rfl⟩, ⟨r.matches_, _, 0, ⟨rfl, rfl⟩,
      ⟨rfl, rfl⟩, rfl⟩, rfl⟩, ?_⟩
    rw [zero_add, zero_add, add_zero, headerRuleCost]

theorem decodeCatu_counts (v : Value) : Counts limits (decodeCatu limits v) fun rs c =>
    v = .map (rs.map uriRuleEntry) ∧ c = (rs.map uriRuleCost).sum := by
  refine Counts.untagged ?_ (by rintro s c ⟨rfl, -⟩ t w; simp)
  cases v with
  | map es =>
    refine (Counts.traverse_exact decodeUriRule_counts es).congr fun rs c => ?_
    simp
  | _ => exact Counts.refuse fun x c h => absurd h.1 (by simp)

theorem decodeCath_counts (v : Value) : Counts limits (decodeCath limits v) fun rs c =>
    v = .map (rs.map headerRuleEntry) ∧ c = (rs.map headerRuleCost).sum := by
  refine Counts.untagged ?_ (by rintro s c ⟨rfl, -⟩ t w; simp)
  cases v with
  | map es =>
    refine (Counts.traverse_exact decodeHeaderRule_counts es).congr fun rs c => ?_
    simp
  | _ => exact Counts.refuse fun x c h => absurd h.1 (by simp)

end
end Cat
