import Cat.Lib.Cbor.Codec

/-!
# Values as they are read

A reader folds the bignum tags into the integers they spell, so a value that was read has
nothing left to fold: it reads back as itself. Such values are `Normal`, and so are the values
inside them.

A value that is written need not be normal. It may hold a tag 2 around a byte string, which is a
way of writing an integer, and comes back as the integer. `readBack` is what comes back, and it
is idempotent, which is what normality of what was read amounts to (`Codec.normal_of_read`). The
one step with something in it is a bignum with zeros in front: it is folded only after these are
dropped, and dropping them twice is dropping them once.

What a byte string denotes does not depend on the reader (`Denotes`); a written value's bytes
denote the value as it reads back. With it two readers can be compared that share nothing but
the grammar.
-/

set_option autoImplicit false

namespace Cbor

def Value.Normal (v : Value) : Prop := v.readBack = v

theorem toNat_dropWhile_zero (b : Bytes) :
    BigEndian.toNat (b.dropWhile (· == 0)) = BigEndian.toNat b := by
  induction b with
  | nil => rfl
  | cons a b ih =>
    rw [List.dropWhile_cons]
    split
    · rename_i h0
      obtain rfl : a = 0 := by simpa using h0
      rw [ih, BigEndian.toNat]
      simp
    · rfl

theorem dropWhile_zero_idem (b : Bytes) :
    (b.dropWhile (· == 0)).dropWhile (· == 0) = b.dropWhile (· == 0) := by
  induction b with
  | nil => rfl
  | cons a b ih =>
    rw [List.dropWhile_cons]
    split
    · exact ih
    · rename_i h0
      rw [List.dropWhile_cons, if_neg h0]

theorem Value.normal_tag_bytes_two (b : Bytes) : (Value.ofTag 2 (.bytes b)).Normal := by
  rw [Normal, ofTag]
  by_cases h : BigEndian.toNat b < 2 ^ 64
  · rw [dif_pos h]; rfl
  · rw [dif_neg h]
    show Value.ofTag 2 (.bytes (b.dropWhile (· == 0))) = _
    rw [ofTag, dif_neg (by rw [toNat_dropWhile_zero]; exact h), dropWhile_zero_idem]

theorem Value.normal_tag_bytes_three (b : Bytes) : (Value.ofTag 3 (.bytes b)).Normal := by
  rw [Normal, ofTag]
  by_cases h : BigEndian.toNat b < 2 ^ 64
  · rw [dif_pos h]; rfl
  · rw [dif_neg h]
    show Value.ofTag 3 (.bytes (b.dropWhile (· == 0))) = _
    rw [ofTag, dif_neg (by rw [toNat_dropWhile_zero]; exact h), dropWhile_zero_idem]

/-- What the reader makes of a tag is normal if the content is: an integer, or the tag as it was. -/
theorem Value.normal_ofTag (t : UInt64) {v : Value} (hv : v.Normal) : (Value.ofTag t v).Normal := by
  have hother : Value.ofTag t v = .tag t v → (Value.ofTag t v).Normal := by
    intro h
    rw [h, Normal, readBack, hv, h]
  cases v with
  | bytes b =>
    by_cases h2 : t = 2
    · subst h2; exact normal_tag_bytes_two b
    · by_cases h3 : t = 3
      · subst h3; exact normal_tag_bytes_three b
      · apply hother
        unfold ofTag
        split
        · exact absurd rfl h2
        · exact absurd rfl h3
        · rfl
  | _ =>
    apply hother
    unfold ofTag
    split
    · rename_i h; exact absurd h (by simp)
    · rename_i h; exact absurd h (by simp)
    · rfl

theorem Value.normal_array {vs : List Value} : (Value.array vs).Normal ↔ ∀ v ∈ vs, v.Normal := by
  rw [Normal, readBack, readBackList_eq, Value.array.injEq]
  induction vs with
  | nil => simp
  | cons v vs ih => rw [List.map_cons, List.cons.injEq, ih, List.forall_mem_cons, Normal]

theorem Value.normal_map {es : List (Value × Value)} :
    (Value.map es).Normal ↔ ∀ e ∈ es, e.1.Normal ∧ e.2.Normal := by
  rw [Normal, readBack, readBackEntries_eq, Value.map.injEq]
  induction es with
  | nil => simp
  | cons e es ih =>
    rw [List.map_cons, List.cons.injEq, ih, List.forall_mem_cons, Prod.ext_iff, Normal, Normal]

theorem Value.ofSimple_normal {n : Nat} {v : Value} (h : Value.ofSimple n = some v) : v.Normal := by
  unfold ofSimple at h
  split at h
  · obtain rfl := Option.some.inj h; rfl
  · obtain rfl := Option.some.inj h; rfl
  · obtain rfl := Option.some.inj h; rfl
  · obtain rfl := Option.some.inj h; rfl
  · exact absurd h (by simp)

mutual
/-- What an item denotes is normal. -/
theorem Item.value_normal : {x : Item} → {v : Value} → x.value = some v → v.Normal
  | .uint _, v, h | .nint _, v, h | .bytes _, v, h | .bytesIndef _, v, h | .half _, v, h
  | .single _, v, h | .double _, v, h => by
    obtain rfl := Option.some.inj h; rfl
  | .text _, v, h | .textIndef _, v, h => by
    obtain ⟨s, -, rfl⟩ := Option.map_eq_some_iff.mp h; rfl
  | .array _ xs, v, h | .arrayIndef xs, v, h => by
    obtain ⟨vs, hvs, rfl⟩ := Option.map_eq_some_iff.mp h
    exact Value.normal_array.mpr (Item.valueList_normal hvs)
  | .map _ es, v, h | .mapIndef es, v, h => by
    obtain ⟨vs, hvs, rfl⟩ := Option.map_eq_some_iff.mp h
    exact Value.normal_map.mpr (Item.valueEntries_normal hvs)
  | .tag _ x, v, h => by
    obtain ⟨w, hw, rfl⟩ := Option.map_eq_some_iff.mp h
    exact Value.normal_ofTag _ (Item.value_normal hw)
  | .simple n, v, h => by
    simp only [Item.value] at h
    exact Value.ofSimple_normal h
  | .simpleExt n, v, h => by
    simp only [Item.value] at h
    exact Value.ofSimple_normal h
theorem Item.valueList_normal : {xs : List Item} → {vs : List Value} →
    Item.valueList xs = some vs → ∀ v ∈ vs, v.Normal
  | [], vs, h => by obtain rfl := Option.some.inj h; simp
  | x :: xs, vs, h => by
    obtain ⟨v, hv, h⟩ := Option.bind_eq_some_iff.mp h
    obtain ⟨vs', hvs, rfl⟩ := Option.map_eq_some_iff.mp h
    exact List.forall_mem_cons.mpr ⟨Item.value_normal hv, Item.valueList_normal hvs⟩
theorem Item.valueEntries_normal : {xs : List (Item × Item)} → {es : List (Value × Value)} →
    Item.valueEntries xs = some es → ∀ e ∈ es, e.1.Normal ∧ e.2.Normal
  | [], es, h => by obtain rfl := Option.some.inj h; simp
  | (k, x) :: xs, es, h => by
    obtain ⟨kv, hk, h⟩ := Option.bind_eq_some_iff.mp h
    obtain ⟨v, hv, h⟩ := Option.bind_eq_some_iff.mp h
    obtain ⟨es', hes, rfl⟩ := Option.map_eq_some_iff.mp h
    exact List.forall_mem_cons.mpr
      ⟨⟨Item.value_normal hk, Item.value_normal hv⟩, Item.valueEntries_normal hes⟩
end

/-- **What is read reads back as itself.** -/
theorem Codec.normal_of_read (cod : Codec) {limit : Nat} {b r : Bytes} {v : Value}
    (h : cod.read limit b = .ok (v, r)) : v.Normal := by
  obtain ⟨x, -, hv, -⟩ := cod.read_sound h
  exact Item.value_normal hv

theorem Value.height_ofTag (t : UInt64) (v : Value) : (Value.ofTag t v).height ≤ 1 + v.height := by
  unfold ofTag
  split
  · dsimp only
    split
    · exact Nat.zero_le _
    · exact Nat.le_refl _
  · dsimp only
    split
    · exact Nat.zero_le _
    · exact Nat.le_refl _
  · exact Nat.le_refl _

mutual
/-- Folding tags makes a value no higher. -/
theorem Value.height_readBack : (v : Value) → v.readBack.height ≤ v.height
  | .tag t v => by
    have := Value.height_ofTag t v.readBack
    have := Value.height_readBack v
    rw [readBack, height]
    omega
  | .array vs => by
    have := Value.heightList_readBack vs
    rw [readBack, height, height]
    omega
  | .map es => by
    have := Value.heightEntries_readBack es
    rw [readBack, height, height]
    omega
  | .integer _ | .bytes _ | .float _ | .text _ | .bool _ | .null => Nat.le_refl _
theorem Value.heightList_readBack : (vs : List Value) →
    Value.heightList (Value.readBackList vs) ≤ Value.heightList vs
  | [] => Nat.le_refl _
  | v :: vs => by
    have := Value.height_readBack v
    have := Value.heightList_readBack vs
    rw [readBackList, heightList, heightList]
    omega
theorem Value.heightEntries_readBack : (es : List (Value × Value)) →
    Value.heightEntries (Value.readBackEntries es) ≤ Value.heightEntries es
  | [] => Nat.le_refl _
  | (k, v) :: es => by
    have := Value.height_readBack k
    have := Value.height_readBack v
    have := Value.heightEntries_readBack es
    rw [readBackEntries, heightEntries, heightEntries]
    omega
end

/-! ## What bytes denote -/

/-- The bytes are those of one well-formed item, and this is its value. -/
def Denotes (b : Bytes) (v : Value) : Prop := ∃ x : Item, x.WF ∧ x.value = some v ∧ b = x.wire

/-- Bytes denote one value, since they spell one item. -/
theorem Denotes.unique {b : Bytes} {v w : Value} (hv : Denotes b v) (hw : Denotes b w) :
    v = w := by
  obtain ⟨x, hx, hxv, rfl⟩ := hv
  obtain ⟨y, hy, hyw, hb⟩ := hw
  obtain ⟨rfl, -⟩ := Item.wire_inj hx hy (show x.wire ++ [] = y.wire ++ [] by rw [hb])
  exact Option.some.inj (hxv.symm.trans hyw)

theorem Codec.denotes_of_write (cod : Codec) {v : Value} {b : Bytes} (h : cod.write v = .ok b) :
    Denotes b v.readBack := by
  obtain ⟨x, hx, hb⟩ := cod.write_sound h
  exact ⟨x, hx.wf, Value.value_of_writtenAs hx, hb⟩

theorem Codec.denotes_of_read (cod : Codec) {limit : Nat} {v : Value} {b : Bytes}
    (h : cod.read limit b = .ok (v, [])) : Denotes b v := by
  obtain ⟨x, hx, hv, hb⟩ := cod.read_sound h
  exact ⟨x, hx, hv, by rw [hb, List.append_nil]⟩

end Cbor
