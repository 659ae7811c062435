import Cat.Lib.Cbor.Size

/-!
# What can be written, and in how many ways

A value can be written when its strings and containers are no longer than an argument can say. A
codec that `WritesAll` refuses no other value, and the reference codec is one. Only a float can
be written in more than one way.

A law of `Codec` says what is written, if anything is. Where a result needs that something is,
it takes `WritesAll`, and where it needs that two codecs write the same it asks for values
without floats: the preferred serialization of everything else is unique
(`Value.WrittenAs.unique`), by induction on the value, with its lists and entries.
-/

set_option autoImplicit false

namespace Cbor

/-! ## What can be written -/

def Value.Writable (v : Value) : Prop := ∃ x, v.WrittenAs x

theorem Value.writableList {vs : List Value} :
    (∃ xs, Value.WrittenAsList vs xs) ↔ ∀ v ∈ vs, v.Writable := by
  induction vs with
  | nil => simp [WrittenAsList]
  | cons v vs ih =>
    rw [List.forall_mem_cons, ← ih]
    constructor
    · rintro ⟨_, y, ys, -, hy, hys⟩
      exact ⟨⟨y, hy⟩, ys, hys⟩
    · rintro ⟨⟨y, hy⟩, ys, hys⟩
      exact ⟨y :: ys, y, ys, rfl, hy, hys⟩

theorem Value.writableEntries {es : List (Value × Value)} :
    (∃ xs, Value.WrittenAsEntries es xs) ↔ ∀ e ∈ es, e.1.Writable ∧ e.2.Writable := by
  induction es with
  | nil => simp [WrittenAsEntries]
  | cons e es ih =>
    rw [List.forall_mem_cons, ← ih]
    constructor
    · rintro ⟨_, y, z, ys, -, hy, hz, hys⟩
      exact ⟨⟨⟨y, hy⟩, z, hz⟩, ys, hys⟩
    · rintro ⟨⟨⟨y, hy⟩, z, hz⟩, ys, hys⟩
      exact ⟨(y, z) :: ys, y, z, ys, rfl, hy, hz, hys⟩

theorem Value.writable_array {vs : List Value} :
    (Value.array vs).Writable ↔ vs.length < 2 ^ 64 ∧ ∀ v ∈ vs, v.Writable := by
  rw [← writableList]
  constructor
  · rintro ⟨_, xs, -, hlen, hxs⟩
    exact ⟨hlen, xs, hxs⟩
  · rintro ⟨hlen, xs, hxs⟩
    exact ⟨_, xs, rfl, hlen, hxs⟩

theorem Value.writable_map {es : List (Value × Value)} :
    (Value.map es).Writable ↔ es.length < 2 ^ 64 ∧ ∀ e ∈ es, e.1.Writable ∧ e.2.Writable := by
  rw [← writableEntries]
  constructor
  · rintro ⟨_, xs, -, hlen, hxs⟩
    exact ⟨hlen, xs, hxs⟩
  · rintro ⟨hlen, xs, hxs⟩
    exact ⟨_, xs, rfl, hlen, hxs⟩

theorem Value.writable_integer (i : Integer) : (Value.integer i).Writable := ⟨_, rfl⟩

theorem Value.writable_bytes {b : Bytes} : (Value.bytes b).Writable ↔ b.length < 2 ^ 64 := by
  constructor
  · rintro ⟨_, h, -⟩
    rw [← h]
    exact Arg.val_lt _
  · exact fun h => ⟨_, Arg.val_ofNat h, rfl⟩

theorem Value.writable_text {s : String} : (Value.text s).Writable ↔ (utf8 s).length < 2 ^ 64 := by
  constructor
  · rintro ⟨_, h, -⟩
    rw [← h]
    exact Arg.val_lt _
  · exact fun h => ⟨_, Arg.val_ofNat h, rfl⟩

/-- The writer refuses only what cannot be written. -/
def Codec.WritesAll (cod : Codec) : Prop := ∀ {v : Value}, v.Writable → ∃ b, cod.write v = .ok b

theorem Codec.writable_of_write (cod : Codec) {v : Value} {b : Bytes} (h : cod.write v = .ok b) :
    v.Writable := by
  obtain ⟨x, hx, -⟩ := cod.write_sound h
  exact ⟨x, hx⟩

theorem Chunk.ofData?_isSome {b : Bytes} (h : b.length < 2 ^ 64) :
    ∃ c, Chunk.ofData? b = some c := by
  unfold Chunk.ofData?
  rw [dif_pos h]
  exact ⟨_, rfl⟩

mutual
/-- The preferred serialization of a value that has one. -/
theorem Value.toItem?_isSome : {v : Value} → {x : Item} → v.WrittenAs x → ∃ y, v.toItem? = some y
  | .integer i, x, _ => ⟨_, rfl⟩
  | .bytes b, x, h => by
    obtain ⟨c, hc⟩ := Chunk.ofData?_isSome (writable_bytes.mp ⟨x, h⟩)
    exact ⟨.bytes c, by rw [toItem?, hc]; rfl⟩
  | .float f, x, _ => ⟨_, rfl⟩
  | .text s, x, h => by
    obtain ⟨c, hc⟩ := Chunk.ofData?_isSome (writable_text.mp ⟨x, h⟩)
    exact ⟨.text c, by rw [toItem?, hc]; rfl⟩
  | .bool b, x, _ => ⟨_, rfl⟩
  | .null, x, _ => ⟨_, rfl⟩
  | .tag t v, x, h => by
    obtain ⟨y, -, hy⟩ := h
    obtain ⟨z, hz⟩ := Value.toItem?_isSome hy
    exact ⟨.tag (.ofNat t.toNat) z, by rw [toItem?, hz]; rfl⟩
  | .array vs, x, h => by
    obtain ⟨xs, -, hlen, hxs⟩ := h
    obtain ⟨ys, hys⟩ := Value.toItems?_isSome hxs
    exact ⟨.array (.ofNat vs.length) ys, by rw [toItem?, if_pos hlen, hys]; rfl⟩
  | .map es, x, h => by
    obtain ⟨xs, -, hlen, hxs⟩ := h
    obtain ⟨ys, hys⟩ := Value.toEntries?_isSome hxs
    exact ⟨.map (.ofNat es.length) ys, by rw [toItem?, if_pos hlen, hys]; rfl⟩
theorem Value.toItems?_isSome : {vs : List Value} → {xs : List Item} →
    Value.WrittenAsList vs xs → ∃ ys, Value.toItems? vs = some ys
  | [], xs, _ => ⟨[], rfl⟩
  | v :: vs, xs, h => by
    obtain ⟨y, ys, -, hy, hys⟩ := h
    obtain ⟨z, hz⟩ := Value.toItem?_isSome hy
    obtain ⟨zs, hzs⟩ := Value.toItems?_isSome hys
    exact ⟨z :: zs, by rw [toItems?, hz, hzs]; rfl⟩
theorem Value.toEntries?_isSome : {es : List (Value × Value)} → {xs : List (Item × Item)} →
    Value.WrittenAsEntries es xs → ∃ ys, Value.toEntries? es = some ys
  | [], xs, _ => ⟨[], rfl⟩
  | (k, v) :: es, xs, h => by
    obtain ⟨y, z, ys, -, hy, hz, hys⟩ := h
    obtain ⟨y', hy'⟩ := Value.toItem?_isSome hy
    obtain ⟨z', hz'⟩ := Value.toItem?_isSome hz
    obtain ⟨zs, hzs⟩ := Value.toEntries?_isSome hys
    exact ⟨(y', z') :: zs, by rw [toEntries?, hy', hz', hzs]; rfl⟩
end

/-- The reference writer writes all there is to write. -/
theorem Codec.reference_writesAll : Codec.reference.WritesAll := by
  rintro v ⟨x, hx⟩
  obtain ⟨y, hy⟩ := Value.toItem?_isSome hx
  exact ⟨y.wire, referenceWrite_eq_ok.mpr ⟨y, hy, rfl⟩⟩

/-! ## Values without floats -/

mutual
def Value.FloatFree : Value → Prop
  | .float _ => False
  | .tag _ v => v.FloatFree
  | .array vs => Value.FloatFreeList vs
  | .map es => Value.FloatFreeEntries es
  | _ => True
def Value.FloatFreeList : List Value → Prop
  | [] => True
  | v :: vs => v.FloatFree ∧ Value.FloatFreeList vs
def Value.FloatFreeEntries : List (Value × Value) → Prop
  | [] => True
  | (k, v) :: es => (k.FloatFree ∧ v.FloatFree) ∧ Value.FloatFreeEntries es
end

theorem Value.floatFreeEntries_iff {es : List (Value × Value)} :
    Value.FloatFreeEntries es ↔ ∀ e ∈ es, e.1.FloatFree ∧ e.2.FloatFree := by
  induction es with
  | nil => simp [FloatFreeEntries]
  | cons e es ih => rw [List.forall_mem_cons, ← ih, FloatFreeEntries]

mutual
/-- **A value without floats is written in one way.** -/
theorem Value.WrittenAs.unique : {v : Value} → {x y : Item} → v.FloatFree → v.WrittenAs x →
    v.WrittenAs y → x = y
  | .integer _, x, y, _, hx, hy | .bool _, x, y, _, hx, hy | .null, x, y, _, hx, hy =>
    Eq.trans hx (Eq.symm hy)
  | .bytes _, x, y, _, hx, hy | .text _, x, y, _, hx, hy => by
    obtain ⟨-, rfl⟩ := hx
    obtain ⟨-, rfl⟩ := hy
    rfl
  | .float _, x, y, hf, _, _ => hf.elim
  | .tag t v, x, y, hf, hx, hy => by
    obtain ⟨x', rfl, hx⟩ := hx
    obtain ⟨y', rfl, hy⟩ := hy
    rw [Value.WrittenAs.unique (v := v) hf hx hy]
  | .array vs, x, y, hf, hx, hy => by
    obtain ⟨xs, rfl, -, hxs⟩ := hx
    obtain ⟨ys, rfl, -, hys⟩ := hy
    rw [@Value.WrittenAsList.unique vs _ _ hf hxs hys]
  | .map es, x, y, hf, hx, hy => by
    obtain ⟨xs, rfl, -, hxs⟩ := hx
    obtain ⟨ys, rfl, -, hys⟩ := hy
    rw [@Value.WrittenAsEntries.unique es _ _ hf hxs hys]
theorem Value.WrittenAsList.unique : {vs : List Value} → {xs ys : List Item} →
    Value.FloatFreeList vs → Value.WrittenAsList vs xs → Value.WrittenAsList vs ys → xs = ys
  | [], xs, ys, _, hx, hy => Eq.trans hx (Eq.symm hy)
  | v :: vs, xs, ys, hf, hx, hy => by
    obtain ⟨x, xs', rfl, hx, hxs⟩ := hx
    obtain ⟨y, ys', rfl, hy, hys⟩ := hy
    rw [Value.WrittenAs.unique hf.1 hx hy, Value.WrittenAsList.unique hf.2 hxs hys]
theorem Value.WrittenAsEntries.unique : {es : List (Value × Value)} →
    {xs ys : List (Item × Item)} → Value.FloatFreeEntries es → Value.WrittenAsEntries es xs →
      Value.WrittenAsEntries es ys → xs = ys
  | [], xs, ys, _, hx, hy => Eq.trans hx (Eq.symm hy)
  | (k, v) :: es, xs, ys, hf, hx, hy => by
    obtain ⟨x, x', xs', rfl, hx, hx', hxs⟩ := hx
    obtain ⟨y, y', ys', rfl, hy, hy', hys⟩ := hy
    rw [Value.WrittenAs.unique hf.1.1 hx hy, Value.WrittenAs.unique hf.1.2 hx' hy',
      Value.WrittenAsEntries.unique hf.2 hxs hys]
end

/-! ## Members -/

/-- An element of an array takes up part of it. -/
theorem Value.WrittenAsList.mem {vs : List Value} {xs : List Item} (h : Value.WrittenAsList vs xs)
    {v : Value} (hv : v ∈ vs) :
    ∃ x, v.WrittenAs x ∧ x.wire.length ≤ (Item.wireList xs).length := by
  induction vs generalizing xs with
  | nil => exact absurd hv List.not_mem_nil
  | cons w vs ih =>
    obtain ⟨y, ys, rfl, hy, hys⟩ := h
    rw [Item.wireList, List.length_append]
    rcases List.mem_cons.mp hv with rfl | hv
    · exact ⟨y, hy, Nat.le_add_right _ _⟩
    · obtain ⟨x, hx, hle⟩ := ih hys hv
      exact ⟨x, hx, Nat.le_trans hle (Nat.le_add_left _ _)⟩

end Cbor
