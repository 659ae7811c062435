import Cat.Lib.Cbor.Codec

/-!
# Data takes room

A byte string inside a value is no longer than the item that spells the value, and a map inside
a map takes two bytes an entry. Neither is about what is read or written: both say that CBOR
does not compress, so a bound on the input is a bound on everything that is in it.

The first is wanted where an inner part of a message is compared in length with the whole, as a
payload with the message that carries it; the second where a limit on bytes has to bound a
number of entries. Both are by induction on the items, of which an indefinite string is made of
several (`Chunk`), and are then read off for what a codec reads and writes.
-/

set_option autoImplicit false

namespace Cbor

theorem Chunk.length_le_wire (c : Chunk) (major : Nat) : c.data.length ≤ (c.wire major).length := by
  rw [Chunk.wire, List.length_append]
  exact Nat.le_add_left _ _

theorem Chunk.length_flatMap_le (cs : List Chunk) (major : Nat) :
    (cs.flatMap Chunk.data).length ≤ (cs.flatMap (Chunk.wire major)).length := by
  induction cs with
  | nil => exact Nat.le_refl _
  | cons c cs ih =>
    rw [List.flatMap_cons, List.flatMap_cons, List.length_append, List.length_append]
    exact Nat.add_le_add (c.length_le_wire major) ih

/-- A folded tag is an integer or another tag. -/
theorem Value.ofTag_eq (t : UInt64) (v : Value) :
    (∃ i, Value.ofTag t v = .integer i) ∨ (∃ b, Value.ofTag t v = .tag t (.bytes b)) ∨
      Value.ofTag t v = .tag t v := by
  unfold Value.ofTag
  split
  · dsimp only
    split
    · exact .inl ⟨_, rfl⟩
    · exact .inr (.inl ⟨_, rfl⟩)
  · dsimp only
    split
    · exact .inl ⟨_, rfl⟩
    · exact .inr (.inl ⟨_, rfl⟩)
  · exact .inr (.inr rfl)

theorem Value.ofSimple_eq {n : Nat} {v : Value} (h : Value.ofSimple n = some v) :
    (∃ b, v = .bool b) ∨ v = .null := by
  unfold Value.ofSimple at h
  split at h
  · exact .inl ⟨_, (Option.some.inj h).symm⟩
  · exact .inl ⟨_, (Option.some.inj h).symm⟩
  · exact .inr (Option.some.inj h).symm
  · exact .inr (Option.some.inj h).symm
  · cases h

/-- A string is spelled by its bytes and a header, in one piece or in several. -/
theorem Item.length_of_bytes {x : Item} {d : Bytes} (h : x.value = some (.bytes d)) :
    d.length ≤ x.wire.length := by
  cases x with
  | bytes c =>
    obtain rfl := Value.bytes.inj (Option.some.inj h)
    exact c.length_le_wire 2
  | bytesIndef cs =>
    obtain rfl := Value.bytes.inj (Option.some.inj h)
    have hle := Chunk.length_flatMap_le cs 2
    rw [Item.wire, List.length_cons, List.length_append]
    omega
  | tag a y =>
    obtain ⟨v, -, hv⟩ := Option.map_eq_some_iff.mp h
    rcases Value.ofTag_eq (UInt64.ofNat a.val) v with ⟨i, hi⟩ | ⟨b, hb⟩ | ht
    · cases hi.symm.trans hv
    · cases hb.symm.trans hv
    · cases ht.symm.trans hv
  | simple n => rcases Value.ofSimple_eq h with ⟨b, hb⟩ | hb <;> cases hb
  | simpleExt n => rcases Value.ofSimple_eq h with ⟨b, hb⟩ | hb <;> cases hb
  | _ => simp [Item.value] at h

theorem Item.mem_of_valueList {xs : List Item} {vs : List Value} {v : Value}
    (h : Item.valueList xs = some vs) (hv : v ∈ vs) :
    ∃ x ∈ xs, x.value = some v ∧ x.wire.length ≤ (Item.wireList xs).length := by
  induction xs generalizing vs with
  | nil =>
    obtain rfl := Option.some.inj h
    exact absurd hv List.not_mem_nil
  | cons x xs ih =>
    obtain ⟨w, hw, hws⟩ := Option.bind_eq_some_iff.mp h
    obtain ⟨ws, htail, rfl⟩ := Option.map_eq_some_iff.mp hws
    rw [Item.wireList, List.length_append]
    rcases List.mem_cons.mp hv with rfl | hv
    · exact ⟨x, List.mem_cons_self, hw, Nat.le_add_right _ _⟩
    · obtain ⟨y, hy, hyv, hle⟩ := ih htail hv
      exact ⟨y, List.mem_cons_of_mem _ hy, hyv, Nat.le_trans hle (Nat.le_add_left _ _)⟩

/-- An element of an array is inside the array's item. Arrays inside tags are unfolded first, since
    a tag is an item of its own. -/
theorem Item.length_of_array {x : Item} {vs : List Value} {d : Bytes}
    (h : x.value = some (.array vs)) (hd : .bytes d ∈ vs) : d.length ≤ x.wire.length := by
  have hlist : ∀ xs, (Item.valueList xs).map Value.array = some (.array vs) →
      d.length ≤ (Item.wireList xs).length := by
    intro xs hxs
    obtain ⟨ws, hws, heq⟩ := Option.map_eq_some_iff.mp hxs
    obtain rfl := Value.array.inj heq
    obtain ⟨y, -, hy, hle⟩ := Item.mem_of_valueList hws hd
    exact Nat.le_trans (Item.length_of_bytes hy) hle
  cases x with
  | array a xs =>
    have hle := hlist xs h
    rw [Item.wire, List.length_append]
    exact Nat.le_trans hle (Nat.le_add_left _ _)
  | arrayIndef xs =>
    have hle := hlist xs h
    rw [Item.wire, List.length_cons, List.length_append]
    omega
  | tag a y =>
    obtain ⟨v, -, hv⟩ := Option.map_eq_some_iff.mp h
    rcases Value.ofTag_eq (UInt64.ofNat a.val) v with ⟨i, hi⟩ | ⟨b, hb⟩ | ht
    · cases hi.symm.trans hv
    · cases hb.symm.trans hv
    · cases ht.symm.trans hv
  | simple n => rcases Value.ofSimple_eq h with ⟨b, hb⟩ | hb <;> cases hb
  | simpleExt n => rcases Value.ofSimple_eq h with ⟨b, hb⟩ | hb <;> cases hb
  | _ => simp [Item.value] at h

theorem Item.length_of_tagged {x : Item} {t : UInt64} {vs : List Value} {d : Bytes}
    (h : x.value = some (.tag t (.array vs))) (hd : .bytes d ∈ vs) : d.length ≤ x.wire.length := by
  cases x with
  | tag a y =>
    obtain ⟨v, hy, hv⟩ := Option.map_eq_some_iff.mp h
    rcases Value.ofTag_eq (UInt64.ofNat a.val) v with ⟨i, hi⟩ | ⟨b, hb⟩ | ht
    · cases hi.symm.trans hv
    · cases hb.symm.trans hv
    · obtain ⟨-, rfl⟩ := Value.tag.inj (ht.symm.trans hv)
      rw [Item.wire, List.length_append]
      exact Nat.le_trans (Item.length_of_array hy hd) (Nat.le_add_left _ _)
  | simple n => rcases Value.ofSimple_eq h with ⟨b, hb⟩ | hb <;> cases hb
  | simpleExt n => rcases Value.ofSimple_eq h with ⟨b, hb⟩ | hb <;> cases hb
  | _ => simp [Item.value] at h

/-- A byte string of a tagged array is no longer than the input it was read from. -/
theorem Codec.length_of_tagged (cod : Codec) {limit : Nat} {b r : Bytes} {t : UInt64}
    {vs : List Value} {d : Bytes} (h : cod.read limit b = .ok (.tag t (.array vs), r))
    (hd : .bytes d ∈ vs) : d.length ≤ b.length := by
  obtain ⟨x, -, hx, rfl⟩ := cod.read_sound h
  rw [List.length_append]
  exact Nat.le_trans (Item.length_of_tagged hx hd) (Nat.le_add_right _ _)

/-! ## Entries -/

theorem Item.wire_pos (x : Item) : 0 < x.wire.length := by
  cases x <;> simp [Item.wire, Chunk.wire, head]

/-- A key and a value take at least a byte each. -/
theorem Value.WrittenAsEntries.length_le {es : List (Value × Value)} {xs : List (Item × Item)}
    (h : Value.WrittenAsEntries es xs) : 2 * es.length ≤ (Item.wireEntries xs).length := by
  induction es generalizing xs with
  | nil => exact Nat.zero_le _
  | cons e es ih =>
    obtain ⟨y, z, ys, rfl, -, -, hys⟩ := h
    have hy := y.wire_pos
    have hz := z.wire_pos
    have hrest := ih hys
    rw [Item.wireEntries, List.length_append, List.length_append, List.length_cons]
    omega

theorem Value.WrittenAsEntries.mem {es : List (Value × Value)} {xs : List (Item × Item)}
    (h : Value.WrittenAsEntries es xs) {k v : Value} (he : (k, v) ∈ es) :
    ∃ x, v.WrittenAs x ∧ x.wire.length ≤ (Item.wireEntries xs).length := by
  induction es generalizing xs with
  | nil => exact absurd he List.not_mem_nil
  | cons e es ih =>
    obtain ⟨y, z, ys, rfl, -, hz, hys⟩ := h
    rw [Item.wireEntries, List.length_append, List.length_append]
    rcases List.mem_cons.mp he with rfl | he
    · exact ⟨z, hz, by omega⟩
    · obtain ⟨x, hx, hle⟩ := ih hys he
      exact ⟨x, hx, Nat.le_trans hle (Nat.le_add_left _ _)⟩

/-- A map inside a map takes two bytes an entry. -/
theorem Codec.entries_le (cod : Codec) {es es' : List (Value × Value)} {k : Value} {b : Bytes}
    (h : cod.write (.map es) = .ok b) (he : (k, .map es') ∈ es) : 2 * es'.length ≤ b.length := by
  obtain ⟨x, ⟨xs, rfl, -, hxs⟩, rfl⟩ := cod.write_sound h
  obtain ⟨y, ⟨ys, rfl, -, hys⟩, hle⟩ := hxs.mem he
  have hlen := hys.length_le
  rw [Item.wire, List.length_append] at hle ⊢
  omega

end Cbor
