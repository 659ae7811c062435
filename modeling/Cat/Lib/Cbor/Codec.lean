import Cat.Lib.Cbor.Value

/-!
# CBOR implementations

`Codec` is a CBOR library as an application meets it — a reader with a recursion limit that
leaves the bytes after the item, and a writer — together with what the standard promises of it:
a value that is returned is denoted by the bytes consumed, a value is written in a preferred
serialization, and within the limit what was written is read. A codec is free to refuse whatever
it likes.

The laws are stated through `Item`, the wire grammar, and not through a second codec. So they
say what bytes mean and leave open how a library gets there: which of several encodings of a
float it prefers, when it gives up, what it says then. An application that is verified against
`Codec` is verified against any library with these laws.

`Codec.reference` is one, built from the reader of `Cbor.Read`; it is what concrete byte strings
are run through. It is also what shows that the laws can be met.
-/

set_option autoImplicit false

namespace Cbor

structure Codec where
  /-- The first value of the input, read with the given recursion limit, and the rest of
      the input. -/
  read : Nat → Bytes → Except String (Value × Bytes)
  write : Value → Except String Bytes
  read_sound : ∀ {limit : Nat} {b r : Bytes} {v : Value}, read limit b = .ok (v, r) →
    ∃ x : Item, x.WF ∧ x.value = some v ∧ b = x.wire ++ r
  write_sound : ∀ {v : Value} {b : Bytes}, write v = .ok b →
    ∃ x : Item, v.WrittenAs x ∧ b = x.wire
  read_written : ∀ {limit : Nat} {v : Value} {b : Bytes}, write v = .ok b →
    v.height < limit → read limit b = .ok (v.readBack, [])

namespace Codec

/-- Reading what was written can only return what was written: the encoding is a prefix
    code, so this needs no promise from the reader beyond soundness. -/
theorem read_of_write (cod : Codec) {limit : Nat} {v w : Value} {b r : Bytes}
    (hw : cod.write v = .ok b) (hr : cod.read limit b = .ok (w, r)) :
    w = v.readBack ∧ r = [] := by
  obtain ⟨x, hx, rfl⟩ := cod.write_sound hw
  obtain ⟨y, hy, hval, hb⟩ := cod.read_sound hr
  obtain ⟨rfl, rfl⟩ := Item.wire_inj hx.wf hy (by rw [List.append_nil]; exact hb)
  rw [Value.value_of_writtenAs hx, Option.some.injEq] at hval
  exact ⟨hval.symm, rfl⟩

end Codec

/-! ## A reference implementation -/

/-- A definite-length string of this data, if its length fits an argument. -/
def Chunk.ofData? (b : Bytes) : Option Chunk :=
  if h : b.length < 2 ^ 64 then some ⟨.ofNat b.length, b, Arg.val_ofNat h⟩ else none

mutual
/-- The preferred serialization with every float written as a double. -/
def Value.toItem? : Value → Option Item
  | .integer i =>
    some (if 0 ≤ i.val then .uint (.ofNat i.val.toNat) else .nint (.ofNat (-1 - i.val).toNat))
  | .bytes b => (Chunk.ofData? b).map .bytes
  | .float f => some (.double f.bits)
  | .text s => (Chunk.ofData? (utf8 s)).map .text
  | .bool b => some (.simple (if b then 21 else 20))
  | .null => some (.simple 22)
  | .tag t v => v.toItem?.map (.tag (.ofNat t.toNat))
  | .array vs =>
    if vs.length < 2 ^ 64 then (Value.toItems? vs).map (.array (.ofNat vs.length)) else none
  | .map es =>
    if es.length < 2 ^ 64 then (Value.toEntries? es).map (.map (.ofNat es.length)) else none
def Value.toItems? : List Value → Option (List Item)
  | [] => some []
  | v :: vs => v.toItem?.bind fun x => (Value.toItems? vs).map (x :: ·)
def Value.toEntries? : List (Value × Value) → Option (List (Item × Item))
  | [] => some []
  | (k, v) :: es =>
    k.toItem?.bind fun x => v.toItem?.bind fun y => (Value.toEntries? es).map ((x, y) :: ·)
end

theorem Chunk.ofData?_some {b : Bytes} {c : Chunk} (h : Chunk.ofData? b = some c) :
    ∃ hl, c = ⟨.ofNat b.length, b, hl⟩ := by
  unfold Chunk.ofData? at h
  split at h
  · exact ⟨_, (Option.some.inj h).symm⟩
  · simp at h

mutual
theorem Value.writtenAs_toItem : {v : Value} → {x : Item} → v.toItem? = some x → v.WrittenAs x
  | .integer i, x, h => (Option.some.inj h).symm
  | .bytes b, x, h => by
    simp only [Value.toItem?, Option.map_eq_some_iff] at h
    obtain ⟨c, hc, rfl⟩ := h
    obtain ⟨hl, rfl⟩ := Chunk.ofData?_some hc
    exact ⟨hl, rfl⟩
  | .float f, x, h => .inl (Option.some.inj h).symm
  | .text s, x, h => by
    simp only [Value.toItem?, Option.map_eq_some_iff] at h
    obtain ⟨c, hc, rfl⟩ := h
    obtain ⟨hl, rfl⟩ := Chunk.ofData?_some hc
    exact ⟨hl, rfl⟩
  | .bool b, x, h => (Option.some.inj h).symm
  | .null, x, h => (Option.some.inj h).symm
  | .tag t v, x, h => by
    simp only [Value.toItem?, Option.map_eq_some_iff] at h
    obtain ⟨y, hy, rfl⟩ := h
    exact ⟨y, rfl, Value.writtenAs_toItem hy⟩
  | .array vs, x, h => by
    simp only [Value.toItem?] at h
    split at h
    · simp only [Option.map_eq_some_iff] at h
      obtain ⟨xs, hxs, rfl⟩ := h
      exact ⟨xs, rfl, ‹_›, Value.writtenAs_toItems hxs⟩
    · simp at h
  | .map es, x, h => by
    simp only [Value.toItem?] at h
    split at h
    · simp only [Option.map_eq_some_iff] at h
      obtain ⟨xs, hxs, rfl⟩ := h
      exact ⟨xs, rfl, ‹_›, Value.writtenAs_toEntries hxs⟩
    · simp at h
theorem Value.writtenAs_toItems : {vs : List Value} → {xs : List Item} →
    Value.toItems? vs = some xs → Value.WrittenAsList vs xs
  | [], xs, h => (Option.some.inj h).symm
  | v :: vs, xs, h => by
    simp only [Value.toItems?, Option.bind_eq_some_iff, Option.map_eq_some_iff] at h
    obtain ⟨y, hy, ys, hys, rfl⟩ := h
    exact ⟨y, ys, rfl, Value.writtenAs_toItem hy, Value.writtenAs_toItems hys⟩
theorem Value.writtenAs_toEntries : {es : List (Value × Value)} → {xs : List (Item × Item)} →
    Value.toEntries? es = some xs → Value.WrittenAsEntries es xs
  | [], xs, h => (Option.some.inj h).symm
  | (k, v) :: es, xs, h => by
    simp only [Value.toEntries?, Option.bind_eq_some_iff, Option.map_eq_some_iff] at h
    obtain ⟨y, hy, z, hz, ys, hys, rfl⟩ := h
    exact ⟨y, z, ys, rfl, Value.writtenAs_toItem hy, Value.writtenAs_toItem hz,
      Value.writtenAs_toEntries hys⟩
end

namespace Codec

def referenceRead (limit : Nat) (b : Bytes) : Except String (Value × Bytes) :=
  match readItem (limit + 1) b with
  | none => .error "syntax error"
  | some (x, r) =>
    match x.value with
    | none => .error "semantic error"
    | some v => .ok (v, r)

def referenceWrite (v : Value) : Except String Bytes :=
  match v.toItem? with
  | none => .error "value too large"
  | some x => .ok x.wire

theorem referenceRead_eq_ok {limit : Nat} {b r : Bytes} {v : Value} :
    referenceRead limit b = .ok (v, r) ↔
      ∃ x, readItem (limit + 1) b = some (x, r) ∧ x.value = some v := by
  unfold referenceRead
  cases h : readItem (limit + 1) b with
  | none => simp
  | some p =>
    obtain ⟨x, t⟩ := p
    dsimp only
    cases hv : x.value with
    | none =>
      simp only [Option.some.injEq, Prod.mk.injEq, reduceCtorEq, false_iff]
      rintro ⟨y, ⟨rfl, -⟩, hy⟩
      exact absurd hy (by simp [hv])
    | some w =>
      simp only [Except.ok.injEq, Prod.mk.injEq, Option.some.injEq]
      constructor
      · rintro ⟨rfl, rfl⟩; exact ⟨x, ⟨rfl, rfl⟩, hv⟩
      · rintro ⟨y, ⟨rfl, rfl⟩, hy⟩; rw [hv] at hy; exact ⟨Option.some.inj hy, rfl⟩

theorem referenceWrite_eq_ok {v : Value} {b : Bytes} :
    referenceWrite v = .ok b ↔ ∃ x, v.toItem? = some x ∧ b = x.wire := by
  unfold referenceWrite
  cases h : v.toItem? with
  | none => simp
  | some x => simp [eq_comm]

/-- The codec that reads every item its grammar has a value for. -/
def reference : Codec where
  read := referenceRead
  write := referenceWrite
  read_sound h := by
    obtain ⟨x, hx, hv⟩ := referenceRead_eq_ok.mp h
    obtain ⟨hwf, hb⟩ := readItem_sound hx
    exact ⟨x, hwf, hv, hb⟩
  write_sound h := by
    obtain ⟨x, hx, hb⟩ := referenceWrite_eq_ok.mp h
    exact ⟨x, Value.writtenAs_toItem hx, hb⟩
  read_written := by
    intro limit v b h hlim
    obtain ⟨x, hx, rfl⟩ := referenceWrite_eq_ok.mp h
    have hw := Value.writtenAs_toItem hx
    have hread := readItem_complete hw.wf (d := limit + 1) (by rw [hw.height]; omega) []
    rw [List.append_nil] at hread
    exact referenceRead_eq_ok.mpr ⟨x, hread, Value.value_of_writtenAs hw⟩

end Codec
end Cbor
