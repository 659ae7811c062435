import Cat.Lib.Cbor.Read
import Cat.Lib.Ieee754

/-!
# What CBOR items mean

The generic data model: `Value` is what a decoder hands to an application, `Item.value` the
value an item denotes. The two directions are deliberately not symmetric, because a decoder is
liberal and an encoder is not: every width, chunking and float format of a datum denotes the
same value, while `Value.WrittenAs` admits only the preferred serialization (§4.1) — shortest
arguments, definite lengths, any float format that is exact. `value_of_writtenAs` closes the
loop: what is written reads back, up to bignum tags, which the data model identifies with the
integers they spell.

`Value.readBack` is that identification. It is not the identity, so it stays in every statement
about what comes back from the wire, until a value is known to have no tags or none of the two
in question.

An item need not denote a value: text that is no UTF-8, a simple value the data model lacks.
`Item.value` is partial for this reason, and a decoder has nothing to return there.
-/

set_option autoImplicit false

namespace Cbor

/-! ## Text

Strings are Unicode text in the data model and bytes on the wire, and the two are related by
UTF-8 both ways.
-/

/-- A string as its UTF-8 bytes. -/
def utf8 (s : String) : Bytes := s.toByteArray.data.toList

/-- The string a byte string is the UTF-8 of, if it is one. -/
def ofUtf8? (b : Bytes) : Option String :=
  if h : (ByteArray.mk b.toArray).validateUTF8 = true then
    some (String.ofByteArray ⟨b.toArray⟩ (ByteArray.validateUTF8_eq_true_iff.mp h))
  else none

theorem ofUtf8?_eq_some {b : Bytes} {s : String} : ofUtf8? b = some s ↔ b = utf8 s := by
  unfold ofUtf8? utf8
  constructor
  · intro h
    split at h
    · simp only [Option.some.injEq] at h
      subst h
      simp
    · simp at h
  · rintro rfl
    have hs : ByteArray.mk s.toByteArray.data.toList.toArray = s.toByteArray := by simp
    simp only [hs]
    rw [dif_pos (ByteArray.validateUTF8_eq_true_iff.mpr s.isValidUTF8)]

@[simp] theorem ofUtf8?_utf8 (s : String) : ofUtf8? (utf8 s) = some s := ofUtf8?_eq_some.mpr rfl

theorem utf8_inj {s t : String} (h : utf8 s = utf8 t) : s = t := by
  have := ofUtf8?_utf8 s
  rw [h, ofUtf8?_utf8] at this
  exact (Option.some.inj this).symm

/-! ## Values

What an item denotes, by recursion on the item. It is a function, so bytes that are one item
denote one value at most.
-/

/-- The integers of major types 0 and 1. -/
@[ext] structure Integer where
  val : Int
  lo : -2 ^ 64 ≤ val
  hi : val < 2 ^ 64
  deriving DecidableEq

def Integer.ofNat (n : Nat) (h : n < 2 ^ 64) : Integer := ⟨n, by omega, by omega⟩
def Integer.ofNeg (n : Nat) (h : n < 2 ^ 64) : Integer := ⟨-1 - n, by omega, by omega⟩

/-- The integer a machine integer is. -/
def Integer.ofI64 (n : Int64) : Integer :=
  ⟨n.toInt, by have := n.le_toInt; omega, by have := n.toInt_lt; omega⟩

def Integer.toI64? (i : Integer) : Option Int64 :=
  if -2 ^ 63 ≤ i.val ∧ i.val < 2 ^ 63 then some (Int64.ofInt i.val) else none

def Integer.toI32? (i : Integer) : Option Int32 :=
  if -2 ^ 31 ≤ i.val ∧ i.val < 2 ^ 31 then some (Int32.ofInt i.val) else none

def Integer.toU32? (i : Integer) : Option UInt32 :=
  if 0 ≤ i.val ∧ i.val < 2 ^ 32 then some (UInt32.ofNat i.val.toNat) else none

def Integer.toU64? (i : Integer) : Option UInt64 :=
  if 0 ≤ i.val then some (UInt64.ofNat i.val.toNat) else none

theorem Integer.toI64?_eq_some {i : Integer} {n : Int64} :
    i.toI64? = some n ↔ i.val = n.toInt := by
  unfold Integer.toI64?
  have hlo := n.le_toInt
  have hhi := n.toInt_lt
  constructor
  · intro h
    split at h
    · rename_i hr
      rw [← Option.some.inj h, Int64.toInt_ofInt_of_le hr.1 hr.2]
    · simp at h
  · intro h
    rw [if_pos (by omega), h, Int64.ofInt_toInt]

@[simp] theorem Integer.toI64?_ofI64 (n : Int64) : (Integer.ofI64 n).toI64? = some n :=
  Integer.toI64?_eq_some.mpr rfl

/-- A value of the generic data model. -/
inductive Value where
  | integer (i : Integer)
  | bytes (b : Bytes)
  | float (f : F64)
  | text (s : String)
  | bool (b : Bool)
  | null
  | tag (t : UInt64) (v : Value)
  | array (vs : List Value)
  | map (es : List (Value × Value))

/-- A tagged value, with the bignum tags 2 and 3 (§3.4.3) folded into the integers they
    spell when these fit, and their leading zeros dropped when they do not. -/
def Value.ofTag (t : UInt64) (v : Value) : Value :=
  match t, v with
  | 2, .bytes b =>
    let n := BigEndian.toNat b
    if h : n < 2 ^ 64 then .integer (.ofNat n h) else .tag 2 (.bytes (b.dropWhile (· == 0)))
  | 3, .bytes b =>
    let n := BigEndian.toNat b
    if h : n < 2 ^ 64 then .integer (.ofNeg n h) else .tag 3 (.bytes (b.dropWhile (· == 0)))
  | t, v => .tag t v

/-- The simple values that have a meaning; `undefined` is read as `null`. -/
def Value.ofSimple : Nat → Option Value
  | 20 => some (.bool false)
  | 21 => some (.bool true)
  | 22 => some .null
  | 23 => some .null
  | _ => none

mutual
/-- The value an item denotes. -/
def Item.value : Item → Option Value
  | .uint a => some (.integer (.ofNat a.val a.val_lt))
  | .nint a => some (.integer (.ofNeg a.val a.val_lt))
  | .bytes c => some (.bytes c.data)
  | .bytesIndef cs => some (.bytes (cs.flatMap Chunk.data))
  | .text c => (ofUtf8? c.data).map .text
  | .textIndef cs => (ofUtf8? (cs.flatMap Chunk.data)).map .text
  | .array _ xs | .arrayIndef xs => (Item.valueList xs).map .array
  | .map _ es | .mapIndef es => (Item.valueEntries es).map .map
  | .tag a x => x.value.map (.ofTag (UInt64.ofNat a.val))
  | .simple n => Value.ofSimple n.val
  | .simpleExt n => Value.ofSimple n.toNat
  | .half b => some (.float (.ofHalf b))
  | .single b => some (.float (.ofSingle b))
  | .double b => some (.float ⟨b⟩)
def Item.valueList : List Item → Option (List Value)
  | [] => some []
  | x :: xs => x.value.bind fun v => (Item.valueList xs).map (v :: ·)
def Item.valueEntries : List (Item × Item) → Option (List (Value × Value))
  | [] => some []
  | (k, v) :: es =>
    k.value.bind fun kv => v.value.bind fun vv => (Item.valueEntries es).map ((kv, vv) :: ·)
end

/-! ## Writing

Which items a value may be written as. It is a relation, for the sake of floats.
-/

mutual
/-- The items a value may be written as: the preferred serialization. -/
def Value.WrittenAs : Value → Item → Prop
  | .integer i, x =>
    x = if 0 ≤ i.val then .uint (.ofNat i.val.toNat) else .nint (.ofNat (-1 - i.val).toNat)
  | .bytes b, x => ∃ h, x = .bytes ⟨.ofNat b.length, b, h⟩
  | .float f, x =>
    x = .double f.bits ∨ (∃ b, x = .single b ∧ F64.ofSingle b = f) ∨
      ∃ b, x = .half b ∧ F64.ofHalf b = f
  | .text s, x => ∃ h, x = .text ⟨.ofNat (utf8 s).length, utf8 s, h⟩
  | .bool b, x => x = .simple (if b then 21 else 20)
  | .null, x => x = .simple 22
  | .tag t v, x => ∃ y, x = .tag (.ofNat t.toNat) y ∧ v.WrittenAs y
  | .array vs, x =>
    ∃ xs, x = .array (.ofNat vs.length) xs ∧ vs.length < 2 ^ 64 ∧ Value.WrittenAsList vs xs
  | .map es, x =>
    ∃ xs, x = .map (.ofNat es.length) xs ∧ es.length < 2 ^ 64 ∧ Value.WrittenAsEntries es xs
def Value.WrittenAsList : List Value → List Item → Prop
  | [], xs => xs = []
  | v :: vs, xs => ∃ y ys, xs = y :: ys ∧ v.WrittenAs y ∧ Value.WrittenAsList vs ys
def Value.WrittenAsEntries : List (Value × Value) → List (Item × Item) → Prop
  | [], xs => xs = []
  | (k, v) :: es, xs =>
    ∃ y z ys, xs = (y, z) :: ys ∧ k.WrittenAs y ∧ v.WrittenAs z ∧ Value.WrittenAsEntries es ys
end

mutual
/-- How deep containers and tags nest in a value. -/
def Value.height : Value → Nat
  | .array vs => 1 + Value.heightList vs
  | .map es => 1 + Value.heightEntries es
  | .tag _ v => 1 + v.height
  | _ => 0
def Value.heightList : List Value → Nat
  | [] => 0
  | v :: vs => max v.height (Value.heightList vs)
def Value.heightEntries : List (Value × Value) → Nat
  | [] => 0
  | (k, v) :: es => max (max k.height v.height) (Value.heightEntries es)
end

mutual
/-- A value as it reads back: bignum tags folded. -/
def Value.readBack : Value → Value
  | .tag t v => .ofTag t v.readBack
  | .array vs => .array (Value.readBackList vs)
  | .map es => .map (Value.readBackEntries es)
  | v => v
def Value.readBackList : List Value → List Value
  | [] => []
  | v :: vs => v.readBack :: Value.readBackList vs
def Value.readBackEntries : List (Value × Value) → List (Value × Value)
  | [] => []
  | (k, v) :: es => (k.readBack, v.readBack) :: Value.readBackEntries es
end

theorem Value.heightList_le {vs : List Value} {n : Nat} :
    Value.heightList vs ≤ n ↔ ∀ v ∈ vs, v.height ≤ n := by
  induction vs with
  | nil => simp [Value.heightList]
  | cons v vs ih => simp [Value.heightList, ih]

theorem Value.height_array {vs : List Value} {n : Nat} (h : ∀ v ∈ vs, v.height ≤ n) :
    (Value.array vs).height ≤ n + 1 := by
  rw [Value.height, Nat.add_comm]
  exact Nat.add_le_add_right (Value.heightList_le.mpr h) 1

theorem Value.heightEntries_le {es : List (Value × Value)} {n : Nat} :
    Value.heightEntries es ≤ n ↔ ∀ e ∈ es, e.1.height ≤ n ∧ e.2.height ≤ n := by
  induction es with
  | nil => simp [Value.heightEntries]
  | cons e es ih => simp [Value.heightEntries, ih, and_assoc]

theorem Value.readBackEntries_eq (es : List (Value × Value)) :
    Value.readBackEntries es = es.map fun e => (e.1.readBack, e.2.readBack) := by
  induction es with
  | nil => rfl
  | cons e es ih => simp only [Value.readBackEntries, List.map_cons, ih]

theorem Value.readBackList_eq (vs : List Value) :
    Value.readBackList vs = vs.map Value.readBack := by
  induction vs with
  | nil => rfl
  | cons v vs ih => simp only [Value.readBackList, List.map_cons, ih]

theorem Value.WrittenAsEntries.length {es : List (Value × Value)} {xs : List (Item × Item)}
    (h : Value.WrittenAsEntries es xs) : xs.length = es.length := by
  induction es generalizing xs with
  | nil => simp only [Value.WrittenAsEntries] at h; subst h; rfl
  | cons e es ih =>
    obtain ⟨y, z, ys, rfl, -, -, hes⟩ := h
    simp [ih hes]

theorem Value.WrittenAsList.length {vs : List Value} {xs : List Item}
    (h : Value.WrittenAsList vs xs) : xs.length = vs.length := by
  induction vs generalizing xs with
  | nil => simp only [Value.WrittenAsList] at h; subst h; rfl
  | cons v vs ih =>
    obtain ⟨y, ys, rfl, -, hvs⟩ := h
    simp [ih hvs]

mutual
/-- A written item is well formed. -/
theorem Value.WrittenAs.wf : {v : Value} → {x : Item} → v.WrittenAs x → x.WF
  | .integer i, x, h => by
    simp only [Value.WrittenAs] at h; subst h; split <;> trivial
  | .bytes b, x, h => by obtain ⟨-, rfl⟩ := h; trivial
  | .float f, x, h => by
    rcases h with rfl | ⟨b, rfl, -⟩ | ⟨b, rfl, -⟩ <;> trivial
  | .text s, x, h => by obtain ⟨-, rfl⟩ := h; trivial
  | .bool b, x, h => by simp only [Value.WrittenAs] at h; subst h; trivial
  | .null, x, h => by simp only [Value.WrittenAs] at h; subst h; trivial
  | .tag t v, x, h => by
    obtain ⟨y, rfl, hy⟩ := h
    rw [Item.WF]; exact Value.WrittenAs.wf hy
  | .array vs, x, h => by
    obtain ⟨xs, rfl, hlen, hxs⟩ := h
    exact ⟨by rw [Arg.val_ofNat hlen, hxs.length], Value.WrittenAsList.wf hxs⟩
  | .map es, x, h => by
    obtain ⟨xs, rfl, hlen, hxs⟩ := h
    exact ⟨by rw [Arg.val_ofNat hlen, hxs.length], Value.WrittenAsEntries.wf hxs⟩
theorem Value.WrittenAsList.wf :
    {vs : List Value} → {xs : List Item} → Value.WrittenAsList vs xs → Item.WFList xs
  | [], xs, h => by simp only [Value.WrittenAsList] at h; subst h; trivial
  | v :: vs, xs, h => by
    obtain ⟨y, ys, rfl, hy, hys⟩ := h
    exact ⟨Value.WrittenAs.wf hy, Value.WrittenAsList.wf hys⟩
theorem Value.WrittenAsEntries.wf : {es : List (Value × Value)} → {xs : List (Item × Item)} →
    Value.WrittenAsEntries es xs → Item.WFEntries xs
  | [], xs, h => by simp only [Value.WrittenAsEntries] at h; subst h; trivial
  | (k, v) :: es, xs, h => by
    obtain ⟨y, z, ys, rfl, hy, hz, hys⟩ := h
    exact ⟨⟨Value.WrittenAs.wf hy, Value.WrittenAs.wf hz⟩, Value.WrittenAsEntries.wf hys⟩
end

mutual
/-- A written item nests as deep as the value. -/
theorem Value.WrittenAs.height : {v : Value} → {x : Item} → v.WrittenAs x → x.height = v.height
  | .integer i, x, h => by
    simp only [Value.WrittenAs] at h; subst h; split <;> rfl
  | .bytes b, x, h => by obtain ⟨-, rfl⟩ := h; rfl
  | .float f, x, h => by
    rcases h with rfl | ⟨b, rfl, -⟩ | ⟨b, rfl, -⟩ <;> rfl
  | .text s, x, h => by obtain ⟨-, rfl⟩ := h; rfl
  | .bool b, x, h => by simp only [Value.WrittenAs] at h; subst h; rfl
  | .null, x, h => by simp only [Value.WrittenAs] at h; subst h; rfl
  | .tag t v, x, h => by
    obtain ⟨y, rfl, hy⟩ := h
    simp only [Item.height, Value.height, Value.WrittenAs.height hy]
  | .array vs, x, h => by
    obtain ⟨xs, rfl, hlen, hxs⟩ := h
    simp only [Item.height, Value.height, Value.WrittenAsList.height hxs]
  | .map es, x, h => by
    obtain ⟨xs, rfl, hlen, hxs⟩ := h
    simp only [Item.height, Value.height, Value.WrittenAsEntries.height hxs]
theorem Value.WrittenAsList.height : {vs : List Value} → {xs : List Item} →
    Value.WrittenAsList vs xs → Item.heightList xs = Value.heightList vs
  | [], xs, h => by simp only [Value.WrittenAsList] at h; subst h; rfl
  | v :: vs, xs, h => by
    obtain ⟨y, ys, rfl, hy, hys⟩ := h
    simp only [Item.heightList, Value.heightList, Value.WrittenAs.height hy,
      Value.WrittenAsList.height hys]
theorem Value.WrittenAsEntries.height : {es : List (Value × Value)} → {xs : List (Item × Item)} →
    Value.WrittenAsEntries es xs → Item.heightEntries xs = Value.heightEntries es
  | [], xs, h => by simp only [Value.WrittenAsEntries] at h; subst h; rfl
  | (k, v) :: es, xs, h => by
    obtain ⟨y, z, ys, rfl, hy, hz, hys⟩ := h
    simp only [Item.heightEntries, Value.heightEntries, Value.WrittenAs.height hy,
      Value.WrittenAs.height hz, Value.WrittenAsEntries.height hys]
end

mutual
/-- **What is written reads back.** -/
theorem Value.value_of_writtenAs :
    {v : Value} → {x : Item} → v.WrittenAs x → x.value = some v.readBack
  | .integer i, x, h => by
    simp only [Value.WrittenAs] at h
    obtain ⟨n, lo, hi⟩ := i
    subst h
    split
    · rename_i h0
      simp only at h0
      simp only [Item.value, Value.readBack, Integer.ofNat, Option.some.injEq,
        Value.integer.injEq, Integer.mk.injEq]
      rw [Arg.val_ofNat (by omega)]; omega
    · rename_i h0
      simp only at h0
      simp only [Item.value, Value.readBack, Integer.ofNeg, Option.some.injEq,
        Value.integer.injEq, Integer.mk.injEq]
      rw [Arg.val_ofNat (by omega)]; omega
  | .bytes b, x, h => by obtain ⟨-, rfl⟩ := h; rfl
  | .float f, x, h => by
    rcases h with rfl | ⟨b, rfl, rfl⟩ | ⟨b, rfl, rfl⟩ <;> rfl
  | .text s, x, h => by
    obtain ⟨-, rfl⟩ := h
    simp only [Item.value, Value.readBack, ofUtf8?_utf8, Option.map_some]
  | .bool b, x, h => by
    simp only [Value.WrittenAs] at h; subst h; cases b <;> rfl
  | .null, x, h => by simp only [Value.WrittenAs] at h; subst h; rfl
  | .tag t v, x, h => by
    obtain ⟨y, rfl, hy⟩ := h
    have ht : UInt64.ofNat (Arg.ofNat t.toNat).val = t := by
      rw [Arg.val_ofNat t.toNat_lt, UInt64.ofNat_toNat]
    simp only [Item.value, Value.readBack, Value.value_of_writtenAs hy, ht, Option.map_some]
  | .array vs, x, h => by
    obtain ⟨xs, rfl, hlen, hxs⟩ := h
    simp only [Item.value, Value.readBack, Value.valueList_of_writtenAs hxs, Option.map_some]
  | .map es, x, h => by
    obtain ⟨xs, rfl, hlen, hxs⟩ := h
    simp only [Item.value, Value.readBack, Value.valueEntries_of_writtenAs hxs, Option.map_some]
theorem Value.valueList_of_writtenAs : {vs : List Value} → {xs : List Item} →
    Value.WrittenAsList vs xs → Item.valueList xs = some (Value.readBackList vs)
  | [], xs, h => by simp only [Value.WrittenAsList] at h; subst h; rfl
  | v :: vs, xs, h => by
    obtain ⟨y, ys, rfl, hy, hys⟩ := h
    simp only [Item.valueList, Value.readBackList, Value.value_of_writtenAs hy,
      Value.valueList_of_writtenAs hys, Option.bind_some, Option.map_some]
theorem Value.valueEntries_of_writtenAs : {es : List (Value × Value)} →
    {xs : List (Item × Item)} → Value.WrittenAsEntries es xs →
      Item.valueEntries xs = some (Value.readBackEntries es)
  | [], xs, h => by simp only [Value.WrittenAsEntries] at h; subst h; rfl
  | (k, v) :: es, xs, h => by
    obtain ⟨y, z, ys, rfl, hy, hz, hys⟩ := h
    simp only [Item.valueEntries, Value.readBackEntries, Value.value_of_writtenAs hy,
      Value.value_of_writtenAs hz, Value.valueEntries_of_writtenAs hys, Option.bind_some,
      Option.map_some]
end

end Cbor
