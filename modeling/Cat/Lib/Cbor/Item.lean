import Cat.Lib.BigEndian
import Mathlib.Data.List.Basic
import Mathlib.Tactic.Ring

/-!
# CBOR data items, as they stand on the wire

The wire grammar of RFC 8949 as a tree: an `Item` remembers everything the encoding chose and
the value forgets — how wide an argument was written, whether a length was definite, how a
string was chunked, which float format was used. `Item.wire` spells an item out; nothing here
says what an item *means* (that is `Cbor.Value`).

What a type can carry, it carries: an argument is the bytes it was written in (`Arg`), a
string's length prefix agrees with its data (`Chunk.len`). The one thing left over is that a
definite container holds as many items as it announces, which a nested inductive type cannot
state about itself; that is `Item.WF`.

A grammar and not a parser, because three readers go over the same bytes in this development:
the library, a cursor that skips items, and whoever measures nesting. Each of them is compared
with the tree. What two of them make of one input can then be compared as well, with no third
account of the bytes.
-/

set_option autoImplicit false

namespace Cbor

abbrev Bytes := List UInt8

instance neZero_immediates : NeZero 24 := ⟨by decide⟩

/-! ## Heads -/

/-- The argument of a head (§3): in the initial byte, or in the 1, 2, 4 or 8 bytes
    that follow it. Nothing makes the width minimal. -/
inductive Arg where
  | imm (n : Fin 24)
  | w1 (n : UInt8)
  | w2 (n : UInt16)
  | w4 (n : UInt32)
  | w8 (n : UInt64)
  deriving DecidableEq

/-- The number an argument stands for. -/
def Arg.val : Arg → Nat
  | .imm n => n.val
  | .w1 n => n.toNat
  | .w2 n => n.toNat
  | .w4 n => n.toNat
  | .w8 n => n.toNat

/-- The additional-information bits that announce it. -/
def Arg.ai : Arg → Nat
  | .imm n => n.val
  | .w1 _ => 24
  | .w2 _ => 25
  | .w4 _ => 26
  | .w8 _ => 27

/-- The bytes after the initial one. -/
def Arg.tail : Arg → Bytes
  | .imm _ => []
  | .w1 n => BigEndian.ofNat 1 n.toNat
  | .w2 n => BigEndian.ofNat 2 n.toNat
  | .w4 n => BigEndian.ofNat 4 n.toNat
  | .w8 n => BigEndian.ofNat 8 n.toNat

theorem Arg.ai_lt (a : Arg) : a.ai < 28 := by
  cases a with
  | imm n => exact Nat.lt_trans n.isLt (by decide)
  | w1 | w2 | w4 | w8 => simp only [Arg.ai]; decide

theorem Arg.val_lt (a : Arg) : a.val < 2 ^ 64 := by
  cases a with
  | imm n => have := n.isLt; simp only [Arg.val]; omega
  | w1 n => have := n.toNat_lt; simp only [Arg.val]; omega
  | w2 n => have := n.toNat_lt; simp only [Arg.val]; omega
  | w4 n => have := n.toNat_lt; simp only [Arg.val]; omega
  | w8 n => exact n.toNat_lt

/-- The preferred (shortest) argument for a number. -/
def Arg.ofNat (n : Nat) : Arg :=
  if h : n < 24 then .imm ⟨n, h⟩
  else if n < 2 ^ 8 then .w1 (UInt8.ofNat n)
  else if n < 2 ^ 16 then .w2 (UInt16.ofNat n)
  else if n < 2 ^ 32 then .w4 (UInt32.ofNat n)
  else .w8 (UInt64.ofNat n)

theorem Arg.val_ofNat {n : Nat} (h : n < 2 ^ 64) : (Arg.ofNat n).val = n := by
  unfold Arg.ofNat
  split
  · rfl
  · split
    · exact UInt8.toNat_ofNat_of_lt' ‹_›
    · split
      · exact UInt16.toNat_ofNat_of_lt' ‹_›
      · split
        · exact UInt32.toNat_ofNat_of_lt' ‹_›
        · exact UInt64.toNat_ofNat_of_lt' h

/-- The initial byte: three bits of major type, five of additional information. -/
def initial (major ai : Nat) : UInt8 := UInt8.ofNat (major * 32 + ai)

@[simp] theorem initial_toNat_div {major ai : Nat} (hm : major < 8) (ha : ai < 32) :
    (initial major ai).toNat / 32 = major := by
  rw [initial, UInt8.toNat_ofNat']; omega

@[simp] theorem initial_toNat_mod {major ai : Nat} (ha : ai < 32) :
    (initial major ai).toNat % 32 = ai := by
  rw [initial, UInt8.toNat_ofNat']; omega

theorem initial_of_toNat (b : UInt8) : initial (b.toNat / 32) (b.toNat % 32) = b := by
  rw [initial, Nat.div_add_mod', UInt8.ofNat_toNat]

/-- A head: major type and argument. -/
def head (major : Nat) (a : Arg) : Bytes := initial major a.ai :: a.tail

/-- The stop code that ends an item of indefinite length. -/
def brk : UInt8 := 0xff

/-! ## Items -/

/-- A definite-length string: the announced length is the length of the data. -/
structure Chunk where
  arg : Arg
  data : Bytes
  len : arg.val = data.length

def Chunk.wire (major : Nat) (c : Chunk) : Bytes := head major c.arg ++ c.data

/-- A data item, one constructor for each way the grammar has of writing one. -/
inductive Item where
  | uint (a : Arg)
  | nint (a : Arg)
  | bytes (c : Chunk)
  | bytesIndef (cs : List Chunk)
  | text (c : Chunk)
  | textIndef (cs : List Chunk)
  | array (a : Arg) (xs : List Item)
  | arrayIndef (xs : List Item)
  | map (a : Arg) (es : List (Item × Item))
  | mapIndef (es : List (Item × Item))
  | tag (a : Arg) (x : Item)
  | simple (n : Fin 24)
  | simpleExt (n : UInt8)
  | half (bits : UInt16)
  | single (bits : UInt32)
  | double (bits : UInt64)

mutual
/-- The bytes of an item. -/
def Item.wire : Item → Bytes
  | .uint a => head 0 a
  | .nint a => head 1 a
  | .bytes c => c.wire 2
  | .bytesIndef cs => initial 2 31 :: (cs.flatMap (Chunk.wire 2) ++ [brk])
  | .text c => c.wire 3
  | .textIndef cs => initial 3 31 :: (cs.flatMap (Chunk.wire 3) ++ [brk])
  | .array a xs => head 4 a ++ Item.wireList xs
  | .arrayIndef xs => initial 4 31 :: (Item.wireList xs ++ [brk])
  | .map a es => head 5 a ++ Item.wireEntries es
  | .mapIndef es => initial 5 31 :: (Item.wireEntries es ++ [brk])
  | .tag a x => head 6 a ++ x.wire
  | .simple n => head 7 (.imm n)
  | .simpleExt n => head 7 (.w1 n)
  | .half b => head 7 (.w2 b)
  | .single b => head 7 (.w4 b)
  | .double b => head 7 (.w8 b)
def Item.wireList : List Item → Bytes
  | [] => []
  | x :: xs => x.wire ++ Item.wireList xs
def Item.wireEntries : List (Item × Item) → Bytes
  | [] => []
  | (k, v) :: es => (k.wire ++ v.wire) ++ Item.wireEntries es
end

/-- Both items of a map entry. -/
def Item.wireEntry (e : Item × Item) : Bytes := e.1.wire ++ e.2.wire

theorem Item.wireList_eq (xs : List Item) : Item.wireList xs = xs.flatMap Item.wire := by
  induction xs with
  | nil => rfl
  | cons x xs ih => simp only [Item.wireList, List.flatMap_cons, ih]

theorem Item.wireEntries_eq (es : List (Item × Item)) :
    Item.wireEntries es = es.flatMap Item.wireEntry := by
  induction es with
  | nil => rfl
  | cons e es ih => simp only [Item.wireEntries, List.flatMap_cons, Item.wireEntry, ih]

mutual
/-- Every definite container in the item holds as many items as it announces. -/
def Item.WF : Item → Prop
  | .array a xs => a.val = xs.length ∧ Item.WFList xs
  | .arrayIndef xs => Item.WFList xs
  | .map a es => a.val = es.length ∧ Item.WFEntries es
  | .mapIndef es => Item.WFEntries es
  | .tag _ x => x.WF
  | _ => True
def Item.WFList : List Item → Prop
  | [] => True
  | x :: xs => x.WF ∧ Item.WFList xs
def Item.WFEntries : List (Item × Item) → Prop
  | [] => True
  | (k, v) :: es => (k.WF ∧ v.WF) ∧ Item.WFEntries es
end

theorem Item.wfList_iff {xs : List Item} : Item.WFList xs ↔ ∀ x ∈ xs, x.WF := by
  induction xs with
  | nil => simp [Item.WFList]
  | cons x xs ih => simp [Item.WFList, ih]

theorem Item.wfEntries_iff {es : List (Item × Item)} :
    Item.WFEntries es ↔ ∀ e ∈ es, e.1.WF ∧ e.2.WF := by
  induction es with
  | nil => simp [Item.WFEntries]
  | cons e es ih => simp [Item.WFEntries, ih]

mutual
/-- How deep containers and tags nest in an item; map keys count like map values. -/
def Item.height : Item → Nat
  | .array _ xs | .arrayIndef xs => 1 + Item.heightList xs
  | .map _ es | .mapIndef es => 1 + Item.heightEntries es
  | .tag _ x => 1 + x.height
  | _ => 0
def Item.heightList : List Item → Nat
  | [] => 0
  | x :: xs => max x.height (Item.heightList xs)
def Item.heightEntries : List (Item × Item) → Nat
  | [] => 0
  | (k, v) :: es => max (max k.height v.height) (Item.heightEntries es)
end

theorem Item.heightList_le {xs : List Item} {n : Nat} :
    Item.heightList xs ≤ n ↔ ∀ x ∈ xs, x.height ≤ n := by
  induction xs with
  | nil => simp [Item.heightList]
  | cons x xs ih => simp [Item.heightList, ih]

theorem Item.heightEntries_le {es : List (Item × Item)} {n : Nat} :
    Item.heightEntries es ≤ n ↔ ∀ e ∈ es, e.1.height ≤ n ∧ e.2.height ≤ n := by
  induction es with
  | nil => simp [Item.heightEntries]
  | cons e es ih => simp [Item.heightEntries, ih, and_assoc]

/-- The major type in an item's initial byte. -/
def Item.major : Item → Nat
  | .uint _ => 0
  | .nint _ => 1
  | .bytes _ | .bytesIndef _ => 2
  | .text _ | .textIndef _ => 3
  | .array _ _ | .arrayIndef _ => 4
  | .map _ _ | .mapIndef _ => 5
  | .tag _ _ => 6
  | .simple _ | .simpleExt _ | .half _ | .single _ | .double _ => 7

theorem Item.major_lt (x : Item) : x.major < 8 := by
  cases x <;> simp [Item.major]

/-- An item spends at least its initial byte, and that byte is not the stop code: this is
    what lets a reader tell another item from the end of an indefinite container. -/
theorem Item.wire_cons (x : Item) :
    ∃ ai t, ai < 32 ∧ ¬(x.major = 7 ∧ ai = 31) ∧ x.wire = initial x.major ai :: t := by
  have hhead (m : Nat) (a : Arg) (t : Bytes) :
      ∃ ai t', ai < 32 ∧ ¬(m = 7 ∧ ai = 31) ∧ head m a ++ t = initial m ai :: t' :=
    have := a.ai_lt
    ⟨a.ai, a.tail ++ t, by omega, by omega, rfl⟩
  cases x with
  | uint a => simpa [Item.wire, Item.major] using hhead 0 a []
  | nint a => simpa [Item.wire, Item.major] using hhead 1 a []
  | bytes c => exact hhead 2 c.arg c.data
  | bytesIndef cs => exact ⟨31, _, by decide, by simp [Item.major], rfl⟩
  | text c => exact hhead 3 c.arg c.data
  | textIndef cs => exact ⟨31, _, by decide, by simp [Item.major], rfl⟩
  | array a xs => exact hhead 4 a _
  | arrayIndef xs => exact ⟨31, _, by decide, by simp [Item.major], rfl⟩
  | map a es => exact hhead 5 a _
  | mapIndef es => exact ⟨31, _, by decide, by simp [Item.major], rfl⟩
  | tag a x => exact hhead 6 a _
  | simple n => simpa [Item.wire, Item.major] using hhead 7 (.imm n) []
  | simpleExt n => simpa [Item.wire, Item.major] using hhead 7 (.w1 n) []
  | half b => simpa [Item.wire, Item.major] using hhead 7 (.w2 b) []
  | single b => simpa [Item.wire, Item.major] using hhead 7 (.w4 b) []
  | double b => simpa [Item.wire, Item.major] using hhead 7 (.w8 b) []

theorem initial_ne_brk {major ai : Nat} (hm : major < 8) (ha : ai < 32)
    (h : ¬(major = 7 ∧ ai = 31)) : initial major ai ≠ brk := by
  intro he
  have hd := congrArg (fun b => b.toNat / 32) he
  have hr := congrArg (fun b => b.toNat % 32) he
  simp only [initial_toNat_div hm ha, initial_toNat_mod ha] at hd hr
  exact h ⟨hd.trans (by decide), hr.trans (by decide)⟩

theorem Item.wire_ne_brk (x : Item) : ∃ b t, x.wire = b :: t ∧ b ≠ brk := by
  obtain ⟨ai, t, ha, hne, h⟩ := x.wire_cons
  exact ⟨_, t, h, initial_ne_brk x.major_lt ha hne⟩

theorem Chunk.wire_ne_brk {major : Nat} (hm : major < 8) (c : Chunk) :
    ∃ b t, c.wire major = b :: t ∧ b ≠ brk := by
  have := c.arg.ai_lt
  exact ⟨_, _, rfl, initial_ne_brk hm (by omega) (by omega)⟩

end Cbor
