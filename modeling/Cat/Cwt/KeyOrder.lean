import Cat.Cwt.DecodeSpec
import Cat.Lib.Cbor.KeyOrder

/-!
# Canonical key order

`cbor_canonical_key_cmp` compares labels without encoding them. What it decides is the order of
their encodings (`cborCanonicalKeyCmp_eq`), so what `sort_integer_keyed_map` sorts by it is in
the order that deterministic encoding asks for, and entries with one label stay as they were.

The order in question is that of RFC 8949: the encoded keys, compared byte by byte. For integers
it is the order of the absolute values in either sign, and no negative key comes before one that
is not, which is what the function computes with. That the two agree is a fact about the
encoding of numbers, proved in `Lib.Cbor.KeyOrder` for any pair of integers and used here at
machine integers.

Sorting is stable in Rust and here. It matters for keys that occur twice: the function does not
remove them, and which of two values comes first is what a reader sees that takes the first one.
-/

set_option autoImplicit false

namespace Cat

open Cbor

/-- The shortest encoding of a label. -/
def encodedKey (n : Int64) : Bytes := (Integer.ofI64 n).wire

/-- It is what the encoder writes for the label, -/
theorem wire_eq_encodedKey {n : Int64} {x : Item} (h : (i64Value n).WrittenAs x) :
    x.wire = encodedKey n :=
  Integer.wire_of_writtenAs h

/-- and no other encoding of it is shorter. -/
theorem encodedKey_shortest {n : Int64} {x : Item} {a : Arg} (ha : x = .uint a ∨ x = .nint a)
    (hx : x.value = some (i64Value n)) : (encodedKey n).length ≤ x.wire.length :=
  Integer.length_wire_le ha hx

example : [23, 24, 256, -1, -25].map encodedKey =
    [[0x17], [0x18, 24], [0x19, 1, 0], [0x20], [0x38, 24]] := by decide +kernel

/-- **The comparison is that of the encodings.** -/
theorem cborCanonicalKeyCmp_eq (a b : Int64) :
    cborCanonicalKeyCmp a b = compare (encodedKey a) (encodedKey b) := by
  have ha : (Integer.ofI64 a).val = a.toInt := rfl
  have hb : (Integer.ofI64 b).val = b.toInt := rfl
  have hlo := a.le_toInt
  have hhi := a.toInt_lt
  have hlo' := b.le_toInt
  have hhi' := b.toInt_lt
  unfold encodedKey
  rw [Integer.compare_wire, cborCanonicalKeyCmp, Integer.rank, Integer.rank, ha, hb]
  by_cases h : 0 ≤ a.toInt
  · by_cases h' : 0 ≤ b.toInt
    · rw [decide_eq_true h, decide_eq_true h', if_pos h, if_pos h']
    · rw [decide_eq_true h, decide_eq_false h', if_pos h, if_neg h']
      exact (compare_lt_iff_lt.mpr (by omega)).symm
  · by_cases h' : 0 ≤ b.toInt
    · rw [decide_eq_false h, decide_eq_true h', if_neg h, if_pos h']
      exact (compare_gt_iff_gt.mpr (by omega)).symm
    · rw [decide_eq_false h, decide_eq_false h', if_neg h, if_neg h']
      apply compare_congr
      · omega
      · omega

/-! ## Sorting -/

/-- An entry under a label. -/
def keyedBy (e : Int64 × Value) : Value × Value := (i64Value e.1, e.2)

/-- `sort_integer_keyed_map`, on the labels themselves. -/
def sortKeyed (es : List (Int64 × Value)) : List (Int64 × Value) :=
  es.mergeSort fun a b => cborCanonicalKeyCmp a.1 b.1 ≠ .gt

theorem sortIntegerKeyedMap_keyed (es : List (Int64 × Value)) :
    sortIntegerKeyedMap (es.map keyedBy) = (sortKeyed es).map keyedBy := by
  have hkey : ∀ n, integerSortKey (i64Value n) = n := by
    intro n
    show (Integer.ofI64 n).toI64?.getD _ = n
    rw [Integer.toI64?_ofI64, Option.getD_some]
  unfold sortIntegerKeyedMap sortKeyed
  rw [List.map_mergeSort]
  intro a _ b _
  rw [keyedBy, keyedBy, hkey, hkey]

section
variable {es : List (Int64 × Value)}

/-- Not after, in the order of the labels' ranks. -/
theorem notAfter_iff {a b : Int64} :
    decide (cborCanonicalKeyCmp a b ≠ .gt) = true ↔ labelRank a ≤ labelRank b := by
  rw [decide_eq_true_iff, ne_eq, cborCanonicalKeyCmp_eq_gt, not_lt]

theorem notAfter_trans (a b c : Int64 × Value)
    (hab : decide (cborCanonicalKeyCmp a.1 b.1 ≠ .gt) = true)
    (hbc : decide (cborCanonicalKeyCmp b.1 c.1 ≠ .gt) = true) :
    decide (cborCanonicalKeyCmp a.1 c.1 ≠ .gt) = true :=
  notAfter_iff.mpr ((notAfter_iff.mp hab).trans (notAfter_iff.mp hbc))

theorem notAfter_total (a b : Int64 × Value) :
    (decide (cborCanonicalKeyCmp a.1 b.1 ≠ .gt) ||
      decide (cborCanonicalKeyCmp b.1 a.1 ≠ .gt)) = true := by
  rw [Bool.or_eq_true, notAfter_iff, notAfter_iff]
  exact le_total _ _

/-- **Entries of one label keep their order.** -/
theorem filter_sortKeyed (id : Int64) :
    (sortKeyed es).filter (·.1 == id) = es.filter (·.1 == id) := by
  have hsame : (es.filter (·.1 == id)).Pairwise fun a b =>
      decide (cborCanonicalKeyCmp a.1 b.1 ≠ .gt) = true := by
    apply List.pairwise_of_forall_mem_list
    intro a ha b hb
    rw [notAfter_iff, eq_of_beq (List.mem_filter.mp ha).2, eq_of_beq (List.mem_filter.mp hb).2]
  have hsub : (es.filter (·.1 == id)).Sublist (sortKeyed es) :=
    List.sublist_mergeSort notAfter_trans notAfter_total hsame List.filter_sublist
  have hfilter := hsub.filter (·.1 == id)
  rw [List.filter_filter] at hfilter
  simp only [Bool.and_self] at hfilter
  exact (hfilter.eq_of_length
    ((List.mergeSort_perm es _).filter (·.1 == id)).length_eq.symm).symm

end

/-- **Canonical key order**: the comparison is bytewise on the shortest encodings, and sorting by
    it is a stable permutation into that order.

    The comparison encodes nothing; it looks at the sign and then at the magnitude. It is the order
    of the encodings because a smaller argument never has the greater head. -/
theorem canonicalKeyOrder :
    (∀ a b : Int64, cborCanonicalKeyCmp a b = compare (encodedKey a) (encodedKey b)) ∧
      ∀ es : List (Int64 × Value), ∃ sorted : List (Int64 × Value),
        sortIntegerKeyedMap (es.map keyedBy) = sorted.map keyedBy ∧ sorted.Perm es ∧
          (sorted.Pairwise fun a b => compare (encodedKey a.1) (encodedKey b.1) ≠ .gt) ∧
          ∀ id, sorted.filter (·.1 == id) = es.filter (·.1 == id) := by
  refine ⟨cborCanonicalKeyCmp_eq, ?_⟩
  intro es
  refine ⟨sortKeyed es, sortIntegerKeyedMap_keyed es, List.mergeSort_perm es _, ?_,
    filter_sortKeyed⟩
  apply (List.pairwise_mergeSort notAfter_trans notAfter_total es).imp
  intro a b hab
  rw [← cborCanonicalKeyCmp_eq]
  exact of_decide_eq_true hab

end Cat
