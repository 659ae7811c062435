import Mathlib.Algebra.BigOperators.Fin
import Mathlib.Algebra.Order.BigOperators.Group.Finset
import Mathlib.Data.Set.Card
import Mathlib.Order.Interval.Finset.Fin

/-!
# Bounded sets of keys

An operation on states that hold a set of keys (`BoundedSet`): it accepts a key that is admitted,
is not held and finds room, and holds it then; else it refuses and the set stays. What else the
operation is given, and what else a state holds, plays no part in that. The bound is an `ℕ∞`, so
that a store without a limit is one of these.

Two runs of such an operation need not take the keys in the same order to end with the same set.
What was refused once is refused again when more keys are held (`BoundedSet.Accepts.mono`, read
the other way), and a key that is held at the end found room when it was entered
(`BoundedSet.Accepts.of_mem`). These two are what a reordering of a run needs.

The room may be divided among shards: so many slots to each, and every key in a shard of its own.
`Shards.sum_shares` says that nothing is lost in the division and `Shards.sum_length_eq_card` that
no key is counted twice.
-/

set_option autoImplicit false

/-! ## Insert if absent -/

namespace BoundedSet

variable {κ : Type}

/-- A set of held keys has a place for this one. -/
@[mk_iff accepts_iff_parts]
structure Accepts (admits : κ → Prop) (limit : ℕ∞) (held : Set κ) (k : κ) : Prop where
  admitted : admits k
  fresh : k ∉ held
  room : held.encard < limit

variable {admits : κ → Prop} {limit : ℕ∞} {held held' : Set κ} {k : κ}

/-- With fewer keys held there is still a place. -/
theorem Accepts.mono (h : Accepts admits limit held k) (hle : held' ⊆ held) :
    Accepts admits limit held' k where
  admitted := h.admitted
  fresh hk := h.fresh (hle hk)
  room := (Set.encard_le_encard hle).trans_lt h.room

/-- With the key entered the bound is kept. -/
theorem Accepts.encard_insert_le (h : Accepts admits limit held k) :
    (insert k held).encard ≤ limit := by
  rw [Set.encard_insert_of_notMem h.fresh]
  exact Order.add_one_le_of_lt h.room

/-- A key of a set within the bound has a place among the others. -/
theorem Accepts.of_mem (hadmits : admits k) (hk : k ∉ held) (hmem : k ∈ held')
    (hle : held ⊆ held') (hbound : held'.encard ≤ limit) (hfinite : held.Finite) :
    Accepts admits limit held k where
  admitted := hadmits
  fresh := hk
  room := by
    have hinsert : (insert k held).encard ≤ limit :=
      (Set.encard_le_encard (Set.insert_subset hmem hle)).trans hbound
    rw [Set.encard_insert_of_notMem hk] at hinsert
    exact (ENat.lt_add_one_iff (Set.encard_ne_top_iff.mpr hfinite)).mpr le_rfl |>.trans_le hinsert

end BoundedSet

/-- States that hold a bounded set of keys, and the operation that enters one. -/
structure BoundedSet {σ α κ β ε : Type} (valid : σ → Prop) (keys : σ → Set κ)
    (admits : κ → Prop) (limit : ℕ∞) (op : α → κ → β → σ → Except ε Unit × σ) : Prop where
  accepts_iff : ∀ a k b {s}, valid s →
    ((op a k b s).1 = .ok () ↔ BoundedSet.Accepts admits limit (keys s) k)
  accepted : ∀ a k b {s}, valid s → (op a k b s).1 = .ok () →
    keys (op a k b s).2 = insert k (keys s)
  refused : ∀ a k b {s e}, valid s → (op a k b s).1 = .error e → keys (op a k b s).2 = keys s
  valid_next : ∀ a k b {s}, valid s → valid (op a k b s).2
  finite : ∀ {s}, valid s → (keys s).Finite

/-! ## Shards -/

namespace Shards

/-- Shares of a total, the first ones taking one more: nothing is left over. -/
theorem sum_shares {n : Nat} (total : Nat) (hn : 0 < n) :
    ∑ i : Fin n, (total / n + if i.val < total % n then 1 else 0) = total := by
  have hlarger : ∑ i : Fin n, (if i.val < total % n then 1 else 0) = total % n := by
    rw [Finset.sum_boole, Fin.card_filter_val_lt, Nat.min_eq_right (Nat.mod_lt total hn).le]
    rfl
  rw [Finset.sum_add_distrib, hlarger, Finset.sum_const, Finset.card_univ, Fintype.card_fin,
    smul_eq_mul, Nat.div_add_mod]

/-- No key is counted twice: it is once in its shard, and in no other. -/
theorem sum_length_eq_card {ι κ : Type} [Fintype ι] [DecidableEq ι] [DecidableEq κ]
    {keys : ι → List κ} {home : κ → ι} (hnodup : ∀ i, (keys i).Nodup)
    (hown : ∀ i, ∀ k ∈ keys i, home k = i) :
    ∑ i, (keys i).length = (Finset.univ.biUnion fun i => (keys i).toFinset).card := by
  have hdisjoint : ∀ i ∈ Finset.univ, ∀ j ∈ Finset.univ, i ≠ j →
      Disjoint (keys i).toFinset (keys j).toFinset := by
    intro i _ j _ hij
    rw [Finset.disjoint_left]
    intro k hi hj
    apply hij
    rw [← hown i k (List.mem_toFinset.mp hi), hown j k (List.mem_toFinset.mp hj)]
  rw [Finset.card_biUnion hdisjoint]
  apply Finset.sum_congr rfl
  intro i _
  exact (List.toFinset_card_of_nodup (hnodup i)).symm

end Shards
