import Cat.Lib.Lru
import Mathlib.Data.Finset.Card

/-!
# What keeps an entry from being evicted

An entry goes when the entries used since are as many as there is room for. So it is enough to
know which keys can have come before it (`Lru.Ahead`) to see that it is there, and which must
have (`Lru.Passed`) to see that it is gone. Each operation on another key adds that key to the
first, and entering one adds it to the second.

Both are sets of keys, so using a key twice counts once, and neither mentions the order in the
list. Between them is what a lookup leaves open: a lookup of a key that is not there moves
nothing, so the key is one that may have come before and not one that must have.

Over a run the sets grow by one operation at a time, and a statement about a whole run is their
cardinality against the capacity at its end.
-/

set_option autoImplicit false

namespace Lru

variable {κ ν : Type} {c : Lru κ ν} {k j : κ} {v w : ν} {U : Finset κ}

/-- The key has this value, and only these keys can have been used since. -/
def Ahead (c : Lru κ ν) (k : κ) (v : ν) (U : Finset κ) : Prop :=
  ∃ front back, c.entries = front ++ (k, v) :: back ∧ ∀ e ∈ front, e.1 ∈ U

/-- If the key is there, all of these have been used since. -/
def Passed (c : Lru κ ν) (k : κ) (U : Finset κ) : Prop :=
  ∀ v front back, c.entries = front ++ (k, v) :: back → ∀ j ∈ U, j ∈ front.map Prod.fst

theorem Ahead.mono {U' : Finset κ} (h : c.Ahead k v U) (hle : U ⊆ U') : c.Ahead k v U' := by
  obtain ⟨front, back, heq, hfront⟩ := h
  exact ⟨front, back, heq, fun e he => hle (hfront e he)⟩

theorem passed_empty (c : Lru κ ν) (k : κ) : c.Passed k ∅ := by
  intro v front back _ j hj
  exact absurd hj (Finset.notMem_empty j)

/-- The keys before one that is there are distinct, and fewer than there is room for. -/
theorem length_front_lt {front back : List (κ × ν)} (h : c.entries = front ++ (k, v) :: back) :
    front.length < c.cap := by
  have hlen := c.length_le
  rw [h, List.length_append, List.length_cons] at hlen
  omega

variable [DecidableEq κ]

/-! ## Still there -/

theorem Ahead.peek (h : c.Ahead k v U) : c.peek k = some v := by
  obtain ⟨front, back, heq, -⟩ := h
  rw [peek_eq_some, heq]
  exact List.mem_append_right front List.mem_cons_self

theorem ahead_put_self (hcap : 0 < c.cap) (U : Finset κ) : (c.put k v).Ahead k v U := by
  obtain ⟨n, hn⟩ := Nat.exists_eq_succ_of_ne_zero (Nat.pos_iff_ne_zero.mp hcap)
  refine ⟨[], (c.entries.filter fun e => e.1 != k).take n, ?_, by simp⟩
  show ((k, v) :: c.entries.filter fun e => e.1 != k).take c.cap = _
  rw [hn, List.take_succ_cons]
  rfl

/-- **Another key entered** comes before, and with room for all of them nothing is lost. -/
theorem Ahead.put (h : c.Ahead k v U) (hjk : j ≠ k) (hroom : (insert j U).card < c.cap) :
    (c.put j w).Ahead k v (insert j U) := by
  obtain ⟨front, back, heq, hfront⟩ := h
  -- the part of the list up to the key, with `j` moved to its front
  let before := (j, w) :: front.filter fun e => e.1 != j
  have hkeep : ((k, v).1 != j) = true := by simpa using hjk.symm
  have hentries : (c.put j w).entries =
      (before ++ (k, v) :: back.filter fun e => e.1 != j).take c.cap := by
    show ((j, w) :: c.entries.filter fun e => e.1 != j).take c.cap = _
    rw [heq, List.filter_append, List.filter_cons, if_pos hkeep]
    rfl
  have hbefore : ∀ e ∈ before, e.1 ∈ insert j U := by
    intro e he
    cases List.mem_cons.mp he with
    | inl hself => rw [hself]; exact Finset.mem_insert_self j U
    | inr hold => exact Finset.mem_insert_of_mem (hfront e (List.mem_filter.mp hold).1)
  have hnodup : (before.map Prod.fst).Nodup := by
    have hall := c.nodup
    rw [heq, List.map_append] at hall
    rw [List.map_cons, List.nodup_cons]
    refine ⟨?_, (List.filter_sublist.map Prod.fst).nodup (List.nodup_append.mp hall).1⟩
    intro hmem
    obtain ⟨e, he, hej⟩ := List.mem_map.mp hmem
    exact absurd hej (by simpa using (List.mem_filter.mp he).2)
  have hlength : before.length < c.cap := by
    have hsubset : (before.map Prod.fst).toFinset ⊆ insert j U := by
      intro i hi
      obtain ⟨e, he, rfl⟩ := List.mem_map.mp (List.mem_toFinset.mp hi)
      exact hbefore e he
    have hcard := Finset.card_le_card hsubset
    rw [List.toFinset_card_of_nodup hnodup, List.length_map] at hcard
    exact Nat.lt_of_le_of_lt hcard hroom
  refine ⟨before, (back.filter fun e => e.1 != j).take (c.cap - before.length - 1), ?_, hbefore⟩
  obtain ⟨n, hn⟩ := Nat.exists_eq_add_of_lt hlength
  rw [hentries, List.take_append, List.take_of_length_le hlength.le]
  have hrest : c.cap - before.length = n + 1 := by omega
  rw [hrest, List.take_succ_cons, Nat.add_sub_cancel]

/-- Another key looked up comes before if it is there. Nothing has to go for it. -/
theorem Ahead.get (h : c.Ahead k v U) (hjk : j ≠ k) : (c.get j).2.Ahead k v (insert j U) := by
  unfold Lru.get
  cases hpeek : c.peek j with
  | none => exact h.mono (Finset.subset_insert j U)
  | some w =>
    obtain ⟨front, back, heq, hfront⟩ := h
    have hkeep : ((k, v).1 != j) = true := by simpa using hjk.symm
    refine ⟨(j, w) :: front.filter fun e => e.1 != j, back.filter fun e => e.1 != j, ?_, ?_⟩
    · show (c.put j w).entries = _
      rw [entries_put_of_mem (peek_eq_some.mp hpeek), heq, List.filter_append, List.filter_cons,
        if_pos hkeep]
      rfl
    · intro e he
      cases List.mem_cons.mp he with
      | inl hself => rw [hself]; exact Finset.mem_insert_self j U
      | inr hold => exact Finset.mem_insert_of_mem (hfront e (List.mem_filter.mp hold).1)

theorem Ahead.get_self (h : c.Ahead k v U) : (c.get k).2.Ahead k v U := by
  have hpeek := h.peek
  have hpos : 0 < c.cap := by
    obtain ⟨front, back, heq, -⟩ := h
    exact Nat.zero_lt_of_lt (length_front_lt heq)
  unfold Lru.get
  rw [hpeek]
  exact ahead_put_self hpos U

/-! ## Gone -/

/-- **As many keys used since as there is room for**: the key is gone. -/
theorem Passed.peek (h : c.Passed k U) (hcard : c.cap ≤ U.card) : c.peek k = none := by
  cases hpeek : c.peek k with
  | none => rfl
  | some v =>
    obtain ⟨front, back, heq⟩ := List.append_of_mem (peek_eq_some.mp hpeek)
    have hsubset : U ⊆ (front.map Prod.fst).toFinset := by
      intro j hj
      exact List.mem_toFinset.mpr (h v front back heq j hj)
    have hle := (Finset.card_le_card hsubset).trans (List.toFinset_card_le _)
    rw [List.length_map] at hle
    have hlt := length_front_lt heq
    omega

/-- Where a key is after another has come to the front of the list, and some have gone from its
    end. -/
theorem Passed.moved (h : c.Passed k U) (hjk : j ≠ k) {d : Lru κ ν} {n : Nat}
    (hentries : d.entries = ((j, w) :: c.entries.filter fun e => e.1 != j).take n) :
    d.Passed k (insert j U) := by
  intro v front back heq i hi
  rw [heq] at hentries
  have hprefix : front ++ (k, v) :: back <+: (j, w) :: c.entries.filter fun e => e.1 != j := by
    rw [hentries]
    exact List.take_prefix _ _
  cases front with
  | nil => exact absurd (Prod.mk.inj (List.cons_prefix_cons.mp hprefix).1).1 hjk.symm
  | cons e front =>
    rw [List.cons_append] at hprefix
    obtain ⟨rfl, htail⟩ := List.cons_prefix_cons.mp hprefix
    rw [List.map_cons, List.mem_cons]
    cases Finset.mem_insert.mp hi with
    | inl hself => exact .inl hself
    | inr hold =>
      by_cases hij : i = j
      · exact .inl hij
      · right
        -- the list before the operation, split where its filtered one splits
        obtain ⟨after, hafter⟩ := htail
        rw [List.append_assoc, List.cons_append] at hafter
        obtain ⟨before, rest, hsplit, hbefore, hrest⟩ := List.filter_eq_append_iff.mp hafter.symm
        obtain ⟨skipped, tail, rfl, hskipped, -, -⟩ := List.filter_eq_cons_iff.mp hrest
        have hmem := h v (before ++ skipped) tail (by rw [hsplit, List.append_assoc]) i hold
        rw [List.map_append, List.mem_append] at hmem
        cases hmem with
        | inl hin =>
          obtain ⟨e, he, rfl⟩ := List.mem_map.mp hin
          rw [← hbefore]
          exact List.mem_map_of_mem (List.mem_filter.mpr ⟨he, by simpa using hij⟩)
        | inr hin =>
          -- what was skipped is `j` itself
          obtain ⟨e, he, rfl⟩ := List.mem_map.mp hin
          exact absurd (by simpa using hskipped e he) hij

theorem Passed.put (h : c.Passed k U) (hjk : j ≠ k) : (c.put j w).Passed k (insert j U) :=
  h.moved hjk rfl

theorem Passed.get (h : c.Passed k U) (hjk : j ≠ k) : (c.get j).2.Passed k U := by
  unfold Lru.get
  cases hpeek : c.peek j with
  | none => exact h
  | some w =>
    intro v front back heq i hi
    exact h.moved (d := c.put j w) hjk rfl v front back heq i (Finset.mem_insert_of_mem hi)

end Lru
