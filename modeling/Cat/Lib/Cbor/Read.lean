import Cat.Lib.Cbor.Item

/-!
# Reading items back

A depth-bounded reader for the wire grammar, and the two halves that make it one:
`readItem_sound` (what it returns is a well-formed item spelled by exactly the bytes it
consumed) and `readItem_complete` (every well-formed item of small enough height is read back,
whatever follows it). Their corollary is the one fact the grammar is used for most: **no byte
string starts with two different items** (`Item.wire_inj`).

The repetition readers `readN` and `readUntil` are generic in the element reader; the induction
over a container's elements is done there, once.

This reader is not the one of any program. A program's reader is a parameter of the developments
that use this library (`Codec`), since it also decides which items it supports, and is required
to agree with the grammar where it answers. `readItem` is here to show that the grammar can be
read at all, and that it can be read in one way only: both are facts about bytes, and the
parameter inherits them.

Completeness is stated with the rest of the input behind the item. Without it nothing could be
concluded about an item inside another one, where there is always something behind.
-/

set_option autoImplicit false

namespace Cbor

/-! ## Words and arguments

Each reader returns what it read with the bytes after it, and has two lemmas: what it returns
spells the bytes it consumed, and what is spelled is read whatever follows.
-/

/-- A number in the next `w` bytes. -/
def readWord (w : Nat) (b : Bytes) : Option (Nat × Bytes) :=
  if w ≤ b.length then some (BigEndian.toNat (b.take w), b.drop w) else none

theorem readWord_sound {w n : Nat} {b r : Bytes} (h : readWord w b = some (n, r)) :
    n < 256 ^ w ∧ b = BigEndian.ofNat w n ++ r := by
  unfold readWord at h
  split at h
  · simp only [Option.some.injEq, Prod.mk.injEq] at h
    obtain ⟨rfl, rfl⟩ := h
    have hl : (b.take w).length = w := by simp [‹w ≤ b.length›]
    refine ⟨by simpa only [hl] using BigEndian.toNat_lt (b.take w), ?_⟩
    rw [BigEndian.ofNat_toNat_of_length hl, List.take_append_drop]
  · simp at h

theorem readWord_complete {w n : Nat} (hn : n < 256 ^ w) (r : Bytes) :
    readWord w (BigEndian.ofNat w n ++ r) = some (n, r) := by
  have hl := BigEndian.length_ofNat w n
  unfold readWord
  rw [if_pos (by simp), List.take_left' hl, List.drop_left' hl, BigEndian.toNat_ofNat hn]

/-- The argument that `ai` announces. `28`–`30` are reserved and `31` has none. -/
def readArg (ai : Nat) (b : Bytes) : Option (Arg × Bytes) :=
  if h : ai < 24 then some (.imm ⟨ai, h⟩, b)
  else match ai with
    | 24 => (readWord 1 b).map fun x => (.w1 (UInt8.ofNat x.1), x.2)
    | 25 => (readWord 2 b).map fun x => (.w2 (UInt16.ofNat x.1), x.2)
    | 26 => (readWord 4 b).map fun x => (.w4 (UInt32.ofNat x.1), x.2)
    | 27 => (readWord 8 b).map fun x => (.w8 (UInt64.ofNat x.1), x.2)
    | _ => none

theorem readArg_sound {ai : Nat} {a : Arg} {b r : Bytes} (h : readArg ai b = some (a, r)) :
    ai = a.ai ∧ b = a.tail ++ r := by
  unfold readArg at h
  split at h
  · simp only [Option.some.injEq, Prod.mk.injEq] at h
    obtain ⟨rfl, rfl⟩ := h
    exact ⟨rfl, rfl⟩
  · split at h
    all_goals first
      | (simp only [Option.map_eq_some_iff, Prod.exists, Prod.mk.injEq] at h
         obtain ⟨n, r', hw, rfl, rfl⟩ := h
         obtain ⟨hn, rfl⟩ := readWord_sound hw
         refine ⟨rfl, ?_⟩
         simp only [Arg.tail]
         first
          | rw [UInt8.toNat_ofNat_of_lt' (by simpa using hn)]
          | rw [UInt16.toNat_ofNat_of_lt' (by simpa using hn)]
          | rw [UInt32.toNat_ofNat_of_lt' (by simpa using hn)]
          | rw [UInt64.toNat_ofNat_of_lt' (by simpa using hn)])
      | simp at h

theorem readArg_complete (a : Arg) (r : Bytes) : readArg a.ai (a.tail ++ r) = some (a, r) := by
  cases a with
  | imm n => simp [readArg, Arg.ai, Arg.tail]
  | w1 n =>
    have := readWord_complete (w := 1) (by simpa using n.toNat_lt) r
    simp only [readArg, Arg.ai, Arg.tail, this]; simp
  | w2 n =>
    have := readWord_complete (w := 2) (by simpa using n.toNat_lt) r
    simp only [readArg, Arg.ai, Arg.tail, this]; simp
  | w4 n =>
    have := readWord_complete (w := 4) (by simpa using n.toNat_lt) r
    simp only [readArg, Arg.ai, Arg.tail, this]; simp
  | w8 n =>
    have := readWord_complete (w := 8) (by simpa using n.toNat_lt) r
    simp only [readArg, Arg.ai, Arg.tail, this]; simp

/-! ## Repetition

A definite container has so many elements, an indefinite one ends at a stop code. Both are over
any reader of elements, and both lemmas carry over from it. The fuel of the second is the number
of bytes, of which every element takes one.
-/

section Repetition
variable {α : Type} {p : Bytes → Option (α × Bytes)} {ok : α → Prop} {wire : α → Bytes}

/-- Exactly `n` elements. -/
def readN (p : Bytes → Option (α × Bytes)) : Nat → Bytes → Option (List α × Bytes)
  | 0, b => some ([], b)
  | n + 1, b => (p b).bind fun x => (readN p n x.2).map fun xs => (x.1 :: xs.1, xs.2)

/-- Elements up to the stop code, at most `fuel` of them. -/
def readUntil (p : Bytes → Option (α × Bytes)) : Nat → Bytes → Option (List α × Bytes)
  | _, [] => none
  | 0, _ => none
  | fuel + 1, b :: t =>
    if b = brk then some ([], t)
    else (p (b :: t)).bind fun x => (readUntil p fuel x.2).map fun xs => (x.1 :: xs.1, xs.2)

/-- Soundness of a repetition from that of its element: the elements are well formed and their
    spellings, one after the other, are what was consumed. -/
theorem readN_sound (hp : ∀ b x r, p b = some (x, r) → ok x ∧ b = wire x ++ r)
    {n : Nat} {b : Bytes} {xs : List α} {r : Bytes} (h : readN p n b = some (xs, r)) :
    xs.length = n ∧ (∀ x ∈ xs, ok x) ∧ b = xs.flatMap wire ++ r := by
  induction n generalizing b xs with
  | zero =>
    simp only [readN, Option.some.injEq, Prod.mk.injEq] at h
    obtain ⟨rfl, rfl⟩ := h
    exact ⟨rfl, by simp, rfl⟩
  | succ n ih =>
    simp only [readN, Option.bind_eq_some_iff, Option.map_eq_some_iff, Prod.exists,
      Prod.mk.injEq] at h
    obtain ⟨x, t, hx, ys, r', hys, rfl, rfl⟩ := h
    obtain ⟨hxok, rfl⟩ := hp _ _ _ hx
    obtain ⟨hlen, hok, rfl⟩ := ih hys
    exact ⟨by simp [hlen], by simpa [hxok] using hok, by simp⟩

theorem readUntil_sound (hp : ∀ b x r, p b = some (x, r) → ok x ∧ b = wire x ++ r)
    {fuel : Nat} {b : Bytes} {xs : List α} {r : Bytes} (h : readUntil p fuel b = some (xs, r)) :
    (∀ x ∈ xs, ok x) ∧ b = xs.flatMap wire ++ [brk] ++ r := by
  induction fuel generalizing b xs with
  | zero => cases b <;> simp [readUntil] at h
  | succ fuel ih =>
    cases b with
    | nil => simp [readUntil] at h
    | cons b t =>
      unfold readUntil at h
      split at h
      · simp only [Option.some.injEq, Prod.mk.injEq] at h
        obtain ⟨rfl, rfl⟩ := h
        exact ⟨by simp, by simp [‹b = brk›]⟩
      · simp only [Option.bind_eq_some_iff, Option.map_eq_some_iff, Prod.exists,
          Prod.mk.injEq] at h
        obtain ⟨x, t', hx, ys, r', hys, rfl, rfl⟩ := h
        obtain ⟨hxok, hb⟩ := hp _ _ _ hx
        obtain ⟨hok, rfl⟩ := ih hys
        exact ⟨by simpa [hxok] using hok, by simp [hb]⟩

theorem readN_complete {xs : List α} (hp : ∀ x ∈ xs, ∀ r, p (wire x ++ r) = some (x, r))
    (r : Bytes) : readN p xs.length (xs.flatMap wire ++ r) = some (xs, r) := by
  induction xs with
  | nil => rfl
  | cons x xs ih =>
    have hx := hp x (by simp) (xs.flatMap wire ++ r)
    have hxs := ih fun y hy => hp y (by simp [hy])
    simp [readN, hx, hxs]

/-- Each element takes a byte at least. -/
theorem length_le_flatMap (hw : ∀ x, ∃ b t, wire x = b :: t ∧ b ≠ brk) (xs : List α) :
    xs.length ≤ (xs.flatMap wire).length := by
  induction xs with
  | nil => simp
  | cons x xs ih =>
    obtain ⟨b, t, hbt, -⟩ := hw x
    simp only [List.length_cons, List.flatMap_cons, List.length_append, hbt]
    omega

/-- One turn for each element and one for the stop code. No element starts with the stop code, so
    the loop cannot end early. -/
theorem readUntil_of_fuel {xs : List α} (hw : ∀ x, ∃ b t, wire x = b :: t ∧ b ≠ brk)
    (hp : ∀ x ∈ xs, ∀ r, p (wire x ++ r) = some (x, r)) {fuel : Nat} (hf : xs.length < fuel)
    (r : Bytes) : readUntil p fuel (xs.flatMap wire ++ [brk] ++ r) = some (xs, r) := by
  induction xs generalizing fuel with
  | nil =>
    obtain ⟨f, rfl⟩ := Nat.exists_eq_succ_of_ne_zero (by omega : fuel ≠ 0)
    simp [readUntil]
  | cons x xs ih =>
    obtain ⟨f, rfl⟩ := Nat.exists_eq_succ_of_ne_zero (by omega : fuel ≠ 0)
    have hx := hp x (by simp) (xs.flatMap wire ++ [brk] ++ r)
    have hxs := ih (fun y hy => hp y (by simp [hy])) (by simpa using hf)
    obtain ⟨b, t, hbt, hne⟩ := hw x
    rw [hbt, List.cons_append] at hx
    simp only [List.append_assoc, List.singleton_append] at hx hxs
    simp [hbt, readUntil, hne, hx, hxs]

/-- As many steps as there are bytes are enough. -/
theorem readUntil_complete {xs : List α} (hw : ∀ x, ∃ b t, wire x = b :: t ∧ b ≠ brk)
    (hp : ∀ x ∈ xs, ∀ r, p (wire x ++ r) = some (x, r)) {t : Bytes} (r : Bytes)
    (ht : t = xs.flatMap wire ++ [brk] ++ r) : readUntil p t.length t = some (xs, r) := by
  have hl := length_le_flatMap hw xs
  have hlen : xs.length < t.length := by
    rw [ht, List.length_append, List.length_append, List.length_singleton]; omega
  rw [ht] at hlen ⊢
  exact readUntil_of_fuel hw hp hlen r

end Repetition

/-! ## Items

The reader of items is one recursion on the depth that is left. Everything that can be said of
one level over a reader for the levels below is said before, so the inductions are short.
-/

/-- The data an argument announces. -/
def readData (a : Arg) (b : Bytes) : Option (Chunk × Bytes) :=
  if h : a.val ≤ b.length then some (⟨a, b.take a.val, by simp [h]⟩, b.drop a.val) else none

/-- A definite-length string of the given major type. -/
def readChunk (major : Nat) : Bytes → Option (Chunk × Bytes)
  | [] => none
  | b :: t =>
    if b.toNat / 32 = major then (readArg (b.toNat % 32) t).bind fun x => readData x.1 x.2
    else none

@[simp] theorem readChunk_cons {major : Nat} {b : UInt8} {t : Bytes} :
    readChunk major (b :: t) = if b.toNat / 32 = major then
      (readArg (b.toNat % 32) t).bind fun x => readData x.1 x.2 else none := rfl

/-- Both items of a map entry. -/
def readEntry (p : Bytes → Option (Item × Bytes)) (b : Bytes) : Option ((Item × Item) × Bytes) :=
  (p b).bind fun k => (p k.2).map fun v => ((k.1, v.1), v.2)

/-- What a head of major type 7 with this argument stands for. -/
def Item.ofArg7 : Arg → Item
  | .imm n => .simple n
  | .w1 n => .simpleExt n
  | .w2 n => .half n
  | .w4 n => .single n
  | .w8 n => .double n

/-- The next item, provided it nests less than `d` deep. -/
def readItem : Nat → Bytes → Option (Item × Bytes)
  | 0, _ => none
  | _ + 1, [] => none
  | d + 1, b :: t =>
    let ai := b.toNat % 32
    match b.toNat / 32 with
    | 0 => (readArg ai t).map fun a => (.uint a.1, a.2)
    | 1 => (readArg ai t).map fun a => (.nint a.1, a.2)
    | 2 =>
      if ai = 31 then (readUntil (readChunk 2) t.length t).map fun cs => (.bytesIndef cs.1, cs.2)
      else (readArg ai t).bind fun a => (readData a.1 a.2).map fun c => (.bytes c.1, c.2)
    | 3 =>
      if ai = 31 then (readUntil (readChunk 3) t.length t).map fun cs => (.textIndef cs.1, cs.2)
      else (readArg ai t).bind fun a => (readData a.1 a.2).map fun c => (.text c.1, c.2)
    | 4 =>
      if ai = 31 then (readUntil (readItem d) t.length t).map fun xs => (.arrayIndef xs.1, xs.2)
      else (readArg ai t).bind fun a =>
        (readN (readItem d) a.1.val a.2).map fun xs => (.array a.1 xs.1, xs.2)
    | 5 =>
      if ai = 31 then
        (readUntil (readEntry (readItem d)) t.length t).map fun es => (.mapIndef es.1, es.2)
      else (readArg ai t).bind fun a =>
        (readN (readEntry (readItem d)) a.1.val a.2).map fun es => (.map a.1 es.1, es.2)
    | 6 => (readArg ai t).bind fun a => (readItem d a.2).map fun x => (.tag a.1 x.1, x.2)
    | _ => (readArg ai t).map fun a => (.ofArg7 a.1, a.2)

theorem Item.wire_ofArg7 (a : Arg) : (Item.ofArg7 a).wire = head 7 a := by
  cases a <;> rfl

theorem Item.wf_ofArg7 (a : Arg) : (Item.ofArg7 a).WF := by
  cases a <;> trivial

theorem readData_sound {a : Arg} {b : Bytes} {c : Chunk} {r : Bytes}
    (h : readData a b = some (c, r)) : c.arg = a ∧ b = c.data ++ r := by
  unfold readData at h
  split at h
  · simp only [Option.some.injEq, Prod.mk.injEq] at h
    obtain ⟨rfl, rfl⟩ := h
    exact ⟨rfl, (List.take_append_drop _ _).symm⟩
  · simp at h

theorem readData_complete (c : Chunk) (r : Bytes) : readData c.arg (c.data ++ r) = some (c, r) := by
  obtain ⟨a, data, len⟩ := c
  unfold readData
  rw [dif_pos (by simp [len])]
  simp [len]

/-- Splitting the initial byte off: a byte with these two parts begins this head. -/
theorem cons_eq_head {b : UInt8} {t r : Bytes} {a : Arg} {major : Nat}
    (hm : b.toNat / 32 = major) (ha : readArg (b.toNat % 32) t = some (a, r)) :
    b :: t = head major a ++ r := by
  obtain ⟨hai, rfl⟩ := readArg_sound ha
  rw [head, ← hai, ← hm, initial_of_toNat, List.cons_append]

theorem cons_eq_initial {b : UInt8} {major ai : Nat} (hm : b.toNat / 32 = major)
    (ha : b.toNat % 32 = ai) (t : Bytes) : b :: t = initial major ai :: t := by
  rw [← hm, ← ha, initial_of_toNat]

theorem readChunk_sound {major : Nat} {b : Bytes} {c : Chunk} {r : Bytes}
    (h : readChunk major b = some (c, r)) : True ∧ b = c.wire major ++ r := by
  cases b with
  | nil => simp [readChunk] at h
  | cons b t =>
    rw [readChunk_cons] at h
    split at h
    · simp only [Option.bind_eq_some_iff, Prod.exists] at h
      obtain ⟨a, t', ha, hd⟩ := h
      obtain ⟨rfl, rfl⟩ := readData_sound hd
      refine ⟨trivial, ?_⟩
      rw [cons_eq_head ‹_› ha, Chunk.wire, List.append_assoc]
    · simp at h

theorem readEntry_sound {p : Bytes → Option (Item × Bytes)}
    (hp : ∀ b x r, p b = some (x, r) → x.WF ∧ b = x.wire ++ r) {b : Bytes} {e : Item × Item}
    {r : Bytes} (h : readEntry p b = some (e, r)) :
    (e.1.WF ∧ e.2.WF) ∧ b = Item.wireEntry e ++ r := by
  simp only [readEntry, Option.bind_eq_some_iff, Option.map_eq_some_iff, Prod.exists,
    Prod.mk.injEq] at h
  obtain ⟨k, t, hk, v, r', hv, rfl, rfl⟩ := h
  obtain ⟨hkw, rfl⟩ := hp _ _ _ hk
  obtain ⟨hvw, rfl⟩ := hp _ _ _ hv
  exact ⟨⟨hkw, hvw⟩, by simp [Item.wireEntry]⟩

/-- **The reader is sound**: it returns a well-formed item and consumes its bytes. -/
theorem readItem_sound {d : Nat} {b : Bytes} {x : Item} {r : Bytes}
    (h : readItem d b = some (x, r)) : x.WF ∧ b = x.wire ++ r := by
  induction d generalizing b x r with
  | zero => simp [readItem] at h
  | succ d ih =>
    cases b with
    | nil => simp [readItem] at h
    | cons b t =>
      have hentry : ∀ b e r, readEntry (readItem d) b = some (e, r) →
          (e.1.WF ∧ e.2.WF) ∧ b = Item.wireEntry e ++ r :=
        fun _ _ _ => readEntry_sound fun _ _ _ => ih
      unfold readItem at h
      dsimp only at h
      split at h
      case h_1 hm | h_2 hm =>
        simp only [Option.map_eq_some_iff, Prod.exists, Prod.mk.injEq] at h
        obtain ⟨a, r', ha, rfl, rfl⟩ := h
        exact ⟨trivial, cons_eq_head hm ha⟩
      case h_3 hm | h_4 hm =>
        -- A string, in chunks up to the break or of the length in its head.
        split at h
        · simp only [Option.map_eq_some_iff, Prod.exists, Prod.mk.injEq] at h
          obtain ⟨cs, r', hcs, rfl, rfl⟩ := h
          obtain ⟨-, hb⟩ := readUntil_sound (fun _ _ _ => readChunk_sound) hcs
          refine ⟨trivial, ?_⟩
          rw [cons_eq_initial hm ‹_›, hb]
          simp [Item.wire]
        · simp only [Option.bind_eq_some_iff, Option.map_eq_some_iff, Prod.exists,
            Prod.mk.injEq] at h
          obtain ⟨a, t', ha, c, r', hc, rfl, rfl⟩ := h
          obtain ⟨rfl, rfl⟩ := readData_sound hc
          refine ⟨trivial, ?_⟩
          rw [cons_eq_head hm ha, Item.wire, Chunk.wire, List.append_assoc]
      case h_5 hm =>
        -- An array, likewise.
        split at h
        · simp only [Option.map_eq_some_iff, Prod.exists, Prod.mk.injEq] at h
          obtain ⟨xs, r', hxs, rfl, rfl⟩ := h
          obtain ⟨hok, hb⟩ := readUntil_sound (fun _ _ _ => ih) hxs
          refine ⟨Item.wfList_iff.mpr hok, ?_⟩
          rw [cons_eq_initial hm ‹_›, hb]
          simp [Item.wire, Item.wireList_eq]
        · simp only [Option.bind_eq_some_iff, Option.map_eq_some_iff, Prod.exists,
            Prod.mk.injEq] at h
          obtain ⟨a, t', ha, xs, r', hxs, rfl, rfl⟩ := h
          obtain ⟨hlen, hok, rfl⟩ := readN_sound (fun _ _ _ => ih) hxs
          refine ⟨⟨hlen.symm, Item.wfList_iff.mpr hok⟩, ?_⟩
          rw [cons_eq_head hm ha]
          simp [Item.wire, Item.wireList_eq]
      case h_6 hm =>
        -- A map, whose entries are read in pairs.
        split at h
        · simp only [Option.map_eq_some_iff, Prod.exists, Prod.mk.injEq] at h
          obtain ⟨es, r', hes, rfl, rfl⟩ := h
          obtain ⟨hok, hb⟩ := readUntil_sound hentry hes
          refine ⟨Item.wfEntries_iff.mpr hok, ?_⟩
          rw [cons_eq_initial hm ‹_›, hb]
          simp [Item.wire, Item.wireEntries_eq]
        · simp only [Option.bind_eq_some_iff, Option.map_eq_some_iff, Prod.exists,
            Prod.mk.injEq] at h
          obtain ⟨a, t', ha, es, r', hes, rfl, rfl⟩ := h
          obtain ⟨hlen, hok, rfl⟩ := readN_sound hentry hes
          refine ⟨⟨hlen.symm, Item.wfEntries_iff.mpr hok⟩, ?_⟩
          rw [cons_eq_head hm ha]
          simp [Item.wire, Item.wireEntries_eq]
      case h_7 hm =>
        simp only [Option.bind_eq_some_iff, Option.map_eq_some_iff, Prod.exists,
          Prod.mk.injEq] at h
        obtain ⟨a, t', ha, y, r', hy, rfl, rfl⟩ := h
        obtain ⟨hwf, rfl⟩ := ih hy
        refine ⟨hwf, ?_⟩
        rw [cons_eq_head hm ha, Item.wire, List.append_assoc]
      case h_8 h0 h1 h2 h3 h4 h5 h6 =>
        simp only [Option.map_eq_some_iff, Prod.exists, Prod.mk.injEq] at h
        obtain ⟨a, r', ha, rfl, rfl⟩ := h
        have hlt := b.toNat_lt
        simp only [imp_false] at h0 h1 h2 h3 h4 h5 h6
        -- No other major type is left.
        have hm : b.toNat / 32 = 7 := by omega
        exact ⟨Item.wf_ofArg7 a, by rw [Item.wire_ofArg7]; exact cons_eq_head hm ha⟩

theorem readChunk_complete {major : Nat} (hm : major < 8) (c : Chunk) (r : Bytes) :
    readChunk major (c.wire major ++ r) = some (c, r) := by
  have hai : c.arg.ai < 32 := Nat.lt_trans c.arg.ai_lt (by decide)
  have ha := readArg_complete c.arg (c.data ++ r)
  simp only [Chunk.wire, head, List.cons_append, List.append_assoc, readChunk,
    initial_toNat_div hm hai, initial_toNat_mod hai, if_true, ha, Option.bind_some]
  exact readData_complete c r

theorem readEntry_complete {p : Bytes → Option (Item × Bytes)} {e : Item × Item}
    (hk : ∀ r, p (e.1.wire ++ r) = some (e.1, r)) (hv : ∀ r, p (e.2.wire ++ r) = some (e.2, r))
    (r : Bytes) : readEntry p (Item.wireEntry e ++ r) = some (e, r) := by
  simp [readEntry, Item.wireEntry, hk, hv]

/-- An entry starts with its key's initial byte, which is no stop code. -/
theorem Item.wireEntry_ne_brk (e : Item × Item) :
    ∃ b t, Item.wireEntry e = b :: t ∧ b ≠ brk := by
  obtain ⟨b, t, hb, hne⟩ := e.1.wire_ne_brk
  exact ⟨b, t ++ e.2.wire, by simp [wireEntry, hb], hne⟩

/-- **The reader is complete**: a well-formed item within the depth bound is read back
    from the front of any byte string it begins. -/
theorem readItem_complete {d : Nat} {x : Item} (hwf : x.WF) (hd : x.height < d) (r : Bytes) :
    readItem d (x.wire ++ r) = some (x, r) := by
  induction d generalizing x r with
  | zero => omega
  | succ d ih =>
    have hai (a : Arg) : a.ai < 32 := Nat.lt_trans a.ai_lt (by decide)
    have hai31 (a : Arg) : a.ai ≠ 31 := by have := a.ai_lt; omega
    -- the one-argument items: the head is everything
    have hhead (m : Nat) (a : Arg) (t : Bytes) (hm : m < 8) :
        readItem (d + 1) (head m a ++ t) =
          readItem (d + 1) (initial m a.ai :: (a.tail ++ t)) := rfl
    cases x with
    | uint a =>
      rw [Item.wire, hhead 0 a r (by decide)]
      simp [readItem, hai, readArg_complete]
    | nint a =>
      rw [Item.wire, hhead 1 a r (by decide)]
      simp [readItem, hai, readArg_complete]
    | bytes c =>
      rw [Item.wire, Chunk.wire, List.append_assoc, hhead 2 _ _ (by decide)]
      simp [readItem, hai, hai31, readArg_complete, readData_complete]
    | text c =>
      rw [Item.wire, Chunk.wire, List.append_assoc, hhead 3 _ _ (by decide)]
      simp [readItem, hai, hai31, readArg_complete, readData_complete]
    | bytesIndef cs =>
      have hu {t : Bytes} := readUntil_complete (t := t) (Chunk.wire_ne_brk (by decide : 2 < 8))
        (fun c (_ : c ∈ cs) => readChunk_complete (by decide) c) r
      rw [Item.wire, List.cons_append]
      generalize ht : cs.flatMap (Chunk.wire 2) ++ [brk] ++ r = t
      simp [readItem, hu ht.symm]
    | textIndef cs =>
      have hu {t : Bytes} := readUntil_complete (t := t) (Chunk.wire_ne_brk (by decide : 3 < 8))
        (fun c (_ : c ∈ cs) => readChunk_complete (by decide) c) r
      rw [Item.wire, List.cons_append]
      generalize ht : cs.flatMap (Chunk.wire 3) ++ [brk] ++ r = t
      simp [readItem, hu ht.symm]
    | array a xs =>
      obtain ⟨hlen, hxs⟩ := hwf
      have hh : ∀ y ∈ xs, y.height ≤ d - 1 := Item.heightList_le.mp (by
        simp only [Item.height] at hd; omega)
      have hd1 : 1 ≤ d := by simp only [Item.height] at hd; omega
      have hn : readN (readItem d) xs.length (xs.flatMap Item.wire ++ r) = some (xs, r) :=
        readN_complete
          (fun y hy => ih (Item.wfList_iff.mp hxs y hy) (by have := hh y hy; omega)) r
      rw [Item.wire, List.append_assoc, Item.wireList_eq, hhead 4 _ _ (by decide)]
      simp [readItem, hai, hai31, readArg_complete, hlen, hn]
    | arrayIndef xs =>
      have hh : ∀ y ∈ xs, y.height ≤ d - 1 := Item.heightList_le.mp (by
        simp only [Item.height] at hd; omega)
      have hd1 : 1 ≤ d := by simp only [Item.height] at hd; omega
      have hu {t : Bytes} := readUntil_complete (t := t) Item.wire_ne_brk (p := readItem d)
        (fun y hy => ih (Item.wfList_iff.mp hwf y hy) (by have := hh y hy; omega)) r
      rw [Item.wire, List.cons_append, Item.wireList_eq]
      generalize ht : xs.flatMap Item.wire ++ [brk] ++ r = t
      simp [readItem, hu ht.symm]
    | map a es =>
      obtain ⟨hlen, hes⟩ := hwf
      have hh : ∀ e ∈ es, e.1.height ≤ d - 1 ∧ e.2.height ≤ d - 1 := Item.heightEntries_le.mp (by
        simp only [Item.height] at hd; omega)
      have hd1 : 1 ≤ d := by simp only [Item.height] at hd; omega
      have hn : readN (readEntry (readItem d)) es.length (es.flatMap Item.wireEntry ++ r)
          = some (es, r) :=
        readN_complete (fun e he => readEntry_complete
          (ih (Item.wfEntries_iff.mp hes e he).1 (by have := hh e he; omega))
          (ih (Item.wfEntries_iff.mp hes e he).2 (by have := hh e he; omega))) r
      rw [Item.wire, List.append_assoc, Item.wireEntries_eq, hhead 5 _ _ (by decide)]
      simp [readItem, hai, hai31, readArg_complete, hlen, hn]
    | mapIndef es =>
      have hh : ∀ e ∈ es, e.1.height ≤ d - 1 ∧ e.2.height ≤ d - 1 := Item.heightEntries_le.mp (by
        simp only [Item.height] at hd; omega)
      have hd1 : 1 ≤ d := by simp only [Item.height] at hd; omega
      have hu {t : Bytes} := readUntil_complete (t := t) Item.wireEntry_ne_brk
        (p := readEntry (readItem d)) (fun e he => readEntry_complete
          (ih (Item.wfEntries_iff.mp hwf e he).1 (by have := hh e he; omega))
          (ih (Item.wfEntries_iff.mp hwf e he).2 (by have := hh e he; omega))) r
      rw [Item.wire, List.cons_append, Item.wireEntries_eq]
      generalize ht : es.flatMap Item.wireEntry ++ [brk] ++ r = t
      simp [readItem, hu ht.symm]
    | tag a x =>
      have hx := ih (x := x) hwf (by simp only [Item.height] at hd; omega) r
      rw [Item.wire, List.append_assoc, hhead 6 _ _ (by decide)]
      simp [readItem, hai, readArg_complete, hx]
    | simple n =>
      rw [Item.wire, hhead 7 _ r (by decide)]
      simp [readItem, hai, readArg_complete, Item.ofArg7]
    | simpleExt n =>
      rw [Item.wire, hhead 7 _ r (by decide)]
      simp [readItem, hai, readArg_complete, Item.ofArg7]
    | half n =>
      rw [Item.wire, hhead 7 _ r (by decide)]
      simp [readItem, hai, readArg_complete, Item.ofArg7]
    | single n =>
      rw [Item.wire, hhead 7 _ r (by decide)]
      simp [readItem, hai, readArg_complete, Item.ofArg7]
    | double n =>
      rw [Item.wire, hhead 7 _ r (by decide)]
      simp [readItem, hai, readArg_complete, Item.ofArg7]

/-- **The encoding is a prefix code**: a byte string starts with at most one item. -/
theorem Item.wire_inj {x y : Item} {r s : Bytes} (hx : x.WF) (hy : y.WF)
    (h : x.wire ++ r = y.wire ++ s) : x = y ∧ r = s := by
  have h₁ := readItem_complete hx (d := max x.height y.height + 1) (by omega) r
  have h₂ := readItem_complete hy (d := max x.height y.height + 1) (by omega) s
  rw [h, h₂] at h₁
  simp only [Option.some.injEq, Prod.mk.injEq] at h₁
  exact ⟨h₁.1.symm, h₁.2.symm⟩

end Cbor
