import Cat.Cwt.Peek
import Cat.Lib.Cbor.Read

/-!
# Stepping over items

What the cursor's skips do at a well-formed item, exactly: they move past it, or — when it nests
deeper than there are levels left — they fail. `Outcome m w P` says that of a step `m` at bytes
`w` with `P` the condition to get through; it composes along the item tree, and
`skipNextItemAtDepth_outcome` is the induction.

There is no third case, so a scan made of skips that starts aligned with an item stays aligned
with items.

The scanner of `cwt.rs` is written with a cursor and a position, and no tree. The tree is what
it is proved about: an item (`Lib.Cbor.Item`) has one spelling, `wire`, and each function of the
scanner is a step over the spelling of something. Steps that cannot fail at a well-formed item
have a simpler statement, `Steps`, which also says what they return; headers, lengths and
strings are of that kind, and `Steps.outcome` brings them under the other one.

Depth is counted in two ways. A container costs a level and a tag costs one too, but for the tag
at the top, which the function that looks at the first byte itself lets through with one level
more (`skipAfterHeader_outcome`). The height of an item counts both alike. The loops carry fuel
here and none in the source; `skipUntilBreak_fuel` says that the fuel they start with is never
used up, so it is not part of any condition.
-/

set_option autoImplicit false

namespace Cat
namespace PeekCursor

open Cbor

/-- The cursor stands inside a buffer of addressable size, at these bytes. -/
structure At (c : PeekCursor) (b : Bytes) : Prop where
  pos_le : c.pos ≤ c.buf.length
  len_lt : c.buf.length < 2 ^ 63
  rest_eq : c.buf.drop c.pos = b

def adv (c : PeekCursor) (n : Nat) : PeekCursor := { c with pos := c.pos + n }

@[simp] theorem adv_adv (c : PeekCursor) (m n : Nat) : (c.adv m).adv n = c.adv (m + n) := by
  simp [adv, Nat.add_assoc]

@[simp] theorem adv_zero (c : PeekCursor) : c.adv 0 = c := rfl

/-- What lies ahead lies inside the buffer. -/
theorem At.length_le {c : PeekCursor} {w r : Bytes} (h : c.At (w ++ r)) :
    c.pos + w.length ≤ c.buf.length := by
  have hl := congrArg List.length h.rest_eq
  rw [List.length_drop, List.length_append] at hl
  have := h.pos_le
  omega

theorem At.adv {c : PeekCursor} {w r : Bytes} (h : c.At (w ++ r)) :
    (c.adv w.length).At r where
  pos_le := h.length_le
  len_lt := h.len_lt
  rest_eq := by
    rw [PeekCursor.adv, ← List.drop_drop, h.rest_eq, List.drop_left]

theorem At.getElem?_pos {c : PeekCursor} {b : UInt8} {r : Bytes} (h : c.At (b :: r)) :
    c.buf[c.pos]? = some b := by
  rw [← List.head?_drop, h.rest_eq, List.head?_cons]

/-! ## Steps that read

Where the bytes ahead are known, a step of the cursor is told by the bytes it goes over.
Whatever comes after them does not matter, so steps can be put in a row.
-/

/-- At the bytes `w`, `m` returns `a` and moves past them, whatever follows. -/
def Steps {α : Type} (m : Peek α) (w : Bytes) (a : α) : Prop :=
  ∀ c r, c.At (w ++ r) → m c = .ok (a, c.adv w.length)

section
variable {α β : Type}

theorem run_bind (m : Peek α) (f : α → Peek β) (c : PeekCursor) :
    (m >>= f) c = match m c with
      | .ok (a, c') => f a c'
      | .error e => .error e := by
  simp only [bind, StateT.bind, Except.bind]
  cases m c with
  | error e => rfl
  | ok p => rfl

@[simp] theorem run_pure (a : α) (c : PeekCursor) : (Pure.pure a : Peek α) c = .ok (a, c) := rfl

@[simp] theorem run_throw (e : CatError) (c : PeekCursor) :
    (throw e : Peek α) c = .error e := rfl

/-- Two steps in a row are a step over both spellings. -/
theorem Steps.bind {m : Peek α} {f : α → Peek β} {w v : Bytes} {a : α} {b : β}
    (hm : Steps m w a) (hf : Steps (f a) v b) : Steps (m >>= f) (w ++ v) b := by
  intro c r hc
  rw [List.append_assoc] at hc
  rw [run_bind, hm c _ hc]
  simp only [hf _ _ hc.adv, adv_adv, List.length_append]

theorem Steps.pure (a : α) : Steps (pure a : Peek α) [] a := fun _ _ _ => rfl

theorem Steps.of_eq {m : Peek α} {w v : Bytes} {a : α} (h : Steps m w a) (hv : v = w) :
    Steps m v a := hv ▸ h

end

theorem readU8_steps (b : UInt8) : Steps readU8 [b] b := by
  intro c r hc
  simp only [readU8, hc.getElem?_pos]
  rfl

theorem readBytes_steps (w : Bytes) : Steps (readBytes w.length) w w := by
  intro c r hc
  have hle := hc.length_le
  have hlt := hc.len_lt
  simp only [readBytes]
  rw [if_neg (by omega), if_neg (by omega), hc.rest_eq, List.take_left' rfl]
  rfl

theorem readHeader_steps {major ai : Nat} (hm : major < 8) (ha : ai < 32) :
    Steps readHeader [initial major ai] (major, ai) := by
  have hdiv : (initial major ai >>> 5).toNat = major := by
    rw [UInt8.toNat_shiftRight]
    have h5 : (5 : UInt8).toNat % 8 = 5 := by decide
    rw [h5, Nat.shiftRight_eq_div_pow]
    exact initial_toNat_div hm ha
  have hmod : (initial major ai &&& 0x1f).toNat = ai := by
    rw [UInt8.toNat_and]
    have h31 : (0x1f : UInt8).toNat = 2 ^ 5 - 1 := by decide
    rw [h31, Nat.and_two_pow_sub_one_eq_mod]
    exact initial_toNat_mod ha
  have h := (readU8_steps (initial major ai)).bind
    (f := fun b : UInt8 => (Pure.pure ((b >>> 5).toNat, (b &&& 0x1f).toNat) : Peek (Nat × Nat)))
    (Steps.pure _)
  rw [hdiv, hmod, List.append_nil] at h
  exact h

theorem readWord_steps (bs : Bytes) (acc : Nat) :
    Steps (readWord bs.length acc) bs (acc * 256 ^ bs.length + BigEndian.toNat bs) := by
  induction bs generalizing acc with
  | nil => simpa [readWord, BigEndian.toNat] using Steps.pure (acc * 1 + 0)
  | cons b bs ih =>
    have hval : (acc * 256 + b.toNat) * 256 ^ bs.length + BigEndian.toNat bs =
        acc * 256 ^ (b :: bs).length + BigEndian.toNat (b :: bs) := by
      simp only [BigEndian.toNat, List.length_cons, pow_succ]; ring
    rw [← hval]
    exact (readU8_steps b).bind (ih (acc * 256 + b.toNat))

/-- A length is read as the argument it was written as. -/
theorem lengthFromAi_steps (a : Arg) : Steps (lengthFromAi a.ai) a.tail a.val := by
  have hword (w n : Nat) (hn : n < 256 ^ w) :
      Steps (readWord w 0) (BigEndian.ofNat w n) n := by
    have h := readWord_steps (BigEndian.ofNat w n) 0
    rwa [BigEndian.length_ofNat, BigEndian.toNat_ofNat hn, Nat.zero_mul, Nat.zero_add] at h
  cases a with
  | imm n =>
    have hn : n.val ≤ 23 := by have := n.isLt; omega
    show Steps (if n.val ≤ 23 then _ else _) [] n.val
    rw [if_pos hn]
    exact Steps.pure _
  | w1 n => exact hword 1 n.toNat (by simpa using n.toNat_lt)
  | w2 n => exact hword 2 n.toNat (by simpa using n.toNat_lt)
  | w4 n => exact hword 4 n.toNat (by simpa using n.toNat_lt)
  | w8 n => exact hword 8 n.toNat (by simpa using n.toNat_lt)

theorem countFromAi_steps (a : Arg) : Steps (countFromAi a.ai) a.tail (a.val, false) := by
  have hne : a.ai ≠ 31 := by have := a.ai_lt; omega
  rw [countFromAi, if_neg hne]
  exact ((lengthFromAi_steps a).bind (f := fun n => (Pure.pure (n, false) : Peek (Nat × Bool)))
    (Steps.pure _)).of_eq (List.append_nil _).symm

theorem peekBreak_ok {c : PeekCursor} {b : UInt8} {r : Bytes} (hc : c.At (b :: r)) :
    peekBreak c = .ok (b == 0xff, c) := by
  simp only [peekBreak, hc.getElem?_pos]

/-! ## Steps that get through or fail

Skipping an item may fail for its height and for nothing else. The outcome has the condition on
one side and the position on the other; in which place of an item it fails is not said.
-/

/-- At the bytes `w`, `m` moves past them if `P`, and fails if not. -/
def Outcome (m : Peek Unit) (w : Bytes) (P : Prop) : Prop :=
  ∀ c r, c.At (w ++ r) → (P ∧ m c = .ok ((), c.adv w.length)) ∨ (¬P ∧ ∃ e, m c = .error e)

theorem Steps.outcome {m : Peek Unit} {w : Bytes} (h : Steps m w ()) : Outcome m w True :=
  fun c r hc => .inl ⟨trivial, h c r hc⟩

theorem Outcome.congr {m : Peek Unit} {w : Bytes} {P Q : Prop} (h : Outcome m w P)
    (hPQ : P ↔ Q) : Outcome m w Q := by
  rwa [propext hPQ] at h

theorem Outcome.of_eq {m : Peek Unit} {w v : Bytes} {P : Prop} (h : Outcome m w P)
    (hv : v = w) : Outcome m v P := hv ▸ h

theorem Outcome.after {α : Type} {m : Peek α} {f : α → Peek Unit} {w v : Bytes} {a : α}
    {P : Prop} (hm : Steps m w a) (hf : Outcome (f a) v P) : Outcome (m >>= f) (w ++ v) P := by
  intro c r hc
  rw [List.append_assoc] at hc
  rw [run_bind, hm c _ hc]
  rcases hf _ _ hc.adv with ⟨hP, h⟩ | ⟨hP, e, h⟩
  · exact .inl ⟨hP, by simp only [h, adv_adv, List.length_append]⟩
  · exact .inr ⟨hP, e, by simp only [h]⟩

/-- Two steps in a row get through if both do. -/
theorem Outcome.then {m k : Peek Unit} {w v : Bytes} {P Q : Prop} (hm : Outcome m w P)
    (hk : Outcome k v Q) : Outcome (m >>= fun _ => k) (w ++ v) (P ∧ Q) := by
  intro c r hc
  rw [List.append_assoc] at hc
  rw [run_bind]
  rcases hm c _ hc with ⟨hP, h⟩ | ⟨hP, e, h⟩
  · rw [h]
    rcases hk _ _ hc.adv with ⟨hQ, h'⟩ | ⟨hQ, e, h'⟩
    · exact .inl ⟨⟨hP, hQ⟩, by simp only [h', adv_adv, List.length_append]⟩
    · exact .inr ⟨fun hPQ => hQ hPQ.2, e, by simp only [h']⟩
  · exact .inr ⟨fun hPQ => hP hPQ.1, e, by rw [h]⟩

/-- A step that fails whatever comes. -/
theorem Outcome.fail {m : Peek Unit} {w : Bytes} (h : ∀ c r, c.At (w ++ r) → ∃ e, m c = .error e) :
    Outcome m w False :=
  fun c r hc => .inr ⟨id, h c r hc⟩

/-- A step that returns unit and is bound to nothing. -/
theorem Steps.discard {α : Type} {m : Peek α} {w : Bytes} {a : α} (h : Steps m w a) :
    Steps (m >>= fun _ => Pure.pure ()) w () :=
  (h.bind (f := fun _ => (Pure.pure () : Peek Unit)) (Steps.pure ())).of_eq
    (List.append_nil w).symm

section Repetition
variable {α : Type} {item : Peek Unit} {wire : α → Bytes} {P : α → Prop}

/-- A definite container: as many items as were announced, one after the other. -/
theorem skipN_outcome {xs : List α} (h : ∀ x ∈ xs, Outcome item (wire x) (P x)) :
    Outcome (skipN item xs.length) (xs.flatMap wire) (∀ x ∈ xs, P x) := by
  induction xs with
  | nil => exact (Steps.pure ()).outcome.congr (by simp)
  | cons x xs ih =>
    have hx := h x (by simp)
    have hxs := ih fun y hy => h y (by simp [hy])
    exact ((hx.then hxs).congr (by simp)).of_eq (by simp)

/-- One turn of the loop up to a stop code, as a step of its own. -/
theorem skipUntilBreak_succ (isMap : Bool) (fuel : Nat) {c : PeekCursor} {b : UInt8} {r : Bytes}
    (hc : c.At (b :: r)) (hb : b ≠ brk) :
    skipUntilBreak item isMap (fuel + 1) c =
      ((if isMap then item >>= fun _ => item else item) >>= fun _ =>
        skipUntilBreak item isMap fuel) c := by
  have hff : (b == 0xff) = false := by simpa [brk] using hb
  rw [skipUntilBreak, run_bind, peekBreak_ok hc, hff]
  cases isMap
  · rfl
  · show (item >>= fun _ => item >>= fun _ => skipUntilBreak item true fuel) c =
      ((item >>= fun _ => item) >>= fun _ => skipUntilBreak item true fuel) c
    rw [run_bind, run_bind, run_bind]
    rcases item c with e | ⟨u, c'⟩
    · rfl
    · dsimp only
      rw [run_bind]

theorem skipUntilBreak_end {isMap : Bool} {fuel : Nat} {c : PeekCursor} {r : Bytes}
    (hc : c.At (brk :: r)) : skipUntilBreak item isMap (fuel + 1) c = .ok ((), c.adv 1) := by
  have hff : (brk == 0xff) = true := by decide
  rw [skipUntilBreak, run_bind, peekBreak_ok hc, hff]
  rfl

/-- An indefinite container: no item starts with the stop code, so the loop ends where the items do.
    -/
theorem skipUntilBreak_outcome {isMap : Bool} {xs : List α}
    (hw : ∀ x, ∃ b t, wire x = b :: t ∧ b ≠ brk)
    (h : ∀ x ∈ xs, Outcome (if isMap then item >>= fun _ => item else item) (wire x) (P x))
    {fuel : Nat} (hf : xs.length < fuel) :
    Outcome (skipUntilBreak item isMap fuel) (xs.flatMap wire ++ [brk]) (∀ x ∈ xs, P x) := by
  induction xs generalizing fuel with
  | nil =>
    obtain ⟨f, rfl⟩ := Nat.exists_eq_succ_of_ne_zero (by omega : fuel ≠ 0)
    intro c r hc
    exact .inl ⟨by simp, skipUntilBreak_end (by simpa using hc)⟩
  | cons x xs ih =>
    obtain ⟨f, rfl⟩ := Nat.exists_eq_succ_of_ne_zero (by omega : fuel ≠ 0)
    have hx := h x (by simp)
    have hxs := ih (fun y hy => h y (by simp [hy])) (Nat.lt_of_succ_lt_succ hf)
    have hboth := ((hx.then hxs).congr (Q := ∀ y ∈ x :: xs, P y) (by simp)).of_eq
      (v := (x :: xs).flatMap wire ++ [brk]) (by simp)
    obtain ⟨b, t, hbt, hne⟩ := hw x
    intro c r hc
    have hc' : c.At (b :: (t ++ (xs.flatMap wire ++ [brk]) ++ r)) := by
      simpa [hbt] using hc
    rw [skipUntilBreak_succ isMap f hc' hne]
    exact hboth c r hc

/-- The fuel the loop starts with is never used up. -/
theorem skipUntilBreak_fuel {isMap : Bool} {xs : List α}
    (hw : ∀ x, ∃ b t, wire x = b :: t ∧ b ≠ brk)
    (h : ∀ x ∈ xs, Outcome (if isMap then item >>= fun _ => item else item) (wire x) (P x)) :
    Outcome (fun c => skipUntilBreak item isMap (c.buf.length - c.pos + 1) c)
      (xs.flatMap wire ++ [brk]) (∀ x ∈ xs, P x) := by
  intro c r hc
  have hlen := length_le_flatMap hw xs
  have hle := hc.length_le
  rw [List.length_append, List.length_singleton] at hle
  exact skipUntilBreak_outcome hw h (by omega) c r hc

end Repetition

theorem skipChunks_outcome {major : Nat} (hm : major = 2 ∨ major = 3) {cs : List Chunk}
    {fuel : Nat} (hf : cs.length < fuel) :
    Steps (skipChunks fuel) (cs.flatMap (Chunk.wire major) ++ [brk]) () := by
  have hm8 : major < 8 := by omega
  induction cs generalizing fuel with
  | nil =>
    obtain ⟨f, rfl⟩ := Nat.exists_eq_succ_of_ne_zero (by omega : fuel ≠ 0)
    intro c r hc
    have hff : (brk == 0xff) = true := by decide
    rw [skipChunks, run_bind, peekBreak_ok (by simpa using hc), hff]
    rfl
  | cons k cs ih =>
    obtain ⟨f, rfl⟩ := Nat.exists_eq_succ_of_ne_zero (by omega : fuel ≠ 0)
    have hks := ih (Nat.lt_of_succ_lt_succ hf)
    have hai : k.arg.ai < 32 := Nat.lt_trans k.arg.ai_lt (by decide)
    intro c r hc
    obtain ⟨b, t, hbt, hne⟩ := k.wire_ne_brk hm8
    have hff : (b == 0xff) = false := by simpa [brk] using hne
    have hc' : c.At (b :: (t ++ (cs.flatMap (Chunk.wire major) ++ [brk]) ++ r)) := by
      simpa [hbt] using hc
    rw [skipChunks, run_bind, peekBreak_ok hc', hff]
    have hdata : Steps (readBytes k.arg.val) k.data k.data := by
      rw [k.len]; exact readBytes_steps k.data
    have hbody : Steps (lengthFromAi k.arg.ai >>= fun n => readBytes n >>= fun _ => skipChunks f)
        (k.arg.tail ++ (k.data ++ (cs.flatMap (Chunk.wire major) ++ [brk]))) () :=
      (lengthFromAi_steps k.arg).bind (hdata.bind hks)
    have hall := (readHeader_steps hm8 hai).bind (f := fun p => (do
        if p.1 ≠ 2 ∧ p.1 ≠ 3 then throw (.invalidCbor "indefinite chunk wrong type")
        let n ← lengthFromAi p.2
        let _ ← readBytes n
        skipChunks f : Peek Unit)) (by
      rw [if_neg (by omega)]
      exact hbody)
    have hwire : (k :: cs).flatMap (Chunk.wire major) ++ [brk] =
        [initial major k.arg.ai] ++
          (k.arg.tail ++ (k.data ++ (cs.flatMap (Chunk.wire major) ++ [brk]))) := by
      simp [Chunk.wire, head]
    rw [hwire] at hc ⊢
    exact hall c r hc

theorem skipIndefiniteString_steps {major : Nat} (hm : major = 2 ∨ major = 3) (cs : List Chunk) :
    Steps skipIndefiniteString (cs.flatMap (Chunk.wire major) ++ [brk]) () := by
  intro c r hc
  have hm8 : major < 8 := by omega
  have hlen := length_le_flatMap (Chunk.wire_ne_brk hm8) cs
  have hle := hc.length_le
  rw [List.length_append, List.length_singleton] at hle
  exact skipChunks_outcome hm (by omega) c r hc

/-! ## Items

One level of the skip over the levels below it: first the containers, over any skip for what is
in them, then an item of each kind, and then the induction on the levels that are left.
-/

theorem skipString_steps (k : Chunk) :
    Steps (skipString k.arg.ai) (k.arg.tail ++ k.data) () := by
  have hne : k.arg.ai ≠ 31 := by have := k.arg.ai_lt; omega
  have hdata : Steps (readBytes k.arg.val) k.data k.data := by
    rw [k.len]; exact readBytes_steps k.data
  rw [skipString, if_neg hne]
  exact (lengthFromAi_steps k.arg).bind hdata.discard

theorem skipSimple_steps (a : Arg) : Steps (skipSimple a.ai) a.tail () := by
  have hbytes (w n : Nat) :
      Steps (readBytes w >>= fun _ => Pure.pure ()) (BigEndian.ofNat w n) () := by
    have h := (readBytes_steps (BigEndian.ofNat w n)).discard
    rwa [BigEndian.length_ofNat] at h
  cases a with
  | imm n =>
    have hn : n.val ≤ 23 := by have := n.isLt; omega
    show Steps (if n.val ≤ 23 then _ else _) [] ()
    rw [if_pos hn]
    exact Steps.pure ()
  | w1 n => exact (readU8_steps (UInt8.ofNat (n.toNat / 256 ^ 0))).discard
  | w2 n => exact hbytes 2 n.toNat
  | w4 n => exact hbytes 4 n.toNat
  | w8 n => exact hbytes 8 n.toNat

/-- Skipping a container gets through when everything in it is less than `left` high. -/
structure ContainerOutcome (container : Nat → Bool → Peek Unit) (left : Nat) : Prop where
  array : ∀ (a : Arg) (xs : List Item), a.val = xs.length → Item.WFList xs →
    Outcome (container a.ai false) (a.tail ++ Item.wireList xs) (Item.heightList xs < left)
  arrayIndef : ∀ xs : List Item, Item.WFList xs →
    Outcome (container 31 false) (Item.wireList xs ++ [brk]) (Item.heightList xs < left)
  map : ∀ (a : Arg) (es : List (Item × Item)), a.val = es.length → Item.WFEntries es →
    Outcome (container a.ai true) (a.tail ++ Item.wireEntries es) (Item.heightEntries es < left)
  mapIndef : ∀ es : List (Item × Item), Item.WFEntries es →
    Outcome (container 31 true) (Item.wireEntries es ++ [brk]) (Item.heightEntries es < left)

/-- What an item needs to be skipped once its initial byte is read: `left` levels below a
    container, `tagged` below a tag. -/
def Fits (left tagged : Nat) : Item → Prop
  | .array _ xs | .arrayIndef xs => Item.heightList xs < left
  | .map _ es | .mapIndef es => Item.heightEntries es < left
  | .tag _ x => x.height < tagged
  | _ => True

theorem fits_iff {left : Nat} (x : Item) : Fits left left x ↔ x.height < left + 1 := by
  cases x <;> simp [Fits, Item.height] <;> omega

theorem skipBody_outcome {container : Nat → Bool → Peek Unit} {inner : Peek Unit}
    {left tagged : Nat} (hc : ContainerOutcome container left)
    (ht : ∀ x : Item, x.WF → Outcome inner x.wire (x.height < tagged)) (x : Item) (hx : x.WF) :
    ∃ mt ai body, mt < 8 ∧ ai < 32 ∧ x.wire = initial mt ai :: body ∧
      Outcome (skipBody container inner mt ai) body (Fits left tagged x) := by
  have hai (a : Arg) : a.ai < 32 := Nat.lt_trans a.ai_lt (by decide)
  have hsimple (a : Arg) : Outcome (skipBody container inner 7 a.ai) a.tail True :=
    (skipSimple_steps a).outcome
  cases x with
  | uint a =>
    exact ⟨0, a.ai, a.tail, by decide, hai a, rfl, (lengthFromAi_steps a).discard.outcome⟩
  | nint a =>
    exact ⟨1, a.ai, a.tail, by decide, hai a, rfl, (lengthFromAi_steps a).discard.outcome⟩
  | bytes k =>
    exact ⟨2, k.arg.ai, k.arg.tail ++ k.data, by decide, hai _, rfl,
      (skipString_steps k).outcome⟩
  | text k =>
    exact ⟨3, k.arg.ai, k.arg.tail ++ k.data, by decide, hai _, rfl,
      (skipString_steps k).outcome⟩
  | bytesIndef cs =>
    exact ⟨2, 31, _, by decide, by decide, rfl, (skipIndefiniteString_steps (.inl rfl) cs).outcome⟩
  | textIndef cs =>
    exact ⟨3, 31, _, by decide, by decide, rfl, (skipIndefiniteString_steps (.inr rfl) cs).outcome⟩
  | array a xs => exact ⟨4, a.ai, _, by decide, hai a, rfl, hc.array a xs hx.1 hx.2⟩
  | arrayIndef xs => exact ⟨4, 31, _, by decide, by decide, rfl, hc.arrayIndef xs hx⟩
  | map a es => exact ⟨5, a.ai, _, by decide, hai a, rfl, hc.map a es hx.1 hx.2⟩
  | mapIndef es => exact ⟨5, 31, _, by decide, by decide, rfl, hc.mapIndef es hx⟩
  | tag a x =>
    exact ⟨6, a.ai, _, by decide, hai a, rfl, Outcome.after (lengthFromAi_steps a) (ht x hx)⟩
  | simple n => exact ⟨7, n.val, [], by decide, hai (.imm n), rfl, hsimple (.imm n)⟩
  | simpleExt n => exact ⟨7, 24, _, by decide, by decide, rfl, hsimple (.w1 n)⟩
  | half n => exact ⟨7, 25, _, by decide, by decide, rfl, hsimple (.w2 n)⟩
  | single n => exact ⟨7, 26, _, by decide, by decide, rfl, hsimple (.w4 n)⟩
  | double n => exact ⟨7, 27, _, by decide, by decide, rfl, hsimple (.w8 n)⟩

/-- Containers, over an item skip that has `left + 1` levels. -/
theorem skipContainer_outcome {item : Peek Unit} {left : Nat}
    (h : ∀ x : Item, x.WF → Outcome item x.wire (x.height < left + 1)) :
    ContainerOutcome (skipContainer item) (left + 1) := by
  have hlist (xs : List Item) : (∀ x ∈ xs, x.height < left + 1) ↔ Item.heightList xs < left + 1 := by
    rw [Nat.lt_succ_iff, Item.heightList_le]
    exact forall₂_congr fun _ _ => Nat.lt_succ_iff
  have hentries (es : List (Item × Item)) :
      (∀ e ∈ es, e.1.height < left + 1 ∧ e.2.height < left + 1) ↔
        Item.heightEntries es < left + 1 := by
    rw [Nat.lt_succ_iff, Item.heightEntries_le]
    exact forall₂_congr fun _ _ => and_congr Nat.lt_succ_iff Nat.lt_succ_iff
  have hpair (e : Item × Item) (he : e.1.WF ∧ e.2.WF) :
      Outcome (item >>= fun _ => item) (Item.wireEntry e)
        (e.1.height < left + 1 ∧ e.2.height < left + 1) :=
    (h e.1 he.1).then (h e.2 he.2)
  -- the definite containers: as many items as announced, the product within 64 bits
  have hdefinite (a : Arg) (isMap : Bool) (n : Nat) (body : Bytes) (P : Prop)
      (hn : a.val * (if isMap then 2 else 1) = n) (hlen : n ≤ body.length)
      (hbody : Outcome (skipN item n) body P) :
      Outcome (skipContainer item a.ai isMap) (a.tail ++ body) P := by
    refine Outcome.after (countFromAi_steps a) fun c r hc => ?_
    have hle := hc.length_le
    have hlt := hc.len_lt
    have hsmall : ¬2 ^ 64 ≤ n := by omega
    dsimp only
    rw [if_neg Bool.false_ne_true, hn, if_neg hsmall]
    exact hbody c r hc
  have hindef (isMap : Bool) (body : Bytes) (P : Prop)
      (hbody : Outcome (fun c => skipUntilBreak item isMap (c.buf.length - c.pos + 1) c) body P) :
      Outcome (skipContainer item 31 isMap) body P := by
    have hcount : Steps (countFromAi 31) [] (0, true) := Steps.pure _
    have := Outcome.after (f := fun p => (if p.2 then
        fun c => skipUntilBreak item isMap (c.buf.length - c.pos + 1) c
      else do
        if 2 ^ 64 ≤ p.1 * (if isMap then 2 else 1) then
          throw (.invalidCbor "map length overflow")
        skipN item (p.1 * (if isMap then 2 else 1)) : Peek Unit)) hcount hbody
    exact this
  constructor
  · intro a xs ha hxs
    have hitems := skipN_outcome fun x hx => h x (Item.wfList_iff.mp hxs x hx)
    rw [Item.wireList_eq]
    exact hdefinite a false xs.length _ _ (by simp [ha])
      (length_le_flatMap Item.wire_ne_brk xs) (hitems.congr (hlist xs))
  · intro xs hxs
    have hitem : ∀ x ∈ xs, Outcome (if false then item >>= fun _ => item else item) x.wire
        (x.height < left + 1) := fun x hx => h x (Item.wfList_iff.mp hxs x hx)
    rw [Item.wireList_eq]
    exact hindef false _ _ ((skipUntilBreak_fuel Item.wire_ne_brk hitem).congr (hlist xs))
  · intro a es ha hes
    -- a map is its keys and values in a row
    have hflat : es.flatMap Item.wireEntry =
        (es.flatMap fun e => [e.1, e.2]).flatMap Item.wire := by
      simp only [List.flatMap_assoc, List.flatMap_cons, List.flatMap_nil, List.append_nil]
      rfl
    have hwf : ∀ x ∈ es.flatMap (fun e => [e.1, e.2]), x.WF := by
      intro x hx
      obtain ⟨e, he, hxe⟩ := List.mem_flatMap.mp hx
      obtain ⟨h1, h2⟩ := Item.wfEntries_iff.mp hes e he
      rcases List.mem_pair.mp hxe with rfl | rfl
      · exact h1
      · exact h2
    have hlen : (es.flatMap fun e => [e.1, e.2]).length = es.length * 2 := by
      simp [List.length_flatMap]
    have hitems := skipN_outcome fun x hx => h x (hwf x hx)
    rw [Item.wireEntries_eq, hflat]
    refine hdefinite a true (es.length * 2) _ _ (by simp [ha]) ?_ ?_
    · rw [← hlen]; exact length_le_flatMap Item.wire_ne_brk _
    · rw [← hlen]
      refine hitems.congr ((Iff.trans ?_ (hentries es)))
      simp only [List.mem_flatMap, List.mem_cons, List.not_mem_nil, or_false]
      constructor
      · intro hall e he
        exact ⟨hall _ ⟨e, he, .inl rfl⟩, hall _ ⟨e, he, .inr rfl⟩⟩
      · rintro hall x ⟨e, he, rfl | rfl⟩
        · exact (hall e he).1
        · exact (hall e he).2
  · intro es hes
    have hitem : ∀ e ∈ es, Outcome (if true then item >>= fun _ => item else item)
        (Item.wireEntry e) (e.1.height < left + 1 ∧ e.2.height < left + 1) :=
      fun e he => hpair e (Item.wfEntries_iff.mp hes e he)
    rw [Item.wireEntries_eq]
    exact hindef true _ _ ((skipUntilBreak_fuel Item.wireEntry_ne_brk hitem).congr (hentries es))

/-- With no level left a container is refused, and nothing in a container has a height below zero.
    -/
theorem containerOutcome_zero {container : Nat → Bool → Peek Unit}
    (h : ∀ ai isMap c, ∃ e, container ai isMap c = .error e) : ContainerOutcome container 0 where
  array _ _ _ _ := (Outcome.fail fun c _ _ => h _ _ c).congr (by simp)
  arrayIndef _ _ := (Outcome.fail fun c _ _ => h _ _ c).congr (by simp)
  map _ _ _ _ := (Outcome.fail fun c _ _ => h _ _ c).congr (by simp)
  mapIndef _ _ := (Outcome.fail fun c _ _ => h _ _ c).congr (by simp)

/-- One level of the skip, over the levels below. -/
theorem skipNextItemAtDepth_succ {left : Nat} {container : Nat → Bool → Peek Unit}
    (hc : ContainerOutcome container left)
    (ht : ∀ x : Item, x.WF → Outcome (skipNextItemAtDepth left) x.wire (x.height < left))
    (heq : skipNextItemAtDepth (left + 1) = readHeader >>= fun p =>
      skipBody container (skipNextItemAtDepth left) p.1 p.2) (x : Item) (hx : x.WF) :
    Outcome (skipNextItemAtDepth (left + 1)) x.wire (x.height < left + 1) := by
  obtain ⟨mt, ai, body, hmt, hai, hwire, hbody⟩ := skipBody_outcome hc ht x hx
  have hall := Outcome.after (f := fun p => skipBody container (skipNextItemAtDepth left) p.1 p.2)
    (readHeader_steps hmt hai) hbody
  rw [hwire, heq]
  exact hall.congr (fits_iff x)

/-- **Skipping an item**: past it exactly, or an error when it is too high. -/
theorem skipNextItemAtDepth_outcome (left : Nat) (x : Item) (hx : x.WF) :
    Outcome (skipNextItemAtDepth left) x.wire (x.height < left) := by
  induction left generalizing x with
  | zero => exact (Outcome.fail fun _ _ _ => ⟨_, rfl⟩).congr (by simp)
  | succ left ih =>
    cases left with
    | zero =>
      exact skipNextItemAtDepth_succ (containerOutcome_zero fun _ _ _ => ⟨nestingTooDeep, rfl⟩)
        ih rfl x hx
    | succ left => exact skipNextItemAtDepth_succ (skipContainer_outcome ih) ih rfl x hx

theorem skipNextItem_outcome (x : Item) (hx : x.WF) :
    Outcome skipNextItem x.wire (x.height ≤ peekMaxDepth) :=
  (skipNextItemAtDepth_outcome _ x hx).congr Nat.lt_succ_iff

/-- Skipping an item whose initial byte has been read. A tag gets one level more than
    anything else. -/
theorem skipAfterHeader_outcome (x : Item) (hx : x.WF) :
    ∃ mt ai body, mt < 8 ∧ ai < 32 ∧ x.wire = initial mt ai :: body ∧
      Outcome (skipAfterHeader mt ai) body (Fits peekMaxDepth (peekMaxDepth + 1) x) :=
  skipBody_outcome (skipContainer_outcome (skipNextItemAtDepth_outcome peekMaxDepth))
    (skipNextItemAtDepth_outcome (peekMaxDepth + 1)) x hx

end PeekCursor
end Cat
