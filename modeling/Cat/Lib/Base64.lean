import Cat.Lib.Lists
import Mathlib.Data.List.Basic

/-!
# Base64url without padding

Base64 without padding in the alphabet that is safe in URLs, and the standard one with padding
on top of it. The decoder is the strict one: it takes the alphabet and nothing else, no padding,
and no last symbol with bits that belong to no byte. For this decoder text and bytes determine
each other: `decode_encode` and `encode_decode`.

Strictness is what the second of them needs. A lenient decoder reads two texts as the same
bytes, and a signature over the text then covers one of them only.

The text is looked at through its digits (`sextets`): encoding is turning bytes into digits and
spelling these, so the arithmetic is done once on numbers below 64 and the alphabet enters
through `digit_spec` alone. The recursion takes three bytes or four digits at a time, and the
short last group is the case where bits could be lost.
-/

set_option autoImplicit false

namespace Base64

def alphabet : List Char :=
  "ABCDEFGHIJKLMNOPQRSTUVWXYZabcdefghijklmnopqrstuvwxyz0123456789-_".toList

def digit (n : Nat) : Char := alphabet.getD (n % 64) 'A'

def encode : List UInt8 → List Char
  | a :: b :: c :: rest =>
    let n := a.toNat * 65536 + b.toNat * 256 + c.toNat
    digit (n / 262144) :: digit (n / 4096) :: digit (n / 64) :: digit n :: encode rest
  | [a, b] =>
    let n := a.toNat * 1024 + b.toNat * 4
    [digit (n / 4096), digit (n / 64), digit n]
  | [a] =>
    let n := a.toNat * 16
    [digit (n / 64), digit n]
  | [] => []

def decodeSextets : List Nat → Except String (List UInt8)
  | a :: b :: c :: d :: rest =>
    let n := a * 262144 + b * 4096 + c * 64 + d
    (decodeSextets rest).map fun bs =>
      UInt8.ofNat (n / 65536) :: UInt8.ofNat (n / 256) :: UInt8.ofNat n :: bs
  | [a, b, c] =>
    let n := a * 4096 + b * 64 + c
    if n % 4 = 0 then .ok [UInt8.ofNat (n / 1024), UInt8.ofNat (n / 4)]
    else .error "Invalid last symbol"
  | [a, b] =>
    let n := a * 64 + b
    if n % 16 = 0 then .ok [UInt8.ofNat (n / 16)] else .error "Invalid last symbol"
  | [_] => .error "Invalid input length"
  | [] => .ok []

def decode (s : List Char) : Except String (List UInt8) :=
  match s.mapM fun c => alphabet.findIdx? (· = c) with
  | some sextets => decodeSextets sextets
  | none => .error "Invalid symbol"

example : String.ofList (encode [0xfb, 0xff, 0x00, 0x61]) = "-_8AYQ" ∧
    decode "-_8AYQ".toList = .ok [0xfb, 0xff, 0x00, 0x61] := by
  decide +kernel

/-! ## There and back

Three bytes are four digits. At the end one or two bytes are left over, whose last digit has
bits to spare, and the decoder wants these to be zero; without that there would be several texts
for the same bytes.
-/

/-- The digits of the text. -/
def sextets : List UInt8 → List Nat
  | a :: b :: c :: rest =>
    let n := a.toNat * 65536 + b.toNat * 256 + c.toNat
    n / 262144 :: n / 4096 % 64 :: n / 64 % 64 :: n % 64 :: sextets rest
  | [a, b] =>
    let n := a.toNat * 1024 + b.toNat * 4
    [n / 4096, n / 64 % 64, n % 64]
  | [a] =>
    let n := a.toNat * 16
    [n / 64, n % 64]
  | [] => []

theorem digit_mod (n : Nat) : digit (n % 64) = digit n := by
  rw [digit, digit, Nat.mod_mod]

theorem encode_eq (bs : List UInt8) : encode bs = (sextets bs).map digit := by
  induction bs using encode.induct with
  | case1 a b c rest ih => simp only [encode, sextets, List.map_cons, digit_mod, ih]
  | case2 a b => simp only [encode, sextets, List.map_cons, List.map_nil, digit_mod]
  | case3 a => simp only [encode, sextets, List.map_cons, List.map_nil, digit_mod]
  | case4 => rfl

/-- The digits are digits. -/
theorem sextets_lt {bs : List UInt8} : ∀ n ∈ sextets bs, n < 64 := by
  induction bs using sextets.induct with
  | case1 a b c rest ih =>
    have ha := a.toNat_lt
    have hb := b.toNat_lt
    have hc := c.toNat_lt
    simp only [sextets, List.mem_cons]
    rintro m (rfl | rfl | rfl | rfl | hm)
    · omega
    · omega
    · omega
    · omega
    · exact ih m hm
  | case2 a b =>
    have ha := a.toNat_lt
    have hb := b.toNat_lt
    simp only [sextets, List.mem_cons, List.not_mem_nil, or_false]
    omega
  | case3 a =>
    have ha := a.toNat_lt
    simp only [sextets, List.mem_cons, List.not_mem_nil, or_false]
    omega
  | case4 => exact fun m hm => absurd hm List.not_mem_nil

theorem decodeSextets_sextets (bs : List UInt8) : decodeSextets (sextets bs) = .ok bs := by
  induction bs using sextets.induct with
  | case1 a b c rest ih =>
    have ha := a.toNat_lt
    have hb := b.toNat_lt
    have hc := c.toNat_lt
    simp only [sextets, decodeSextets, ih, Except.map, Except.ok.injEq, List.cons.injEq, and_true]
    refine ⟨?_, ?_, ?_⟩ <;> apply UInt8.toNat_inj.mp <;> rw [UInt8.toNat_ofNat'] <;> omega
  | case2 a b =>
    have ha := a.toNat_lt
    have hb := b.toNat_lt
    simp only [sextets, decodeSextets]
    rw [if_pos (by omega)]
    simp only [Except.ok.injEq, List.cons.injEq, and_true]
    refine ⟨?_, ?_⟩ <;> apply UInt8.toNat_inj.mp <;> rw [UInt8.toNat_ofNat'] <;> omega
  | case3 a =>
    have ha := a.toNat_lt
    simp only [sextets, decodeSextets]
    rw [if_pos (by omega)]
    simp only [Except.ok.injEq, List.cons.injEq, and_true]
    apply UInt8.toNat_inj.mp
    rw [UInt8.toNat_ofNat']
    omega
  | case4 => rfl

/-- Nothing else is decoded: the digits of the short last group have no stray bits. The induction
    follows the groups of four digits. -/
theorem sextets_decodeSextets {ns : List Nat} : ∀ {bs : List UInt8}, (∀ n ∈ ns, n < 64) →
    decodeSextets ns = .ok bs → sextets bs = ns := by
  induction ns using decodeSextets.induct with
  | case1 a b c d rest ih =>
    intro bs hlt h
    simp only [List.forall_mem_cons] at hlt
    obtain ⟨ha, hb, hc, hd, hrest⟩ := hlt
    rw [decodeSextets] at h
    cases htail : decodeSextets rest with
    | error e =>
      rw [htail] at h
      cases h
    | ok tail =>
      rw [htail] at h
      obtain rfl := Except.ok.inj h
      simp only [sextets, ih hrest htail, UInt8.toNat_ofNat', List.cons.injEq, and_true]
      omega
  | case2 a b c =>
    rename_i hn
    intro bs hlt h
    simp only [List.forall_mem_cons] at hlt
    -- The last symbol of a short group carries bits that no byte uses; they are checked to be zero.
    rw [decodeSextets, if_pos hn] at h
    obtain rfl := Except.ok.inj h
    simp only [sextets, UInt8.toNat_ofNat', List.cons.injEq, and_true]
    omega
  | case3 a b c =>
    rename_i hn
    intro bs hlt h
    rw [decodeSextets, if_neg hn] at h
    cases h
  | case4 a b =>
    rename_i hn
    intro bs hlt h
    simp only [List.forall_mem_cons] at hlt
    rw [decodeSextets, if_pos hn] at h
    obtain rfl := Except.ok.inj h
    simp only [sextets, UInt8.toNat_ofNat', List.cons.injEq, and_true]
    omega
  | case5 a b =>
    rename_i hn
    intro bs hlt h
    rw [decodeSextets, if_neg hn] at h
    cases h
  | case6 a =>
    intro bs hlt h
    cases h
  | case7 =>
    intro bs hlt h
    obtain rfl := Except.ok.inj h
    rfl

/-- What the alphabet is used for: each digit has one symbol, which is found again, is a single
    byte, and is not the dot that separates the parts of a token. -/
theorem digit_spec {n : Nat} (h : n < 64) :
    alphabet.findIdx? (· = digit n) = some n ∧ (digit n).toNat < 128 ∧ digit n ≠ '.' := by
  have hall : ∀ n : Fin 64, alphabet.findIdx? (· = digit n) = some n.val ∧
      (digit n).toNat < 128 ∧ digit n ≠ '.' := by decide +kernel
  exact hall ⟨n, h⟩

theorem digit_of_findIdx {c : Char} {n : Nat} (h : alphabet.findIdx? (· = c) = some n) :
    n < 64 ∧ digit n = c := by
  obtain ⟨hlt, hc, -⟩ := List.findIdx?_eq_some_iff_getElem.mp h
  have hlen : alphabet.length = 64 := by decide +kernel
  have hn : n < 64 := hlen ▸ hlt
  refine ⟨hn, ?_⟩
  rw [digit, Nat.mod_eq_of_lt hn, List.getD_eq_getElem?_getD, List.getElem?_eq_getElem hlt]
  exact of_decide_eq_true hc

/-- **What is encoded is decoded.** -/
theorem decode_encode (bs : List UInt8) : decode (encode bs) = .ok bs := by
  have hdigits : ∀ ns : List Nat, (∀ n ∈ ns, n < 64) →
      (ns.map digit).mapM (fun c => alphabet.findIdx? (· = c)) = some ns := by
    intro ns
    induction ns with
    | nil => exact fun _ => rfl
    | cons n ns ih =>
      intro hlt
      obtain ⟨hn, hns⟩ := List.forall_mem_cons.mp hlt
      rw [List.map_cons, List.mapM_cons, (digit_spec hn).1, ih hns]
      rfl
  rw [decode, encode_eq, hdigits _ sextets_lt]
  exact decodeSextets_sextets bs

/-- **And nothing else.** -/
theorem encode_decode {s : List Char} {bs : List UInt8} (h : decode s = .ok bs) :
    encode bs = s := by
  have hdigits : ∀ (s : List Char) (ns : List Nat),
      s.mapM (fun c => alphabet.findIdx? (· = c)) = some ns →
        (∀ n ∈ ns, n < 64) ∧ ns.map digit = s := by
    intro s
    induction s with
    | nil =>
      intro ns hns
      obtain rfl := Option.some.inj hns
      exact ⟨fun n hn => absurd hn List.not_mem_nil, rfl⟩
    | cons c s ih =>
      intro ns hns
      rw [List.mapM_cons] at hns
      obtain ⟨n, hn, hns⟩ := Option.bind_eq_some_iff.mp hns
      obtain ⟨ms, hms, hns⟩ := Option.bind_eq_some_iff.mp hns
      obtain rfl := Option.some.inj hns
      obtain ⟨hlt, hc⟩ := digit_of_findIdx hn
      obtain ⟨hlts, hs⟩ := ih ms hms
      exact ⟨List.forall_mem_cons.mpr ⟨hlt, hlts⟩, by rw [List.map_cons, hc, hs]⟩
  unfold decode at h
  split at h
  · rename_i ns hns
    obtain ⟨hlt, hs⟩ := hdigits s ns hns
    rw [encode_eq, sextets_decodeSextets hlt h, hs]
  · cases h

theorem encode_ascii {bs : List UInt8} {c : Char} (h : c ∈ encode bs) :
    c.toNat < 128 ∧ c ≠ '.' := by
  rw [encode_eq] at h
  obtain ⟨n, hn, rfl⟩ := List.mem_map.mp h
  exact (digit_spec (sextets_lt n hn)).2

/-- What is encoded is in the alphabet. -/
theorem mem_alphabet {bs : List UInt8} {c : Char} (h : c ∈ encode bs) : c ∈ alphabet := by
  rw [encode_eq] at h
  obtain ⟨n, hn, rfl⟩ := List.mem_map.mp h
  obtain ⟨hlt, hc, -⟩ := List.findIdx?_eq_some_iff_getElem.mp (digit_spec (sextets_lt n hn)).1
  rw [← of_decide_eq_true hc]
  exact List.getElem_mem hlt

/-! ## The standard alphabet, with padding

By way of the other alphabet: two symbols are exchanged, and the padding is put behind.
-/

def toStandard (c : Char) : Char := if c = '-' then '+' else if c = '_' then '/' else c

def ofStandard (c : Char) : Char := if c = '+' then '-' else if c = '/' then '_' else c

def encodePadded (bs : List UInt8) : List Char :=
  (encode bs).map toStandard ++ List.replicate ((3 - bs.length % 3) % 3) '='

/-- There may be any padding, but nothing after it. -/
def decodePadded (s : List Char) : Except String (List UInt8) :=
  if (s.dropWhile (· != '=')).all (· == '=') then
    decode ((s.takeWhile (· != '=')).map ofStandard)
  else .error "Invalid padding"

/-- A padded text is letters, digits and three marks. -/
theorem mem_encodePadded {bs : List UInt8} {c : Char} (h : c ∈ encodePadded bs) :
    (c.isAlphanum || "+/=".toList.contains c) = true := by
  have halphabet : ∀ c ∈ alphabet,
      ((toStandard c).isAlphanum || "+/=".toList.contains (toStandard c)) = true :=
    List.forall_mem_of_all (by decide +kernel)
  cases List.mem_append.mp h with
  | inl hc =>
    obtain ⟨d, hd, rfl⟩ := List.mem_map.mp hc
    exact halphabet d (mem_alphabet hd)
  | inr hc =>
    rw [List.eq_of_mem_replicate hc]
    decide

theorem decodePadded_encodePadded (bs : List UInt8) : decodePadded (encodePadded bs) = .ok bs := by
  have halphabet : ∀ c ∈ alphabet, toStandard c ≠ '=' ∧ ofStandard (toStandard c) = c :=
    List.forall_mem_of_all (by decide +kernel)
  have htext : ∀ c ∈ (encode bs).map toStandard, (c != '=') = true := by
    intro c hc
    obtain ⟨d, hd, rfl⟩ := List.mem_map.mp hc
    exact bne_iff_ne.mpr (halphabet d (mem_alphabet hd)).1
  have hpadding : ∀ n, ∀ c ∈ (List.replicate n '=').head?, (c != '=') = false := by
    intro n c hc
    rw [List.eq_of_mem_replicate (List.mem_of_mem_head? hc)]
    decide
  have hback : ((encode bs).map toStandard).map ofStandard = encode bs := by
    rw [List.map_map]
    refine (List.map_congr_left ?_).trans (List.map_id _)
    exact fun c hc => (halphabet c (mem_alphabet hc)).2
  unfold decodePadded encodePadded
  rw [List.takeWhile_run htext (hpadding _), List.dropWhile_run htext (hpadding _), hback,
    if_pos (by simp), decode_encode]

end Base64
