import Cat.Cwt.Forms
import Cat.Token.Enforce

/-!
# Network identifiers on the wire

A prefix travels as the octets it reaches into, under its length, and the decoder wants the bits
of the last octet behind the prefix to be zero. The encoder checks neither that there are enough
octets nor that those bits are zero, and the constructors do not either.
`networkIdentifier_roundTrips_iff` says that this is all that can go wrong: any other identifier
comes back, and matches the peers it matched.

An address is a number here, with 32 or 128 bits, and a prefix is a question about quotients:
two addresses agree in front if they do when divided by the power of two of what is left. So
both sides of the round trip are arithmetic. What the encoder drops are the octets behind the
prefix, which divide out, and what the decoder fills in are zeros, so the network that comes
back need not have the address that was written. It has the same prefix, which is all that is
ever compared (`bitsInPrefix_padded`).

A length beyond the bits of the family is where the encoder fails in another way: it slices the
octets of the address, and panics. The model has that outcome as an error of its own.
-/

set_option autoImplicit false

namespace Cat

open Cbor

/-! ## Addresses as numbers -/

namespace IpAddr

/-- How many bits the family has. -/
def width : IpAddr → Nat
  | .v4 _ => 32
  | .v6 _ => 128

def toNat : IpAddr → Nat
  | .v4 a => a.toNat
  | .v6 a => a.toNat

def tag : IpAddr → UInt64
  | .v4 _ => cborTagIpv4
  | .v6 _ => cborTagIpv6

/-- The bits from one position to another, counted from the front of the address. -/
def bitsBetween (addr : IpAddr) (start stop : Nat) : Nat :=
  addr.toNat / 2 ^ (addr.width - stop) % 2 ^ (stop - start)

end IpAddr

theorem testBit_prefixMask {w len : Nat} (hlen : len ≤ w) (hpos : len ≠ 0) (i : Nat) (hi : i < w) :
    (prefixMask w len).getLsbD i = decide (w - len ≤ i) := by
  unfold prefixMask
  by_cases hfull : len = w
  · rw [if_pos hfull, BitVec.getLsbD_allOnes]
    simp [hfull, hi]
  · rw [if_neg hfull]
    -- the complement of the low `w - len` bits
    have hlow : (1#w <<< (w - len)) - 1#w = BitVec.ofNat w (2 ^ (w - len) - 1) := by
      have hlt : 2 ^ (w - len) < 2 ^ w := Nat.pow_lt_pow_right (by decide) (by omega)
      have hone : 1 < 2 ^ w := Nat.one_lt_two_pow (by omega)
      apply BitVec.eq_of_toNat_eq
      rw [BitVec.toNat_sub, BitVec.toNat_shiftLeft, BitVec.toNat_ofNat, BitVec.toNat_ofNat,
        Nat.mod_eq_of_lt hone, Nat.one_shiftLeft, Nat.mod_eq_of_lt hlt]
      have hge : 1 ≤ 2 ^ (w - len) := Nat.one_le_two_pow
      rw [show 2 ^ w - 1 + 2 ^ (w - len) = 2 ^ (w - len) - 1 + 2 ^ w by omega, Nat.add_mod_right]
    rw [hlow, BitVec.getLsbD_not, BitVec.getLsbD_ofNat, Nat.testBit_two_pow_sub_one,
      Bool.eq_iff_iff]
    simp only [hi, decide_true, Bool.true_and, Bool.not_eq_true', decide_eq_false_iff_not,
      decide_eq_true_eq]
    omega

/-- A prefix compares the numbers in front of it. -/
theorem bitsInPrefix_iff {w : Nat} (peer net : BitVec w) {len : Nat} (hlen : len ≤ w) :
    bitsInPrefix peer net len = true ↔
      peer.toNat / 2 ^ (w - len) = net.toNat / 2 ^ (w - len) := by
  unfold bitsInPrefix
  by_cases hzero : len = 0
  · subst hzero
    simp [Nat.div_eq_of_lt peer.isLt, Nat.div_eq_of_lt net.isLt]
  · rw [if_neg hzero, if_neg (by omega), beq_iff_eq]
    have hbit (x : BitVec w) (i : Nat) : (x &&& prefixMask w len).getLsbD i =
        (x.getLsbD i && decide (w - len ≤ i)) := by
      rw [BitVec.getLsbD_and]
      by_cases hi : i < w
      · rw [testBit_prefixMask hlen hzero i hi]
      · rw [BitVec.getLsbD_of_ge x i (by omega), Bool.false_and, Bool.false_and]
    constructor
    · intro h
      apply Nat.eq_of_testBit_eq
      intro i
      rw [Nat.testBit_div_two_pow, Nat.testBit_div_two_pow]
      have hi := congrArg (fun x => BitVec.getLsbD x (i + (w - len))) h
      rw [hbit, hbit] at hi
      simpa [BitVec.getLsbD] using hi
    · intro h
      apply BitVec.eq_of_getLsbD_eq
      intro i hi
      rw [hbit, hbit]
      by_cases hlow : w - len ≤ i
      · have hdiv := congrArg (Nat.testBit · (i - (w - len))) h
        simp only [Nat.testBit_div_two_pow, Nat.sub_add_cancel hlow] at hdiv
        rw [BitVec.getLsbD, BitVec.getLsbD, hdiv]
      · simp [hlow]

/-! ## Prefixes -/

theorem lastByte_and_mask (x : Nat) (len : UInt8) :
    UInt8.ofNat x &&& (0xFF >>> (len % 8)) = 0 ↔ x % 2 ^ (8 - len.toNat % 8) = 0 := by
  have hmask : ∀ b < 8, ((0xFF : UInt8) >>> UInt8.ofNat b).toNat = 2 ^ (8 - b) - 1 := by decide
  have hlt : len.toNat % 8 < 8 := Nat.mod_lt _ (by decide)
  have hmod : len % 8 = UInt8.ofNat (len.toNat % 8) := by
    rw [← UInt8.toNat_inj, UInt8.toNat_mod, UInt8.toNat_ofNat']
    show len.toNat % 8 = _
    omega
  have hdvd : 2 ^ (8 - len.toNat % 8) ∣ 2 ^ 8 := Nat.pow_dvd_pow 2 (by omega)
  rw [hmod, ← UInt8.toNat_inj, UInt8.toNat_and, hmask _ hlt, Nat.and_two_pow_sub_one_eq_mod,
    UInt8.toNat_ofNat']
  show x % 2 ^ 8 % 2 ^ (8 - len.toNat % 8) = 0 ↔ _
  rw [Nat.mod_mod_of_dvd x hdvd]

/-- The decoder looks at the bits of the last octet that the prefix does not reach. -/
theorem validateHostBitsZero_ofNat (len : UInt8) (x : Nat) :
    validateHostBitsZero (BigEndian.ofNat (prefixByteCount len) x) len = .ok () ↔
      x % 2 ^ (8 * prefixByteCount len - len.toNat) = 0 := by
  unfold validateHostBitsZero
  cases hk : prefixByteCount len with
  | zero => simp [BigEndian.ofNat, Nat.mod_one]
  | succ k =>
    rw [BigEndian.getLast?_ofNat]
    refine Except.check_eq_ok.trans ?_
    rw [ne_eq, ne_eq, lastByte_and_mask]
    have hcount : (len.toNat + 7) / 8 = k + 1 := hk
    have hpart : len % 8 = 0 ↔ len.toNat % 8 = 0 := by
      rw [← UInt8.toNat_inj]
      simp
    by_cases hwhole : len.toNat % 8 = 0
    · have hexp : 8 * (k + 1) - len.toNat = 0 := by omega
      simp [hpart, hwhole, hexp, Nat.mod_one]
    · have hexp : 8 * (k + 1) - len.toNat = 8 - len.toNat % 8 := by omega
      simp [hpart, hwhole, hexp]

theorem paddedAddress_ofNat (k r x : Nat) :
    paddedAddress (BigEndian.ofNat k x) (k + r) = x % 256 ^ k * 256 ^ r := by
  have hlength : (BigEndian.ofNat k x).length = k := BigEndian.length_ofNat k x
  rw [paddedAddress, List.take_of_length_le (by omega), hlength, Nat.add_sub_cancel_left,
    BigEndian.toNat_append_zeros, BigEndian.toNat_ofNat_mod]

/-- Octets behind the prefix may be dropped. -/
theorem bitsInPrefix_padded {w : Nat} (peer net : BitVec w) {len stop : Nat} (hlen : len ≤ stop)
    (hstop : stop ≤ w) :
    bitsInPrefix peer (BitVec.ofNat w (net.toNat / 2 ^ (w - stop) * 2 ^ (w - stop))) len =
      bitsInPrefix peer net len := by
  have hle : net.toNat / 2 ^ (w - stop) * 2 ^ (w - stop) ≤ net.toNat := Nat.div_mul_le_self _ _
  have hlt : net.toNat / 2 ^ (w - stop) * 2 ^ (w - stop) < 2 ^ w := Nat.lt_of_le_of_lt hle net.isLt
  have hsplit : 2 ^ (w - len) = 2 ^ (w - stop) * 2 ^ (stop - len) := by
    rw [← Nat.pow_add]
    congr 1
    omega
  rw [Bool.eq_iff_iff, bitsInPrefix_iff _ _ (by omega), bitsInPrefix_iff _ _ (by omega),
    BitVec.toNat_ofNat, Nat.mod_eq_of_lt hlt, hsplit, ← Nat.div_div_eq_div_mul net.toNat,
    ← Nat.div_div_eq_div_mul (_ * _), Nat.mul_div_cancel _ (Nat.two_pow_pos _)]

/-! ## Round trips -/

/-- A length within the family's bits is read as it was written. -/
theorem decodePrefixLen_integer {len : UInt8} {addr : IpAddr} {n : Integer} {i : Int64}
    (hn : n.toI64? = some i) (hi : i.toInt = len.toNat) (h : len.toNat ≤ addr.width) :
    decodePrefixLen addr.tag (.integer n) = .ok len := by
  have hback : UInt8.ofNat i.toInt.toNat = len := by
    rw [hi]
    simp
  cases addr with
  | v4 a =>
    have hmax : ¬(i.toInt < 0 ∨ ((32 : Nat) : Int) < i.toInt) := by
      have h32 : len.toNat ≤ 32 := h
      omega
    show decodePrefixLen cborTagIpv4 (.integer n) = .ok len
    simp only [decodePrefixLen, hn]
    rw [if_pos trivial, if_neg hmax, hback]
  | v6 a =>
    have hmax : ¬(i.toInt < 0 ∨ ((128 : Nat) : Int) < i.toInt) := by
      have h128 : len.toNat ≤ 128 := h
      omega
    show decodePrefixLen cborTagIpv6 (.integer n) = .ok len
    simp only [decodePrefixLen, hn]
    rw [if_neg (by decide), if_pos trivial, if_neg hmax, hback]

theorem toI64?_ofNat {n : Nat} (h : n < 2 ^ 63) (hfits : n < 2 ^ 64) :
    (Integer.ofNat n hfits).toI64? = some (Int64.ofInt n) := by
  rw [Integer.toI64?_eq_some, Int64.toInt_ofInt_of_le (by omega) (by omega)]
  rfl

/-- The address with its bits from a position on set to zero. -/
def IpAddr.cleared (addr : IpAddr) (stop : Nat) : IpAddr :=
  match addr with
  | .v4 a => .v4 (BitVec.ofNat 32 (a.toNat / 2 ^ (32 - stop) * 2 ^ (32 - stop)))
  | .v6 a => .v6 (BitVec.ofNat 128 (a.toNat / 2 ^ (128 - stop) * 2 ^ (128 - stop)))

/-- The leading octets of an address, and the number they spell with zeros behind them. -/
theorem take_octets {k m a : Nat} (hk : k ≤ m) (ha : a < 256 ^ m) :
    (BigEndian.ofNat m a).take k = BigEndian.ofNat k (a / 2 ^ (8 * m - 8 * k)) ∧
      paddedAddress ((BigEndian.ofNat m a).take k) m =
        a / 2 ^ (8 * m - 8 * k) * 2 ^ (8 * m - 8 * k) := by
  obtain ⟨r, rfl⟩ := Nat.exists_eq_add_of_le hk
  have hpow : 2 ^ (8 * (k + r) - 8 * k) = 256 ^ r := by
    rw [show 8 * (k + r) - 8 * k = 8 * r by omega, Nat.pow_mul]
  have hlt : a / 256 ^ r < 256 ^ k := by
    apply Nat.div_lt_of_lt_mul
    rwa [← Nat.pow_add, Nat.add_comm]
  rw [BigEndian.take_ofNat, paddedAddress_ofNat, hpow, Nat.mod_eq_of_lt hlt]
  exact ⟨rfl, rfl⟩

/-- The address of the same family with these leading octets. -/
def IpAddr.padded (addr : IpAddr) (bs : Bytes) : IpAddr :=
  match addr with
  | .v4 _ => .v4 (BitVec.ofNat 32 (paddedAddress bs 4))
  | .v6 _ => .v6 (BitVec.ofNat 128 (paddedAddress bs 16))

/-- The decoder's own checks, behind a length it can read and octets of the right number. -/
theorem decodeNetworkIdentifier_map {addr : IpAddr} {k : Value} {len : UInt8} {bs : Bytes}
    {n' : NetworkIdentifier} (hk : decodePrefixLen addr.tag k = .ok len)
    (hlength : bs.length = prefixByteCount len) :
    decodeNetworkIdentifier (.tag addr.tag (.map [(k, .bytes bs)])) = .ok n' ↔
      validateHostBitsZero bs len = .ok () ∧ .ipPrefix (addr.padded bs) len = n' := by
  unfold decodeNetworkIdentifier
  dsimp only
  rw [hk]
  show ((if bs.length ≠ prefixByteCount len then _ else _) = _) ↔ _
  refine Except.guard_eq_ok.trans ?_
  rw [and_iff_right (not_not.mpr hlength), Except.bind_eq_ok]
  constructor
  · rintro ⟨_, hbits, hn'⟩
    refine ⟨hbits, ?_⟩
    cases addr with
    | v4 a => exact Except.pure_eq_ok.mp hn'
    | v6 a => exact Except.pure_eq_ok.mp hn'
  · rintro ⟨hbits, rfl⟩
    refine ⟨(), hbits, ?_⟩
    cases addr with
    | v4 a => rfl
    | v6 a => rfl

/-- What an encoded prefix decodes to: it is refused when bits of its last octet are set. -/
theorem decode_ipPrefix {addr : IpAddr} {len : UInt8} (h : len.toNat ≤ addr.width)
    (hfits : len.toNat < 2 ^ 64) {n' : NetworkIdentifier} :
    decodeNetworkIdentifier (.tag addr.tag
        (.map [(natValue len.toNat hfits, .bytes (addr.octets.take (prefixByteCount len)))])) =
          .ok n' ↔
      addr.bitsBetween len.toNat (8 * prefixByteCount len) = 0 ∧
        .ipPrefix (addr.cleared (8 * prefixByteCount len)) len = n' := by
  have hlen : len.toNat < 256 := len.toNat_lt
  have hi : (Int64.ofInt len.toNat).toInt = len.toNat :=
    Int64.toInt_ofInt_of_le (by omega) (by omega)
  have hprefix := decodePrefixLen_integer (toI64?_ofNat (by omega) hfits) hi h
  have hcount : 8 * prefixByteCount len < len.toNat + 8 := by
    unfold prefixByteCount
    omega
  have hbytes : (addr.octets.take (prefixByteCount len) = BigEndian.ofNat (prefixByteCount len)
        (addr.toNat / 2 ^ (addr.width - 8 * prefixByteCount len))) ∧
      addr.padded (addr.octets.take (prefixByteCount len)) =
        addr.cleared (8 * prefixByteCount len) := by
    cases addr with
    | v4 a =>
      have h32 : len.toNat ≤ 32 := h
      obtain ⟨htake, hpadded⟩ := take_octets (show prefixByteCount len ≤ 4 by omega) a.isLt
      exact ⟨htake, congrArg (fun n => IpAddr.v4 (BitVec.ofNat 32 n)) hpadded⟩
    | v6 a =>
      have h128 : len.toNat ≤ 128 := h
      obtain ⟨htake, hpadded⟩ := take_octets (show prefixByteCount len ≤ 16 by omega) a.isLt
      exact ⟨htake, congrArg (fun n => IpAddr.v6 (BitVec.ofNat 128 n)) hpadded⟩
  rw [natValue, decodeNetworkIdentifier_map hprefix (by rw [hbytes.1, BigEndian.length_ofNat]),
    hbytes.2, hbytes.1, validateHostBitsZero_ofNat]
  rfl

/-- Whether the identifier is one that the wire form can carry: the prefix is no longer than
    the address, and the bits up to the end of its last octet are zero. -/
def NetworkIdentifier.OnWire : NetworkIdentifier → Prop
  | .ipPrefix addr len => len.toNat ≤ addr.width ∧
      addr.bitsBetween len.toNat (8 * prefixByteCount len) = 0
  | _ => True

/-- The encoder does not panic, the decoder accepts what it yields, and what it decodes to
    matches the peers that the identifier matched. -/
def NetworkIdentifier.RoundTrips (n : NetworkIdentifier) : Prop :=
  ∃ v n', encodeNetworkIdentifier n = .ok v ∧ decodeNetworkIdentifier v = .ok n' ∧
    (∀ peer, n'.matchesIp peer = n.matchesIp peer) ∧
    ∀ peerAsn, n'.matchesAsn peerAsn = n.matchesAsn peerAsn

theorem octets_length (addr : IpAddr) : addr.octets.length = addr.width / 8 := by
  cases addr with
  | v4 a => rw [IpAddr.octets, BigEndian.length_ofNat, IpAddr.width]
  | v6 a => rw [IpAddr.octets, BigEndian.length_ofNat, IpAddr.width]

/-- The octets behind a prefix do not matter to the peers it matches. -/
theorem ipInPrefix_cleared {addr : IpAddr} {len : UInt8} (h : len.toNat ≤ addr.width)
    (peer : IpAddr) :
    ipInPrefix peer (addr.cleared (8 * prefixByteCount len)) len = ipInPrefix peer addr len := by
  have hcount : 8 * prefixByteCount len < len.toNat + 8 ∧
      len.toNat ≤ 8 * prefixByteCount len := by
    unfold prefixByteCount
    omega
  cases addr with
  | v4 a =>
    cases peer with
    | v4 p =>
      have h32 : len.toNat ≤ 32 := h
      exact bitsInPrefix_padded p a hcount.2 (by omega)
    | v6 p => rfl
  | v6 a =>
    cases peer with
    | v4 p => rfl
    | v6 p =>
      have h128 : len.toNat ≤ 128 := h
      exact bitsInPrefix_padded p a hcount.2 (by omega)

theorem prefixLen_lt (len : UInt8) : len.toNat < 2 ^ 64 := by
  have hlt := len.toNat_lt
  omega

/-- A prefix is encoded when it is no longer than the address, and only then. -/
theorem encode_ipPrefix {addr : IpAddr} {len : UInt8} {v : Value} :
    encodeNetworkIdentifier (.ipPrefix addr len) = .ok v ↔ len.toNat ≤ addr.width ∧
      .tag addr.tag (.map [(natValue len.toNat (prefixLen_lt len),
        .bytes (addr.octets.take (prefixByteCount len)))]) = v := by
  have hcount : addr.octets.length < prefixByteCount len ↔ ¬len.toNat ≤ addr.width := by
    rw [octets_length, prefixByteCount]
    cases addr <;> simp only [IpAddr.width] <;> omega
  unfold encodeNetworkIdentifier
  dsimp only
  by_cases hlong : addr.octets.length < prefixByteCount len
  · simp [if_pos hlong, hcount.mp hlong]
  · rw [if_neg hlong, and_iff_right (not_not.mp (mt hcount.mpr hlong))]
    cases addr with
    | v4 a => exact ⟨Except.ok.inj, congrArg Except.ok⟩
    | v6 a => exact ⟨Except.ok.inj, congrArg Except.ok⟩

theorem decodeAsn_u32Value (asn : UInt32) : decodeAsn (u32Value asn) = .ok asn := by
  obtain ⟨i, hi⟩ : ∃ i, u32Value asn = .integer i := ⟨_, rfl⟩
  rw [hi, decodeAsn, integer_eq_u32Value.mp hi.symm]

/-- An address, an ASN and a range of ASNs decode to themselves. -/
theorem decode_encoded {n : NetworkIdentifier} (h : ∀ addr len, n ≠ .ipPrefix addr len) :
    ∃ v, encodeNetworkIdentifier n = .ok v ∧ decodeNetworkIdentifier v = .ok n := by
  cases n with
  | ipAddress addr =>
    cases addr with
    | v4 a =>
      refine ⟨_, rfl, ?_⟩
      rw [decodeNetworkIdentifier, if_pos ⟨rfl, BigEndian.length_ofNat 4 _⟩, IpAddr.octets,
        BigEndian.toNat_ofNat a.isLt, BitVec.ofNat_toNat, BitVec.setWidth_eq]
    | v6 a =>
      refine ⟨_, rfl, ?_⟩
      have hfamily : ¬(cborTagIpv6 = cborTagIpv4 ∧ (IpAddr.v6 a).octets.length = 4) := by
        intro h4
        exact absurd h4.1 (by decide)
      rw [decodeNetworkIdentifier, if_neg hfamily, if_pos ⟨rfl, BigEndian.length_ofNat 16 _⟩,
        IpAddr.octets, BigEndian.toNat_ofNat a.isLt, BitVec.ofNat_toNat, BitVec.setWidth_eq]
  | ipPrefix addr len => exact absurd rfl (h addr len)
  | asn asn =>
    refine ⟨_, rfl, ?_⟩
    obtain ⟨i, hi⟩ : ∃ i, u32Value asn = .integer i := ⟨_, rfl⟩
    rw [hi, decodeNetworkIdentifier, ← hi, decodeAsn_u32Value]
    rfl
  | asnRange start stop =>
    refine ⟨_, rfl, ?_⟩
    rw [decodeNetworkIdentifier, decodeAsn_u32Value, decodeAsn_u32Value]
    rfl

/-- **What goes over the wire**: an identifier comes back, and matches the peers that it
    matched, exactly when its prefix is within the address and ends with its octet's bits.

    A prefix is written as its leading octets, and the bits behind it in the last octet go along.
    The reader wants them to be zero. A prefix longer than the address has no such octets, and the
    encoder indexes past its end. -/
theorem networkIdentifier_roundTrips_iff (n : NetworkIdentifier) : n.RoundTrips ↔ n.OnWire := by
  by_cases hprefix : ∃ addr len, n = .ipPrefix addr len
  · obtain ⟨addr, len, rfl⟩ := hprefix
    constructor
    · rintro ⟨v, n', hv, hn', -⟩
      obtain ⟨hlen, rfl⟩ := encode_ipPrefix.mp hv
      exact ⟨hlen, ((decode_ipPrefix hlen _).mp hn').1⟩
    · rintro ⟨hlen, hbits⟩
      refine ⟨_, _, encode_ipPrefix.mpr ⟨hlen, rfl⟩, (decode_ipPrefix hlen _).mpr ⟨hbits, rfl⟩, ?_, ?_⟩
      · intro peer
        exact ipInPrefix_cleared hlen peer
      · intro peerAsn
        rfl
  · have hother : ∀ addr len, n ≠ .ipPrefix addr len := by
      intro addr len heq
      exact hprefix ⟨addr, len, heq⟩
    obtain ⟨v, hv, hn⟩ := decode_encoded hother
    have hwire : n.OnWire := by
      cases n with
      | ipPrefix addr len => exact absurd rfl (hother addr len)
      | ipAddress _ | asn _ | asnRange _ _ => trivial
    exact ⟨fun _ => hwire, fun _ => ⟨v, n, hv, hn, fun _ => rfl, fun _ => rfl⟩⟩

/-- `192.168.1.1/28`, as `from_cidr_str` yields it. -/
def hostPrefix : NetworkIdentifier := .ipPrefix (.v4 (BitVec.ofNat 32 0xC0A80101)) 28

/-- `10.0.0.0/33`. -/
def overlongPrefix : NetworkIdentifier := .ipPrefix (.v4 (BitVec.ofNat 32 0x0A000000)) 33

/-- A host address with a prefix length is encoded and refused; a length beyond the address
    makes the encoder index past the octets. -/
theorem networkIdentifier_not_roundTrips :
    ((∃ v, encodeNetworkIdentifier hostPrefix = .ok v ∧
        decodeNetworkIdentifier v = .error (.invalidClaimValue
          "catnip: non-zero host bits in prefix /28")) ∧ ¬hostPrefix.RoundTrips) ∧
      encodeNetworkIdentifier overlongPrefix = .error .panicked ∧ ¬overlongPrefix.RoundTrips := by
  have hhost : ∃ v, encodeNetworkIdentifier hostPrefix = .ok v ∧
      decodeNetworkIdentifier v = .error (.invalidClaimValue
        "catnip: non-zero host bits in prefix /28") := ⟨_, rfl, by decide +kernel⟩
  refine ⟨⟨hhost, ?_⟩, rfl, ?_⟩
  · rintro ⟨v, n', hv, hn', -⟩
    obtain ⟨v', hv', herror⟩ := hhost
    rw [hv] at hv'
    obtain rfl := Except.ok.inj hv'
    rw [herror] at hn'
    exact absurd hn' (by simp)
  · rintro ⟨v, n', hv, -⟩
    exact absurd hv (by simp [overlongPrefix, encodeNetworkIdentifier, prefixByteCount,
      IpAddr.octets])

end Cat
