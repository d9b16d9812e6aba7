import AnimusCore.Lib.Bytes

/-! The ITCH 5.0 wire: the big-endian field readers and writers on a little-endian host,
and the eight packed messages. -/

set_option autoImplicit false

namespace AnimusCore.Itch

open Lib

def bswap16 (v : UInt16) : UInt16 := UInt16.ofNat (bswap 2 v.toNat)
def bswap32 (v : UInt32) : UInt32 := UInt32.ofNat (bswap 4 v.toNat)
def bswap64 (v : UInt64) : UInt64 := UInt64.ofNat (bswap 8 v.toNat)

def be16tohField (wire : Memory) (p : Nat) : Option UInt16 := do
  let v ← wire.readLE p 2
  return bswap16 (UInt16.ofNat v)

def be32tohField (wire : Memory) (p : Nat) : Option UInt32 := do
  let v ← wire.readLE p 4
  return bswap32 (UInt32.ofNat v)

def be64tohField (wire : Memory) (p : Nat) : Option UInt64 := do
  let v ← wire.readLE p 8
  return bswap64 (UInt64.ofNat v)

def be48tohNs (wire : Memory) (p : Nat) : Option UInt64 := do
  let b0 ← wire p
  let b1 ← wire (p + 1)
  let b2 ← wire (p + 2)
  let b3 ← wire (p + 3)
  let b4 ← wire (p + 4)
  let b5 ← wire (p + 5)
  return (b0.toUInt64 <<< 40) ||| (b1.toUInt64 <<< 32) ||| (b2.toUInt64 <<< 24) |||
    (b3.toUInt64 <<< 16) ||| (b4.toUInt64 <<< 8) ||| b5.toUInt64

def putBe16 (v : UInt16) : List UInt8 := toLE 2 (bswap16 v).toNat
def putBe32 (v : UInt32) : List UInt8 := toLE 4 (bswap32 v).toNat
def putBe64 (v : UInt64) : List UInt8 := toLE 8 (bswap64 v).toNat

def putBe48Ns (ns48 : UInt64) : List UInt8 :=
  [((ns48 >>> 40) &&& 0xFF).toUInt8, ((ns48 >>> 32) &&& 0xFF).toUInt8,
    ((ns48 >>> 24) &&& 0xFF).toUInt8, ((ns48 >>> 16) &&& 0xFF).toUInt8,
    ((ns48 >>> 8) &&& 0xFF).toUInt8, (ns48 &&& 0xFF).toUInt8]

@[simp] theorem length_putBe16 (v : UInt16) : (putBe16 v).length = 2 := length_toLE ..
@[simp] theorem length_putBe32 (v : UInt32) : (putBe32 v).length = 4 := length_toLE ..
@[simp] theorem length_putBe64 (v : UInt64) : (putBe64 v).length = 8 := length_toLE ..
@[simp] theorem length_putBe48Ns (v : UInt64) : (putBe48Ns v).length = 6 := rfl

private theorem putBe16_eq (v : UInt16) : putBe16 v = toBE 2 v.toNat := by
  rw [putBe16, bswap16, UInt16.toNat_ofNat_of_lt' (bswap_lt ..), toLE_bswap]

private theorem putBe32_eq (v : UInt32) : putBe32 v = toBE 4 v.toNat := by
  rw [putBe32, bswap32, UInt32.toNat_ofNat_of_lt' (bswap_lt ..), toLE_bswap]

private theorem putBe64_eq (v : UInt64) : putBe64 v = toBE 8 v.toNat := by
  rw [putBe64, bswap64, UInt64.toNat_ofNat_of_lt' (bswap_lt ..), toLE_bswap]

private theorem bswap16_bswap16 (v : UInt16) : bswap16 (bswap16 v) = v := by
  rw [bswap16, bswap16, UInt16.toNat_ofNat_of_lt' (bswap_lt ..), bswap_bswap v.toNat_lt, UInt16.ofNat_toNat]

private theorem bswap32_bswap32 (v : UInt32) : bswap32 (bswap32 v) = v := by
  rw [bswap32, bswap32, UInt32.toNat_ofNat_of_lt' (bswap_lt ..), bswap_bswap v.toNat_lt, UInt32.ofNat_toNat]

private theorem bswap64_bswap64 (v : UInt64) : bswap64 (bswap64 v) = v := by
  rw [bswap64, bswap64, UInt64.toNat_ofNat_of_lt' (bswap_lt ..), bswap_bswap v.toNat_lt, UInt64.ofNat_toNat]

section
variable {wire : Memory} {p bound : Nat}

theorem be16tohField_put {v : UInt16} (holds : wire.Holds p (putBe16 v)) : be16tohField wire p = some v := by
  have read := holds.readLE
  rw [length_putBe16, putBe16, fromLE_toLE_of_lt (UInt16.toNat_lt _)] at read
  rw [be16tohField, read, Option.bind_eq_bind, Option.bind_some, UInt16.ofNat_toNat, bswap16_bswap16]
  rfl

theorem be32tohField_put {v : UInt32} (holds : wire.Holds p (putBe32 v)) : be32tohField wire p = some v := by
  have read := holds.readLE
  rw [length_putBe32, putBe32, fromLE_toLE_of_lt (UInt32.toNat_lt _)] at read
  rw [be32tohField, read, Option.bind_eq_bind, Option.bind_some, UInt32.ofNat_toNat, bswap32_bswap32]
  rfl

theorem be64tohField_put {v : UInt64} (holds : wire.Holds p (putBe64 v)) : be64tohField wire p = some v := by
  have read := holds.readLE
  rw [length_putBe64, putBe64, fromLE_toLE_of_lt (UInt64.toNat_lt _)] at read
  rw [be64tohField, read, Option.bind_eq_bind, Option.bind_some, UInt64.ofNat_toNat, bswap64_bswap64]
  rfl

private theorem exists_putBe16 (readable : wire.Readable bound) (inside : p + 2 ≤ bound) : ∃ v, wire.Holds p (putBe16 v) := by
  obtain ⟨value, small, holds⟩ := readable.exists_toBE inside
  refine ⟨UInt16.ofNat value, ?_⟩
  rwa [putBe16_eq, UInt16.toNat_ofNat_of_lt' small]

private theorem exists_putBe32 (readable : wire.Readable bound) (inside : p + 4 ≤ bound) : ∃ v, wire.Holds p (putBe32 v) := by
  obtain ⟨value, small, holds⟩ := readable.exists_toBE inside
  refine ⟨UInt32.ofNat value, ?_⟩
  rwa [putBe32_eq, UInt32.toNat_ofNat_of_lt' small]

private theorem exists_putBe64 (readable : wire.Readable bound) (inside : p + 8 ≤ bound) : ∃ v, wire.Holds p (putBe64 v) := by
  obtain ⟨value, small, holds⟩ := readable.exists_toBE inside
  refine ⟨UInt64.ofNat value, ?_⟩
  rwa [putBe64_eq, UInt64.toNat_ofNat_of_lt' small]

/-! The 48-bit timestamp is put together by shifts. -/

private theorem toNat_shifted (byte : UInt8) {places : Nat} (small : places ≤ 40) :
    (byte.toUInt64 <<< UInt64.ofNat places).toNat = byte.toNat <<< places := by
  have bound := byte.toNat_lt
  have grows : 2 ^ places ≤ 2 ^ 40 := Nat.pow_le_pow_right (by decide) small
  have fits : byte.toNat * 2 ^ places < 2 ^ 64 := by
    calc byte.toNat * 2 ^ places ≤ 255 * 2 ^ 40 := Nat.mul_le_mul (by omega) grows
      _ < 2 ^ 64 := by decide
  rw [UInt64.toNat_shiftLeft, UInt8.toNat_toUInt64, UInt64.toNat_ofNat',
    Nat.mod_eq_of_lt (show places < 2 ^ 64 by omega),
    Nat.mod_eq_of_lt (show places < 64 by omega), Nat.shiftLeft_eq, Nat.mod_eq_of_lt fits]

private theorem or_shifted (high : Nat) (byte : UInt8) (places : Nat) :
    high <<< (places + 8) ||| byte.toNat <<< places = (256 * high + byte.toNat) <<< places := by
  have bound := byte.toNat_lt
  have low : byte.toNat <<< places < 2 ^ (places + 8) := by
    rw [Nat.shiftLeft_eq, Nat.pow_add, Nat.mul_comm]
    exact Nat.mul_lt_mul_of_pos_left bound (Nat.two_pow_pos _)
  rw [← Nat.shiftLeft_add_eq_or_of_lt low]
  simp only [Nat.shiftLeft_eq]
  rw [Nat.pow_add, Nat.add_mul, Nat.mul_comm (2 ^ places), ← Nat.mul_assoc, Nat.mul_comm high]

private theorem toNat_be48 (b0 b1 b2 b3 b4 b5 : UInt8) :
    ((b0.toUInt64 <<< 40) ||| (b1.toUInt64 <<< 32) ||| (b2.toUInt64 <<< 24) |||
      (b3.toUInt64 <<< 16) ||| (b4.toUInt64 <<< 8) ||| b5.toUInt64).toNat = fromBE [b0, b1, b2, b3, b4, b5] := by
  have s0 := toNat_shifted b0 (show 40 ≤ 40 by decide)
  have s1 := toNat_shifted b1 (show 32 ≤ 40 by decide)
  have s2 := toNat_shifted b2 (show 24 ≤ 40 by decide)
  have s3 := toNat_shifted b3 (show 16 ≤ 40 by decide)
  have s4 := toNat_shifted b4 (show 8 ≤ 40 by decide)
  have s5 : b5.toUInt64.toNat = b5.toNat <<< 0 := UInt8.toNat_toUInt64 b5
  simp only [UInt64.reduceOfNat] at s0 s1 s2 s3 s4
  simp only [UInt64.toNat_or, s0, s1, s2, s3, s4, s5, or_shifted]
  simp only [fromBE, List.reverse_cons, List.reverse_nil, List.nil_append, List.cons_append,
    fromLE, Nat.shiftLeft_zero]
  omega

private theorem masked_toUInt8 (v : UInt64) {places : Nat} (small : places < 64) :
    ((v >>> UInt64.ofNat places) &&& 0xFF).toUInt8 = UInt8.ofNat (v.toNat / 2 ^ places) := by
  apply UInt8.toNat_inj.mp
  have mask : (0xFF : UInt64).toNat = 2 ^ 8 - 1 := rfl
  rw [UInt64.toNat_toUInt8, UInt64.toNat_and, UInt64.toNat_shiftRight, UInt64.toNat_ofNat',
    Nat.mod_eq_of_lt (show places < 2 ^ 64 by omega), Nat.mod_eq_of_lt small, mask,
    Nat.and_two_pow_sub_one_eq_mod, Nat.mod_mod, Nat.shiftRight_eq_div_pow, UInt8.toNat_ofNat']

private theorem putBe48Ns_eq (v : UInt64) : putBe48Ns v = toBE 6 v.toNat := by
  have m0 := masked_toUInt8 v (show 40 < 64 by decide)
  have m1 := masked_toUInt8 v (show 32 < 64 by decide)
  have m2 := masked_toUInt8 v (show 24 < 64 by decide)
  have m3 := masked_toUInt8 v (show 16 < 64 by decide)
  have m4 := masked_toUInt8 v (show 8 < 64 by decide)
  have m5 := masked_toUInt8 v (show 0 < 64 by decide)
  simp only [UInt64.reduceOfNat, UInt64.shiftRight_zero] at m0 m1 m2 m3 m4 m5
  rw [putBe48Ns, m0, m1, m2, m3, m4, m5]
  simp [toBE, toLE, Nat.div_div_eq_div_mul]

theorem be48tohNs_put {ns48 : UInt64} (fits : ns48.toNat < 2 ^ 48)
    (holds : wire.Holds p (putBe48Ns ns48)) : be48tohNs wire p = some ns48 := by
  have bytes := putBe48Ns_eq ns48
  simp only [putBe48Ns, Memory.holds_cons, Nat.add_assoc, Nat.reduceAdd] at holds bytes
  obtain ⟨h0, h1, h2, h3, h4, h5, -⟩ := holds
  rw [be48tohNs, h0, h1, h2, h3, h4, h5]
  simp only [Option.bind_eq_bind, Option.bind_some, Option.pure_def, Option.some.injEq]
  apply UInt64.toNat_inj.mp
  rw [toNat_be48, bytes, fromBE_toBE_of_lt fits]

private theorem exists_putBe48Ns (readable : wire.Readable bound) (inside : p + 6 ≤ bound) :
    ∃ ns48 : UInt64, ns48.toNat < 2 ^ 48 ∧ wire.Holds p (putBe48Ns ns48) := by
  obtain ⟨value, small, holds⟩ := readable.exists_toBE inside
  have back : (UInt64.ofNat value).toNat = value := UInt64.toNat_ofNat_of_lt' (Nat.lt_trans small (by decide))
  refine ⟨UInt64.ofNat value, by rwa [back], ?_⟩
  rwa [putBe48Ns_eq, back]

end

inductive MessageType where
  | systemEvent
  | addOrderNoMPID
  | addOrderWithMPID
  | orderExecuted
  | orderExecutedWithPrice
  | orderCancel
  | orderDelete
  | orderReplace
  deriving DecidableEq

namespace MessageType

def code : MessageType → UInt8
  | systemEvent => 'S'.toUInt8
  | addOrderNoMPID => 'A'.toUInt8
  | addOrderWithMPID => 'F'.toUInt8
  | orderExecuted => 'E'.toUInt8
  | orderExecutedWithPrice => 'C'.toUInt8
  | orderCancel => 'X'.toUInt8
  | orderDelete => 'D'.toUInt8
  | orderReplace => 'U'.toUInt8

def ofCode? (byte : UInt8) : Option MessageType :=
  [systemEvent, addOrderNoMPID, addOrderWithMPID, orderExecuted, orderExecutedWithPrice,
    orderCancel, orderDelete, orderReplace].find? fun type => type.code == byte

def size : MessageType → Nat
  | systemEvent => 12
  | addOrderNoMPID => 36
  | addOrderWithMPID => 40
  | orderExecuted => 31
  | orderExecutedWithPrice => 36
  | orderCancel => 23
  | orderDelete => 19
  | orderReplace => 35

theorem ofCode?_code (type : MessageType) : ofCode? type.code = some type := by
  cases type <;> rfl

theorem code_of_ofCode? {byte : UInt8} {type : MessageType} (found : ofCode? byte = some type) :
    type.code = byte := by
  have same := List.find?_some found
  exact beq_iff_eq.mp same

theorem header_le_size (type : MessageType) : 11 ≤ type.size := by
  cases type <;> decide

end MessageType

/-- What every packed struct begins with, after its type. -/
structure Header where
  stockLocate : UInt16
  trackingNumber : UInt16
  timestamp : UInt64
  timestamp_lt : timestamp.toNat < 2 ^ 48

inductive Body where
  | systemEvent (eventCode : UInt8)
  | addOrder (orderReferenceNumber : UInt64) (buySellIndicator : UInt8) (shares : UInt32)
      (stock : Vector UInt8 8) (price : UInt32)
  | addOrderMPID (orderReferenceNumber : UInt64) (buySellIndicator : UInt8) (shares : UInt32)
      (stock : Vector UInt8 8) (price : UInt32) (attribution : Vector UInt8 4)
  | orderExecuted (orderReferenceNumber : UInt64) (executedShares : UInt32) (matchNumber : UInt64)
  | orderExecutedWithPrice (orderReferenceNumber : UInt64) (executedShares : UInt32)
      (matchNumber : UInt64) (printable : UInt8) (executionPrice : UInt32)
  | orderCancel (orderReferenceNumber : UInt64) (cancelledShares : UInt32)
  | orderDelete (orderReferenceNumber : UInt64)
  | orderReplace (originalOrderReferenceNumber newOrderReferenceNumber : UInt64) (shares price : UInt32)

structure Message where
  header : Header
  body : Body

def Body.type : Body → MessageType
  | systemEvent .. => .systemEvent
  | addOrder .. => .addOrderNoMPID
  | addOrderMPID .. => .addOrderWithMPID
  | orderExecuted .. => .orderExecuted
  | orderExecutedWithPrice .. => .orderExecutedWithPrice
  | orderCancel .. => .orderCancel
  | orderDelete .. => .orderDelete
  | orderReplace .. => .orderReplace

def Header.encode (header : Header) : List UInt8 :=
  putBe16 header.stockLocate ++ putBe16 header.trackingNumber ++ putBe48Ns header.timestamp

def Body.encode : Body → List UInt8
  | systemEvent eventCode => [eventCode]
  | addOrder reference side shares stock price =>
    putBe64 reference ++ [side] ++ putBe32 shares ++ stock.toList ++ putBe32 price
  | addOrderMPID reference side shares stock price attribution =>
    putBe64 reference ++ [side] ++ putBe32 shares ++ stock.toList ++ putBe32 price ++ attribution.toList
  | orderExecuted reference shares matchNumber =>
    putBe64 reference ++ putBe32 shares ++ putBe64 matchNumber
  | orderExecutedWithPrice reference shares matchNumber printable price =>
    putBe64 reference ++ putBe32 shares ++ putBe64 matchNumber ++ [printable] ++ putBe32 price
  | orderCancel reference shares => putBe64 reference ++ putBe32 shares
  | orderDelete reference => putBe64 reference
  | orderReplace original new shares price =>
    putBe64 original ++ putBe64 new ++ putBe32 shares ++ putBe32 price

def Message.encode (message : Message) : List UInt8 :=
  [message.body.type.code] ++ message.header.encode ++ message.body.encode

@[simp] theorem Header.length_encode (header : Header) : header.encode.length = 10 := by
  simp [Header.encode]

theorem Message.length_encode (message : Message) : message.encode.length = message.body.type.size := by
  obtain ⟨header, body⟩ := message
  cases body <;> simp [Message.encode, Body.encode, Body.type, MessageType.size]

/-! Any bytes of the struct's size are an encoding. -/

section
variable {wire : Memory} {p bound : Nat}

theorem exists_byte (readable : wire.Readable bound) (inside : p < bound) :
    ∃ byte, wire p = some byte := Option.isSome_iff_exists.mp (readable p inside)

private theorem exists_chars {n : Nat} (readable : wire.Readable bound) (inside : p + n ≤ bound) :
    ∃ chars : Vector UInt8 n, wire.Holds p chars.toList := by
  obtain ⟨bytes, read⟩ := readable.exists_read inside
  refine ⟨⟨bytes.toArray, Memory.length_of_read read⟩, ?_⟩
  exact Memory.holds_of_read read

private theorem exists_header (readable : wire.Readable bound) (inside : 11 ≤ bound) :
    ∃ header : Header, wire.Holds 1 header.encode := by
  obtain ⟨stockLocate, locateHeld⟩ := exists_putBe16 readable (show 1 + 2 ≤ bound by omega)
  obtain ⟨trackingNumber, trackingHeld⟩ := exists_putBe16 readable (show 3 + 2 ≤ bound by omega)
  obtain ⟨timestamp, small, timestampHeld⟩ := exists_putBe48Ns readable (show 5 + 6 ≤ bound by omega)
  refine ⟨⟨stockLocate, trackingNumber, timestamp, small⟩, ?_⟩
  simp only [Header.encode, Memory.holds_append, List.length_append, length_putBe16]
  exact ⟨⟨locateHeld, trackingHeld⟩, timestampHeld⟩

private theorem exists_body (type : MessageType) (readable : wire.Readable type.size) :
    ∃ body : Body, body.type = type ∧ wire.Holds 11 body.encode := by
  have field64 (p : Nat) := @exists_putBe64 _ p _ readable
  have field32 (p : Nat) := @exists_putBe32 _ p _ readable
  have chars (n p : Nat) := @exists_chars _ p _ n readable
  have byte (p : Nat) := @exists_byte _ p _ readable
  cases type with
  | systemEvent =>
    obtain ⟨eventCode, held⟩ := byte 11 (by decide)
    exact ⟨.systemEvent eventCode, rfl, Memory.holds_cons.mpr ⟨held, Memory.holds_nil⟩⟩
  | addOrderNoMPID =>
    obtain ⟨reference, reference_held⟩ := field64 11 (by decide)
    obtain ⟨side, side_held⟩ := byte 19 (by decide)
    obtain ⟨shares, shares_held⟩ := field32 20 (by decide)
    obtain ⟨stock, stock_held⟩ := chars 8 24 (by decide)
    obtain ⟨price, price_held⟩ := field32 32 (by decide)
    refine ⟨.addOrder reference side shares stock price, rfl, ?_⟩
    simp [Body.encode, *]
  | addOrderWithMPID =>
    obtain ⟨reference, reference_held⟩ := field64 11 (by decide)
    obtain ⟨side, side_held⟩ := byte 19 (by decide)
    obtain ⟨shares, shares_held⟩ := field32 20 (by decide)
    obtain ⟨stock, stock_held⟩ := chars 8 24 (by decide)
    obtain ⟨price, price_held⟩ := field32 32 (by decide)
    obtain ⟨attribution, attribution_held⟩ := chars 4 36 (by decide)
    refine ⟨.addOrderMPID reference side shares stock price attribution, rfl, ?_⟩
    simp [Body.encode, *]
  | orderExecuted =>
    obtain ⟨reference, reference_held⟩ := field64 11 (by decide)
    obtain ⟨shares, shares_held⟩ := field32 19 (by decide)
    obtain ⟨matchNumber, match_held⟩ := field64 23 (by decide)
    refine ⟨.orderExecuted reference shares matchNumber, rfl, ?_⟩
    simp [Body.encode, *]
  | orderExecutedWithPrice =>
    obtain ⟨reference, reference_held⟩ := field64 11 (by decide)
    obtain ⟨shares, shares_held⟩ := field32 19 (by decide)
    obtain ⟨matchNumber, match_held⟩ := field64 23 (by decide)
    obtain ⟨printable, printable_held⟩ := byte 31 (by decide)
    obtain ⟨price, price_held⟩ := field32 32 (by decide)
    refine ⟨.orderExecutedWithPrice reference shares matchNumber printable price, rfl, ?_⟩
    simp [Body.encode, *]
  | orderCancel =>
    obtain ⟨reference, reference_held⟩ := field64 11 (by decide)
    obtain ⟨shares, shares_held⟩ := field32 19 (by decide)
    refine ⟨.orderCancel reference shares, rfl, ?_⟩
    simp [Body.encode, *]
  | orderDelete =>
    obtain ⟨reference, held⟩ := field64 11 (by decide)
    exact ⟨.orderDelete reference, rfl, held⟩
  | orderReplace =>
    obtain ⟨original, original_held⟩ := field64 11 (by decide)
    obtain ⟨new, new_held⟩ := field64 19 (by decide)
    obtain ⟨shares, shares_held⟩ := field32 27 (by decide)
    obtain ⟨price, price_held⟩ := field32 31 (by decide)
    refine ⟨.orderReplace original new shares price, rfl, ?_⟩
    simp [Body.encode, *]

/-- Any readable bytes that begin with a type are the encoding of a message of that type. -/
theorem exists_message {type : MessageType} (found : wire 0 = some type.code) (readable : wire.Readable type.size) :
    ∃ message : Message, message.body.type = type ∧ wire.Holds 0 message.encode := by
  obtain ⟨header, headerHeld⟩ := exists_header readable type.header_le_size
  obtain ⟨body, same, bodyHeld⟩ := exists_body type readable
  refine ⟨⟨header, body⟩, same, ?_⟩
  simp only [Message.encode, Memory.holds_append, List.length_append, List.length_singleton,
    Header.length_encode, Memory.holds_cons, same]
  exact ⟨⟨⟨found, Memory.holds_nil⟩, headerHeld⟩, bodyHeld⟩

end

end AnimusCore.Itch
