import AnimusCore.Itch.Wire

/-! The ITCH decoder: it accepts exactly the buffers that begin with a whole message, and
its frame is that message's, whatever surrounds it. -/

set_option autoImplicit false

namespace AnimusCore.Itch

open Lib

structure ItchFrame where
  sequenceId : UInt64
  recvTimestampNs : UInt64
  itchTimestampNs : UInt64
  orderRefNumber : UInt64
  secondaryRefNumber : UInt64
  stockTickerRaw : UInt64
  priceTicks : Int64
  shares : UInt32
  stockLocate : UInt16
  msgType : UInt8
  sideOrFlag : UInt8
  deriving DecidableEq

def decodeCommonHeader (wire : Memory) (out : ItchFrame) : Option ItchFrame := do
  let stockLocate ← be16tohField wire 1
  let itchTimestampNs ← be48tohNs wire 5
  return { out with stockLocate, itchTimestampNs }

/-- The branches of the two add-order types, which do the same. -/
def decodeAddOrder (wire : Memory) (out : ItchFrame) : Option ItchFrame := do
  let orderRefNumber ← be64tohField wire 11
  let sideOrFlag ← wire 19
  let shares ← be32tohField wire 20
  let stock ← wire.readLE 24 8
  let price ← be32tohField wire 32
  return { out with
    orderRefNumber, sideOrFlag, shares
    stockTickerRaw := UInt64.ofNat stock
    priceTicks := Int64.ofNat price.toNat }

/-- What each branch of the switch reads after the common header. -/
def decodeFields (wire : Memory) (out : ItchFrame) : MessageType → Option ItchFrame
  | .systemEvent => do
      let sideOrFlag ← wire 11
      return { out with sideOrFlag }
  | .addOrderNoMPID => decodeAddOrder wire out
  | .addOrderWithMPID => decodeAddOrder wire out
  | .orderExecuted => do
      let orderRefNumber ← be64tohField wire 11
      let shares ← be32tohField wire 19
      let secondaryRefNumber ← be64tohField wire 23
      return { out with orderRefNumber, shares, secondaryRefNumber }
  | .orderExecutedWithPrice => do
      let orderRefNumber ← be64tohField wire 11
      let shares ← be32tohField wire 19
      let secondaryRefNumber ← be64tohField wire 23
      let sideOrFlag ← wire 31
      let price ← be32tohField wire 32
      return { out with
        orderRefNumber, shares, secondaryRefNumber, sideOrFlag
        priceTicks := Int64.ofNat price.toNat }
  | .orderCancel => do
      let orderRefNumber ← be64tohField wire 11
      let shares ← be32tohField wire 19
      return { out with orderRefNumber, shares }
  | .orderDelete => do
      let orderRefNumber ← be64tohField wire 11
      return { out with orderRefNumber }
  | .orderReplace => do
      let orderRefNumber ← be64tohField wire 11
      let secondaryRefNumber ← be64tohField wire 19
      let shares ← be32tohField wire 27
      let price ← be32tohField wire 31
      return { out with
        orderRefNumber, secondaryRefNumber, shares
        priceTicks := Int64.ofNat price.toNat }

/-- The frame before the switch, its data zeroed and its type set. -/
def ItchFrame.reset (out : ItchFrame) (msgType : UInt8) : ItchFrame :=
  { out with
    orderRefNumber := 0, secondaryRefNumber := 0, stockTickerRaw := 0, priceTicks := 0
    shares := 0, sideOrFlag := 0, msgType }

/-- A null `wire` is `none`; the result is `none` where a byte is read that may not be. -/
def decode (wire : Option Memory) (wireLen : Nat) (out : ItchFrame) : Option (Bool × ItchFrame) :=
  match wire with
  | none => some (false, out)
  | some wire =>
    if wireLen = 0 then some (false, out)
    else do
      let byte ← wire 0
      let out := out.reset byte
      match MessageType.ofCode? byte with
      | none => return (false, out)
      | some type =>
        if wireLen < type.size then return (false, out)
        let out ← decodeCommonHeader wire out
        let out ← decodeFields wire out type
        return (true, out)

def Body.fill (out : ItchFrame) : Body → ItchFrame
  | systemEvent eventCode => { out with sideOrFlag := eventCode }
  | addOrder reference side shares stock price
  | addOrderMPID reference side shares stock price _ =>
    { out with
      orderRefNumber := reference, sideOrFlag := side, shares
      stockTickerRaw := UInt64.ofNat (fromLE stock.toList)
      priceTicks := Int64.ofNat price.toNat }
  | orderExecuted reference shares matchNumber =>
    { out with orderRefNumber := reference, shares, secondaryRefNumber := matchNumber }
  | orderExecutedWithPrice reference shares matchNumber printable price =>
    { out with
      orderRefNumber := reference, shares, secondaryRefNumber := matchNumber
      sideOrFlag := printable, priceTicks := Int64.ofNat price.toNat }
  | orderCancel reference shares => { out with orderRefNumber := reference, shares }
  | orderDelete reference => { out with orderRefNumber := reference }
  | orderReplace original new shares price =>
    { out with
      orderRefNumber := original, secondaryRefNumber := new, shares
      priceTicks := Int64.ofNat price.toNat }

/-- The message's frame: its own fields, zero in the others, and the caller's two. -/
def Message.frame (message : Message) (sequenceId recvTimestampNs : UInt64) : ItchFrame :=
  message.body.fill {
    sequenceId, recvTimestampNs
    itchTimestampNs := message.header.timestamp
    orderRefNumber := 0, secondaryRefNumber := 0, stockTickerRaw := 0, priceTicks := 0
    shares := 0
    stockLocate := message.header.stockLocate
    msgType := message.body.type.code
    sideOrFlag := 0 }

variable {wire : Memory} {wireLen : Nat} {out : ItchFrame}

private theorem decodeCommonHeader_encode {header : Header} (held : wire.Holds 1 header.encode) :
    decodeCommonHeader wire out = some { out with
      stockLocate := header.stockLocate, itchTimestampNs := header.timestamp } := by
  simp only [Header.encode, Memory.holds_append, List.length_append, length_putBe16, Nat.reduceAdd] at held
  obtain ⟨⟨locate, -⟩, timestamp⟩ := held
  rw [decodeCommonHeader, be16tohField_put locate, be48tohNs_put header.timestamp_lt timestamp]
  rfl

private theorem readLE_stock {stock : Vector UInt8 8} {p : Nat} (held : wire.Holds p stock.toList) :
    wire.readLE p 8 = some (fromLE stock.toList) := by
  have read := held.readLE
  rwa [Vector.length_toList] at read

private theorem decodeFields_encode {body : Body} (held : wire.Holds 11 body.encode) :
    decodeFields wire out body.type = some (body.fill out) := by
  cases body
  all_goals
    simp only [Body.encode, Memory.holds_append, Memory.holds_cons, List.length_append, List.length_singleton,
      length_putBe64, length_putBe32, Vector.length_toList, Nat.reduceAdd] at held
    simp only [Body.type, decodeFields]
  case systemEvent =>
      rw [held.1]
      rfl
  case addOrder =>
      obtain ⟨⟨⟨⟨reference, side, -⟩, shares⟩, stock⟩, price⟩ := held
      rw [decodeAddOrder, be64tohField_put reference, side, be32tohField_put shares,
        readLE_stock stock, be32tohField_put price]
      rfl
  case addOrderMPID =>
      obtain ⟨⟨⟨⟨⟨reference, side, -⟩, shares⟩, stock⟩, price⟩, -⟩ := held
      rw [decodeAddOrder, be64tohField_put reference, side, be32tohField_put shares,
        readLE_stock stock, be32tohField_put price]
      rfl
  case orderExecuted =>
      obtain ⟨⟨reference, shares⟩, matchNumber⟩ := held
      rw [be64tohField_put reference, be32tohField_put shares, be64tohField_put matchNumber]
      rfl
  case orderExecutedWithPrice =>
      obtain ⟨⟨⟨⟨reference, shares⟩, matchNumber⟩, printable, -⟩, price⟩ := held
      rw [be64tohField_put reference, be32tohField_put shares, be64tohField_put matchNumber,
        printable, be32tohField_put price]
      rfl
  case orderCancel =>
      rw [be64tohField_put held.1, be32tohField_put held.2]
      rfl
  case orderDelete =>
      rw [be64tohField_put held]
      rfl
  case orderReplace =>
      obtain ⟨⟨⟨original, new⟩, shares⟩, price⟩ := held
      rw [be64tohField_put original, be64tohField_put new, be32tohField_put shares, be32tohField_put price]
      rfl

/-- A message that stands at the start and fits decodes to its frame. -/
theorem decode_encode {message : Message} (held : wire.Holds 0 message.encode)
    (fits : message.body.type.size ≤ wireLen) :
    decode (some wire) wireLen out = some (true, message.frame out.sequenceId out.recvTimestampNs) := by
  simp only [Message.encode, Memory.holds_append, List.length_append, List.length_singleton,
    Header.length_encode, Memory.holds_cons] at held
  obtain ⟨⟨⟨type, -⟩, header⟩, body⟩ := held
  have headerFits := message.body.type.header_le_size
  have nonempty : wireLen ≠ 0 := by omega
  have long : ¬ wireLen < message.body.type.size := by omega
  simp only [decode, nonempty, if_false, type, Option.bind_eq_bind, Option.bind_some,
    MessageType.ofCode?_code, long, decodeCommonHeader_encode header, decodeFields_encode body]
  rfl

/-- The buffer begins with one of the eight types and is as long as its struct. -/
def Accepts (wire : Memory) (wireLen : Nat) : Prop :=
  ∃ type : MessageType, wire 0 = some type.code ∧ type.size ≤ wireLen

private theorem exists_message_of_accepts (accepts : Accepts wire wireLen) (readable : wire.Readable wireLen) :
    ∃ message : Message, wire.Holds 0 message.encode ∧ message.body.type.size ≤ wireLen := by
  obtain ⟨type, found, fits⟩ := accepts
  obtain ⟨message, same, held⟩ := exists_message found fun offset inside =>
    readable offset (Nat.lt_of_lt_of_le inside fits)
  exact ⟨message, held, by rwa [same]⟩

/-- What is not accepted is refused, after reading at most its first byte. -/
theorem decode_of_not_accepts (refused : ¬ Accepts wire wireLen) (readable : wire.Readable wireLen) :
    decode (some wire) wireLen out = some (false, if wireLen = 0 then out else out.reset ((wire 0).getD 0)) := by
  by_cases empty : wireLen = 0
  · simp [decode, empty]
  · obtain ⟨byte, found⟩ := exists_byte readable (Nat.pos_of_ne_zero empty)
    simp only [decode, empty, if_false, found, Option.bind_eq_bind, Option.bind_some, Option.getD_some]
    cases known : MessageType.ofCode? byte with
    | none => rfl
    | some type =>
      have short : wireLen < type.size := by
        by_contra long
        rw [← MessageType.code_of_ofCode? known] at found
        exact refused ⟨type, found, Nat.le_of_not_lt long⟩
      simp only [short, if_true]
      rfl

theorem Message.frame_ids (message : Message) (sequenceId recvTimestampNs : UInt64) :
    (message.frame sequenceId recvTimestampNs).sequenceId = sequenceId ∧
      (message.frame sequenceId recvTimestampNs).recvTimestampNs = recvTimestampNs := by
  obtain ⟨header, body⟩ := message
  cases body <;> exact ⟨rfl, rfl⟩

theorem Accepts.congr {other : Memory} (accepts : Accepts wire wireLen)
    (same : ∀ offset < wireLen, other offset = wire offset) : Accepts other wireLen := by
  obtain ⟨type, found, fits⟩ := accepts
  have headerFits := type.header_le_size
  exact ⟨type, by rwa [same 0 (by omega)], fits⟩

private theorem decode_congr {other : Memory} (readable : wire.Readable wireLen)
    (same : ∀ offset < wireLen, other offset = wire offset) :
    decode (some other) wireLen out = decode (some wire) wireLen out := by
  have otherReadable : other.Readable wireLen := fun offset inside => by
    rw [same offset inside]
    exact readable offset inside
  by_cases accepts : Accepts wire wireLen
  · obtain ⟨message, held, fits⟩ := exists_message_of_accepts accepts readable
    have otherHeld : other.Holds 0 message.encode := held.congr fun offset _ inside =>
      same offset (by rw [message.length_encode] at inside; omega)
    rw [decode_encode held fits, decode_encode otherHeld fits]
  · have otherRefused : ¬ Accepts other wireLen := fun accepted =>
      accepts (accepted.congr fun offset inside => (same offset inside).symm)
    rw [decode_of_not_accepts accepts readable, decode_of_not_accepts otherRefused otherReadable]
    by_cases empty : wireLen = 0
    · simp only [empty, if_true]
    · rw [same 0 (Nat.pos_of_ne_zero empty)]

theorem decode_inverts_layout (wire : Memory) (wireLen : Nat) (out : ItchFrame) (readable : wire.Readable wireLen) :
    (∃ accepted frame, decode (some wire) wireLen out = some (accepted, frame) ∧
      (accepted = true ↔ ∃ type : MessageType, wire 0 = some type.code ∧ type.size ≤ wireLen) ∧
      frame.sequenceId = out.sequenceId ∧ frame.recvTimestampNs = out.recvTimestampNs) ∧
    (∀ other : Memory, (∀ offset < wireLen, other offset = wire offset) →
      decode (some other) wireLen out = decode (some wire) wireLen out) ∧
    (∀ message : Message, message.encode.length = message.body.type.size ∧
      (wire.Holds 0 message.encode → message.encode.length ≤ wireLen → decode (some wire) wireLen out =
          some (true, message.frame out.sequenceId out.recvTimestampNs))) ∧
    ∀ (type : MessageType) (other : Memory) (otherLen : Nat) (previous : ItchFrame),
      wire 0 = some type.code → type.size ≤ wireLen → type.size ≤ otherLen →
      (∀ offset < type.size, other offset = wire offset) →
      previous.sequenceId = out.sequenceId → previous.recvTimestampNs = out.recvTimestampNs →
      decode (some other) otherLen previous = decode (some wire) wireLen out := by
  refine ⟨?_, fun other same => decode_congr readable same, fun message =>
    ⟨message.length_encode, fun held fits => ?_⟩, ?_⟩
  · by_cases accepts : Accepts wire wireLen
    · obtain ⟨message, held, fits⟩ := exists_message_of_accepts accepts readable
      obtain ⟨sequence, received⟩ := message.frame_ids out.sequenceId out.recvTimestampNs
      exact ⟨_, _, decode_encode held fits, ⟨fun _ => accepts, fun _ => rfl⟩, sequence, received⟩
    · refine ⟨_, _, decode_of_not_accepts accepts readable,
        ⟨fun wrong => (Bool.false_ne_true wrong).elim, fun right => (accepts right).elim⟩, ?_, ?_⟩
      all_goals split <;> rfl
  · rw [message.length_encode] at fits
    exact decode_encode held fits
  · intro type other otherLen previous found fits otherFits same sequence received
    obtain ⟨message, rfl, held⟩ := exists_message found fun offset inside =>
      readable offset (Nat.lt_of_lt_of_le inside fits)
    have otherHeld : other.Holds 0 message.encode := held.congr fun offset _ inside =>
      same offset (by rw [message.length_encode] at inside; omega)
    rw [decode_encode held fits, decode_encode otherHeld otherFits, sequence, received]

/-- An order deletion with one byte after it, into a frame of other data. -/
theorem decode_inverts_layout_deletion : ∃ (message : Message) (wire : Memory) (out : ItchFrame), wire.Readable 20 ∧
      wire.Holds 0 message.encode ∧ message.body.type = .orderDelete ∧
      decode (some wire) 20 out = some (true, message.frame out.sequenceId out.recvTimestampNs) := by
  let message : Message := ⟨⟨7, 1, 5, by decide⟩, .orderDelete 9⟩
  let out : ItchFrame := ⟨1, 2, 3, 4, 5, 6, 7, 8, 9, 10, 11⟩
  have readable : (Memory.ofBytes (message.encode ++ [255])).Readable 20 :=
    Memory.ofBytes_readable (message.encode ++ [255])
  have held : (Memory.ofBytes (message.encode ++ [255])).Holds 0 message.encode :=
    Memory.ofBytes_holds [] message.encode [255]
  exact ⟨message, _, out, readable, held, rfl,
    ((decode_inverts_layout _ 20 out readable).2.2.1 message).2 held (by decide)⟩

end AnimusCore.Itch
