import AnimusCore.Lib.Layout

/-! The packed structures of an MDP 3.0 datagram, and the book messages it carries. -/

set_option autoImplicit false

namespace AnimusCore.Cme

open Lib

structure PacketHeader where
  sequenceNumber : UInt32
  sendingTime : UInt64

structure SbeMessageHeader where
  blockLength : UInt16
  templateId : UInt16
  schemaId : UInt16
  version : UInt16

structure GroupSizeEncoding where
  blockLength : UInt16
  numInGroup : UInt8

structure MDIncrementalRefreshBook46 where
  transactTime : UInt64
  matchEventIndicator : UInt8

structure MDEntry46 where
  mdEntryPx : Int64
  mdEntrySize : Int32
  securityId : Int32
  rptSeq : UInt32
  numberOfOrders : Int32
  mdPriceLevel : UInt8
  mdUpdateAction : UInt8
  mdEntryType : UInt8

def PacketHeader.layout : Layout PacketHeader :=
  (Layout.u32.pair Layout.u64).map
    { toFun := fun (sequenceNumber, sendingTime) => ⟨sequenceNumber, sendingTime⟩
      invFun := fun header => (header.sequenceNumber, header.sendingTime)
      left_inv := fun _ => rfl, right_inv := fun _ => rfl }

def SbeMessageHeader.layout : Layout SbeMessageHeader :=
  (Layout.u16.pair (Layout.u16.pair (Layout.u16.pair Layout.u16))).map
    { toFun := fun (blockLength, templateId, schemaId, version) =>
        ⟨blockLength, templateId, schemaId, version⟩
      invFun := fun header =>
        (header.blockLength, header.templateId, header.schemaId, header.version)
      left_inv := fun _ => rfl, right_inv := fun _ => rfl }

def GroupSizeEncoding.layout : Layout GroupSizeEncoding :=
  (Layout.u16.pair Layout.u8).map
    { toFun := fun (blockLength, numInGroup) => ⟨blockLength, numInGroup⟩
      invFun := fun dimension => (dimension.blockLength, dimension.numInGroup)
      left_inv := fun _ => rfl, right_inv := fun _ => rfl }

def MDIncrementalRefreshBook46.layout : Layout MDIncrementalRefreshBook46 :=
  (Layout.u64.pair Layout.u8).map
    { toFun := fun (transactTime, matchEventIndicator) => ⟨transactTime, matchEventIndicator⟩
      invFun := fun root => (root.transactTime, root.matchEventIndicator)
      left_inv := fun _ => rfl, right_inv := fun _ => rfl }

def MDEntry46.layout : Layout MDEntry46 :=
  (Layout.i64.pair (Layout.i32.pair (Layout.i32.pair (Layout.u32.pair (Layout.i32.pair
    (Layout.u8.pair (Layout.u8.pair Layout.u8))))))).map
    { toFun := fun (mdEntryPx, mdEntrySize, securityId, rptSeq, numberOfOrders, mdPriceLevel,
        mdUpdateAction, mdEntryType) =>
        ⟨mdEntryPx, mdEntrySize, securityId, rptSeq, numberOfOrders, mdPriceLevel, mdUpdateAction, mdEntryType⟩
      invFun := fun entry =>
        (entry.mdEntryPx, entry.mdEntrySize, entry.securityId, entry.rptSeq,
          entry.numberOfOrders, entry.mdPriceLevel, entry.mdUpdateAction, entry.mdEntryType)
      left_inv := fun _ => rfl, right_inv := fun _ => rfl }

@[simp] theorem PacketHeader.width : PacketHeader.layout.width = 12 := rfl
@[simp] theorem SbeMessageHeader.width : SbeMessageHeader.layout.width = 8 := rfl
@[simp] theorem GroupSizeEncoding.width : GroupSizeEncoding.layout.width = 3 := rfl
@[simp] theorem MDIncrementalRefreshBook46.width : MDIncrementalRefreshBook46.layout.width = 9 := rfl
@[simp] theorem MDEntry46.width : MDEntry46.layout.width = 27 := rfl

/-- Of `SbeRepeatingGroupView`. -/
def GroupSizeEncoding.byteLength (dimension : GroupSizeEncoding) : Nat :=
  GroupSizeEncoding.layout.width + dimension.numInGroup.toNat * dimension.blockLength.toNat

/-- A book message: its root block and its entries may be wider than the mapped fields. -/
structure BookMessage where
  schemaId : UInt16
  version : UInt16
  root : MDIncrementalRefreshBook46
  rootExtra : List UInt8
  root_fits : 9 + rootExtra.length < 2 ^ 16
  entryExtra : Nat
  entry_fits : 27 + entryExtra < 2 ^ 16
  entries : List (MDEntry46 × Vector UInt8 entryExtra)
  entries_fit : entries.length < 2 ^ 8

def encodeEntry {extra : Nat} (entry : MDEntry46 × Vector UInt8 extra) : List UInt8 :=
  MDEntry46.layout.bytes entry.1 ++ entry.2.toList

namespace BookMessage

variable (message : BookMessage)
include message

def header : SbeMessageHeader where
  blockLength := UInt16.ofNat (9 + message.rootExtra.length)
  templateId := 46
  schemaId := message.schemaId
  version := message.version

def dimension : GroupSizeEncoding where
  blockLength := UInt16.ofNat (27 + message.entryExtra)
  numInGroup := UInt8.ofNat message.entries.length

def encode : List UInt8 :=
  SbeMessageHeader.layout.bytes message.header ++
    (MDIncrementalRefreshBook46.layout.bytes message.root ++ message.rootExtra) ++
    GroupSizeEncoding.layout.bytes message.dimension ++ message.entries.flatMap encodeEntry

theorem blockLength_toNat : message.header.blockLength.toNat = 9 + message.rootExtra.length :=
  UInt16.toNat_ofNat_of_lt' message.root_fits

theorem entryLength_toNat : message.dimension.blockLength.toNat = 27 + message.entryExtra :=
  UInt16.toNat_ofNat_of_lt' message.entry_fits

theorem numInGroup_toNat : message.dimension.numInGroup.toNat = message.entries.length :=
  UInt8.toNat_ofNat_of_lt' message.entries_fit

end BookMessage

@[simp] theorem length_encodeEntry {extra : Nat} (entry : MDEntry46 × Vector UInt8 extra) :
    (encodeEntry entry).length = 27 + extra := by
  simp [encodeEntry]

private theorem length_encodeEntries {extra : Nat} (entries : List (MDEntry46 × Vector UInt8 extra)) :
    (entries.flatMap encodeEntry).length = entries.length * (27 + extra) := by
  simp [List.length_flatMap]

theorem BookMessage.length_encode (message : BookMessage) : message.encode.length =
      8 + (9 + message.rootExtra.length) + 3 + message.entries.length * (27 + message.entryExtra) := by
  simp only [encode, List.length_append, Layout.length_bytes, SbeMessageHeader.width,
    MDIncrementalRefreshBook46.width, GroupSizeEncoding.width, length_encodeEntries]

section
variable {buf : Memory} {bound : Nat}

private theorem exists_entries (extra count : Nat) {start : Nat} (readable : buf.Readable bound)
    (inside : start + count * (27 + extra) ≤ bound) :
    ∃ entries : List (MDEntry46 × Vector UInt8 extra), entries.length = count ∧
      buf.Holds start (entries.flatMap encodeEntry) := by
  induction count generalizing start with
  | zero => exact ⟨[], rfl, rfl⟩
  | succ count ih =>
    rw [Nat.succ_mul] at inside
    obtain ⟨entry, entryHeld⟩ := MDEntry46.layout.exists_bytes readable (show start + 27 ≤ bound by omega)
    obtain ⟨bytes, read⟩ := readable.exists_read (show start + 27 + extra ≤ bound by omega)
    obtain ⟨rest, length, restHeld⟩ := ih (show start + (27 + extra) + count * (27 + extra) ≤ bound by omega)
    refine ⟨(entry, ⟨bytes.toArray, Memory.length_of_read read⟩) :: rest, by simp [length], ?_⟩
    rw [List.flatMap_cons, Memory.holds_append, length_encodeEntry, encodeEntry,
      Memory.holds_append, Layout.length_bytes]
    exact ⟨⟨entryHeld, Memory.holds_of_read read⟩, restHeld⟩

/-- The checks of the decoder, on what it read of a message. -/
structure Passes (len offset : Nat) (header : SbeMessageHeader) (dimension : GroupSizeEncoding) : Prop where
  template : header.templateId = 46
  root_wide : 9 ≤ header.blockLength.toNat
  entry_wide : 27 ≤ dimension.blockLength.toNat
  inside : offset + 8 + header.blockLength.toNat + dimension.byteLength ≤ len

theorem exists_message {len offset : Nat} {header : SbeMessageHeader} {dimension : GroupSizeEncoding}
    (readable : buf.Readable len) (headerHeld : buf.Holds offset (SbeMessageHeader.layout.bytes header))
    (dimensionHeld : buf.Holds (offset + 8 + header.blockLength.toNat) (GroupSizeEncoding.layout.bytes dimension))
    (passes : Passes len offset header dimension) :
    ∃ message : BookMessage, buf.Holds offset message.encode ∧ offset + message.encode.length ≤ len := by
  obtain ⟨template, rootWide, entryWide, inside⟩ := passes
  simp only [GroupSizeEncoding.byteLength, GroupSizeEncoding.width] at inside
  obtain ⟨root, rootHeld⟩ := MDIncrementalRefreshBook46.layout.exists_bytes readable
    (show offset + 8 + 9 ≤ len by omega)
  obtain ⟨rootExtra, rootRead⟩ := readable.exists_read
    (show offset + 8 + 9 + (header.blockLength.toNat - 9) ≤ len by omega)
  have extraLength := Memory.length_of_read rootRead
  have rootTotal : 9 + rootExtra.length = header.blockLength.toNat := by omega
  have entryTotal : 27 + (dimension.blockLength.toNat - 27) = dimension.blockLength.toNat := by
    omega
  obtain ⟨entries, count, entriesHeld⟩ := exists_entries (dimension.blockLength.toNat - 27)
    dimension.numInGroup.toNat readable
    (show offset + 8 + header.blockLength.toNat + 3 + dimension.numInGroup.toNat *
      (27 + (dimension.blockLength.toNat - 27)) ≤ len by rw [entryTotal]; omega)
  let message : BookMessage := {
    schemaId := header.schemaId, version := header.version, root, rootExtra
    root_fits := by rw [rootTotal]; exact header.blockLength.toNat_lt
    entryExtra := dimension.blockLength.toNat - 27
    entry_fits := by rw [entryTotal]; exact dimension.blockLength.toNat_lt
    entries
    entries_fit := by rw [count]; exact dimension.numInGroup.toNat_lt }
  have sameHeader : message.header = header := by
    obtain ⟨blockLength, templateId, schemaId, version⟩ := header
    simp only [BookMessage.header, message, rootTotal, UInt16.ofNat_toNat]
    rw [show templateId = 46 from template]
  have sameDimension : message.dimension = dimension := by
    simp only [BookMessage.dimension, message, entryTotal, count, UInt16.ofNat_toNat, UInt8.ofNat_toNat]
  refine ⟨message, ?_, ?_⟩
  · simp only [BookMessage.encode, sameHeader, sameDimension, Memory.holds_append, List.length_append,
      Layout.length_bytes, SbeMessageHeader.width, MDIncrementalRefreshBook46.width, GroupSizeEncoding.width]
    have place : offset + (8 + (9 + rootExtra.length)) = offset + 8 + header.blockLength.toNat := by
      omega
    have after : offset + (8 + (9 + rootExtra.length) + 3) = offset + 8 + header.blockLength.toNat + 3 := by omega
    refine ⟨⟨⟨headerHeld, rootHeld, Memory.holds_of_read rootRead⟩, ?_⟩, ?_⟩
    · rw [place]
      exact dimensionHeld
    · rw [after]
      exact entriesHeld
  · rw [message.length_encode]
    simp only [message, rootTotal, entryTotal, count]
    omega

end

end AnimusCore.Cme
