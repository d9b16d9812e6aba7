import AnimusCore.Lib.Layout
import Mathlib.Data.Option.Basic

/-! Attaching to a shared-memory segment whose header may hold anything. A segment that is
accepted is in bounds exactly when the size the check computes has not wrapped. -/

set_option autoImplicit false

namespace AnimusCore.SharedMemory

open Lib

/-- `ANIMUS_CACHE_LINE_SIZE`, by target. -/
inductive CacheLine where
  | line64
  | line128

def CacheLine.bytes : CacheLine → UInt64
  | line64 => 64
  | line128 => 128

/-- What the rings know of their record type. -/
structure RecordType where
  size : UInt64
  size_pos : 0 < size.toNat
  versionHash : UInt64
  wireFormat : List UInt8

theorem RecordType.size_ne_zero (type : RecordType) : type.size ≠ 0 := by
  intro zero
  have positive := type.size_pos
  rw [zero] at positive
  cases positive

structure Segment where
  address : UInt64
  size : UInt64
  image : Memory
  mapped : image.Readable size.toNat

/-- The first 128 bytes of `RingHeader` and of `SpmcRingHeader`. -/
structure Descriptor where
  capacity : UInt64
  mask : UInt64
  ringKind : UInt64
  schemaVersionHash : UInt64
  payloadSize : UInt64
  stride : UInt64
  wireFormat : Vector UInt8 80

def Descriptor.layout : Layout Descriptor :=
  (Layout.u64.pair (Layout.u64.pair (Layout.u64.pair (Layout.u64.pair (Layout.u64.pair
    (Layout.u64.pair (Layout.chars 80))))))).map
    { toFun := fun (capacity, mask, ringKind, schemaVersionHash, payloadSize, stride, wireFormat) =>
        ⟨capacity, mask, ringKind, schemaVersionHash, payloadSize, stride, wireFormat⟩
      invFun := fun header =>
        (header.capacity, header.mask, header.ringKind, header.schemaVersionHash,
          header.payloadSize, header.stride, header.wireFormat)
      left_inv := fun _ => rfl, right_inv := fun _ => rfl }

/-- The first 32 bytes of `BroadcastHeader` and of `SpscQueueHeader`. -/
structure QueueDescriptor where
  magic : UInt64
  capacity : UInt64
  mask : UInt64
  payloadSize : UInt64

def QueueDescriptor.layout : Layout QueueDescriptor :=
  (Layout.u64.pair (Layout.u64.pair (Layout.u64.pair Layout.u64))).map
    { toFun := fun (magic, capacity, mask, payloadSize) => ⟨magic, capacity, mask, payloadSize⟩
      invFun := fun header => (header.magic, header.capacity, header.mask, header.payloadSize)
      left_inv := fun _ => rfl, right_inv := fun _ => rfl }

inductive RingKind where
  | spsc
  | spmcBroadcast

def RingKind.word : RingKind → UInt64
  | spsc => 0
  | spmcBroadcast => 1

def ringHeaderSize (line : CacheLine) : UInt64 := 128 + 2 * line.bytes
def spmcRingHeaderSize (line : CacheLine) : UInt64 := 128 + line.bytes
def broadcastHeaderSize (line : CacheLine) : UInt64 := 2 * line.bytes
def spscQueueHeaderSize (line : CacheLine) : UInt64 := 3 * line.bytes

/-- What the methods of an attached ring compute their addresses from. -/
structure View where
  headerSize : UInt64
  capacity : UInt64
  mask : UInt64
  stride : UInt64
  deriving DecidableEq

/-! ### Attaching

`none` is a null result. The header is read only from segments that are as large. -/

def capacityIsPow2 (capacity : UInt64) : Bool :=
  capacity != 0 && capacity &&& (capacity - 1) == 0

/-- The two typed `open` methods differ in their header and its kind. -/
def openRing (kind : RingKind) (headerSize : UInt64) (type : RecordType) (segment : Segment) : Option View := do
  guard (headerSize ≤ segment.size)
  let header ← Descriptor.layout.read segment.image 0
  guard (header.ringKind = kind.word)
  let capacity := header.capacity
  guard (capacityIsPow2 capacity ∧ header.mask = capacity - 1)
  guard (header.payloadSize = type.size)
  guard (header.schemaVersionHash = type.versionHash)
  guard (headerSize + capacity * type.size ≤ segment.size)
  return { headerSize, capacity, mask := header.mask, stride := type.size }

def openShmRing (line : CacheLine) : RecordType → Segment → Option View :=
  openRing .spsc (ringHeaderSize line)

def openSpmcRing (line : CacheLine) : RecordType → Segment → Option View :=
  openRing .spmcBroadcast (spmcRingHeaderSize line)

def openRawSchemaView (line : CacheLine) (segment : Segment) : Option View := do
  guard (ringHeaderSize line ≤ segment.size)
  let header ← Descriptor.layout.read segment.image 0
  guard (header.ringKind = RingKind.spsc.word)
  let capacity := header.capacity
  guard (capacityIsPow2 capacity ∧ header.mask = capacity - 1)
  guard (header.payloadSize ≠ 0 ∧ header.stride ≠ 0)
  guard (ringHeaderSize line + capacity * header.stride ≤ segment.size)
  return { headerSize := ringHeaderSize line, capacity, mask := capacity - 1,
           stride := header.stride }

def isPow2 (v : UInt64) : Bool := v ≥ 2 && v &&& (v - 1) == 0

def requiredBytes (headerSize : UInt64) (type : RecordType) (capacity : UInt64) : UInt64 :=
  headerSize + capacity * type.size

/-- The two `attach` methods differ in their header and its magic. -/
def attachQueue (magic headerSize : UInt64) (line : CacheLine) (type : RecordType)
    (segment : Segment) : Option View := do
  guard (segment.address ≠ 0 ∧ segment.address % line.bytes = 0 ∧ headerSize ≤ segment.size)
  let header ← QueueDescriptor.layout.read segment.image 0
  guard (header.magic = magic ∧ header.payloadSize = type.size ∧ isPow2 header.capacity ∧
    header.mask = header.capacity - 1 ∧
    requiredBytes headerSize type header.capacity ≤ segment.size)
  return { headerSize, capacity := header.capacity, mask := header.mask, stride := type.size }

def attachBroadcastRing (line : CacheLine) : RecordType → Segment → Option View :=
  attachQueue 0x42524F4144434153 (broadcastHeaderSize line) line

def attachSpscQueue (line : CacheLine) : RecordType → Segment → Option View :=
  attachQueue 0x5350534351554555 (spscQueueHeaderSize line) line

inductive Attachment where
  | shmRing
  | spmcRing
  | rawSchemaView
  | broadcastRing
  | spscQueue

def Attachment.open (line : CacheLine) (type : RecordType) (segment : Segment) : Attachment → Option View
  | shmRing => openShmRing line type segment
  | spmcRing => openSpmcRing line type segment
  | rawSchemaView => openRawSchemaView line segment
  | broadcastRing => attachBroadcastRing line type segment
  | spscQueue => attachSpscQueue line type segment

def View.slot (view : View) (index : UInt64) : Nat :=
  view.headerSize.toNat + (index &&& view.mask).toNat * view.stride.toNat

def View.InBounds (view : View) (segment : Segment) : Prop :=
  ∀ index, view.slot index + view.stride.toNat ≤ segment.size.toNat

def View.extent (view : View) : Nat :=
  view.headerSize.toNat + view.capacity.toNat * view.stride.toNat

structure Checked (view : View) (segment : Segment) : Prop where
  capacity_pos : 0 < view.capacity.toNat
  mask : view.mask = view.capacity - 1
  room : view.headerSize + view.capacity * view.stride ≤ segment.size

variable {headerSize capacity : UInt64}

section
variable {view : View} {segment : Segment}

theorem Checked.mask_toNat (checked : Checked view segment) : view.mask.toNat + 1 = view.capacity.toNat := by
  have positive := checked.capacity_pos
  have atLeast : (1 : UInt64) ≤ view.capacity := by
    exact positive
  rw [checked.mask, UInt64.toNat_sub_of_le _ _ atLeast]
  exact Nat.sub_add_cancel positive

theorem toNat_extent {size : UInt64} (fits : headerSize.toNat + capacity.toNat * size.toNat < 2 ^ 64) :
    (headerSize + capacity * size).toNat = headerSize.toNat + capacity.toNat * size.toNat := by
  have product : capacity.toNat * size.toNat < 2 ^ 64 := by omega
  rw [UInt64.toNat_add, UInt64.toNat_mul, Nat.mod_eq_of_lt product, Nat.mod_eq_of_lt fits]

/-- Without a wrap the check leaves room for every slot, and the last one needs it all. -/
theorem Checked.inBounds_iff (checked : Checked view segment) : view.InBounds segment ↔ view.extent < 2 ^ 64 := by
  have last := checked.mask_toNat
  constructor
  · intro inside
    have whole := inside view.mask
    have same : view.mask &&& view.mask = view.mask := UInt64.and_self
    rw [View.slot, same, Nat.add_assoc, ← Nat.succ_mul, Nat.succ_eq_add_one, last] at whole
    exact Nat.lt_of_le_of_lt whole segment.size.toNat_lt
  · intro fits index
    have room := UInt64.le_iff_toNat_le.mp checked.room
    rw [toNat_extent fits] at room
    have masked : (index &&& view.mask).toNat + 1 ≤ view.capacity.toNat := by
      have le : index.toNat &&& view.mask.toNat ≤ view.mask.toNat := Nat.and_le_right
      rw [UInt64.toNat_and]
      omega
    have slots := Nat.mul_le_mul_right view.stride.toNat masked
    rw [Nat.succ_mul] at slots
    rw [View.slot]
    omega

end

variable {kind : RingKind}

section
variable {line : CacheLine} {type : RecordType} {segment : Segment} {view : View}

private theorem pos_of_capacityIsPow2 (pow2 : capacityIsPow2 capacity = true) : 0 < capacity.toNat := by
  simp only [capacityIsPow2, Bool.and_eq_true, bne_iff_ne] at pow2
  exact Nat.pos_of_ne_zero fun zero => pow2.1 (UInt64.toNat_inj.mp zero)

theorem pos_of_isPow2 (pow2 : isPow2 capacity = true) : 0 < capacity.toNat := by
  simp only [isPow2, Bool.and_eq_true, decide_eq_true_eq] at pow2
  have two := UInt64.le_iff_toNat_le.mp pow2.1
  exact Nat.lt_of_lt_of_le (by decide) two

theorem guard_eq_some_iff {condition : Prop} [Decidable condition] {result : Unit} :
    (guard condition : Option Unit) = some result ↔ condition := by
  by_cases holds : condition
  · simp [guard, holds]
  · simp [guard, holds, failure]

private theorem checked_of_openRing (opened : openRing kind headerSize type segment = some view) : Checked view segment := by
  simp only [openRing, Option.bind_eq_bind, Option.bind_eq_some_iff, guard_eq_some_iff, exists_const] at opened
  obtain ⟨-, header, -, -, ⟨pow2, mask⟩, -, -, room, same⟩ := opened
  cases same
  exact ⟨pos_of_capacityIsPow2 pow2, mask, room⟩

private theorem checked_of_openRawSchemaView (opened : openRawSchemaView line segment = some view) :
    Checked view segment := by
  simp only [openRawSchemaView, Option.bind_eq_bind, Option.bind_eq_some_iff,
    guard_eq_some_iff, exists_const] at opened
  obtain ⟨-, header, -, -, ⟨pow2, -⟩, -, room, same⟩ := opened
  cases same
  exact ⟨pos_of_capacityIsPow2 pow2, rfl, room⟩

private theorem checked_of_attachQueue {magic : UInt64}
    (attached : attachQueue magic headerSize line type segment = some view) : Checked view segment := by
  simp only [attachQueue, Option.bind_eq_bind, Option.bind_eq_some_iff, guard_eq_some_iff, exists_const] at attached
  obtain ⟨-, header, -, ⟨-, -, pow2, mask, room⟩, same⟩ := attached
  cases same
  exact ⟨pos_of_isPow2 pow2, mask, room⟩

private theorem checked_of_open {attachment : Attachment}
    (opened : attachment.open line type segment = some view) : Checked view segment := by
  cases attachment with
  | shmRing | spmcRing => exact checked_of_openRing opened
  | rawSchemaView => exact checked_of_openRawSchemaView opened
  | broadcastRing | spscQueue => exact checked_of_attachQueue opened

end

section
variable {line : CacheLine} {type : RecordType} {segment : Segment}

section
variable {header : Descriptor} (held : segment.image.Holds 0 (Descriptor.layout.bytes header))
include held

theorem openRing_eq_some (large : headerSize ≤ segment.size) (sameKind : header.ringKind = kind.word)
    (pow2 : capacityIsPow2 header.capacity = true) (mask : header.mask = header.capacity - 1)
    (payload : header.payloadSize = type.size) (hash : header.schemaVersionHash = type.versionHash)
    (room : headerSize + header.capacity * type.size ≤ segment.size) : openRing kind headerSize type segment = some
      { headerSize, capacity := header.capacity, mask := header.mask, stride := type.size } := by
  simp only [openRing, Option.bind_eq_bind, Option.bind_eq_some_iff, guard_eq_some_iff, exists_const]
  exact ⟨large, header, Descriptor.layout.read_bytes held, sameKind, ⟨pow2, mask⟩, payload, hash, room, rfl⟩

private theorem openRawSchemaView_eq_some (large : ringHeaderSize line ≤ segment.size)
    (kind : header.ringKind = RingKind.spsc.word) (pow2 : capacityIsPow2 header.capacity = true)
    (mask : header.mask = header.capacity - 1) (payload : header.payloadSize ≠ 0) (stride : header.stride ≠ 0)
    (room : ringHeaderSize line + header.capacity * header.stride ≤ segment.size) :
    openRawSchemaView line segment = some
      { headerSize := ringHeaderSize line, capacity := header.capacity
        mask := header.capacity - 1, stride := header.stride } := by
  simp only [openRawSchemaView, Option.bind_eq_bind, Option.bind_eq_some_iff, guard_eq_some_iff, exists_const]
  exact ⟨large, header, Descriptor.layout.read_bytes held, kind, ⟨pow2, mask⟩, ⟨payload, stride⟩, room, rfl⟩

end

private theorem attachQueue_eq_some {magic : UInt64} {header : QueueDescriptor}
    (held : segment.image.Holds 0 (QueueDescriptor.layout.bytes header)) (address : segment.address ≠ 0)
    (aligned : segment.address % line.bytes = 0) (large : headerSize ≤ segment.size)
    (sameMagic : header.magic = magic) (payload : header.payloadSize = type.size)
    (pow2 : isPow2 header.capacity = true) (mask : header.mask = header.capacity - 1)
    (room : requiredBytes headerSize type header.capacity ≤ segment.size) :
    attachQueue magic headerSize line type segment = some
      { headerSize, capacity := header.capacity, mask := header.mask, stride := type.size } := by
  simp only [attachQueue, Option.bind_eq_bind, Option.bind_eq_some_iff, guard_eq_some_iff, exists_const]
  exact ⟨⟨address, aligned, large⟩, header, QueueDescriptor.layout.read_bytes held,
    ⟨sameMagic, payload, pow2, mask, room⟩, rfl⟩

end

/-- A segment that was zeroed and then given these first bytes. -/
def Segment.ofBytes (address size : UInt64) (bytes : List UInt8) : Segment where
  address := address
  size := size
  image := (Memory.zeroed size.toNat).write bytes
  mapped := (Memory.zeroed_readable size.toNat).write bytes

/-- An accepted segment holds all its slots exactly when their extent is a 64-bit number. -/
theorem accepted_in_bounds_iff (line : CacheLine) (type : RecordType) (segment : Segment) (attachment : Attachment)
    (view : View) (opened : attachment.open line type segment = some view) :
    view.InBounds segment ↔ view.extent < 2 ^ 64 :=
  (checked_of_open opened).inBounds_iff

def sampleType : RecordType := ⟨64, by decide, 11, []⟩

def sampleDescriptor (kind : RingKind) (capacity : UInt64) : Descriptor :=
  ⟨capacity, capacity - 1, kind.word, 11, 64, 64, Vector.replicate 80 0⟩

def sampleSegment (kind : RingKind) (capacity size : UInt64) : Segment :=
  Segment.ofBytes 4096 size (Descriptor.layout.bytes (sampleDescriptor kind capacity))

def sampleQueueSegment (magic capacity size : UInt64) : Segment :=
  Segment.ofBytes 4096 size (QueueDescriptor.layout.bytes ⟨magic, capacity, capacity - 1, 64⟩)

private theorem sampleSegment_holds (kind : RingKind) (capacity size : UInt64) :
    (sampleSegment kind capacity size).image.Holds 0 (Descriptor.layout.bytes (sampleDescriptor kind capacity)) :=
  Memory.write_holds ..

private theorem openRing_sampleSegment {size : UInt64} (large : headerSize ≤ size)
    (pow2 : capacityIsPow2 capacity = true) (room : headerSize + capacity * 64 ≤ size) :
    openRing kind headerSize sampleType (sampleSegment kind capacity size) = some
      ⟨headerSize, capacity, capacity - 1, 64⟩ :=
  openRing_eq_some (sampleSegment_holds kind capacity size) large rfl pow2 rfl rfl rfl room

private theorem attachQueue_sampleQueueSegment {magic size : UInt64} (large : headerSize ≤ size)
    (pow2 : isPow2 capacity = true) (room : headerSize + capacity * 64 ≤ size) :
    attachQueue magic headerSize .line64 sampleType (sampleQueueSegment magic capacity size) = some
      ⟨headerSize, capacity, capacity - 1, 64⟩ := by
  have held : (sampleQueueSegment magic capacity size).image.Holds 0
      (QueueDescriptor.layout.bytes ⟨magic, capacity, capacity - 1, 64⟩) := Memory.write_holds ..
  have aligned : (4096 : UInt64) ≠ 0 ∧ (4096 : UInt64) % CacheLine.line64.bytes = 0 := by decide
  exact attachQueue_eq_some held aligned.1 aligned.2 large rfl rfl pow2 rfl room

theorem accepted_in_bounds_iff_two_slots :
    ∃ segment view, Attachment.shmRing.open .line64 sampleType segment = some view ∧
      (view.InBounds segment ↔ view.extent < 2 ^ 64) ∧ view.extent < 2 ^ 64 := by
  have opened : Attachment.shmRing.open .line64 sampleType (sampleSegment .spsc 2 384) = some
      ⟨ringHeaderSize .line64, 2, 1, 64⟩ :=
    openRing_sampleSegment (by decide) (by decide) (by decide)
  exact ⟨_, _, opened, accepted_in_bounds_iff _ _ _ _ _ opened, by decide⟩

/-- As a word, `2 ^ 63 * 64` is zero. -/
def hugeCapacity : UInt64 := 0x8000000000000000

/-- A segment of its header alone passes every check when the capacity is huge, and
already the first slot is outside. -/
theorem exists_accepted_outside (attachment : Attachment) :
    ∃ segment view, attachment.open .line64 sampleType segment = some view ∧
      ¬ view.slot 0 + view.stride.toNat ≤ segment.size.toNat := by
  have nothing (headerSize : UInt64) : headerSize + hugeCapacity * 64 ≤ headerSize := by
    rw [show hugeCapacity * 64 = 0 by decide, UInt64.add_zero]
    exact UInt64.le_refl headerSize
  have ring (kind : RingKind) (headerSize : UInt64) :
      openRing kind headerSize sampleType (sampleSegment kind hugeCapacity headerSize) = some
        ⟨headerSize, hugeCapacity, hugeCapacity - 1, 64⟩ :=
    openRing_sampleSegment (UInt64.le_refl _) (by decide) (nothing headerSize)
  have queue (magic headerSize : UInt64) : attachQueue magic headerSize .line64 sampleType
        (sampleQueueSegment magic hugeCapacity headerSize) = some
        ⟨headerSize, hugeCapacity, hugeCapacity - 1, 64⟩ :=
    attachQueue_sampleQueueSegment (UInt64.le_refl _) (by decide) (nothing headerSize)
  cases attachment with
  | shmRing => exact ⟨_, _, ring .spsc (ringHeaderSize .line64), by decide⟩
  | spmcRing => exact ⟨_, _, ring .spmcBroadcast (spmcRingHeaderSize .line64), by decide⟩
  | rawSchemaView =>
    have opened := openRawSchemaView_eq_some (sampleSegment_holds .spsc hugeCapacity (ringHeaderSize .line64))
      (UInt64.le_refl (ringHeaderSize .line64)) rfl (by decide) rfl (by decide) (by decide)
      (nothing (ringHeaderSize .line64))
    exact ⟨_, _, opened, by decide⟩
  | broadcastRing => exact ⟨_, _, queue _ (broadcastHeaderSize .line64), by decide⟩
  | spscQueue => exact ⟨_, _, queue _ (spscQueueHeaderSize .line64), by decide⟩

theorem accepted_out_of_bounds : ∃ segment view, Attachment.shmRing.open .line64 sampleType segment = some view ∧
      ¬ view.slot 0 + view.stride.toNat ≤ segment.size.toNat :=
  exists_accepted_outside .shmRing

end AnimusCore.SharedMemory
