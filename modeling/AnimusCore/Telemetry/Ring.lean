import AnimusCore.Lib.StructFormat
import AnimusCore.Lib.SlotQueue
import AnimusCore.SharedMemory.Creation

/-! One telemetry ring in shared memory, used by the C++ `SharedTelemetryChannel` and by the
Python `SharedTelemetryRing`. A step is one access to a field of the header or of a record
together with the local computation up to the next access; each side has its own idea of where
the fields are. -/

set_option autoImplicit false

namespace AnimusCore.Telemetry

open Lib Lib.Ring Lib.StructFormat SharedMemory

inductive Language where
  | cpp
  | python

inductive HeaderField where
  | capacity
  | head
  | tail

inductive RecordField where
  | timestampCycles
  | eventId
  | traceId
  | metricValue
deriving DecidableEq

/-- The order of the declaration, and of the tuple that Python packs. -/
def RecordField.all : List RecordField := [.timestampCycles, .eventId, .traceId, .metricValue]

structure SharedTelemetryRecord where
  timestampCycles : UInt64
  eventId : UInt32
  traceId : UInt32
  metricValue : UInt64
deriving DecidableEq

def SharedTelemetryRecord.field (record : SharedTelemetryRecord) : RecordField → Nat
  | .timestampCycles => record.timestampCycles.toNat
  | .eventId => record.eventId.toNat
  | .traceId => record.traceId.toNat
  | .metricValue => record.metricValue.toNat

structure Place where
  offset : Nat
  width : Nat

def Place.load (place : Place) (memory : Memory) : Option Nat :=
  memory.readLE place.offset place.width

def Place.store (place : Place) (memory : Memory) (value : Nat) : Option Memory :=
  memory.store? ⟨place.offset, toLE place.width value⟩

namespace SharedTelemetryChannel

/-- The members of `SharedRingHeader`. -/
def header : HeaderField → Place
  | .capacity => ⟨0, 8⟩
  | .head => ⟨8, 8⟩
  | .tail => ⟨16, 8⟩

def member : RecordField → Place
  | .timestampCycles => ⟨0, 8⟩
  | .eventId => ⟨8, 4⟩
  | .traceId => ⟨12, 4⟩
  | .metricValue => ⟨16, 8⟩

/-- A member of `records_[slot]`; the array begins at `header + 1`. -/
def record (slot : Nat) (field : RecordField) : Place :=
  ⟨24 + slot * telemetryRecordSize.toNat + (member field).offset, (member field).width⟩

end SharedTelemetryChannel

namespace SharedTelemetryRing

/-- `_HEADER_FORMAT` is `<QQQ`. -/
def headerFormat : RecordLayout := .ofPair (standardFrom .little 0 [.Q, .Q, .Q])

/-- `_RECORD_FORMAT` is `<QIIQ`. -/
def recordFormat : RecordLayout := .ofPair (standardFrom .little 0 [.Q, .I, .I, .Q])

theorem layout_header (platform : Platform) : layout platform ['<', 'Q', 'Q', 'Q'] = some headerFormat := rfl

theorem layout_record (platform : Platform) : layout platform ['<', 'Q', 'I', 'I', 'Q'] = some recordFormat := rfl

def headOffset : Nat := 8

def tailOffset : Nat := 16

def headerItem : HeaderField → Item
  | .capacity => headerFormat.items.get ⟨0, by decide⟩
  | .head => headerFormat.items.get ⟨1, by decide⟩
  | .tail => headerFormat.items.get ⟨2, by decide⟩

def recordItem : RecordField → Item
  | .timestampCycles => recordFormat.items.get ⟨0, by decide⟩
  | .eventId => recordFormat.items.get ⟨1, by decide⟩
  | .traceId => recordFormat.items.get ⟨2, by decide⟩
  | .metricValue => recordFormat.items.get ⟨3, by decide⟩

def header (field : HeaderField) : Place := ⟨(headerItem field).offset, (headerItem field).width⟩

def record (slot : Nat) (field : RecordField) : Place :=
  ⟨headerFormat.size + slot * recordFormat.size + (recordItem field).offset, (recordItem field).width⟩

/-- The segment of `create`; `none` for an exception. -/
def create (mapper : Mapper) (capacity : Nat) : Option Segment :=
  if capacity < 1 then none
  else if headerFormat.size + capacity * recordFormat.size < 2 ^ 64 then
    (mapper (UInt64.ofNat (headerFormat.size + capacity * recordFormat.size))).bind fun region =>
      region.construct (toLE 8 capacity ++ (toLE 8 0 ++ toLE 8 0))
  else none

/-- `_capacity` of an attached ring; `none` for a segment too short to unpack. -/
def attach (segment : Segment) : Option Nat :=
  if headerFormat.size ≤ segment.size.toNat then (header .capacity).load segment.image else none

end SharedTelemetryRing

/-- An object over the segment. The Python one keeps the capacity it found, the C++ one reads
it from the header every time. -/
inductive Side where
  | cpp
  | python (capacity : Nat)

def Language.attach (segment : Segment) : Language → Option Side
  | .cpp => (attachChannel segment).map fun _ => .cpp
  | .python => (SharedTelemetryRing.attach segment).map .python

namespace Side

def header : Side → HeaderField → Place
  | cpp => SharedTelemetryChannel.header
  | python _ => SharedTelemetryRing.header

def record : Side → Nat → RecordField → Place
  | cpp => SharedTelemetryChannel.record
  | python _ => SharedTelemetryRing.record

def headCell : Side → Place
  | cpp => SharedTelemetryChannel.header .head
  | python _ => ⟨SharedTelemetryRing.headOffset, 8⟩

def tailCell : Side → Place
  | cpp => SharedTelemetryChannel.header .tail
  | python _ => ⟨SharedTelemetryRing.tailOffset, 8⟩

/-- The C++ counter wraps; `pack_into` raises an exception. -/
def storeCounter (side : Side) (cell : Place) (memory : Memory) (count : Nat) : Option Memory :=
  match side with
  | cpp => cell.store memory count
  | python _ => if count < 2 ^ 64 then cell.store memory count else none

/-- A struct may be copied member by member in any order. -/
def mayCopy : Side → List RecordField → Bool
  | cpp, order => order.isPerm RecordField.all
  | python _, order => order == RecordField.all

end Side

/-- `index % capacity`; by zero it is undefined or an exception. -/
def slotOf (index capacity : Nat) : Option Nat :=
  if capacity = 0 then none else some (index % capacity)

/-- `compare` and `index` are the two uses of `header_->capacity` in C++, `loadCapacity` is the
first field of the combined read in Python. A `write` with nothing left to write stores the
head. -/
inductive PushPoint where
  | loadCapacity
  | loadHead
  | loadTail (head : Nat)
  | compare (head tail : Nat)
  | index (head : Nat)
  | write (head slot : Nat) (todo : List RecordField)

/-- `pending` is the number of records that were pending at the read of the tail. -/
structure PushCall where
  record : SharedTelemetryRecord
  order : List RecordField
  point : PushPoint
  pending : Nat := 0

/-- C++ loads the tail first, Python the head. -/
inductive PopPoint where
  | loadCapacity
  | loadHead (tail : Option Nat)
  | loadTail (head : Option Nat)
  | index (tail : Nat)
  | read (tail slot : Nat) (todo : List RecordField) (out : RecordField → Nat)

/-- `pending` is the number of records that were pending at the read of the head. -/
structure PopCall where
  order : List RecordField
  point : PopPoint
  pending : Nat := 0

/-- What a finished call reported, with its `pending`. -/
structure Attempt where
  succeeded : Bool
  pending : Nat
deriving DecidableEq

/-- The segment and the calls under way; the last four fields record the run. -/
structure State where
  memory : Memory
  push : Option PushCall := none
  pop : Option PopCall := none
  pushed : List SharedTelemetryRecord := []
  popped : List (RecordField → Nat) := []
  pushes : List Attempt := []
  pops : List Attempt := []

inductive Action where
  | push (record : SharedTelemetryRecord) (order : List RecordField)
  | pushStep
  | pop (order : List RecordField)
  | popStep

namespace State

section
variable (state : State)

def pending : Nat := state.pushed.length - state.popped.length

def pushAt (call : PushCall) (point : PushPoint) : State :=
  { state with push := some { call with point } }

def refusePush (call : PushCall) : State :=
  { state with push := none, pushes := state.pushes ++ [⟨false, call.pending⟩] }

def popAt (call : PopCall) (point : PopPoint) : State :=
  { state with pop := some { call with point } }

def refusePop (call : PopCall) : State :=
  { state with pop := none, pops := state.pops ++ [⟨false, call.pending⟩] }

end

variable (side : Side)

def beginPush (state : State) (record : SharedTelemetryRecord) (order : List RecordField) : Option State :=
  match state.push with
  | some _ => none
  | none =>
    if side.mayCopy order then
      some { state with push := some ⟨record, order, match side with
        | .cpp => .loadHead
        | .python _ => .loadCapacity, 0⟩ }
    else none

def pushLoaded (state : State) (call : PushCall) (head tail : Nat) : Option State :=
  match side with
  | .cpp => some (state.pushAt call (.compare head tail))
  | .python capacity =>
    if (head : Int) - tail ≥ capacity then some (state.refusePush call)
    else (slotOf head capacity).map fun slot => state.pushAt call (.write head slot call.order)

def pushStep (state : State) : Option State :=
  match state.push with
  | none => none
  | some call =>
    match call.point with
    | .loadCapacity =>
      ((side.header .capacity).load state.memory).map fun _ => state.pushAt call .loadHead
    | .loadHead =>
      ((side.header .head).load state.memory).map fun head => state.pushAt call (.loadTail head)
    | .loadTail head =>
      ((side.header .tail).load state.memory).bind fun tail =>
        state.pushLoaded side { call with pending := state.pending } head tail
    | .compare head tail =>
      ((side.header .capacity).load state.memory).map fun capacity =>
        if sub64 head tail ≥ capacity then state.refusePush call
        else state.pushAt call (.index head)
    | .index head =>
      ((side.header .capacity).load state.memory).bind fun capacity =>
        (slotOf head capacity).map fun slot => state.pushAt call (.write head slot call.order)
    | .write head slot (field :: rest) =>
      ((side.record slot field).store state.memory (call.record.field field)).map fun memory =>
        { state with memory }.pushAt call (.write head slot rest)
    | .write head _ [] =>
      (side.storeCounter side.headCell state.memory (head + 1)).map fun memory =>
        { state with
          memory
          push := none
          pushed := state.pushed ++ [call.record]
          pushes := state.pushes ++ [⟨true, call.pending⟩] }

def beginPop (state : State) (order : List RecordField) : Option State :=
  match state.pop with
  | some _ => none
  | none =>
    if side.mayCopy order then
      some { state with pop := some ⟨order, match side with
        | .cpp => .loadTail none
        | .python _ => .loadCapacity, 0⟩ }
    else none

def popLoaded (state : State) (call : PopCall) (head tail : Nat) : Option State :=
  if tail = head then some (state.refusePop call)
  else match side with
    | .cpp => some (state.popAt call (.index tail))
    | .python capacity =>
      (slotOf tail capacity).map fun slot =>
        state.popAt call (.read tail slot call.order fun _ => 0)

def popStep (state : State) : Option State :=
  match state.pop with
  | none => none
  | some call =>
    match call.point with
    | .loadCapacity =>
      ((side.header .capacity).load state.memory).map fun _ =>
        state.popAt call (.loadHead none)
    | .loadHead none =>
      ((side.header .head).load state.memory).map fun head =>
        state.popAt { call with pending := state.pending } (.loadTail (some head))
    | .loadHead (some tail) =>
      ((side.header .head).load state.memory).bind fun head =>
        state.popLoaded side { call with pending := state.pending } head tail
    | .loadTail none =>
      ((side.header .tail).load state.memory).map fun tail =>
        state.popAt call (.loadHead (some tail))
    | .loadTail (some head) =>
      ((side.header .tail).load state.memory).bind fun tail =>
        state.popLoaded side call head tail
    | .index tail =>
      ((side.header .capacity).load state.memory).bind fun capacity =>
        (slotOf tail capacity).map fun slot =>
          state.popAt call (.read tail slot call.order fun _ => 0)
    | .read tail slot (field :: rest) out =>
      ((side.record slot field).load state.memory).map fun value =>
        state.popAt call (.read tail slot rest (Function.update out field value))
    | .read tail _ [] out =>
      (side.storeCounter side.tailCell state.memory (tail + 1)).map fun memory =>
        { state with
          memory
          pop := none
          popped := state.popped ++ [out]
          pops := state.pops ++ [⟨true, call.pending⟩] }

end State

def step (producer consumer : Side) (state : State) : Action → Option State
  | .push record order => state.beginPush producer record order
  | .pushStep => state.pushStep producer
  | .pop order => state.beginPop consumer order
  | .popStep => state.popStep consumer

/-- Fewer than 2^64 events: a push begins only while the head can still grow. -/
def FewEvents (state : State) : Action → Prop
  | .push _ _ => state.pushed.length + 1 < 2 ^ 64
  | _ => True

instance decidableFewEvents (state : State) : (action : Action) → Decidable (FewEvents state action)
  | .push _ _ => inferInstanceAs (Decidable (_ < _))
  | .pushStep | .pop _ | .popStep => .isTrue trivial

def start (segment : Segment) : State := { memory := segment.image }

/-- How a segment for this many records comes about. -/
inductive Creation (mapper : Mapper) : Nat → Segment → Prop where
  | cpp {requested : UInt64} {created : Created} : createChannel mapper requested = some (some created) →
      Creation mapper created.capacity.toNat created.segment
  | python {capacity : Nat} {segment : Segment} :
      SharedTelemetryRing.create mapper capacity = some segment → Creation mapper capacity segment

end AnimusCore.Telemetry
