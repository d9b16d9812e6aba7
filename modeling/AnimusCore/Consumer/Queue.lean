import AnimusCore.Lib.SlotQueue
import AnimusCore.Lib.StructFormat
import AnimusCore.SharedMemory.Attaching

/-! A C++ `SpscQueue<ExecutionEvent>` producer and the Python `SpscQueueConsumer` objects that
read its queue one after another. A step is one access to shared memory with the local
computation up to the next one; both sides compute the places of their accesses themselves. -/

set_option autoImplicit false

namespace AnimusCore.Consumer

open Lib Lib.Ring Lib.StructFormat SharedMemory

inductive EventField where
  | sequence
  | dispatchTsRaw
  | priceTicks
  | quantity
  | instrumentId
  | flags
deriving DecidableEq

def EventField.all : List EventField :=
  [.sequence, .dispatchTsRaw, .priceTicks, .quantity, .instrumentId, .flags]

structure ExecutionEvent where
  sequence : UInt64
  dispatchTsRaw : UInt64
  priceTicks : Int64
  quantity : Int64
  instrumentId : UInt32
  flags : UInt32

namespace ExecutionEvent

/-- The member as its bytes in memory make a number. -/
def raw (event : ExecutionEvent) : EventField → Nat
  | .sequence => event.sequence.toNat
  | .dispatchTsRaw => event.dispatchTsRaw.toNat
  | .priceTicks => event.priceTicks.toUInt64.toNat
  | .quantity => event.quantity.toUInt64.toNat
  | .instrumentId => event.instrumentId.toNat
  | .flags => event.flags.toNat

def value (event : ExecutionEvent) : EventField → Value
  | .sequence => .int event.sequence.toNat
  | .dispatchTsRaw => .int event.dispatchTsRaw.toNat
  | .priceTicks => .int event.priceTicks.toInt
  | .quantity => .int event.quantity.toInt
  | .instrumentId => .int event.instrumentId.toNat
  | .flags => .int event.flags.toNat

def member : EventField → Nat × Nat
  | .sequence => (0, 8)
  | .dispatchTsRaw => (8, 8)
  | .priceTicks => (16, 8)
  | .quantity => (24, 8)
  | .instrumentId => (32, 4)
  | .flags => (36, 4)

end ExecutionEvent

/-- `ExecutionEvent` as the queue knows it; only the size matters to `SpscQueue`. -/
def executionEvent : RecordType where
  size := 40
  size_pos := by decide
  versionHash := 0
  wireFormat := []

namespace SpscQueue

def headOffset : Nat := CacheLine.line64.bytes.toNat

def tailOffset : Nat := 2 * CacheLine.line64.bytes.toNat

def capacityOffset : Nat := 8

def maskOffset : Nat := 16

def slotOffset (slot : Nat) (field : EventField) : Nat :=
  (spscQueueHeaderSize .line64).toNat + slot * executionEvent.size.toNat + (ExecutionEvent.member field).1

end SpscQueue

/-- `_RECORD_FORMAT` is `<QQqqII`. -/
def recordFormat : RecordLayout := .ofPair (standardFrom .little 0 [.Q, .Q, .q, .q, .I, .I])

theorem layout_record (platform : Platform) :
    layout platform ['<', 'Q', 'Q', 'q', 'q', 'I', 'I'] = some recordFormat := rfl

def recordItem : EventField → Item
  | .sequence => recordFormat.items.get ⟨0, by decide⟩
  | .dispatchTsRaw => recordFormat.items.get ⟨1, by decide⟩
  | .priceTicks => recordFormat.items.get ⟨2, by decide⟩
  | .quantity => recordFormat.items.get ⟨3, by decide⟩
  | .instrumentId => recordFormat.items.get ⟨4, by decide⟩
  | .flags => recordFormat.items.get ⟨5, by decide⟩

def cacheLine : Nat := 64

def headOff : Nat := cacheLine

def tailOff : Nat := 2 * cacheLine

def headerSize : Nat := 3 * cacheLine

def unpackItem (memory : Memory) (slot : Nat) (item : Item) : Option Value :=
  (memory.read (headerSize + slot * recordFormat.size + item.offset) item.width).map { item with offset := 0 }.decode

/-- `_mask`, `_tail` and `_cached_head` of an object. -/
structure Handle where
  mask : Nat
  tail : Nat
  cachedHead : Nat

inductive PopPoint where
  | loadHead
  | read (todo : List EventField) (out : EventField → Value)

inductive Reader where
  | absent
  | attaching (loads : Loads SpscQueueConsumer)
  | ready (handle : Handle)
  | popping (handle : Handle) (point : PopPoint)

/-- The constructor after another load; an exception leaves no object. -/
def Reader.constructing : Loads SpscQueueConsumer → Reader
  | .done (some consumer) =>
    .ready ⟨consumer.mask.toNat, consumer.tail.toNat, consumer.tail.toNat⟩
  | .done none => .absent
  | loads => .attaching loads

/-- `compare` and `recheck` load `capacity`, `index` loads `mask`; a `write` with nothing left to
write stores the head. -/
inductive PushPoint where
  | loadHead
  | compare (head : Nat)
  | loadTail (head : Nat)
  | recheck (head : Nat)
  | index (head : Nat)
  | write (head slot : Nat) (todo : List EventField)

/-- A call of `try_push`; the struct is copied member by member in the given order. -/
structure PushCall where
  event : ExecutionEvent
  order : List EventField
  point : PushPoint

/-- The segment, the producer's view with its call and the current consumer. The last two
fields record the run: the events pushed, and what all consumers together returned. -/
structure State where
  memory : Memory
  cachedTail : Nat := 0
  push : Option PushCall := none
  reader : Reader := .absent
  pushed : List ExecutionEvent := []
  returned : List (EventField → Value) := []

inductive Action where
  | tryPush (event : ExecutionEvent) (order : List EventField)
  | pushStep
  | attach
  | attachStep
  | stop
  | tryPop
  | popStep

namespace State

def pushAt (state : State) (call : PushCall) (point : PushPoint) : State :=
  { state with push := some { call with point } }

def tryPush (state : State) (event : ExecutionEvent) (order : List EventField) : Option State :=
  match state.push with
  | some _ => none
  | none =>
    if order.isPerm EventField.all then
      some { state with push := some ⟨event, order, .loadHead⟩ }
    else none

def pushStep (state : State) : Option State :=
  match state.push with
  | none => none
  | some call =>
    match call.point with
    | .loadHead =>
      (state.memory.readLE SpscQueue.headOffset 8).map fun head =>
        state.pushAt call (.compare head)
    | .compare head =>
      (state.memory.readLE SpscQueue.capacityOffset 8).map fun capacity =>
        if sub64 head state.cachedTail ≥ capacity then state.pushAt call (.loadTail head)
        else state.pushAt call (.index head)
    | .loadTail head =>
      (state.memory.readLE SpscQueue.tailOffset 8).map fun tail =>
        { state with cachedTail := tail }.pushAt call (.recheck head)
    | .recheck head =>
      (state.memory.readLE SpscQueue.capacityOffset 8).map fun capacity =>
        if sub64 head state.cachedTail ≥ capacity then { state with push := none }
        else state.pushAt call (.index head)
    | .index head =>
      (state.memory.readLE SpscQueue.maskOffset 8).map fun mask =>
        state.pushAt call (.write head (head &&& mask) call.order)
    | .write head slot (field :: rest) =>
      (state.memory.store? ⟨SpscQueue.slotOffset slot field,
        toLE (ExecutionEvent.member field).2 (call.event.raw field)⟩).map fun memory =>
          { state with memory }.pushAt call (.write head slot rest)
    | .write head _ [] =>
      (state.memory.store? ⟨SpscQueue.headOffset, toLE 8 (head + 1)⟩).map fun memory =>
        { state with memory, push := none, pushed := state.pushed ++ [call.event] }

/-- The constructor begins, for a buffer of this length. -/
def attach (length : Nat) (state : State) : Option State :=
  match state.reader with
  | .absent => some { state with reader := .constructing (SpscQueueConsumer.loads length) }
  | _ => none

variable (state : State)

def attachStep : Option State :=
  match state.reader with
  | .attaching (.load offset next) =>
    (state.memory.word offset).map fun word =>
      { state with reader := .constructing (next word) }
  | _ => none

/-- Between its calls a consumer may stop for good. -/
def stop : Option State :=
  match state.reader with
  | .ready _ => some { state with reader := .absent }
  | _ => none

/-- The record is read at the handle's own tail. -/
def beginRead (handle : Handle) : State :=
  { state with reader := .popping handle (.read EventField.all fun _ => .int 0) }

def tryPop : Option State :=
  match state.reader with
  | .ready handle =>
    if handle.tail = handle.cachedHead then
      some { state with reader := .popping handle .loadHead }
    else some (state.beginRead handle)
  | _ => none

def popStep : Option State :=
  match state.reader with
  | .popping handle .loadHead =>
    (state.memory.readLE headOff 8).map fun head =>
      if handle.tail = head then
        { state with reader := .ready { handle with cachedHead := head } }
      else state.beginRead { handle with cachedHead := head }
  | .popping handle (.read (field :: rest) out) =>
    (unpackItem state.memory (handle.tail &&& handle.mask) (recordItem field)).map fun value =>
      { state with reader := .popping handle (.read rest (Function.update out field value)) }
  | .popping handle (.read [] out) =>
    -- `pack_into` raises an exception for a number of more than 64 bits
    if handle.tail + 1 < 2 ^ 64 then
      (state.memory.store? ⟨tailOff, toLE 8 (handle.tail + 1)⟩).map fun memory =>
        { state with
          memory
          reader := .ready { handle with tail := handle.tail + 1 }
          returned := state.returned ++ [out] }
    else none
  | _ => none

end State

def step (length : Nat) (state : State) : Action → Option State
  | .tryPush event order => state.tryPush event order
  | .pushStep => state.pushStep
  | .attach => state.attach length
  | .attachStep => state.attachStep
  | .stop => state.stop
  | .tryPop => state.tryPop
  | .popStep => state.popStep

/-- Fewer than 2^64 events: the producer goes on only while the head can still grow. -/
def FewEvents (state : State) : Action → Prop
  | .pushStep => state.pushed.length + 1 < 2 ^ 64
  | _ => True

def start (segment : Segment) : State := { memory := segment.image }

end AnimusCore.Consumer
