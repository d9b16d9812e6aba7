import AnimusCore.Lib.Broadcast
import AnimusCore.Lib.Transition
import AnimusCore.ShmRing.Seqlock

/-! `SpmcRing` at the grain of its shared accesses: one producer that calls
`broadcast`, any number of consumer instances that call `poll`. Each step is one load,
store or word of a slot copy, with the local computation up to the next one. A
consumer instance that has not polled yet may as well be opened later. -/

set_option autoImplicit false

namespace AnimusCore.Spmc

open Lib Lib.Ring ShmRing

section

variable (Reader Word : Type) (width : Nat)

inductive Producer where
  | idle
  | announce (value : Words Word width)
  | writeSlot (value : Words Word width) (todo : Finset (Fin width))
  | storeHead (value : Words Word width)

/-- A consumer instance; a waiting call is about to load the head. The last two fields
record the run: the overrun count when the last call began, and what each call returned,
with the index of every record. -/
structure Consumer where
  localTail : Nat := 0
  overrunCount : Nat := 0
  lastPollOverran : Bool := false
  call : PollCall Word width := .idle
  countAtCall : Nat := 0
  results : List (List (Words Word width × Nat)) := []

/-- The shared header and slots, the producer with its own write position, and the
consumers. `broadcasts` records the broadcasts that have returned, by index. -/
structure State where
  head : Nat := 0
  writeSeq : Nat := 0
  slots : Nat → Words Word width
  producerHead : Nat := 0
  producer : Producer Word width := .idle
  consumers : Reader → Consumer Word width := fun _ => {}
  broadcasts : List (Words Word width) := []

inductive Action where
  | broadcast (value : Words Word width)
  | produce
  | produceWord (word : Fin width)
  | poll (reader : Reader) (maxCount : Nat)
  | consume (reader : Reader)
  | consumeWord (reader : Reader) (word : Fin width)

end

variable {Reader Word : Type} {width : Nat} (capacity : Capacity)

namespace Consumer

section
variable (consumer : Consumer Word width)

def returned : List (Words Word width × Nat) :=
  consumer.results.flatten

def returns (records : List (Words Word width × Nat)) : Consumer Word width :=
  { consumer with call := .idle, results := consumer.results ++ [records] }

/-- The tail after the overrun check of `poll`, against the head it loaded. -/
def clamp (head : Nat) : Consumer Word width :=
  if sub64 head consumer.localTail > capacity.size then
    { consumer with
      overrunCount := add64 consumer.overrunCount (sub64 (sub64 head capacity.size) consumer.localTail)
      localTail := sub64 head capacity.size
      lastPollOverran := true }
  else { consumer with lastPollOverran := false }

end

variable [Inhabited Word]

/-- From the load of the head to the first slot copy. -/
def loadHead (consumer : Consumer Word width) (head maxCount : Nat) : Consumer Word width :=
  let consumer := consumer.clamp capacity head
  let available := sub64 head consumer.localTail
  let n := if available < maxCount then available else maxCount
  if n = 0 then consumer.returns []
  else { consumer with call := .copying (Batch.start consumer.localTail n) }

/-- From the load of the sequence counter to the return. -/
def validate (consumer : Consumer Word width) (batch : Batch Word width) (writeSeq : Nat) : Consumer Word width :=
  let lapped := batch.spoiled (oldestIntact writeSeq capacity.size)
  let consumer := { consumer with localTail := add64 batch.first batch.count }
  if lapped > 0 then
    { consumer with
      overrunCount := add64 consumer.overrunCount lapped
      lastPollOverran := true }.returns (batch.kept lapped)
  else consumer.returns (batch.kept 0)

end Consumer

namespace State

section
variable (state : State Reader Word width)

def broadcast (value : Words Word width) : Option (State Reader Word width) :=
  match state.producer with
  | .idle => some { state with producer := .announce value }
  | _ => none

def produce : Option (State Reader Word width) :=
  match state.producer with
  | .idle => none
  | .announce value =>
    some { state with
      writeSeq := beginValue state.producerHead
      producer := .writeSlot value Finset.univ }
  | .writeSlot value todo =>
    if todo = ∅ then
      some { state with
        writeSeq := endValue state.producerHead
        producer := .storeHead value }
    else none
  | .storeHead value =>
    some { state with
      head := succ64 state.producerHead
      producerHead := succ64 state.producerHead
      producer := .idle
      broadcasts := state.broadcasts ++ [value] }

def produceWord (word : Fin width) : Option (State Reader Word width) :=
  match state.producer with
  | .writeSlot value todo =>
    if word ∈ todo then
      some { state with
        slots := Function.update state.slots (capacity.slot state.producerHead)
          (Function.update (state.slots (capacity.slot state.producerHead)) word (value word))
        producer := .writeSlot value (todo.erase word) }
    else none
  | _ => none

end

variable [DecidableEq Reader]

variable (state : State Reader Word width)

def setConsumer (reader : Reader) (consumer : Consumer Word width) : State Reader Word width :=
  { state with consumers := Function.update state.consumers reader consumer }

def poll (reader : Reader) (maxCount : Nat) : Option (State Reader Word width) :=
  let consumer := state.consumers reader
  match consumer.call with
  | .idle => some (state.setConsumer reader
      { consumer with call := .waiting maxCount, countAtCall := consumer.overrunCount })
  | _ => none

def consume [Inhabited Word] (state : State Reader Word width) (reader : Reader) : Option (State Reader Word width) :=
  let consumer := state.consumers reader
  match consumer.call with
  | .idle => none
  | .waiting maxCount =>
    some (state.setConsumer reader (consumer.loadHead capacity state.head maxCount))
  | .copying batch =>
    if batch.todo = ∅ then
      if batch.copies.length + 1 < batch.count then
        some (state.setConsumer reader { consumer with call := .copying batch.next })
      else some (state.setConsumer reader (consumer.validate capacity batch state.writeSeq))
    else none

def consumeWord (reader : Reader) (word : Fin width) : Option (State Reader Word width) :=
  let consumer := state.consumers reader
  match consumer.call with
  | .copying batch =>
    if word ∈ batch.todo then
      some (state.setConsumer reader { consumer with call := .copying (batch.copyWord capacity state.slots word) })
    else none
  | _ => none

end State

def step [DecidableEq Reader] [Inhabited Word] (state : State Reader Word width) :
    Action Reader Word width → Option (State Reader Word width)
  | .broadcast value => state.broadcast value
  | .produce => state.produce
  | .produceWord word => state.produceWord capacity word
  | .poll reader maxCount => state.poll reader maxCount
  | .consume reader => state.consume capacity reader
  | .consumeWord reader word => state.consumeWord capacity reader word

def initial (slots : Nat → Words Word width) : State Reader Word width := { slots }

end AnimusCore.Spmc
