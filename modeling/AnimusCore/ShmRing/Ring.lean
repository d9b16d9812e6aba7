import AnimusCore.Lib.Transition
import AnimusCore.Lib.WordCopy
import AnimusCore.ShmRing.Seqlock
import Mathlib.Data.List.ReduceOption

/-! `ShmRing` at the grain of its shared accesses: one producer that calls
`try_push` and `push_overwrite`, one consumer that calls `try_pop`. Each step is one
load, store, exchange or word of a slot copy, with the local computation up to the
next one; the words of a copy move in any order. -/

set_option autoImplicit false

namespace AnimusCore.ShmRing

open Lib Lib.Ring

def kMaxReclaimAttempts : Nat := 4

def kMaxSeqlockAttempts : Nat := 64

section

variable (Word : Type) (width : Nat)

/-- The next access of the producer. The flag of the first two tells
`push_overwrite` from `try_push`. -/
inductive Producer where
  | idle
  | loadHead (overwrite : Bool) (value : Words Word width)
  | loadTail (overwrite : Bool) (value : Words Word width) (head : Nat)
  | writeFree (overwrite : Bool) (value : Words Word width) (head : Nat) (todo : Finset (Fin width))
  | loadSeq (value : Words Word width) (head tail : Nat)
  | setActive (value : Words Word width) (head tail : Nat)
  | announce (value : Words Word width) (head tail : Nat)
  | reclaim (value : Words Word width) (head tail tries : Nat)
  | countDrop (value : Words Word width) (head : Nat)
  | writeSlot (value : Words Word width) (head : Nat) (todo : Finset (Fin width))
  | storeHead (value : Words Word width) (head : Nat)

/-- The next access of the consumer: the cheap route up to its recheck of the tail,
then the route of `try_pop_seqlock`. -/
inductive Consumer where
  | idle
  | loadTail
  | loadHead (tail : Nat)
  | loadActive (tail head : Nat)
  | cheapCopy (tail : Nat) (todo : Finset (Fin width)) (snapshot : Words Word width)
  | reloadTail
  | seqHead (tail attempt : Nat)
  | seqCopy (tail attempt : Nat) (todo : Finset (Fin width)) (snapshot : Words Word width)
  | storeTail (tail : Nat) (snapshot : Words Word width)

/-- The shared header and slots, and both sides. The last three fields record the
run: the records by position, what each `try_push` returned, and the position and
record each `try_pop` returned. -/
structure State where
  head : Nat := 0
  tail : Nat := 0
  writeSeq : Nat := 0
  overwriteActive : Bool := false
  droppedCount : Nat := 0
  slots : Nat → Words Word width
  producer : Producer Word width := .idle
  consumer : Consumer Word width := .idle
  pushed : List (Words Word width) := []
  pushResults : List Bool := []
  results : List (Option (Nat × Words Word width)) := []

inductive Action where
  | tryPush (value : Words Word width)
  | pushOverwrite (value : Words Word width)
  | produce
  | produceWord (word : Fin width)
  | tryPop
  | consume
  | consumeWord (word : Fin width)

end

namespace State

variable {Word : Type} {width : Nat} (capacity : Capacity)

section
variable (state : State Word width)

def returned : List (Nat × Words Word width) :=
  state.results.reduceOption

/-- The position after the last one returned. -/
def next : Nat :=
  match state.returned.getLast? with
  | none => 0
  | some (position, _) => position + 1

def beginPush (overwrite : Bool) (value : Words Word width) : Option (State Word width) :=
  match state.producer with
  | .idle => some { state with producer := .loadHead overwrite value }
  | _ => none

def writeWord (position : Nat) (value : Words Word width) (word : Fin width) : Nat → Words Word width :=
  Function.update state.slots (capacity.slot position)
    (Function.update (state.slots (capacity.slot position)) word (value word))

def produceWord (word : Fin width) : Option (State Word width) :=
  match state.producer with
  | .writeFree overwrite value head todo =>
    if word ∈ todo then
      some { state with
        slots := state.writeWord capacity head value word
        producer := .writeFree overwrite value head (todo.erase word) }
    else none
  | .writeSlot value head todo =>
    if word ∈ todo then
      some { state with
        slots := state.writeWord capacity head value word
        producer := .writeSlot value head (todo.erase word) }
    else none
  | _ => none

end

/-- The oldest position once the record at `head` is written. -/
def reclaimFloor (head : Nat) : Nat := succ64 (sub64 head capacity.size)

section
variable (state : State Word width)

/-- The condition of the reclaim loop: exchange again, or write the slot. -/
def reclaimOrWrite (value : Words Word width) (head tail tries : Nat) : State Word width :=
  if tail < reclaimFloor capacity head ∧ tries < kMaxReclaimAttempts then
    { state with producer := .reclaim value head tail tries }
  else { state with producer := .writeSlot value head Finset.univ }

def produce : Option (State Word width) :=
  match state.producer with
  | .idle => none
  | .loadHead overwrite value =>
    some { state with producer := .loadTail overwrite value state.head }
  | .loadTail overwrite value head =>
    if sub64 head state.tail ≥ capacity.size then
      if overwrite then some { state with producer := .loadSeq value head state.tail }
      else some { state with
        producer := .idle, pushResults := state.pushResults ++ [false] }
    else some { state with producer := .writeFree overwrite value head Finset.univ }
  | .writeFree overwrite value head todo =>
    if todo = ∅ then
      some { state with
        head := succ64 head
        pushed := state.pushed ++ [value]
        pushResults :=
          if overwrite then state.pushResults else state.pushResults ++ [true]
        producer := .idle }
    else none
  | .loadSeq value head tail =>
    if state.writeSeq = 0 then some { state with producer := .setActive value head tail }
    else some { state with producer := .announce value head tail }
  | .setActive value head tail =>
    some { state with overwriteActive := true, producer := .announce value head tail }
  | .announce value head tail =>
    some (reclaimOrWrite capacity { state with writeSeq := beginValue head } value head tail 0)
  | .reclaim value head tail tries =>
    if state.tail = tail then
      some { state with
        tail := reclaimFloor capacity head
        producer := .countDrop value head }
    else some (state.reclaimOrWrite capacity value head state.tail (tries + 1))
  | .countDrop value head =>
    some { state with
      droppedCount := succ64 state.droppedCount
      producer := .writeSlot value head Finset.univ }
  | .writeSlot value head todo =>
    if todo = ∅ then
      some { state with writeSeq := endValue head, producer := .storeHead value head }
    else none
  | .storeHead value head =>
    some { state with
      head := succ64 head
      pushed := state.pushed ++ [value]
      producer := .idle }

def beginPop : Option (State Word width) :=
  match state.consumer with
  | .idle => some { state with consumer := .loadTail }
  | _ => none

def consumeWord (word : Fin width) : Option (State Word width) :=
  match state.consumer with
  | .cheapCopy tail todo snapshot =>
    if word ∈ todo then
      some { state with
        consumer := .cheapCopy tail (todo.erase word)
          (Function.update snapshot word (state.slots (capacity.slot tail) word)) }
    else none
  | .seqCopy tail attempt todo snapshot =>
    if word ∈ todo then
      some { state with
        consumer := .seqCopy tail attempt (todo.erase word)
          (Function.update snapshot word (state.slots (capacity.slot tail) word)) }
    else none
  | _ => none

def popReturns (result : Option (Nat × Words Word width)) : State Word width :=
  { state with consumer := .idle, results := state.results ++ [result] }

end

variable [Inhabited Word]

def consume (state : State Word width) : Option (State Word width) :=
  match state.consumer with
  | .idle => none
  | .loadTail => some { state with consumer := .loadHead state.tail }
  | .loadHead tail => some { state with consumer := .loadActive tail state.head }
  | .loadActive tail head =>
    if state.overwriteActive = false then
      if tail = head then some (state.popReturns none)
      else some { state with consumer := .cheapCopy tail Finset.univ default }
    else some { state with consumer := .reloadTail }
  | .cheapCopy tail todo snapshot =>
    if todo = ∅ then
      if state.tail = tail then some { state with consumer := .storeTail tail snapshot }
      else some { state with consumer := .reloadTail }
    else none
  | .reloadTail => some { state with consumer := .seqHead state.tail 0 }
  | .seqHead tail attempt =>
    let tail := if sub64 state.head tail > capacity.size then
      sub64 state.head capacity.size else tail
    if tail = state.head then some (state.popReturns none)
    else some { state with consumer := .seqCopy tail attempt Finset.univ default }
  | .seqCopy tail attempt todo snapshot =>
    if todo = ∅ then
      if lapped state.writeSeq tail capacity.size then
        if attempt + 1 < kMaxSeqlockAttempts then
          some { state with consumer := .seqHead (succ64 tail) (attempt + 1) }
        else some (state.popReturns none)
      else some { state with consumer := .storeTail tail snapshot }
    else none
  | .storeTail tail snapshot =>
    some ({ state with tail := succ64 tail }.popReturns (some (tail, snapshot)))

end State

def step {Word : Type} {width : Nat} [Inhabited Word] (capacity : Capacity)
    (state : State Word width) : Action Word width → Option (State Word width)
  | .tryPush value => state.beginPush false value
  | .pushOverwrite value => state.beginPush true value
  | .produce => state.produce capacity
  | .produceWord word => state.produceWord capacity word
  | .tryPop => state.beginPop
  | .consume => state.consume capacity
  | .consumeWord word => state.consumeWord capacity word

def initial {Word : Type} {width : Nat} (slots : Nat → Words Word width) : State Word width :=
  { slots }

end AnimusCore.ShmRing
