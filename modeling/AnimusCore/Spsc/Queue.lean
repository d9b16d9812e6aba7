import AnimusCore.Lib.Ring
import AnimusCore.Lib.Transition
import Mathlib.Logic.Function.Basic

/-! `SpscQueue` at the grain of its shared accesses. One call of the producer side
and one of the consumer side may be under way; each step performs one load, store
or slot copy and the local computation up to the next one. Any view may take over a
side once the call before it has returned, and a view may be attached at any time. -/

set_option autoImplicit false

namespace AnimusCore.Spsc

open Lib Lib.Ring

abbrev ViewId := Nat

/-- The process-local caches of a view; `attach` starts both at zero. -/
structure View where
  cachedTail : Nat := 0
  cachedHead : Nat := 0
deriving DecidableEq

inductive PushPoint where
  | loadHead
  | loadTail (head : Nat)
  | writeSlot (head : Nat)
  | storeHead (head : Nat)
deriving DecidableEq

inductive PopPoint (Value : Type) where
  | loadTail
  | loadHead (tail : Nat)
  | readSlot (tail : Nat)
  | storeTail (tail : Nat) (out : Value)
deriving DecidableEq

/-- A call of `push_batch`; `try_push` is the call with one order. -/
structure PushCall (Value : Type) where
  view : ViewId
  orders : List Value
  pushed : Nat
  point : PushPoint

/-- A call of `pop_batch`; `try_pop` is the call that asks for one order. -/
structure PopCall (Value : Type) where
  view : ViewId
  maxCount : Nat
  out : List Value
  point : PopPoint Value

structure PushReturn (Value : Type) where
  orders : List Value
  count : Nat

/-- The shared memory, the views and the calls under way. The last six fields
record the run: the orders stored and the orders returned, the results of the
single attempts, and what the calls returned. -/
structure State (Value : Type) where
  head : Nat := 0
  tail : Nat := 0
  slots : Nat → Value
  views : ViewId → View := fun _ => {}
  producer : Option (PushCall Value) := none
  consumer : Option (PopCall Value) := none
  pushed : List Value := []
  popped : List Value := []
  tryPushes : List Bool := []
  tryPops : List (Option Value) := []
  pushReturns : List (PushReturn Value) := []
  popReturns : List (List Value) := []

inductive Action (Value : Type) where
  | attach (view : ViewId)
  | push (view : ViewId) (orders : List Value)
  | pushStep
  | pop (view : ViewId) (maxCount : Nat)
  | popStep

namespace State

variable {Value : Type} (capacity : Capacity)

variable (state : State Value)

def busy (view : ViewId) : Bool :=
  (match state.producer with
    | some call => call.view == view
    | none => false) ||
  (match state.consumer with
    | some call => call.view == view
    | none => false)

/-- `attach`: a handle that is in use is another view. -/
def attach (view : ViewId) : Option (State Value) :=
  if state.busy view then none
  else some { state with views := Function.update state.views view {} }

def push (view : ViewId) (orders : List Value) : Option (State Value) :=
  match state.producer with
  | some _ => none
  | none =>
    if orders.isEmpty then
      some { state with pushReturns := state.pushReturns ++ [⟨orders, 0⟩] }
    else some { state with producer := some ⟨view, orders, 0, .loadHead⟩ }

/-- The attempt of a push call returned true: the next order, or the end. -/
def pushAccepted (call : PushCall Value) : State Value :=
  if call.pushed + 1 < call.orders.length then
    { state with producer := some { call with pushed := call.pushed + 1, point := .loadHead } }
  else
    { state with
      producer := none
      pushReturns := state.pushReturns ++ [⟨call.orders, call.pushed + 1⟩] }

def pushStep : Option (State Value) :=
  match state.producer with
  | none => none
  | some call =>
    match call.point with
    | .loadHead =>
      if sub64 state.head (state.views call.view).cachedTail ≥ capacity.size then
        some { state with producer := some { call with point := .loadTail state.head } }
      else some { state with producer := some { call with point := .writeSlot state.head } }
    | .loadTail head =>
      let state := { state with
        views := Function.update state.views call.view { state.views call.view with cachedTail := state.tail } }
      if sub64 head state.tail ≥ capacity.size then
        some { state with
          producer := none
          tryPushes := state.tryPushes ++ [false]
          pushReturns := state.pushReturns ++ [⟨call.orders, call.pushed⟩] }
      else some { state with producer := some { call with point := .writeSlot head } }
    | .writeSlot head =>
      match call.orders[call.pushed]? with
      | none => none
      | some order => some { state with
          slots := Function.update state.slots (capacity.slot head) order
          producer := some { call with point := .storeHead head } }
    | .storeHead head =>
      match call.orders[call.pushed]? with
      | none => none
      | some order => some (pushAccepted { state with
          head := succ64 head
          pushed := state.pushed ++ [order]
          tryPushes := state.tryPushes ++ [true] } call)

def pop (view : ViewId) (maxCount : Nat) : Option (State Value) :=
  match state.consumer with
  | some _ => none
  | none =>
    if maxCount = 0 then some { state with popReturns := state.popReturns ++ [[]] }
    else some { state with consumer := some ⟨view, maxCount, [], .loadTail⟩ }

def popAccepted (call : PopCall Value) (out : Value) : State Value :=
  if call.out.length + 1 < call.maxCount then
    { state with
      consumer := some { call with out := call.out ++ [out], point := .loadTail } }
  else
    { state with consumer := none, popReturns := state.popReturns ++ [call.out ++ [out]] }

def popStep : Option (State Value) :=
  match state.consumer with
  | none => none
  | some call =>
    match call.point with
    | .loadTail =>
      if state.tail = (state.views call.view).cachedHead then
        some { state with consumer := some { call with point := .loadHead state.tail } }
      else some { state with consumer := some { call with point := .readSlot state.tail } }
    | .loadHead tail =>
      let state := { state with
        views := Function.update state.views call.view { state.views call.view with cachedHead := state.head } }
      if tail = state.head then
        some { state with
          consumer := none
          tryPops := state.tryPops ++ [none]
          popReturns := state.popReturns ++ [call.out] }
      else some { state with consumer := some { call with point := .readSlot tail } }
    | .readSlot tail =>
      some { state with
        consumer := some { call with
          point := .storeTail tail (state.slots (capacity.slot tail)) } }
    | .storeTail tail out =>
      some (popAccepted { state with
        tail := succ64 tail
        popped := state.popped ++ [out]
        tryPops := state.tryPops ++ [some out] } call out)

end State

def step {Value : Type} (capacity : Capacity) (state : State Value) : Action Value → Option (State Value)
  | .attach view => state.attach view
  | .push view orders => state.push view orders
  | .pushStep => state.pushStep capacity
  | .pop view maxCount => state.pop view maxCount
  | .popStep => state.popStep capacity

def initial {Value : Type} (slots : Nat → Value) : State Value := { slots }

end AnimusCore.Spsc
