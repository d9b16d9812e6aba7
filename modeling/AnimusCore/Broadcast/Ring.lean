import AnimusCore.Lib.Broadcast
import AnimusCore.Lib.Transition

/-! `BroadcastRing` at the grain of its shared accesses: one writer that calls
`publish`, any number of reader views that call `poll`. The cursor is the only atomic;
nothing shared tells that a write has started. Each step is one access of the cursor or
one byte of a slot copy, with the local computation up to the next one. -/

set_option autoImplicit false

namespace AnimusCore.Broadcast

open Lib Lib.Ring

section

variable (Reader Byte : Type) (width : Nat)

inductive Writer where
  | idle
  | loadCursor (value : Words Byte width)
  | writeSlot (value : Words Byte width) (w : Nat) (todo : Finset (Fin width))

/-- A reader view; a waiting call is about to load the cursor. `results` records what each
call returned, with the index of every record. -/
structure View where
  read : Nat := 0
  dropped : Nat := 0
  call : PollCall Byte width := .idle
  results : List (List (Words Byte width × Nat)) := []

/-- The shared cursor and slots, the writer and the views. `published` records the
published records by index. -/
structure State where
  cursor : Nat := 0
  slots : Nat → Words Byte width
  writer : Writer Byte width := .idle
  views : Reader → View Byte width := fun _ => {}
  published : List (Words Byte width) := []

inductive Action where
  | publish (value : Words Byte width)
  | write
  | writeByte (byte : Fin width)
  | poll (reader : Reader) (maxCount : Nat)
  | read (reader : Reader)
  | readByte (reader : Reader) (byte : Fin width)

end

variable {Reader Byte : Type} {width : Nat} (capacity : Capacity)

namespace View

section
variable (view : View Byte width)

def returned : List (Words Byte width × Nat) := view.results.flatten

def returns (records : List (Words Byte width × Nat)) : View Byte width :=
  { view with call := .idle, results := view.results ++ [records] }

/-- The view after the window check of `poll`, against the cursor it loaded. -/
def snap (c : Nat) : View Byte width :=
  if sub64 c view.read > capacity.size - 1 then
    { view with
      dropped := add64 view.dropped (sub64 (sub64 c (capacity.size - 1)) view.read)
      read := sub64 c (capacity.size - 1) }
  else view

/-- From the first load of the cursor to the first slot copy. -/
def loadCursor [Inhabited Byte] (view : View Byte width) (c maxCount : Nat) : View Byte width :=
  let view := view.snap capacity c
  let avail := sub64 c view.read
  let n := if avail < maxCount then avail else maxCount
  if n = 0 then view.returns []
  else { view with call := .copying (Batch.start view.read n) }

end

def oldestIntact (c2 : Nat) : Nat := if c2 ≥ capacity.size then c2 - capacity.size + 1 else 0

/-- From the second load of the cursor to the return. -/
def validate (view : View Byte width) (batch : Batch Byte width) (c2 : Nat) : View Byte width :=
  let lost := batch.spoiled (oldestIntact capacity c2)
  let view := { view with read := add64 batch.first batch.count }
  if lost > 0 then
    { view with dropped := add64 view.dropped lost }.returns (batch.kept lost)
  else view.returns (batch.kept 0)

end View

namespace State

section
variable (state : State Reader Byte width)

def publish (value : Words Byte width) : Option (State Reader Byte width) :=
  match state.writer with
  | .idle => some { state with writer := .loadCursor value }
  | _ => none

def write : Option (State Reader Byte width) :=
  match state.writer with
  | .idle => none
  | .loadCursor value =>
    some { state with writer := .writeSlot value state.cursor Finset.univ }
  | .writeSlot value w todo =>
    if todo = ∅ then
      some { state with
        cursor := succ64 w
        writer := .idle
        published := state.published ++ [value] }
    else none

def writeByte (byte : Fin width) : Option (State Reader Byte width) :=
  match state.writer with
  | .writeSlot value w todo =>
    if byte ∈ todo then
      some { state with
        slots := Function.update state.slots (capacity.slot w)
          (Function.update (state.slots (capacity.slot w)) byte (value byte))
        writer := .writeSlot value w (todo.erase byte) }
    else none
  | _ => none

end

variable [DecidableEq Reader]

variable (state : State Reader Byte width)

def setView (reader : Reader) (view : View Byte width) : State Reader Byte width :=
  { state with views := Function.update state.views reader view }

def poll (reader : Reader) (maxCount : Nat) : Option (State Reader Byte width) :=
  let view := state.views reader
  match view.call with
  | .idle => some (state.setView reader { view with call := .waiting maxCount })
  | _ => none

def read [Inhabited Byte] (state : State Reader Byte width) (reader : Reader) : Option (State Reader Byte width) :=
  let view := state.views reader
  match view.call with
  | .idle => none
  | .waiting maxCount =>
    some (state.setView reader (view.loadCursor capacity state.cursor maxCount))
  | .copying batch =>
    if batch.todo = ∅ then
      if batch.copies.length + 1 < batch.count then
        some (state.setView reader { view with call := .copying batch.next })
      else some (state.setView reader (view.validate capacity batch state.cursor))
    else none

def readByte (reader : Reader) (byte : Fin width) : Option (State Reader Byte width) :=
  let view := state.views reader
  match view.call with
  | .copying batch =>
    if byte ∈ batch.todo then
      some (state.setView reader { view with call := .copying (batch.copyWord capacity state.slots byte) })
    else none
  | _ => none

end State

def step [DecidableEq Reader] [Inhabited Byte] (state : State Reader Byte width) :
    Action Reader Byte width → Option (State Reader Byte width)
  | .publish value => state.publish value
  | .write => state.write
  | .writeByte byte => state.writeByte capacity byte
  | .poll reader maxCount => state.poll reader maxCount
  | .read reader => state.read capacity reader
  | .readByte reader byte => state.readByte capacity reader byte

def initial (slots : Nat → Words Byte width) : State Reader Byte width := { slots }

/-- A publish may begin while the cursor after it is a word. -/
def bounded (state : State Reader Byte width) : Action Reader Byte width → Bool
  | .publish _ => decide (state.cursor + 1 < wordSize)
  | _ => true

def Bounded (state : State Reader Byte width) (action : Action Reader Byte width) : Prop :=
  bounded state action = true

end AnimusCore.Broadcast
