import AnimusCore.Lib.Ring
import AnimusCore.Lib.Transition
import AnimusCore.Lib.WordCopy

/-! `ShmRingMpmc` at the grain of its shared accesses: any number of threads, each
of which may call `try_push` and `try_pop` at any time. A step is one load, exchange,
sequence store or word of a payload copy of one thread, with the local computation up
to its next access. A thread that is never scheduled again has halted. -/

set_option autoImplicit false

namespace AnimusCore.Mpmc

open Lib Lib.Ring

section

variable (Thread Word : Type) (width : Nat)

structure Cell where
  sequence : Nat
  value : Words Word width

inductive Access where
  | idle
  | pushLoadPos (value : Words Word width)
  | pushLoadSeq (value : Words Word width) (pos : Nat)
  | pushExchange (value : Words Word width) (pos : Nat)
  | pushWrite (value : Words Word width) (pos : Nat) (todo : Finset (Fin width))
  | popLoadPos
  | popLoadSeq (pos : Nat)
  | popExchange (pos : Nat)
  | popRead (pos : Nat) (todo : Finset (Fin width)) (snapshot : Words Word width)

structure Entry where
  thread : Thread
  position : Nat
  value : Words Word width

inductive Outcome where
  | pushed (entry : Entry Thread Word width)
  | full (thread : Thread)
  | popped (entry : Entry Thread Word width)
  | empty (thread : Thread)

/-- The shared header and cells, and the threads. The last three fields record the
run: the successful exchanges of either position, and the calls that returned. -/
structure State where
  enqueuePos : Nat := 0
  dequeuePos : Nat := 0
  cells : Nat → Cell Word width
  threads : Thread → Access Word width := fun _ => .idle
  claims : List (Entry Thread Word width) := []
  takes : List (Thread × Nat) := []
  log : List (Outcome Thread Word width) := []

/-- `spurious` is an exchange that fails although the value is the expected one. -/
inductive Action where
  | tryPush (thread : Thread) (value : Words Word width)
  | tryPop (thread : Thread)
  | access (thread : Thread)
  | word (thread : Thread) (word : Fin width)
  | spurious (thread : Thread)

end

variable {Thread Word : Type} {width : Nat}

def Outcome.pushed? : Outcome Thread Word width → Option (Entry Thread Word width)
  | .pushed entry => some entry
  | _ => none

def Outcome.popped? : Outcome Thread Word width → Option (Entry Thread Word width)
  | .popped entry => some entry
  | _ => none

def Action.thread : Action Thread Word width → Thread
  | .tryPush thread _ | .tryPop thread | .access thread | .word thread _
  | .spurious thread => thread

namespace State

variable (capacity : Capacity)

section
variable (state : State Thread Word width)

/-- The calls of `try_push` that returned true: their records are published. -/
def pushes : List (Entry Thread Word width) :=
  state.log.filterMap Outcome.pushed?

/-- The calls of `try_pop` that returned true: their cells are retired. -/
def pops : List (Entry Thread Word width) :=
  state.log.filterMap Outcome.popped?

def cell (pos : Nat) : Cell Word width :=
  state.cells (capacity.slot pos)

def setSequence (pos sequence : Nat) : Nat → Cell Word width :=
  Function.update state.cells (capacity.slot pos) { state.cell capacity pos with sequence }

def writeWord (pos : Nat) (value : Words Word width) (word : Fin width) : Nat → Cell Word width :=
  Function.update state.cells (capacity.slot pos)
    { state.cell capacity pos with
      value := Function.update (state.cell capacity pos).value word (value word) }

end

def diff (seq pos : Nat) : Int := signed64 (sub64 seq pos)

variable [DecidableEq Thread]

section
variable (state : State Thread Word width)

def goTo (thread : Thread) (next : Access Word width) : State Thread Word width :=
  { state with threads := Function.update state.threads thread next }

def returns (thread : Thread) (outcome : Outcome Thread Word width) : State Thread Word width :=
  { state.goTo thread .idle with log := state.log ++ [outcome] }

def begin (thread : Thread) (first : Access Word width) : Option (State Thread Word width) :=
  match state.threads thread with
  | .idle => some (state.goTo thread first)
  | _ => none

def exchangeFails (thread : Thread) : Option (State Thread Word width) :=
  match state.threads thread with
  | .pushExchange value _ => some (state.goTo thread (.pushLoadSeq value state.enqueuePos))
  | .popExchange _ => some (state.goTo thread (.popLoadSeq state.dequeuePos))
  | _ => none

def copyWord (thread : Thread) (word : Fin width) : Option (State Thread Word width) :=
  match state.threads thread with
  | .pushWrite value pos todo =>
    if word ∈ todo then
      some { state.goTo thread (.pushWrite value pos (todo.erase word)) with
        cells := state.writeWord capacity pos value word }
    else none
  | .popRead pos todo snapshot =>
    if word ∈ todo then
      some (state.goTo thread (.popRead pos (todo.erase word)
        (Function.update snapshot word ((state.cell capacity pos).value word))))
    else none
  | _ => none

end

variable [Inhabited Word]

def access (state : State Thread Word width) (thread : Thread) : Option (State Thread Word width) :=
  match state.threads thread with
  | .idle => none
  | .pushLoadPos value => some (state.goTo thread (.pushLoadSeq value state.enqueuePos))
  | .pushLoadSeq value pos =>
    if diff (state.cell capacity pos).sequence pos = 0 then
      some (state.goTo thread (.pushExchange value pos))
    else if diff (state.cell capacity pos).sequence pos < 0 then
      some (state.returns thread (.full thread))
    else some (state.goTo thread (.pushLoadPos value))
  | .pushExchange value pos =>
    if state.enqueuePos = pos then
      some { state.goTo thread (.pushWrite value pos Finset.univ) with
        enqueuePos := succ64 pos
        claims := state.claims ++ [⟨thread, pos, value⟩] }
    else state.exchangeFails thread
  | .pushWrite value pos todo =>
    if todo = ∅ then
      some { state.returns thread (.pushed ⟨thread, pos, value⟩) with
        cells := state.setSequence capacity pos (succ64 pos) }
    else none
  | .popLoadPos => some (state.goTo thread (.popLoadSeq state.dequeuePos))
  | .popLoadSeq pos =>
    if diff (state.cell capacity pos).sequence (succ64 pos) = 0 then
      some (state.goTo thread (.popExchange pos))
    else if diff (state.cell capacity pos).sequence (succ64 pos) < 0 then
      some (state.returns thread (.empty thread))
    else some (state.goTo thread .popLoadPos)
  | .popExchange pos =>
    if state.dequeuePos = pos then
      some { state.goTo thread (.popRead pos Finset.univ default) with
        dequeuePos := succ64 pos
        takes := state.takes ++ [(thread, pos)] }
    else state.exchangeFails thread
  | .popRead pos todo snapshot =>
    if todo = ∅ then
      some { state.returns thread (.popped ⟨thread, pos, snapshot⟩) with
        cells := state.setSequence capacity pos ((pos + (capacity.size - 1) + 1) % wordSize) }
    else none

end State

def step [DecidableEq Thread] [Inhabited Word] (capacity : Capacity) (state : State Thread Word width) :
    Action Thread Word width → Option (State Thread Word width)
  | .tryPush thread value => state.begin thread (.pushLoadPos value)
  | .tryPop thread => state.begin thread .popLoadPos
  | .access thread => state.access capacity thread
  | .word thread word => state.copyWord capacity thread word
  | .spurious thread => state.exchangeFails thread

def initial (values : Nat → Words Word width) : State Thread Word width :=
  { cells := fun cell => ⟨cell, values cell⟩ }

/-- Every position that is stored, in a counter or a sequence word, is below the
limit. Publishing stores no larger position than claiming. -/
def bounded [DecidableEq Thread] (capacity : Capacity) (state : State Thread Word width) :
    Action Thread Word width → Bool
  | .access thread =>
    match state.threads thread with
    | .pushExchange _ pos => decide (pos + 1 < signedLimit)
    | .popRead pos _ _ => decide (pos + capacity.size < signedLimit)
    | _ => true
  | _ => true

def Bounded [DecidableEq Thread] (capacity : Capacity) (state : State Thread Word width)
    (action : Action Thread Word width) : Prop :=
  bounded capacity state action = true

end AnimusCore.Mpmc
