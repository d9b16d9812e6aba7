import AnimusCore.Lib.Ring
import AnimusCore.Lib.Transition
import Mathlib.Logic.Function.Basic

/-! `LockFreeRingBuffer` at the grain of its shared accesses. A step is one load,
exchange, cell copy or sequence store of one thread, with the local computation up to
its next access. The capacity is any value the constructor can arrive at, one
included. -/

set_option autoImplicit false

namespace AnimusCore.RingBuffer

open Lib Lib.Ring

/-- The rest of the loop of `round_up_pow2`; `none` is a loop that does not end. -/
def roundUpFrom (v : Nat) : Nat → Nat → Option Nat
  | 0, _ => none
  | fuel + 1, p => if p < v then roundUpFrom v fuel (p * 2 % wordSize) else some p

/-- After 64 shifts the word is zero and stays zero, so more fuel changes nothing. -/
def roundUpPow2 (v : Nat) : Option Nat := roundUpFrom v 65 1

section
variable {v capacity : Nat}

private theorem roundUpFrom_zero (positive : 0 < v) (fuel : Nat) : roundUpFrom v fuel 0 = none := by
  induction fuel with
  | zero => rfl
  | succ fuel ih => rw [roundUpFrom, if_pos positive, Nat.zero_mul, Nat.zero_mod, ih]

theorem two_pow_mul_two_mod {exponent : Nat} (small : exponent < 63) :
    2 ^ exponent * 2 % wordSize = 2 ^ (exponent + 1) := by
  rw [← Nat.pow_succ]
  exact Nat.mod_eq_of_lt (Nat.pow_lt_pow_right (by decide) (by omega))

theorem roundUpFrom_two_pow {exponent fuel : Nat} (small : exponent ≤ 63)
    (found : roundUpFrom v fuel (2 ^ exponent) = some capacity) :
    v ≤ capacity ∧ ∃ result ≤ 63, capacity = 2 ^ result := by
  induction fuel generalizing exponent with
  | zero => cases found
  | succ fuel ih =>
    rw [roundUpFrom] at found
    split at found
    case isTrue less =>
      rcases Nat.lt_or_eq_of_le small with more | rfl
      · rw [two_pow_mul_two_mod more] at found
        exact ih more found
      · have wrapped : 2 ^ 63 * 2 % wordSize = 0 := by decide
        rw [wrapped, roundUpFrom_zero (by omega)] at found
        cases found
    case isFalse reached =>
      cases found
      exact ⟨by omega, exponent, small, rfl⟩

theorem roundUpFrom_isSome {exponent fuel : Nat} (fits : v ≤ 2 ^ 63) (enough : 64 ≤ exponent + fuel)
    (small : exponent ≤ 63) : (roundUpFrom v fuel (2 ^ exponent)).isSome = true := by
  induction fuel generalizing exponent with
  | zero => omega
  | succ fuel ih =>
    rw [roundUpFrom]
    split
    case isTrue less =>
      have more : exponent < 63 := by
        by_contra last
        have here : exponent = 63 := by omega
        rw [here] at less
        omega
      rw [two_pow_mul_two_mod more]
      exact ih (by omega) more
    case isFalse => rfl

end

structure Counting where
  add : Nat → Nat → Nat
  diff : Nat → Nat → Int

/-- The words of the source: unsigned sums wrap, and the signed difference of two
words is read in two's complement. Where it overflows the source is undefined, and
`sourceStep` has no step. -/
def machine : Counting where
  add := add64
  diff seq pos := signed64 (sub64 seq pos)

def exact : Counting where
  add := (· + ·)
  diff seq pos := (seq : Int) - (pos : Int)

section

variable (Thread T : Type)

structure Cell where
  sequence : Nat
  data : T

inductive Outcome where
  | pushed (value : T)
  | full (value : T)
  | popped (out : T)
  | empty
  deriving DecidableEq

inductive Access where
  | idle
  | pushLoadPos (value : T)
  | pushLoadSeq (value : T) (pos : Nat)
  | pushExchange (value : T) (pos : Nat)
  | pushWrite (value : T) (pos : Nat)
  | pushPublish (value : T) (pos : Nat)
  | popLoadPos
  | popLoadSeq (pos : Nat)
  | popExchange (pos : Nat)
  | popRead (pos : Nat)
  | popRetire (pos : Nat) (out : T)
  | returned (outcome : Outcome T)

/-- The ring and its threads. The last five fields record the run: the successful
exchanges of either position, the positions whose calls returned, and the outcomes. -/
structure State where
  enqueuePos : Nat := 0
  dequeuePos : Nat := 0
  cells : Nat → Cell T
  threads : Thread → Access T := fun _ => .idle
  claims : List (Thread × T) := []
  takes : List Thread := []
  published : List Nat := []
  retired : List (Thread × Nat × T) := []
  log : List (Outcome T) := []

/-- `spurious` is a weak exchange that fails although the value is the expected one. -/
inductive Action where
  | push (thread : Thread) (value : T)
  | pop (thread : Thread)
  | access (thread : Thread)
  | spurious (thread : Thread)

end

variable {Thread T : Type}

def Action.thread : Action Thread T → Thread
  | .push thread _ | .pop thread | .access thread | .spurious thread => thread

def Access.resting : Access T → Bool
  | .idle | .returned _ => true
  | _ => false

/-- Accesses left until the call returns, if none of its exchanges fails. -/
def Access.remaining : Access T → Nat
  | .idle | .returned _ => 0
  | .pushPublish _ _ | .popRetire _ _ => 1
  | .pushWrite _ _ | .popRead _ => 2
  | .pushExchange _ _ | .popExchange _ => 3
  | .pushLoadSeq _ _ | .popLoadSeq _ => 4
  | .pushLoadPos _ | .popLoadPos => 5

namespace State

variable (counting : Counting) (capacity : Nat)

def cell (state : State Thread T) (pos : Nat) : Cell T :=
  state.cells (pos &&& (capacity - 1))

def setCell (state : State Thread T) (pos : Nat) (cell : Cell T) : Nat → Cell T :=
  Function.update state.cells (pos &&& (capacity - 1)) cell

variable [DecidableEq Thread]

variable (state : State Thread T)

def goTo (thread : Thread) (next : Access T) : State Thread T :=
  { state with threads := Function.update state.threads thread next }

def returns (thread : Thread) (outcome : Outcome T) : State Thread T :=
  { state.goTo thread (.returned outcome) with log := state.log ++ [outcome] }

def begin (thread : Thread) (first : Access T) : Option (State Thread T) :=
  if (state.threads thread).resting then some (state.goTo thread first) else none

/-- A failed exchange reloads the position. -/
def exchangeFails (thread : Thread) : Option (State Thread T) :=
  match state.threads thread with
  | .pushExchange value _ => some (state.goTo thread (.pushLoadSeq value state.enqueuePos))
  | .popExchange _ => some (state.goTo thread (.popLoadSeq state.dequeuePos))
  | _ => none

def access (thread : Thread) : Option (State Thread T) :=
  match state.threads thread with
  | .idle | .returned _ => none
  | .pushLoadPos value => some (state.goTo thread (.pushLoadSeq value state.enqueuePos))
  | .pushLoadSeq value pos =>
    let diff := counting.diff (state.cell capacity pos).sequence pos
    if diff = 0 then some (state.goTo thread (.pushExchange value pos))
    else if diff < 0 then some (state.returns thread (.full value))
    else some (state.goTo thread (.pushLoadPos value))
  | .pushExchange value pos =>
    if state.enqueuePos = pos then
      some { state.goTo thread (.pushWrite value pos) with
        enqueuePos := counting.add pos 1
        claims := state.claims ++ [(thread, value)] }
    else state.exchangeFails thread
  | .pushWrite value pos =>
    some { state.goTo thread (.pushPublish value pos) with
      cells := state.setCell capacity pos { state.cell capacity pos with data := value } }
  | .pushPublish value pos =>
    some { state.returns thread (.pushed value) with
      cells := state.setCell capacity pos { state.cell capacity pos with sequence := counting.add pos 1 }
      published := state.published ++ [pos] }
  | .popLoadPos => some (state.goTo thread (.popLoadSeq state.dequeuePos))
  | .popLoadSeq pos =>
    let diff := counting.diff (state.cell capacity pos).sequence (counting.add pos 1)
    if diff = 0 then some (state.goTo thread (.popExchange pos))
    else if diff < 0 then some (state.returns thread .empty)
    else some (state.goTo thread .popLoadPos)
  | .popExchange pos =>
    if state.dequeuePos = pos then
      some { state.goTo thread (.popRead pos) with
        dequeuePos := counting.add pos 1
        takes := state.takes ++ [thread] }
    else state.exchangeFails thread
  | .popRead pos => some (state.goTo thread (.popRetire pos (state.cell capacity pos).data))
  | .popRetire pos out =>
    some { state.returns thread (.popped out) with
      cells := state.setCell capacity pos
        { state.cell capacity pos with
          sequence := counting.add (counting.add pos (capacity - 1)) 1 }
      retired := state.retired ++ [(thread, pos, out)] }

end State

theorem busy_of_access [DecidableEq Thread] {counting : Counting} {capacity : Nat} {state after : State Thread T}
    {thread : Thread} (ran : state.access counting capacity thread = some after) :
    (state.threads thread).resting = false := by
  cases here : state.threads thread with
  | idle | returned outcome => simp [State.access, here] at ran
  | _ => rfl

theorem busy_of_exchangeFails [DecidableEq Thread] {state after : State Thread T} {thread : Thread}
    (failed : state.exchangeFails thread = some after) : (state.threads thread).resting = false := by
  cases here : state.threads thread with
  | idle | returned outcome => simp [State.exchangeFails, here] at failed
  | _ => rfl

def step [DecidableEq Thread] (counting : Counting) (capacity : Nat) (state : State Thread T) :
    Action Thread T → Option (State Thread T)
  | .push thread value => state.begin thread (.pushLoadPos value)
  | .pop thread => state.begin thread .popLoadPos
  | .access thread => state.access counting capacity thread
  | .spurious thread => state.exchangeFails thread

section
variable [DecidableEq Thread] {counting : Counting} {size : Nat} {state after : State Thread T}
  {action : Action Thread T} {thread : Thread}

theorem begin_threads {first : Access T} {actor : Thread} (ran : state.begin actor first = some after) :
    after.threads = Function.update state.threads actor first := by
  unfold State.begin at ran
  split at ran <;> cases ran
  rfl

private theorem step_threads (ran : step counting size state action = some after) :
    ∃ next, after.threads = Function.update state.threads action.thread next := by
  cases action with
  | push actor value | pop actor => exact ⟨_, begin_threads ran⟩
  | access actor =>
    simp only [step, State.access] at ran
    repeat' split at ran
    all_goals first
      | cases ran
      | (unfold State.exchangeFails at ran
         split at ran <;> cases ran)
    all_goals exact ⟨_, rfl⟩
  | spurious actor =>
    simp only [step, State.exchangeFails] at ran
    split at ran <;> cases ran
    all_goals exact ⟨_, rfl⟩

theorem step_threads_of_ne (ran : step counting size state action = some after)
    (other : thread ≠ action.thread) : after.threads thread = state.threads thread := by
  obtain ⟨next, threads⟩ := step_threads ran
  rw [threads, Function.update_of_ne other]

end

/-- Whether the difference that the thread forms of its next load is defined. -/
def State.defined (capacity : Nat) (state : State Thread T) (thread : Thread) : Bool :=
  match state.threads thread with
  | .pushLoadSeq _ pos => differenceFits (state.cell capacity pos).sequence pos
  | .popLoadSeq pos => differenceFits (state.cell capacity pos).sequence (add64 pos 1)
  | _ => true

def sourceStep [DecidableEq Thread] (capacity : Nat) (state : State Thread T) :
    Action Thread T → Option (State Thread T)
  | .access thread => if state.defined capacity thread then state.access machine capacity thread else none
  | action => step machine capacity state action

def initial (data : Nat → T) : State Thread T :=
  { cells := fun index => ⟨index, data index⟩ }

end AnimusCore.RingBuffer
