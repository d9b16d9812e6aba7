import Mathlib.Algebra.GroupWithZero.Nat
import Mathlib.Data.List.DropRight

/-! Sliding-window rules: `CepRuleState` of the native engine in 64-bit arithmetic, and
the Python fallback's `_CepRuleState`, whose integers are unbounded. -/

set_option autoImplicit false

namespace AnimusCore.Cep

inductive RuleComparator where
  | greaterThan
  | lessThan
  | equal
  deriving DecidableEq

inductive WindowType where
  | count
  | time
  deriving DecidableEq

inductive AggregationFunction where
  | sum
  | avg
  | min
  | max
  deriving DecidableEq

def compareValue (lhs rhs : UInt64) : RuleComparator → Bool
  | .greaterThan => lhs > rhs
  | .lessThan => lhs < rhs
  | .equal => lhs == rhs

structure CepWindowEntry where
  sequence : UInt64
  timestampMs : UInt64
  value : UInt64
  deriving DecidableEq

structure CepRule where
  ruleId : UInt32
  eventId : UInt32
  windowType : WindowType
  windowSize : UInt64
  aggregation : AggregationFunction
  comparator : RuleComparator
  threshold : UInt64
  severity : UInt32
  deriving DecidableEq

def CepRule.size (rule : CepRule) : UInt64 :=
  if rule.windowSize = 0 then 1 else rule.windowSize

structure CepRuleState where
  rule : CepRule
  sequenceCounter : UInt64 := 0
  sumWindow : List CepWindowEntry := []
  runningSum : UInt64 := 0
  minMonotonic : List CepWindowEntry := []
  maxMonotonic : List CepWindowEntry := []
  deriving DecidableEq

namespace CepRule

variable (rule : CepRule)

/-- The loop test of `evict_fifo`. -/
def leavesFifo (nowMs : UInt64) (size : Nat) (front : CepWindowEntry) : Bool :=
  match rule.windowType with
  | .count => size > rule.size.toNat
  | .time => front.timestampMs + rule.size ≤ nowMs

def evictFifo (nowMs : UInt64) : List CepWindowEntry → UInt64 → List CepWindowEntry × UInt64
  | [], runningSum => ([], runningSum)
  | front :: rest, runningSum =>
    if rule.leavesFifo nowMs (front :: rest).length front then
      evictFifo nowMs rest (runningSum - front.value)
    else (front :: rest, runningSum)

def expired (sequenceCounter nowMs : UInt64) (entry : CepWindowEntry) : Bool :=
  match rule.windowType with
  | .count => entry.sequence + rule.size ≤ sequenceCounter
  | .time => entry.timestampMs + rule.size ≤ nowMs

def evictMonotonic (sequenceCounter nowMs : UInt64) (deque : List CepWindowEntry) : List CepWindowEntry :=
  deque.dropWhile (rule.expired sequenceCounter nowMs)

end CepRule

namespace CepRuleState

def create (rule : CepRule) : CepRuleState := { rule }

variable (state : CepRuleState)

def entry (value nowMs : UInt64) : CepWindowEntry :=
  ⟨state.sequenceCounter + 1, nowMs, value⟩

/-- `on_event` up to the end of the eviction. -/
def feed (value nowMs : UInt64) : CepRuleState :=
  let entry := state.entry value nowMs
  let sequenceCounter := state.sequenceCounter + 1
  match state.rule.aggregation with
  | .sum | .avg =>
    let evicted := state.rule.evictFifo nowMs (state.sumWindow ++ [entry]) (state.runningSum + value)
    { state with sequenceCounter, sumWindow := evicted.1, runningSum := evicted.2 }
  | .max =>
    let deque := state.maxMonotonic.rdropWhile (fun back => back.value ≤ value) ++ [entry]
    { state with
      sequenceCounter
      maxMonotonic := state.rule.evictMonotonic sequenceCounter nowMs deque }
  | .min =>
    let deque := state.minMonotonic.rdropWhile (fun back => back.value ≥ value) ++ [entry]
    { state with
      sequenceCounter
      minMonotonic := state.rule.evictMonotonic sequenceCounter nowMs deque }

/-- The pair that `on_event` returns after the eviction; `none` takes the front of an
empty deque. -/
def result : Option (Bool × UInt64) :=
  let rule := state.rule
  match rule.aggregation with
  | .sum => some (compareValue state.runningSum rule.threshold rule.comparator, state.runningSum)
  | .avg =>
    let count := state.sumWindow.length
    some (compareValue state.runningSum (rule.threshold * UInt64.ofNat count) rule.comparator,
      UInt64.ofNat (if count = 0 then 0 else state.runningSum.toNat / count))
  | .max => state.maxMonotonic.head?.map fun front =>
    (compareValue front.value rule.threshold rule.comparator, front.value)
  | .min => state.minMonotonic.head?.map fun front =>
    (compareValue front.value rule.threshold rule.comparator, front.value)

def onEvent (value nowMs : UInt64) : Option ((Bool × UInt64) × CepRuleState) :=
  let fed := state.feed value nowMs
  fed.result.map fun result => (result, fed)

def window : List CepWindowEntry :=
  match state.rule.aggregation with
  | .sum | .avg => state.sumWindow
  | .max => state.maxMonotonic
  | .min => state.minMonotonic

end CepRuleState

structure PythonEntry where
  sequence : Nat
  timestampMs : Nat
  value : Nat
  deriving DecidableEq

structure PythonRuleState where
  rule : CepRule
  window : List PythonEntry := []
  sequence : Nat := 0

def pythonCompareValue (lhs rhs : Nat) : RuleComparator → Bool
  | .greaterThan => lhs > rhs
  | .lessThan => lhs < rhs
  | .equal => lhs == rhs

namespace CepRule

variable (rule : CepRule)

/-- `max(1, window_size)` -/
def pythonSize : Nat := max 1 rule.windowSize.toNat

def pythonLeaves (nowMs size : Nat) (front : PythonEntry) : Bool :=
  match rule.windowType with
  | .count => size > rule.pythonSize
  | .time => front.timestampMs + rule.pythonSize ≤ nowMs

def pythonEvict (nowMs : Nat) : List PythonEntry → List PythonEntry
  | [] => []
  | front :: rest =>
    if rule.pythonLeaves nowMs (front :: rest).length front then pythonEvict nowMs rest
    else front :: rest

/-- The aggregate of the values of a whole window and its comparison; `none` is the
error of `min` and `max` on nothing. -/
def aggregate (values : List Nat) : Option (Bool × Nat) :=
  match rule.aggregation with
  | .sum => some (pythonCompareValue values.sum rule.threshold.toNat rule.comparator, values.sum)
  | .avg =>
    some (pythonCompareValue values.sum (rule.threshold.toNat * values.length) rule.comparator,
      if values.length = 0 then 0 else values.sum / values.length)
  | .min => values.min?.map fun least =>
    (pythonCompareValue least rule.threshold.toNat rule.comparator, least)
  | .max => values.max?.map fun greatest =>
    (pythonCompareValue greatest rule.threshold.toNat rule.comparator, greatest)

end CepRule

namespace PythonRuleState

def feed (state : PythonRuleState) (value nowMs : Nat) : PythonRuleState :=
  let sequence := state.sequence + 1
  { state with
    sequence
    window := state.rule.pythonEvict nowMs (state.window ++ [⟨sequence, nowMs, value⟩]) }

def onEvent (state : PythonRuleState) (value nowMs : Nat) : Option ((Bool × Nat) × PythonRuleState) :=
  let fed := state.feed value nowMs
  (fed.rule.aggregate (fed.window.map PythonEntry.value)).map fun result => (result, fed)

end PythonRuleState

structure Event where
  value : UInt64
  nowMs : UInt64
  deriving DecidableEq

def stateAfter (rule : CepRule) (events : List Event) : CepRuleState :=
  events.foldl (fun state event => state.feed event.value event.nowMs) (.create rule)

def pythonAfter (rule : CepRule) (events : List Event) : PythonRuleState :=
  events.foldl (fun state event => state.feed event.value.toNat event.nowMs.toNat) { rule }

end AnimusCore.Cep
