import AnimusCore.Fallback.Engine
import AnimusCore.Lib.Bytes
import AnimusCore.Lib.Transition
import Mathlib.Algebra.Ring.Int.Defs
import Mathlib.Data.Prod.Lex

/-! `_PurePythonEngine` with the integers that Python passes: no call narrows its arguments, a
signal keeps the low bits of what it is given, and only `struct.pack` refuses a number. The
client calls at any time, also while the worker drains; each lock, load of the clock and write
is a step of its own. -/

set_option autoImplicit false

namespace AnimusCore.Fallback.Unbounded

open Lib

structure TelemetryRecord where
  timestampCycles : UInt64
  eventId : Int
  traceId : Int
  metricValue : Int
  deriving DecidableEq

/-- `struct.pack("<QIIQ", *record)`; `none` is a `struct.error`. -/
def TelemetryRecord.pack (record : TelemetryRecord) : Option (List UInt8) :=
  if (0 ≤ record.eventId ∧ record.eventId < 2 ^ 32) ∧ (0 ≤ record.traceId ∧ record.traceId < 2 ^ 32) ∧
      0 ≤ record.metricValue ∧ record.metricValue < 2 ^ 64 then
    some (toLE 8 record.timestampCycles.toNat ++ toLE 4 record.eventId.toNat ++
      toLE 4 record.traceId.toNat ++ toLE 8 record.metricValue.toNat)
  else none

/-- The fields are `ctypes` integers, which take any number modulo their width. -/
structure ThreatSignal where
  timestampCycles : UInt64
  eventId : UInt32
  traceId : UInt32
  metricValue : UInt64
  ruleId : UInt32
  severity : UInt32
  deriving DecidableEq

def ThreatSignal.make (record : TelemetryRecord) (metricValue ruleId severity : Int) : ThreatSignal where
  timestampCycles := record.timestampCycles
  eventId := .ofInt record.eventId
  traceId := .ofInt record.traceId
  metricValue := .ofInt metricValue
  ruleId := .ofInt ruleId
  severity := .ofInt severity

structure RuleThreshold where
  ruleId : Int
  eventId : Int
  threshold : Int
  comparator : Int
  severity : Int
  deriving DecidableEq

def compareValue (lhs rhs comparator : Int) : Bool :=
  if comparator = 0 then lhs > rhs else if comparator = 1 then lhs < rhs else lhs == rhs

structure CepRule where
  ruleId : Int
  eventId : Int
  windowType : Int
  windowSize : Int
  aggregation : Int
  comparator : Int
  threshold : Int
  severity : Int
  deriving DecidableEq

structure Entry where
  sequence : Nat
  timestampMs : Int
  value : Int
  deriving DecidableEq

structure CepRuleState where
  rule : CepRule
  window : List Entry := []
  sequence : Nat := 0
  deriving DecidableEq

def CepRuleState.create (rule : CepRule) : CepRuleState :=
  { rule := { rule with windowSize := max 1 rule.windowSize } }

namespace CepRule

variable (rule : CepRule)

def leaves (nowMs : Int) (size : Nat) (front : Entry) : Bool :=
  if rule.windowType = 0 then size > rule.windowSize
  else front.timestampMs + rule.windowSize ≤ nowMs

/-- The loop of `on_event`; the size is positive, so an empty window is within it. -/
def evict (nowMs : Int) : List Entry → List Entry
  | [] => []
  | front :: rest =>
    if rule.leaves nowMs (front :: rest).length front then evict nowMs rest else front :: rest

/-- `none` is the error of `min` and `max` on nothing. -/
def aggregate (values : List Int) : Option (Bool × Int) :=
  if rule.aggregation = 0 then
    some (compareValue values.sum rule.threshold rule.comparator, values.sum)
  else if rule.aggregation = 1 then
    some (compareValue values.sum (rule.threshold * values.length) rule.comparator,
      if values.length = 0 then 0 else values.sum / values.length)
  else if rule.aggregation = 2 then
    values.min?.map fun least => (compareValue least rule.threshold rule.comparator, least)
  else values.max?.map fun greatest =>
    (compareValue greatest rule.threshold rule.comparator, greatest)

end CepRule

def CepRuleState.onEvent (state : CepRuleState) (value nowMs : Int) : Option ((Bool × Int) × CepRuleState) :=
  let sequence := state.sequence + 1
  let window := state.rule.evict nowMs (state.window ++ [⟨sequence, nowMs, value⟩])
  (state.rule.aggregate (window.map Entry.value)).map fun result =>
    (result, { state with window, sequence })

/-- Where the worker is in its batch: the flag says whether the batch had any record. -/
structure Batch where
  filled : Bool
  nowMs : Int
  record : TelemetryRecord
  rest : List TelemetryRecord

/-- The points of `_drain_loop`, with those of `_evaluate`, which keeps a snapshot of the
threshold rules and one of the places of the windowed ones. -/
inductive Worker where
  | opening
  | popping
  | readClock (batch : List TelemetryRecord)
  | nextRecord (filled : Bool) (nowMs : Int) (rest : List TelemetryRecord)
  | rules (batch : Batch) (left : List RuleThreshold)
  | takeCepRules (batch : Batch)
  | cepRules (batch : Batch) (left : List Nat)
  | write (batch : Batch)
  | testRunning
  | sleeping
  | exited
  | raised

/-- `joining` is a client inside `stop_logging`. The last three fields record the run: whether
logging was started, the records that were accepted and those that were evaluated. -/
structure State where
  ring : BoundedQueue TelemetryRecord
  signals : BoundedQueue ThreatSignal
  rules : List RuleThreshold := []
  cepRules : List CepRuleState := []
  running : Bool := false
  joining : Bool := false
  worker : Option Worker := none
  logFile : List (List UInt8) := []
  started : Bool := false
  accepted : List TelemetryRecord := []
  evaluated : List TelemetryRecord := []

def init (bufferCapacity : Nat) : State where
  ring := { capacity := bufferCapacity }
  signals := { capacity := bufferCapacity }

inductive Action where
  | recordEvent (record : TelemetryRecord)
  | addRule (rule : RuleThreshold)
  | addCepRule (rule : CepRule)
  | pollSignals (maxCount : Nat)
  | startLogging
  | stopLogging
  | join
  | clock (nowMs : Int)
  | work

namespace State

variable (state : State)

def recordEvent (record : TelemetryRecord) : State :=
  let (accepted, ring) := state.ring.push record
  { state with
    ring, accepted := if accepted then state.accepted ++ [record] else state.accepted }

def addRule (rule : RuleThreshold) : State :=
  if rule.comparator ∉ ([0, 1, 2] : List Int) then state
  else { state with rules := state.rules ++ [rule] }

def addCepRule (rule : CepRule) : State :=
  if rule.windowType ∉ ([0, 1] : List Int) then state
  else if rule.aggregation ∉ ([0, 1, 2, 3] : List Int) then state
  else if rule.comparator ∉ ([0, 1, 2] : List Int) then state
  else { state with cepRules := state.cepRules ++ [.create rule] }

def startLogging : State :=
  if state.running then state
  else { state with running := true, started := true, worker := some .opening }

def stopLogging : State :=
  if state.running then { state with running := false, joining := true } else state

def join : Option State :=
  match state.joining, state.worker with
  | true, some .exited | true, some .raised => some { state with joining := false, worker := none }
  | _, _ => none

def goTo (worker : Worker) : State := { state with worker := some worker }

def clock (nowMs : Int) : Option State :=
  match state.worker with
  | some (.readClock batch) => some (state.goTo (.nextRecord (!batch.isEmpty) nowMs batch))
  | _ => none

def ruleTurn (batch : Batch) (rule : RuleThreshold) : State :=
  if rule.eventId ≠ batch.record.eventId then state
  else if compareValue batch.record.metricValue rule.threshold rule.comparator then
    { state with signals := (state.signals.push
        (.make batch.record batch.record.metricValue rule.ruleId rule.severity)).2 }
  else state

/-- One turn of the loop over the windowed rules; `none` is an error of `on_event`. -/
def cepRuleTurn (batch : Batch) (place : Nat) : Option State :=
  state.cepRules[place]?.bind fun rule =>
    if rule.rule.eventId ≠ batch.record.eventId then some state
    else (rule.onEvent batch.record.metricValue batch.nowMs).map fun ((matched, aggregated), next) =>
        { state with
          cepRules := state.cepRules.set place next
          signals := if matched then (state.signals.push
              (.make batch.record aggregated rule.rule.ruleId rule.rule.severity)).2
            else state.signals }

def work : Option State :=
  match state.worker with
  | none | some (.readClock _) | some .exited | some .raised => none
  | some .opening => some (state.goTo .popping)
  | some .popping =>
    let (batch, ring) := state.ring.popBatch 1024
    some ({ state with ring }.goTo (.readClock batch))
  | some (.nextRecord filled nowMs (record :: rest)) =>
    some (state.goTo (.rules ⟨filled, nowMs, record, rest⟩ state.rules))
  | some (.nextRecord filled _ []) =>
    some (state.goTo (if filled then .popping else .testRunning))
  | some (.rules batch (rule :: left)) =>
    some ((state.ruleTurn batch rule).goTo (.rules batch left))
  | some (.rules batch []) => some (state.goTo (.takeCepRules batch))
  | some (.takeCepRules batch) =>
    some (state.goTo (.cepRules batch (List.range state.cepRules.length)))
  | some (.cepRules batch (place :: left)) =>
    match state.cepRuleTurn batch place with
    | none => some (state.goTo .raised)
    | some next => some (next.goTo (.cepRules batch left))
  | some (.cepRules batch []) =>
    some ({ state with evaluated := state.evaluated ++ [batch.record] }.goTo (.write batch))
  | some (.write batch) =>
    match batch.record.pack with
    | none => some (state.goTo .raised)
    | some bytes => some ({ state with logFile := state.logFile ++ [bytes] }.goTo
        (.nextRecord batch.filled batch.nowMs batch.rest))
  | some .testRunning => some (state.goTo (if state.running then .sleeping else .exited))
  | some .sleeping => some (state.goTo .popping)

/-- A client that joins the worker makes no other call meanwhile. -/
def call (called : State) : Option State := if state.joining then none else some called

end State

def step (state : State) : Action → Option State
  | .recordEvent record => state.call (state.recordEvent record)
  | .addRule rule => state.call (state.addRule rule)
  | .addCepRule rule => state.call (state.addCepRule rule)
  | .pollSignals maxCount =>
    state.call { state with signals := (state.signals.popBatch maxCount).2 }
  | .startLogging => state.call state.startLogging
  | .stopLogging => state.call state.stopLogging
  | .join => state.join
  | .clock nowMs => state.clock nowMs
  | .work => state.work

def eventsFirst (state : State) : Action → Bool
  | .recordEvent _ => !state.started
  | _ => true

/-- All events are recorded before `start_logging`. -/
def EventsFirst (state : State) (action : Action) : Prop := eventsFirst state action = true

end AnimusCore.Fallback.Unbounded
