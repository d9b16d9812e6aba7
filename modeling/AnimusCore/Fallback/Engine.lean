import AnimusCore.Engine.Rules

/-! `_PurePythonEngine`, the stand-in for the native engine: bounded queues under locks
in place of the rings, and a worker thread that drains, evaluates and writes. Integers are
unbounded; arguments and what is copied from them keep the native types.

The model serves one client thread. A queue operation is one step, and so is `_evaluate`
for one record: the client makes no call while the worker runs other than `stop_logging`,
which writes `_running` and waits. -/

set_option autoImplicit false

namespace AnimusCore.Fallback

open Cep Engine

structure TelemetryRecord where
  timestampCycles : Nat
  eventId : UInt32
  traceId : UInt32
  metricValue : UInt64
  deriving DecidableEq

structure ThreatSignal where
  timestampCycles : Nat
  eventId : UInt32
  traceId : UInt32
  metricValue : Nat
  ruleId : UInt32
  severity : UInt32
  deriving DecidableEq

structure BoundedQueue (Item : Type) where
  capacity : Nat
  items : List Item := []

namespace BoundedQueue

variable {Item : Type}

def push (queue : BoundedQueue Item) (item : Item) : Bool × BoundedQueue Item :=
  if queue.items.length ≥ queue.capacity then (false, queue)
  else (true, { queue with items := queue.items ++ [item] })

def popBatch (queue : BoundedQueue Item) (maxCount : Nat) : List Item × BoundedQueue Item :=
  (queue.items.take maxCount, { queue with items := queue.items.drop maxCount })

end BoundedQueue

/-- The branches of `_compare_value` on the integer it is given. -/
def comparatorOf (comparator : UInt8) : RuleComparator :=
  if comparator = 0 then .greaterThan else if comparator = 1 then .lessThan else .equal

def windowTypeOf (windowType : UInt8) : WindowType :=
  if windowType = 0 then .count else .time

def aggregationOf (aggregation : UInt8) : AggregationFunction :=
  if aggregation = 0 then .sum
  else if aggregation = 1 then .avg
  else if aggregation = 2 then .min
  else .max

def cepRuleOf (arguments : CepRuleArguments) : CepRule :=
  { arguments with
    windowType := windowTypeOf arguments.windowType
    aggregation := aggregationOf arguments.aggregation
    comparator := comparatorOf arguments.comparator }

/-- The points of `_drain_loop`. A worker that is `evaluating` has part of its batch left;
the flag says whether the batch had any record. -/
inductive Worker where
  | absent
  | opening
  | popping
  | readClock (batch : List TelemetryRecord)
  | evaluating (filled : Bool) (rest : List TelemetryRecord) (nowMs : Nat)
  | testRunning
  | sleeping
  | exited

/-- Where the client is in `start_logging` and `stop_logging`. -/
inductive Control where
  | idle
  | starting
  | joining
  deriving DecidableEq

/-- `_rules` keeps the arguments as they were given. -/
structure State where
  ring : BoundedQueue TelemetryRecord
  signals : BoundedQueue ThreatSignal
  rules : List RuleArguments := []
  cepRules : List PythonRuleState := []
  running : Bool := false
  control : Control := .idle
  worker : Worker := .absent
  logFile : List TelemetryRecord := []

/-- `init`; the capacity is not rounded. -/
def init (bufferCapacity : Nat) : State where
  ring := { capacity := bufferCapacity }
  signals := { capacity := bufferCapacity }

/-- Steps that the client or the worker takes on its own. An error of the log file ends
the worker. -/
inductive Action where
  | spawn
  | join
  | openLog (opens : Bool)
  | clock (nowMs : Nat)
  | drain (writes : Bool)
  | work

namespace State

variable (state : State)

def recordEvent (event : RawEvent) (timestampCycles : Nat) : Bool × State :=
  let (accepted, ring) := state.ring.push { event with timestampCycles }
  (accepted, { state with ring })

def addRule (arguments : RuleArguments) : Bool × State :=
  if arguments.comparator ∉ ([0, 1, 2] : List UInt8) then (false, state)
  else (true, { state with rules := state.rules ++ [arguments] })

def addCepRule (arguments : CepRuleArguments) : Bool × State :=
  if arguments.windowType ∉ ([0, 1] : List UInt8) then (false, state)
  else if arguments.aggregation ∉ ([0, 1, 2, 3] : List UInt8) then (false, state)
  else if arguments.comparator ∉ ([0, 1, 2] : List UInt8) then (false, state)
  else (true, { state with cepRules := state.cepRules ++ [{ rule := cepRuleOf arguments }] })

def pollSignals (maxCount : Nat) : List ThreatSignal × State :=
  let (out, signals) := state.signals.popBatch maxCount
  (out, { state with signals })

/-- The loop of `_evaluate` over the threshold rules. -/
def evaluateRules (record : TelemetryRecord) :
    List RuleArguments → BoundedQueue ThreatSignal → BoundedQueue ThreatSignal
  | [], signals => signals
  | rule :: rest, signals =>
    if rule.eventId ≠ record.eventId then evaluateRules record rest signals
    else if pythonCompareValue record.metricValue.toNat rule.threshold.toNat (comparatorOf rule.comparator) then
      evaluateRules record rest (signals.push
          { record with
            metricValue := record.metricValue.toNat
            ruleId := rule.ruleId
            severity := rule.severity }).2
    else evaluateRules record rest signals

/-- Its loop over the windowed rules; `none` is an error of `on_event`. -/
def evaluateCepRules (record : TelemetryRecord) (nowMs : Nat) : List PythonRuleState → BoundedQueue ThreatSignal →
      Option (List PythonRuleState × BoundedQueue ThreatSignal)
  | [], signals => some ([], signals)
  | state :: rest, signals =>
    if state.rule.eventId ≠ record.eventId then do
      let (fed, signals) ← evaluateCepRules record nowMs rest signals
      return (state :: fed, signals)
    else do
      let ((matched, aggregated), next) ← state.onEvent record.metricValue.toNat nowMs
      let signal : ThreatSignal :=
        { record with
          metricValue := aggregated
          ruleId := state.rule.ruleId
          severity := state.rule.severity }
      let (fed, signals) ← evaluateCepRules record nowMs rest (if matched then (signals.push signal).2 else signals)
      return (next :: fed, signals)

def evaluate (record : TelemetryRecord) (nowMs : Nat) : Option State :=
  (evaluateCepRules record nowMs state.cepRules
    (evaluateRules record state.rules state.signals)).map fun (cepRules, signals) =>
      { state with cepRules, signals }

/-- `start_logging` up to the thread it creates; only the client writes `_running`. -/
def startLogging : State :=
  if state.running then state else { state with running := true, control := .starting }

/-- `stop_logging` up to the join. -/
def stopLogging : State :=
  if state.running then { state with running := false, control := .joining } else state

/-- The worker between its clock readings and its records. -/
def work : Option State :=
  match state.worker with
  | .popping =>
    let (batch, ring) := state.ring.popBatch 1024
    some { state with ring, worker := .readClock batch }
  | .evaluating filled [] _ =>
    some { state with worker := if filled then .popping else .testRunning }
  | .testRunning =>
    some { state with worker := if state.running then .sleeping else .exited }
  | .sleeping => some { state with worker := .popping }
  | _ => none

end State

def step (state : State) : Action → Option State
  | .spawn =>
    if state.control = .starting then
      some { state with worker := .opening, control := .idle }
    else none
  | .join =>
    match state.control, state.worker with
    | .joining, .exited => some { state with worker := .absent, control := .idle }
    | _, _ => none
  | .openLog opens =>
    match state.worker with
    | .opening => some { state with worker := if opens then .popping else .exited }
    | _ => none
  | .clock nowMs =>
    match state.worker with
    | .readClock batch =>
      some { state with worker := .evaluating (!batch.isEmpty) batch nowMs }
    | _ => none
  | .drain writes =>
    match state.worker with
    | .evaluating filled (record :: rest) nowMs =>
      (state.evaluate record nowMs).map fun state =>
        if writes then
          { state with
            logFile := state.logFile ++ [record]
            worker := .evaluating filled rest nowMs }
        else { state with worker := .exited }
    | _ => none
  | .work => state.work

end AnimusCore.Fallback
