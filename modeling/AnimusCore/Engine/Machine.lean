import AnimusCore.Engine.Rules
import AnimusCore.RingBuffer.Ring

/-! `EngineImpl`: producers that record events, one persistence worker that evaluates and
writes them, callers of `poll_signals`, rule registration, and serialised calls of
`start_persistence` and `stop_persistence`. A step is one access of a ring, one load or
store of `running_`, one critical section, one sink operation or one return, with the
local computation that goes with it. -/

set_option autoImplicit false

namespace AnimusCore.Engine

open Cep RingBuffer

inductive Party (Thread : Type) where
  | worker
  | caller (thread : Thread)
  deriving DecidableEq

/-- A payload, and for the record of the run who recorded it and how many rules of
either kind were registered when that call began. -/
structure Record (Thread : Type) where
  payload : TelemetryPayload
  caller : Thread
  began : Nat × Nat
  deriving DecidableEq

def RawEvent.stamp (event : RawEvent) (cycles : UInt64) : TelemetryPayload :=
  { event with timestampCycles := cycles }

def Record.event {Thread : Type} (record : Record Thread) : RawEvent :=
  { record.payload with }

/-- A `record` or `record_batch` call that returned: its events and how many it reported. -/
structure Call (Thread : Type) where
  thread : Thread
  events : List RawEvent
  pushed : Nat
  deriving DecidableEq

/-- One event of the persistence worker's evaluation loop, with the sizes of the
snapshots and the clock it was evaluated with. -/
structure Evaluation (Thread : Type) where
  record : Record Thread
  rules : Nat
  cepRules : Nat
  nowMs : UInt64
  deriving DecidableEq

inductive Caller where
  | idle
  | recording (events : List RawEvent) (pushed : Nat) (began : Nat × Nat)
  | polling (maxCount : Nat) (out : List ThreatSignal)

structure Snapshot where
  rules : List RuleThreshold
  cepRules : Nat
  nowMs : UInt64

/-- The points of `process_persistence_queue`. The batch is split into what an inner
loop has passed and what is left of it; a worker that is `signalling` is in the push of
the first of its signals. -/
inductive Worker (Thread : Type) where
  | absent
  | opening
  | sinkDown
  | sinkWait
  | popping (batch : List (Record Thread))
  | rulesLock (batch : List (Record Thread))
  | cepRulesLock (batch : List (Record Thread)) (rules : List RuleThreshold)
  | readClock (batch : List (Record Thread)) (rules : List RuleThreshold) (cepRules : Nat)
  | evaluating (done rest : List (Record Thread)) (snapshot : Snapshot)
  | signalling (done rest : List (Record Thread)) (snapshot : Snapshot) (signals : List ThreatSignal)
  | writing (stored rest : List (Record Thread))
  | testRunning
  | exited

/-- What had happened when a `stop_persistence` call began. -/
structure Asked (Thread : Type) where
  calls : List (Call Thread)
  published : List Nat

inductive Control (Thread : Type) where
  | idle
  | startLoad
  | startStore
  | startSpawn
  | stopLoad (asked : Asked Thread)
  | stopStore (asked : Asked Thread)
  | stopJoin (asked : Asked Thread)
  | stopped (asked : Asked Thread)

/-- The engine over its two rings. The last three fields record the run. -/
structure Core (Thread Ring SignalRing : Type) where
  ring : Ring
  signalRing : SignalRing
  running : Bool := false
  control : Control Thread := .idle
  worker : Worker Thread := .absent
  callers : Thread → Caller := fun _ => .idle
  rules : List RuleThreshold := []
  cepRules : List CepRuleState := []
  logFile : List (Record Thread) := []
  evaluations : List (Evaluation Thread) := []
  calls : List (Call Thread) := []
  polls : List (Thread × List ThreatSignal) := []

abbrev State (Thread : Type) :=
  Core Thread (RingBuffer.State (Party Thread) (Record Thread)) (RingBuffer.State (Party Thread) ThreatSignal)

inductive Action (Thread : Type) where
  | record (thread : Thread) (event : RawEvent) (cycles : UInt64)
  | recordBatch (thread : Thread) (events : List RawEvent) (cycles : UInt64)
  | pollSignals (thread : Thread) (maxCount : Nat)
  | resume (thread : Thread) (cycles : UInt64)
  | ring (party : Party Thread)
  | ringSpurious (party : Party Thread)
  | signalRing (party : Party Thread)
  | signalRingSpurious (party : Party Thread)
  | tryOpen (opens : Bool)
  | sleep
  | clock (nowMs : UInt64)
  | work
  | writeFails
  | addRule (arguments : RuleArguments) (allocates : Bool)
  | addCepRule (arguments : CepRuleArguments) (allocates : Bool)
  | startPersistence
  | stopPersistence
  | control

/-- `BATCH_SIZE` -/
def batchSize : Nat := 1024

namespace Core

variable {Thread Ring SignalRing : Type}

/-- No call of `start_persistence` or `stop_persistence` is under way. -/
def unoccupied (engine : Core Thread Ring SignalRing) : Bool :=
  match engine.control with
  | .idle | .stopped _ => true
  | _ => false

def registered (engine : Core Thread Ring SignalRing) : Nat × Nat :=
  (engine.rules.length, engine.cepRules.length)

variable [DecidableEq Thread]

def returns (engine : Core Thread Ring SignalRing) (thread : Thread) (events : List RawEvent)
    (pushed : Nat) : Core Thread Ring SignalRing :=
  { engine with
    callers := Function.update engine.callers thread .idle
    calls := engine.calls ++ [⟨thread, events, pushed⟩] }

def pollReturns (engine : Core Thread Ring SignalRing) (thread : Thread)
    (out : List ThreatSignal) : Core Thread Ring SignalRing :=
  { engine with
    callers := Function.update engine.callers thread .idle
    polls := engine.polls ++ [(thread, out)] }

end Core

namespace State

variable {Thread : Type} [DecidableEq Thread]

variable (state : State Thread)

/-- The head of the loop of `record_batch`: the next push begins, or the call returns. -/
def recordFrom (thread : Thread) (events : List RawEvent) (pushed : Nat) (began : Nat × Nat)
    (cycles : UInt64) : Option (State Thread) :=
  match events[pushed]? with
  | none => some (state.returns thread events pushed)
  | some event =>
    (state.ring.begin (.caller thread) (.pushLoadPos ⟨event.stamp cycles, thread, began⟩)).map fun ring =>
        { state with
          ring
          callers := Function.update state.callers thread (.recording events pushed began) }

/-- `record` is the batch of one event. -/
def recordBatch (thread : Thread) (events : List RawEvent) (cycles : UInt64) : Option (State Thread) :=
  match state.callers thread with
  | .idle => state.recordFrom thread events 0 state.registered cycles
  | _ => none

def pollFrom (thread : Thread) (maxCount : Nat) (out : List ThreatSignal) : Option (State Thread) :=
  if out.length < maxCount then
    (state.signalRing.begin (.caller thread) .popLoadPos).map fun signalRing =>
      { state with
        signalRing
        callers := Function.update state.callers thread (.polling maxCount out) }
  else some (state.pollReturns thread out)

def pollSignals (thread : Thread) (maxCount : Nat) : Option (State Thread) :=
  match state.callers thread with
  | .idle => state.pollFrom thread maxCount []
  | _ => none

/-- The call goes on after a push or pop of its has returned. -/
def resume (thread : Thread) (cycles : UInt64) : Option (State Thread) :=
  match state.callers thread with
  | .idle => none
  | .recording events pushed began =>
    match state.ring.threads (.caller thread) with
    | .returned (.pushed _) => state.recordFrom thread events (pushed + 1) began cycles
    | .returned (.full _) => some (state.returns thread events pushed)
    | _ => none
  | .polling maxCount out =>
    match state.signalRing.threads (.caller thread) with
    | .returned (.popped signal) => state.pollFrom thread maxCount (out ++ [signal])
    | .returned .empty => some (state.pollReturns thread out)
    | _ => none

/-- The test of the inner loop `while (batch.size() < BATCH_SIZE && ring_.pop(item))`. -/
def collect (batch : List (Record Thread)) : Option (State Thread) :=
  if batch.length < batchSize then
    (state.ring.begin .worker .popLoadPos).map fun ring =>
      { state with ring, worker := .popping batch }
  else some { state with worker := .rulesLock batch }

def tryOpen (opens : Bool) : Option (State Thread) :=
  match state.worker with
  | .opening | .sinkWait =>
    if opens then state.collect [] else some { state with worker := .sinkDown }
  | _ => none

/-- The push of the next signal of an event begins, or the event is done. -/
def emit (done rest : List (Record Thread)) (snapshot : Snapshot) : List ThreatSignal → Option (State Thread)
  | [] => some { state with worker := .evaluating done rest snapshot }
  | signal :: signals =>
    (state.signalRing.begin .worker (.pushLoadPos signal)).map fun signalRing =>
      { state with
        signalRing
        worker := .signalling done rest snapshot (signal :: signals) }

/-- `evaluate_rules` and `evaluate_cep_rules` for the next event of the batch; `none`
where a windowed rule's `on_event` is undefined. -/
def evaluateNext (done : List (Record Thread)) (record : Record Thread)
    (rest : List (Record Thread)) (snapshot : Snapshot) : Option (State Thread) :=
  (evaluate record.payload snapshot.rules snapshot.cepRules snapshot.nowMs
    state.cepRules).bind fun (signals, cepRules) =>
      emit { state with
        cepRules
        evaluations := state.evaluations ++ [⟨record, snapshot.rules.length, snapshot.cepRules, snapshot.nowMs⟩] }
        (done ++ [record]) rest snapshot signals

def work : Option (State Thread) :=
  match state.worker with
  | .sinkDown => some { state with worker := if state.running then .sinkWait else .exited }
  | .popping batch =>
    match state.ring.threads .worker with
    | .returned (.popped item) => state.collect (batch ++ [item])
    | .returned .empty =>
      some { state with worker := if batch.isEmpty then .testRunning else .rulesLock batch }
    | _ => none
  | .rulesLock batch => some { state with worker := .cepRulesLock batch state.rules }
  | .cepRulesLock batch rules =>
    some { state with worker := .readClock batch rules state.cepRules.length }
  | .evaluating done [] _ => some { state with worker := .writing [] done }
  | .evaluating done (record :: rest) snapshot => state.evaluateNext done record rest snapshot
  | .signalling done rest snapshot signals =>
    match state.signalRing.threads .worker with
    | .returned _ => state.emit done rest snapshot signals.tail
    | _ => none
  | .writing stored (record :: rest) =>
    some { state with
      logFile := state.logFile ++ [record]
      worker := .writing (stored ++ [record]) rest }
  | .writing _ [] => state.collect []
  | .testRunning =>
    if state.running then state.collect [] else some { state with worker := .exited }
  | .absent | .opening | .sinkWait | .readClock _ _ _ | .exited => none

def startOrStop : Option (State Thread) :=
  match state.control with
  | .idle | .stopped _ => none
  | .startLoad => some { state with control := if state.running then .idle else .startStore }
  | .startStore => some { state with running := true, control := .startSpawn }
  | .startSpawn =>
    -- Assigning to a thread object that is still joinable ends the process.
    match state.worker with
    | .absent => some { state with worker := .opening, control := .idle }
    | _ => none
  | .stopLoad asked =>
    some { state with control := if state.running then .stopStore asked else .stopped asked }
  | .stopStore asked => some { state with running := false, control := .stopJoin asked }
  | .stopJoin asked =>
    match state.worker with
    | .exited => some { state with worker := .absent, control := .stopped asked }
    -- Where the thread could not be started there is none to join.
    | .absent => some { state with control := .stopped asked }
    | _ => none

end State

variable {Thread : Type} [DecidableEq Thread]

def step (counting : Counting) (capacity : Nat) (state : State Thread) : Action Thread → Option (State Thread)
  | .record thread event cycles => state.recordBatch thread [event] cycles
  | .recordBatch thread events cycles => state.recordBatch thread events cycles
  | .pollSignals thread maxCount => state.pollSignals thread maxCount
  | .resume thread cycles => state.resume thread cycles
  | .ring party =>
    (state.ring.access counting capacity party).map fun ring => { state with ring }
  | .ringSpurious party => (state.ring.exchangeFails party).map fun ring => { state with ring }
  | .signalRing party =>
    (state.signalRing.access counting capacity party).map fun signalRing =>
      { state with signalRing }
  | .signalRingSpurious party =>
    (state.signalRing.exchangeFails party).map fun signalRing => { state with signalRing }
  | .tryOpen opens => state.tryOpen opens
  | .sleep =>
    match state.worker with
    | .sinkWait => some { state with worker := .sinkDown }
    | _ => none
  | .clock nowMs =>
    match state.worker with
    | .readClock batch rules cepRules =>
      some { state with worker := .evaluating [] batch ⟨rules, cepRules, nowMs⟩ }
    | _ => none
  | .work => state.work
  | .writeFails =>
    -- Nothing of the batch is stored; `batch.clear()` follows all the same.
    match state.worker with
    | .writing [] (_ :: _) => some { state with worker := .sinkDown }
    | _ => none
  | .addRule arguments allocates =>
    some { state with rules := (addRule state.rules arguments allocates).2 }
  | .addCepRule arguments allocates =>
    some { state with cepRules := (addCepRule state.cepRules arguments allocates).2 }
  | .startPersistence =>
    if state.unoccupied then some { state with control := .startLoad } else none
  | .stopPersistence =>
    if state.unoccupied then
      some { state with control := .stopLoad ⟨state.calls, state.ring.published⟩ }
    else none
  | .control => state.startOrStop

/-- A new engine; the cells' contents are whatever the memory held. -/
def initial (records : Nat → Record Thread) (signals : Nat → ThreatSignal) : State Thread where
  ring := RingBuffer.initial records
  signalRing := RingBuffer.initial signals

end AnimusCore.Engine
