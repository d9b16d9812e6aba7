import AnimusCore.Fallback.Engine
import AnimusCore.Parity.Contract
import Mathlib.Data.List.Forall2

/-! The fallback keeps the contract. -/

set_option autoImplicit false

namespace AnimusCore.Parity

open Cep Engine Fallback Lib List

def fallbackSignal (signal : Fallback.ThreatSignal) : Observed := { signal with }

def fallbackEvent (record : TelemetryRecord) : RawEvent := { record with }

def fallbackSet (state : Fallback.State) (cycles : Nat) : Setup → Bool × Fallback.State
  | .addRule arguments => state.addRule arguments
  | .addCepRule arguments => state.addCepRule arguments
  | .recordEvent event => state.recordEvent event cycles

def fallback : Service Fallback.State Fallback.Action Nat Request Reply where
  begin state request cycles :=
    match request with
    | .setup call =>
      some ((fallbackSet state cycles call).2, some (.flag (fallbackSet state cycles call).1))
    | .startLogging =>
      some (state.startLogging, if state.running then some .nothing else none)
    | .stopLogging =>
      some (state.stopLogging, if state.running then none else some .nothing)
    | .pollSignals maxCount =>
      some ((state.pollSignals maxCount).2, some (.signals ((state.pollSignals maxCount).1.map fallbackSignal)))
  step := Fallback.step
  reply state request :=
    match request with
    | .startLogging | .stopLogging => if state.control = .idle then some .nothing else none
    | .setup _ | .pollSignals _ => none

def LogWorks (_ : Fallback.State) : Fallback.Action → Prop
  | .openLog opens => opens = true
  | .drain writes => writes = true
  | _ => True

private theorem comparatorOfByte_eq (byte : UInt8) : comparatorOfByte byte =
    if byte ∈ ([0, 1, 2] : List UInt8) then some (comparatorOf byte) else none := by
  unfold comparatorOfByte
  split
  · rfl
  · rfl
  · rfl
  · simp_all

private theorem windowTypeOfByte_eq (byte : UInt8) : windowTypeOfByte byte =
    if byte ∈ ([0, 1] : List UInt8) then some (windowTypeOf byte) else none := by
  unfold windowTypeOfByte
  split
  · rfl
  · rfl
  · simp_all

private theorem aggregationOfByte_eq (byte : UInt8) : aggregationOfByte byte =
    if byte ∈ ([0, 1, 2, 3] : List UInt8) then some (aggregationOf byte) else none := by
  unfold aggregationOfByte
  split
  · rfl
  · rfl
  · rfl
  · rfl
  · simp_all

private theorem addRule_eq (state : Fallback.State) (arguments : RuleArguments) : state.addRule arguments =
      match arguments.rule with
      | some _ => (true, { state with rules := state.rules ++ [arguments] })
      | none => (false, state) := by
  rw [RuleArguments.rule, comparatorOfByte_eq, Fallback.State.addRule]
  by_cases valid : arguments.comparator ∈ ([0, 1, 2] : List UInt8)
  · rw [if_neg (not_not_intro valid), if_pos valid]
    rfl
  · rw [if_pos valid, if_neg valid]
    rfl

private theorem addCepRule_eq (state : Fallback.State) (arguments : CepRuleArguments) : state.addCepRule arguments =
      match arguments.rule with
      | some rule => (true, { state with cepRules := state.cepRules ++ [{ rule }] })
      | none => (false, state) := by
  rw [CepRuleArguments.rule, windowTypeOfByte_eq, aggregationOfByte_eq, comparatorOfByte_eq,
    Fallback.State.addCepRule]
  by_cases window : arguments.windowType ∈ ([0, 1] : List UInt8)
  · rw [if_neg (not_not_intro window), if_pos window]
    by_cases aggregation : arguments.aggregation ∈ ([0, 1, 2, 3] : List UInt8)
    · rw [if_neg (not_not_intro aggregation), if_pos aggregation]
      by_cases comparator : arguments.comparator ∈ ([0, 1, 2] : List UInt8)
      · rw [if_neg (not_not_intro comparator), if_pos comparator]
        rfl
      · rw [if_pos comparator, if_neg comparator]
        rfl
    · rw [if_pos aggregation, if_neg aggregation]
      rfl
  · rw [if_pos window, if_neg window]
    rfl

/-- The rules are those of the contract, and the windows have seen the history. -/
structure Tracks (contract : Contract) (history : List RawEvent) (state : Fallback.State) : Prop where
  rules : state.rules.map RuleArguments.rule = contract.rules.map some
  cepRules : List.Forall₂ (fun rule (python : PythonRuleState) =>
    python.Fed rule (fedValues rule history)) contract.cepRules state.cepRules
  signals : state.signals.items.map fallbackSignal = stream contract.rules contract.cepRules history

variable {record : TelemetryRecord} {nowMs : Nat} {signals : BoundedQueue Fallback.ThreatSignal}
  {history : List RawEvent}

private theorem push_of_lt {Item : Type} {queue : BoundedQueue Item} (item : Item)
    (room : queue.items.length < queue.capacity) :
    queue.push item = (true, { queue with items := queue.items ++ [item] }) :=
  if_neg (Nat.not_le.mpr room)

private theorem rule_eq_some {arguments : RuleArguments} {rule : RuleThreshold} (valid : arguments.rule = some rule) :
    rule = { arguments with comparator := comparatorOf arguments.comparator } := by
  rw [RuleArguments.rule, comparatorOfByte_eq] at valid
  split at valid <;> cases valid
  rfl

private theorem evaluateRules_cons {rule : RuleArguments} {threshold : RuleThreshold}
    (valid : rule.rule = some threshold) (rest : List RuleArguments) :
    ruleSignal (fallbackEvent record) threshold = none ∧ Fallback.State.evaluateRules record (rule :: rest) signals =
          Fallback.State.evaluateRules record rest signals ∨
      ∃ signal, ruleSignal (fallbackEvent record) threshold = some (fallbackSignal signal) ∧
        Fallback.State.evaluateRules record (rule :: rest) signals =
          Fallback.State.evaluateRules record rest (signals.push signal).2 := by
  rw [rule_eq_some valid, ruleSignal, Fallback.State.evaluateRules]
  by_cases same : rule.eventId = record.eventId
  · rw [if_neg (not_not_intro same)]
    by_cases matched : pythonCompareValue record.metricValue.toNat rule.threshold.toNat
        (comparatorOf rule.comparator) = true
    · right
      rw [if_pos matched, if_pos ⟨same, matched⟩]
      exact ⟨_, rfl, rfl⟩
    · left
      rw [if_neg matched, if_neg (fun both => matched both.2)]
      exact ⟨rfl, rfl⟩
  · left
    rw [if_pos same, if_neg (fun both => same both.1)]
    exact ⟨rfl, rfl⟩

private theorem evaluateRules_signals {rules : List RuleArguments} {thresholds : List RuleThreshold}
    (valid : rules.map RuleArguments.rule = thresholds.map some) (room : signals.items.length +
      (thresholds.filterMap (ruleSignal (fallbackEvent record))).length ≤ signals.capacity) :
    ∃ items, Fallback.State.evaluateRules record rules signals = { signals with items } ∧
      items.map fallbackSignal = signals.items.map fallbackSignal ++
        thresholds.filterMap (ruleSignal (fallbackEvent record)) := by
  induction rules generalizing thresholds signals with
  | nil =>
    have none : thresholds = [] := map_eq_nil_iff.mp valid.symm
    rw [none]
    exact ⟨signals.items, rfl, (append_nil _).symm⟩
  | cons rule rest ih =>
    cases thresholds with
    | nil => cases valid
    | cons threshold others =>
      have later := tail_eq_of_cons_eq valid
      have first : rule.rule = some threshold := head_eq_of_cons_eq valid
      rcases evaluateRules_cons first rest with ⟨quiet, turn⟩ | ⟨signal, fires, turn⟩
      · rw [filterMap_cons_none quiet] at room ⊢
        rw [turn]
        exact ih later room
      · rw [filterMap_cons_some fires] at room ⊢
        rw [length_cons] at room
        rw [turn, push_of_lt signal (by omega)]
        have left : (signals.items ++ [signal]).length +
            (others.filterMap (ruleSignal (fallbackEvent record))).length ≤ signals.capacity := by
          rw [length_append, length_singleton]
          omega
        obtain ⟨items, evaluated, same⟩ := @ih { signals with items := signals.items ++ [signal] } others later left
        refine ⟨items, evaluated, ?_⟩
        rw [same, map_append, append_assoc]
        rfl

variable {python : PythonRuleState}

private theorem evaluateCepRules_cons {rule : CepRule} (counts : rule.windowType = .count)
    (fed : python.Fed rule (fedValues rule history)) (nowMs : Nat) (rest : List PythonRuleState) :
    ∃ next : PythonRuleState, next.Fed rule (fedValues rule (history ++ [fallbackEvent record])) ∧
      (cepSignal history (fallbackEvent record) rule = none ∧
          Fallback.State.evaluateCepRules record nowMs (python :: rest) signals =
            (Fallback.State.evaluateCepRules record nowMs rest signals).map
              (fun (states, signals) => (next :: states, signals)) ∨
        ∃ signal, cepSignal history (fallbackEvent record) rule = some (fallbackSignal signal) ∧
          Fallback.State.evaluateCepRules record nowMs (python :: rest) signals =
            (Fallback.State.evaluateCepRules record nowMs rest (signals.push signal).2).map
              (fun (states, signals) => (next :: states, signals))) := by
  by_cases same : rule.eventId = record.eventId
  · obtain ⟨matched, aggregated, next, reported, after, found⟩ := fed.onEvent counts record.metricValue nowMs
    have here : rule.eventId = (fallbackEvent record).eventId := same
    rw [fedValues_of_eq here, cepSignal_of_eq here found, Fallback.State.evaluateCepRules,
      if_neg (not_not_intro (by rw [fed.rule_eq, same])), reported, fed.rule_eq]
    refine ⟨next, after, ?_⟩
    cases matched with
    | false => exact .inl ⟨rfl, by rw [Option.map_eq_bind]; rfl⟩
    | true => exact .inr ⟨_, rfl, by rw [Option.map_eq_bind]; rfl⟩
  · have elsewhere : rule.eventId ≠ (fallbackEvent record).eventId := same
    rw [fedValues_of_ne elsewhere, cepSignal_of_ne elsewhere, Fallback.State.evaluateCepRules,
      if_pos (by rw [fed.rule_eq]; exact same)]
    exact ⟨python, fed, .inl ⟨rfl, by rw [Option.map_eq_bind]; rfl⟩⟩

private theorem evaluateCepRules_signals {rules : List CepRule} {states : List PythonRuleState}
    (counts : ∀ rule ∈ rules, rule.windowType = .count) (fed : List.Forall₂ (fun rule (python : PythonRuleState) =>
      python.Fed rule (fedValues rule history)) rules states) (nowMs : Nat) (room : signals.items.length +
      (rules.filterMap (cepSignal history (fallbackEvent record))).length ≤ signals.capacity) :
    ∃ next items, Fallback.State.evaluateCepRules record nowMs states signals = some (next, { signals with items }) ∧
      List.Forall₂ (fun rule (python : PythonRuleState) =>
        python.Fed rule (fedValues rule (history ++ [fallbackEvent record]))) rules next ∧
      items.map fallbackSignal = signals.items.map fallbackSignal ++
        rules.filterMap (cepSignal history (fallbackEvent record)) := by
  induction fed generalizing signals with
  | nil => exact ⟨[], signals.items, rfl, .nil, (append_nil _).symm⟩
  | @cons rule python rules states first others ih =>
    rw [forall_mem_cons] at counts
    obtain ⟨next, after, ⟨quiet, turn⟩ | ⟨signal, fires, turn⟩⟩ := evaluateCepRules_cons counts.1 first nowMs states
    · rw [filterMap_cons_none quiet] at room ⊢
      obtain ⟨fed, items, evaluated, later, same⟩ := ih counts.2 room
      exact ⟨next :: fed, items, by rw [turn, evaluated]; rfl, .cons after later, same⟩
    · rw [filterMap_cons_some fires] at room ⊢
      rw [length_cons] at room
      have left : (signals.items ++ [signal]).length +
          (rules.filterMap (cepSignal history (fallbackEvent record))).length ≤ signals.capacity := by
        rw [length_append, length_singleton]
        omega
      obtain ⟨fed, items, evaluated, later, same⟩ :=
        @ih { signals with items := signals.items ++ [signal] } counts.2 left
      refine ⟨next :: fed, items, ?_, .cons after later, ?_⟩
      · rw [turn, push_of_lt signal (by omega), evaluated]
        rfl
      · rw [same, map_append, append_assoc]
        rfl

/-- `_evaluate` brings the state to the history with the record, provided the signals of
the longer history have room. -/
theorem Tracks.evaluate {contract : Contract} {state : Fallback.State} (tracks : Tracks contract history state)
    (counts : ∀ rule ∈ contract.cepRules, rule.windowType = .count) (record : TelemetryRecord) (nowMs : Nat)
    (room : (stream contract.rules contract.cepRules (history ++ [fallbackEvent record])).length ≤
      state.signals.capacity) : ∃ cepRules items, state.evaluate record nowMs =
        some { state with cepRules, signals := { state.signals with items } } ∧
      Tracks contract (history ++ [fallbackEvent record])
        { state with cepRules, signals := { state.signals with items } } := by
  have lengths := congrArg List.length tracks.signals
  rw [length_map] at lengths
  rw [stream_concat, signalsOf, length_append, length_append] at room
  have enough : state.signals.items.length + (contract.rules.filterMap (ruleSignal (fallbackEvent record))).length ≤
        state.signals.capacity := by omega
  obtain ⟨middle, rules, first⟩ := evaluateRules_signals tracks.rules enough
  have sofar := congrArg List.length first
  rw [length_map, length_append, length_map] at sofar
  have left : middle.length + (contract.cepRules.filterMap
      (cepSignal history (fallbackEvent record))).length ≤ state.signals.capacity := by omega
  obtain ⟨cepRules, items, evaluated, fed, second⟩ := @evaluateCepRules_signals record
    { state.signals with items := middle } history contract.cepRules state.cepRules counts
    tracks.cepRules nowMs left
  refine ⟨cepRules, items, ?_, tracks.rules, fed, ?_⟩
  · rw [Fallback.State.evaluate, rules, evaluated]
    rfl
  · rw [stream_concat, signalsOf, ← append_assoc, ← tracks.signals, ← first]
    exact second

def workerRest : Fallback.Worker → List TelemetryRecord
  | .readClock batch => batch
  | .evaluating _ rest _ => rest
  | _ => []

/-- Nobody records while the worker runs, so a queue it has found empty stays empty. -/
def SawEmpty (items : List TelemetryRecord) : Fallback.Worker → Prop
  | .readClock batch => batch = [] → items = []
  | .evaluating filled rest _ => filled = false → rest = [] ∧ items = []
  | .testRunning | .exited => items = []
  | .absent => False
  | .opening | .popping | .sleeping => True

structure Prepared (capacity : Nat) (contract : Contract) (state : Fallback.State) : Prop where
  tracks : Tracks contract [] state
  events : state.ring.items.map fallbackEvent = contract.events
  ringCapacity : state.ring.capacity = capacity
  signalsCapacity : state.signals.capacity = capacity
  worker : state.worker = .absent

structure Draining (capacity : Nat) (contract : Contract) (state : Fallback.State) : Prop where
  bounded : contract.Bounded capacity
  signalsCapacity : state.signals.capacity = capacity
  saw : SawEmpty state.ring.items state.worker
  split : ∃ history, Tracks contract history state ∧
    contract.events = history ++ (workerRest state.worker ++ state.ring.items).map fallbackEvent

def FallbackRests (capacity : Nat) (state : Fallback.State) (contract : Contract) : Prop :=
  state.control = .idle ∧
    match contract.phase with
    | .setup => state.running = false ∧ Prepared capacity contract state
    | .logging => state.running = true ∧ Draining capacity contract state
    | .stopped => state.worker = .absent ∧ state.signals.items.map fallbackSignal = contract.signals

def FallbackBusy (capacity : Nat) (state : Fallback.State) (contract : Contract) : Request → Prop
  | .startLogging => state.running = true ∧
      (state.control = .starting ∧ contract.Bounded capacity ∧ Prepared capacity contract state ∨
        state.control = .idle ∧ Draining capacity contract state)
  | .stopLogging =>
    state.control = .joining ∧ state.running = false ∧ Draining capacity contract state ∨
      state.control = .idle ∧ state.worker = .absent ∧ state.signals.items.map fallbackSignal = contract.stream
  | .setup _ | .pollSignals _ => False

variable {capacity : Nat} {contract : Contract} {state next : Fallback.State} {action : Fallback.Action}

def workerAction : Fallback.Action → Bool
  | .spawn | .join => false
  | .openLog _ | .clock _ | .drain _ | .work => true

private theorem worker_ne_absent (own : workerAction action = true)
    (ran : Fallback.step state action = some next) : state.worker ≠ .absent := by
  intro absent
  cases action with
  | spawn | join => cases own
  | openLog | clock | drain => simp [Fallback.step, absent] at ran
  | work => simp [Fallback.step, Fallback.State.work, absent] at ran

theorem Draining.drain (draining : Draining capacity contract state) {filled : Bool}
    {rest : List TelemetryRecord} (here : state.worker = .evaluating filled (record :: rest) nowMs) :
    ∃ cepRules items, state.evaluate record nowMs =
        some { state with cepRules, signals := { state.signals with items } } ∧
      Draining capacity contract
        { state with
          cepRules
          signals := { state.signals with items }
          logFile := state.logFile ++ [record]
          worker := .evaluating filled rest nowMs } := by
  obtain ⟨bounded, size, saw, history, tracks, events⟩ := draining
  rw [here] at events saw
  have longer : contract.events = (history ++ [fallbackEvent record]) ++
      (rest ++ state.ring.items).map fallbackEvent := by
    rw [events, append_assoc]
    rfl
  have inside : history ++ [fallbackEvent record] <+: contract.events := ⟨_, longer.symm⟩
  have room := (length_stream_le contract.rules contract.cepRules inside).trans bounded.few.le
  obtain ⟨cepRules, items, evaluated, after⟩ := tracks.evaluate bounded.counts record nowMs (size ▸ room)
  refine ⟨cepRules, items, evaluated, bounded, size, ?_, _, { after with }, longer⟩
  intro empty
  cases (saw empty).1

def workerStage : Fallback.Worker → Nat
  | .opening | .sleeping => 6
  | .evaluating true [] _ => 5
  | .popping => 4
  | .readClock _ => 3
  | .evaluating _ _ _ => 2
  | .testRunning => 1
  | .exited | .absent => 0

/-- A record less outweighs every point of the loop. -/
def workLeft (state : Fallback.State) : Nat :=
  7 * (workerRest state.worker ++ state.ring.items).length + workerStage state.worker

/-- What a step of the worker comes to; once it is asked to stop it gets closer to its end. -/
structure Drains (capacity : Nat) (contract : Contract) (state next : Fallback.State) : Prop where
  draining : Draining capacity contract next
  control : next.control = state.control
  running : next.running = state.running
  closer : state.running = false → workLeft next < workLeft state

section
variable (draining : Draining capacity contract state)
include draining

theorem Draining.goTo {worker : Fallback.Worker}
    (rest : workerRest worker = workerRest state.worker) (saw : SawEmpty state.ring.items worker)
    (less : state.running = false → workerStage worker < workerStage state.worker) :
    Drains capacity contract state { state with worker } := by
  obtain ⟨bounded, size, -, history, tracks, events⟩ := draining
  refine ⟨⟨bounded, size, saw, history, { tracks with }, ?_⟩, rfl, rfl, fun asked => ?_⟩
  · rw [rest]
    exact events
  · rw [workLeft, workLeft, rest]
    exact Nat.add_lt_add_left (less asked) _

/-- The records of a batch have left the queue from the front. -/
theorem Draining.popBatch (here : state.worker = .popping) : Drains capacity contract state { state with
        ring := (state.ring.popBatch 1024).2
        worker := .readClock (state.ring.popBatch 1024).1 } := by
  obtain ⟨bounded, size, -, history, tracks, events⟩ := draining
  rw [here] at events
  refine ⟨⟨bounded, size, ?_, history, { tracks with }, ?_⟩, rfl, rfl, fun _ => ?_⟩
  · intro none
    rcases take_eq_nil_iff.mp none with zero | empty
    · cases zero
    · change state.ring.items.drop 1024 = []
      rw [empty, drop_nil]
  · change contract.events = history ++ (state.ring.items.take 1024 ++ state.ring.items.drop 1024).map fallbackEvent
    rw [take_append_drop]
    exact events
  · simp [workLeft, workerRest, workerStage, here, BoundedQueue.popBatch]

theorem Draining.work (ran : state.work = some next) : Drains capacity contract state next := by
  have saw := draining.saw
  unfold Fallback.State.work at ran
  split at ran
  case h_1 here =>
    cases ran
    exact draining.popBatch here
  case h_2 filled now here =>
    cases ran
    rw [here] at saw
    apply draining.goTo <;> cases filled <;> simp [here, workerRest, workerStage, SawEmpty]
    exact (saw rfl).2
  case h_3 here =>
    cases ran
    rw [here] at saw
    apply draining.goTo <;> cases state.running <;>
      simp [here, workerRest, workerStage, SawEmpty]
    exact saw
  case h_4 here =>
    cases ran
    exact draining.goTo (by rw [here]; rfl) trivial (by simp [here, workerStage])
  case h_5 => cases ran

theorem Draining.step (own : workerAction action = true) (works : LogWorks state action)
    (ran : Fallback.step state action = some next) : Drains capacity contract state next := by
  cases action with
  | spawn | join => cases own
  | openLog opens =>
    cases works
    simp only [Fallback.step] at ran
    split at ran
    case h_1 here =>
      cases ran
      exact draining.goTo (by rw [here]; rfl) trivial (by simp [here, workerStage])
    case h_2 => cases ran
  | clock nowMs =>
    simp only [Fallback.step] at ran
    split at ran
    case h_1 batch here =>
      cases ran
      have saw := draining.saw
      rw [here] at saw
      refine draining.goTo (by rw [here]; rfl) (fun empty => ?_) fun _ => ?_
      · rw [Bool.not_eq_false', List.isEmpty_iff] at empty
        exact ⟨empty, saw empty⟩
      · cases batch <;> simp [here, workerStage]
    case h_2 => cases ran
  | drain writes =>
    cases works
    simp only [Fallback.step] at ran
    split at ran
    case h_1 filled record rest nowMs here =>
      obtain ⟨cepRules, items, evaluated, drained⟩ := draining.drain here
      rw [evaluated] at ran
      cases ran
      refine ⟨drained, rfl, rfl, fun _ => ?_⟩
      have stage : workerStage (.evaluating filled rest nowMs) ≤ 5 := by
        cases filled <;> cases rest <;> simp [workerStage]
      simp only [workLeft, workerRest, here, length_append, length_cons, if_true]
      omega
    case h_2 => cases ran
  | work => exact draining.work ran

end

theorem Draining.enabled (draining : Draining capacity contract state) (more : state.worker ≠ .exited) :
    ∃ action next, workerAction action = true ∧ LogWorks state action ∧ Fallback.step state action = some next := by
  cases here : state.worker with
  | absent =>
    have saw := draining.saw
    rw [here] at saw
    cases saw
  | exited => exact absurd here more
  | opening => exact ⟨.openLog true, _, rfl, rfl, by simp only [Fallback.step, here]; rfl⟩
  | readClock batch => exact ⟨.clock 0, _, rfl, trivial, by simp only [Fallback.step, here]; rfl⟩
  | popping | testRunning | sleeping =>
    exact ⟨.work, _, rfl, trivial, by simp only [Fallback.step, Fallback.State.work, here]; rfl⟩
  | evaluating filled rest nowMs =>
    cases rest with
    | nil =>
      exact ⟨.work, _, rfl, trivial, by simp only [Fallback.step, Fallback.State.work, here]; rfl⟩
    | cons record rest =>
      obtain ⟨cepRules, items, evaluated, -⟩ := draining.drain here
      exact ⟨.drain true, _, rfl, rfl, by simp only [Fallback.step, here, evaluated]; rfl⟩

/-- After a request to stop the worker has seen every record when it ends. -/
theorem Draining.exits (draining : Draining capacity contract state)
    (asked : state.running = false) (joining : state.control = .joining) :
    ∃ finish, Reaches Fallback.step LogWorks state finish ∧
      (Draining capacity contract finish ∧ finish.running = false ∧
        finish.control = .joining) ∧ finish.worker = .exited := by
  refine Reaches.progress workLeft ⟨draining, asked, joining⟩ ?_
  rintro middle ⟨draining, asked, joining⟩ more
  obtain ⟨action, next, own, works, ran⟩ := draining.enabled more
  obtain ⟨drained, control, running, closer⟩ := draining.step own works ran
  exact ⟨action, next, works, ran, ⟨drained, running.trans asked, control.trans joining⟩, closer asked⟩

theorem Tracks.initial : Tracks {} [] (Fallback.init capacity) := ⟨rfl, .nil, rfl⟩

theorem fallbackRests_init (capacity : Nat) : FallbackRests capacity (Fallback.init capacity) {} :=
  ⟨rfl, rfl, .initial, rfl, rfl, rfl, rfl⟩

theorem Prepared.set (prepared : Prepared capacity contract state) (cycles : Nat) (call : Setup) :
    (fallbackSet state cycles call).1 = (contract.set capacity call).1 ∧
      Prepared capacity (contract.set capacity call).2 (fallbackSet state cycles call).2 := by
  have tracks := prepared.tracks
  cases call with
  | addRule arguments =>
    rw [fallbackSet, addRule_eq, Contract.set]
    cases valid : arguments.rule with
    | none => exact ⟨rfl, prepared⟩
    | some rule =>
      refine ⟨rfl, { prepared with tracks := { tracks with rules := ?_ } }⟩
      rw [map_append, map_append, tracks.rules, map_singleton, valid]
      rfl
  | addCepRule arguments =>
    rw [fallbackSet, addCepRule_eq, Contract.set]
    cases valid : arguments.rule with
    | none => exact ⟨rfl, prepared⟩
    | some rule =>
      refine ⟨rfl, { prepared with tracks := { tracks with cepRules := ?_ } }⟩
      exact rel_append tracks.cepRules (.cons (PythonRuleState.fed_new rule) .nil)
  | recordEvent event =>
    have lengths := congrArg List.length prepared.events
    have size := prepared.ringCapacity
    rw [length_map] at lengths
    rw [fallbackSet, Fallback.State.recordEvent, Contract.set]
    by_cases room : contract.events.length < capacity
    · rw [if_pos room, push_of_lt _ (by omega)]
      refine ⟨rfl, { prepared with tracks := { tracks with }, events := ?_ }⟩
      rw [map_append, prepared.events]
      rfl
    · have full : ¬ state.ring.items.length < state.ring.capacity := by omega
      rw [if_neg room, BoundedQueue.push, if_pos (Nat.not_lt.mp full)]
      exact ⟨rfl, { prepared with tracks := { tracks with } }⟩

private theorem fallbackSet_control (state : Fallback.State) (cycles : Nat) (call : Setup) :
    (fallbackSet state cycles call).2.control = state.control ∧
      (fallbackSet state cycles call).2.running = state.running := by
  cases call with
  | addRule arguments =>
    rw [fallbackSet, addRule_eq]
    cases arguments.rule <;> exact ⟨rfl, rfl⟩
  | addCepRule arguments =>
    rw [fallbackSet, addCepRule_eq]
    cases arguments.rule <;> exact ⟨rfl, rfl⟩
  | recordEvent event => exact ⟨rfl, rfl⟩

theorem Prepared.spawned (prepared : Prepared capacity contract state) (bounded : contract.Bounded capacity)
    (control : Fallback.Control) : Draining capacity contract { state with worker := .opening, control } := by
  exact ⟨bounded, prepared.signalsCapacity, trivial, [], { prepared.tracks with }, prepared.events.symm⟩

theorem Draining.signals_of_exited (draining : Draining capacity contract state) (ended : state.worker = .exited) :
    state.signals.items.map fallbackSignal = contract.stream := by
  obtain ⟨-, -, saw, history, tracks, events⟩ := draining
  rw [ended] at saw events
  have empty : state.ring.items = [] := saw
  have all : contract.events = history := by
    rw [events, empty]
    exact append_nil history
  rw [tracks.signals, Contract.stream, all]

/-- The client's own steps inside a call. -/
theorem client_cases (ran : Fallback.step state action = some next) : workerAction action = true ∨
      state.control = .starting ∧ next = { state with worker := .opening, control := .idle } ∨
      state.control = .joining ∧ state.worker = .exited ∧
        next = { state with worker := .absent, control := .idle } := by
  cases action with
  | openLog | clock | drain | work => exact .inl rfl
  | spawn =>
    simp only [Fallback.step] at ran
    split at ran <;> cases ran
    exact .inr (.inl ⟨‹_›, rfl⟩)
  | join =>
    simp only [Fallback.step] at ran
    split at ran <;> cases ran
    exact .inr (.inr ⟨‹_›, ‹_›, rfl⟩)

theorem FallbackRests.step (rests : FallbackRests capacity state contract) (works : LogWorks state action)
    (ran : Fallback.step state action = some next) : FallbackRests capacity next contract := by
  obtain ⟨idle, holds⟩ := rests
  rcases client_cases ran with own | ⟨control, -⟩ | ⟨control, -⟩
  · unfold FallbackRests
    cases phase : contract.phase with
    | setup =>
      rw [phase] at holds
      exact absurd holds.2.worker (worker_ne_absent own ran)
    | logging =>
      rw [phase] at holds
      obtain ⟨drained, control, running, -⟩ := holds.2.step own works ran
      exact ⟨control.trans idle, running.trans holds.1, drained⟩
    | stopped =>
      rw [phase] at holds
      exact absurd holds.1 (worker_ne_absent own ran)
  · cases idle.symm.trans control
  · cases idle.symm.trans control

variable {request : Request}

theorem FallbackBusy.step (busy : FallbackBusy capacity state contract request) (works : LogWorks state action)
    (ran : Fallback.step state action = some next) : FallbackBusy capacity next contract request := by
  cases request with
  | setup | pollSignals => cases busy
  | startLogging =>
    obtain ⟨running, ⟨starting, bounded, prepared⟩ | ⟨idle, draining⟩⟩ := busy
    · rcases client_cases ran with own | ⟨-, rfl⟩ | ⟨control, -⟩
      · exact absurd prepared.worker (worker_ne_absent own ran)
      · exact ⟨running, .inr ⟨rfl, prepared.spawned bounded .idle⟩⟩
      · cases starting.symm.trans control
    · rcases client_cases ran with own | ⟨control, -⟩ | ⟨control, -⟩
      · obtain ⟨drained, control, same, -⟩ := draining.step own works ran
        exact ⟨same.trans running, .inr ⟨control.trans idle, drained⟩⟩
      · cases idle.symm.trans control
      · cases idle.symm.trans control
  | stopLogging =>
    rcases busy with ⟨joining, asked, draining⟩ | ⟨idle, absent, signals⟩
    · rcases client_cases ran with own | ⟨control, -⟩ | ⟨-, ended, rfl⟩
      · obtain ⟨drained, control, same, -⟩ := draining.step own works ran
        exact .inl ⟨control.trans joining, same.trans asked, drained⟩
      · cases joining.symm.trans control
      · exact .inr ⟨rfl, rfl, draining.signals_of_exited ended⟩
    · rcases client_cases ran with own | ⟨control, -⟩ | ⟨control, -⟩
      · exact absurd absent (worker_ne_absent own ran)
      · cases idle.symm.trans control
      · cases idle.symm.trans control

theorem FallbackBusy.finishes (busy : FallbackBusy capacity state contract request) :
    ∃ finish, Reaches Fallback.step LogWorks state finish ∧ (fallback.reply finish request).isSome = true := by
  cases request with
  | setup | pollSignals => cases busy
  | startLogging =>
    obtain ⟨-, ⟨starting, -, -⟩ | ⟨idle, -⟩⟩ := busy
    · have spawned : Fallback.step state .spawn =
          some { state with worker := .opening, control := .idle } := if_pos starting
      have works : LogWorks state .spawn := trivial
      exact ⟨_, .single works spawned, rfl⟩
    · refine ⟨state, .refl, ?_⟩
      simp [fallback, idle]
  | stopLogging =>
    rcases busy with ⟨joining, asked, draining⟩ | ⟨idle, -, -⟩
    · obtain ⟨finish, path, ⟨-, -, control⟩, ended⟩ := draining.exits asked joining
      have joined : Fallback.step finish .join = some { finish with worker := .absent, control := .idle } := by
        simp only [Fallback.step, control, ended]
      have works : LogWorks finish .join := trivial
      exact ⟨_, .step path works joined, rfl⟩
    · refine ⟨state, .refl, ?_⟩
      simp [fallback, idle]

variable {after : Contract}

theorem FallbackRests.atOnce {reply result : Reply} {cycles : Nat} (rests : FallbackRests capacity state contract)
    (called : contract.call capacity request = some (reply, after))
    (began : fallback.begin state request cycles = some (next, some result)) :
    result = reply ∧ FallbackRests capacity next after := by
  obtain ⟨idle, holds⟩ := rests
  cases Contract.serves_of_call called with
  | setup call phase =>
    rw [phase] at holds
    cases began
    obtain ⟨same, prepared⟩ := holds.2.set cycles call
    obtain ⟨control, running⟩ := fallbackSet_control state cycles call
    refine ⟨congrArg Reply.flag same, control.trans idle, ?_⟩
    rw [Contract.set_phase, phase]
    exact ⟨running.trans holds.1, prepared⟩
  | startLogging phase | stopLogging phase =>
    rw [phase] at holds
    simp [fallback, holds.1] at began
  | pollSignals maxCount phase =>
    rw [phase] at holds
    cases began
    obtain ⟨absent, signals⟩ := holds
    refine ⟨?_, idle, ?_⟩
    · rw [Fallback.State.pollSignals, BoundedQueue.popBatch, map_take, signals]
    · simp only [phase]
      refine ⟨absent, ?_⟩
      rw [Fallback.State.pollSignals, BoundedQueue.popBatch, map_drop, signals]

theorem FallbackRests.underWay {reply : Reply} {cycles : Nat} (rests : FallbackRests capacity state contract)
    (called : contract.call capacity request = some (reply, after))
    (began : fallback.begin state request cycles = some (next, none)) :
    FallbackBusy capacity next contract request := by
  obtain ⟨idle, holds⟩ := rests
  cases Contract.serves_of_call called with
  | setup call phase | pollSignals maxCount phase => cases began
  | startLogging phase bounded =>
    rw [phase] at holds
    obtain ⟨stopped, prepared⟩ := holds
    simp only [fallback, Fallback.State.startLogging, stopped] at began
    cases began
    exact ⟨rfl, .inl ⟨rfl, bounded, { prepared with tracks := { prepared.tracks with } }⟩⟩
  | stopLogging phase =>
    rw [phase] at holds
    obtain ⟨running, draining⟩ := holds
    simp only [fallback, Fallback.State.stopLogging, running] at began
    cases began
    obtain ⟨bounded, size, saw, history, tracks, events⟩ := draining
    exact .inl ⟨rfl, rfl, bounded, size, saw, history, { tracks with }, events⟩

theorem FallbackBusy.replies {reply result : Reply} (busy : FallbackBusy capacity state contract request)
    (called : contract.call capacity request = some (reply, after))
    (replied : fallback.reply state request = some result) : result = reply ∧ FallbackRests capacity state after := by
  cases Contract.serves_of_call called with
  | setup | pollSignals => cases busy
  | startLogging =>
    simp only [fallback] at replied
    split at replied
    case isTrue idle =>
      cases replied
      obtain ⟨running, ⟨starting, -⟩ | ⟨-, draining⟩⟩ := busy
      · rw [idle] at starting
        cases starting
      · obtain ⟨bounded, size, saw, history, tracks, events⟩ := draining
        exact ⟨rfl, idle, running, { bounded with }, size, saw, history, { tracks with }, events⟩
    case isFalse => cases replied
  | stopLogging =>
    simp only [fallback] at replied
    split at replied
    case isTrue idle =>
      cases replied
      rcases busy with ⟨joining, -⟩ | ⟨-, absent, signals⟩
      · rw [idle] at joining
        cases joining
      · exact ⟨rfl, idle, absent, signals⟩
    case isFalse => cases replied

theorem fallback_keeps (capacity : Nat) :
    Keeps fallback LogWorks (Contract.call capacity) (FallbackRests capacity) (FallbackBusy capacity) where
  rests_step := FallbackRests.step
  busy_step := FallbackBusy.step
  begins := by
    intro state contract request reply after rests called
    cases request <;> exact ⟨0, _, rfl⟩
  atOnce := FallbackRests.atOnce
  underWay := FallbackRests.underWay
  replies := FallbackBusy.replies
  finishes := FallbackBusy.finishes

end AnimusCore.Parity
