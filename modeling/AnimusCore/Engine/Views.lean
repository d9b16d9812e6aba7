import AnimusCore.Engine.Rings

/-! The engine with its two rings as their callers see them, and what a step of the
engine is at that level. -/

set_option autoImplicit false

namespace AnimusCore.Engine

open Lib Lib.Ring RingBuffer

abbrev View (Thread : Type) :=
  Core Thread (Summary (Party Thread) (Record Thread)) (Summary (Party Thread) ThreatSignal)

def State.view {Thread : Type} (state : State Thread) : View Thread :=
  { state with ring := state.ring.summary, signalRing := state.signalRing.summary }

section

variable {Thread : Type}

/-- The head of the loop of `record_batch`, with the number of events pushed. -/
inductive Records (view : View Thread) :
    Action Thread → Thread → List RawEvent → Nat → Nat × Nat → UInt64 → Prop where
  | record {thread : Thread} {event : RawEvent} {cycles : UInt64} : view.callers thread = .idle →
      Records view (.record thread event cycles) thread [event] 0 view.registered cycles
  | recordBatch {thread : Thread} {events : List RawEvent} {cycles : UInt64} : view.callers thread = .idle →
      Records view (.recordBatch thread events cycles) thread events 0 view.registered cycles
  | resume {thread : Thread} {events : List RawEvent} {pushed : Nat} {began : Nat × Nat}
      {record : Record Thread} {cycles : UInt64} :
      view.callers thread = .recording events pushed began →
      view.ring.phases (.caller thread) = .pushed record →
      Records view (.resume thread cycles) thread events (pushed + 1) began cycles

/-- The head of the loop of `poll_signals`, with the signals copied out. -/
inductive Polls (view : View Thread) : Action Thread → Thread → Nat → List ThreatSignal → Prop where
  | pollSignals {thread : Thread} {maxCount : Nat} : view.callers thread = .idle →
      Polls view (.pollSignals thread maxCount) thread maxCount []
  | resume {thread : Thread} {maxCount : Nat} {out : List ThreatSignal} {signal : ThreatSignal} {cycles : UInt64} :
      view.callers thread = .polling maxCount out →
      view.signalRing.phases (.caller thread) = .popped signal →
      Polls view (.resume thread cycles) thread maxCount (out ++ [signal])

/-- The head of the worker's inner loop, with the batch so far. -/
inductive Collects (view : View Thread) : Action Thread → List (Record Thread) → Prop where
  | opening : view.worker = .opening → Collects view (.tryOpen true) []
  | reopening : view.worker = .sinkWait → Collects view (.tryOpen true) []
  | item {batch : List (Record Thread)} {item : Record Thread} :
      view.worker = .popping batch → view.ring.phases .worker = .popped item →
      Collects view .work (batch ++ [item])
  | written {stored : List (Record Thread)} : view.worker = .writing stored [] → Collects view .work []
  | again : view.worker = .testRunning → view.running = true → Collects view .work []

inductive ControlStep (view : View Thread) : Action Thread → View Thread → Prop where
  | startPersistence : view.unoccupied = true → ControlStep view .startPersistence { view with control := .startLoad }
  | stopPersistence : view.unoccupied = true → ControlStep view .stopPersistence
        { view with control := .stopLoad ⟨view.calls, view.ring.published⟩ }
  | started : view.control = .startLoad → view.running = true →
      ControlStep view .control { view with control := .idle }
  | starts : view.control = .startLoad → view.running = false →
      ControlStep view .control { view with control := .startStore }
  | startStore : view.control = .startStore →
      ControlStep view .control { view with running := true, control := .startSpawn }
  | startSpawn : view.control = .startSpawn → view.worker = .absent →
      ControlStep view .control { view with worker := .opening, control := .idle }
  | stops {asked : Asked Thread} : view.control = .stopLoad asked → view.running = true →
      ControlStep view .control { view with control := .stopStore asked }
  | unstarted {asked : Asked Thread} : view.control = .stopLoad asked → view.running = false →
      ControlStep view .control { view with control := .stopped asked }
  | stopStore {asked : Asked Thread} : view.control = .stopStore asked →
      ControlStep view .control { view with running := false, control := .stopJoin asked }
  | stopJoin {asked : Asked Thread} : view.control = .stopJoin asked → view.worker = .exited →
      ControlStep view .control { view with worker := .absent, control := .stopped asked }
  | unjoinable {asked : Asked Thread} : view.control = .stopJoin asked → view.worker = .absent →
      ControlStep view .control { view with control := .stopped asked }

inductive RegisterStep (view : View Thread) : Action Thread → View Thread → Prop where
  | addRule (arguments : RuleArguments) (allocates : Bool) : RegisterStep view (.addRule arguments allocates)
        { view with rules := (addRule view.rules arguments allocates).2 }
  | addCepRule (arguments : CepRuleArguments) (allocates : Bool) : RegisterStep view (.addCepRule arguments allocates)
        { view with cepRules := (addCepRule view.cepRules arguments allocates).2 }

variable [DecidableEq Thread]

inductive CallerStep (view : View Thread) : Action Thread → View Thread → Prop where
  | pushes {action : Action Thread} {thread : Thread} {events : List RawEvent} {pushed : Nat}
      {began : Nat × Nat} {cycles : UInt64} {event : RawEvent} :
      Records view action thread events pushed began cycles → events[pushed]? = some event →
      (view.ring.phases (.caller thread)).resting = true →
      CallerStep view action
        { view with
          ring := view.ring.go (.caller thread) (.unclaimed ⟨event.stamp cycles, thread, began⟩)
          callers := Function.update view.callers thread (.recording events pushed began) }
  | returns {action : Action Thread} {thread : Thread} {events : List RawEvent} {pushed : Nat}
      {began : Nat × Nat} {cycles : UInt64} :
      Records view action thread events pushed began cycles → events[pushed]? = none →
      CallerStep view action (view.returns thread events pushed)
  | refused {thread : Thread} {events : List RawEvent} {pushed : Nat} {began : Nat × Nat}
      {record : Record Thread} {cycles : UInt64} :
      view.callers thread = .recording events pushed began →
      view.ring.phases (.caller thread) = .full record →
      CallerStep view (.resume thread cycles) (view.returns thread events pushed)
  | pops {action : Action Thread} {thread : Thread} {maxCount : Nat} {out : List ThreatSignal} :
      Polls view action thread maxCount out → out.length < maxCount →
      (view.signalRing.phases (.caller thread)).resting = true →
      CallerStep view action
        { view with
          signalRing := view.signalRing.go (.caller thread) .seeking
          callers := Function.update view.callers thread (.polling maxCount out) }
  | filled {action : Action Thread} {thread : Thread} {maxCount : Nat} {out : List ThreatSignal} :
      Polls view action thread maxCount out → ¬ out.length < maxCount →
      CallerStep view action (view.pollReturns thread out)
  | empty {thread : Thread} {maxCount : Nat} {out : List ThreatSignal} {cycles : UInt64} :
      view.callers thread = .polling maxCount out →
      view.signalRing.phases (.caller thread) = .empty →
      CallerStep view (.resume thread cycles) (view.pollReturns thread out)

def View.emit (view : View Thread) (done rest : List (Record Thread)) (snapshot : Snapshot) :
    List ThreatSignal → View Thread
  | [] => { view with worker := .evaluating done rest snapshot }
  | signal :: signals =>
    { view with
      signalRing := view.signalRing.go .worker (.unclaimed signal)
      worker := .signalling done rest snapshot (signal :: signals) }

inductive WorkerStep (view : View Thread) : Action Thread → View Thread → Prop where
  | pops {action : Action Thread} {batch : List (Record Thread)} :
      Collects view action batch → batch.length < batchSize →
      (view.ring.phases .worker).resting = true →
      WorkerStep view action { view with ring := view.ring.go .worker .seeking, worker := .popping batch }
  | filled {action : Action Thread} {batch : List (Record Thread)} :
      Collects view action batch → ¬ batch.length < batchSize →
      WorkerStep view action { view with worker := .rulesLock batch }
  | openFails : view.worker = .opening ∨ view.worker = .sinkWait →
      WorkerStep view (.tryOpen false) { view with worker := .sinkDown }
  | sleep : view.worker = .sinkWait → WorkerStep view .sleep { view with worker := .sinkDown }
  | retries : view.worker = .sinkDown → view.running = true → WorkerStep view .work { view with worker := .sinkWait }
  | givesUp : view.worker = .sinkDown → view.running = false → WorkerStep view .work { view with worker := .exited }
  | drained : view.worker = .popping [] → view.ring.phases .worker = .empty →
      WorkerStep view .work { view with worker := .testRunning }
  | ends {batch : List (Record Thread)} : view.worker = .popping batch → batch ≠ [] →
      view.ring.phases .worker = .empty →
      WorkerStep view .work { view with worker := .rulesLock batch }
  | rulesLock {batch : List (Record Thread)} : view.worker = .rulesLock batch →
      WorkerStep view .work { view with worker := .cepRulesLock batch view.rules }
  | cepRulesLock {batch : List (Record Thread)} {rules : List RuleThreshold} :
      view.worker = .cepRulesLock batch rules →
      WorkerStep view .work { view with worker := .readClock batch rules view.cepRules.length }
  | readClock {batch : List (Record Thread)} {rules : List RuleThreshold} {cepRules : Nat}
      {nowMs : UInt64} : view.worker = .readClock batch rules cepRules →
      WorkerStep view (.clock nowMs) { view with worker := .evaluating [] batch ⟨rules, cepRules, nowMs⟩ }
  | evaluates {done rest : List (Record Thread)} {record : Record Thread}
      {snapshot : Snapshot} {signals : List ThreatSignal} {cepRules : List Cep.CepRuleState} :
      view.worker = .evaluating done (record :: rest) snapshot →
      evaluate record.payload snapshot.rules snapshot.cepRules snapshot.nowMs view.cepRules =
        some (signals, cepRules) →
      (signals ≠ [] → (view.signalRing.phases .worker).resting = true) →
      WorkerStep view .work
        (View.emit { view with
          cepRules
          evaluations := view.evaluations ++ [⟨record, snapshot.rules.length, snapshot.cepRules, snapshot.nowMs⟩] }
          (done ++ [record]) rest snapshot signals)
  | signals {done rest : List (Record Thread)} {snapshot : Snapshot} {signals : List ThreatSignal} :
      view.worker = .signalling done rest snapshot signals →
      (view.signalRing.phases .worker).resting = true →
      WorkerStep view .work (view.emit done rest snapshot signals.tail)
  | evaluated {done : List (Record Thread)} {snapshot : Snapshot} : view.worker = .evaluating done [] snapshot →
      WorkerStep view .work { view with worker := .writing [] done }
  | stores {stored rest : List (Record Thread)} {record : Record Thread} :
      view.worker = .writing stored (record :: rest) →
      WorkerStep view .work
        { view with
          logFile := view.logFile ++ [record]
          worker := .writing (stored ++ [record]) rest }
  | writeFails {rest : List (Record Thread)} {record : Record Thread} : view.worker = .writing [] (record :: rest) →
      WorkerStep view .writeFails { view with worker := .sinkDown }
  | exits : view.worker = .testRunning → view.running = false → WorkerStep view .work { view with worker := .exited }

inductive Step (view : View Thread) : Action Thread → View Thread → Prop where
  | ring {party : Party Thread} {ring : Summary (Party Thread) (Record Thread)} :
      Effect view.ring party ring → Step view (.ring party) { view with ring }
  | ringSpurious {party : Party Thread} : Step view (.ringSpurious party) view
  | signalRing {party : Party Thread} {signalRing : Summary (Party Thread) ThreatSignal} :
      Effect view.signalRing party signalRing →
      Step view (.signalRing party) { view with signalRing }
  | signalRingSpurious {party : Party Thread} : Step view (.signalRingSpurious party) view
  | caller {action : Action Thread} {after : View Thread} : CallerStep view action after → Step view action after
  | worker {action : Action Thread} {after : View Thread} : WorkerStep view action after → Step view action after
  | control {action : Action Thread} {after : View Thread} : ControlStep view action after → Step view action after
  | register {action : Action Thread} {after : View Thread} : RegisterStep view action after → Step view action after

end

variable {Thread : Type} [DecidableEq Thread] {capacity : Capacity}
  {state after : State Thread} {action : Action Thread} {thread : Thread}

private theorem recordFrom_callerStep {events : List RawEvent} {pushed : Nat} {began : Nat × Nat}
    {cycles : UInt64} (records : Records state.view action thread events pushed began cycles)
    (ran : state.recordFrom thread events pushed began cycles = some after) :
    CallerStep state.view action after.view := by
  unfold State.recordFrom at ran
  split at ran
  case h_1 last =>
    cases ran
    exact .returns records last
  case h_2 event found =>
    obtain ⟨ring, begun, rfl⟩ := Option.map_eq_some_iff.mp ran
    obtain ⟨rests, summary⟩ := begin_summary begun
    simp only [State.view, summary]
    exact .pushes records found rests

private theorem pollFrom_callerStep {maxCount : Nat} {out : List ThreatSignal}
    (polls : Polls state.view action thread maxCount out)
    (ran : state.pollFrom thread maxCount out = some after) : CallerStep state.view action after.view := by
  unfold State.pollFrom at ran
  split at ran
  case isTrue more =>
    obtain ⟨signalRing, begun, rfl⟩ := Option.map_eq_some_iff.mp ran
    obtain ⟨rests, summary⟩ := begin_summary begun
    simp only [State.view, summary]
    exact .pops polls more rests
  case isFalse last =>
    cases ran
    exact .filled polls last

private theorem recordBatch_callerStep {events : List RawEvent} {cycles : UInt64} (records : state.callers thread = .idle →
      Records state.view action thread events 0 state.view.registered cycles)
    (ran : state.recordBatch thread events cycles = some after) : CallerStep state.view action after.view := by
  unfold State.recordBatch at ran
  split at ran
  case h_1 idle => exact recordFrom_callerStep (records idle) ran
  case h_2 => cases ran

private theorem pollSignals_callerStep {maxCount : Nat} (ran : state.pollSignals thread maxCount = some after) :
    CallerStep state.view (.pollSignals thread maxCount) after.view := by
  unfold State.pollSignals at ran
  split at ran
  case h_1 idle => exact pollFrom_callerStep (.pollSignals idle) ran
  case h_2 => cases ran

private theorem resume_callerStep {cycles : UInt64} (ran : state.resume thread cycles = some after) :
    CallerStep state.view (.resume thread cycles) after.view := by
  unfold State.resume at ran
  split at ran
  case h_1 => cases ran
  case h_2 recording =>
    split at ran
    case h_1 returned =>
      exact recordFrom_callerStep (.resume recording (congrArg Access.phase returned)) ran
    case h_2 returned =>
      cases ran
      exact .refused recording (congrArg Access.phase returned)
    case h_3 => cases ran
  case h_3 polling =>
    split at ran
    case h_1 returned =>
      exact pollFrom_callerStep (.resume polling (congrArg Access.phase returned)) ran
    case h_2 returned =>
      cases ran
      exact .empty polling (congrArg Access.phase returned)
    case h_3 => cases ran

private theorem collect_workerStep {batch : List (Record Thread)} (collects : Collects state.view action batch)
    (ran : state.collect batch = some after) : WorkerStep state.view action after.view := by
  unfold State.collect at ran
  split at ran
  case isTrue more =>
    obtain ⟨ring, begun, rfl⟩ := Option.map_eq_some_iff.mp ran
    obtain ⟨rests, summary⟩ := begin_summary begun
    simp only [State.view, summary]
    exact .pops collects more rests
  case isFalse full =>
    cases ran
    exact .filled collects full

private theorem emit_view {done rest : List (Record Thread)} {snapshot : Snapshot} {signals : List ThreatSignal}
    (ran : state.emit done rest snapshot signals = some after) :
    after.view = state.view.emit done rest snapshot signals ∧
      (signals ≠ [] → (state.view.signalRing.phases .worker).resting = true) := by
  cases signals with
  | nil =>
    cases ran
    exact ⟨rfl, fun some => absurd rfl some⟩
  | cons signal signals =>
    obtain ⟨signalRing, begun, rfl⟩ := Option.map_eq_some_iff.mp ran
    obtain ⟨rests, summary⟩ := begin_summary begun
    refine ⟨?_, fun _ => rests⟩
    simp only [State.view, summary]
    rfl

private theorem tryOpen_workerStep {opens : Bool} (ran : state.tryOpen opens = some after) :
    WorkerStep state.view (.tryOpen opens) after.view := by
  unfold State.tryOpen at ran
  split at ran
  case h_1 opening =>
    cases opens with
    | true => exact collect_workerStep (.opening opening) ran
    | false =>
      cases ran
      exact .openFails (.inl opening)
  case h_2 waiting =>
    cases opens with
    | true => exact collect_workerStep (.reopening waiting) ran
    | false =>
      cases ran
      exact .openFails (.inr waiting)
  case h_3 => cases ran

private theorem work_workerStep (ran : state.work = some after) : WorkerStep state.view .work after.view := by
  unfold State.work at ran
  split at ran
  case h_1 down =>
    cases ran
    split
    case isTrue running => exact .retries down running
    case isFalse stopping => exact .givesUp down (Bool.not_eq_true _ ▸ stopping)
  case h_2 batch popping =>
    split at ran
    case h_1 item returned =>
      exact collect_workerStep (.item popping (congrArg Access.phase returned)) ran
    case h_2 returned =>
      cases ran
      cases batch with
      | nil => exact .drained popping (congrArg Access.phase returned)
      | cons record batch =>
        exact .ends popping (List.cons_ne_nil _ _) (congrArg Access.phase returned)
    case h_3 => cases ran
  case h_3 batch locking =>
    cases ran
    exact .rulesLock locking
  case h_4 batch rules locking =>
    cases ran
    exact .cepRulesLock locking
  case h_5 done snapshot evaluating =>
    cases ran
    exact .evaluated evaluating
  case h_6 done record rest snapshot evaluating =>
    obtain ⟨⟨signals, cepRules⟩, fired, emitted⟩ := Option.bind_eq_some_iff.mp ran
    obtain ⟨view, rests⟩ := emit_view emitted
    rw [view]
    exact .evaluates evaluating fired rests
  case h_7 done rest snapshot signals signalling =>
    split at ran
    case h_1 outcome returned =>
      rw [(emit_view ran).1]
      refine .signals signalling ?_
      have phase : state.view.signalRing.phases .worker = outcome.phase := congrArg Access.phase returned
      rw [phase]
      cases outcome <;> rfl
    case h_2 => cases ran
  case h_8 stored record rest writing =>
    cases ran
    exact .stores writing
  case h_9 stored writing => exact collect_workerStep (.written writing) ran
  case h_10 testing =>
    split at ran
    case isTrue running => exact collect_workerStep (.again testing running) ran
    case isFalse stopping =>
      cases ran
      exact .exits testing (Bool.not_eq_true _ ▸ stopping)
  all_goals cases ran

omit [DecidableEq Thread] in
private theorem startOrStop_controlStep (ran : state.startOrStop = some after) :
    ControlStep state.view .control after.view := by
  unfold State.startOrStop at ran
  split at ran
  case h_1 => cases ran
  case h_2 => cases ran
  case h_3 loading =>
    cases ran
    split
    case isTrue running => exact .started loading running
    case isFalse stopping => exact .starts loading (Bool.not_eq_true _ ▸ stopping)
  case h_4 storing =>
    cases ran
    exact .startStore storing
  case h_5 spawning =>
    split at ran
    case h_1 absent =>
      cases ran
      exact .startSpawn spawning absent
    case h_2 => cases ran
  case h_6 asked loading =>
    cases ran
    split
    case isTrue running => exact .stops loading running
    case isFalse stopping => exact .unstarted loading (Bool.not_eq_true _ ▸ stopping)
  case h_7 asked storing =>
    cases ran
    exact .stopStore storing
  case h_8 asked joining =>
    split at ran
    case h_1 exited =>
      cases ran
      exact .stopJoin joining exited
    case h_2 absent =>
      cases ran
      exact .unjoinable joining absent
    case h_3 => cases ran

theorem Tracked.view_step (tracked : Tracked capacity state)
    (ran : Engine.step exact capacity.size state action = some after) : Step state.view action after.view := by
  cases action with
  | record thread event cycles =>
    exact .caller (recordBatch_callerStep (fun idle => .record idle) ran)
  | recordBatch thread events cycles =>
    exact .caller (recordBatch_callerStep (fun idle => .recordBatch idle) ran)
  | pollSignals thread maxCount => exact .caller (pollSignals_callerStep ran)
  | resume thread cycles => exact .caller (resume_callerStep ran)
  | ring party =>
    obtain ⟨ring, accessed, rfl⟩ := Option.map_eq_some_iff.mp ran
    obtain ⟨tickets, tracks⟩ := tracked.ring
    exact .ring (tracks.access accessed).2
  | ringSpurious party =>
    obtain ⟨ring, failed, rfl⟩ := Option.map_eq_some_iff.mp ran
    simp only [State.view, summary_exchangeFails failed]
    exact .ringSpurious
  | signalRing party =>
    obtain ⟨signalRing, accessed, rfl⟩ := Option.map_eq_some_iff.mp ran
    obtain ⟨tickets, tracks⟩ := tracked.signalRing
    exact .signalRing (tracks.access accessed).2
  | signalRingSpurious party =>
    obtain ⟨signalRing, failed, rfl⟩ := Option.map_eq_some_iff.mp ran
    simp only [State.view, summary_exchangeFails failed]
    exact .signalRingSpurious
  | tryOpen opens => exact .worker (tryOpen_workerStep ran)
  | sleep =>
    simp only [Engine.step] at ran
    split at ran
    case h_1 waiting =>
      cases ran
      exact .worker (.sleep waiting)
    case h_2 => cases ran
  | clock nowMs =>
    simp only [Engine.step] at ran
    split at ran
    case h_1 reading =>
      cases ran
      exact .worker (.readClock reading)
    case h_2 => cases ran
  | work => exact .worker (work_workerStep ran)
  | writeFails =>
    simp only [Engine.step] at ran
    split at ran
    case h_1 writing =>
      cases ran
      exact .worker (.writeFails writing)
    case h_2 => cases ran
  | addRule arguments allocates =>
    cases ran
    exact .register (.addRule arguments allocates)
  | addCepRule arguments allocates =>
    cases ran
    exact .register (.addCepRule arguments allocates)
  | startPersistence =>
    simp only [Engine.step] at ran
    split at ran
    case isTrue free =>
      cases ran
      exact .control (.startPersistence free)
    case isFalse => cases ran
  | stopPersistence =>
    simp only [Engine.step] at ran
    split at ran
    case isTrue free =>
      cases ran
      exact .control (.stopPersistence free)
    case isFalse => cases ran
  | control => exact .control (startOrStop_controlStep ran)

theorem Tracked.step (tracked : Tracked capacity state)
    (ran : Engine.step exact capacity.size state action = some after) :
    Tracked capacity after ∧ Step state.view action after.view :=
  ⟨tracked.acts ran, tracked.view_step ran⟩

end AnimusCore.Engine
