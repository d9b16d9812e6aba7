import AnimusCore.Parity.Progress

/-! The calls of the client on the native engine. -/

set_option autoImplicit false

namespace AnimusCore.Parity

open Cep Engine Lib RingBuffer List

structure Before (capacity : Nat) (contract : Contract) (state : Engine.State Unit) : Prop where
  rules : state.rules = contract.rules
  cepRules : WindowsFed [] contract.cepRules state.cepRules
  evaluations : state.evaluations = []
  worker : state.worker = .absent
  signals : Holds capacity state.signalRing []

structure After (capacity : Nat) (state : Engine.State Unit) : Prop where
  worker : state.worker = .absent
  control : ∃ asked, state.control = .stopped asked
  ring : ∃ records, Holds capacity state.ring records

section
variable (capacity : Nat)

def HoldsEvents (state : Engine.State Unit) (events : List RawEvent) : Prop :=
  ∃ records, Holds capacity state.ring records ∧ records.map Record.event = events

def HoldsSignals (state : Engine.State Unit) (signals : List Observed) : Prop :=
  ∃ items, Holds capacity state.signalRing items ∧ items.map nativeSignal = signals

def NativeRests (state : Engine.State Unit) (contract : Contract) : Prop :=
  match contract.phase with
  | .setup => state.control = .idle ∧ state.running = false ∧ state.callers () = .idle ∧
      Before capacity contract state ∧ HoldsEvents capacity state contract.events
  | .logging => state.control = .idle ∧ state.running = true ∧ contract.Bounded capacity ∧
      Working capacity contract state
  | .stopped => After capacity state ∧ state.callers () = .idle ∧ HoldsSignals capacity state contract.signals

/-- The call is in its push, or it has returned and the contract's event is in the ring. -/
def Recording (contract : Contract) (event : RawEvent) (state : Engine.State Unit) : Prop :=
  (∃ record records began, state.callers () = .recording [event] 0 began ∧
      Pushing capacity (.caller ()) record state.ring records ∧ record.event = event ∧
      records.map Record.event = contract.events) ∨
    state.callers () = .idle ∧ HoldsEvents capacity state (contract.set capacity (.recordEvent event)).2.events ∧
      ∃ call, state.calls.getLast? = some call ∧ (call.pushed == 1) = (contract.set capacity (.recordEvent event)).1

def Starting (contract : Contract) (state : Engine.State Unit) : Prop :=
  state.callers () = .idle ∧ HoldsEvents capacity state contract.events ∧ Before capacity contract state ∧
      ((state.control = .startLoad ∨ state.control = .startStore) ∧ state.running = false ∨
        state.control = .startSpawn ∧ state.running = true) ∨
    state.control = .idle ∧ state.running = true ∧ Working capacity contract state

def Stopping (contract : Contract) (state : Engine.State Unit) : Prop :=
  (∃ asked, (state.control = .stopLoad asked ∨ state.control = .stopStore asked) ∧
        state.running = true ∨ state.control = .stopJoin asked ∧ state.running = false) ∧
      Working capacity contract state ∨
    After capacity state ∧ state.callers () = .idle ∧ HoldsSignals capacity state contract.stream

/-- The call has some of the signals, or it has returned with as many as there were. -/
def Polling (contract : Contract) (maxCount : Nat) (state : Engine.State Unit) : Prop :=
  (∃ out items, state.callers () = .polling maxCount out ∧ out.length < maxCount ∧
      Popping capacity (.caller ()) state.signalRing items ∧
      (out ++ items).map nativeSignal = contract.signals) ∨
    state.callers () = .idle ∧ HoldsSignals capacity state (contract.signals.drop maxCount) ∧
      ∃ poll, state.polls.getLast? = some poll ∧ poll.2.map nativeSignal = contract.signals.take maxCount

def NativeBusy (state : Engine.State Unit) (contract : Contract) : Request → Prop
  | .setup (.recordEvent event) => state.control = .idle ∧ state.running = false ∧
      Before capacity contract state ∧ Recording capacity contract event state
  | .setup _ => False
  | .startLogging => contract.Bounded capacity ∧ Starting capacity contract state
  | .stopLogging => contract.Bounded capacity ∧ Stopping capacity contract state
  | .pollSignals maxCount => After capacity state ∧ Polling capacity contract maxCount state

end

variable {capacity : Nat} {contract : Contract} {state next : Engine.State Unit}
  {action : Engine.Action Unit} {event : RawEvent}

/-- Without a worker only the client moves. -/
theorem absent_cases (absent : state.worker = .absent) (closed : opensCall action = false)
    (ran : Engine.step machine capacity state action = some next) : (∃ cycles, state.resume () cycles = some next) ∨
      (∃ party ring, Moves capacity party state.ring ring ∧ next = { state with ring }) ∨
      (∃ party signalRing, Moves capacity party state.signalRing signalRing ∧ next = { state with signalRing }) ∨
      state.startOrStop = some next := by
  cases action with
  | record | recordBatch | pollSignals | addRule | addCepRule | startPersistence
  | stopPersistence => cases closed
  | resume thread cycles => exact .inl ⟨cycles, ran⟩
  | ring party =>
    obtain ⟨ring, accessed, rfl⟩ := Option.map_eq_some_iff.mp ran
    exact .inr (.inl ⟨party, ring, .inl accessed, rfl⟩)
  | ringSpurious party =>
    obtain ⟨ring, failed, rfl⟩ := Option.map_eq_some_iff.mp ran
    exact .inr (.inl ⟨party, ring, .inr failed, rfl⟩)
  | signalRing party =>
    obtain ⟨signalRing, accessed, rfl⟩ := Option.map_eq_some_iff.mp ran
    exact .inr (.inr (.inl ⟨party, signalRing, .inl accessed, rfl⟩))
  | signalRingSpurious party =>
    obtain ⟨signalRing, failed, rfl⟩ := Option.map_eq_some_iff.mp ran
    exact .inr (.inr (.inl ⟨party, signalRing, .inr failed, rfl⟩))
  | control => exact .inr (.inr (.inr ran))
  | tryOpen opens => simp [Engine.step, Engine.State.tryOpen, absent] at ran
  | work => simp [Engine.step, Engine.State.work, absent] at ran
  | sleep | clock | writeFails => simp [Engine.step, absent] at ran

private theorem resume_idle (idle : state.callers () = .idle) (cycles : UInt64) : state.resume () cycles = none := by
  rw [Engine.State.resume, idle]

theorem startOrStop_idle (idle : state.control = .idle) : state.startOrStop = none := by
  rw [Engine.State.startOrStop, idle]

theorem startOrStop_stopped (stopped : ∃ asked, state.control = .stopped asked) : state.startOrStop = none := by
  obtain ⟨asked, here⟩ := stopped
  rw [Engine.State.startOrStop, here]

/-- With both rings at rest, no call and no worker, nothing moves. -/
theorem not_step (absent : state.worker = .absent) (idle : state.callers () = .idle) {records : List (Record Unit)}
    (ring : Holds capacity state.ring records) {items : List Engine.ThreatSignal}
    (signals : Holds capacity state.signalRing items) (control : state.startOrStop = none)
    (closed : opensCall action = false) : Engine.step machine capacity state action ≠ some next := by
  intro ran
  rcases absent_cases absent closed ran with
    ⟨cycles, resumed⟩ | ⟨party, moved, moves, -⟩ | ⟨party, moved, moves, -⟩ | controlled
  · rw [resume_idle idle cycles] at resumed
    cases resumed
  · exact ring.not_moves moves
  · exact signals.not_moves moves
  · rw [control] at controlled
    cases controlled

private theorem pushed_returns {record : Record Unit} {records : List (Record Unit)} {began : Nat × Nat}
    {cycles : UInt64} (here : state.callers () = .recording [event] 0 began)
    (pushed : Pushed capacity (.caller ()) record state.ring records)
    (given : record.event = event) (events : records.map Record.event = contract.events) :
    ∃ pushes, state.resume () cycles = some (state.returns () [event] pushes) ∧
      (pushes == 1) = (contract.set capacity (.recordEvent event)).1 ∧
      HoldsEvents capacity state (contract.set capacity (.recordEvent event)).2.events := by
  have lengths := congrArg List.length events
  rw [length_map] at lengths
  rw [Contract.set, ← lengths]
  rcases pushed with ⟨room, returned, holds⟩ | ⟨full, returned, holds⟩
  · rw [if_pos room]
    refine ⟨1, by simp only [Engine.State.resume, here, returned]; rfl, rfl, _, holds, ?_⟩
    rw [map_append, events, map_singleton, given]
  · rw [if_neg full]
    exact ⟨0, by simp only [Engine.State.resume, here, returned], rfl, _, holds, events⟩

theorem Recording.step (recording : Recording capacity contract event state) (admitted : Admitted capacity)
    (two : 2 ≤ capacity) (before : Before capacity contract state) (idle : state.control = .idle)
    (closed : opensCall action = false) (ran : Engine.step machine capacity state action = some next) :
    Recording capacity contract event next ∧ Before capacity contract next ∧ SameControl state next := by
  rcases absent_cases before.worker closed ran with
    ⟨cycles, resumed⟩ | ⟨party, ring, moves, rfl⟩ | ⟨party, signalRing, moves, -⟩ | controlled
  · rcases recording with ⟨record, records, began, here, pushing, given, events⟩ | ⟨resting, -⟩
    · have pushed : Pushed capacity (.caller ()) record state.ring records := by
        simp only [Engine.State.resume, here] at resumed
        split at resumed
        case h_1 returned => exact pushing.returned returned
        case h_2 returned => exact pushing.returned returned
        case h_3 => cases resumed
      obtain ⟨pushes, returns, reported, held⟩ := pushed_returns here pushed given events
      rw [returns] at resumed
      cases resumed
      refine ⟨.inr ⟨by simp [Core.returns], held, ⟨(), [event], pushes⟩, ?_, reported⟩, { before with }, rfl, rfl⟩
      exact List.getLast?_concat
    · rw [resume_idle resting cycles] at resumed
      cases resumed
  · refine ⟨?_, { before with }, rfl, rfl⟩
    rcases recording with ⟨record, records, began, here, pushing, given, events⟩ | ⟨-, ⟨records, holds, -⟩, -⟩
    · exact .inl ⟨record, records, began, here, pushing.step admitted two moves, given, events⟩
    · exact absurd moves holds.not_moves
  · exact absurd moves before.signals.not_moves
  · rw [startOrStop_idle idle] at controlled
    cases controlled

def callerLeft (state : Engine.State Unit) : Nat :=
  match state.callers () with
  | .idle => 0
  | .recording _ _ _ => 1 + (state.ring.threads (.caller ())).remaining
  | .polling maxCount out =>
    1 + 6 * (maxCount - out.length) + (state.signalRing.threads (.caller ())).remaining

theorem Recording.advances (recording : Recording capacity contract event state)
    (admitted : Admitted capacity) (two : 2 ≤ capacity) (busy : state.callers () ≠ .idle) :
    ∃ action next, opensCall action = false ∧ SinkWorks state action ∧
      Engine.step machine capacity state action = some next ∧ callerLeft next < callerLeft state := by
  rcases recording with ⟨record, records, began, here, pushing, given, events⟩ | ⟨resting, -⟩
  · rcases pushing.advances admitted two with pushed | ⟨ring, accessed, less⟩
    · obtain ⟨pushes, returns, -, -⟩ := @pushed_returns _ _ _ _ _ _ _ 0 here pushed given events
      refine ⟨.resume () 0, _, rfl, trivial, returns, ?_⟩
      simp only [callerLeft, here, Core.returns, Function.update_self]
      omega
    · refine ⟨.ring (.caller ()), { state with ring }, rfl, trivial, ?_, ?_⟩
      · simp only [Engine.step, accessed, Option.map_some]
      · simp only [callerLeft, here]
        omega
  · exact absurd resting busy

variable {maxCount : Nat} {out items : List Engine.ThreatSignal}

private theorem pollReturns_polling (holds : Holds capacity state.signalRing items)
    (total : (out ++ items).map nativeSignal = contract.signals)
    (enough : out.length = maxCount ∨ out.length ≤ maxCount ∧ items = []) :
    Polling capacity contract maxCount (state.pollReturns () out) := by
  refine .inr ⟨by simp [Core.pollReturns], ⟨items, holds, ?_⟩, ((), out), List.getLast?_concat, ?_⟩
  · rw [← total, map_append]
    rcases enough with rfl | ⟨few, rfl⟩
    · rw [drop_left' (length_map ..)]
    · rw [map_nil, append_nil, drop_of_length_le (by rw [length_map]; exact few)]
  · rw [← total, map_append]
    rcases enough with rfl | ⟨few, rfl⟩
    · rw [take_left' (length_map ..)]
    · rw [map_nil, append_nil, take_of_length_le (by rw [length_map]; exact few)]

theorem pollFrom_polling (holds : Holds capacity state.signalRing items)
    (total : (out ++ items).map nativeSignal = contract.signals) (bound : out.length ≤ maxCount)
    (after : After capacity state) (ran : state.pollFrom () maxCount out = some next) :
    Polling capacity contract maxCount next ∧ After capacity next := by
  unfold Engine.State.pollFrom at ran
  split at ran
  case isTrue less =>
    obtain ⟨signalRing, begun, rfl⟩ := Option.map_eq_some_iff.mp ran
    exact ⟨.inl ⟨out, items, by simp, less, .inl (holds.pop begun), total⟩, { after with }⟩
  case isFalse full =>
    cases ran
    exact ⟨pollReturns_polling holds total (.inl (by omega)), { after with }⟩

theorem Polling.step (polling : Polling capacity contract maxCount state) (admitted : Admitted capacity)
    (two : 2 ≤ capacity) (after : After capacity state) (closed : opensCall action = false)
    (ran : Engine.step machine capacity state action = some next) :
    Polling capacity contract maxCount next ∧ After capacity next := by
  rcases absent_cases after.worker closed ran with
    ⟨cycles, resumed⟩ | ⟨party, ring, moves, rfl⟩ | ⟨party, signalRing, moves, rfl⟩ | controlled
  · rcases polling with ⟨out, items, here, less, popping, total⟩ | ⟨resting, -⟩
    · have popped : Popped capacity (.caller ()) state.signalRing items := by
        simp only [Engine.State.resume, here] at resumed
        split at resumed
        case h_1 returned => exact popping.returned returned
        case h_2 returned => exact popping.returned returned
        case h_3 => cases resumed
      rcases popped with ⟨signal, rest, rfl, returned, holds⟩ | ⟨rfl, returned, holds⟩
      · simp only [Engine.State.resume, here, returned] at resumed
        refine pollFrom_polling holds ?_ ?_ after resumed
        · rw [append_assoc]
          exact total
        · rw [length_append]
          exact less
      · simp only [Engine.State.resume, here, returned] at resumed
        cases resumed
        exact ⟨pollReturns_polling holds total (.inr ⟨less.le, rfl⟩), { after with }⟩
    · rw [resume_idle resting cycles] at resumed
      cases resumed
  · obtain ⟨records, holds⟩ := after.ring
    exact absurd moves holds.not_moves
  · refine ⟨?_, { after with }⟩
    rcases polling with ⟨out, items, here, less, popping, total⟩ | ⟨-, ⟨items, holds, -⟩, -⟩
    · exact .inl ⟨out, items, here, less, popping.step admitted two moves, total⟩
    · exact absurd moves holds.not_moves
  · rw [startOrStop_stopped after.control] at controlled
    cases controlled

theorem Polling.advances (polling : Polling capacity contract maxCount state)
    (admitted : Admitted capacity) (two : 2 ≤ capacity) (busy : state.callers () ≠ .idle) :
    ∃ action next, opensCall action = false ∧ SinkWorks state action ∧
      Engine.step machine capacity state action = some next ∧ callerLeft next < callerLeft state := by
  rcases polling with ⟨out, items, here, less, popping, total⟩ | ⟨resting, -⟩
  · rcases popping.advances admitted two with popped | ⟨signalRing, accessed, closer⟩
    · rcases popped with ⟨signal, rest, rfl, returned, holds⟩ | ⟨rfl, returned, holds⟩
      · have resumed : Engine.step machine capacity state (.resume () 0) =
            state.pollFrom () maxCount (out ++ [signal]) := by
          simp only [Engine.step, Engine.State.resume, here, returned]
        unfold Engine.State.pollFrom at resumed
        split at resumed
        case isTrue more =>
          obtain ⟨signalRing, begun⟩ := holds.exists_begin (.caller ()) .popLoadPos
          rw [begun] at resumed
          refine ⟨.resume () 0, _, rfl, trivial, resumed, ?_⟩
          simp only [callerLeft, here, Function.update_self, threads_of_begin begun,
            Access.remaining, length_append, length_singleton]
          omega
        case isFalse full =>
          refine ⟨.resume () 0, _, rfl, trivial, resumed, ?_⟩
          simp only [callerLeft, here, Core.pollReturns, Function.update_self]
          omega
      · refine ⟨.resume () 0, state.pollReturns () out, rfl, trivial, ?_, ?_⟩
        · simp only [Engine.step, Engine.State.resume, here, returned]
        · simp only [callerLeft, here, Core.pollReturns, Function.update_self]
          omega
    · refine ⟨.signalRing (.caller ()), { state with signalRing }, rfl, trivial, ?_, ?_⟩
      · simp only [Engine.step, accessed, Option.map_some]
      · simp only [callerLeft, here]
        omega
  · exact absurd resting busy

theorem Working.withControl (working : Working capacity contract state) (control : Engine.Control Unit)
    (running : Bool) : Working capacity contract { state with control, running } := by
  obtain ⟨snapshot, history, records, evaluated, rest⟩ := working
  exact ⟨snapshot, history, records, { evaluated with }, rest⟩

theorem Before.spawned (before : Before capacity contract state) (idle : state.callers () = .idle)
    (held : HoldsEvents capacity state contract.events) (control : Engine.Control Unit) :
    Working capacity contract { state with worker := .opening, control } := by
  obtain ⟨records, holds, events⟩ := held
  refine ⟨trivial, [], records, ⟨before.rules, before.cepRules, ?_, idle⟩, events.symm, holds, [],
    before.signals, rfl⟩
  exact congrArg List.length before.evaluations

/-- The worker has ended: everything is evaluated and its signals are in the ring. -/
theorem Working.joined (working : Working capacity contract state)
    (ended : state.worker = .exited) (asked : Asked Unit) :
    After capacity { state with worker := .absent, control := .stopped asked } ∧
      state.callers () = .idle ∧ HoldsSignals capacity state contract.stream := by
  obtain ⟨-, history, records, evaluated, events, ringAt, signalsAt⟩ := working
  rw [ended] at events ringAt signalsAt
  obtain ⟨holds, rfl⟩ := ringAt
  have all : contract.events = history := events.trans (append_nil history)
  refine ⟨⟨rfl, ⟨asked, rfl⟩, [], holds⟩, evaluated.caller, ?_⟩
  rw [Contract.stream, all]
  exact signalsAt

theorem Working.present (working : Working capacity contract state) : state.worker ≠ .absent := by
  intro absent
  obtain ⟨-, _, _, -, -, ringAt, -⟩ := working
  rw [absent] at ringAt
  exact ringAt

theorem Starting.step (starting : Starting capacity contract state) (admitted : Admitted capacity)
    (two : 2 ≤ capacity) (bounded : contract.Bounded capacity) (closed : opensCall action = false)
    (works : SinkWorks state action) (ran : Engine.step machine capacity state action = some next) :
    Starting capacity contract next := by
  rcases starting with ⟨idle, held, before, point⟩ | ⟨control, running, working⟩
  · rcases absent_cases before.worker closed ran with
      ⟨cycles, resumed⟩ | ⟨party, ring, moves, -⟩ | ⟨party, signalRing, moves, -⟩ | controlled
    · rw [resume_idle idle cycles] at resumed
      cases resumed
    · obtain ⟨records, holds, -⟩ := held
      exact absurd moves holds.not_moves
    · exact absurd moves before.signals.not_moves
    · rcases point with ⟨here | here, stopped⟩ | ⟨here, running⟩
      · simp only [Engine.State.startOrStop, here, stopped] at controlled
        cases controlled
        exact .inl ⟨idle, held, { before with }, .inl ⟨.inr rfl, rfl⟩⟩
      · simp only [Engine.State.startOrStop, here] at controlled
        cases controlled
        exact .inl ⟨idle, held, { before with }, .inr ⟨rfl, rfl⟩⟩
      · simp only [Engine.State.startOrStop, here, before.worker] at controlled
        cases controlled
        exact .inr ⟨rfl, running, before.spawned idle held .idle⟩
  · by_cases own : action = .control
    · subst own
      rw [Engine.step, startOrStop_idle control] at ran
      cases ran
    · obtain ⟨kept, sameControl, sameRunning⟩ := working.step admitted two bounded closed own works ran
      exact .inr ⟨sameControl.trans control, sameRunning.trans running, kept⟩

theorem Stopping.step (stopping : Stopping capacity contract state) (admitted : Admitted capacity)
    (two : 2 ≤ capacity) (bounded : contract.Bounded capacity) (closed : opensCall action = false)
    (works : SinkWorks state action) (ran : Engine.step machine capacity state action = some next) :
    Stopping capacity contract next := by
  rcases stopping with ⟨⟨asked, point⟩, working⟩ | ⟨after, idle, held⟩
  · by_cases own : action = .control
    · subst own
      have controlled : state.startOrStop = some next := ran
      rcases point with ⟨here | here, running⟩ | ⟨here, stopped⟩
      · simp only [Engine.State.startOrStop, here, running] at controlled
        cases controlled
        exact .inl ⟨⟨asked, .inl ⟨.inr rfl, rfl⟩⟩, working.withControl _ _⟩
      · simp only [Engine.State.startOrStop, here] at controlled
        cases controlled
        exact .inl ⟨⟨asked, .inr ⟨rfl, rfl⟩⟩, working.withControl _ _⟩
      · simp only [Engine.State.startOrStop, here] at controlled
        split at controlled
        case h_1 ended =>
          cases controlled
          exact .inr (working.joined ended asked)
        case h_2 absent => exact absurd absent working.present
        case h_3 => cases controlled
    · obtain ⟨kept, sameControl, sameRunning⟩ := working.step admitted two bounded closed own works ran
      rw [← sameControl, ← sameRunning] at point
      exact .inl ⟨⟨asked, point⟩, kept⟩
  · obtain ⟨records, ring⟩ := after.ring
    obtain ⟨items, holds, -⟩ := held
    exact absurd ran (not_step after.worker idle ring holds (startOrStop_stopped after.control) closed)

theorem Recording.finishes (recording : Recording capacity contract event state) (admitted : Admitted capacity)
    (two : 2 ≤ capacity) (before : Before capacity contract state) (idle : state.control = .idle) :
    ∃ finish, Reaches (native capacity).step SinkWorks state finish ∧
      (Recording capacity contract event finish ∧ Before capacity contract finish ∧
        finish.control = .idle) ∧ finish.callers () = .idle := by
  refine Reaches.progress callerLeft ⟨recording, before, idle⟩ ?_
  rintro middle ⟨recording, before, idle⟩ busy
  obtain ⟨action, next, closed, works, ran, less⟩ := recording.advances admitted two busy
  obtain ⟨kept, still, control, -⟩ := recording.step admitted two before idle closed ran
  exact ⟨action, next, works, (native_step closed).trans ran, ⟨kept, still, control.trans idle⟩, less⟩

theorem Polling.finishes (polling : Polling capacity contract maxCount state)
    (admitted : Admitted capacity) (two : 2 ≤ capacity) (after : After capacity state) :
    ∃ finish, Reaches (native capacity).step SinkWorks state finish ∧
      (Polling capacity contract maxCount finish ∧ After capacity finish) ∧ finish.callers () = .idle := by
  refine Reaches.progress callerLeft ⟨polling, after⟩ ?_
  rintro middle ⟨polling, after⟩ busy
  obtain ⟨action, next, closed, works, ran, less⟩ := polling.advances admitted two busy
  exact ⟨action, next, works, (native_step closed).trans ran, polling.step admitted two after closed ran, less⟩

private theorem reaches_control (controlled : state.startOrStop = some next) :
    Reaches (native capacity).step SinkWorks state next := by
  have ran : (native capacity).step state .control = some next := controlled
  have works : SinkWorks state .control := trivial
  exact .single works ran

theorem Starting.finishes (starting : Starting capacity contract state) :
    ∃ finish, Reaches (native capacity).step SinkWorks state finish ∧ finish.control = .idle := by
  have spawns : ∀ state : Engine.State Unit, state.worker = .absent → state.control = .startSpawn →
      ∃ finish, Reaches (native capacity).step SinkWorks state finish ∧ finish.control = .idle := by
    intro state absent here
    exact ⟨{ state with worker := .opening, control := .idle }, reaches_control (by
      simp only [Engine.State.startOrStop, here, absent]), rfl⟩
  have stores : ∀ state : Engine.State Unit, state.worker = .absent → state.control = .startStore →
      ∃ finish, Reaches (native capacity).step SinkWorks state finish ∧ finish.control = .idle := by
    intro state absent here
    obtain ⟨finish, path, idle⟩ := spawns { state with running := true, control := .startSpawn } absent rfl
    exact ⟨finish, (reaches_control (by
      simp only [Engine.State.startOrStop, here])).trans path, idle⟩
  rcases starting with ⟨-, -, before, ⟨here | here, stopped⟩ | ⟨here, -⟩⟩ | ⟨control, -, -⟩
  · obtain ⟨finish, path, idle⟩ := stores { state with control := .startStore } before.worker rfl
    exact ⟨finish, (reaches_control (by
      simp [Engine.State.startOrStop, here, stopped])).trans path, idle⟩
  · exact stores state before.worker here
  · exact spawns state before.worker here
  · exact ⟨state, .refl, control⟩

theorem Stopping.finishes (stopping : Stopping capacity contract state)
    (admitted : Admitted capacity) (two : 2 ≤ capacity) (bounded : contract.Bounded capacity) :
    ∃ finish, Reaches (native capacity).step SinkWorks state finish ∧ ∃ asked, finish.control = .stopped asked := by
  have joins : ∀ (state : Engine.State Unit) (asked : Asked Unit),
      state.control = .stopJoin asked → state.running = false → Working capacity contract state →
      ∃ finish, Reaches (native capacity).step SinkWorks state finish ∧ ∃ asked, finish.control = .stopped asked := by
    intro state asked here stopped working
    obtain ⟨last, path, ⟨-, control, -⟩, ended⟩ := working.exits admitted two bounded stopped
    refine ⟨{ last with worker := .absent, control := .stopped asked }, path.trans (reaches_control ?_), asked, rfl⟩
    simp only [Engine.State.startOrStop, control.trans here, ended]
  have stores : ∀ (state : Engine.State Unit) (asked : Asked Unit),
      state.control = .stopStore asked → Working capacity contract state →
      ∃ finish, Reaches (native capacity).step SinkWorks state finish ∧ ∃ asked, finish.control = .stopped asked := by
    intro state asked here working
    obtain ⟨finish, path, stopped⟩ := joins { state with running := false, control := .stopJoin asked } asked rfl rfl
        (working.withControl _ _)
    exact ⟨finish, (reaches_control (by
      simp only [Engine.State.startOrStop, here])).trans path, stopped⟩
  rcases stopping with ⟨⟨asked, ⟨here | here, running⟩ | ⟨here, stopped⟩⟩, working⟩ | ⟨after, -, -⟩
  · obtain ⟨finish, path, stopped⟩ :=
      stores { state with control := .stopStore asked } asked rfl (working.withControl _ _)
    exact ⟨finish, (reaches_control (by
      simp [Engine.State.startOrStop, here, running])).trans path, stopped⟩
  · exact stores state asked here working
  · exact joins state asked here stopped working
  · exact ⟨state, .refl, after.control⟩

end AnimusCore.Parity
