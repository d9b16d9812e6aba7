import AnimusCore.Parity.Native

/-! The native worker between the start and the stop of a session: what it has evaluated,
what it holds and what the ring holds are the session's events in order. -/

set_option autoImplicit false

namespace AnimusCore.Parity

open Cep Engine Lib RingBuffer List

/-- The ring holds these records. Nobody records while the worker runs, so a ring it has
found empty stays empty. -/
def RingAt (capacity : Nat) (ring : RingBuffer.State (Party Unit) (Record Unit))
    (records : List (Record Unit)) : Engine.Worker Unit → Prop
  | .popping _ => Popping capacity .worker ring records
  | .testRunning | .exited => Holds capacity ring records ∧ records = []
  | .absent | .sinkDown | .sinkWait => False
  | _ => Holds capacity ring records

/-- The signals in the ring and those still to be pushed. -/
def SignalsAt (capacity : Nat) (ring : RingBuffer.State (Party Unit) Engine.ThreatSignal)
    (emitted : List Observed) : Engine.Worker Unit → Prop
  | .signalling _ _ _ [] => False
  | .signalling _ _ _ (signal :: rest) => ∃ items, Pushing capacity .worker signal ring items ∧
      (items ++ signal :: rest).map nativeSignal = emitted
  | _ => ∃ items, Holds capacity ring items ∧ items.map nativeSignal = emitted

def SnapshotAt (contract : Contract) : Engine.Worker Unit → Prop
  | .cepRulesLock _ rules => rules = contract.rules
  | .readClock _ rules cepRules => rules = contract.rules ∧ cepRules = contract.cepRules.length
  | .evaluating _ _ snapshot | .signalling _ _ snapshot _ =>
    snapshot.rules = contract.rules ∧ snapshot.cepRules = contract.cepRules.length
  | _ => True

/-- The engine after the history, apart from its rings. -/
structure Evaluated (contract : Contract) (history : List RawEvent) (state : Engine.State Unit) : Prop where
  rules : state.rules = contract.rules
  cepRules : WindowsFed history contract.cepRules state.cepRules
  evaluations : state.evaluations.length = history.length
  caller : state.callers () = .idle

structure Working (capacity : Nat) (contract : Contract) (state : Engine.State Unit) : Prop where
  snapshot : SnapshotAt contract state.worker
  split : ∃ history records, Evaluated contract history state ∧
    contract.events = history ++ (state.worker.unevaluated ++ records).map Record.event ∧
    RingAt capacity state.ring records state.worker ∧
    SignalsAt capacity state.signalRing (stream contract.rules contract.cepRules history) state.worker

variable {capacity : Nat} {contract : Contract} {state next : Engine.State Unit}
  {history : List RawEvent} {records batch done rest : List (Record Unit)}
  {emitted : List Observed}

theorem Working.ring_step (working : Working capacity contract state) (admitted : Admitted capacity)
    (two : 2 ≤ capacity) {party : Party Unit} {ring : RingBuffer.State (Party Unit) (Record Unit)}
    (moves : Moves capacity party state.ring ring) : Working capacity contract { state with ring } := by
  obtain ⟨snapshot, history, records, ⟨rules, cepRules, evaluations, caller⟩, events, ringAt, signalsAt⟩ := working
  refine ⟨snapshot, history, records, ⟨rules, cepRules, evaluations, caller⟩, events, ?_, signalsAt⟩
  cases here : state.worker with
  | popping batch =>
    rw [here] at ringAt
    exact Popping.step ringAt admitted two moves
  | testRunning | exited =>
    rw [here] at ringAt
    exact absurd moves ringAt.1.not_moves
  | absent | sinkDown | sinkWait =>
    rw [here] at ringAt
    cases ringAt
  | _ =>
    rw [here] at ringAt
    exact absurd moves (Holds.not_moves ringAt)

theorem Working.signalRing_step (working : Working capacity contract state) (admitted : Admitted capacity)
    (two : 2 ≤ capacity) {party : Party Unit} {signalRing : RingBuffer.State (Party Unit) Engine.ThreatSignal}
    (moves : Moves capacity party state.signalRing signalRing) :
    Working capacity contract { state with signalRing } := by
  obtain ⟨snapshot, history, records, ⟨rules, cepRules, evaluations, caller⟩, events, ringAt, signalsAt⟩ := working
  refine ⟨snapshot, history, records, ⟨rules, cepRules, evaluations, caller⟩, events, ringAt, ?_⟩
  cases here : state.worker with
  | signalling done rest snapshot signals =>
    rw [here] at signalsAt
    cases signals with
    | nil => cases signalsAt
    | cons signal signals =>
      obtain ⟨items, pushing, total⟩ := signalsAt
      exact ⟨items, pushing.step admitted two moves, total⟩
  | _ =>
    rw [here] at signalsAt
    obtain ⟨items, holds, -⟩ := signalsAt
    exact absurd moves holds.not_moves

def SameControl (state next : Engine.State Unit) : Prop :=
  next.control = state.control ∧ next.running = state.running

def Emitted (capacity : Nat) (contract : Contract) (history : List RawEvent) (state : Engine.State Unit) : Prop :=
  ∃ items, Holds capacity state.signalRing items ∧
    items.map nativeSignal = stream contract.rules contract.cepRules history

private theorem collect_working (evaluated : Evaluated contract history state)
    (events : contract.events = history ++ (batch ++ records).map Record.event)
    (holds : Holds capacity state.ring records) (emitted : Emitted capacity contract history state)
    (ran : state.collect batch = some next) : Working capacity contract next ∧ SameControl state next := by
  obtain ⟨rules, cepRules, evaluations, caller⟩ := evaluated
  unfold Engine.State.collect at ran
  split at ran
  · obtain ⟨ring, begun, rfl⟩ := Option.map_eq_some_iff.mp ran
    exact ⟨⟨trivial, history, records, ⟨rules, cepRules, evaluations, caller⟩, events,
      .inl (holds.pop begun), emitted⟩, rfl, rfl⟩
  · cases ran
    exact ⟨⟨trivial, history, records, ⟨rules, cepRules, evaluations, caller⟩, events, holds, emitted⟩, rfl, rfl⟩

private theorem emit_working {snapshot : Snapshot} {signals : List Engine.ThreatSignal}
    (evaluated : Evaluated contract history state)
    (complete : snapshot.rules = contract.rules ∧ snapshot.cepRules = contract.cepRules.length)
    (events : contract.events = history ++ (rest ++ records).map Record.event)
    (holds : Holds capacity state.ring records) {items : List Engine.ThreatSignal}
    (pending : Holds capacity state.signalRing items)
    (total : (items ++ signals).map nativeSignal = stream contract.rules contract.cepRules history)
    (ran : state.emit done rest snapshot signals = some next) :
    Working capacity contract next ∧ SameControl state next := by
  obtain ⟨rules, cepRules, evaluations, caller⟩ := evaluated
  cases signals with
  | nil =>
    cases ran
    rw [append_nil] at total
    exact ⟨⟨complete, history, records, ⟨rules, cepRules, evaluations, caller⟩, events, holds,
      items, pending, total⟩, rfl, rfl⟩
  | cons signal signals =>
    obtain ⟨signalRing, begun, rfl⟩ := Option.map_eq_some_iff.mp ran
    exact ⟨⟨complete, history, records, ⟨rules, cepRules, evaluations, caller⟩, events, holds,
      items, .inl (pending.push begun), total⟩, rfl, rfl⟩

def evaluatedState (state : Engine.State Unit) (record : Record Unit) (snapshot : Snapshot)
    (cepRules : List CepRuleState) : Engine.State Unit :=
  { state with
    cepRules
    evaluations := state.evaluations ++ [⟨record, snapshot.rules.length, snapshot.cepRules, snapshot.nowMs⟩] }

theorem evaluateNext_eq {record : Record Unit} {snapshot : Snapshot} (bounded : contract.Bounded capacity)
    (evaluated : Evaluated contract history state)
    (complete : snapshot.rules = contract.rules ∧ snapshot.cepRules = contract.cepRules.length)
    (events : contract.events = history ++ (record :: rest ++ records).map Record.event) (done : List (Record Unit)) :
    ∃ signals cepRules, state.evaluateNext done record rest snapshot =
        (evaluatedState state record snapshot cepRules).emit (done ++ [record]) rest snapshot signals ∧
      Evaluated contract (history ++ [record.event]) (evaluatedState state record snapshot cepRules) ∧
      signals.map nativeSignal = signalsOf contract.rules contract.cepRules history record.event := by
  have inside : history ++ [record.event] <+: contract.events := by
    refine ⟨(rest ++ records).map Record.event, ?_⟩
    rw [events, append_assoc]
    rfl
  obtain ⟨rules, cepRules, evaluations, caller⟩ := evaluated
  obtain ⟨signals, fed, found, later, observed⟩ := @evaluate_observed record.payload history contract state.cepRules
    bounded.counts (fun rule member => bounded.range rule member _ inside) cepRules snapshot.nowMs
  refine ⟨signals, fed, ?_, ⟨rules, later, ?_, caller⟩, observed⟩
  · rw [Engine.State.evaluateNext, complete.1, complete.2, found]
    rw [Option.bind_some, evaluatedState, complete.1, complete.2]
  · rw [evaluatedState, length_append, length_append, evaluations]
    rfl

private theorem evaluateNext_working {record : Record Unit} {snapshot : Snapshot}
    (bounded : contract.Bounded capacity) (evaluated : Evaluated contract history state)
    (complete : snapshot.rules = contract.rules ∧ snapshot.cepRules = contract.cepRules.length)
    (events : contract.events = history ++ (record :: rest ++ records).map Record.event)
    (holds : Holds capacity state.ring records) (emitted : Emitted capacity contract history state)
    (ran : state.evaluateNext done record rest snapshot = some next) :
    Working capacity contract next ∧ SameControl state next := by
  obtain ⟨items, pending, total⟩ := emitted
  obtain ⟨signals, cepRules, same, later, observed⟩ := evaluateNext_eq bounded evaluated complete events done
  rw [same] at ran
  have longer : contract.events = (history ++ [record.event]) ++ (rest ++ records).map Record.event := by
    rw [events, append_assoc]
    rfl
  have extended : (items ++ signals).map nativeSignal =
      stream contract.rules contract.cepRules (history ++ [record.event]) := by
    rw [stream_concat, map_append, total, observed]
  have moved := emit_working later complete longer holds pending extended ran
  exact moved

section
variable (working : Working capacity contract state)
include working

theorem Working.tryOpen (ran : state.tryOpen true = some next) :
    Working capacity contract next ∧ SameControl state next := by
  obtain ⟨-, history, records, evaluated, events, ringAt, signalsAt⟩ := working
  unfold Engine.State.tryOpen at ran
  split at ran
  case h_1 here =>
    rw [here] at events ringAt signalsAt
    exact collect_working evaluated events ringAt signalsAt ran
  case h_2 here =>
    rw [here] at ringAt
    cases ringAt
  case h_3 => cases ran

theorem Working.clock {nowMs : UInt64} (ran : Engine.step machine capacity state (.clock nowMs) = some next) :
    Working capacity contract next ∧ SameControl state next := by
  obtain ⟨snapshot, history, records, evaluated, events, ringAt, signalsAt⟩ := working
  simp only [Engine.step] at ran
  split at ran
  case h_1 batch rules cepRules here =>
    cases ran
    rw [here] at snapshot events ringAt signalsAt
    obtain ⟨rulesFed, windows, evaluations, caller⟩ := evaluated
    exact ⟨⟨snapshot, history, records, ⟨rulesFed, windows, evaluations, caller⟩, events, ringAt,
      signalsAt⟩, rfl, rfl⟩
  case h_2 => cases ran

theorem Working.sleep : Engine.step machine capacity state .sleep = none := by
  obtain ⟨-, history, records, -, -, ringAt, -⟩ := working
  simp only [Engine.step]
  split
  case h_1 here =>
    rw [here] at ringAt
    cases ringAt
  case h_2 => rfl

end

private theorem popped_working (evaluated : Evaluated contract history state)
    (events : contract.events = history ++ (batch ++ records).map Record.event)
    (here : state.worker = .popping batch) (popped : Popped capacity .worker state.ring records)
    (emitted : Emitted capacity contract history state) (ran : state.work = some next) :
    Working capacity contract next ∧ SameControl state next := by
  rcases popped with ⟨item, rest, rfl, returned, holds⟩ | ⟨rfl, returned, holds⟩
  · simp only [Engine.State.work, here, returned] at ran
    refine collect_working evaluated ?_ holds emitted ran
    rw [events, append_assoc]
    rfl
  · simp only [Engine.State.work, here, returned] at ran
    obtain ⟨rules, windows, evaluations, caller⟩ := evaluated
    cases ran
    cases batch with
    | nil =>
      exact ⟨⟨trivial, history, [], ⟨rules, windows, evaluations, caller⟩, events, ⟨holds, rfl⟩, emitted⟩, rfl, rfl⟩
    | cons first others =>
      exact ⟨⟨trivial, history, [], ⟨rules, windows, evaluations, caller⟩, events, holds, emitted⟩, rfl, rfl⟩

/-- A push of the worker's has returned: the signals of the whole session have room. -/
theorem pushed_holds (bounded : contract.Bounded capacity) (inside : history <+: contract.events)
    {signal : Engine.ThreatSignal} {items signals : List Engine.ThreatSignal}
    (pushed : Pushed capacity .worker signal state.signalRing items)
    (total : (items ++ signal :: signals).map nativeSignal = stream contract.rules contract.cepRules history) :
    Holds capacity state.signalRing (items ++ [signal]) := by
  rcases pushed with ⟨-, -, holds⟩ | ⟨full, -, -⟩
  · exact holds
  · have lengths := congrArg List.length total
    have room := (length_stream_le contract.rules contract.cepRules inside).trans_lt bounded.few
    rw [length_map, length_append, length_cons] at lengths
    omega

theorem Working.work (working : Working capacity contract state) (bounded : contract.Bounded capacity)
    (ran : state.work = some next) : Working capacity contract next ∧ SameControl state next := by
  obtain ⟨snapshot, history, records, evaluated, events, ringAt, signalsAt⟩ := working
  have parts := evaluated
  obtain ⟨rules, windows, evaluations, caller⟩ := parts
  unfold Engine.State.work at ran
  split at ran
  case h_1 here =>
    rw [here] at ringAt
    cases ringAt
  case h_2 batch here =>
    rw [here] at events ringAt signalsAt
    have popped : Popped capacity .worker state.ring records := by
      split at ran
      case h_1 item returned => exact Popping.returned ringAt returned
      case h_2 returned => exact Popping.returned ringAt returned
      case h_3 => cases ran
    refine popped_working evaluated events here popped signalsAt ?_
    simp only [Engine.State.work, here]
    exact ran
  case h_3 batch here =>
    cases ran
    rw [here] at events ringAt signalsAt
    exact ⟨⟨rules, history, records, ⟨rules, windows, evaluations, caller⟩, events, ringAt, signalsAt⟩, rfl, rfl⟩
  case h_4 batch snapped here =>
    cases ran
    rw [here] at snapshot events ringAt signalsAt
    have length : contract.cepRules.length = state.cepRules.length := List.Forall₂.length_eq windows
    exact ⟨⟨⟨snapshot, length.symm⟩, history, records, ⟨rules, windows, evaluations, caller⟩,
      events, ringAt, signalsAt⟩, rfl, rfl⟩
  case h_5 done snapped here =>
    cases ran
    rw [here] at events ringAt signalsAt
    exact ⟨⟨trivial, history, records, ⟨rules, windows, evaluations, caller⟩, events, ringAt, signalsAt⟩, rfl, rfl⟩
  case h_6 done record rest snapped here =>
    rw [here] at snapshot events ringAt signalsAt
    exact evaluateNext_working bounded evaluated snapshot events ringAt signalsAt ran
  case h_7 done rest snapped signals here =>
    rw [here] at snapshot events ringAt signalsAt
    split at ran
    case h_1 outcome returned =>
      cases signals with
      | nil => cases signalsAt
      | cons signal signals =>
        obtain ⟨items, pushing, total⟩ := signalsAt
        have holds := pushed_holds bounded ⟨_, events.symm⟩ (pushing.returned returned) total
        refine emit_working evaluated snapshot events ringAt holds ?_ ran
        rw [append_assoc]
        exact total
    case h_2 => cases ran
  case h_8 stored record rest here =>
    cases ran
    rw [here] at events ringAt signalsAt
    exact ⟨⟨trivial, history, records, ⟨rules, windows, evaluations, caller⟩, events, ringAt, signalsAt⟩, rfl, rfl⟩
  case h_9 stored here =>
    rw [here] at events ringAt signalsAt
    exact collect_working evaluated events ringAt signalsAt ran
  case h_10 here =>
    rw [here] at events ringAt signalsAt
    split at ran
    · exact collect_working evaluated events ringAt.1 signalsAt ran
    · cases ran
      exact ⟨⟨trivial, history, records, ⟨rules, windows, evaluations, caller⟩, events, ringAt, signalsAt⟩, rfl, rfl⟩
  all_goals cases ran

variable {action : Engine.Action Unit}

theorem Working.resume (working : Working capacity contract state) (cycles : UInt64) :
    state.resume () cycles = none := by
  obtain ⟨-, history, records, evaluated, -⟩ := working
  rw [Engine.State.resume, evaluated.caller]

/-- While the worker runs only it moves, and the calls of start and stop. -/
theorem Working.step (working : Working capacity contract state) (admitted : Admitted capacity) (two : 2 ≤ capacity)
    (bounded : contract.Bounded capacity) (closed : opensCall action = false) (other : action ≠ .control)
    (works : SinkWorks state action) (ran : Engine.step machine capacity state action = some next) :
    Working capacity contract next ∧ SameControl state next := by
  cases action with
  | record | recordBatch | pollSignals | addRule | addCepRule | startPersistence
  | stopPersistence => cases closed
  | control => exact absurd rfl other
  | resume thread cycles =>
    rw [Engine.step, working.resume cycles] at ran
    cases ran
  | ring party =>
    obtain ⟨ring, accessed, rfl⟩ := Option.map_eq_some_iff.mp ran
    exact ⟨working.ring_step admitted two (.inl accessed), rfl, rfl⟩
  | ringSpurious party =>
    obtain ⟨ring, failed, rfl⟩ := Option.map_eq_some_iff.mp ran
    exact ⟨working.ring_step admitted two (.inr failed), rfl, rfl⟩
  | signalRing party =>
    obtain ⟨signalRing, accessed, rfl⟩ := Option.map_eq_some_iff.mp ran
    exact ⟨working.signalRing_step admitted two (.inl accessed), rfl, rfl⟩
  | signalRingSpurious party =>
    obtain ⟨signalRing, failed, rfl⟩ := Option.map_eq_some_iff.mp ran
    exact ⟨working.signalRing_step admitted two (.inr failed), rfl, rfl⟩
  | tryOpen opens =>
    cases works
    exact working.tryOpen ran
  | sleep =>
    rw [working.sleep] at ran
    cases ran
  | clock nowMs => exact working.clock ran
  | work => exact working.work bounded ran
  | writeFails => cases works

end AnimusCore.Parity
