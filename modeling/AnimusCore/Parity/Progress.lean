import AnimusCore.Parity.Worker
import Mathlib.Data.Prod.Lex

/-! Asked to stop, the native worker comes to its end: every step that it can take lowers
the records it has to read and evaluate, or its point in the loop, or what is left to do
at that point. -/

set_option autoImplicit false

namespace AnimusCore.Parity

open Cep Engine Lib RingBuffer List

variable {capacity total : Nat} {contract : Contract} {state next : Engine.State Unit}
  {history : List RawEvent} {records batch done rest : List (Record Unit)}

def nativeStage : Engine.Worker Unit → Nat
  | .opening => 10
  | .popping (_ :: _) => 9
  | .rulesLock _ => 8
  | .cepRulesLock _ _ => 7
  | .readClock _ _ _ => 6
  | .signalling _ _ _ _ => 5
  | .evaluating _ _ _ => 4
  | .writing _ _ => 3
  | .popping [] => 2
  | .testRunning => 1
  | .absent | .sinkDown | .sinkWait | .exited => 0

def leftHere (state : Engine.State Unit) : Nat :=
  match state.worker with
  | .popping _ => (state.ring.threads .worker).remaining
  | .signalling _ _ _ signals =>
    6 * signals.length + (state.signalRing.threads .worker).remaining
  | .writing _ rest => rest.length
  | _ => 0

/-- The events to evaluate and the records to read, of so many events in total. -/
def toDo (total : Nat) (state : Engine.State Unit) : Nat :=
  (total - state.evaluations.length) + (total - state.evaluations.length - state.worker.unevaluated.length)

/-- An event or record less outweighs every point of the loop. -/
def nativeRank (total : Nat) (state : Engine.State Unit) : Nat ×ₗ Nat :=
  toLex (11 * toDo total state + nativeStage state.worker, leftHere state)

private theorem nativeRank_lt_of_point (same : toDo total next = toDo total state)
    (less : nativeStage next.worker < nativeStage state.worker) : nativeRank total next < nativeRank total state := by
  refine Prod.Lex.toLex_lt_toLex.mpr (.inl ?_)
  omega

private theorem nativeStage_le (worker : Engine.Worker Unit) : nativeStage worker ≤ 10 := by
  cases worker with
  | popping batch => cases batch <;> simp [nativeStage]
  | _ => simp [nativeStage]

private theorem nativeRank_lt_of_toDo (less : toDo total next < toDo total state) :
    nativeRank total next < nativeRank total state := by
  have bound := nativeStage_le next.worker
  refine Prod.Lex.toLex_lt_toLex.mpr (.inl ?_)
  omega

private theorem nativeRank_lt_of_left (same : toDo total next = toDo total state)
    (point : nativeStage next.worker = nativeStage state.worker)
    (less : leftHere next < leftHere state) : nativeRank total next < nativeRank total state := by
  refine Prod.Lex.toLex_lt_toLex.mpr (.inr ⟨?_, less⟩)
  rw [same, point]

def Lowers (capacity total : Nat) (state : Engine.State Unit) : Prop :=
  ∃ action next, SinkWorks state action ∧ action.party = some .worker ∧
    Engine.step machine capacity state action = some next ∧
    nativeRank total next < nativeRank total state

private theorem exists_collect (holds : Holds capacity state.ring records) (batch : List (Record Unit)) :
    ∃ next, state.collect batch = some next ∧ next.worker.unevaluated = batch ∧
      next.evaluations = state.evaluations ∧ (batch = [] → next.worker = .popping []) := by
  unfold Engine.State.collect
  split
  case isTrue =>
    obtain ⟨ring, begun⟩ := holds.exists_begin .worker .popLoadPos
    rw [begun]
    exact ⟨_, rfl, rfl, rfl, fun empty => empty ▸ rfl⟩
  case isFalse full =>
    refine ⟨_, rfl, rfl, rfl, ?_⟩
    rintro rfl
    exact absurd (show 0 < 1024 by decide) full

private theorem lowers_collect {action : Engine.Action Unit} (works : SinkWorks state action)
    (own : action.party = some .worker) (holds : Holds capacity state.ring records)
    (same : Engine.step machine capacity state action = state.collect []) (empty : state.worker.unevaluated = [])
    (point : 2 < nativeStage state.worker) : Lowers capacity total state := by
  obtain ⟨next, collected, batch, evaluations, worker⟩ := exists_collect holds []
  refine ⟨action, next, works, own, same.trans collected, nativeRank_lt_of_point ?_ ?_⟩
  · rw [toDo, toDo, batch, empty, evaluations]
  · rw [worker rfl]
    exact point

private theorem lowers_goTo {action : Engine.Action Unit} (worker : Engine.Worker Unit)
    (works : SinkWorks state action) (own : action.party = some .worker)
    (ran : Engine.step machine capacity state action = some { state with worker })
    (batch : worker.unevaluated = state.worker.unevaluated)
    (point : nativeStage worker < nativeStage state.worker) : Lowers capacity total state := by
  refine ⟨action, _, works, own, ran, nativeRank_lt_of_point ?_ point⟩
  rw [toDo, toDo, batch]

private theorem lowers_popping (admitted : Admitted capacity) (two : 2 ≤ capacity)
    (counted : total = state.evaluations.length + (batch ++ records).length) (here : state.worker = .popping batch)
    (popping : Popping capacity .worker state.ring records) : Lowers capacity total state := by
  rcases popping.advances admitted two with popped | ⟨ring, accessed, less⟩
  · rcases popped with ⟨item, rest, rfl, returned, holds⟩ | ⟨rfl, returned, holds⟩
    · obtain ⟨next, collected, unevaluated, evaluations, -⟩ := exists_collect holds (batch ++ [item])
      refine ⟨.work, next, trivial, rfl, ?_, nativeRank_lt_of_toDo ?_⟩
      · simp only [Engine.step, Engine.State.work, here, returned, collected]
      · rw [toDo, toDo, unevaluated, evaluations, here, counted]
        simp only [length_append, length_cons, length_nil, Worker.unevaluated]
        omega
    · refine @lowers_goTo _ _ _ .work (if batch.isEmpty then .testRunning else .rulesLock batch) trivial rfl ?_ ?_ ?_
      · simp only [Engine.step, Engine.State.work, here, returned]
      · rw [here]
        cases batch <;> rfl
      · rw [here]
        cases batch <;> simp [nativeStage]
  · refine ⟨.ring .worker, { state with ring }, trivial, rfl, ?_, nativeRank_lt_of_left rfl rfl ?_⟩
    · simp only [Engine.step, accessed, Option.map_some]
    · simp only [leftHere, here]
      exact less

private theorem lowers_signalling (admitted : Admitted capacity) (two : 2 ≤ capacity) {snapshot : Snapshot}
    {signal : Engine.ThreatSignal} {items signals : List Engine.ThreatSignal}
    (here : state.worker = .signalling done rest snapshot (signal :: signals))
    (pushing : Pushing capacity .worker signal state.signalRing items) : Lowers capacity total state := by
  rcases pushing.advances admitted two with pushed | ⟨signalRing, accessed, less⟩
  · obtain ⟨outcome, returned⟩ : ∃ outcome, state.signalRing.threads .worker = .returned outcome := by
      rcases pushed with ⟨-, returned, -⟩ | ⟨-, returned, -⟩ <;> exact ⟨_, returned⟩
    obtain ⟨later, holds⟩ := pushed.holds
    have worked : Engine.step machine capacity state .work = state.emit done rest snapshot signals := by
      simp only [Engine.step, Engine.State.work, here, returned, tail_cons]
    cases signals with
    | nil =>
      refine @lowers_goTo _ _ _ .work (.evaluating done rest snapshot) trivial rfl worked ?_ ?_
      · rw [here]
        rfl
      · rw [here]
        simp [nativeStage]
    | cons second others =>
      obtain ⟨signalRing, begun⟩ := holds.exists_begin .worker (.pushLoadPos second)
      have first : (signalRing.threads .worker).remaining = 5 := by
        rw [threads_of_begin begun]
        rfl
      rw [Engine.State.emit, begun] at worked
      refine ⟨.work, _, trivial, rfl, worked, nativeRank_lt_of_left ?_ ?_ ?_⟩
      · rw [toDo, toDo, here]
        rfl
      · rw [here]
        rfl
      · simp only [leftHere, here, first, length_cons]
        omega
  · refine ⟨.signalRing .worker, { state with signalRing }, trivial, rfl, ?_, nativeRank_lt_of_left rfl rfl ?_⟩
    · simp only [Engine.step, accessed, Option.map_some]
    · simp only [leftHere, here]
      omega

theorem Evaluated.counted (evaluated : Evaluated contract history state)
    (events : contract.events = history ++ (batch ++ records).map Record.event) :
    contract.events.length = state.evaluations.length + (batch ++ records).length := by
  rw [events, length_append, length_map, evaluated.evaluations]

private theorem exists_emit {items : List Engine.ThreatSignal} (holds : Holds capacity state.signalRing items)
    (done rest : List (Record Unit)) (snapshot : Snapshot) (signals : List Engine.ThreatSignal) :
    ∃ next, state.emit done rest snapshot signals = some next ∧ next.worker.unevaluated = rest ∧
      next.evaluations = state.evaluations := by
  cases signals with
  | nil => exact ⟨_, rfl, rfl, rfl⟩
  | cons signal signals =>
    obtain ⟨signalRing, begun⟩ := holds.exists_begin .worker (.pushLoadPos signal)
    rw [Engine.State.emit, begun]
    exact ⟨_, rfl, rfl, rfl⟩

private theorem lowers_evaluating {record : Record Unit} {snapshot : Snapshot}
    (bounded : contract.Bounded capacity) (evaluated : Evaluated contract history state)
    (complete : snapshot.rules = contract.rules ∧ snapshot.cepRules = contract.cepRules.length)
    (events : contract.events = history ++ (record :: rest ++ records).map Record.event)
    (emitted : Emitted capacity contract history state)
    (here : state.worker = .evaluating done (record :: rest) snapshot) :
    Lowers capacity contract.events.length state := by
  obtain ⟨items, holds, -⟩ := emitted
  obtain ⟨signals, cepRules, same, -, -⟩ := evaluateNext_eq bounded evaluated complete events done
  have resting : Holds capacity (evaluatedState state record snapshot cepRules).signalRing items := holds
  obtain ⟨next, emits, unevaluated, evaluations⟩ := exists_emit resting (done ++ [record]) rest snapshot signals
  refine ⟨.work, next, trivial, rfl, ?_, nativeRank_lt_of_toDo ?_⟩
  · simp only [Engine.step, Engine.State.work, here, same, emits]
  · have counted := evaluated.counted events
    rw [length_append, length_cons] at counted
    rw [toDo, toDo, unevaluated, evaluations, here]
    simp only [evaluatedState, length_append, length_cons, length_nil, Worker.unevaluated]
    omega

theorem Working.lowers (working : Working capacity contract state) (admitted : Admitted capacity)
    (two : 2 ≤ capacity) (bounded : contract.Bounded capacity) (asked : state.running = false)
    (more : state.worker ≠ .exited) : Lowers capacity contract.events.length state := by
  obtain ⟨snapshot, history, records, evaluated, events, ringAt, signalsAt⟩ := working
  cases here : state.worker with
  | absent | sinkDown | sinkWait =>
    rw [here] at ringAt
    cases ringAt
  | exited => exact absurd here more
  | opening =>
    rw [here] at ringAt
    refine @lowers_collect _ _ _ _ (.tryOpen true) rfl rfl ringAt ?_ ?_ ?_
    · simp only [Engine.step, Engine.State.tryOpen, here, if_true]
    · rw [here]
      rfl
    · rw [here]
      decide
  | popping batch =>
    rw [here] at ringAt events
    exact lowers_popping admitted two (evaluated.counted events) here ringAt
  | rulesLock batch =>
    refine @lowers_goTo _ _ _ .work (.cepRulesLock batch state.rules) trivial rfl ?_ ?_ ?_
    · simp only [Engine.step, Engine.State.work, here]
    · rw [here]
      rfl
    · rw [here]
      simp [nativeStage]
  | cepRulesLock batch rules =>
    refine @lowers_goTo _ _ _ .work (.readClock batch rules state.cepRules.length) trivial rfl ?_ ?_ ?_
    · simp only [Engine.step, Engine.State.work, here]
    · rw [here]
      rfl
    · rw [here]
      simp [nativeStage]
  | readClock batch rules cepRules =>
    refine @lowers_goTo _ _ _ (.clock 0) (.evaluating [] batch ⟨rules, cepRules, 0⟩) trivial rfl ?_ ?_ ?_
    · simp only [Engine.step, here]
    · rw [here]
      rfl
    · rw [here]
      simp [nativeStage]
  | evaluating done rest snapped =>
    rw [here] at snapshot events signalsAt
    cases rest with
    | nil =>
      refine @lowers_goTo _ _ _ .work (.writing [] done) trivial rfl ?_ ?_ ?_
      · simp only [Engine.step, Engine.State.work, here]
      · rw [here]
        rfl
      · rw [here]
        simp [nativeStage]
    | cons record rest =>
      exact lowers_evaluating bounded evaluated snapshot events signalsAt here
  | signalling done rest snapped signals =>
    rw [here] at signalsAt
    cases signals with
    | nil => cases signalsAt
    | cons signal signals =>
      obtain ⟨items, pushing, -⟩ := signalsAt
      exact lowers_signalling admitted two here pushing
  | writing stored rest =>
    rw [here] at ringAt
    cases rest with
    | nil =>
      refine @lowers_collect _ _ _ _ .work trivial rfl ringAt ?_ ?_ ?_
      · simp only [Engine.step, Engine.State.work, here]
      · rw [here]
        rfl
      · rw [here]
        simp [nativeStage]
    | cons record rest =>
      refine ⟨.work, { state with
          logFile := state.logFile ++ [record]
          worker := .writing (stored ++ [record]) rest }, trivial, rfl, ?_,
        nativeRank_lt_of_left ?_ ?_ ?_⟩
      · simp only [Engine.step, Engine.State.work, here]
      · rw [toDo, toDo, here]
        rfl
      · rw [here]
        rfl
      · simp [leftHere, here]
  | testRunning =>
    refine @lowers_goTo _ _ _ .work .exited trivial rfl ?_ ?_ ?_
    · simp only [Engine.step, Engine.State.work, here, asked, Bool.false_eq_true, if_false]
    · rw [here]
      rfl
    · rw [here]
      decide

private theorem opensCall_of_worker {action : Engine.Action Unit} (own : action.party = some .worker) :
    opensCall action = false ∧ action ≠ .control := by
  cases action <;> simp_all [Action.party, opensCall]

theorem Working.exits (working : Working capacity contract state) (admitted : Admitted capacity)
    (two : 2 ≤ capacity) (bounded : contract.Bounded capacity) (asked : state.running = false) :
    ∃ finish, Reaches (native capacity).step SinkWorks state finish ∧
      (Working capacity contract finish ∧ SameControl state finish) ∧ finish.worker = .exited := by
  refine Reaches.progress (nativeRank contract.events.length) ⟨working, rfl, rfl⟩ ?_
  rintro middle ⟨working, control, running⟩ more
  obtain ⟨action, next, works, own, ran, less⟩ := working.lowers admitted two bounded (running.trans asked) more
  obtain ⟨closed, other⟩ := opensCall_of_worker own
  obtain ⟨kept, sameControl, sameRunning⟩ := working.step admitted two bounded closed other works ran
  exact ⟨action, next, works, (native_step closed).trans ran,
    ⟨kept, sameControl.trans control, sameRunning.trans running⟩, less⟩

end AnimusCore.Parity
