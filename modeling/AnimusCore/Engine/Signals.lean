import AnimusCore.Engine.Log
import AnimusCore.Engine.Snapshots

/-! The signals. The worker pushes what the evaluation of its records gives, in order, and
the `poll_signals` calls read that stream, each position once. -/

set_option autoImplicit false

namespace AnimusCore.Engine

open Lib Lib.Ring RingBuffer Cep List

section

variable {Thread : Type}

/-- One event, from the signals and the windowed rules before it to those after it. -/
def replayStep (rules : List RuleThreshold) (before : List ThreatSignal × List CepRuleState)
    (evaluation : Evaluation Thread) : Option (List ThreatSignal × List CepRuleState) :=
  (evaluate evaluation.record.payload (rules.take evaluation.rules) evaluation.cepRules
    evaluation.nowMs before.2).map fun (signals, cepRules) => (before.1 ++ signals, cepRules)

/-- The events one after the other, each against the first so many rules of either kind in
registration order. -/
def replay (rules : List RuleThreshold) (cepRules : List CepRule)
    (evaluations : List (Evaluation Thread)) : Option (List ThreatSignal × List CepRuleState) :=
  evaluations.foldlM (replayStep rules) ([], cepRules.map CepRuleState.create)

section
variable (view : View Thread)

/-- The signals of the current event whose push has not claimed a position. -/
def View.unclaimed : List ThreatSignal :=
  match view.worker with
  | .signalling _ _ _ signals =>
    match view.signalRing.phases .worker with
    | .unclaimed _ | .full _ => signals
    | _ => signals.tail
  | _ => []

def View.emitted : List ThreatSignal :=
  view.signalRing.claims.map Prod.snd ++ view.unclaimed

def Streams : Prop :=
  replay view.rules (view.cepRules.map CepRuleState.rule) view.evaluations = some (view.emitted, view.cepRules)

def View.reading (thread : Thread) : List ThreatSignal :=
  match view.callers thread with
  | .polling _ out => out ++ handed (view.signalRing.phases (.caller thread))
  | _ => []

def View.polled [DecidableEq Thread] (view : View Thread) (thread : Thread) : List ThreatSignal :=
  (view.polls.filter fun poll => poll.1 = thread).flatMap Prod.snd ++ view.reading thread

def View.retiredBy [DecidableEq Thread] (view : View Thread) (thread : Thread) : List ThreatSignal :=
  (view.signalRing.retired.filter fun entry => entry.1 = .caller thread).map fun entry => entry.2.2

def Polled [DecidableEq Thread] (view : View Thread) : Prop :=
  ∀ thread, view.polled thread = view.retiredBy thread

end

def NeverFull (state : State Thread) (_ : Action Thread) : Prop :=
  ∀ signal, state.signalRing.threads .worker ≠ .returned (.full signal)

variable {rules : List RuleThreshold} {evaluations : List (Evaluation Thread)}

private theorem foldlM_replayStep_rules {more : List RuleThreshold} (grown : rules <+: more)
    (inside : ∀ evaluation ∈ evaluations, evaluation.rules ≤ rules.length)
    (before : List ThreatSignal × List CepRuleState) :
    evaluations.foldlM (replayStep more) before = evaluations.foldlM (replayStep rules) before := by
  obtain ⟨later, rfl⟩ := grown
  induction evaluations generalizing before with
  | nil => rfl
  | cons evaluation rest ih =>
    have same : replayStep (rules ++ later) before evaluation = replayStep rules before evaluation := by
      unfold replayStep
      rw [take_append_of_le_length (inside evaluation mem_cons_self)]
    rw [foldlM_cons, foldlM_cons, same]
    refine congrArg _ (funext fun next => ?_)
    exact ih (fun other member => inside other (mem_cons_of_mem _ member)) next

private theorem foldlM_replayStep_append (later : List CepRuleState) {before result : List ThreatSignal × List CepRuleState}
    (inside : ∀ evaluation ∈ evaluations, evaluation.cepRules ≤ before.2.length)
    (replayed : evaluations.foldlM (replayStep rules) before = some result) :
    evaluations.foldlM (replayStep rules) (before.1, before.2 ++ later) = some (result.1, result.2 ++ later) := by
  induction evaluations generalizing before with
  | nil =>
    cases replayed
    rfl
  | cons evaluation rest ih =>
    obtain ⟨next, stepped, others⟩ := Option.bind_eq_some_iff.mp replayed
    obtain ⟨⟨signals, cepRules⟩, evaluated, rfl⟩ := Option.map_eq_some_iff.mp stepped
    have length := congrArg List.length (evaluate_rules evaluated)
    rw [length_map, length_map] at length
    have further : rest.foldlM (replayStep rules) (before.1 ++ signals, cepRules ++ later) =
        some (result.1, result.2 ++ later) :=
      ih (fun other member => length ▸ inside other (mem_cons_of_mem _ member)) others
    have first := evaluate_append evaluated (inside evaluation mem_cons_self) later
    refine Option.bind_eq_some_iff.mpr ⟨_, Option.map_eq_some_iff.mpr ⟨_, first, rfl⟩, ?_⟩
    exact further

private theorem replay_concat {cepRules : List CepRule} {evaluation : Evaluation Thread}
    {result : List ThreatSignal × List CepRuleState} (replayed : replay rules cepRules evaluations = some result) :
    replay rules cepRules (evaluations ++ [evaluation]) = replayStep rules result evaluation := by
  unfold replay at replayed ⊢
  rw [foldlM_append, replayed]
  simp

theorem Streams.frame {view after : View Thread} (streams : Streams view) (rules : after.rules = view.rules)
    (cepRules : after.cepRules = view.cepRules) (evaluations : after.evaluations = view.evaluations)
    (emitted : after.emitted = view.emitted) : Streams after := by
  unfold Streams
  rw [rules, cepRules, evaluations, emitted]
  exact streams

end

variable {Thread : Type} [DecidableEq Thread] {view after : View Thread} {action : Action Thread}

/-- A push that claims its position leaves its signal where it was in the stream. -/
theorem Roles.emitted_effect (roles : Roles view) {party : Party Thread}
    {signalRing : Summary (Party Thread) ThreatSignal} (effect : Effect view.signalRing party signalRing) :
    View.emitted { view with signalRing } = view.emitted := by
  cases party with
  | worker =>
    have writes := roles.worker_writes
    cases effect with
    | moves => rfl
    | @claims signal phase =>
      rw [phase] at writes
      obtain ⟨done, rest, snapshot, signals, here⟩ := writes
      simp [View.emitted, View.unclaimed, here, phase, go_phases_self]
    | publishes phase | refuses phase =>
      rw [phase] at writes
      obtain ⟨done, rest, snapshot, signals, here⟩ := writes
      simp [View.emitted, View.unclaimed, here, phase, Summary.go]
    | takes phase | retires phase | empty phase =>
      rw [phase] at writes
      exact writes.elim
  | caller thread =>
    have reads := roles.caller_reads thread
    cases effect with
    | claims phase | publishes phase | refuses phase =>
      rw [phase] at reads
      exact reads.elim
    | _ => rfl

variable {snapshot : Snapshot}

private theorem emit_emitted {done rest : List (Record Thread)} (signals : List ThreatSignal) :
    (view.emit done rest snapshot signals).emitted = view.signalRing.claims.map Prod.snd ++ signals := by
  cases signals with
  | nil => rfl
  | cons signal signals =>
    simp [View.emit, View.emitted, View.unclaimed, Summary.go]

omit [DecidableEq Thread] in
theorem Streams.evaluates (streams : Streams view) (snapshots : Snapshots view)
    {done rest : List (Record Thread)} {record : Record Thread} {signals : List ThreatSignal}
    {cepRules : List CepRuleState} (here : view.worker = .evaluating done (record :: rest) snapshot)
    (fired : evaluate record.payload snapshot.rules snapshot.cepRules snapshot.nowMs
      view.cepRules = some (signals, cepRules)) :
    replay view.rules (cepRules.map CepRuleState.rule) (view.evaluations ++
        [⟨record, snapshot.rules.length, snapshot.cepRules, snapshot.nowMs⟩]) =
      some (view.signalRing.claims.map Prod.snd ++ signals, cepRules) := by
  have taken := snapshots.taken
  rw [View.SnapshotsTaken, here] at taken
  have front : view.rules.take snapshot.rules.length = snapshot.rules := (prefix_iff_eq_take.mp taken.1.1).symm
  rw [evaluate_rules fired, replay_concat streams, replayStep, front, fired]
  simp [View.emitted, View.unclaimed, here]

theorem Streams.worker (streams : Streams view) (snapshots : Snapshots view)
    (accepts : ∀ signal, view.signalRing.phases .worker ≠ .full signal)
    (step : WorkerStep view action after) : Streams after := by
  cases step with
  | pops collects | filled collects =>
    refine streams.frame rfl rfl rfl ?_
    cases collects <;> simp [View.emitted, View.unclaimed, *]
  | openFails here =>
    refine streams.frame rfl rfl rfl ?_
    rcases here with here | here <;> simp [View.emitted, View.unclaimed, here]
  | @evaluates done rest record snapshot signals cepRules here fired =>
    have next := streams.evaluates snapshots here fired
    cases signals <;> exact next
  | @signals done rest snapshot signals here rests =>
    have same : (view.emit done rest snapshot signals.tail).emitted = view.emitted := by
      rw [emit_emitted]
      unfold View.emitted View.unclaimed
      rw [here]
      cases phase : view.signalRing.phases .worker with
      | full signal => exact absurd phase (accepts signal)
      | unclaimed => simp [phase, Phase.resting] at rests
      | _ => rfl
    cases tail : signals.tail <;>
      exact streams.frame rfl rfl rfl (tail ▸ same)
  | sleep here | retries here | givesUp here | drained here | ends here | rulesLock here
  | cepRulesLock here | readClock here | evaluated here | stores here | writeFails here
  | exits here =>
    refine streams.frame rfl rfl rfl ?_
    simp [View.emitted, View.unclaimed, here]

omit [DecidableEq Thread] in
theorem Streams.register (streams : Streams view) (snapshots : Snapshots view)
    (step : RegisterStep view action after) : Streams after := by
  have counts : ∀ evaluation ∈ view.evaluations, evaluation.counts ≤ view.registered :=
    fun evaluation member => (snapshots.evaluated evaluation member).2
  cases step with
  | addRule arguments allocates =>
    refine Eq.trans ?_ streams
    exact foldlM_replayStep_rules (addRule_grows _ _ _) (fun evaluation member => (counts evaluation member).1) _
  | addCepRule arguments allocates =>
    unfold addCepRule
    split
    case h_1 => exact streams
    case h_2 rule _ =>
      split
      case isFalse => exact streams
      case isTrue =>
        have inside : ∀ evaluation ∈ view.evaluations, evaluation.cepRules ≤
            ((view.cepRules.map CepRuleState.rule).map CepRuleState.create).length := by
          intro evaluation member
          rw [length_map, length_map]
          exact (counts evaluation member).2
        have longer := foldlM_replayStep_append [CepRuleState.create rule] inside streams
        unfold Streams replay
        rw [map_append, map_append]
        exact longer

theorem Streams.step (streams : Streams view) (roles : Roles view) (snapshots : Snapshots view)
    (accepts : ∀ signal, view.signalRing.phases .worker ≠ .full signal)
    (step : Step view action after) : Streams after := by
  cases step with
  | ring | ringSpurious | signalRingSpurious => exact streams
  | signalRing effect => exact streams.frame rfl rfl rfl (roles.emitted_effect effect)
  | caller step =>
    cases step with
    | pops =>
      refine streams.frame rfl rfl rfl ?_
      rfl
    | _ => exact streams
  | worker step => exact streams.worker snapshots accepts step
  | control step =>
    cases step with
    | startSpawn _ here | stopJoin _ here =>
      refine streams.frame rfl rfl rfl ?_
      simp [View.emitted, View.unclaimed, here]
    | _ => exact streams
  | register step => exact streams.register snapshots step

theorem Polled.frame (polled : Polled view) (polls : after.polls = view.polls)
    (retired : after.signalRing.retired = view.signalRing.retired)
    (reading : ∀ thread, after.reading thread = view.reading thread) : Polled after := by
  intro thread
  unfold View.polled View.retiredBy
  rw [polls, retired, reading thread]
  exact polled thread

/-- Retiring a position hands its signal to the caller. -/
theorem Polled.effect (polled : Polled view) (roles : Roles view) {party : Party Thread}
    {signalRing : Summary (Party Thread) ThreatSignal}
    (effect : Effect view.signalRing party signalRing) : Polled { view with signalRing } := by
  intro thread
  have before := polled thread
  unfold View.polled View.retiredBy at before ⊢
  by_cases own : party = .caller thread
  · subst own
    have reads := roles.caller_reads thread
    cases effect with
    | moves => exact before
    | claims phase | publishes phase | refuses phase =>
      rw [phase] at reads
      exact reads.elim
    | takes phase | empty phase =>
      refine Eq.trans (congrArg _ ?_) before
      cases here : view.callers thread <;>
        simp [View.reading, here, phase, go_phases_self, handed]
    | @retires owner pos signal phase found =>
      rw [phase] at reads
      obtain ⟨maxCount, out, polling⟩ := reads
      simp only [View.reading, polling, phase, handed, append_nil] at before
      simp only [View.reading, polling, go_phases_self, handed, filter_append, map_append, ← before]
      simp
  · have reading : View.reading { view with signalRing } thread = view.reading thread := by
      unfold View.reading
      rw [effect.phases_of_ne (Ne.symm own)]
    rw [reading, before]
    cases effect with
    | retires => simp [filter_append, own]
    | _ => rfl

variable {thread : Thread}

private theorem reading_update {next : Caller}
    (same : View.reading { view with callers := Function.update view.callers thread next } thread =
      view.reading thread) (other : Thread) :
    View.reading { view with callers := Function.update view.callers thread next } other = view.reading other := by
  by_cases here : other = thread
  · rw [here]
    exact same
  · simp only [View.reading, Function.update_of_ne here]

omit [DecidableEq Thread] in
theorem Polls.reading {maxCount : Nat} {out : List ThreatSignal}
    (polls : Polls view action thread maxCount out) : view.reading thread = out := by
  cases polls with
  | pollSignals idle => simp [View.reading, idle]
  | resume polling phase => simp [View.reading, polling, phase, handed]

omit [DecidableEq Thread] in
theorem Records.reading {events : List RawEvent} {pushed : Nat} {began : Nat × Nat} {cycles : UInt64}
    (records : Records view action thread events pushed began cycles) : view.reading thread = [] := by
  cases records with
  | record here | recordBatch here | resume here => simp [View.reading, here]

theorem Polled.returns (polled : Polled view) {out : List ThreatSignal}
    (reading : view.reading thread = out) : Polled (view.pollReturns thread out) := by
  intro other
  refine Eq.trans ?_ (polled other)
  unfold View.polled Core.pollReturns
  by_cases here : other = thread
  · subst here
    simp [View.reading, ← reading]
  · simp [View.reading, Ne.symm here, Function.update_of_ne here]

theorem Polled.caller (polled : Polled view) (step : CallerStep view action after) : Polled after := by
  cases step with
  | pushes records | returns records =>
    refine polled.frame rfl rfl (reading_update ?_)
    rw [records.reading]
    simp [View.reading]
  | refused recording =>
    refine polled.frame rfl rfl (reading_update ?_)
    simp [View.reading, recording]
  | @pops _ thread maxCount out polls =>
    refine polled.frame rfl rfl fun other => ?_
    by_cases here : other = thread
    · subst here
      rw [polls.reading]
      simp [View.reading, go_phases_self, handed]
    · simp [View.reading, go_phases, here]
  | filled polls => exact polled.returns polls.reading
  | empty polling phase =>
    refine polled.returns ?_
    simp [View.reading, polling, phase, handed]

theorem Polled.emit (polled : Polled view) {done rest : List (Record Thread)}
    (signals : List ThreatSignal) : Polled (view.emit done rest snapshot signals) := by
  cases signals with
  | nil => exact polled
  | cons signal signals =>
    refine polled.frame rfl rfl fun thread => ?_
    simp [View.reading, View.emit, go_phases]

theorem Polled.step (polled : Polled view) (roles : Roles view) (step : Step view action after) : Polled after := by
  cases step with
  | signalRing effect => exact polled.effect roles effect
  | ring | ringSpurious | signalRingSpurious => exact polled
  | caller step => exact polled.caller step
  | worker step =>
    cases step with
    | @evaluates _ _ _ _ signals =>
      refine Polled.emit ?_ signals
      exact polled
    | @signals _ _ _ signals => exact polled.emit signals.tail
    | _ => exact polled
  | control step | register step => cases step <;> exact polled

/-- The `poll_signals` calls have read a first part of the stream, each position once and
every thread in order; a thread that polls alone has read exactly that part. -/
structure ReadInOrder (view : View Thread) (stream : List ThreatSignal) : Prop where
  values : ∀ entry ∈ view.signalRing.retired, stream[entry.2.1]? = some entry.2.2
  once : view.signalRing.retired.Pairwise fun first second => first.2.1 ≠ second.2.1
  in_order : view.signalRing.retired.Pairwise fun first second =>
    first.1 = second.1 → first.2.1 < second.2.1
  first_part : ∀ pos, pos < view.signalRing.takes.length ↔ (∃ entry ∈ view.signalRing.retired, entry.2.1 = pos) ∨
      ∃ thread, view.signalRing.phases (.caller thread) = .taken pos
  polled : ∀ thread, view.polled thread = view.retiredBy thread
  alone : ∀ thread, (∀ taker ∈ view.signalRing.takes, taker = .caller thread) → view.polled thread <+: stream

theorem Polled.readInOrder (polled : Polled view) (roles : Roles view) : ReadInOrder view view.emitted where
  values entry member := by
    obtain ⟨-, owner, found⟩ := roles.signalSound.retired_value entry member
    have inside := (List.getElem?_eq_some_iff.mp found).1
    unfold View.emitted
    rw [List.getElem?_append_left (by rwa [length_map]), List.getElem?_map, found]
    rfl
  once := roles.signalSound.retired_once
  in_order := roles.signalSound.in_order
  first_part pos := by
    constructor
    · intro inside
      by_cases done : ∃ entry ∈ view.signalRing.retired, entry.2.1 = pos
      · exact .inl done
      · obtain ⟨party, holds⟩ := roles.signalSound.readers pos inside
          fun entry member same => done ⟨entry, member, same⟩
        cases party with
        | worker =>
          have writes := roles.worker_writes
          rw [holds] at writes
          exact writes.elim
        | caller thread => exact .inr ⟨thread, holds⟩
    · rintro (⟨entry, member, rfl⟩ | ⟨thread, holds⟩)
      · exact roles.signalSound.retired_lt member
      · exact (List.getElem?_eq_some_iff.mp (roles.signalSound.taken _ pos holds).1).1
  polled := polled
  alone thread alone := by
    have own : view.retiredBy thread = view.signalRing.retired.map fun entry => entry.2.2 := by
      refine congrArg _ (filter_eq_self.mpr fun entry member => decide_eq_true ?_)
      exact alone _ (mem_of_getElem? (roles.signalSound.retired_value entry member).1)
    have positions := roles.signalSound.positions_of_taker alone
    rw [polled thread, own, roles.signalSound.values_of_positions positions]
    exact ((List.take_prefix _ _).map _).trans (prefix_append _ _)

section

variable {capacity : Capacity} {state : State Thread} {records : Nat → Record Thread} {signals : Nat → ThreatSignal}

omit [DecidableEq Thread] in
theorem NeverFull.accepts (open_ : NeverFull state action) (signal : ThreatSignal) :
    state.view.signalRing.phases .worker ≠ .full signal := by
  intro phase
  change (state.signalRing.threads .worker).phase = .full signal at phase
  cases here : state.signalRing.threads .worker with
  | returned outcome =>
    rw [here] at phase
    cases outcome with
    | full refused => exact open_ refused here
    | _ => cases phase
  | _ =>
    rw [here] at phase
    cases phase

theorem streams_of_reaches (path : Reaches (step exact capacity.size) NeverFull (initial records signals) state) :
    Snapshots state.view ∧ Streams state.view ∧ Polled state.view := by
  induction path with
  | refl => exact ⟨Snapshots.initial records signals, rfl, fun _ => rfl⟩
  | step path open_ ran ih =>
    obtain ⟨snapshots, streams, polled⟩ := ih
    have inv := inv_of_reaches path
    have viewed := (inv.step ran).2
    exact ⟨snapshots.step inv.conserved inv.roles viewed,
      streams.step inv.roles snapshots open_.accepts viewed, polled.step inv.roles viewed⟩

end

/-! A run with a threshold rule and a windowed rule on two events of one batch: three
signals, read in one call. -/

def neverFullTest (state : State Bool) (_ : Action Bool) : Bool :=
  match state.signalRing.threads .worker with
  | .returned (.full _) => false
  | _ => true

private theorem neverFull_of_test (state : State Bool) (action : Action Bool)
    (passed : neverFullTest state action = true) : NeverFull state action := by
  intro signal refused
  simp [neverFullTest, refused] at passed

def onSignalRing (party : Party Bool) : List (Action Bool) :=
  List.replicate 5 (.signalRing party)

def twoRules : List (Action Bool) :=
  List.flatten [ [.addRule ⟨7, 1, 5, 0, 3⟩ true, .recordBatch false [⟨1, 10, 9⟩, ⟨1, 11, 8⟩] 100],
    onRing (.caller false), [.resume false 101], onRing (.caller false), [.resume false 102],
    [.addCepRule ⟨8, 1, 0, 3, 0, 0, 15, 2⟩ true], startWorker, onRing .worker, [.work],
    onRing .worker, [.work, .ring .worker, .ring .worker, .work, .work, .work, .clock 0],
    [.work], onSignalRing .worker, [.work, .work], onSignalRing .worker, [.work],
    onSignalRing .worker, [.work], [.pollSignals true 9], onSignalRing (.caller true),
    [.resume true 0], onSignalRing (.caller true), [.resume true 0],
    onSignalRing (.caller true), [.resume true 0],
    [.signalRing (.caller true), .signalRing (.caller true), .resume true 0]]

end AnimusCore.Engine
