import AnimusCore.Engine.Lifecycle
import AnimusCore.Engine.Log
import AnimusCore.RingBuffer.Progress
import Mathlib.Data.Prod.Lex

/-! The worker gets on. While a record of the log is due, every step of the worker lowers
a rank that no other step changes: the records still to be logged, the point of the loop,
the room in the batch, the events and signals left, and the accesses left in a call. -/

set_option autoImplicit false

namespace AnimusCore.Engine

open Lib Lib.Ring RingBuffer

variable {Thread : Type} [DecidableEq Thread] {counting : Counting} {size : Nat}
  {state after : State Thread} {action : Action Thread}

theorem Acts.threads_of_ne {T : Type} {party : Party Thread} {actor : Option (Party Thread)}
    {ring next : RingBuffer.State (Party Thread) T} (acts : Acts counting size actor ring next)
    (other : actor ≠ some party) : next.threads party = ring.threads party := by
  rcases acts with rfl | ⟨action, ran, rfl⟩
  · rfl
  · exact step_threads_of_ne ran fun same => other (congrArg some same.symm)

/-- The worker alone moves the positions it works with. -/
structure Fronts (state : State Thread) : Prop where
  ring : state.ring.AtFront .worker
  signalRing : state.signalRing.AtFront .worker

theorem Fronts.step {capacity : Capacity} (fronts : Fronts state) (inv : Inv capacity state)
    (ran : Engine.step exact capacity.size state action = some after) : Fronts after := by
  obtain ⟨onRing, onSignalRing⟩ := step_acts ran
  obtain ⟨tickets, tracks⟩ := inv.tracked.ring
  obtain ⟨signalTickets, signalTracks⟩ := inv.tracked.signalRing
  constructor
  · rcases onRing with same | ⟨action, moved, -⟩
    · rw [same]
      exact fronts.ring
    · cases actor : action.thread with
      | worker => exact actor ▸ tracks.atFront_step (actor ▸ fronts.ring) moved
      | caller thread =>
        refine fronts.ring.of_reads inv.roles.worker_reads (step_threads_of_ne moved ?_) ?_
        · simp [actor]
        · exact tracks.step_takes (actor ▸ inv.roles.caller_writes thread) moved
  · rcases onSignalRing with same | ⟨action, moved, -⟩
    · rw [same]
      exact fronts.signalRing
    · cases actor : action.thread with
      | worker => exact actor ▸ signalTracks.atFront_step (actor ▸ fronts.signalRing) moved
      | caller thread =>
        refine fronts.signalRing.of_writes inv.roles.worker_writes (step_threads_of_ne moved ?_) ?_
        · simp [actor]
        · exact signalTracks.step_claims (actor ▸ inv.roles.caller_reads thread) moved

def Worker.Batched : Worker Thread → Prop
  | .rulesLock batch | .cepRulesLock batch _ | .readClock batch _ _ => batch ≠ []
  | .evaluating done rest _ | .signalling done rest _ _ => done ++ rest ≠ []
  | _ => True

variable {view next : View Thread}

private theorem emit_batched {done rest : List (Record Thread)} {snapshot : Snapshot} (signals : List ThreatSignal)
    (batch : done ++ rest ≠ []) : (view.emit done rest snapshot signals).worker.Batched := by
  cases signals <;> exact batch

theorem WorkerStep.batched (step : WorkerStep view action next) (batched : view.worker.Batched) :
    next.worker.Batched := by
  cases step with
  | @filled _ batch _ full =>
    rintro rfl
    exact full (show 0 < 1024 by decide)
  | ends _ some => exact some
  | rulesLock here | cepRulesLock here =>
    rw [here] at batched
    exact batched
  | readClock here =>
    rw [here] at batched
    exact batched
  | evaluates here =>
    refine emit_batched _ ?_
    simp
  | signals here =>
    rw [here] at batched
    exact emit_batched _ batched
  | _ => trivial

/-- Only the worker's own steps and those that spawn or join it move the worker. -/
theorem Step.worker_cases (step : Step view action next) : WorkerStep view action next ∨ next.logFile = view.logFile ∧
      (next.worker = view.worker ∨ view.worker = .absent ∧ next.worker = .opening ∨
        view.worker = .exited ∧ next.worker = .absent) := by
  cases step with
  | ring | ringSpurious | signalRing | signalRingSpurious => exact .inr ⟨rfl, .inl rfl⟩
  | caller step | register step => cases step <;> exact .inr ⟨rfl, .inl rfl⟩
  | worker step => exact .inl step
  | control step =>
    cases step with
    | startSpawn _ here => exact .inr ⟨rfl, .inr (.inl ⟨here, rfl⟩)⟩
    | stopJoin _ here => exact .inr ⟨rfl, .inr (.inr ⟨here, rfl⟩)⟩
    | _ => exact .inr ⟨rfl, .inl rfl⟩

theorem Step.batched (step : Step view action next) (batched : view.worker.Batched) : next.worker.Batched := by
  rcases step.worker_cases with own | ⟨-, same | ⟨-, spawned⟩ | ⟨-, joined⟩⟩
  · exact own.batched batched
  · rw [same]
    exact batched
  · rw [spawned]
    trivial
  · rw [joined]
    trivial

/-- The points of the loop, counted down to the next write; a pop that has found nothing
for an empty batch is further from it than one under way. -/
def View.stage (view : View Thread) : Nat :=
  match view.worker with
  | .sinkDown => 9
  | .opening | .sinkWait | .testRunning | .writing _ [] => 8
  | .popping batch =>
    match batch, view.ring.phases .worker with
    | [], .empty => 9
    | _, _ => 7
  | .rulesLock _ => 6
  | .cepRulesLock _ _ => 5
  | .readClock _ _ _ => 4
  | .evaluating _ _ _ | .signalling _ _ _ _ => 3
  | .writing _ (_ :: _) => 2
  | .absent | .exited => 0

def Worker.ahead : Worker Thread → Nat
  | .popping batch => batchSize - batch.length
  | .evaluating _ rest _ | .signalling _ rest _ _ => rest.length
  | _ => 0

def Worker.signalsAhead : Worker Thread → Nat
  | .signalling _ _ _ signals => signals.length + 1
  | _ => 0

def View.point (view : View Thread) : Nat ×ₗ Nat ×ₗ Nat :=
  toLex (view.stage, toLex (view.worker.ahead, view.worker.signalsAhead))

section
omit [DecidableEq Thread]

private theorem point_lt_of_stage (lower : next.stage < view.stage) : next.point < view.point :=
  Prod.Lex.toLex_lt_toLex.mpr (.inl lower)

private theorem stage_popping {batch : List (Record Thread)} (here : view.worker = .popping batch)
    (busy : batch ≠ [] ∨ view.ring.phases .worker ≠ .empty) : view.stage = 7 := by
  unfold View.stage
  rw [here]
  cases batch with
  | nil =>
    have looking := busy.resolve_left fun some => some rfl
    cases phase : view.ring.phases .worker with
    | empty => exact absurd phase looking
    | _ => rfl
  | cons => rfl

theorem Collects.stage {batch : List (Record Thread)} (collects : Collects view action batch) :
    view.stage = 8 ∨ view.stage = 7 ∧ view.worker.ahead = batchSize + 1 - batch.length := by
  cases collects with
  | opening here | reopening here | written here | again here =>
    exact .inl (by simp [View.stage, here])
  | @item front item here phase =>
    refine .inr ⟨stage_popping here (.inr (by simp [phase])), ?_⟩
    rw [here, List.length_append, List.length_singleton, Nat.add_sub_add_right]
    rfl

end

private theorem emit_point {done rest : List (Record Thread)} {snapshot : Snapshot}
    (signals : List ThreatSignal) : (view.emit done rest snapshot signals).point =
      toLex (3, toLex (rest.length, if signals = [] then 0 else signals.length + 1)) := by
  cases signals <;> rfl

/-- Every step of the worker that succeeds brings it closer to the next write. -/
theorem WorkerStep.lowers (step : WorkerStep view action next) (batched : view.worker.Batched)
    (running : view.running = true) (opens : action ≠ .tryOpen false) (awake : action ≠ .sleep)
    (stores : action ≠ .writeFails) : next.logFile.length = view.logFile.length + 1 ∨
      next.logFile = view.logFile ∧ next.point < view.point := by
  cases step with
  | @pops _ batch collects more =>
    refine .inr ⟨rfl, ?_⟩
    have stage : View.stage { view with
        ring := view.ring.go .worker .seeking, worker := .popping batch } = 7 :=
      stage_popping rfl (.inr (by rw [go_phases_self]; simp))
    rcases collects.stage with above | ⟨level, ahead⟩
    · refine point_lt_of_stage ?_
      omega
    · refine Prod.Lex.toLex_lt_toLex.mpr (.inr ⟨stage.trans level.symm, ?_⟩)
      refine Prod.Lex.toLex_lt_toLex.mpr (.inl ?_)
      change batchSize - batch.length < _
      omega
  | filled collects =>
    refine .inr ⟨rfl, point_lt_of_stage ?_⟩
    change 6 < view.stage
    rcases collects.stage with above | ⟨level, -⟩ <;> omega
  | openFails => exact absurd rfl opens
  | sleep => exact absurd rfl awake
  | retries here | rulesLock here | cepRulesLock here | readClock here =>
    refine .inr ⟨rfl, point_lt_of_stage ?_⟩
    simp [View.stage, here]
  | givesUp _ stopped | exits _ stopped =>
    rw [running] at stopped
    cases stopped
  | drained here phase =>
    refine .inr ⟨rfl, point_lt_of_stage ?_⟩
    simp [View.stage, here, phase]
  | ends here some =>
    refine .inr ⟨rfl, point_lt_of_stage ?_⟩
    rw [stage_popping here (.inl some)]
    simp [View.stage]
  | @evaluates done rest record snapshot signals cepRules here =>
    have before : view.point = toLex (3, toLex (rest.length + 1, 0)) := by
      simp [View.point, View.stage, Worker.ahead, Worker.signalsAhead, here]
    refine .inr ⟨(emit_held signals).2.2.2.2.1, ?_⟩
    rw [emit_point, before]
    refine Prod.Lex.toLex_lt_toLex.mpr (.inr ⟨rfl, ?_⟩)
    exact Prod.Lex.toLex_lt_toLex.mpr (.inl (Nat.lt_succ_self _))
  | @signals done rest snapshot signals here =>
    have before : view.point = toLex (3, toLex (rest.length, signals.length + 1)) := by
      simp [View.point, View.stage, Worker.ahead, Worker.signalsAhead, here]
    refine .inr ⟨(emit_held signals.tail).2.2.2.2.1, ?_⟩
    rw [emit_point, before]
    refine Prod.Lex.toLex_lt_toLex.mpr (.inr ⟨rfl, ?_⟩)
    refine Prod.Lex.toLex_lt_toLex.mpr (.inr ⟨rfl, ?_⟩)
    cases signals with
    | nil => exact Nat.zero_lt_one
    | cons signal signals =>
      change (if signals = [] then 0 else signals.length + 1) < signals.length + 1 + 1
      split <;> omega
  | @evaluated done _ here =>
    rw [here] at batched
    refine .inr ⟨rfl, point_lt_of_stage ?_⟩
    cases done with
    | nil => exact absurd rfl batched
    | cons => simp [View.stage, here]
  | stores =>
    refine .inl ?_
    simp
  | writeFails => exact absurd rfl stores

/-- No open or write fails, no retry of an open is put off, and no exchange of the worker
fails without a reason. -/
def Succeeds (state : State Thread) (action : Action Thread) : Prop :=
  SinkWorks state action ∧ action ≠ .sleep ∧ action ≠ .ringSpurious .worker ∧ action ≠ .signalRingSpurious .worker

structure Persisting (capacity : Capacity) (state : State Thread) : Prop where
  inv : Inv capacity state
  written : Written state.view
  fronts : Fronts state
  batched : state.worker.Batched

def State.rank (due : Nat) (state : State Thread) : Nat ×ₗ (Nat ×ₗ Nat ×ₗ Nat) ×ₗ Nat :=
  toLex (due - state.logFile.length, toLex (state.view.point,
    (state.ring.threads .worker).remaining + (state.signalRing.threads .worker).remaining))

variable {capacity : Capacity} {due : Nat}

theorem Persisting.step (persisting : Persisting capacity state) (stores : Stores state action)
    (ran : Engine.step exact capacity.size state action = some after) : Persisting capacity after := by
  obtain ⟨inv, viewed⟩ := persisting.inv.step ran
  refine ⟨inv, ?_, persisting.fronts.step persisting.inv ran, viewed.batched persisting.batched⟩
  refine persisting.written.step persisting.inv.roles ?_ viewed
  rintro rfl
  exact stores

/-- A step of the worker that succeeds is one access of a call, or a step of the loop. -/
theorem Succeeds.cases (succeeds : Succeeds state action) (own : action.party = some .worker)
    (step : Step view action next) :
    action = .ring .worker ∨ action = .signalRing .worker ∨ WorkerStep view action next := by
  obtain ⟨-, -, ring, signalRing⟩ := succeeds
  cases step with
  | ring =>
    cases own
    exact .inl rfl
  | signalRing =>
    cases own
    exact .inr (.inl rfl)
  | ringSpurious =>
    cases own
    exact absurd rfl ring
  | signalRingSpurious =>
    cases own
    exact absurd rfl signalRing
  | worker step => exact .inr (.inr step)
  | caller step =>
    cases step with
    | pushes records | returns records => cases records <;> cases own
    | pops polls | filled polls => cases polls <;> cases own
    | refused | empty => cases own
  | control step | register step => cases step <;> cases own

omit [DecidableEq Thread] in
/-- A worker that looks for the first record of a batch is at the end of the log. -/
theorem Written.seeking (written : Written view) (conserved : Conserved view) (roles : Roles view)
    (here : view.worker = .popping []) (phase : view.ring.phases .worker = .seeking) :
    view.ring.takes.length = view.logFile.length := by
  have held := congrArg List.length (written.popped conserved)
  rw [View.popped, List.length_map] at held
  rw [roles.single.between (by simp [phase]), held]
  simp [View.item, here, phase, handed, Worker.evaluated, Worker.unevaluated]

theorem Persisting.ring_stage (persisting : Persisting capacity state)
    (ready : ∀ pos < due, pos ∈ state.ring.published) (owed : state.logFile.length < due)
    {ring : RingBuffer.State (Party Thread) (Record Thread)}
    (accessed : state.ring.access exact capacity.size .worker = some ring) :
    View.stage { state.view with ring := ring.summary } = state.view.stage := by
  obtain ⟨⟨tickets, tracks⟩, -⟩ := persisting.inv.tracked
  obtain ⟨-, effect⟩ := tracks.access accessed
  have roles := persisting.inv.roles
  have reads := roles.worker_reads
  change Effect state.view.ring .worker ring.summary at effect
  generalize ring.summary = summary at effect ⊢
  cases effect with
  | moves => rfl
  | claims phase | publishes phase | refuses phase =>
    rw [phase] at reads
    exact reads.elim
  | takes phase | retires phase =>
    rw [phase] at reads
    obtain ⟨batch, here⟩ := reads
    rw [stage_popping here (.inr (by simp [phase]))]
    exact stage_popping here (.inr (by rw [go_phases_self]; simp))
  | empty phase missing =>
    rw [phase] at reads
    obtain ⟨batch, here⟩ := reads
    have some : batch ≠ [] := by
      rintro rfl
      -- The front position is due, so it is published and the pop finds it.
      refine missing (ready _ ?_)
      rw [persisting.written.seeking persisting.inv.conserved roles here phase]
      exact owed
    rw [stage_popping here (.inl some)]
    exact stage_popping here (.inl some)

theorem Persisting.rank_lt (persisting : Persisting capacity state) (running : state.running = true)
    (ready : ∀ pos < due, pos ∈ state.ring.published) (owed : state.logFile.length < due)
    (succeeds : Succeeds state action) (own : action.party = some .worker)
    (ran : Engine.step exact capacity.size state action = some after) : after.rank due < state.rank due := by
  obtain ⟨⟨tickets, tracks⟩, ⟨signalTickets, signalTracks⟩⟩ := persisting.inv.tracked
  have viewed := (persisting.inv.step ran).2
  rcases succeeds.cases own viewed with rfl | rfl | step
  · obtain ⟨ring, accessed, rfl⟩ := Option.map_eq_some_iff.mp ran
    have less := (tracks.access_advances persisting.fronts.ring accessed).2
    have stage := persisting.ring_stage ready owed accessed
    refine Prod.Lex.toLex_lt_toLex.mpr (.inr ⟨rfl, ?_⟩)
    refine Prod.Lex.toLex_lt_toLex.mpr (.inr ⟨?_, Nat.add_lt_add_right less _⟩)
    exact congrArg (fun stage => toLex (stage, _)) stage
  · obtain ⟨signalRing, accessed, rfl⟩ := Option.map_eq_some_iff.mp ran
    have less := (signalTracks.access_advances persisting.fronts.signalRing accessed).2
    refine Prod.Lex.toLex_lt_toLex.mpr (.inr ⟨rfl, ?_⟩)
    exact Prod.Lex.toLex_lt_toLex.mpr (.inr ⟨rfl, Nat.add_lt_add_left less _⟩)
  · obtain ⟨works, awake, -⟩ := succeeds
    have opens : action ≠ .tryOpen false := by
      rintro rfl
      cases works
    have stores : action ≠ .writeFails := by
      rintro rfl
      exact works
    rcases step.lowers persisting.batched running opens awake stores with logged | ⟨same, lower⟩
    · refine Prod.Lex.toLex_lt_toLex.mpr (.inl ?_)
      change after.logFile.length = state.logFile.length + 1 at logged
      omega
    · refine Prod.Lex.toLex_lt_toLex.mpr (.inr ⟨?_, Prod.Lex.toLex_lt_toLex.mpr (.inl lower)⟩)
      exact congrArg (fun log => due - List.length log) same

theorem WorkerStep.party (step : WorkerStep view action next) : action.party = some .worker := by
  cases step with
  | pops collects | filled collects => cases collects <;> rfl
  | _ => rfl

/-- The steps of the others leave it as it is. -/
theorem rank_eq (alive : state.worker.alive = true) (other : action.party ≠ some .worker)
    (viewed : Step state.view action after.view) (ran : Engine.step counting size state action = some after) :
    after.rank due = state.rank due := by
  obtain ⟨onRing, onSignalRing⟩ := step_acts ran
  have threads := onRing.threads_of_ne other
  have signalThreads := onSignalRing.threads_of_ne other
  rcases viewed.worker_cases with own | ⟨log, same | ⟨absent, -⟩ | ⟨exited, -⟩⟩
  · exact absurd own.party other
  · have phase : after.view.ring.phases .worker = state.view.ring.phases .worker := congrArg Access.phase threads
    have point : after.view.point = state.view.point := by
      unfold View.point View.stage
      rw [same, phase]
    change after.logFile = state.logFile at log
    unfold State.rank
    rw [log, point, threads, signalThreads]
  · change state.worker = .absent at absent
    simp [absent, Worker.alive] at alive
  · change state.worker = .exited at exited
    simp [exited, Worker.alive] at alive

theorem alive_step (alive : state.worker.alive = true) (running : state.running = true)
    (viewed : Step state.view action after.view) : after.worker.alive = true := by
  rcases viewed.worker_cases with own | ⟨-, same | ⟨absent, -⟩ | ⟨exited, -⟩⟩
  · refine own.alive.2.2.2.resolve_right ?_
    rintro ⟨stopped, -⟩
    change state.running = false at stopped
    rw [running] at stopped
    cases stopped
  · change after.worker = state.worker at same
    rw [same]
    exact alive
  · change state.worker = .absent at absent
    simp [absent, Worker.alive] at alive
  · change state.worker = .exited at exited
    simp [exited, Worker.alive] at alive

theorem Persisting.alive (persisting : Persisting capacity state) (succeeds : Succeeds state action)
    (own : action.party = some .worker) (ran : Engine.step exact capacity.size state action = some after) :
    state.worker.alive = true := by
  have roles := persisting.inv.roles
  rcases succeeds.cases own (persisting.inv.step ran).2 with rfl | rfl | step
  · obtain ⟨ring, accessed, rfl⟩ := Option.map_eq_some_iff.mp ran
    by_contra gone
    have rests := roles.worker_reads.resting fun ⟨batch, here⟩ => gone (congrArg Worker.alive here)
    change (state.ring.threads .worker).phase.resting = true at rests
    rw [Access.phase_resting, busy_of_access accessed] at rests
    cases rests
  · obtain ⟨signalRing, accessed, rfl⟩ := Option.map_eq_some_iff.mp ran
    by_contra gone
    have rests := roles.worker_writes.resting fun _ ⟨_, _, _, _, here⟩ => gone (congrArg Worker.alive here)
    change (state.signalRing.threads .worker).phase.resting = true at rests
    rw [Access.phase_resting, busy_of_access accessed] at rests
    cases rests
  · exact step.alive.1

end AnimusCore.Engine
