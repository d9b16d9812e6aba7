import AnimusCore.Engine.Lifecycle
import AnimusCore.Engine.Log

/-! What `stop_persistence` has drained when it returns. The worker leaves when it finds
the flag cleared after a pop that found nothing. An event that was accepted between that
pop and the call, or behind a position that is claimed and not yet published, is left in
the ring. -/

set_option autoImplicit false

namespace AnimusCore.Engine

open Lib Lib.Ring RingBuffer List

section

variable {Thread : Type}

/-- The worker's last pop found nothing for an empty batch, and it has not tested the flag
since. -/
def View.leaving (view : View Thread) : Bool :=
  match view.worker, view.ring.phases .worker with
  | .popping [], .empty | .testRunning, _ => true
  | _, _ => false

/-- What was asked of the call of `stop_persistence` that is under way. -/
def Core.stopping {Ring SignalRing : Type} (engine : Core Thread Ring SignalRing) : Option (Asked Thread) :=
  match engine.control with
  | .stopLoad asked | .stopStore asked | .stopJoin asked => some asked
  | _ => none

/-- The sink works; a call of `stop_persistence` begins while the worker runs, and not
between the worker's last pop and its test of the flag if an accepted event is in the ring;
while the call is under way, a pop for an empty batch that finds the front position
unpublished finds none of the events accepted before the call behind it. -/
def Drains (state : State Thread) : Action Thread → Prop
  | .tryOpen opens => opens = true
  | .writeFails => False
  | .stopPersistence => state.running = true ∧ (state.view.leaving = true →
      ∀ pos ∈ state.ring.published, pos < state.ring.takes.length)
  | .ring .worker =>
    match state.stopping, state.worker, state.ring.threads .worker with
    | some asked, .popping [], .popLoadSeq pos =>
      pos ∉ state.ring.published → ∀ due ∈ asked.published, due < pos
    | _, _, _ => True
  | _ => True

instance (state : State Thread) (action : Action Thread) : Decidable (Drains state action) := by
  cases action with
  | ring party =>
    cases party <;> dsimp only [Drains]
    all_goals repeat' split
    all_goals infer_instance
  | _ => dsimp only [Drains]; infer_instance

variable [DecidableEq Thread]

/-- The accepted events of the calls lie in front of any position that all their published
positions are in front of. -/
def Covers (claims : List (Party Thread × Record Thread)) (asked : Asked Thread) : Prop :=
  ∀ thread bound, (∀ pos ∈ asked.published, pos < bound) →
    accepted asked.calls thread <+: recordedBy ((claims.take bound).map Prod.snd) thread

structure Draining (view : View Thread) : Prop where
  running : ∀ asked, view.control = .stopLoad asked → view.running = true
  sink : view.worker ≠ .sinkDown ∧ view.worker ≠ .sinkWait
  covered : ∀ asked, view.stopping = some asked ∨ view.control = .stopped asked → Covers view.ring.claims asked
  drained : ∀ asked, view.stopping = some asked → view.leaving = true ∨ view.worker = .exited →
    ∀ pos ∈ asked.published, pos < view.ring.takes.length
  stopped : ∀ asked, view.control = .stopped asked → ∀ pos ∈ asked.published, pos < view.logFile.length

end

private theorem length_filter_le_one {α : Type} {test : α → Bool} {list : List α}
    (unique : ∀ (first second : Nat) (left right : α), list[first]? = some left →
      list[second]? = some right → test left = true → test right = true → first = second) :
    (list.filter test).length ≤ 1 := by
  induction list with
  | nil => exact Nat.zero_le 1
  | cons head list ih =>
    cases passes : test head with
    | true =>
      have others : list.filter test = [] := by
        refine filter_eq_nil_iff.mpr fun other member passes' => ?_
        obtain ⟨index, found⟩ := mem_iff_getElem?.mp member
        have same := unique 0 (index + 1) head other rfl found passes passes'
        omega
      rw [filter_cons_of_pos passes, others]
      rfl
    | false =>
      rw [filter_cons_of_neg (by simp [passes])]
      refine ih fun first second left right here there passes passes' => ?_
      have same := unique (first + 1) (second + 1) left right here there passes passes'
      omega

variable {Thread : Type} [DecidableEq Thread] {view after : View Thread} {action : Action Thread}

theorem Covers.mono {claims more : List (Party Thread × Record Thread)} {asked : Asked Thread}
    (covers : Covers claims asked) (grown : claims <+: more) : Covers more asked := by
  intro thread bound front
  exact (covers thread bound front).trans ((((grown.take bound).map _).filter _).map _)

omit [DecidableEq Thread] in
theorem Roles.inFlight_pos (roles : Roles view) {thread : Thread} {record : Record Thread} {pos : Nat}
    (filling : view.ring.phases (.caller thread) = .claimed record pos) : 1 ≤ (view.inFlight thread).length := by
  have writes := roles.caller_writes thread
  rw [filling] at writes
  obtain ⟨events, pushed, recording, found, -⟩ := writes
  have inside := (List.getElem?_eq_some_iff.mp found).1
  rw [inFlight_of_recording recording, filling, length_take]
  simp only [counted]
  omega

theorem Accepts.covers (accepts : Accepts view) (roles : Roles view) :
    Covers view.ring.claims ⟨view.calls, view.ring.published⟩ := by
  intro thread bound front
  have fills : ∀ index claim, (view.ring.claims.drop bound)[index]? = some claim →
      decide (claim.2.caller = thread) = true →
      view.ring.phases (.caller thread) = .claimed claim.2 (bound + index) := by
    intro index claim found own
    rw [List.getElem?_drop] at found
    rw [← of_decide_eq_true own]
    refine roles.filling found fun published => ?_
    have before := front _ published
    omega
  have late : (recordedBy ((view.ring.claims.drop bound).map Prod.snd) thread).length ≤
      (view.inFlight thread).length := by
    rw [recordedBy, length_map, filter_map, length_map]
    by_cases none : (view.ring.claims.drop bound).filter
        ((fun record => decide (record.caller = thread)) ∘ Prod.snd) = []
    · rw [none]
      exact Nat.zero_le _
    · obtain ⟨claim, member⟩ := exists_mem_of_ne_nil _ none
      obtain ⟨member, own⟩ := mem_filter.mp member
      obtain ⟨index, found⟩ := mem_iff_getElem?.mp member
      refine Nat.le_trans ?_ (roles.inFlight_pos (fills index claim found own))
      refine length_filter_le_one fun first second left right here there own own' => ?_
      have same := (fills first left here own).symm.trans (fills second right there own')
      simp only [Phase.claimed.injEq] at same
      omega
  have whole := accepts thread
  have split : recordedBy view.records thread = recordedBy ((view.ring.claims.take bound).map Prod.snd) thread ++
        recordedBy ((view.ring.claims.drop bound).map Prod.snd) thread := by
    rw [← recordedBy_append, ← map_append, take_append_drop]
    rfl
  refine prefix_of_prefix_length_le ⟨_, whole.symm⟩ ⟨_, split.symm⟩ ?_
  have lengths := congrArg List.length (whole.symm.trans split)
  rw [length_append, length_append] at lengths
  change (accepted view.calls thread).length ≤ _
  omega

omit [DecidableEq Thread] in
private theorem leaving_iff : view.leaving = true ↔ view.worker = .popping [] ∧ view.ring.phases .worker = .empty ∨
      view.worker = .testRunning := by
  unfold View.leaving
  split
  case h_1 popping empty => simp [popping, empty]
  case h_2 testing => simp [testing]
  case h_3 testing popping =>
    simp only [Bool.false_eq_true, false_iff, not_or, not_and]
    exact ⟨popping, testing⟩

private theorem leaving_effect {party : Party Thread} {ring : Summary (Party Thread) (Record Thread)}
    (effect : Effect view.ring party ring) (leaving : View.leaving { view with ring } = true) :
    view.leaving = true ∨ view.worker = .popping [] ∧ party = .worker ∧
      view.ring.phases .worker = .seeking ∧ ring.phases .worker = .empty ∧ ring.takes = view.ring.takes := by
  rcases leaving_iff.mp leaving with ⟨popping, empty⟩ | testing
  · by_cases own : party = .worker
    · subst own
      cases effect with
      | moves => exact .inl (leaving_iff.mpr (.inl ⟨popping, empty⟩))
      | empty phase => exact .inr ⟨popping, rfl, phase, go_phases_self, rfl⟩
      | claims | publishes | refuses | takes | retires =>
        cases empty
    · rw [effect.phases_of_ne (Ne.symm own)] at empty
      exact .inl (leaving_iff.mpr (.inl ⟨popping, empty⟩))
  · exact .inl (leaving_iff.mpr (.inr testing))

section
variable (draining : Draining view)
include draining

theorem Draining.ring {party : Party Thread} {ring : Summary (Party Thread) (Record Thread)}
    (effect : Effect view.ring party ring) (finds : ∀ asked, view.stopping = some asked → view.worker = .popping [] →
      party = .worker → view.ring.phases .worker = .seeking → ring.phases .worker = .empty →
      ∀ pos ∈ asked.published, pos < view.ring.takes.length) : Draining { view with ring } where
  __ := draining
  covered asked under := (draining.covered asked under).mono effect.claims_prefix
  drained asked under quiet pos due := by
    have grown := effect.takes_prefix.length_le
    have before : view.leaving = true ∨ view.worker = .exited →
        pos < view.ring.takes.length := fun quiet => draining.drained asked under quiet pos due
    rcases quiet with leaving | exited
    · rcases leaving_effect effect leaving with leaving | ⟨popping, own, seeking, empty, -⟩
      · exact Nat.lt_of_lt_of_le (before (.inl leaving)) grown
      · exact Nat.lt_of_lt_of_le (finds asked under popping own seeking empty pos due) grown
    · exact Nat.lt_of_lt_of_le (before (.inr exited)) grown

theorem Draining.caller (step : CallerStep view action after) : Draining after := by
  cases step with
  | @pushes _ thread =>
    refine { draining with drained := ?_ }
    intro asked under quiet
    refine draining.drained asked under (quiet.imp_left fun leaving => ?_)
    rw [leaving_iff] at leaving ⊢
    simpa only [go_phases, if_neg (show Party.worker ≠ .caller thread by simp)] using leaving
  | _ => exact { draining with }

theorem Draining.setWorker {next : Worker Thread} (sink : next ≠ .sinkDown ∧ next ≠ .sinkWait)
    (quiet : View.leaving { view with worker := next } = true ∨ next = .exited →
      view.leaving = true) : Draining { view with worker := next } where
  __ := draining
  sink := sink
  drained asked under now := draining.drained asked under (.inl (quiet now))

theorem Draining.emit {done rest : List (Record Thread)} {snapshot : Snapshot}
    (signals : List ThreatSignal) : Draining (view.emit done rest snapshot signals) := by
  cases signals with
  | nil => exact draining.setWorker (by simp) (by simp [leaving_iff])
  | cons signal signals =>
    have moved : Draining { view with
        worker := .signalling done rest snapshot (signal :: signals) } :=
      draining.setWorker (by simp) (by simp [leaving_iff])
    exact { moved with }

theorem Draining.worker (opens : action ≠ .tryOpen false) (stores : action ≠ .writeFails)
    (step : WorkerStep view action after) : Draining after := by
  cases step with
  | @pops _ batch =>
    refine { draining with sink := by simp, drained := ?_ }
    intro asked under quiet
    simp [leaving_iff, go_phases_self] at quiet
  | openFails => exact absurd rfl opens
  | writeFails => exact absurd rfl stores
  | sleep here => exact absurd here draining.sink.2
  | retries here | givesUp here => exact absurd here draining.sink.1
  | drained here phase =>
    exact draining.setWorker (by simp) fun _ => leaving_iff.mpr (.inl ⟨here, phase⟩)
  | exits here =>
    exact draining.setWorker (by simp) fun _ => leaving_iff.mpr (.inr here)
  | evaluates =>
    refine Draining.emit ?_ _
    exact { draining with }
  | signals => exact draining.emit _
  | stores here =>
    refine { draining with sink := by simp, drained := ?_, stopped := ?_ }
    · intro asked under quiet
      simp [leaving_iff] at quiet
    · intro asked under pos due
      rw [length_append]
      exact Nat.lt_add_right _ (draining.stopped asked under pos due)
  | filled | ends | rulesLock | cepRulesLock | readClock | evaluated =>
    exact draining.setWorker (by simp) (by simp [leaving_iff])

end

omit [DecidableEq Thread] in
/-- A worker that has left has written all it took. -/
theorem Written.exited (written : Written view) (conserved : Conserved view) (roles : Roles view)
    (exited : view.worker = .exited) : view.ring.takes.length = view.logFile.length := by
  have rests := roles.worker_reads.resting (by simp [exited])
  have level := roles.single.between fun pos taken => by simp [taken, Phase.resting] at rests
  have popped := congrArg List.length (written.popped conserved)
  simp only [View.popped, View.item, exited, Worker.evaluated, Worker.unevaluated, length_map, append_nil] at popped
  rw [level, popped]

theorem Draining.control (draining : Draining view) (roles : Roles view)
    (accepts : Accepts view) (conserved : Conserved view) (written : Written view) (life : Lifecycle view)
    (asks : action = .stopPersistence → view.running = true ∧ (view.leaving = true →
      ∀ pos ∈ view.ring.published, pos < view.ring.takes.length))
    (step : ControlStep view action after) : Draining after := by
  cases step with
  | startPersistence | started | starts | startStore =>
    exact ⟨by simp, draining.sink, by simp [Core.stopping], by simp [Core.stopping], by simp⟩
  | startSpawn =>
    exact ⟨by simp, by simp, by simp [Core.stopping], by simp [Core.stopping], by simp⟩
  | stopPersistence free =>
    obtain ⟨running, clear⟩ := asks rfl
    have present : view.worker ≠ .exited := by
      intro exited
      unfold Lifecycle at life
      unfold Core.unoccupied at free
      split at free
      case h_1 here => simp [here, Control.Agrees, exited, Worker.alive] at life
      case h_2 here => simp [here, Control.Agrees, exited, Worker.alive] at life
      case h_3 => cases free
    refine ⟨fun _ _ => running, draining.sink, ?_, ?_, by simp⟩
    · intro asked under
      simp only [Core.stopping, Option.some.injEq, reduceCtorEq, or_false] at under
      subst under
      exact accepts.covers roles
    · intro asked under quiet
      cases under
      exact clear (quiet.resolve_right present)
  | stops here | stopStore here =>
    refine ⟨by simp, draining.sink, ?_, ?_, by simp⟩
    · intro asked under
      refine draining.covered asked (.inl ?_)
      simpa [Core.stopping, here] using under
    · intro asked under quiet
      refine draining.drained asked ?_ quiet
      simpa [Core.stopping, here] using under
  | unstarted here off =>
    have on := draining.running _ here
    rw [off] at on
    cases on
  | unjoinable here absent =>
    unfold Lifecycle at life
    rw [here] at life
    exact absurd absent life.2
  | @stopJoin asked here exited =>
    have under : view.stopping = some asked := by simp [Core.stopping, here]
    have drained := draining.drained asked under (.inr exited)
    rw [written.exited conserved roles exited] at drained
    refine ⟨by simp, by simp, ?_, by simp [Core.stopping], ?_⟩
    · intro other under'
      simp only [Core.stopping, reduceCtorEq, Control.stopped.injEq, false_or] at under'
      subst under'
      exact draining.covered asked (.inl under)
    · intro other under'
      simp only [Control.stopped.injEq] at under'
      subst under'
      exact drained

variable {capacity : Capacity} {state next : State Thread}
  {records : Nat → Record Thread} {signals : Nat → ThreatSignal}

omit [DecidableEq Thread] in
private theorem stores_of_drains (state : State Thread) (action : Action Thread)
    (drains : Drains state action) : Stores state action := by
  cases action <;> trivial

theorem Drains.finds (drains : Drains state action) (tracked : Tracked capacity state)
    (ran : step exact capacity.size state action = some next) {asked : Asked Thread}
    (under : state.stopping = some asked) (popping : state.worker = .popping []) (own : action = .ring .worker)
    (seeking : state.view.ring.phases .worker = .seeking) (empty : next.view.ring.phases .worker = .empty) :
    ∀ pos ∈ asked.published, pos < state.ring.takes.length := by
  subst own
  obtain ⟨ring, accessed, rfl⟩ := Option.map_eq_some_iff.mp ran
  obtain ⟨tickets, tracks⟩ := tracked.ring
  obtain ⟨here, unpublished⟩ := tracks.access_empty accessed seeking empty
  simp only [Drains, under, popping, here] at drains
  exact drains unpublished

theorem Draining.step (draining : Draining state.view) (inv : Inv capacity state) (written : Written state.view)
    (life : Lifecycle state.view) (drains : Drains state action)
    (ran : Engine.step exact capacity.size state action = some next) : Draining next.view := by
  obtain ⟨tracked, roles, conserved, accepts⟩ := inv
  have viewed := (tracked.step ran).2
  have finds : ∀ {asked}, state.stopping = some asked → state.worker = .popping [] →
      action = .ring .worker → state.view.ring.phases .worker = .seeking →
      next.view.ring.phases .worker = .empty →
      ∀ pos ∈ asked.published, pos < state.ring.takes.length :=
    drains.finds tracked ran
  generalize next.view = after at viewed finds
  cases viewed with
  | ring effect =>
    refine draining.ring effect fun asked under popping own => ?_
    subst own
    exact finds under popping rfl
  | ringSpurious | signalRingSpurious => exact draining
  | signalRing => exact { draining with }
  | caller step => exact draining.caller step
  | worker step =>
    refine draining.worker ?_ ?_ step
    · rintro rfl
      cases drains
    · rintro rfl
      exact drains
  | control step =>
    refine draining.control roles accepts conserved written life ?_ step
    rintro rfl
    exact drains
  | register step => cases step <;> exact { draining with }

theorem draining_of_reaches (path : Reaches (step exact capacity.size) Drains (initial records signals) state) :
    Draining state.view ∧ Lifecycle state.view := by
  induction path with
  | refl =>
    refine ⟨⟨?_, ?_, ?_, ?_, ?_⟩, .inr ⟨rfl, rfl⟩⟩ <;>
      simp [initial, State.view, Core.stopping]
  | step path drains ran ih =>
    obtain ⟨draining, life⟩ := ih
    have inv := inv_of_reaches path
    have written := written_of_reaches stores_of_drains path
    exact ⟨draining.step inv written life drains ran, life.step (inv.tracked.step ran).2⟩

/-- When `stop_persistence` returns in such a run, the events that were accepted before it
began are evaluated and in the log. -/
theorem stop_persistence_drains (capacity : Capacity)
    (path : Reaches (step exact capacity.size) Drains (initial records signals) state)
    {asked : Asked Thread} (returned : state.control = .stopped asked) :
    state.logFile <+: state.evaluations.map Evaluation.record ∧
      ∀ thread, accepted asked.calls thread <+: recordedBy state.logFile thread := by
  obtain ⟨-, roles, conserved, -⟩ := inv_of_reaches path
  have written := written_of_reaches stores_of_drains path
  obtain ⟨draining, -⟩ := draining_of_reaches path
  refine ⟨⟨_, written.symm⟩, fun thread => ?_⟩
  have covered := draining.covered asked (.inr returned) thread _ (draining.stopped asked returned)
  rw [← (written.logFile conserved roles).1] at covered
  exact covered

def recordOne : List (Action Bool) :=
  List.flatten [[.record false ⟨1, 10, 5⟩ 100], onRing (.caller false), [.resume false 101]]

def stopInTime : List (Action Bool) :=
  List.flatten [ recordOne, [.startPersistence, .control, .control, .control, .stopPersistence, .control],
    [.tryOpen true], persist 1,
    [.work, .control, .ring .worker, .ring .worker, .work, .work, .control]]

def stoppedWith (calls : List (Call Bool)) (state : State Bool) : Bool :=
  match state.control with
  | .stopped asked => asked.calls = calls
  | _ => false

theorem stop_persistence_drains_one_event :
    ∃ (state : State Bool) (asked : Asked Bool), state.control = .stopped asked ∧
      accepted asked.calls false = [⟨1, 10, 5⟩] ∧ state.logFile <+: state.evaluations.map Evaluation.record ∧
      ∀ thread, accepted asked.calls thread <+: recordedBy state.logFile thread := by
  have runs : (executeIf (step exact 4) (fun state action => decide (Drains state action))
      newEngine stopInTime).any (stoppedWith [⟨false, [⟨1, 10, 5⟩], 1⟩]) = true := by
    decide +kernel
  obtain ⟨state, path, stopped⟩ := exists_reaches_of_executeIf (fun _ _ passed => of_decide_eq_true passed) runs
  unfold stoppedWith at stopped
  split at stopped
  case h_1 asked returned =>
    refine ⟨state, asked, returned, ?_, stop_persistence_drains fourCells path returned⟩
    rw [of_decide_eq_true stopped]
    decide
  case h_2 => cases stopped

/-- The event is recorded after the worker's pop has found nothing and before the worker
tests the flag, which the call has cleared by then. -/
def stopTooLate : List (Action Bool) :=
  List.flatten [ startWorker, [.ring .worker, .ring .worker, .work], recordOne,
    [.stopPersistence, .control, .control, .work, .control]]

theorem stop_persistence_leaves_event : ∃ (state : State Bool) (asked : Asked Bool),
      Reaches (step machine 4) SinkWorks newEngine state ∧ state.control = .stopped asked ∧
        accepted asked.calls false = [⟨1, 10, 5⟩] ∧ state.logFile = [] ∧ state.evaluations = [] := by
  have runs : (executeIf (step machine 4) (fun state action => decide (SinkWorks state action))
      newEngine stopTooLate).any (fun state => stoppedWith [⟨false, [⟨1, 10, 5⟩], 1⟩] state &&
        decide (state.logFile = [] ∧ state.evaluations = [])) = true := by
    decide +kernel
  obtain ⟨state, path, found⟩ := exists_reaches_of_executeIf (fun _ _ passed => of_decide_eq_true passed) runs
  obtain ⟨stopped, nothing⟩ := (Bool.and_eq_true _ _).mp found
  obtain ⟨unwritten, unevaluated⟩ := of_decide_eq_true nothing
  unfold stoppedWith at stopped
  split at stopped
  case h_1 asked returned =>
    refine ⟨state, asked, path, returned, ?_, unwritten, unevaluated⟩
    rw [of_decide_eq_true stopped]
    decide
  case h_2 => cases stopped

end AnimusCore.Engine
