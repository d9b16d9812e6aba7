import AnimusCore.Engine.Progress
import AnimusCore.Lib.FairRun

/-! Sink failures. A failed open keeps every record; a failed write gives up the batch.
Where no write fails and the sink and the worker come back, all that was recorded is
written in the end. -/

set_option autoImplicit false

namespace AnimusCore.Engine

open Lib Lib.Ring RingBuffer List

section

variable {Thread : Type}

def View.batch (view : View Thread) : List (Record Thread) :=
  view.worker.evaluated ++ view.worker.unevaluated ++ view.item

def View.waiting (view : View Thread) : List (Record Thread) :=
  (view.ring.claims.drop view.ring.retired.length).map Prod.snd

end

variable {Thread : Type} [DecidableEq Thread] {capacity : Capacity}
  {state : State Thread} {view after : View Thread} {action : Action Thread}
  {records : Nat → Record Thread} {signals : Nat → ThreatSignal}
  {states : Nat → State Thread} {actions : Nat → Action Thread}

/-- The engine goes on from a state: no write fails and the flag stays set; the worker
keeps acting and every caller in a push goes on with it; and from some moment on the sink
and the worker's exchanges work. -/
structure Recovers (capacity : Capacity) (state : State Thread) (states : Nat → State Thread)
    (actions : Nat → Action Thread) : Prop extends Runs (step exact capacity.size) states actions where
  start : states 0 = state
  stores : ∀ time, Stores (states time) (actions time)
  running : ∀ time, (states time).running = true
  worker : ∀ time, ∃ later ≥ time, (actions later).party = some .worker
  callers : ∀ time thread, ∃ later ≥ time, actions later = .ring (.caller thread) ∨
    ((states later).ring.threads (.caller thread)).resting = true
  settles : ∃ time, ∀ later ≥ time, Succeeds (states later) (actions later)

theorem persisting_of_reaches (path : Reaches (step exact capacity.size) Stores (initial records signals) state) :
    Persisting capacity state := by
  refine path.invariant ?_ fun _ _ _ persisting stores ran => persisting.step stores ran
  exact ⟨Inv.initial records signals, rfl, ⟨trivial, trivial⟩, trivial⟩

omit [DecidableEq Thread] in
theorem Written.records_eq (written : Written view) (conserved : Conserved view)
    (roles : Roles view) : view.records = view.logFile ++ view.batch ++ view.waiting := by
  have popped := written.popped conserved
  rw [roles.popped] at popped
  unfold View.records View.batch View.waiting
  rw [← popped, ← map_append, take_append_drop]

theorem Inv.stored (inv : Inv capacity state) {pos : Nat} {owner : Party Thread} {record : Record Thread}
    (unretired : state.ring.retired.length ≤ pos) (claimed : state.ring.claims[pos]? = some (owner, record))
    (published : pos ∈ state.ring.published) : (state.ring.cell capacity.size pos).data = record := by
  obtain ⟨tickets, tracks⟩ := inv.tracked.ring
  refine tracks.stored pos owner record (tracks.claims_eq ▸ claimed)
    ((tracks.published_iff pos).mp published) fun retired => ?_
  have member := (tracks.retired_iff pos).mpr retired
  have positions : state.ring.retired.map (fun entry => entry.2.1) =
      List.range state.ring.retired.length := inv.roles.single.positions
  rw [positions, mem_range] at member
  omega

theorem Step.grows (step : Step view action after) :
    view.ring.claims <+: after.ring.claims ∧ view.ring.published <+: after.ring.published ∧
      view.logFile <+: after.logFile := by
  have refl : view.ring.claims <+: view.ring.claims ∧
      view.ring.published <+: view.ring.published ∧ view.logFile <+: view.logFile :=
    ⟨prefix_refl _, prefix_refl _, prefix_refl _⟩
  cases step with
  | ring effect => exact ⟨effect.claims_prefix, effect.published_prefix, refl.2.2⟩
  | ringSpurious | signalRing | signalRingSpurious => exact refl
  | caller step | control step | register step => cases step <;> exact refl
  | worker step =>
    cases step with
    | @evaluates _ _ _ _ signals => cases signals <;> exact refl
    | @signals _ _ _ signals =>
      generalize signals.tail = rest
      cases rest <;> exact refl
    | stores => exact ⟨refl.1, refl.2.1, prefix_append _ _⟩
    | _ => exact refl

section
variable (recovers : Recovers capacity state states actions)
include recovers

variable (path : Reaches (step exact capacity.size) Stores (initial records signals) state)
include path

theorem Recovers.persisting (time : Nat) : Persisting capacity (states time) := by
  have further := recovers.toRuns.reaches recovers.stores time
  rw [recovers.start] at further
  exact persisting_of_reaches (path.trans further)

theorem Recovers.grows {time later : Nat} (order : time ≤ later) :
    (states time).ring.claims <+: (states later).ring.claims ∧
      (states time).ring.published <+: (states later).ring.published ∧
      (states time).logFile <+: (states later).logFile := by
  induction order with
  | refl => exact ⟨prefix_refl _, prefix_refl _, prefix_refl _⟩
  | @step moment _ ih =>
    have viewed := ((recovers.persisting path moment).inv.step (recovers.advances moment)).2
    obtain ⟨claims, published, logFile⟩ := viewed.grows
    exact ⟨ih.1.trans claims, ih.2.1.trans published, ih.2.2.trans logFile⟩

theorem Recovers.publishes {time pos : Nat} (inside : pos < (states time).ring.claims.length) :
    ∃ later, pos ∈ (states later).ring.published := by
  have found := List.getElem?_eq_getElem inside
  generalize (states time).ring.claims[pos] = claim at found
  obtain ⟨owner, record⟩ := claim
  -- Until then the caller is in the push of this record.
  have filling : ∀ later ≥ time, pos ∉ (states later).ring.published →
      ((states later).ring.threads (.caller record.caller)).phase = .claimed record pos := by
    intro later order fresh
    obtain ⟨more, grown⟩ := (recovers.grows path order).1
    have kept : (states later).view.ring.claims[pos]? = some (owner, record) := by
      change (states later).ring.claims[pos]? = _
      rw [← grown, List.getElem?_append_left inside]
      exact found
    exact (recovers.persisting path later).inv.roles.filling kept fresh
  have eventually := eventually_of_rank states (fun state => pos ∈ state.ring.published)
    wellFounded_lt (fun state => (state.ring.threads (.caller record.caller)).remaining)
    (fun moment => actions moment = .ring (.caller record.caller)) time ?_ ?_ ?_
  · obtain ⟨later, -, published⟩ := eventually
    exact ⟨later, published⟩
  · intro moment late
    obtain ⟨later, order, acts | rests⟩ := recovers.callers moment record.caller
    · exact ⟨later, order, .inl acts⟩
    · refine ⟨later, order, .inr ?_⟩
      by_contra fresh
      rw [← Access.phase_resting, filling later (late.trans order) fresh] at rests
      cases rests
  · intro moment late fresh acts
    have ran := recovers.advances moment
    rw [acts] at ran
    obtain ⟨ring, accessed, same⟩ := Option.map_eq_some_iff.mp ran
    have moved : RingBuffer.step exact capacity.size (states moment).ring
        (.access (.caller record.caller)) = some ring := accessed
    refine .inl ?_
    rw [← same]
    exact claimed_step_remaining _ (filling moment late fresh) moved
  · intro moment late fresh
    obtain ⟨onRing | ⟨ringAction, moved, -⟩, -⟩ := step_acts (recovers.advances moment)
    · exact .inl (by rw [onRing])
    · by_cases own : ringAction.thread = .caller record.caller
      · refine .inr (.inl ?_)
        rw [← own]
        exact claimed_step_remaining ringAction (own ▸ filling moment late fresh) moved
      · exact .inl (by rw [step_threads_of_ne moved (Ne.symm own)])

theorem Recovers.publishes_all (time start : Nat) :
    ∃ moment ≥ start, ∀ later ≥ moment, ∀ pos < (states time).ring.claims.length,
      pos ∈ (states later).ring.published := by
  have stable : ∀ pos moment later, moment ≤ later → pos ∈ (states moment).ring.published →
      pos ∈ (states later).ring.published := fun pos moment later order published =>
    (recovers.grows path order).2.1.subset published
  obtain ⟨moment, late, all⟩ := eventually_forall_lt stable start fun _ inside => recovers.publishes path inside
  exact ⟨moment, late, fun later order pos inside => stable pos _ _ order (all pos inside)⟩

theorem Recovers.alive :
    ∃ moment, ∀ later ≥ moment, (states later).worker.alive = true ∧ Succeeds (states later) (actions later) := by
  obtain ⟨settled, succeeds⟩ := recovers.settles
  obtain ⟨moment, late, own⟩ := recovers.worker settled
  have first := (recovers.persisting path moment).alive (succeeds moment late) own (recovers.advances moment)
  refine ⟨moment, fun later order => ⟨?_, succeeds later (late.trans order)⟩⟩
  refine recovers.toRuns.stable (fun state => state.worker.alive = true) ?_ first order
  intro time next alive ran
  exact alive_step alive (recovers.running time) ((recovers.persisting path time).inv.step ran).2

theorem Recovers.writes (time : Nat) :
    ∃ moment ≥ time, (states time).ring.claims.length ≤ (states moment).logFile.length := by
  obtain ⟨settled, alive⟩ := recovers.alive path
  obtain ⟨start, late, ready⟩ := recovers.publishes_all path time (max time settled)
  have after : time ≤ start ∧ settled ≤ start := by omega
  have eventually := eventually_of_rank states (fun state => (states time).ring.claims.length ≤ state.logFile.length)
    wellFounded_lt (State.rank (states time).ring.claims.length) (fun moment => (actions moment).party = some .worker)
    start ?_ ?_ ?_
  · obtain ⟨moment, order, written⟩ := eventually
    exact ⟨moment, after.1.trans order, written⟩
  · intro moment _
    obtain ⟨later, order, own⟩ := recovers.worker moment
    exact ⟨later, order, .inl own⟩
  · intro moment order owed own
    refine .inl ?_
    exact (recovers.persisting path moment).rank_lt (recovers.running moment) (ready moment order)
      (Nat.lt_of_not_le owed) (alive moment (after.2.trans order)).2 own (recovers.advances moment)
  · intro moment order owed
    by_cases own : (actions moment).party = some .worker
    · refine .inr (.inl ?_)
      exact (recovers.persisting path moment).rank_lt (recovers.running moment) (ready moment order)
        (Nat.lt_of_not_le owed) (alive moment (after.2.trans order)).2 own (recovers.advances moment)
    · refine .inl ?_
      have viewed := ((recovers.persisting path moment).inv.step (recovers.advances moment)).2
      exact rank_eq (alive moment (after.2.trans order)).1 own viewed (recovers.advances moment)

end

/-- As long as no write fails, whatever the opens do, every record is in the log, in the
worker's batch or in the ring, and once the sink and the worker work again, all that is
recorded gets into the log, each record once and in ring-position order. -/
theorem outages_keep_records (capacity : Capacity)
    (path : Reaches (step exact capacity.size) Stores (initial records signals) state) :
    state.view.records = state.logFile ++ state.view.batch ++ state.view.waiting ∧
      (∀ pos owner record, state.ring.retired.length ≤ pos →
        state.ring.claims[pos]? = some (owner, record) → pos ∈ state.ring.published →
        (state.ring.cell capacity.size pos).data = record) ∧
      (∀ thread, recordedBy state.view.records thread = accepted state.calls thread ++ state.view.inFlight thread) ∧
      ∀ states actions, Recovers capacity state states actions → ∀ time, ∃ moment,
        ∀ later ≥ moment, (states time).view.records <+: (states later).logFile ∧
          (states later).logFile <+: (states later).view.records := by
  have persisting := persisting_of_reaches path
  obtain ⟨-, roles, conserved, accepts⟩ := persisting.inv
  refine ⟨persisting.written.records_eq conserved roles, ?_, accepts, ?_⟩
  · intro pos owner record
    exact persisting.inv.stored
  · intro states actions recovers time
    obtain ⟨moment, late, written⟩ := recovers.writes path time
    refine ⟨moment, fun later order => ?_⟩
    have there := recovers.persisting path later
    obtain ⟨log, -⟩ := there.written.logFile there.inv.conserved there.inv.roles
    have long := written.trans (recovers.grows path order).2.2.length_le
    have grown := (recovers.grows path (late.trans order)).1
    constructor
    · have front : (states time).ring.claims <+: (states later).ring.claims.take (states later).logFile.length := by
        rw [prefix_take_iff]
        exact ⟨grown, long⟩
      have mapped := front.map Prod.snd
      change (states later).logFile = _ at log
      rw [log]
      exact mapped
    · have mapped := (List.take_prefix (states later).view.logFile.length (states later).view.ring.claims).map Prod.snd
      rw [← log] at mapped
      exact mapped

/-! ### A run that recovers

After an open that failed, the event is written and the worker then looks for events for
ever. -/

theorem Recovers.prepend {start : State Thread} (recovers : Recovers capacity state states actions)
    (ran : step exact capacity.size start action = some state)
    (stores : Stores start action) (running : start.running = true) :
    Recovers capacity start (prepend start states) (Lib.prepend action actions) where
  __ := recovers.toRuns.prepend (recovers.start ▸ ran)
  start := rfl
  stores
    | 0 => stores
    | time + 1 => recovers.stores time
  running
    | 0 => running
    | time + 1 => recovers.running time
  worker time := by
    obtain ⟨later, order, own⟩ := recovers.worker time
    exact ⟨later + 1, by omega, own⟩
  callers time thread := by
    obtain ⟨later, order, acts⟩ := recovers.callers time thread
    exact ⟨later + 1, by omega, acts⟩
  settles := by
    obtain ⟨time, succeeds⟩ := recovers.settles
    refine ⟨time + 1, fun later order => ?_⟩
    obtain ⟨before, rfl⟩ : ∃ before, later = before + 1 := ⟨later - 1, by omega⟩
    exact succeeds before (by omega)

/-- The worker finds nothing to do and nobody else is in a call on the event ring. -/
structure Idle (capacity : Capacity) (state : State Thread) : Prop where
  running : state.running = true
  callers : ∀ thread, (state.ring.threads (.caller thread)).resting = true
  empty : (state.ring.cell capacity.size state.ring.dequeuePos).sequence = state.ring.dequeuePos
  worker : state.worker = .popping [] ∧ (state.ring.threads .worker = .popLoadPos ∨
      state.ring.threads .worker = .popLoadSeq state.ring.dequeuePos ∨
      state.ring.threads .worker = .returned .empty) ∨
    state.worker = .testRunning ∧ state.ring.threads .worker = .returned .empty

def idleAction (state : State Thread) : Action Thread :=
  match state.ring.threads .worker with
  | .returned _ => .work
  | _ => .ring .worker

theorem Idle.goes (idle : Idle capacity state) :
    ∃ next, step exact capacity.size state (idleAction state) = some next ∧ Idle capacity next := by
  have callers : ∀ access thread, (Function.update state.ring.threads .worker access
      (.caller thread)).resting = true := by
    intro access thread
    exact idle.callers thread
  have moved : ∀ access, Function.update state.ring.threads .worker access .worker = access :=
    fun _ => Function.update_self _ _ _
  rcases idle.worker with ⟨here, loads | reads | found⟩ | ⟨here, found⟩
  · refine ⟨{ state with ring := state.ring.goTo .worker (.popLoadSeq state.ring.dequeuePos) }, ?_, ?_⟩
    · simp [idleAction, step, State.access, loads]
    · exact ⟨idle.running, callers (.popLoadSeq state.ring.dequeuePos), idle.empty,
        .inl ⟨here, .inr (.inl (moved _))⟩⟩
  · refine ⟨{ state with ring := state.ring.returns .worker .empty }, ?_, ?_⟩
    · simp [idleAction, step, State.access, reads, exact, idle.empty]
    · exact ⟨idle.running, callers (.returned .empty), idle.empty, .inl ⟨here, .inr (.inr (moved _))⟩⟩
  · refine ⟨{ state with worker := .testRunning }, ?_, ?_⟩
    · simp [idleAction, step, State.work, here, found]
    · exact ⟨idle.running, idle.callers, idle.empty, .inr ⟨rfl, found⟩⟩
  · refine ⟨{ state with ring := state.ring.goTo .worker .popLoadPos, worker := .popping [] }, ?_, ?_⟩
    · simp [idleAction, step, State.work, State.collect, State.begin, here, found, idle.running,
        Access.resting, batchSize]
    · exact ⟨idle.running, callers .popLoadPos, idle.empty, .inl ⟨rfl, .inl (moved _)⟩⟩

theorem Idle.recovers (idle : Idle capacity state) : ∃ states actions, Recovers capacity state states actions := by
  obtain ⟨states, start, runs, all⟩ := exists_runs idleAction (fun _ idle => Idle.goes idle) idle
  have own : ∀ time, idleAction (states time) = .work ∨ idleAction (states time) = .ring .worker := by
    intro time
    unfold idleAction
    split
    · exact .inl rfl
    · exact .inr rfl
  refine ⟨states, _, { runs with
    start := start, stores := ?_, running := fun time => (all time).running
    worker := ?_, callers := ?_, settles := ⟨0, ?_⟩ }⟩
  · intro time
    rcases own time with acts | acts <;> rw [acts] <;> trivial
  · intro time
    refine ⟨time, Nat.le_refl _, ?_⟩
    rcases own time with acts | acts <;> rw [acts] <;> rfl
  · exact fun time thread => ⟨time, Nat.le_refl _, .inr ((all time).callers thread)⟩
  · intro time _
    rcases own time with acts | acts <;> rw [acts] <;> exact ⟨trivial, by simp, by simp, by simp⟩

/-- A schedule that keeps the flag set and stores what it writes leads into the run. -/
theorem Recovers.executed {start : State Bool} {middle : State Bool} {schedule : List (Action Bool)}
    (executed : executeIf (step exact 4) (fun state action =>
      state.running && storesTest state action) start schedule = some middle)
    (recovers : ∃ states actions, Recovers fourCells middle states actions) :
    ∃ states actions, Recovers fourCells start states actions := by
  induction schedule generalizing start with
  | nil =>
    cases executed
    exact recovers
  | cons action rest ih =>
    simp only [executeIf] at executed
    split at executed
    case h_1 next passed ran =>
      obtain ⟨running, stores⟩ := (Bool.and_eq_true _ _).mp passed
      obtain ⟨states, actions, further⟩ := ih executed
      exact ⟨_, _, further.prepend ran (stores_of_test start action stores) running⟩
    case h_2 => cases executed

def outage : List (Action Bool) :=
  List.flatten [ [.startPersistence, .control, .control, .control, .tryOpen false],
    [.record false ⟨1, 10, 5⟩ 100], onRing (.caller false), [.resume false 101]]

/-- The file opens again, and the worker writes the event and looks for the next one. -/
def reopened : List (Action Bool) :=
  List.flatten [[.work, .tryOpen true], persist 1, [.work]]

def idleTest (state : State Bool) : Bool :=
  match state.worker, state.ring.threads .worker with
  | .popping [], .popLoadPos =>
    state.running && (state.ring.threads (.caller false)).resting && (state.ring.threads (.caller true)).resting &&
      (state.ring.cell 4 state.ring.dequeuePos).sequence == state.ring.dequeuePos
  | _, _ => false

private theorem idle_of_test {state : State Bool} (passed : idleTest state = true) : Idle fourCells state := by
  unfold idleTest at passed
  split at passed
  case h_1 here loads =>
    simp only [Bool.and_eq_true, beq_iff_eq] at passed
    obtain ⟨⟨⟨running, first⟩, second⟩, empty⟩ := passed
    refine ⟨running, ?_, empty, .inl ⟨here, .inl loads⟩⟩
    rintro (_ | _)
    · exact first
    · exact second
  case h_2 => cases passed

def waitsForSink (state : State Bool) : Bool :=
  state.logFile.isEmpty && state.view.records.map Record.event == [⟨1, 10, 5⟩] &&
    (executeIf (step exact 4) (fun state action => state.running && storesTest state action)
      state reopened).any idleTest

theorem outages_keep_records_reopened :
    ∃ (state : State Bool) (states : Nat → State Bool) (actions : Nat → Action Bool),
      state.logFile = [] ∧ state.view.records.map Record.event = [⟨1, 10, 5⟩] ∧
        Recovers fourCells state states actions ∧
        ∃ moment, ∀ later ≥ moment, (states 0).view.records <+: (states later).logFile ∧
          (states later).logFile <+: (states later).view.records := by
  have runs : (executeIf (step exact 4) storesTest newEngine outage).any waitsForSink = true := by
    decide +kernel
  obtain ⟨state, path, found⟩ := exists_reaches_of_executeIf stores_of_test runs
  simp only [waitsForSink, Bool.and_eq_true, beq_iff_eq, List.isEmpty_iff] at found
  obtain ⟨⟨unwritten, recorded⟩, continues⟩ := found
  obtain ⟨middle, executed, idle⟩ := (Option.any_eq_true _ _).mp continues
  obtain ⟨states, actions, recovers⟩ := Recovers.executed executed (idle_of_test idle).recovers
  exact ⟨state, states, actions, unwritten, recorded, recovers,
    (outages_keep_records fourCells path).2.2.2 states actions recovers 0⟩

def diskFull : List (Action Bool) :=
  List.flatten [ startWorker, [.record false ⟨1, 10, 5⟩ 100], onRing (.caller false), [.resume false 101],
    onRing .worker, [.work, .ring .worker, .ring .worker, .work, .work, .work, .clock 0],
    [.work, .work, .writeFails]]

theorem failed_write_discards_batch : ∃ state : State Bool, Reaches (step machine 4) Always newEngine state ∧
      accepted state.calls false = [⟨1, 10, 5⟩] ∧ state.logFile = [] ∧
      state.view.batch = [] ∧ state.view.waiting = [] := by
  have runs : (execute (step machine 4) newEngine diskFull).any (fun state =>
      decide (accepted state.calls false = [⟨1, 10, 5⟩] ∧ state.logFile = [] ∧
        state.view.batch = [] ∧ state.view.waiting = [])) = true := by
    decide +kernel
  obtain ⟨state, path, found⟩ := exists_reaches_of_execute runs
  exact ⟨state, path, of_decide_eq_true found⟩

end AnimusCore.Engine
