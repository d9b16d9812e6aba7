import AnimusCore.Engine.Acceptance
import AnimusCore.Engine.Conservation

/-! The log file holds a first part of the accepted events in ring-position order. -/

set_option autoImplicit false

namespace AnimusCore.Engine

open Lib Lib.Ring RingBuffer List

section

variable {Thread : Type}

/-- The accepted records, those whose push has published its position, in ring-position
order. -/
def View.acceptedRecords (view : View Thread) : List (Record Thread) :=
  (view.ring.claims.zipIdx.filter fun entry => entry.2 ∈ view.ring.published).map fun entry => entry.1.2

/-- No write or flush of a batch fails. -/
def Stores (_ : State Thread) : Action Thread → Prop
  | .writeFails => False
  | _ => True

/-- Every attempt to open the file and every write succeeds. -/
def SinkWorks (_ : State Thread) : Action Thread → Prop
  | .tryOpen opens => opens = true
  | .writeFails => False
  | _ => True

instance (state : State Thread) (action : Action Thread) : Decidable (SinkWorks state action) :=
  match action with
  | .tryOpen opens => inferInstanceAs (Decidable (opens = true))
  | .writeFails => instDecidableFalse
  | .record .. | .recordBatch .. | .pollSignals .. | .resume .. | .ring .. | .ringSpurious .. | .signalRing ..
  | .signalRingSpurious .. | .sleep | .clock .. | .work | .addRule .. | .addCepRule .. | .startPersistence
  | .stopPersistence | .control => instDecidableTrue

/-- The positions of both rings and the sequence words stay within a signed word, so that
no difference of two of them overflows. -/
def Fits (capacity : Capacity) (state : State Thread) : Prop :=
  state.ring.claims.length + capacity.size < signedLimit ∧
    state.signalRing.claims.length + capacity.size < signedLimit

variable [DecidableEq Thread]

structure Inv (capacity : Capacity) (state : State Thread) : Prop where
  tracked : Tracked capacity state
  roles : Roles state.view
  conserved : Conserved state.view
  accepts : Accepts state.view

end

variable {Thread : Type} [DecidableEq Thread] {capacity : Capacity}
  {state after : State Thread} {action : Action Thread}
  {records : Nat → Record Thread} {signals : Nat → ThreatSignal}

theorem Inv.initial (records : Nat → Record Thread) (signals : Nat → ThreatSignal) :
    Inv capacity (initial records signals) where
  tracked := Tracked.initial records signals
  roles := Roles.initial records signals
  conserved := Conserved.initial records signals
  accepts := Accepts.initial records signals

theorem Inv.step (inv : Inv capacity state) (ran : Engine.step exact capacity.size state action = some after) :
    Inv capacity after ∧ Step state.view action after.view := by
  obtain ⟨tracked, viewed⟩ := inv.tracked.step ran
  exact ⟨⟨tracked, inv.roles.step viewed, inv.conserved.step inv.roles viewed,
    inv.accepts.step inv.roles viewed⟩, viewed⟩

variable {allowed : State Thread → Action Thread → Prop}

theorem inv_of_reaches (path : Reaches (step exact capacity.size) allowed (initial records signals) state) :
    Inv capacity state :=
  path.invariant (Inv.initial records signals) fun _ _ _ inv _ ran => (inv.step ran).1

theorem Tracked.step_machine (tracked : Tracked capacity state) (fits : Fits capacity state) :
    Engine.step machine capacity.size state action = Engine.step exact capacity.size state action := by
  obtain ⟨tickets, tracks⟩ := tracked.ring
  obtain ⟨signalTickets, signalTracks⟩ := tracked.signalRing
  cases action with
  | ring party => rw [Engine.step, Engine.step, tracks.access_machine fits.1]
  | signalRing party => rw [Engine.step, Engine.step, signalTracks.access_machine fits.2]
  | _ => rfl

/-- A run on 64-bit words is an exact run as long as its positions fit. -/
theorem reaches_exact (path : Reaches (step machine capacity.size)
      (fun state action => allowed state action ∧ Fits capacity state) (initial records signals) state) :
    Reaches (step exact capacity.size) allowed (initial records signals) state := by
  induction path with
  | refl => exact .refl
  | step _ permitted ran ih =>
    rw [(inv_of_reaches ih).tracked.step_machine permitted.2] at ran
    exact .step ih permitted.1 ran

theorem written_of_reaches (stores : ∀ state action, allowed state action → Stores state action)
    (path : Reaches (step exact capacity.size) allowed (initial records signals) state) : Written state.view := by
  induction path with
  | refl => rfl
  | step path permitted ran written =>
    have inv := inv_of_reaches path
    refine written.step inv.roles ?_ (inv.step ran).2
    rintro rfl
    exact stores _ _ permitted

variable {view : View Thread}

section
omit [DecidableEq Thread]

theorem Written.popped (written : Written view) (conserved : Conserved view) : view.popped = view.logFile ++
      (view.worker.evaluated ++ view.worker.unevaluated ++ view.item) := by
  rw [conserved.popped, written, append_assoc, append_assoc]

theorem Roles.popped (roles : Roles view) :
    view.popped = (view.ring.claims.take view.ring.retired.length).map Prod.snd :=
  roles.single.values roles.sound

private theorem take_isPrefix_acceptedRecords {count : Nat} (published : ∀ pos < count, pos ∈ view.ring.published) :
    (view.ring.claims.take count).map Prod.snd <+: view.acceptedRecords := by
  have all : (view.ring.claims.take count).zipIdx.filter
      (fun entry => entry.2 ∈ view.ring.published) = (view.ring.claims.take count).zipIdx := by
    refine filter_eq_self.mpr fun entry member => decide_eq_true (published _ ?_)
    have inside := snd_lt_of_mem_zipIdx member
    exact Nat.lt_of_lt_of_le inside (length_take_le _ _)
  have split := congrArg List.zipIdx (take_append_drop count view.ring.claims)
  rw [zipIdx_append] at split
  rw [View.acceptedRecords, ← split, filter_append, all, map_append]
  refine ⟨_, congrArg (· ++ _) ?_⟩
  conv_lhs => rw [← zipIdx_map_fst 0 (view.ring.claims.take count), map_map]
  rfl

theorem Written.logFile (written : Written view) (conserved : Conserved view) (roles : Roles view) :
    view.logFile = (view.ring.claims.take view.logFile.length).map Prod.snd ∧
      view.logFile.length ≤ view.ring.retired.length := by
  have front : view.logFile <+: view.popped := ⟨_, (written.popped conserved).symm⟩
  have short : view.logFile.length ≤ view.ring.retired.length := by
    have bound := front.length_le
    rw [View.popped, length_map] at bound
    exact bound
  refine ⟨?_, short⟩
  have taken := prefix_iff_eq_take.mp front
  rw [roles.popped, ← map_take, take_take, Nat.min_eq_left short] at taken
  exact taken

end

/-- `record` and `record_batch` from any number of threads, any serialised calls of
`start_persistence` and `stop_persistence`, any opens: as long as no write fails, the log
is a first part of the accepted events in ring-position order. A thread's part of it is in
the thread's call order, and a call accounts for exactly the events it reports. -/
theorem log_isPrefix_accepted (capacity : Capacity)
    (path : Reaches (step exact capacity.size) Stores (initial records signals) state) :
    state.logFile <+: state.view.acceptedRecords ∧ ∀ thread, recordedBy state.logFile thread <+:
          accepted state.calls thread ++ state.view.inFlight thread ∧
        recordedBy state.view.records thread = accepted state.calls thread ++ state.view.inFlight thread := by
  obtain ⟨-, roles, conserved, accepts⟩ := inv_of_reaches path
  have written := written_of_reaches (fun _ _ permitted => permitted) path
  obtain ⟨log, short⟩ := written.logFile conserved roles
  have front : state.logFile <+: state.view.records := by
    have taken := (List.take_prefix state.view.logFile.length state.view.ring.claims).map Prod.snd
    rw [← log] at taken
    exact taken
  have whole : ∀ thread, recordedBy state.view.records thread =
      accepted state.calls thread ++ state.view.inFlight thread := accepts
  refine ⟨?_, fun thread => ⟨?_, whole thread⟩⟩
  · have published : ∀ pos < state.view.logFile.length, pos ∈ state.view.ring.published :=
      fun pos inside => roles.sound.taken_published pos
        (Nat.lt_of_lt_of_le inside (short.trans roles.single.retired_le))
    have accepted := take_isPrefix_acceptedRecords published
    rw [← log] at accepted
    exact accepted
  · rw [← whole thread]
    exact (front.filter _).map _

/-! A run of two producers on four cells: one records a batch of two events, the other one
event in between, and the worker writes all three. -/

def fourCells : Capacity := ⟨4, isPow2_four⟩

/-- An engine whose cells hold nothing of interest. -/
def newEngine : State Bool :=
  initial (fun _ => ⟨⟨0, 0, 0, 0⟩, false, (0, 0)⟩) (fun _ => ⟨0, 0, 0, 0, 0, 0⟩)

/-- The five accesses of a push or pop that nothing disturbs. -/
def onRing (party : Party Bool) : List (Action Bool) := List.replicate 5 (.ring party)

def startWorker : List (Action Bool) :=
  [.startPersistence, .control, .control, .control, .tryOpen true]

/-- The worker pops so many records, finds the ring empty, and evaluates and writes its
batch. -/
def persist (records : Nat) : List (Action Bool) :=
  List.flatten [ List.flatten (List.replicate records (onRing .worker ++ [.work])),
    [.ring .worker, .ring .worker, .work, .work, .work, .clock 0],
    List.replicate (records + 1 + records) .work]

def storesTest (_ : State Bool) : Action Bool → Bool
  | .writeFails => false
  | _ => true

theorem stores_of_test (state : State Bool) (action : Action Bool)
    (passed : storesTest state action = true) : Stores state action := by
  cases action <;> trivial

def twoProducers : List (Action Bool) :=
  List.flatten [ [.recordBatch false [⟨1, 10, 5⟩, ⟨2, 20, 6⟩] 100], onRing (.caller false),
    [.record true ⟨3, 30, 7⟩ 101], onRing (.caller true), [.resume true 102],
    [.resume false 103], onRing (.caller false), [.resume false 104], startWorker, persist 3]

theorem log_isPrefix_accepted_two_producers :
    ∃ state : State Bool, state.logFile.map Record.event = [⟨1, 10, 5⟩, ⟨3, 30, 7⟩, ⟨2, 20, 6⟩] ∧
      state.logFile <+: state.view.acceptedRecords ∧
      ∀ thread, recordedBy state.logFile thread <+: accepted state.calls thread ++ state.view.inFlight thread ∧
        recordedBy state.view.records thread = accepted state.calls thread ++ state.view.inFlight thread := by
  have runs : (executeIf (step exact 4) storesTest newEngine twoProducers).any
      (fun state => state.logFile.map Record.event = [⟨1, 10, 5⟩, ⟨3, 30, 7⟩, ⟨2, 20, 6⟩]) = true := by decide +kernel
  obtain ⟨state, path, logged⟩ := exists_reaches_of_executeIf stores_of_test runs
  exact ⟨state, of_decide_eq_true logged, log_isPrefix_accepted fourCells path⟩

end AnimusCore.Engine
