import AnimusCore.Spmc.Invariant

/-! What a consumer of the broadcast ring receives. The consumers do not see each
other, and a poll that overlaps no write returns all it can. -/

set_option autoImplicit false

namespace AnimusCore.Spmc

open Lib Lib.Ring ShmRing Function

section

variable {Reader Word : Type} {width : Nat}

def Action.reader? : Action Reader Word width → Option Reader
  | .broadcast _ | .produce | .produceWord _ => none
  | .poll reader _ | .consume reader | .consumeWord reader _ => some reader

def Without (reader : Reader) (state : State Reader Word width) (action : Action Reader Word width) : Prop :=
  Bounded state action ∧ action.reader? ≠ some reader

/-- Runs in which the producer takes no step and the given consumer begins no call. -/
def DuringPoll (reader : Reader) (_ : State Reader Word width) : Action Reader Word width → Prop
  | .broadcast _ | .produce | .produceWord _ => False
  | .poll other _ => other ≠ reader
  | .consume _ | .consumeWord _ _ => True

def State.NoWriteInFlight (state : State Reader Word width) : Prop :=
  state.producer = .idle ∨ ∃ value, state.producer = .announce value

/-- The oldest record that the consumer can still read. -/
def State.oldest (capacity : Capacity) (state : State Reader Word width) (reader : Reader) : Nat :=
  max (state.consumers reader).localTail (state.head - capacity.size)

/-- The records that a poll returns if nothing is written meanwhile. -/
def State.readable (capacity : Capacity) (state : State Reader Word width) (reader : Reader)
    (maxCount : Nat) : List (Words Word width × Nat) :=
  let tail := state.oldest capacity reader
  ((state.broadcasts.drop tail).take (min maxCount (state.head - tail))).zipIdx tail

end

variable {Reader Word : Type} {width : Nat} {capacity : Capacity}
  {start state after : State Reader Word width} {reader other : Reader} {maxCount : Nat}

section

variable [DecidableEq Reader] [Inhabited Word] {action : Action Reader Word width}

private theorem step_setConsumer (apart : action.reader? ≠ some reader)
    (consumer : Consumer Word width) (ran : step capacity state action = some after) :
    step capacity (state.setConsumer reader consumer) action = some (after.setConsumer reader consumer) := by
  have untouched : ∀ other, other ≠ reader →
      (state.setConsumer reader consumer).consumers other = state.consumers other :=
    fun other different => update_of_ne different _ _
  have commutes : ∀ other next, other ≠ reader → (state.setConsumer reader consumer).setConsumer other next =
        (state.setConsumer other next).setConsumer reader consumer := by
    intro other next different
    simp only [State.setConsumer, update_comm different]
  cases action with
  | broadcast value =>
    simp only [step, State.broadcast] at ran ⊢
    cases here : state.producer <;> simp only [here, State.setConsumer] at ran ⊢ <;>
      cases ran
    rfl
  | produce =>
    simp only [step, State.produce] at ran ⊢
    cases here : state.producer <;> simp only [here, State.setConsumer] at ran ⊢
    case writeSlot value todo =>
      split at ran <;> cases ran
      rw [if_pos (by assumption)]
    all_goals cases ran <;> rfl
  | produceWord word =>
    simp only [step, State.produceWord] at ran ⊢
    cases here : state.producer <;> simp only [here, State.setConsumer] at ran ⊢
    case writeSlot value todo =>
      split at ran <;> cases ran
      rw [if_pos (by assumption)]
    all_goals cases ran
  | poll other maxCount =>
    have different : other ≠ reader := fun same => apart (congrArg some same)
    simp only [step, State.poll, untouched other different] at ran ⊢
    split at ran <;> cases ran
    rw [commutes other _ different]
  | consume other =>
    have different : other ≠ reader := fun same => apart (congrArg some same)
    simp only [step, State.consume, untouched other different] at ran ⊢
    split at ran
    · cases ran
    · cases ran
      rw [commutes other _ different]
      rfl
    · split at ran
      case isFalse => cases ran
      case isTrue done =>
        rw [if_pos done]
        split at ran
        case isTrue more =>
          cases ran
          rw [if_pos more, commutes other _ different]
        case isFalse last =>
          cases ran
          rw [if_neg last, commutes other _ different]
          rfl
  | consumeWord other word =>
    have different : other ≠ reader := fun same => apart (congrArg some same)
    simp only [step, State.consumeWord, untouched other different] at ran ⊢
    split at ran
    · split at ran <;> cases ran
      rw [if_pos (by assumption), commutes other _ different]
      rfl
    · cases ran

private theorem step_own (own : action.reader? = some reader) (ran : step capacity state action = some after) :
    ∃ consumer, after = state.setConsumer reader consumer := by
  cases action with
  | broadcast value | produce | produceWord word => cases own
  | poll other maxCount =>
    cases own
    simp only [step, State.poll] at ran
    split at ran <;> cases ran
    exact ⟨_, rfl⟩
  | consume other =>
    cases own
    simp only [step, State.consume] at ran
    (repeat' split at ran) <;> cases ran <;> exact ⟨_, rfl⟩
  | consumeWord other word =>
    cases own
    simp only [step, State.consumeWord] at ran
    (repeat' split at ran) <;> cases ran
    exact ⟨_, rfl⟩

/-- Without the steps of one consumer the run goes on as before. -/
theorem reaches_without {slots : Nat → Words Word width}
    (path : Reaches (step capacity) Bounded (initial slots) state) (reader : Reader) :
    Reaches (step capacity) (Without reader) (initial slots) (state.setConsumer reader {}) := by
  induction path with
  | refl =>
    have same : (initial slots : State Reader Word width).setConsumer reader {} = initial slots := by
      simp [State.setConsumer, initial]
    rw [same]
    exact .refl
  | @step middle finish action _ permitted ran ih =>
    by_cases own : action.reader? = some reader
    · obtain ⟨consumer, rfl⟩ := step_own own ran
      have same : (middle.setConsumer reader consumer).setConsumer reader {} = middle.setConsumer reader {} := by
        simp [State.setConsumer]
      rw [same]
      exact ih
    · refine .step ih ⟨?_, own⟩ (step_setConsumer own {} ran)
      cases action <;> exact permitted

end

/-- The states of a call of the given consumer that began in `start`. -/
structure Polling (capacity : Capacity) (start : State Reader Word width) (reader : Reader)
    (maxCount : Nat) (state : State Reader Word width) : Prop where
  inv : Inv capacity state
  quiet : begun state.writeSeq = state.broadcasts.length
  broadcasts_eq : state.broadcasts = start.broadcasts
  call : (start.consumers reader).poller.Undisturbed capacity.size state.broadcasts maxCount
    (state.consumers reader).poller

theorem Inv.begun_of_noWrite (inv : Inv capacity state) (quiet : state.NoWriteInFlight) :
    begun state.writeSeq = state.broadcasts.length := by
  have producer := inv.producer
  rcases quiet with here | ⟨value, here⟩
  · rw [here] at producer
    rw [producer, begun_eq]
    omega
  · rw [here] at producer
    rw [producer.1, begun_eq]
    omega

variable [DecidableEq Reader]

theorem Polling.begins (inv : Inv capacity start) (quiet : start.NoWriteInFlight)
    (called : start.poll reader maxCount = some state) : Polling capacity start reader maxCount state := by
  have kept := inv.poll called
  have still := inv.begun_of_noWrite quiet
  simp only [State.poll] at called
  split at called <;> cases called
  refine ⟨kept, still, rfl, ?_⟩
  simp [State.setConsumer, Poller.Undisturbed, Consumer.poller]

theorem Polling.setConsumer (polling : Polling capacity start reader maxCount state)
    {consumer : Consumer Word width} (inv : Inv capacity (state.setConsumer other consumer))
    (call : other = reader → (start.consumers reader).poller.Undisturbed capacity.size
      state.broadcasts maxCount consumer.poller) :
    Polling capacity start reader maxCount (state.setConsumer other consumer) where
  inv := inv
  quiet := polling.quiet
  broadcasts_eq := polling.broadcasts_eq
  call := by
    by_cases same : reader = other
    · subst same
      simp only [State.setConsumer, update_self]
      exact call rfl
    · simp only [State.setConsumer, update_of_ne same]
      exact polling.call

variable [Inhabited Word]

theorem Polling.steps (polling : Polling capacity start reader maxCount state) {consumer : Consumer Word width}
    (steps : Consumer.Steps capacity state (state.consumers other) consumer) :
    Polling capacity start reader maxCount (state.setConsumer other consumer) := by
  have quiet := polling.quiet
  refine polling.setConsumer (polling.inv.setConsumer (polling.inv.steps_valid steps)) ?_
  rintro rfl
  exact polling.call.step (polling.inv.consumers other).poller (by omega) (by omega) steps.poller

theorem Polling.step (polling : Polling capacity start reader maxCount state) {action : Action Reader Word width}
    (permitted : DuringPoll reader state action) (ran : step capacity state action = some after) :
    Polling capacity start reader maxCount after := by
  cases action with
  | broadcast value | produce | produceWord word => exact permitted.elim
  | poll other wanted =>
    have inv := polling.inv.poll ran
    simp only [Spmc.step, State.poll] at ran
    split at ran <;> cases ran
    exact polling.setConsumer inv fun same => absurd same permitted
  | consume other =>
    obtain ⟨consumer, rfl, steps⟩ := polling.inv.consume_steps ran
    exact polling.steps steps
  | consumeWord other word =>
    obtain ⟨consumer, rfl, steps⟩ := polling.inv.consumeWord_steps ran
    exact polling.steps steps

def State.fuel (capacity : Capacity) (reader : Reader) (state : State Reader Word width) : Nat :=
  (state.consumers reader).poller.fuel capacity.size

omit [Inhabited Word] in
private theorem fuel_setConsumer (consumer : Consumer Word width) :
    (state.setConsumer reader consumer).fuel capacity reader = consumer.poller.fuel capacity.size := by
  simp only [State.fuel, State.setConsumer, update_self]

theorem Inv.poll_advances (inv : Inv capacity state) (busy : ¬ (state.consumers reader).call = .idle) :
    ∃ action after, DuringPoll reader state action ∧ Spmc.step capacity state action = some after ∧
      after.fuel capacity reader < state.fuel capacity reader := by
  have enabled : (state.consume capacity reader).isSome = true ∨
      ∃ word, (state.consumeWord capacity reader word).isSome = true := by
    cases here : (state.consumers reader).call with
    | idle => exact absurd here busy
    | waiting wanted => simp [State.consume, here]
    | copying batch =>
      by_cases done : batch.todo = ∅
      · left
        simp only [State.consume, here, if_pos done]
        split <;> rfl
      · obtain ⟨word, left⟩ := Finset.nonempty_iff_ne_empty.mpr done
        exact .inr ⟨word, by simp [State.consumeWord, here, left]⟩
  rcases enabled with enabled | ⟨word, enabled⟩
  · obtain ⟨after, ran⟩ := Option.isSome_iff_exists.mp enabled
    obtain ⟨consumer, rfl, steps⟩ := inv.consume_steps ran
    refine ⟨.consume reader, _, trivial, ran, ?_⟩
    rw [fuel_setConsumer]
    exact steps.poller.fuel_lt
  · obtain ⟨after, ran⟩ := Option.isSome_iff_exists.mp enabled
    obtain ⟨consumer, rfl, steps⟩ := inv.consumeWord_steps ran
    refine ⟨.consumeWord reader word, _, trivial, ran, ?_⟩
    rw [fuel_setConsumer]
    exact steps.poller.fuel_lt

theorem Polling.returns (polling : Polling capacity start reader maxCount state) :
    ∃ finish, Reaches (Spmc.step capacity) (DuringPoll reader) state finish ∧
      (finish.consumers reader).call = .idle := by
  refine (Reaches.progress (State.fuel capacity reader) polling fun middle called busy => ?_).imp
    fun finish reached => ⟨reached.1, reached.2.2⟩
  obtain ⟨action, next, permitted, ran, less⟩ := called.inv.poll_advances busy
  exact ⟨action, next, permitted, ran, called.step permitted ran, less⟩

/-- A poll that overlaps no write returns, and returns the readable records. -/
def PollsAlone (capacity : Capacity) (state : State Reader Word width) (reader : Reader) : Prop :=
  ∀ maxCount called, step capacity state (.poll reader maxCount) = some called →
    (∀ middle, Reaches (Spmc.step capacity) (DuringPoll reader) called middle →
      ((middle.consumers reader).call = .idle → (middle.consumers reader).results =
          (state.consumers reader).results ++ [state.readable capacity reader maxCount] ∧
        (middle.consumers reader).overrunCount = (state.consumers reader).overrunCount +
          (state.oldest capacity reader - (state.consumers reader).localTail)) ∧
      ∃ finish, Reaches (Spmc.step capacity) (DuringPoll reader) middle finish ∧
        (finish.consumers reader).call = .idle) ∧
    (state.readable capacity reader maxCount).length = min maxCount
      (state.head - max (state.consumers reader).localTail (state.head - capacity.size))

theorem Inv.pollsAlone (inv : Inv capacity state) (quiet : state.NoWriteInFlight) :
    PollsAlone capacity state reader := by
  intro maxCount called begun
  refine ⟨fun middle path => ?_, ?_⟩
  · have polling : Polling capacity state reader maxCount middle :=
      path.invariant (Polling.begins inv quiet begun) fun _ _ _ polling permitted ran =>
        polling.step permitted ran
    refine ⟨fun idle => ?_, polling.returns⟩
    have call := polling.call
    have idle : (middle.consumers reader).poller.call = .idle := idle
    rw [polling.broadcasts_eq, Poller.Undisturbed, idle] at call
    simp only [State.readable, State.oldest, inv.head_eq]
    exact call
  · have length := (state.consumers reader).poller.length_readable capacity.size state.broadcasts maxCount
    simp only [State.readable, State.oldest, inv.head_eq]
    exact length

theorem broadcast_delivery {slots : Nat → Words Word width}
    (path : Reaches (Spmc.step capacity) Bounded (initial slots) state) (reader : Reader) :
    let consumer := state.consumers reader
    (∀ entry ∈ consumer.returned, state.broadcasts[entry.2]? = some entry.1) ∧
      (consumer.returned.map Prod.snd).Pairwise (· < ·) ∧
      (consumer.call = .idle → consumer.returned.length + consumer.overrunCount = consumer.localTail ∧
        consumer.localTail ≤ state.head ∧
        (consumer.lastPollOverran = true ↔ consumer.countAtCall < consumer.overrunCount)) ∧
      Reaches (Spmc.step capacity) (Without reader) (initial slots) (state.setConsumer reader {}) ∧
      (state.NoWriteInFlight → PollsAlone capacity state reader) := by
  have inv := inv_of_reaches path
  have valid := inv.consumers reader
  have counted := valid.counted
  have received := valid.poller.received
  refine ⟨received.written, received.increasing, fun idle => ?_, reaches_without path reader, inv.pollsAlone⟩
  rw [Consumer.Counted, idle] at counted
  refine ⟨received.accounted, ?_, counted.2⟩
  rw [inv.head_eq]
  exact valid.poller.tail_le

def broadcastOne (value : Nat) : List (Action Bool Nat 1) :=
  [.broadcast fun _ => value, .produce, .produceWord (.last 0), .produce, .produce]

def State.atRest (state : State Bool Nat 1) : Bool :=
  match state.producer, (state.consumers false).call with
  | .idle, .idle => true
  | _, _ => false

theorem broadcast_delivery_recycled_slot : ∃ state : State Bool Nat 1,
      Reaches (Spmc.step twoSlots) Bounded (initial fun _ _ => 0) state ∧
      (state.consumers false).results.map (List.map fun entry => (entry.1 0, entry.2)) = [[(11, 1)]] ∧
      (state.consumers false).overrunCount = 1 ∧
      (state.consumers false).lastPollOverran = true ∧ (state.consumers false).localTail = 2 ∧
      PollsAlone twoSlots state false := by
  have passes : (executeIf (Spmc.step twoSlots) bounded (initial fun _ _ => 0)
      (List.flatten [broadcastOne 10, broadcastOne 11,
        [.poll false 2, .consume false, .consumeWord false 0, .consume false],
        broadcastOne 12, [.consumeWord false 0, .consume false]])).any
      (fun state => decide (state.atRest = true ∧
        (state.consumers false).results.map (List.map fun entry => (entry.1 0, entry.2)) =
          [[(11, 1)]] ∧ (state.consumers false).overrunCount = 1 ∧
        (state.consumers false).lastPollOverran = true)) = true := by
    decide +kernel
  obtain ⟨state, path, ends⟩ := exists_reaches_of_executeIf (fun _ _ => id) passes
  rw [decide_eq_true_eq] at ends
  obtain ⟨rest, results, overruns, overran⟩ := ends
  have quiet : state.producer = .idle ∧ (state.consumers false).call = .idle := by
    unfold State.atRest at rest
    split at rest
    · exact ⟨by assumption, by assumption⟩
    · cases rest
  obtain ⟨-, -, accounts, -, alone⟩ := broadcast_delivery path false
  obtain ⟨accounted, -, -⟩ := accounts quiet.2
  have count : (state.consumers false).returned.length = 1 := by
    have lengths := congrArg (fun results => results.flatten.length) results
    simpa [Consumer.returned, comp_def] using lengths
  exact ⟨state, path, results, overruns, overran, by omega, alone (.inl quiet.1)⟩

end AnimusCore.Spmc
