import AnimusCore.Engine.Machine
import AnimusCore.RingBuffer.Steps

/-! The rings under a step of the engine: at most one action on either ring, by the party
whose step it is. -/

set_option autoImplicit false

namespace AnimusCore.Engine

open Lib Lib.Ring RingBuffer

section

variable {Thread : Type}

/-- Whose step it is; registration and the calls of `start_persistence` and
`stop_persistence` use neither ring. -/
def Action.party : Action Thread → Option (Party Thread)
  | .record thread _ _ | .recordBatch thread _ _ | .pollSignals thread _ | .resume thread _ =>
    some (.caller thread)
  | .ring party | .ringSpurious party | .signalRing party | .signalRingSpurious party =>
    some party
  | .tryOpen _ | .sleep | .clock _ | .work | .writeFails => some .worker
  | .addRule _ _ | .addCepRule _ _ | .startPersistence | .stopPersistence | .control => none

end

variable {Thread : Type} [DecidableEq Thread] {counting : Counting} {size : Nat}
  {state after : State Thread} {action : Action Thread} {thread : Thread}

/-- At most one action on the ring, by this party. -/
def Acts {T : Type} (counting : Counting) (size : Nat) (party : Option (Party Thread))
    (ring next : RingBuffer.State (Party Thread) T) : Prop :=
  next = ring ∨ ∃ action, RingBuffer.step counting size ring action = some next ∧ party = some action.thread

private theorem recordFrom_acts {events : List RawEvent} {pushed : Nat} {began : Nat × Nat}
    {cycles : UInt64} (ran : state.recordFrom thread events pushed began cycles = some after) :
    Acts counting size (some (.caller thread)) state.ring after.ring ∧ after.signalRing = state.signalRing := by
  unfold State.recordFrom at ran
  split at ran
  case h_1 =>
    cases ran
    exact ⟨.inl rfl, rfl⟩
  case h_2 event found =>
    obtain ⟨ring, begun, rfl⟩ := Option.map_eq_some_iff.mp ran
    exact ⟨.inr ⟨.push (.caller thread) _, begun, rfl⟩, rfl⟩

private theorem pollFrom_acts {maxCount : Nat} {out : List ThreatSignal}
    (ran : state.pollFrom thread maxCount out = some after) :
    after.ring = state.ring ∧ Acts counting size (some (.caller thread)) state.signalRing after.signalRing := by
  unfold State.pollFrom at ran
  split at ran
  case isTrue =>
    obtain ⟨signalRing, begun, rfl⟩ := Option.map_eq_some_iff.mp ran
    exact ⟨rfl, .inr ⟨.pop (.caller thread), begun, rfl⟩⟩
  case isFalse =>
    cases ran
    exact ⟨rfl, .inl rfl⟩

private theorem collect_acts {batch : List (Record Thread)} (ran : state.collect batch = some after) :
    Acts counting size (some .worker) state.ring after.ring ∧ after.signalRing = state.signalRing := by
  unfold State.collect at ran
  split at ran
  case isTrue =>
    obtain ⟨ring, begun, rfl⟩ := Option.map_eq_some_iff.mp ran
    exact ⟨.inr ⟨.pop .worker, begun, rfl⟩, rfl⟩
  case isFalse =>
    cases ran
    exact ⟨.inl rfl, rfl⟩

private theorem emit_acts {done rest : List (Record Thread)} {snapshot : Snapshot} {signals : List ThreatSignal}
    (ran : state.emit done rest snapshot signals = some after) :
    after.ring = state.ring ∧ Acts counting size (some .worker) state.signalRing after.signalRing := by
  cases signals with
  | nil =>
    cases ran
    exact ⟨rfl, .inl rfl⟩
  | cons signal signals =>
    obtain ⟨signalRing, begun, rfl⟩ := Option.map_eq_some_iff.mp ran
    exact ⟨rfl, .inr ⟨.push .worker signal, begun, rfl⟩⟩

private theorem resume_acts {cycles : UInt64} (ran : state.resume thread cycles = some after) :
    Acts counting size (some (.caller thread)) state.ring after.ring ∧
      Acts counting size (some (.caller thread)) state.signalRing after.signalRing := by
  unfold State.resume at ran
  split at ran
  case h_1 => cases ran
  case h_2 =>
    split at ran
    case h_1 => exact (recordFrom_acts ran).imp_right .inl
    case h_2 =>
      cases ran
      exact ⟨.inl rfl, .inl rfl⟩
    case h_3 => cases ran
  case h_3 =>
    split at ran
    case h_1 => exact (pollFrom_acts ran).imp_left .inl
    case h_2 =>
      cases ran
      exact ⟨.inl rfl, .inl rfl⟩
    case h_3 => cases ran

private theorem work_acts (ran : state.work = some after) : Acts counting size (some .worker) state.ring after.ring ∧
      Acts counting size (some .worker) state.signalRing after.signalRing := by
  unfold State.work at ran
  split at ran
  case h_2 =>
    split at ran
    case h_1 => exact (collect_acts ran).imp_right .inl
    case h_2 =>
      cases ran
      exact ⟨.inl rfl, .inl rfl⟩
    case h_3 => cases ran
  case h_6 =>
    obtain ⟨⟨signals, cepRules⟩, -, emitted⟩ := Option.bind_eq_some_iff.mp ran
    exact (emit_acts emitted).imp_left .inl
  case h_7 =>
    split at ran
    case h_1 => exact (emit_acts ran).imp_left .inl
    case h_2 => cases ran
  case h_9 => exact (collect_acts ran).imp_right .inl
  case h_10 =>
    split at ran
    case isTrue => exact (collect_acts ran).imp_right .inl
    case isFalse =>
      cases ran
      exact ⟨.inl rfl, .inl rfl⟩
  case h_1 | h_3 | h_4 | h_5 | h_8 =>
    cases ran
    exact ⟨.inl rfl, .inl rfl⟩
  all_goals cases ran

private theorem recordBatch_acts {events : List RawEvent} {cycles : UInt64}
    (ran : state.recordBatch thread events cycles = some after) :
    Acts counting size (some (.caller thread)) state.ring after.ring ∧
      Acts counting size (some (.caller thread)) state.signalRing after.signalRing := by
  unfold State.recordBatch at ran
  split at ran
  case h_1 => exact (recordFrom_acts ran).imp_right .inl
  case h_2 => cases ran

theorem step_acts (ran : step counting size state action = some after) :
    Acts counting size action.party state.ring after.ring ∧
      Acts counting size action.party state.signalRing after.signalRing := by
  cases action with
  | record thread event cycles | recordBatch thread events cycles =>
    exact recordBatch_acts ran
  | pollSignals thread maxCount =>
    simp only [step, State.pollSignals] at ran
    split at ran
    case h_1 => exact (pollFrom_acts ran).imp_left .inl
    case h_2 => cases ran
  | resume thread cycles => exact resume_acts ran
  | ring party =>
    obtain ⟨ring, accessed, rfl⟩ := Option.map_eq_some_iff.mp ran
    exact ⟨.inr ⟨.access party, accessed, rfl⟩, .inl rfl⟩
  | ringSpurious party =>
    obtain ⟨ring, failed, rfl⟩ := Option.map_eq_some_iff.mp ran
    exact ⟨.inr ⟨.spurious party, failed, rfl⟩, .inl rfl⟩
  | signalRing party =>
    obtain ⟨signalRing, accessed, rfl⟩ := Option.map_eq_some_iff.mp ran
    exact ⟨.inl rfl, .inr ⟨.access party, accessed, rfl⟩⟩
  | signalRingSpurious party =>
    obtain ⟨signalRing, failed, rfl⟩ := Option.map_eq_some_iff.mp ran
    exact ⟨.inl rfl, .inr ⟨.spurious party, failed, rfl⟩⟩
  | tryOpen opens =>
    simp only [step, State.tryOpen] at ran
    split at ran
    case h_3 => cases ran
    all_goals
      split at ran
      case isTrue => exact (collect_acts ran).imp_right .inl
      case isFalse =>
        cases ran
        exact ⟨.inl rfl, .inl rfl⟩
  | work => exact work_acts ran
  | sleep | clock nowMs | writeFails | startPersistence | stopPersistence =>
    simp only [step] at ran
    split at ran <;> cases ran
    exact ⟨.inl rfl, .inl rfl⟩
  | addRule | addCepRule =>
    cases ran
    exact ⟨.inl rfl, .inl rfl⟩
  | control =>
    simp only [step, State.startOrStop] at ran
    repeat' split at ran
    all_goals cases ran
    all_goals exact ⟨.inl rfl, .inl rfl⟩

structure Tracked {Thread : Type} (capacity : Capacity) (state : State Thread) : Prop where
  ring : ∃ tickets : Tickets (Party Thread) (Record Thread) capacity, Tracks capacity state.ring tickets
  signalRing : ∃ tickets : Tickets (Party Thread) ThreatSignal capacity, Tracks capacity state.signalRing tickets

omit [DecidableEq Thread] in
theorem Tracked.initial {capacity : Capacity} (records : Nat → Record Thread)
    (signals : Nat → ThreatSignal) : Tracked capacity (initial records signals) :=
  ⟨⟨_, Tracks.initial records⟩, ⟨_, Tracks.initial signals⟩⟩

theorem Acts.tracks {T : Type} {capacity : Capacity} {party : Option (Party Thread)}
    {ring next : RingBuffer.State (Party Thread) T} (acts : Acts exact capacity.size party ring next)
    (tracks : ∃ tickets : Tickets (Party Thread) T capacity, Tracks capacity ring tickets) :
    ∃ tickets : Tickets (Party Thread) T capacity, Tracks capacity next tickets := by
  rcases acts with rfl | ⟨action, ran, -⟩
  · exact tracks
  · obtain ⟨tickets, tracks⟩ := tracks
    exact tracks.step ran

theorem Tracked.acts {capacity : Capacity} (tracked : Tracked capacity state)
    (ran : Engine.step exact capacity.size state action = some after) : Tracked capacity after :=
  ⟨(step_acts ran).1.tracks tracked.ring, (step_acts ran).2.tracks tracked.signalRing⟩

end AnimusCore.Engine
