import AnimusCore.Mpmc.Steps
import Mathlib.Data.Fintype.Card

/-! A call of one thread while no other one is in progress. Its states are the state
it began in with the thread's access and, once it has claimed a position, the
position's entries changed; a failed exchange only sends it back to its sequence
load. -/

set_option autoImplicit false

namespace AnimusCore.Mpmc

open Lib Lib.Ring

section

variable {Thread Word : Type} {width : Nat}

def State.Quiet (state : State Thread Word width) : Prop :=
  ∀ thread, state.threads thread = .idle

/-- Only the given thread runs, and it begins no further call. -/
def Alone [DecidableEq Thread] (capacity : Capacity) (thread : Thread)
    (state : State Thread Word width) (action : Action Thread Word width) : Prop :=
  Bounded capacity state action ∧
    match action with
    | .access actor | .word actor _ | .spurious actor => actor = thread
    | .tryPush _ _ | .tryPop _ => False

def Access.fuel : Access Word width → Nat
  | .idle => 0
  | .pushWrite _ _ todo | .popRead _ todo _ => todo.card + 1
  | .pushExchange _ _ | .popExchange _ => width + 2
  | .pushLoadSeq _ _ | .popLoadSeq _ => width + 3
  | .pushLoadPos _ | .popLoadPos => width + 4

end

variable {Thread Word : Type} {width : Nat} {capacity : Capacity} {start state after : State Thread Word width}
  {tickets : RingTickets Thread Word width capacity} {thread : Thread}
  {value : Words Word width} {action : Action Thread Word width}

section
variable (tracks : Tracks capacity state tickets)
include tracks

variable (quiet : state.Quiet)
include quiet

theorem Tracks.published_of_quiet {pos : Nat} (claimed : pos < tickets.claims.length) : pos ∈ tickets.published := by
  by_contra fresh
  obtain ⟨owner, value, todo, holds⟩ := tracks.writers pos claimed fresh
  rw [quiet owner] at holds
  cases holds

theorem Tracks.retired_of_quiet {pos : Nat} (taken : pos < tickets.takes.length) : pos ∈ tickets.retired := by
  by_contra busy
  obtain ⟨owner, todo, snapshot, holds⟩ := tracks.readers pos taken busy
  rw [quiet owner] at holds
  cases holds

theorem Tracks.free_iff_of_quiet : tickets.Free tickets.claims.length ↔
      state.enqueuePos < state.dequeuePos + capacity.size := by
  rw [tracks.enqueuePos_eq, tracks.dequeuePos_eq]
  constructor
  · rintro (first | ⟨earlier, retired, lap⟩)
    · omega
    · have taken := tickets.retired_lt earlier retired
      omega
  · intro room
    rcases Nat.lt_or_ge tickets.claims.length capacity.size with first | later
    · exact .inl first
    · refine .inr ⟨tickets.claims.length - capacity.size, tracks.retired_of_quiet quiet ?_, ?_⟩ <;>
        omega

theorem Tracks.ready_iff_of_quiet :
    tickets.takes.length ∈ tickets.published ↔ state.dequeuePos < state.enqueuePos := by
  rw [tracks.enqueuePos_eq, tracks.dequeuePos_eq]
  exact ⟨tickets.published_lt _, tracks.published_of_quiet quiet⟩

end

variable [DecidableEq Thread]

private theorem goTo_goTo (state : State Thread Word width) (first second : Access Word width) :
    (state.goTo thread first).goTo thread second = state.goTo thread second := by
  simp [State.goTo]

theorem goTo_threads (state : State Thread Word width) (next : Access Word width) :
    (state.goTo thread next).threads thread = next :=
  Function.update_self _ _ _

private theorem holding_advances [Inhabited Word] (holds : (state.threads thread).holding = true)
    (permitted : Bounded capacity state (.access thread)) :
    ∃ action after, Alone capacity thread state action ∧ step capacity state action = some after ∧
      (after.threads thread).fuel < (state.threads thread).fuel := by
  cases here : state.threads thread with
  | pushWrite _ _ todo | popRead _ todo _ =>
    rcases todo.eq_empty_or_nonempty with rfl | ⟨word, left⟩
    · refine ⟨.access thread, _, ⟨permitted, rfl⟩, by simp only [step, State.access, here]; exact if_pos trivial, ?_⟩
      simp [State.returns, goTo_threads, Access.fuel]
    · refine ⟨.word thread word, _, ⟨rfl, rfl⟩, by simp only [step, State.copyWord, here]; exact if_pos left, ?_⟩
      simp only [goTo_threads, Access.fuel]
      exact Nat.succ_lt_succ (Finset.card_erase_lt_of_mem left)
  | _ =>
    rw [here] at holds
    cases holds

private theorem access_enabled [Inhabited Word] (unfinished : state.threads thread ≠ .idle)
    (loose : (state.threads thread).holding = false) : ∃ after, state.access capacity thread = some after := by
  unfold State.access
  cases here : state.threads thread with
  | idle => exact absurd here unfinished
  | pushWrite | popRead =>
    rw [here] at loose
    cases loose
  | pushLoadPos | popLoadPos => exact ⟨_, rfl⟩
  | pushLoadSeq | popLoadSeq =>
    simp only
    split_ifs <;> exact ⟨_, rfl⟩
  | pushExchange | popExchange =>
    simp only [State.exchangeFails, here]
    split_ifs <;> exact ⟨_, rfl⟩

/-- The states of a `try_push` that began in `start`. -/
inductive PushPhase (capacity : Capacity) (start : State Thread Word width) (thread : Thread)
    (value : Words Word width) : State Thread Word width → Prop where
  | loadPos : PushPhase capacity start thread value (start.goTo thread (.pushLoadPos value))
  | loadSeq : PushPhase capacity start thread value (start.goTo thread (.pushLoadSeq value start.enqueuePos))
  | exchange (room : start.enqueuePos < start.dequeuePos + capacity.size) :
      PushPhase capacity start thread value (start.goTo thread (.pushExchange value start.enqueuePos))
  | write (room : start.enqueuePos < start.dequeuePos + capacity.size)
      (todo : Finset (Fin width)) (cells : Nat → Cell Word width) :
      PushPhase capacity start thread value
        { start.goTo thread (.pushWrite value start.enqueuePos todo) with
          enqueuePos := succ64 start.enqueuePos
          claims := start.claims ++ [⟨thread, start.enqueuePos, value⟩]
          cells }
  | accepted (room : start.enqueuePos < start.dequeuePos + capacity.size) (cells : Nat → Cell Word width) :
      PushPhase capacity start thread value
        { start.returns thread (.pushed ⟨thread, start.enqueuePos, value⟩) with
          enqueuePos := succ64 start.enqueuePos
          claims := start.claims ++ [⟨thread, start.enqueuePos, value⟩]
          cells }
  | refused (full : ¬ start.enqueuePos < start.dequeuePos + capacity.size) :
      PushPhase capacity start thread value (start.returns thread (.full thread))

variable [Inhabited Word]

section
variable (tracks : Tracks capacity start tickets)
include tracks

variable (quiet : start.Quiet)
include quiet

private theorem pushLoadSeq_quiet (thread : Thread) (value : Words Word width) :
    (start.goTo thread (.pushLoadSeq value start.enqueuePos)).access capacity thread =
      some (if start.enqueuePos < start.dequeuePos + capacity.size then
        start.goTo thread (.pushExchange value start.enqueuePos) else start.returns thread (.full thread)) := by
  have last := tracks.enqueuePos_eq
  have difference := tracks.push_diff last.le
  have cell : State.cell capacity (start.goTo thread (.pushLoadSeq value start.enqueuePos)) start.enqueuePos =
        start.cell capacity start.enqueuePos := rfl
  have returned : (start.goTo thread (.pushLoadSeq value start.enqueuePos)).returns thread
      (.full thread) = start.returns thread (.full thread) := by
    simp [State.returns, State.goTo]
  simp only [State.access, goTo_threads, cell, difference, goTo_goTo, returned]
  by_cases free : tickets.Free tickets.claims.length
  · have word : (start.cell capacity start.enqueuePos).sequence = start.enqueuePos := by
      rw [last]
      exact tracks.sequenced.unpublished _ free tickets.last_fresh
    rw [if_pos (by omega), if_pos ((tracks.free_iff_of_quiet quiet).mp free)]
  · have word : (start.cell capacity start.enqueuePos).sequence < start.enqueuePos := by
      rw [last]
      exact tracks.sequenced.lt_of_not_free free
    rw [if_neg (by omega), if_pos (by omega), if_neg (mt (tracks.free_iff_of_quiet quiet).mpr free)]

variable (phase : PushPhase capacity start thread value state)
include phase

theorem PushPhase.access (ran : state.access capacity thread = some after) :
    PushPhase capacity start thread value after ∧ (after.threads thread).fuel < (state.threads thread).fuel := by
  cases phase with
  | loadPos =>
    simp only [State.access, goTo_threads, goTo_goTo] at ran
    cases ran
    exact ⟨.loadSeq, by simp [goTo_threads, Access.fuel]⟩
  | loadSeq =>
    rw [pushLoadSeq_quiet tracks quiet] at ran
    cases ran
    split
    · exact ⟨.exchange (by assumption), by simp [goTo_threads, Access.fuel]⟩
    · exact ⟨.refused (by assumption), by simp [State.returns, goTo_threads, Access.fuel]⟩
  | exchange room =>
    have won : State.enqueuePos (start.goTo thread (.pushExchange value start.enqueuePos)) = start.enqueuePos := rfl
    simp only [State.access, goTo_threads, goTo_goTo, won, if_true, Option.some.injEq] at ran
    subst ran
    exact ⟨.write room Finset.univ start.cells, by simp [goTo_threads, Access.fuel]⟩
  | write room todo cells =>
    simp only [State.access, goTo_threads] at ran
    split at ran
    · cases ran
      simp only [State.returns, State.goTo, Function.update_idem]
      exact ⟨.accepted room _, by simp [Access.fuel]⟩
    · cases ran
  | accepted room cells => simp [State.access, State.returns, goTo_threads] at ran
  | refused full => simp [State.access, State.returns, goTo_threads] at ran

theorem PushPhase.step (alone : Alone capacity thread state action) (ran : step capacity state action = some after) :
    PushPhase capacity start thread value after := by
  obtain ⟨-, own⟩ := alone
  cases action with
  | tryPush | tryPop => cases own
  | access actor =>
    subst own
    exact (phase.access tracks quiet ran).1
  | word actor word =>
    subst own
    cases phase with
    | write room todo cells =>
      simp only [Mpmc.step, State.copyWord, goTo_threads] at ran
      split at ran
      · cases ran
        simp only [State.goTo, Function.update_idem]
        exact .write room (todo.erase word) _
      · cases ran
    | _ => simp [Mpmc.step, State.copyWord, State.returns, goTo_threads] at ran
  | spurious actor =>
    subst own
    cases phase with
    | exchange room =>
      simp only [Mpmc.step, State.exchangeFails, goTo_threads, goTo_goTo] at ran
      cases ran
      exact .loadSeq
    | _ => simp [Mpmc.step, State.exchangeFails, State.returns, goTo_threads] at ran

theorem PushPhase.advances (room : start.enqueuePos + 1 < signedLimit) (unfinished : state.threads thread ≠ .idle) :
    ∃ action after, Alone capacity thread state action ∧ Mpmc.step capacity state action = some after ∧
      PushPhase capacity start thread value after ∧ (after.threads thread).fuel < (state.threads thread).fuel := by
  have permitted : Bounded capacity state (.access thread) := by
    cases phase <;> simp [Bounded, bounded, State.returns, goTo_threads, room]
  cases holds : (state.threads thread).holding with
  | true =>
    obtain ⟨action, after, alone, ran, less⟩ := holding_advances holds permitted
    exact ⟨action, after, alone, ran, phase.step tracks quiet alone ran, less⟩
  | false =>
    obtain ⟨after, ran⟩ := access_enabled unfinished holds
    exact ⟨.access thread, after, ⟨permitted, rfl⟩, ran, phase.access tracks quiet ran⟩

end

inductive PopPhase (start : State Thread Word width) (thread : Thread) : State Thread Word width → Prop where
  | loadPos : PopPhase start thread (start.goTo thread .popLoadPos)
  | loadSeq : PopPhase start thread (start.goTo thread (.popLoadSeq start.dequeuePos))
  | exchange (more : start.dequeuePos < start.enqueuePos) :
      PopPhase start thread (start.goTo thread (.popExchange start.dequeuePos))
  | read (more : start.dequeuePos < start.enqueuePos) (todo : Finset (Fin width)) (snapshot : Words Word width) :
      PopPhase start thread
        { start.goTo thread (.popRead start.dequeuePos todo snapshot) with
          dequeuePos := succ64 start.dequeuePos
          takes := start.takes ++ [(thread, start.dequeuePos)] }
  | returned (more : start.dequeuePos < start.enqueuePos) (snapshot : Words Word width)
      (cells : Nat → Cell Word width) :
      PopPhase start thread
        { start.returns thread (.popped ⟨thread, start.dequeuePos, snapshot⟩) with
          dequeuePos := succ64 start.dequeuePos
          takes := start.takes ++ [(thread, start.dequeuePos)]
          cells }
  | refused (none : ¬ start.dequeuePos < start.enqueuePos) :
      PopPhase start thread (start.returns thread (.empty thread))

variable (tracks : Tracks capacity start tickets)
include tracks

variable (quiet : start.Quiet)
include quiet

private theorem popLoadSeq_quiet (thread : Thread) :
    (start.goTo thread (.popLoadSeq start.dequeuePos)).access capacity thread =
      some (if start.dequeuePos < start.enqueuePos then start.goTo thread (.popExchange start.dequeuePos)
      else start.returns thread (.empty thread)) := by
  have last := tracks.dequeuePos_eq
  have difference := tracks.pop_diff last.le
  have cell : State.cell capacity (start.goTo thread (.popLoadSeq start.dequeuePos)) start.dequeuePos =
        start.cell capacity start.dequeuePos := rfl
  have returned : (start.goTo thread (.popLoadSeq start.dequeuePos)).returns thread
      (.empty thread) = start.returns thread (.empty thread) := by
    simp [State.returns, State.goTo]
  simp only [State.access, goTo_threads, cell, difference, goTo_goTo, returned]
  by_cases ready : tickets.takes.length ∈ tickets.published
  · have word : (start.cell capacity start.dequeuePos).sequence = start.dequeuePos + 1 := by
      rw [last]
      exact tracks.sequenced.unretired _ ready tickets.last_busy
    rw [if_pos (by omega), if_pos ((tracks.ready_iff_of_quiet quiet).mp ready)]
  · have word : (start.cell capacity start.dequeuePos).sequence ≤ start.dequeuePos := by
      rw [last]
      exact tracks.sequenced.le_of_unpublished ready
    rw [if_neg (by omega), if_pos (by omega), if_neg (mt (tracks.ready_iff_of_quiet quiet).mpr ready)]

theorem PopPhase.access (phase : PopPhase start thread state) (ran : state.access capacity thread = some after) :
    PopPhase start thread after ∧ (after.threads thread).fuel < (state.threads thread).fuel := by
  cases phase with
  | loadPos =>
    simp only [State.access, goTo_threads, goTo_goTo] at ran
    cases ran
    exact ⟨.loadSeq, by simp [goTo_threads, Access.fuel]⟩
  | loadSeq =>
    rw [popLoadSeq_quiet tracks quiet] at ran
    cases ran
    split
    · exact ⟨.exchange (by assumption), by simp [goTo_threads, Access.fuel]⟩
    · exact ⟨.refused (by assumption), by simp [State.returns, goTo_threads, Access.fuel]⟩
  | exchange more =>
    have won : State.dequeuePos (start.goTo thread (.popExchange start.dequeuePos)) = start.dequeuePos := rfl
    simp only [State.access, goTo_threads, goTo_goTo, won, if_true, Option.some.injEq] at ran
    subst ran
    exact ⟨.read more Finset.univ default, by simp [goTo_threads, Access.fuel]⟩
  | read more todo snapshot =>
    simp only [State.access, goTo_threads] at ran
    split at ran
    · cases ran
      simp only [State.returns, State.goTo, Function.update_idem]
      exact ⟨.returned more snapshot _, by simp [Access.fuel]⟩
    · cases ran
  | returned more snapshot cells => simp [State.access, State.returns, goTo_threads] at ran
  | refused none => simp [State.access, State.returns, goTo_threads] at ran

theorem PopPhase.step (phase : PopPhase start thread state) (alone : Alone capacity thread state action)
    (ran : step capacity state action = some after) : PopPhase start thread after := by
  obtain ⟨-, own⟩ := alone
  cases action with
  | tryPush | tryPop => cases own
  | access actor =>
    subst own
    exact (phase.access tracks quiet ran).1
  | word actor word =>
    subst own
    cases phase with
    | read more todo snapshot =>
      simp only [Mpmc.step, State.copyWord, goTo_threads] at ran
      split at ran
      · cases ran
        simp only [State.goTo, Function.update_idem]
        exact .read more (todo.erase word) _
      · cases ran
    | _ => simp [Mpmc.step, State.copyWord, State.returns, goTo_threads] at ran
  | spurious actor =>
    subst own
    cases phase with
    | exchange more =>
      simp only [Mpmc.step, State.exchangeFails, goTo_threads, goTo_goTo] at ran
      cases ran
      exact .loadSeq
    | _ => simp [Mpmc.step, State.exchangeFails, State.returns, goTo_threads] at ran

theorem PopPhase.advances (room : start.dequeuePos + capacity.size < signedLimit)
    (phase : PopPhase start thread state) (unfinished : state.threads thread ≠ .idle) :
    ∃ action after, Alone capacity thread state action ∧
      Mpmc.step capacity state action = some after ∧ PopPhase start thread after ∧
      (after.threads thread).fuel < (state.threads thread).fuel := by
  have permitted : Bounded capacity state (.access thread) := by
    cases phase <;> simp [Bounded, bounded, State.returns, goTo_threads, room]
  cases holds : (state.threads thread).holding with
  | true =>
    obtain ⟨action, after, alone, ran, less⟩ := holding_advances holds permitted
    exact ⟨action, after, alone, ran, phase.step tracks quiet alone ran, less⟩
  | false =>
    obtain ⟨after, ran⟩ := access_enabled unfinished holds
    exact ⟨.access thread, after, ⟨permitted, rfl⟩, ran, phase.access tracks quiet ran⟩

end AnimusCore.Mpmc
