import AnimusCore.RingBuffer.Steps

/-! Calls whose position nobody else moves: each access brings them closer to their
return. -/

set_option autoImplicit false

namespace AnimusCore.RingBuffer

open Lib Lib.Ring

section

variable {Thread T : Type}

/-- The position the call has loaded is still the next to be claimed or taken. -/
def State.AtFront (state : State Thread T) (thread : Thread) : Prop :=
  match state.threads thread with
  | .pushLoadSeq _ pos | .pushExchange _ pos => pos = state.claims.length
  | .popLoadSeq pos | .popExchange pos => pos = state.takes.length
  | _ => True

end

variable {Thread T : Type} [DecidableEq Thread] {counting : Counting} {size : Nat}
  {capacity : Capacity} {state after : State Thread T} {action : Action Thread T}
  {tickets : Tickets Thread T capacity} {thread : Thread}

omit [DecidableEq Thread] in
theorem State.AtFront.of_reads (front : state.AtFront thread) {busy : Prop}
    (reads : (state.summary.phases thread).Reads busy) (same : after.threads thread = state.threads thread)
    (takes : after.takes = state.takes) : after.AtFront thread := by
  change (state.threads thread).phase.Reads busy at reads
  unfold State.AtFront at front ⊢
  rw [same, takes]
  cases here : state.threads thread with
  | pushLoadSeq | pushExchange =>
    rw [here] at reads
    exact reads.elim
  | popLoadSeq | popExchange => simpa only [here] using front
  | _ => trivial

omit [DecidableEq Thread] in
theorem State.AtFront.of_writes (front : state.AtFront thread) {busy : T → Prop}
    (writes : (state.summary.phases thread).Writes busy) (same : after.threads thread = state.threads thread)
    (claims : after.claims = state.claims) : after.AtFront thread := by
  change (state.threads thread).phase.Writes busy at writes
  unfold State.AtFront at front ⊢
  rw [same, claims]
  cases here : state.threads thread with
  | popLoadSeq | popExchange =>
    rw [here] at writes
    exact writes.elim
  | pushLoadSeq | pushExchange => simpa only [here] using front
  | _ => trivial

theorem Tracks.step_takes (tracks : Tracks capacity state tickets) {busy : T → Prop}
    (writes : (state.summary.phases action.thread).Writes busy)
    (ran : RingBuffer.step exact capacity.size state action = some after) : after.takes = state.takes := by
  cases action with
  | push actor value | pop actor =>
    exact congrArg Summary.takes (begin_summary ran).2
  | access actor =>
    obtain ⟨-, effect⟩ := tracks.access ran
    change after.summary.takes = state.summary.takes
    generalize after.summary = next at effect
    cases effect with
    | takes phase =>
      rw [Action.thread, phase] at writes
      exact writes.elim
    | _ => rfl
  | spurious actor => exact congrArg Summary.takes (summary_exchangeFails ran)

theorem Tracks.step_claims (tracks : Tracks capacity state tickets) {busy : Prop}
    (reads : (state.summary.phases action.thread).Reads busy)
    (ran : RingBuffer.step exact capacity.size state action = some after) : after.claims = state.claims := by
  cases action with
  | push actor value | pop actor =>
    exact congrArg Summary.claims (begin_summary ran).2
  | access actor =>
    obtain ⟨-, effect⟩ := tracks.access ran
    change after.summary.claims = state.summary.claims
    generalize after.summary = next at effect
    cases effect with
    | claims phase =>
      rw [Action.thread, phase] at reads
      exact reads.elim
    | _ => rfl
  | spurious actor => exact congrArg Summary.claims (summary_exchangeFails ran)

private theorem atFront_goTo {next : Access T} (front : match next with
      | .pushLoadSeq _ pos | .pushExchange _ pos => pos = state.claims.length
      | .popLoadSeq pos | .popExchange pos => pos = state.takes.length
      | _ => True) : (state.goTo thread next).AtFront thread := by
  simpa only [State.AtFront, State.goTo, Function.update_self] using front

section
variable (tracks : Tracks capacity state tickets)
include tracks

theorem Tracks.atFront_exchangeFails (ran : state.exchangeFails thread = some after) : after.AtFront thread := by
  unfold State.exchangeFails at ran
  split at ran <;> cases ran
  · exact atFront_goTo (tracks.enqueuePos_eq.trans (congrArg _ tracks.claims_eq.symm))
  · exact atFront_goTo (tracks.dequeuePos_eq.trans (congrArg _ tracks.takes_eq.symm))

omit [DecidableEq Thread] in
/-- The words of the next positions are never ahead of them. -/
theorem Tracks.front_words : (state.cell capacity.size state.claims.length).sequence ≤ state.claims.length ∧
      (state.cell capacity.size state.takes.length).sequence ≤ state.takes.length + 1 := by
  rw [tracks.claims_eq, tracks.takes_eq]
  constructor
  · by_cases free : tickets.Free tickets.claims.length
    · refine (tracks.sequenced.unpublished _ free fun published => ?_).le
      exact Nat.lt_irrefl _ (tickets.published_lt _ published)
    · exact (tracks.sequenced.lt_of_not_free free).le
  · by_cases published : tickets.takes.length ∈ tickets.published
    · refine (tracks.sequenced.unretired _ published fun retired => ?_).le
      exact Nat.lt_irrefl _ (tickets.retired_lt _ retired)
    · exact (tracks.sequenced.le_of_unpublished published).trans (Nat.le_succ _)

theorem Tracks.access_advances (front : state.AtFront thread)
    (ran : state.access exact capacity.size thread = some after) :
    after.AtFront thread ∧ (after.threads thread).remaining < (state.threads thread).remaining := by
  obtain ⟨claimWord, takeWord⟩ := tracks.front_words
  unfold State.AtFront at front
  cases here : state.threads thread with
  | idle | returned outcome => simp [State.access, here] at ran
  | pushLoadPos value =>
    simp only [State.access, here] at ran
    cases ran
    refine ⟨atFront_goTo (tracks.enqueuePos_eq.trans (congrArg _ tracks.claims_eq.symm)), ?_⟩
    simp [State.goTo, Access.remaining]
  | pushLoadSeq value pos | popLoadSeq pos =>
    simp only [here] at front
    subst front
    simp only [State.access, here] at ran
    split at ran
    case isTrue =>
      cases ran
      refine ⟨atFront_goTo rfl, ?_⟩
      simp [State.goTo, Access.remaining]
    case isFalse different =>
      rw [if_pos] at ran
      · cases ran
        refine ⟨atFront_goTo trivial, ?_⟩
        simp [State.goTo, State.returns, Access.remaining]
      · simp only [exact] at different ⊢
        omega
  | pushExchange value pos =>
    simp only [here] at front
    subst front
    simp only [State.access, here] at ran
    rw [if_pos (tracks.enqueuePos_eq.trans (congrArg _ tracks.claims_eq.symm))] at ran
    cases ran
    refine ⟨?_, ?_⟩ <;> simp [State.AtFront, State.goTo, Access.remaining]
  | popLoadPos =>
    simp only [State.access, here] at ran
    cases ran
    refine ⟨atFront_goTo (tracks.dequeuePos_eq.trans (congrArg _ tracks.takes_eq.symm)), ?_⟩
    simp [State.goTo, Access.remaining]
  | popExchange pos =>
    simp only [here] at front
    subst front
    simp only [State.access, here] at ran
    rw [if_pos (tracks.dequeuePos_eq.trans (congrArg _ tracks.takes_eq.symm))] at ran
    cases ran
    refine ⟨?_, ?_⟩ <;> simp [State.AtFront, State.goTo, Access.remaining]
  | pushWrite | pushPublish | popRead | popRetire =>
    simp only [State.access, here] at ran
    cases ran
    refine ⟨?_, ?_⟩ <;> simp [State.AtFront, State.goTo, State.returns, Access.remaining]

end

/-- A call that holds a claimed position needs nothing but its own accesses. -/
theorem claimed_step_remaining (action : Action Thread T) {value : T} {pos : Nat}
    (phase : (state.threads action.thread).phase = .claimed value pos)
    (ran : step counting size state action = some after) :
    (after.threads action.thread).remaining < (state.threads action.thread).remaining := by
  have busy : (state.threads action.thread).resting = false := by
    rw [← Access.phase_resting, phase]
    rfl
  cases action with
  | push actor value | pop actor =>
    simp only [step, State.begin] at ran
    rw [Action.thread] at busy
    rw [if_neg (by simp [busy])] at ran
    cases ran
  | access actor =>
    simp only [Action.thread] at phase ⊢
    cases here : state.threads actor with
    | pushWrite | pushPublish =>
      simp only [step, State.access, here] at ran
      cases ran
      simp [State.goTo, State.returns, Access.remaining]
    | returned outcome => cases outcome <;> simp [here, Access.phase, Outcome.phase] at phase
    | _ => simp [here, Access.phase] at phase
  | spurious actor =>
    simp only [Action.thread] at phase
    simp only [step, State.exchangeFails] at ran
    split at ran
    case h_1 here =>
      rw [here] at phase
      cases phase
    case h_2 here =>
      rw [here] at phase
      cases phase
    case h_3 => cases ran

theorem Tracks.atFront_step (tracks : Tracks capacity state tickets) (front : state.AtFront action.thread)
    (ran : RingBuffer.step exact capacity.size state action = some after) : after.AtFront action.thread := by
  cases action with
  | push actor value | pop actor =>
    unfold State.AtFront
    rw [begin_threads ran, Action.thread, Function.update_self]
    trivial
  | access actor => exact (tracks.access_advances front ran).1
  | spurious actor => exact tracks.atFront_exchangeFails ran

end AnimusCore.RingBuffer
