import AnimusCore.RingBuffer.Calls
import AnimusCore.RingBuffer.Invariant

/-! Every access of the ring keeps the tickets and does to the calls what `Effect`
says. -/

set_option autoImplicit false

namespace AnimusCore.RingBuffer

open Lib Lib.Ring Function

variable {Thread T : Type} {capacity : Capacity} {state after : State Thread T}
  {tickets : Tickets Thread T capacity} {thread : Thread} {value : T} {pos : Nat}

private theorem setCell_eq (state : State Thread T) (pos : Nat) (cell : Cell T) :
    state.setCell capacity.size pos cell = update state.cells (capacity.slot pos) cell :=
  rfl

private theorem setCell_sequence (state : State Thread T) (pos : Nat) (cell : Cell T) :
    (fun slot => (state.setCell capacity.size pos cell slot).sequence) = update
      (fun slot => (state.cells slot).sequence) (capacity.slot pos) cell.sequence :=
  comp_update Cell.sequence state.cells _ cell

private theorem setCell_data (state : State Thread T) (pos sequence slot : Nat) :
    (state.setCell capacity.size pos { state.cell capacity.size pos with sequence } slot).data =
      (state.cells slot).data := by
  rw [setCell_eq, update_apply]
  split
  case isTrue here =>
    rw [here]
    rfl
  case isFalse => rfl

variable [DecidableEq Thread]

section
variable (tracks : Tracks capacity state tickets)
include tracks

theorem Tracks.write (here : state.threads thread = .pushWrite value pos) : Tracks capacity
      { state.goTo thread (.pushPublish value pos) with
        cells := state.setCell capacity.size pos { state.cell capacity.size pos with data := value } } tickets := by
  obtain ⟨claimed, fresh⟩ := tracks.knows here
  have current := tickets.current_of_fresh (List.getElem?_eq_some_iff.mp claimed).1 fresh
  have apart : ∀ other, tickets.Current other → other ≠ pos →
      state.setCell capacity.size pos { state.cell capacity.size pos with data := value }
        (capacity.slot other) = state.cells (capacity.slot other) := by
    intro other serving different
    exact update_of_ne (fun same => different (serving.unique current same)) _ _
  have same : (fun slot => (state.setCell capacity.size pos
      { state.cell capacity.size pos with data := value } slot).sequence) =
      fun slot => (state.cells slot).sequence :=
    (setCell_sequence ..).trans (update_eq_self _ _)
  refine { tracks with sequenced := ?_, stored := ?_, threads := ?_ }
  · exact same.symm ▸ tracks.sequenced
  · intro other owner record found published unretired
    have different : other ≠ pos := fun same => fresh (same ▸ published)
    have serving := tickets.current_of_published published unretired
    change (state.setCell capacity.size pos _ (capacity.slot other)).data = record
    rw [apart other serving different]
    exact tracks.stored other owner record found published unretired
  · refine tracks.threads_after Tickets.ActsAs.refl ⟨claimed, fresh, ?_⟩ ?_
    · simp [setCell_eq]
    · intro other serving _ foreign
      have different : other ≠ pos := fun same => foreign value (same ▸ claimed)
      exact congrArg Cell.data (apart other serving different)

theorem Tracks.publish (here : state.threads thread = .pushPublish value pos) : ∃ claimed, Tracks capacity
      { state.returns thread (.pushed value) with
        cells := state.setCell capacity.size pos { state.cell capacity.size pos with sequence := pos + 1 }
        published := state.published ++ [pos] }
      (tickets.publish pos claimed) := by
  obtain ⟨found, fresh, written⟩ := tracks.knows here
  have claimed : pos < tickets.claims.length := (List.getElem?_eq_some_iff.mp found).1
  refine ⟨claimed, { tracks with
    published_iff := ?_, sequenced := ?_, stored := ?_, threads := ?_ }⟩
  · intro other
    change other ∈ state.published ++ [pos] ↔ other ∈ insert pos tickets.published
    rw [List.mem_append, List.mem_singleton, Finset.mem_insert, tracks.published_iff, or_comm]
  · rw [setCell_sequence]
    exact tracks.sequenced.publish claimed fresh
  · intro other owner record inside published unretired
    refine (setCell_data state pos _ _).trans ?_
    rcases Finset.mem_insert.mp published with rfl | earlier
    · have same := Option.some.inj (found.symm.trans inside)
      rw [Prod.mk.injEq] at same
      exact written.trans same.2
    · exact tracks.stored other owner record inside earlier unretired
  · exact tracks.threads_after (Tickets.ActsAs.publish found) trivial fun _ _ _ _ => setCell_data state pos _ _

theorem Tracks.read (here : state.threads thread = .popRead pos) :
    ∃ owner, tickets.claims[pos]? = some (owner, (state.cell capacity.size pos).data) ∧ Tracks capacity
        (state.goTo thread (.popRetire pos (state.cell capacity.size pos).data)) tickets := by
  obtain ⟨taken, busy⟩ := tracks.knows here
  have published := tickets.taken_published pos (List.getElem?_eq_some_iff.mp taken).1
  obtain ⟨⟨owner, value⟩, claimed⟩ : ∃ claim, tickets.claims[pos]? = some claim :=
    ⟨_, List.getElem?_eq_getElem (tickets.published_lt pos published)⟩
  have stored : (state.cell capacity.size pos).data = value := tracks.stored pos owner value claimed published busy
  rw [stored]
  exact ⟨owner, claimed, tracks.move ⟨taken, busy, owner, claimed⟩⟩

theorem Tracks.retire {out : T} (here : state.threads thread = .popRetire pos out) : ∃ taken, Tracks capacity
      { state.returns thread (.popped out) with
        cells := state.setCell capacity.size pos
          { state.cell capacity.size pos with sequence := pos + (capacity.size - 1) + 1 }
        retired := state.retired ++ [(thread, pos, out)] }
      (tickets.retire pos taken) := by
  have size := capacity.size_pos
  obtain ⟨found, busy, owner, claimed⟩ := tracks.knows here
  have taken : pos < tickets.takes.length := (List.getElem?_eq_some_iff.mp found).1
  have lap : pos + (capacity.size - 1) + 1 = pos + capacity.size := by omega
  refine ⟨taken, { tracks with
    retired_iff := ?_, sequenced := ?_, stored := ?_, threads := ?_ }⟩
  · intro other
    change other ∈ (state.retired ++ [(thread, pos, out)]).map _ ↔ other ∈ insert pos tickets.retired
    rw [List.map_append, List.mem_append, tracks.retired_iff, Finset.mem_insert,
      List.map_singleton, List.mem_singleton, or_comm]
  · rw [lap, setCell_sequence]
    exact tracks.sequenced.retire taken busy
  · intro other owner record inside published unretired
    refine (setCell_data state pos _ _).trans ?_
    exact tracks.stored other owner record inside published
      fun earlier => unretired (Finset.mem_insert_of_mem earlier)
  · exact tracks.threads_after (Tickets.ActsAs.retire found) trivial fun _ _ _ _ => setCell_data state pos _ _

end

private theorem summary_goTo (state : State Thread T) (thread : Thread) (next : Access T) :
    (state.goTo thread next).summary = state.summary.go thread next.phase := by
  have phases : (fun other => (update state.threads thread next other).phase) =
      update (fun other => (state.threads other).phase) thread next.phase :=
    comp_update Access.phase state.threads thread next
  simp only [State.summary, State.goTo, Summary.go, phases]

private theorem phase_of_goTo (next : Access T) {phase : Phase T}
    (found : (state.goTo thread next).summary.phases thread = phase) : next.phase = phase := by
  rwa [summary_goTo, go_phases_self] at found

private theorem summary_returns (state : State Thread T) (thread : Thread) (outcome : Outcome T) :
    (state.returns thread outcome).summary = state.summary.go thread outcome.phase :=
  summary_goTo state thread (.returned outcome)

theorem begin_summary {first : Access T} (ran : state.begin thread first = some after) :
    (state.summary.phases thread).resting = true ∧ after.summary = state.summary.go thread first.phase := by
  unfold State.begin at ran
  split at ran <;> cases ran
  case isTrue rests =>
    exact ⟨(Access.phase_resting _).trans rests, summary_goTo state thread first⟩

private theorem summary_goTo_of_phase {access next : Access T} (here : state.threads thread = access)
    (same : access.phase = next.phase) : (state.goTo thread next).summary = state.summary := by
  have kept : update state.summary.phases thread next.phase = state.summary.phases := by
    rw [← same, ← here]
    exact update_eq_self thread state.summary.phases
  rw [summary_goTo, Summary.go, kept]

theorem Effect.of_phase {access next : Access T} (here : state.threads thread = access)
    (same : access.phase = next.phase) : Effect state.summary thread (state.goTo thread next).summary := by
  rw [summary_goTo_of_phase here same]
  exact .moves

theorem summary_exchangeFails (ran : state.exchangeFails thread = some after) : after.summary = state.summary := by
  unfold State.exchangeFails at ran
  split at ran <;> cases ran
  case h_1 here | h_2 here => exact summary_goTo_of_phase here rfl

theorem Effect.exchangeFails (ran : state.exchangeFails thread = some after) :
    Effect state.summary thread after.summary := by
  rw [summary_exchangeFails ran]
  exact .moves

section
variable (tracks : Tracks capacity state tickets)
include tracks

theorem Tracks.pushLoadSeq (here : state.threads thread = .pushLoadSeq value pos)
    (ran : state.access exact capacity.size thread = some after) :
    Tracks capacity after tickets ∧ Effect state.summary thread after.summary := by
  have valid := tracks.knows here
  have phase : (state.threads thread).phase = .unclaimed value := congrArg Access.phase here
  simp only [State.access, here] at ran
  split at ran
  case isTrue zero =>
    cases ran
    refine ⟨tracks.move ⟨valid, ?_⟩, .of_phase here rfl⟩
    rintro rfl
    have word : (state.cell capacity.size tickets.claims.length).sequence = tickets.claims.length := by
      simp only [exact] at zero
      omega
    exact tracks.sequenced.free_of_eq word
  case isFalse =>
    split at ran
    case isTrue negative =>
      cases ran
      refine ⟨tracks.returns _, ?_⟩
      rw [summary_returns]
      exact .refuses phase
    case isFalse =>
      cases ran
      exact ⟨tracks.move trivial, .of_phase here rfl⟩

omit [DecidableEq Thread] in
theorem Tracks.unpublished_front {pos : Nat} (bound : pos ≤ tickets.takes.length)
    (word : (state.cell capacity.size pos).sequence ≤ pos) :
    pos = state.takes.length ∧ state.takes.length ∉ state.published := by
  obtain ⟨last, unpublished⟩ := tracks.sequenced.unpublished_of_le bound word
  rw [tracks.takes_eq, ← last, tracks.published_iff]
  exact ⟨rfl, unpublished⟩

theorem Tracks.popLoadSeq (here : state.threads thread = .popLoadSeq pos)
    (ran : state.access exact capacity.size thread = some after) :
    Tracks capacity after tickets ∧ Effect state.summary thread after.summary := by
  have valid := tracks.knows here
  have phase : (state.threads thread).phase = .seeking := congrArg Access.phase here
  simp only [State.access, here] at ran
  split at ran
  case isTrue zero =>
    cases ran
    refine ⟨tracks.move ⟨valid, ?_⟩, .of_phase here rfl⟩
    rintro rfl
    have word : (state.cell capacity.size tickets.takes.length).sequence = tickets.takes.length + 1 := by
      simp only [exact] at zero
      omega
    exact tracks.sequenced.published_of_eq word
  case isFalse =>
    split at ran
    case isTrue negative =>
      cases ran
      have word : (state.cell capacity.size pos).sequence ≤ pos := by
        simp only [exact] at negative
        omega
      refine ⟨tracks.returns _, ?_⟩
      rw [summary_returns]
      exact .empty phase (tracks.unpublished_front valid word).2
    case isFalse =>
      cases ran
      exact ⟨tracks.move trivial, .of_phase here rfl⟩

/-- The calls on the ring are calls on a queue of tickets. -/
theorem Tracks.access (ran : state.access exact capacity.size thread = some after) :
    (∃ future, Tracks capacity after (future : Tickets Thread T capacity)) ∧
      Effect state.summary thread after.summary := by
  cases here : state.threads thread with
  | idle | returned outcome => simp [State.access, here] at ran
  | pushLoadPos value =>
    simp only [State.access, here] at ran
    cases ran
    exact ⟨⟨tickets, tracks.move tracks.enqueuePos_eq.le⟩, .of_phase here rfl⟩
  | pushLoadSeq value pos =>
    obtain ⟨kept, effect⟩ := tracks.pushLoadSeq here ran
    exact ⟨⟨tickets, kept⟩, effect⟩
  | pushExchange value pos =>
    simp only [State.access, here] at ran
    split at ran
    case isTrue won =>
      cases ran
      obtain ⟨free, kept⟩ := tracks.claim here won
      have last : pos = state.summary.claims.length := by
        rw [← won, tracks.enqueuePos_eq, ← tracks.claims_eq]
        rfl
      refine ⟨⟨_, kept⟩, ?_⟩
      change Effect _ _ { (state.goTo thread (.pushWrite value pos)).summary with
        claims := state.claims ++ [(thread, value)] }
      rw [summary_goTo, last]
      exact .claims (congrArg Access.phase here)
    case isFalse =>
      exact ⟨⟨tickets, tracks.exchangeFails ran⟩, .exchangeFails ran⟩
  | pushWrite value pos =>
    simp only [State.access, here] at ran
    cases ran
    exact ⟨⟨tickets, tracks.write here⟩, .of_phase here rfl⟩
  | pushPublish value pos =>
    simp only [State.access, here] at ran
    cases ran
    obtain ⟨claimed, kept⟩ := tracks.publish here
    refine ⟨⟨_, kept⟩, ?_⟩
    change Effect _ _ { (state.returns thread (.pushed value)).summary with
      published := state.published ++ [pos] }
    rw [summary_returns]
    exact .publishes (congrArg Access.phase here)
  | popLoadPos =>
    simp only [State.access, here] at ran
    cases ran
    exact ⟨⟨tickets, tracks.move tracks.dequeuePos_eq.le⟩, .of_phase here rfl⟩
  | popLoadSeq pos =>
    obtain ⟨kept, effect⟩ := tracks.popLoadSeq here ran
    exact ⟨⟨tickets, kept⟩, effect⟩
  | popExchange pos =>
    simp only [State.access, here] at ran
    split at ran
    case isTrue won =>
      cases ran
      obtain ⟨ready, kept⟩ := tracks.take here won
      have last : pos = state.summary.takes.length := by
        rw [← won, tracks.dequeuePos_eq, ← tracks.takes_eq]
        rfl
      refine ⟨⟨_, kept⟩, ?_⟩
      change Effect _ _ { (state.goTo thread (.popRead pos)).summary with
        takes := state.takes ++ [thread] }
      rw [summary_goTo, last]
      refine .takes (congrArg Access.phase here) ((tracks.published_iff _).mpr ?_)
      rw [← tracks.takes_eq] at ready
      exact ready
    case isFalse =>
      exact ⟨⟨tickets, tracks.exchangeFails ran⟩, .exchangeFails ran⟩
  | popRead pos =>
    simp only [State.access, here] at ran
    cases ran
    obtain ⟨_, -, kept⟩ := tracks.read here
    exact ⟨⟨tickets, kept⟩, .of_phase here rfl⟩
  | popRetire pos out =>
    simp only [State.access, here] at ran
    cases ran
    obtain ⟨-, -, owner, claimed⟩ := tracks.knows here
    obtain ⟨taken, kept⟩ := tracks.retire here
    refine ⟨⟨_, kept⟩, ?_⟩
    change Effect _ _ { (state.returns thread (.popped out)).summary with
      retired := state.retired ++ [(thread, pos, out)] }
    rw [summary_returns]
    rw [← tracks.claims_eq] at claimed
    exact .retires (congrArg Access.phase here) claimed

theorem Tracks.step {action : Action Thread T} (ran : RingBuffer.step exact capacity.size state action = some after) :
    ∃ future, Tracks capacity after (future : Tickets Thread T capacity) := by
  cases action with
  | push actor value | pop actor => exact ⟨tickets, tracks.begin ran trivial⟩
  | access actor => exact (tracks.access ran).1
  | spurious actor => exact ⟨tickets, tracks.exchangeFails ran⟩

/-- A pop that finds nothing has read the word of the front position. -/
theorem Tracks.access_empty (ran : state.access exact capacity.size thread = some after)
    (before : state.summary.phases thread = .seeking) (found : after.summary.phases thread = .empty) :
    state.threads thread = .popLoadSeq state.takes.length ∧ state.takes.length ∉ state.published := by
  change (state.threads thread).phase = .seeking at before
  cases here : state.threads thread with
  | popLoadPos =>
    simp only [State.access, here] at ran
    cases ran
    cases phase_of_goTo _ found
  | popLoadSeq pos =>
    have valid := tracks.knows here
    simp only [State.access, here] at ran
    split at ran
    case isTrue =>
      cases ran
      cases phase_of_goTo _ found
    case isFalse =>
      split at ran
      case isTrue negative =>
        have word : (state.cell capacity.size pos).sequence ≤ pos := by
          simp only [exact] at negative
          omega
        obtain ⟨rfl, unpublished⟩ := tracks.unpublished_front valid word
        exact ⟨rfl, unpublished⟩
      case isFalse =>
        cases ran
        cases phase_of_goTo _ found
  | popExchange pos =>
    simp only [State.access, here] at ran
    split at ran
    case isTrue =>
      cases ran
      cases phase_of_goTo (.popRead pos) found
    case isFalse =>
      simp only [State.exchangeFails, here] at ran
      cases ran
      cases phase_of_goTo _ found
  | returned outcome => cases outcome <;> simp [here, Access.phase, Outcome.phase] at before
  | _ => simp [here, Access.phase] at before

end

/-! ### Words

The positions of a run are exact as long as they fit in a signed word. -/

theorem exact_add {left right : Nat} (fits : left + right < signedLimit) :
    machine.add left right = exact.add left right :=
  add64_eq (fits.trans (by decide))

theorem exact_diff {seq pos : Nat} (fits : seq < signedLimit) (fits' : pos < signedLimit) :
    machine.diff seq pos = exact.diff seq pos :=
  signed64_sub64 fits fits'.le

theorem Tracks.access_machine (tracks : Tracks capacity state tickets)
    (fits : state.claims.length + capacity.size < signedLimit) (thread : Thread) :
    state.access machine capacity.size thread = state.access exact capacity.size thread := by
  have size := capacity.two_le
  have takes := tickets.takes_le_claims
  rw [tracks.claims_eq] at fits
  have word : ∀ {pos}, pos ≤ tickets.claims.length →
      (state.cell capacity.size pos).sequence < signedLimit := fun bound =>
    Nat.lt_of_le_of_lt (tracks.sequenced.word_le bound) fits
  have claimed : ∀ {pos claim}, tickets.claims[pos]? = some claim → pos < tickets.claims.length :=
    fun found => (List.getElem?_eq_some_iff.mp found).1
  cases here : state.threads thread with
  | idle | returned | pushLoadPos | popLoadPos | pushWrite | popRead =>
    simp only [State.access, here]
  | pushLoadSeq value pos =>
    have valid : pos ≤ tickets.claims.length := tracks.knows here
    simp only [State.access, here, exact_diff (word valid) (valid.trans_lt (by omega))]
  | pushExchange value pos =>
    have bound := (tracks.knows here).1
    rw [State.access, State.access, here]
    simp only [exact_add (show pos + 1 < signedLimit by omega)]
  | pushPublish value pos =>
    have bound := claimed (tracks.knows here).1
    simp only [State.access, here, exact_add (show pos + 1 < signedLimit by omega)]
  | popLoadSeq pos =>
    have bound : pos ≤ tickets.takes.length := tracks.knows here
    have sum : machine.add pos 1 = exact.add pos 1 := exact_add (by omega)
    have diff : machine.diff (state.cell capacity.size pos).sequence (exact.add pos 1) =
        exact.diff (state.cell capacity.size pos).sequence (exact.add pos 1) :=
      exact_diff (word (bound.trans takes)) (show pos + 1 < signedLimit by omega)
    simp only [State.access, here, sum, diff]
  | popExchange pos =>
    have bound := (tracks.knows here).1
    rw [State.access, State.access, here]
    simp only [exact_add (show pos + 1 < signedLimit by omega)]
  | popRetire pos out =>
    obtain ⟨-, -, owner, found⟩ := tracks.knows here
    have bound := claimed found
    have lap : machine.add pos (capacity.size - 1) = exact.add pos (capacity.size - 1) := exact_add (by omega)
    have next : machine.add (exact.add pos (capacity.size - 1)) 1 =
        exact.add (exact.add pos (capacity.size - 1)) 1 := by
      refine exact_add ?_
      simp only [exact]
      omega
    simp only [State.access, here, lap, next]

end AnimusCore.RingBuffer
