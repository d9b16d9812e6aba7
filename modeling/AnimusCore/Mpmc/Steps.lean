import AnimusCore.Mpmc.Invariant

/-! Every step of a thread follows the tickets: the two exchanges claim and take, the
two sequence stores publish and retire, and all other accesses leave the tickets as
they are. -/

set_option autoImplicit false

namespace AnimusCore.Mpmc

open Lib Lib.Ring Function List

variable {Thread Word : Type} {width : Nat} {capacity : Capacity} {state after : State Thread Word width}
  {tickets : RingTickets Thread Word width capacity} {thread : Thread}
  {value : Words Word width} {pos : Nat} {todo : Finset (Fin width)}

private theorem signedLimit_lt : signedLimit < wordSize := by decide

section
variable (tracks : Tracks capacity state tickets)
include tracks

theorem Tracks.pos_lt (claimable : pos ≤ tickets.claims.length) : pos < signedLimit := by
  rw [← tracks.enqueuePos_eq] at claimable
  exact claimable.trans_lt tracks.enqueuePos_lt

theorem Tracks.push_diff (claimable : pos ≤ tickets.claims.length) :
    State.diff (state.cell capacity pos).sequence pos = ((state.cell capacity pos).sequence : Int) - (pos : Int) := by
  have bound := tracks.pos_lt claimable
  exact signed64_sub64 (tracks.sequence_lt pos bound) bound.le

theorem Tracks.pop_diff (takeable : pos ≤ tickets.takes.length) :
    State.diff (state.cell capacity pos).sequence (succ64 pos) =
      ((state.cell capacity pos).sequence : Int) - ((pos : Int) + 1) := by
  have bound := tracks.pos_lt (takeable.trans tickets.takes_le_claims)
  have limit := signedLimit_lt
  rw [succ64_eq (by omega), State.diff, signed64_sub64 (tracks.sequence_lt pos bound) bound]
  rfl

end

variable [DecidableEq Thread]

theorem Tracks.move (tracks : Tracks capacity state tickets) {next : Access Word width}
    (loose : (state.threads thread).holding = false) (valid : next.Valid state.cells tickets thread) :
    Tracks capacity (state.goTo thread next) tickets where
  __ := tracks
  threads := tracks.threads_after Tickets.ActsAs.refl valid fun _ _ _ _ => rfl
  writers := tracks.writers_kept fun _ _ _ holds => by
    rw [holds] at loose
    cases loose
  readers := tracks.readers_kept fun _ _ _ holds => by
    rw [holds] at loose
    cases loose
  records := tracks.records

private theorem returns_pushes (outcome : Outcome Thread Word width) :
    (state.returns thread outcome).pushes = state.pushes ++ outcome.pushed?.toList := by
  cases outcome <;> simp [State.pushes, State.returns, Outcome.pushed?]

private theorem returns_pops (outcome : Outcome Thread Word width) :
    (state.returns thread outcome).pops = state.pops ++ outcome.popped?.toList := by
  cases outcome <;> simp [State.pops, State.returns, Outcome.popped?]

section
variable (tracks : Tracks capacity state tickets)
include tracks

theorem Tracks.refuse {outcome : Outcome Thread Word width} (loose : (state.threads thread).holding = false)
    (notPushed : outcome.pushed? = none) (notPopped : outcome.popped? = none) :
    Tracks capacity (state.returns thread outcome) tickets := by
  have moved : Tracks capacity (state.goTo thread .idle) tickets := tracks.move loose trivial
  refine { moved with records := ?_ }
  rw [returns_pushes, returns_pops, notPushed, notPopped, Option.toList_none, append_nil, append_nil]
  exact moved.records

theorem Tracks.begin {first : Access Word width} (valid : first.Valid state.cells tickets thread)
    (ran : state.begin thread first = some after) : Tracks capacity after tickets := by
  unfold State.begin at ran
  split at ran
  case h_1 idle =>
    cases ran
    refine tracks.move ?_ valid
    rw [idle]
    rfl
  case h_2 => cases ran

theorem Tracks.exchangeFails (ran : state.exchangeFails thread = some after) : Tracks capacity after tickets := by
  unfold State.exchangeFails at ran
  split at ran
  case h_1 here =>
    cases ran
    refine tracks.move ?_ tracks.enqueuePos_eq.le
    rw [here]
    rfl
  case h_2 here =>
    cases ran
    refine tracks.move ?_ tracks.dequeuePos_eq.le
    rw [here]
    rfl
  case h_3 => cases ran

end

section
variable (tracks : Tracks capacity state tickets)
include tracks

omit [DecidableEq Thread] in
theorem Tracks.writing_current (here : state.threads thread = .pushWrite value pos todo) : tickets.Current pos := by
  obtain ⟨claimed, fresh, -⟩ := tracks.knows here
  exact tickets.current_of_fresh (List.getElem?_eq_some_iff.mp claimed).1 fresh

theorem Tracks.copyPush {word : Fin width} (here : state.threads thread = .pushWrite value pos todo) : Tracks capacity
      { state.goTo thread (.pushWrite value pos (todo.erase word)) with
        cells := state.writeWord capacity pos value word } tickets := by
  have current := tracks.writing_current here
  obtain ⟨claimed, fresh, copied⟩ := tracks.knows here
  have apart : ∀ other, tickets.Current other → other ≠ pos →
      state.writeWord capacity pos value word (capacity.slot other) = state.cells (capacity.slot other) := by
    intro other serving different
    exact update_of_ne (fun same => different (serving.unique current same)) _ _
  have same : (fun slot => (state.writeWord capacity pos value word slot).sequence) =
      fun slot => (state.cells slot).sequence :=
    (comp_update Cell.sequence _ _ _).trans (update_eq_self _ _)
  refine { tracks with
    sequence_lt := ?_, sequenced := ?_, stored := ?_, threads := ?_, writers := ?_
    readers := ?_, records := tracks.records }
  · intro other bound
    exact (congrFun same (capacity.slot other)).trans_lt (tracks.sequence_lt other bound)
  · exact same.symm ▸ tracks.sequenced
  · intro other owner record found published unretired
    have different : other ≠ pos := fun same => fresh (same ▸ published)
    have serving := tickets.current_of_published published unretired
    change (state.writeWord capacity pos value word (capacity.slot other)).value = record
    rw [apart other serving different]
    exact tracks.stored other owner record found published unretired
  · refine tracks.threads_after Tickets.ActsAs.refl ⟨claimed, fresh, ?_⟩ ?_
    · simp only [State.writeWord, update_self]
      exact copied.word word
    · intro other serving _ foreign
      have different : other ≠ pos := fun same => foreign value (same ▸ claimed)
      exact congrArg Cell.value (apart other serving different)
  · intro other inside unpublished
    refine tracks.writers_after inside unpublished fun _ _ holds => ?_
    rw [here] at holds
    cases holds
    exact ⟨value, todo.erase word, rfl⟩
  · exact tracks.readers_kept (by simp [here])

theorem Tracks.copyPop {word : Fin width} {snapshot : Words Word width}
    (here : state.threads thread = .popRead pos todo snapshot) :
    Tracks capacity (state.goTo thread (.popRead pos (todo.erase word)
        (update snapshot word ((state.cell capacity pos).value word)))) tickets := by
  obtain ⟨taken, busy, owner, value, claimed, copied⟩ := tracks.knows here
  have published := tickets.taken_published pos (List.getElem?_eq_some_iff.mp taken).1
  have stored := tracks.stored pos owner value claimed published busy
  refine { tracks with
    threads := ?_, writers := ?_, readers := ?_, records := tracks.records }
  · refine tracks.threads_after Tickets.ActsAs.refl ⟨taken, busy, owner, value, claimed, ?_⟩ fun _ _ _ _ => rfl
    rw [stored]
    exact copied.word word
  · exact tracks.writers_kept (by simp [here])
  · intro other inside unretired
    refine tracks.readers_after inside unretired fun _ _ holds => ?_
    rw [here] at holds
    cases holds
    exact ⟨_, _, rfl⟩

theorem Tracks.copyWord {word : Fin width} (ran : state.copyWord capacity thread word = some after) :
    Tracks capacity after tickets := by
  unfold State.copyWord at ran
  split at ran
  case h_1 here =>
    split at ran <;> cases ran
    exact tracks.copyPush here
  case h_2 here =>
    split at ran <;> cases ran
    exact tracks.copyPop here
  case h_3 => cases ran

end

theorem Tracks.claim (tracks : Tracks capacity state tickets)
    (here : state.threads thread = .pushExchange value pos) (won : state.enqueuePos = pos)
    (bounded : pos + 1 < signedLimit) : ∃ free, Tracks capacity
      { state.goTo thread (.pushWrite value pos Finset.univ) with
        enqueuePos := succ64 pos
        claims := state.claims ++ [⟨thread, pos, value⟩] }
      (tickets.claim thread value free) := by
  have next : succ64 pos = pos + 1 := succ64_eq (by have limit := signedLimit_lt; omega)
  have records := tracks.records
  obtain ⟨-, whenLast⟩ := tracks.knows here
  obtain rfl : pos = tickets.claims.length := won.symm.trans tracks.enqueuePos_eq
  have free := whenLast rfl
  refine ⟨free, { tracks with
    enqueuePos_eq := ?_, enqueuePos_lt := ?_, sequenced := ?_, stored := ?_, threads := ?_
    writers := ?_, readers := ?_, records := ?_ }⟩
  · exact next.trans (tickets.length_claim free).symm
  · exact next.trans_lt bounded
  · exact ⟨tracks.sequenced.unpublished, tracks.sequenced.unretired⟩
  · intro other owner record found published unretired
    have inside := tickets.published_lt other published
    change (tickets.claims ++ [(thread, value)])[other]? = some (owner, record) at found
    rw [List.getElem?_append_left inside] at found
    exact tracks.stored other owner record found published unretired
  · exact tracks.threads_after (Tickets.ActsAs.claim free) ⟨getElem?_concat_length, tickets.last_fresh, .start⟩
      fun _ _ _ _ => rfl
  · intro other inside unpublished
    rw [tickets.length_claim] at inside
    rcases Nat.lt_or_ge other tickets.claims.length with earlier | this
    · refine tracks.writers_after earlier unpublished fun _ _ holds => ?_
      rw [here] at holds
      cases holds
    · have same : other = tickets.claims.length := by omega
      exact ⟨thread, value, Finset.univ, same ▸ update_self _ _ _⟩
  · exact tracks.readers_kept (by simp [here])
  · refine { records with
      claims_eq := ?_, claims_order := ?_, pushes_claimed := ?_, pops_value := ?_ }
    · rw [map_append, records.claims_eq]
      rfl
    · rw [map_append, records.claims_order, tickets.length_claim, range_succ]
      rfl
    · intro entry member
      exact (Tickets.ActsAs.claim free).claims_getElem? (records.pushes_claimed entry member)
    · intro entry member
      obtain ⟨owner, found⟩ := records.pops_value entry member
      exact ⟨owner, (Tickets.ActsAs.claim free).claims_getElem? found⟩

theorem Tracks.take (tracks : Tracks capacity state tickets) (here : state.threads thread = .popExchange pos)
    (won : state.dequeuePos = pos) (snapshot : Words Word width) : ∃ ready, Tracks capacity
      { state.goTo thread (.popRead pos Finset.univ snapshot) with
        dequeuePos := succ64 pos
        takes := state.takes ++ [(thread, pos)] }
      (tickets.take thread ready) := by
  have records := tracks.records
  obtain ⟨-, whenLast⟩ := tracks.knows here
  obtain rfl : pos = tickets.takes.length := won.symm.trans tracks.dequeuePos_eq
  have ready := whenLast rfl
  have inside := tickets.published_lt _ ready
  have next := succ64_eq ((tracks.pos_lt (Nat.succ_le_of_lt inside)).trans signedLimit_lt)
  obtain ⟨⟨owner, value⟩, claimed⟩ : ∃ claim, tickets.claims[tickets.takes.length]? = some claim :=
    ⟨_, getElem?_eq_getElem inside⟩
  refine ⟨ready, { tracks with
    dequeuePos_eq := ?_, sequenced := ?_, threads := ?_, writers := ?_, readers := ?_
    records := ?_ }⟩
  · exact next.trans (tickets.length_take ready).symm
  · exact ⟨tracks.sequenced.unpublished, tracks.sequenced.unretired⟩
  · exact tracks.threads_after (Tickets.ActsAs.take ready)
      ⟨getElem?_concat_length, tickets.last_busy, owner, value, claimed, .start⟩ fun _ _ _ _ => rfl
  · exact tracks.writers_kept (by simp [here])
  · intro other inside unretired
    rw [tickets.length_take] at inside
    rcases Nat.lt_or_ge other tickets.takes.length with earlier | this
    · refine tracks.readers_after earlier unretired fun _ _ holds => ?_
      rw [here] at holds
      cases holds
    · have same : other = tickets.takes.length := by omega
      exact ⟨thread, Finset.univ, snapshot, same ▸ update_self _ _ _⟩
  · refine { records with takes_eq := ?_, takes_order := ?_, pops_taken := ?_ }
    · rw [map_append, records.takes_eq]
      rfl
    · rw [map_append, records.takes_order, tickets.length_take, range_succ]
      rfl
    · intro entry member
      exact (Tickets.ActsAs.take ready).takes_getElem? (records.pops_taken entry member)

omit [DecidableEq Thread] in
private theorem setSequence_sequence (state : State Thread Word width) (pos sequence : Nat) :
    (fun slot => (state.setSequence capacity pos sequence slot).sequence) =
      update (fun slot => (state.cells slot).sequence) (capacity.slot pos) sequence :=
  comp_update Cell.sequence _ _ _

omit [DecidableEq Thread] in
private theorem setSequence_value (state : State Thread Word width) (pos sequence slot : Nat) :
    (state.setSequence capacity pos sequence slot).value = (state.cells slot).value := by
  rw [State.setSequence, update_apply]
  split
  case isTrue same => rw [same]; rfl
  case isFalse => rfl

section
variable (tracks : Tracks capacity state tickets)
include tracks

omit [DecidableEq Thread] in
private theorem setSequence_lt {sequence : Nat} (below : sequence < signedLimit) : ∀ other < signedLimit,
      (state.setSequence capacity pos sequence (capacity.slot other)).sequence < signedLimit := by
  intro other bound
  rw [State.setSequence, update_apply]
  split
  · exact below
  · exact tracks.sequence_lt other bound

theorem Tracks.publish (here : state.threads thread = .pushWrite value pos ∅) : ∃ claimed, Tracks capacity
      { state.returns thread (.pushed ⟨thread, pos, value⟩) with
        cells := state.setSequence capacity pos (succ64 pos) }
      (tickets.publish pos claimed) := by
  have records := tracks.records
  obtain ⟨found, fresh, written⟩ := tracks.knows here
  have claimed : pos < tickets.claims.length := (List.getElem?_eq_some_iff.mp found).1
  have bound := tracks.pos_lt (Nat.succ_le_of_lt claimed)
  have word : succ64 pos = pos + 1 := succ64_eq (bound.trans signedLimit_lt)
  refine ⟨claimed, { tracks with
    sequence_lt := ?_, sequenced := ?_, stored := ?_, threads := ?_, writers := ?_
    readers := ?_, records := ?_ }⟩
  · exact setSequence_lt tracks (word.trans_lt bound)
  · rw [setSequence_sequence, word]
    exact tracks.sequenced.publish claimed fresh
  · intro other owner record inside published unretired
    refine (setSequence_value state pos _ _).trans ?_
    rcases Finset.mem_insert.mp published with rfl | earlier
    · have same := Option.some.inj (found.symm.trans inside)
      rw [Prod.mk.injEq] at same
      exact written.finish.trans same.2
    · exact tracks.stored other owner record inside earlier unretired
  · exact tracks.threads_after (Tickets.ActsAs.publish found) trivial fun _ _ _ _ => setSequence_value state pos _ _
  · intro other inside unpublished
    refine tracks.writers_after inside
      (fun earlier => unpublished (Finset.mem_insert_of_mem earlier)) fun _ _ holds => ?_
    rw [here] at holds
    cases holds
    exact absurd (Finset.mem_insert_self _ _) unpublished
  · exact tracks.readers_kept (by simp [here])
  · change Records state.claims state.takes (state.returns thread _).pushes (state.returns thread _).pops _
    rw [returns_pushes, returns_pops]
    simp only [Outcome.pushed?, Outcome.popped?, Option.toList_some, Option.toList_none, append_nil]
    refine { records with published_iff := ?_, pushes_once := ?_, pushes_claimed := ?_ }
    · intro other
      rw [map_append, mem_append, ← records.published_iff other]
      change other ∈ insert pos tickets.published ↔ _ ∨ other ∈ [pos]
      rw [Finset.mem_insert, mem_singleton, or_comm]
    · simpa using records.pushes_once.concat (mt (records.published_iff pos).mpr fresh)
    · exact forall_mem_append.mpr ⟨records.pushes_claimed, forall_mem_singleton.mpr found⟩

theorem Tracks.retire {snapshot : Words Word width} (here : state.threads thread = .popRead pos ∅ snapshot)
    (bounded : pos + capacity.size < signedLimit) : ∃ taken, Tracks capacity
      { state.returns thread (.popped ⟨thread, pos, snapshot⟩) with
        cells := state.setSequence capacity pos ((pos + (capacity.size - 1) + 1) % wordSize) }
      (tickets.retire pos taken) := by
  have records := tracks.records
  obtain ⟨found, busy, owner, value, claimed, copied⟩ := tracks.knows here
  have taken : pos < tickets.takes.length := (List.getElem?_eq_some_iff.mp found).1
  have lap : (pos + (capacity.size - 1) + 1) % wordSize = pos + capacity.size := by
    have size := capacity.two_le
    have total : pos + (capacity.size - 1) + 1 = pos + capacity.size := by omega
    rw [total, Nat.mod_eq_of_lt (bounded.trans signedLimit_lt)]
  refine ⟨taken, { tracks with
    sequence_lt := ?_, sequenced := ?_, stored := ?_, threads := ?_, writers := ?_
    readers := ?_, records := ?_ }⟩
  · exact setSequence_lt tracks (lap.trans_lt bounded)
  · rw [setSequence_sequence, lap]
    exact tracks.sequenced.retire taken busy
  · intro other owner record inside published unretired
    exact (setSequence_value state pos _ _).trans (tracks.stored other owner record inside
      published fun earlier => unretired (Finset.mem_insert_of_mem earlier))
  · exact tracks.threads_after (Tickets.ActsAs.retire found) trivial fun _ _ _ _ => setSequence_value state pos _ _
  · exact tracks.writers_kept (by simp [here])
  · intro other inside unretired
    refine tracks.readers_after inside
      (fun earlier => unretired (Finset.mem_insert_of_mem earlier)) fun _ _ holds => ?_
    rw [here] at holds
    cases holds
    exact absurd (Finset.mem_insert_self _ _) unretired
  · change Records state.claims state.takes (state.returns thread _).pushes (state.returns thread _).pops _
    rw [returns_pushes, returns_pops]
    simp only [Outcome.pushed?, Outcome.popped?, Option.toList_some, Option.toList_none, append_nil]
    refine { records with
      retired_iff := ?_, pops_once := ?_, pops_taken := ?_, pops_value := ?_ }
    · intro other
      rw [map_append, mem_append, ← records.retired_iff other]
      change other ∈ insert pos tickets.retired ↔ _ ∨ other ∈ [pos]
      rw [Finset.mem_insert, mem_singleton, or_comm]
    · simpa using records.pops_once.concat (mt (records.retired_iff pos).mpr busy)
    · exact forall_mem_append.mpr ⟨records.pops_taken, forall_mem_singleton.mpr found⟩
    · exact forall_mem_append.mpr ⟨records.pops_value, forall_mem_singleton.mpr ⟨owner, copied.finish ▸ claimed⟩⟩

end

variable [Inhabited Word]

theorem Tracks.pushLoadSeq (tracks : Tracks capacity state tickets)
    (here : state.threads thread = .pushLoadSeq value pos)
    (ran : state.access capacity thread = some after) : Tracks capacity after tickets := by
  have valid := tracks.threads thread
  have loose : (state.threads thread).holding = false := by
    rw [here]
    rfl
  unfold State.access at ran
  simp only [here, Access.Valid] at ran valid
  rw [tracks.push_diff valid] at ran
  split at ran
  case isTrue zero =>
    cases ran
    refine tracks.move loose ⟨valid, fun last => ?_⟩
    subst last
    exact tracks.sequenced.free_of_eq (by change (state.cell capacity _).sequence = _; omega)
  case isFalse =>
    split at ran
    · cases ran
      exact tracks.refuse loose rfl rfl
    · cases ran
      exact tracks.move loose trivial

theorem Tracks.popLoadSeq (tracks : Tracks capacity state tickets) (here : state.threads thread = .popLoadSeq pos)
    (ran : state.access capacity thread = some after) : Tracks capacity after tickets := by
  have valid := tracks.threads thread
  have loose : (state.threads thread).holding = false := by
    rw [here]
    rfl
  unfold State.access at ran
  simp only [here, Access.Valid] at ran valid
  rw [tracks.pop_diff valid] at ran
  split at ran
  case isTrue zero =>
    cases ran
    refine tracks.move loose ⟨valid, fun last => ?_⟩
    subst last
    exact tracks.sequenced.published_of_eq (by change (state.cell capacity _).sequence = _; omega)
  case isFalse =>
    split at ran
    · cases ran
      exact tracks.refuse loose rfl rfl
    · cases ran
      exact tracks.move loose trivial

inductive Moves (thread : Thread) (tickets : RingTickets Thread Word width capacity) :
    RingTickets Thread Word width capacity → Prop where
  | stay : Moves thread tickets tickets
  | claim (value : Words Word width) (free : tickets.Free tickets.claims.length) :
      Moves thread tickets (tickets.claim thread value free)
  | publish (pos : Nat) (claimed : pos < tickets.claims.length) : Moves thread tickets (tickets.publish pos claimed)
  | take (ready : tickets.takes.length ∈ tickets.published) : Moves thread tickets (tickets.take thread ready)
  | retire (pos : Nat) (taken : pos < tickets.takes.length) : Moves thread tickets (tickets.retire pos taken)

theorem Tracks.access (tracks : Tracks capacity state tickets) (permitted : Bounded capacity state (.access thread))
    (ran : state.access capacity thread = some after) :
    ∃ future, Tracks capacity after future ∧ Moves thread tickets future := by
  cases here : state.threads thread with
  | idle =>
    unfold State.access at ran
    rw [here] at ran
    cases ran
  | pushLoadPos value =>
    unfold State.access at ran
    simp only [here] at ran
    cases ran
    exact ⟨tickets, tracks.move (by rw [here]; rfl) tracks.enqueuePos_eq.le, .stay⟩
  | pushLoadSeq => exact ⟨tickets, tracks.pushLoadSeq here ran, .stay⟩
  | pushExchange value pos =>
    have bound : pos + 1 < signedLimit := by
      simpa [Bounded, bounded, here] using permitted
    unfold State.access at ran
    simp only [here] at ran
    split at ran
    case isTrue won =>
      cases ran
      obtain ⟨free, claimed⟩ := tracks.claim here won bound
      exact ⟨_, claimed, .claim value free⟩
    case isFalse => exact ⟨tickets, tracks.exchangeFails ran, .stay⟩
  | pushWrite value pos todo =>
    unfold State.access at ran
    simp only [here] at ran
    split at ran
    case isTrue done =>
      cases ran
      subst done
      obtain ⟨claimed, published⟩ := tracks.publish here
      exact ⟨_, published, .publish pos claimed⟩
    case isFalse => cases ran
  | popLoadPos =>
    unfold State.access at ran
    simp only [here] at ran
    cases ran
    exact ⟨tickets, tracks.move (by rw [here]; rfl) tracks.dequeuePos_eq.le, .stay⟩
  | popLoadSeq => exact ⟨tickets, tracks.popLoadSeq here ran, .stay⟩
  | popExchange pos =>
    unfold State.access at ran
    simp only [here] at ran
    split at ran
    case isTrue won =>
      cases ran
      obtain ⟨ready, taken⟩ := tracks.take here won default
      exact ⟨_, taken, .take ready⟩
    case isFalse => exact ⟨tickets, tracks.exchangeFails ran, .stay⟩
  | popRead pos todo snapshot =>
    have bound : pos + capacity.size < signedLimit := by
      simpa [Bounded, bounded, here] using permitted
    unfold State.access at ran
    simp only [here] at ran
    split at ran
    case isTrue done =>
      cases ran
      subst done
      obtain ⟨taken, retired⟩ := tracks.retire here bound
      exact ⟨_, retired, .retire pos taken⟩
    case isFalse => cases ran

theorem Tracks.step (tracks : Tracks capacity state tickets) {action : Action Thread Word width}
    (permitted : Bounded capacity state action) (ran : step capacity state action = some after) :
    ∃ future, Tracks capacity after future ∧ Moves action.thread tickets future := by
  cases action with
  | tryPush thread value | tryPop thread =>
    refine ⟨tickets, tracks.begin ?_ ran, .stay⟩
    trivial
  | access thread => exact tracks.access permitted ran
  | word thread word => exact ⟨tickets, tracks.copyWord ran, .stay⟩
  | spurious thread => exact ⟨tickets, tracks.exchangeFails ran, .stay⟩

theorem exists_tracks {values : Nat → Words Word width}
    (path : Reaches (Mpmc.step capacity) (Bounded capacity) (initial values : State Thread Word width) state) :
    ∃ tickets, Tracks capacity state tickets := by
  apply path.invariant ⟨Tickets.empty, Tracks.initial values⟩
  rintro state action after ⟨tickets, tracks⟩ permitted ran
  obtain ⟨future, follows, -⟩ := tracks.step permitted ran
  exact ⟨future, follows⟩

end AnimusCore.Mpmc
