import AnimusCore.Lib.Tickets
import AnimusCore.RingBuffer.Ring

/-! Any number of threads on a ring of at least two cells, with positions that do not
wrap: the ring is a queue of tickets. -/

set_option autoImplicit false

namespace AnimusCore.RingBuffer

open Lib Lib.Ring

section

variable {Thread T : Type}

def Access.Valid {capacity : Capacity} (cells : Nat → Cell T)
    (tickets : Tickets Thread T capacity) (thread : Thread) : Access T → Prop
  | .idle | .returned _ | .pushLoadPos _ | .popLoadPos => True
  | .pushLoadSeq _ pos => pos ≤ tickets.claims.length
  | .pushExchange _ pos => pos ≤ tickets.claims.length ∧ (pos = tickets.claims.length → tickets.Free pos)
  | .pushWrite value pos => tickets.claims[pos]? = some (thread, value) ∧ pos ∉ tickets.published
  | .pushPublish value pos => tickets.claims[pos]? = some (thread, value) ∧
      pos ∉ tickets.published ∧ (cells (capacity.slot pos)).data = value
  | .popLoadSeq pos => pos ≤ tickets.takes.length
  | .popExchange pos => pos ≤ tickets.takes.length ∧ (pos = tickets.takes.length → pos ∈ tickets.published)
  | .popRead pos => tickets.takes[pos]? = some thread ∧ pos ∉ tickets.retired
  | .popRetire pos out => tickets.takes[pos]? = some thread ∧ pos ∉ tickets.retired ∧
      ∃ owner, tickets.claims[pos]? = some (owner, out)

structure Tracks (capacity : Capacity) (state : State Thread T) (tickets : Tickets Thread T capacity) : Prop where
  claims_eq : state.claims = tickets.claims
  takes_eq : state.takes = tickets.takes
  published_iff : ∀ pos, pos ∈ state.published ↔ pos ∈ tickets.published
  retired_iff : ∀ pos, pos ∈ state.retired.map (fun entry => entry.2.1) ↔ pos ∈ tickets.retired
  enqueuePos_eq : state.enqueuePos = tickets.claims.length
  dequeuePos_eq : state.dequeuePos = tickets.takes.length
  sequenced : tickets.Sequenced fun slot => (state.cells slot).sequence
  stored : ∀ pos owner value, tickets.claims[pos]? = some (owner, value) →
    pos ∈ tickets.published → pos ∉ tickets.retired →
    (state.cells (capacity.slot pos)).data = value
  threads : ∀ thread, (state.threads thread).Valid state.cells tickets thread

end

variable {Thread T : Type} {capacity : Capacity} {state after : State Thread T}
  {tickets future : Tickets Thread T capacity} {thread actor : Thread} {value : T} {pos : Nat}

theorem Tracks.initial (data : Nat → T) : Tracks capacity (initial data : State Thread T) Tickets.empty where
  claims_eq := rfl
  takes_eq := rfl
  published_iff _ := by simp [RingBuffer.initial, Tickets.empty]
  retired_iff _ := by simp [RingBuffer.initial, Tickets.empty]
  enqueuePos_eq := rfl
  dequeuePos_eq := rfl
  sequenced := Tickets.Sequenced.empty
  stored := nofun
  threads _ := trivial

theorem Access.Valid.frame {access : Access T} {cells changed : Nat → Cell T}
    (valid : access.Valid cells tickets thread) (acts : Tickets.ActsAs actor tickets future) (other : thread ≠ actor)
    (kept : ∀ pos value, tickets.claims[pos]? = some (thread, value) → pos ∉ tickets.published →
      (changed (capacity.slot pos)).data = (cells (capacity.slot pos)).data) :
    access.Valid changed future thread := by
  have claims := acts.claims.length_le
  have takes := acts.takes.length_le
  cases access with
  | idle | returned | pushLoadPos | popLoadPos => trivial
  | pushLoadSeq value pos => exact valid.trans claims
  | pushExchange value pos =>
    obtain ⟨bound, free⟩ := valid
    exact ⟨bound.trans claims, fun last => acts.free (free (by omega))⟩
  | pushWrite value pos =>
    obtain ⟨claimed, unpublished⟩ := valid
    exact ⟨acts.claims_getElem? claimed, acts.fresh other claimed unpublished⟩
  | pushPublish value pos =>
    obtain ⟨claimed, unpublished, written⟩ := valid
    refine ⟨acts.claims_getElem? claimed, acts.fresh other claimed unpublished, ?_⟩
    rw [kept pos value claimed unpublished]
    exact written
  | popLoadSeq pos => exact valid.trans takes
  | popExchange pos =>
    obtain ⟨bound, ready⟩ := valid
    exact ⟨bound.trans takes, fun last => acts.published (ready (by omega))⟩
  | popRead pos =>
    obtain ⟨taken, unretired⟩ := valid
    exact ⟨acts.takes_getElem? taken, acts.busy other taken unretired⟩
  | popRetire pos out =>
    obtain ⟨taken, unretired, owner, claimed⟩ := valid
    exact ⟨acts.takes_getElem? taken, acts.busy other taken unretired, owner, acts.claims_getElem? claimed⟩

theorem Tracks.knows {access : Access T} (tracks : Tracks capacity state tickets)
    (here : state.threads thread = access) : access.Valid state.cells tickets thread :=
  here ▸ tracks.threads thread

variable [DecidableEq Thread]

/-- After a step of one thread: what that thread knows now, and the frame. -/
theorem Tracks.threads_after (tracks : Tracks capacity state tickets)
    (acts : Tickets.ActsAs thread tickets future) {cells : Nat → Cell T} {next : Access T}
    (valid : next.Valid cells future thread) (kept : ∀ pos, tickets.Current pos → pos ∉ tickets.published →
      (∀ value, tickets.claims[pos]? ≠ some (thread, value)) →
      (cells (capacity.slot pos)).data = (state.cells (capacity.slot pos)).data) :
    ∀ other, (Function.update state.threads thread next other).Valid cells future other := by
  intro other
  by_cases same : other = thread
  · rw [same, Function.update_self]
    exact valid
  · rw [Function.update_of_ne same]
    refine (tracks.threads other).frame acts same fun pos value claimed fresh => ?_
    refine kept pos (tickets.current_of_fresh (List.getElem?_eq_some_iff.mp claimed).1 fresh) fresh ?_
    rw [claimed]
    rintro value' ⟨⟩
    exact same rfl

section
variable (tracks : Tracks capacity state tickets)
include tracks

theorem Tracks.move {next : Access T} (valid : next.Valid state.cells tickets thread) :
    Tracks capacity (state.goTo thread next) tickets where
  __ := tracks
  threads := tracks.threads_after Tickets.ActsAs.refl valid fun _ _ _ _ => rfl

theorem Tracks.returns (outcome : Outcome T) : Tracks capacity (state.returns thread outcome) tickets := by
  have moved : Tracks capacity (state.goTo thread (.returned outcome)) tickets := tracks.move trivial
  exact { moved with }

theorem Tracks.begin {first : Access T} (ran : state.begin thread first = some after)
    (valid : first.Valid state.cells tickets thread) : Tracks capacity after tickets := by
  unfold State.begin at ran
  split at ran <;> cases ran
  exact tracks.move valid

theorem Tracks.exchangeFails (ran : state.exchangeFails thread = some after) : Tracks capacity after tickets := by
  unfold State.exchangeFails at ran
  split at ran <;> cases ran
  · exact tracks.move tracks.enqueuePos_eq.le
  · exact tracks.move tracks.dequeuePos_eq.le

end

theorem Tracks.claim (tracks : Tracks capacity state tickets)
    (here : state.threads thread = .pushExchange value pos) (won : state.enqueuePos = pos) : ∃ free, Tracks capacity
      { state.goTo thread (.pushWrite value pos) with
        enqueuePos := pos + 1
        claims := state.claims ++ [(thread, value)] }
      (tickets.claim thread value free) := by
  obtain ⟨-, whenLast⟩ := tracks.knows here
  obtain rfl : pos = tickets.claims.length := won.symm.trans tracks.enqueuePos_eq
  have free := whenLast rfl
  refine ⟨free, { tracks with
    claims_eq := ?_, enqueuePos_eq := ?_, sequenced := ?_, stored := ?_, threads := ?_ }⟩
  · exact congrArg (· ++ [(thread, value)]) tracks.claims_eq
  · exact (tickets.length_claim free).symm
  · exact ⟨tracks.sequenced.unpublished, tracks.sequenced.unretired⟩
  · intro other owner record found published unretired
    have inside := tickets.published_lt other published
    change (tickets.claims ++ [(thread, value)])[other]? = some (owner, record) at found
    rw [List.getElem?_append_left inside] at found
    exact tracks.stored other owner record found published unretired
  · exact tracks.threads_after (.claim free) ⟨List.getElem?_concat_length, tickets.last_fresh⟩ fun _ _ _ _ => rfl

theorem Tracks.take (tracks : Tracks capacity state tickets)
    (here : state.threads thread = .popExchange pos) (won : state.dequeuePos = pos) : ∃ ready, Tracks capacity
      { state.goTo thread (.popRead pos) with
        dequeuePos := pos + 1
        takes := state.takes ++ [thread] }
      (tickets.take thread ready) := by
  obtain ⟨-, whenLast⟩ := tracks.knows here
  obtain rfl : pos = tickets.takes.length := won.symm.trans tracks.dequeuePos_eq
  have ready := whenLast rfl
  refine ⟨ready, { tracks with
    takes_eq := ?_, dequeuePos_eq := ?_, sequenced := ?_, threads := ?_ }⟩
  · exact congrArg (· ++ [thread]) tracks.takes_eq
  · exact (tickets.length_take ready).symm
  · exact ⟨tracks.sequenced.unpublished, tracks.sequenced.unretired⟩
  · exact tracks.threads_after (.take ready) ⟨List.getElem?_concat_length, tickets.last_busy⟩ fun _ _ _ _ => rfl

end AnimusCore.RingBuffer
