import AnimusCore.Lib.Tickets
import AnimusCore.Mpmc.Ring

/-! The ring as a queue of tickets: the shared words and cells, the threads and the
record of the run all agree with the tickets claimed, published, taken and retired. -/

set_option autoImplicit false

namespace AnimusCore.Mpmc

open Lib Lib.Ring Function

abbrev RingTickets (Thread Word : Type) (width : Nat) (capacity : Capacity) :=
  Tickets Thread (Words Word width) capacity

section

variable {Thread Word : Type} {width : Nat}

def Access.Valid {capacity : Capacity} (cells : Nat → Cell Word width)
    (tickets : RingTickets Thread Word width capacity) (thread : Thread) : Access Word width → Prop
  | .idle | .pushLoadPos _ | .popLoadPos => True
  | .pushLoadSeq _ pos => pos ≤ tickets.claims.length
  | .pushExchange _ pos => pos ≤ tickets.claims.length ∧ (pos = tickets.claims.length → tickets.Free pos)
  | .pushWrite value pos todo => tickets.claims[pos]? = some (thread, value) ∧
      pos ∉ tickets.published ∧ Copied todo (cells (capacity.slot pos)).value value
  | .popLoadSeq pos => pos ≤ tickets.takes.length
  | .popExchange pos => pos ≤ tickets.takes.length ∧ (pos = tickets.takes.length → pos ∈ tickets.published)
  | .popRead pos todo snapshot => tickets.takes[pos]? = some thread ∧ pos ∉ tickets.retired ∧
      ∃ owner value, tickets.claims[pos]? = some (owner, value) ∧ Copied todo snapshot value

def Access.holding : Access Word width → Bool
  | .pushWrite _ _ _ | .popRead _ _ _ => true
  | _ => false

structure Records {capacity : Capacity} (claims : List (Entry Thread Word width))
    (takes : List (Thread × Nat)) (pushes pops : List (Entry Thread Word width))
    (tickets : RingTickets Thread Word width capacity) : Prop where
  claims_eq : claims.map (fun entry => (entry.thread, entry.value)) = tickets.claims
  claims_order : claims.map Entry.position = List.range tickets.claims.length
  takes_eq : takes.map Prod.fst = tickets.takes
  takes_order : takes.map Prod.snd = List.range tickets.takes.length
  published_iff : ∀ pos, pos ∈ tickets.published ↔ pos ∈ pushes.map Entry.position
  pushes_once : (pushes.map Entry.position).Nodup
  pushes_claimed : ∀ entry ∈ pushes, tickets.claims[entry.position]? = some (entry.thread, entry.value)
  retired_iff : ∀ pos, pos ∈ tickets.retired ↔ pos ∈ pops.map Entry.position
  pops_once : (pops.map Entry.position).Nodup
  pops_taken : ∀ entry ∈ pops, tickets.takes[entry.position]? = some entry.thread
  pops_value : ∀ entry ∈ pops, ∃ owner, tickets.claims[entry.position]? = some (owner, entry.value)

structure Tracks (capacity : Capacity) (state : State Thread Word width)
    (tickets : RingTickets Thread Word width capacity) : Prop where
  enqueuePos_eq : state.enqueuePos = tickets.claims.length
  dequeuePos_eq : state.dequeuePos = tickets.takes.length
  enqueuePos_lt : state.enqueuePos < signedLimit
  sequence_lt : ∀ pos < signedLimit, (state.cell capacity pos).sequence < signedLimit
  sequenced : tickets.Sequenced fun slot => (state.cells slot).sequence
  stored : ∀ pos owner value, tickets.claims[pos]? = some (owner, value) →
    pos ∈ tickets.published → pos ∉ tickets.retired → (state.cell capacity pos).value = value
  threads : ∀ thread, (state.threads thread).Valid state.cells tickets thread
  writers : ∀ pos < tickets.claims.length, pos ∉ tickets.published →
    ∃ owner value todo, state.threads owner = .pushWrite value pos todo
  readers : ∀ pos < tickets.takes.length, pos ∉ tickets.retired →
    ∃ owner todo snapshot, state.threads owner = .popRead pos todo snapshot
  records : Records state.claims state.takes state.pushes state.pops tickets

end

variable {Thread Word : Type} {width : Nat} {capacity : Capacity} {state after : State Thread Word width}
  {tickets future : RingTickets Thread Word width capacity} {thread actor : Thread}

theorem Tracks.initial (values : Nat → Words Word width) :
    Tracks capacity (initial values : State Thread Word width) Tickets.empty where
  enqueuePos_eq := rfl
  dequeuePos_eq := rfl
  enqueuePos_lt := Nat.two_pow_pos 63
  sequence_lt pos bound := by
    change capacity.slot pos < signedLimit
    rw [capacity.slot_eq_mod]
    exact (Nat.mod_le _ _).trans_lt bound
  sequenced := Tickets.Sequenced.empty
  stored := nofun
  threads thread := trivial
  writers pos inside := absurd inside (Nat.not_lt_zero _)
  readers pos inside := absurd inside (Nat.not_lt_zero _)
  records := by
    constructor <;>
      simp [Mpmc.initial, Tickets.empty, State.pushes, State.pops]

theorem Access.Valid.frame {access : Access Word width} {cells changed : Nat → Cell Word width}
    (valid : access.Valid cells tickets thread) (acts : Tickets.ActsAs actor tickets future) (other : thread ≠ actor)
    (kept : ∀ pos value, tickets.claims[pos]? = some (thread, value) → pos ∉ tickets.published →
      (changed (capacity.slot pos)).value = (cells (capacity.slot pos)).value) :
    access.Valid changed future thread := by
  have claims := acts.claims.length_le
  have takes := acts.takes.length_le
  cases access with
  | idle | pushLoadPos | popLoadPos => trivial
  | pushLoadSeq value pos => exact valid.trans claims
  | pushExchange value pos =>
    obtain ⟨bound, free⟩ := valid
    exact ⟨bound.trans claims, fun last => acts.free (free (by omega))⟩
  | pushWrite value pos todo =>
    obtain ⟨claimed, fresh, copied⟩ := valid
    refine ⟨acts.claims_getElem? claimed, acts.fresh other claimed fresh, ?_⟩
    rw [kept pos value claimed fresh]
    exact copied
  | popLoadSeq pos => exact valid.trans takes
  | popExchange pos =>
    obtain ⟨bound, ready⟩ := valid
    exact ⟨bound.trans takes, fun last => acts.published (ready (by omega))⟩
  | popRead pos todo snapshot =>
    obtain ⟨taken, busy, owner, value, claimed, copied⟩ := valid
    exact ⟨acts.takes_getElem? taken, acts.busy other taken busy, owner, value,
      acts.claims_getElem? claimed, copied⟩

theorem Tracks.knows {access : Access Word width} (tracks : Tracks capacity state tickets)
    (here : state.threads thread = access) : access.Valid state.cells tickets thread :=
  here ▸ tracks.threads thread

variable [DecidableEq Thread]

variable {next : Access Word width}

variable (tracks : Tracks capacity state tickets)
include tracks

/-- After a step of one thread: what that thread knows now, and the frame. -/
theorem Tracks.threads_after (acts : Tickets.ActsAs thread tickets future)
    {cells : Nat → Cell Word width} (valid : next.Valid cells future thread)
    (kept : ∀ pos, tickets.Current pos → pos ∉ tickets.published →
      (∀ value, tickets.claims[pos]? ≠ some (thread, value)) →
      (cells (capacity.slot pos)).value = (state.cells (capacity.slot pos)).value) :
    ∀ other, (update state.threads thread next other).Valid cells future other := by
  intro other
  by_cases same : other = thread
  · rw [same, update_self]
    exact valid
  · rw [update_of_ne same]
    refine (tracks.threads other).frame acts same fun pos value claimed fresh => ?_
    refine kept pos (tickets.current_of_fresh (List.getElem?_eq_some_iff.mp claimed).1 fresh) fresh ?_
    rw [claimed]
    rintro value' ⟨⟩
    exact same rfl

theorem Tracks.writers_after {pos : Nat} (claimed : pos < tickets.claims.length) (fresh : pos ∉ tickets.published)
    (keeps : ∀ value todo, state.threads thread = .pushWrite value pos todo →
      ∃ value todo, next = .pushWrite value pos todo) :
    ∃ owner value todo, update state.threads thread next owner = .pushWrite value pos todo := by
  obtain ⟨owner, value, todo, holds⟩ := tracks.writers pos claimed fresh
  by_cases same : owner = thread
  · obtain ⟨value, todo, still⟩ := keeps value todo (same ▸ holds)
    exact ⟨thread, value, todo, (update_self _ _ _).trans still⟩
  · exact ⟨owner, value, todo, (update_of_ne same _ _).trans holds⟩

theorem Tracks.readers_after {pos : Nat} (taken : pos < tickets.takes.length) (busy : pos ∉ tickets.retired)
    (keeps : ∀ todo snapshot, state.threads thread = .popRead pos todo snapshot →
      ∃ todo snapshot, next = .popRead pos todo snapshot) :
    ∃ owner todo snapshot, update state.threads thread next owner = .popRead pos todo snapshot := by
  obtain ⟨owner, todo, snapshot, holds⟩ := tracks.readers pos taken busy
  by_cases same : owner = thread
  · obtain ⟨todo, snapshot, still⟩ := keeps todo snapshot (same ▸ holds)
    exact ⟨thread, todo, snapshot, (update_self _ _ _).trans still⟩
  · exact ⟨owner, todo, snapshot, (update_of_ne same _ _).trans holds⟩

theorem Tracks.writers_kept (loose : ∀ value pos todo, state.threads thread ≠ .pushWrite value pos todo) :
    ∀ pos < tickets.claims.length, pos ∉ tickets.published → ∃ owner value todo,
      update state.threads thread next owner = .pushWrite value pos todo :=
  fun pos claimed fresh => tracks.writers_after claimed fresh
    fun value todo holds => absurd holds (loose value pos todo)

theorem Tracks.readers_kept (loose : ∀ pos todo snapshot, state.threads thread ≠ .popRead pos todo snapshot) :
    ∀ pos < tickets.takes.length, pos ∉ tickets.retired → ∃ owner todo snapshot,
      update state.threads thread next owner = .popRead pos todo snapshot :=
  fun pos taken busy => tracks.readers_after taken busy
    fun todo snapshot holds => absurd holds (loose pos todo snapshot)

end AnimusCore.Mpmc
