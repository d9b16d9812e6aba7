import AnimusCore.Mpmc.Solo

/-! `ShmRingMpmc` as a lossless bounded queue. Every position is claimed once by
either side, in order; what a position was pushed with is what it is popped with; and
seen from its exchanges the ring is a bounded FIFO, exactly one when calls do not
overlap. -/

set_option autoImplicit false

namespace AnimusCore.Mpmc

open Lib Lib.Ring List

section

variable {Thread Word : Type} {width : Nat}

/-- The cell whose payload a thread reads or writes, from its claim to the hand-over. -/
def Access.copies (capacity : Capacity) : Access Word width → Option Nat
  | .pushWrite _ pos _ | .popRead pos _ _ => some (capacity.slot pos)
  | _ => none

/-- Positions are claimed in order and once, pops return what was pushed, and no two
threads use a cell's payload at once. -/
structure Lossless (capacity : Capacity) (state : State Thread Word width) : Prop where
  claims_order : state.claims.map Entry.position = List.range state.enqueuePos
  takes_order : state.takes.map Prod.snd = List.range state.dequeuePos
  pushes_once : (state.pushes.map Entry.position).Nodup
  pops_once : (state.pops.map Entry.position).Nodup
  push_claimed : ∀ entry ∈ state.pushes, state.claims[entry.position]? = some entry
  pop_taken : ∀ entry ∈ state.pops, state.takes[entry.position]? = some (entry.thread, entry.position)
  pop_value : ∀ entry ∈ state.pops, ∃ pushed ∈ state.pushes,
    pushed.position = entry.position ∧ pushed.value = entry.value
  take_published : ∀ take ∈ state.takes, take.2 ∈ state.pushes.map Entry.position
  exclusive : ∀ left right cell, (state.threads left).copies capacity = some cell →
    (state.threads right).copies capacity = some cell → left = right

variable [DecidableEq Thread] [Inhabited Word]

/-- A call that returns false does so at the load of the sequence word of the next
position; a push found the record a lap before it not retired, a pop found the next
position not published. -/
def RefusedWhenBlocked (capacity : Capacity) (state : State Thread Word width) : Prop :=
  ∀ thread after, step capacity state (.access thread) = some after → (after.log = state.log ++ [.full thread] →
      (∃ value, state.threads thread = .pushLoadSeq value state.enqueuePos) ∧
      ∃ earlier, earlier + capacity.size = state.enqueuePos ∧ earlier ∉ state.pops.map Entry.position) ∧
    (after.log = state.log ++ [.empty thread] → state.threads thread = .popLoadSeq state.dequeuePos ∧
      state.dequeuePos ∉ state.pushes.map Entry.position)

/-- The records of the claimed positions, of which the first ones are taken. -/
def Represents {capacity : Capacity} (state : State Thread Word width)
    (queue : Fifo (Words Word width) capacity.size) : Prop :=
  queue.pushed = state.claims.map Entry.value ∧ queue.taken = state.takes.length

def FollowsFifo (capacity : Capacity) (state : State Thread Word width)
    (queue : Fifo (Words Word width) capacity.size) : Prop :=
  ∀ action after, Bounded capacity state action → step capacity state action = some after →
    ∃ next : Fifo (Words Word width) capacity.size, Represents after next ∧ queue.Step next

/-- A `try_push` that overlaps no other call is a push of the bounded queue, and it
comes to its end. -/
def PushesAlone (capacity : Capacity) (state : State Thread Word width)
    (queue : Fifo (Words Word width) capacity.size) : Prop :=
  ∀ thread value, ∃ begun, step capacity state (.tryPush thread value) = some begun ∧
    (∀ finish, Reaches (step capacity) (Alone capacity thread) begun finish →
      finish.threads thread = .idle → finish.Quiet ∧
      match queue.push value with
      | some next => Represents finish next ∧ finish.log = state.log ++ [.pushed ⟨thread, state.enqueuePos, value⟩]
      | none => Represents finish queue ∧ finish.log = state.log ++ [.full thread]) ∧
    (state.enqueuePos + 1 < signedLimit → ∃ finish,
      Reaches (step capacity) (Alone capacity thread) begun finish ∧ finish.threads thread = .idle)

/-- A `try_pop` that overlaps no other call is a pop of the bounded queue, and it
comes to its end. -/
def PopsAlone (capacity : Capacity) (state : State Thread Word width)
    (queue : Fifo (Words Word width) capacity.size) : Prop :=
  ∀ thread, ∃ begun, step capacity state (.tryPop thread) = some begun ∧
    (∀ finish, Reaches (step capacity) (Alone capacity thread) begun finish →
      finish.threads thread = .idle → finish.Quiet ∧
      match queue.pop with
      | some (value, next) => Represents finish next ∧
          finish.log = state.log ++ [.popped ⟨thread, state.dequeuePos, value⟩]
      | none => Represents finish queue ∧ finish.log = state.log ++ [.empty thread]) ∧
    (state.dequeuePos + capacity.size < signedLimit → ∃ finish,
      Reaches (step capacity) (Alone capacity thread) begun finish ∧ finish.threads thread = .idle)

end

variable {Thread Word : Type} {width : Nat} {capacity : Capacity} {state after : State Thread Word width}
  {tickets : RingTickets Thread Word width capacity} {thread : Thread}
  {value : Words Word width} {values : Nat → Words Word width} {pos : Nat}

section
variable {claims pushes pops : List (Entry Thread Word width)} {takes : List (Thread × Nat)}
  (records : Records claims takes pushes pops tickets)
include records

theorem Records.claim_entry (found : tickets.claims[pos]? = some (thread, value)) :
    claims[pos]? = some ⟨thread, pos, value⟩ := by
  have inside := (List.getElem?_eq_some_iff.mp found).1
  have order : (claims.map Entry.position)[pos]? = some pos := by
    rw [records.claims_order, List.getElem?_range inside]
  rw [← records.claims_eq, List.getElem?_map, Option.map_eq_some_iff] at found
  obtain ⟨entry, here, fields⟩ := found
  rw [List.getElem?_map, here, Option.map_some, Option.some.injEq] at order
  rw [Prod.mk.injEq] at fields
  rw [here, ← fields.1, ← fields.2, ← order]

theorem Records.take_entry (found : tickets.takes[pos]? = some thread) : takes[pos]? = some (thread, pos) := by
  have inside := (List.getElem?_eq_some_iff.mp found).1
  have order : (takes.map Prod.snd)[pos]? = some pos := by
    rw [records.takes_order, List.getElem?_range inside]
  rw [← records.takes_eq, List.getElem?_map, Option.map_eq_some_iff] at found
  obtain ⟨entry, here, owner⟩ := found
  rw [List.getElem?_map, here, Option.map_some, Option.some.injEq] at order
  rw [here, ← owner, ← order]

end

section
variable (tracks : Tracks capacity state tickets)
include tracks

theorem Tracks.copies_current {cell : Nat} (copies : (state.threads thread).copies capacity = some cell) :
    ∃ pos, capacity.slot pos = cell ∧ tickets.Current pos ∧
      ((∃ value, tickets.claims[pos]? = some (thread, value)) ∧ pos ∉ tickets.published ∨
        tickets.takes[pos]? = some thread) := by
  have valid := tracks.threads thread
  cases here : state.threads thread with
  | pushWrite value pos todo =>
    rw [here] at copies valid
    exact ⟨pos, Option.some.inj copies, tracks.writing_current here, .inl ⟨⟨value, valid.1⟩, valid.2.1⟩⟩
  | popRead pos todo snapshot =>
    rw [here] at copies valid
    obtain ⟨taken, busy, -⟩ := valid
    have claimed := tickets.taken_published pos (List.getElem?_eq_some_iff.mp taken).1
    exact ⟨pos, Option.some.inj copies,
      ⟨tickets.free_of_claimed (tickets.published_lt pos claimed), busy⟩, .inr taken⟩
  | _ =>
    rw [here] at copies
    cases copies

theorem Tracks.exclusive {left right : Thread} {cell : Nat}
    (leftCopies : (state.threads left).copies capacity = some cell)
    (rightCopies : (state.threads right).copies capacity = some cell) : left = right := by
  obtain ⟨pos, slot, current, owned⟩ := tracks.copies_current leftCopies
  obtain ⟨other, otherSlot, otherCurrent, otherOwned⟩ := tracks.copies_current rightCopies
  have same : pos = other := current.unique otherCurrent (slot.trans otherSlot.symm)
  subst same
  have published : ∀ {thread}, tickets.takes[pos]? = some thread → pos ∈ tickets.published :=
    fun taken => tickets.taken_published pos (List.getElem?_eq_some_iff.mp taken).1
  rcases owned with ⟨⟨value, claimed⟩, fresh⟩ | taken
  · rcases otherOwned with ⟨⟨value', claimed'⟩, -⟩ | taken'
    · rw [claimed, Option.some.injEq, Prod.mk.injEq] at claimed'
      exact claimed'.1
    · exact absurd (published taken') fresh
  · rcases otherOwned with ⟨-, fresh⟩ | taken'
    · exact absurd (published taken) fresh
    · exact Option.some.inj (taken.symm.trans taken')

theorem Tracks.lossless : Lossless capacity state := by
  have records := tracks.records
  refine {
    claims_order := tracks.enqueuePos_eq ▸ records.claims_order
    takes_order := tracks.dequeuePos_eq ▸ records.takes_order
    pushes_once := records.pushes_once
    pops_once := records.pops_once
    push_claimed := fun entry member => records.claim_entry (records.pushes_claimed entry member)
    pop_taken := fun entry member => records.take_entry (records.pops_taken entry member)
    pop_value := ?_, take_published := ?_
    exclusive := fun _ _ _ => tracks.exclusive }
  · intro entry member
    have retired := (records.retired_iff _).mpr (mem_map_of_mem member)
    have published := (records.published_iff _).mp (tickets.retired_published retired)
    obtain ⟨pushed, inside, same⟩ := mem_map.mp published
    obtain ⟨owner, claimed⟩ := records.pops_value entry member
    rw [← same, records.pushes_claimed pushed inside, Option.some.injEq, Prod.mk.injEq] at claimed
    exact ⟨pushed, inside, same, claimed.2⟩
  · intro take member
    have ordered : take.2 ∈ List.range tickets.takes.length := records.takes_order ▸ mem_map_of_mem member
    exact (records.published_iff _).mp (tickets.taken_published _ (mem_range.mp ordered))

end

variable [DecidableEq Thread]

private theorem access_full [Inhabited Word] (ran : state.access capacity thread = some after)
    (full : after.log = state.log ++ [.full thread]) : ∃ value pos, state.threads thread = .pushLoadSeq value pos ∧
      State.diff (state.cell capacity pos).sequence pos < 0 := by
  unfold State.access State.exchangeFails at ran
  cases here : state.threads thread <;> simp only [here] at ran <;>
    (repeat' split at ran) <;> cases ran <;>
    simp [State.goTo, State.returns] at full
  exact ⟨_, _, rfl, by assumption⟩

theorem access_empty [Inhabited Word] (ran : state.access capacity thread = some after)
    (empty : after.log = state.log ++ [.empty thread]) : ∃ pos, state.threads thread = .popLoadSeq pos ∧
      State.diff (state.cell capacity pos).sequence (succ64 pos) < 0 := by
  unfold State.access State.exchangeFails at ran
  cases here : state.threads thread <;> simp only [here] at ran <;>
    (repeat' split at ran) <;> cases ran <;>
    simp [State.goTo, State.returns] at empty
  exact ⟨_, rfl, by assumption⟩

section
variable (tracks : Tracks capacity state tickets)
include tracks

theorem Tracks.refusedWhenBlocked [Inhabited Word] : RefusedWhenBlocked capacity state := by
  intro thread after ran
  have valid := tracks.threads thread
  constructor
  · intro full
    obtain ⟨value, pos, here, negative⟩ := access_full ran full
    rw [here, Access.Valid] at valid
    rw [tracks.push_diff valid] at negative
    have behind : (state.cell capacity pos).sequence < pos := by omega
    obtain ⟨last, busy⟩ := tracks.sequenced.full_of_lt valid behind
    obtain ⟨earlier, lap, current⟩ := tickets.exists_lap_of_not_free busy valid
    have next : pos = state.enqueuePos := last.trans tracks.enqueuePos_eq.symm
    refine ⟨⟨value, next ▸ here⟩, earlier, lap.trans next, fun popped => ?_⟩
    exact current.2 ((tracks.records.retired_iff earlier).mpr popped)
  · intro empty
    obtain ⟨pos, here, negative⟩ := access_empty ran empty
    rw [here, Access.Valid] at valid
    rw [tracks.pop_diff valid] at negative
    have behind : (state.cell capacity pos).sequence ≤ pos := by omega
    obtain ⟨last, unpublished⟩ := tracks.sequenced.unpublished_of_le valid behind
    have next : pos = state.dequeuePos := last.trans tracks.dequeuePos_eq.symm
    rw [tracks.records.published_iff, next] at unpublished
    exact ⟨next ▸ here, unpublished⟩

omit [DecidableEq Thread] in
theorem Tracks.represents : Represents state tickets.queue := by
  constructor
  · change tickets.claims.map Prod.snd = _
    rw [← tracks.records.claims_eq, map_map]
    rfl
  · change tickets.takes.length = _
    rw [← tracks.records.takes_eq, length_map]

theorem Tracks.followsFifo [Inhabited Word] : FollowsFifo capacity state tickets.queue := by
  intro action after permitted ran
  obtain ⟨future, follows, moves⟩ := tracks.step permitted ran
  refine ⟨future.queue, follows.represents, ?_⟩
  cases moves with
  | stay => exact .idle _
  | claim value free => exact Fifo.step_push (map_append ..) rfl
  | publish pos claimed | retire pos taken => exact Fifo.step_idle rfl rfl
  | take ready => exact Fifo.step_pop rfl (length_append ..)

end

variable [Inhabited Word]

theorem Tracks.alone (tracks : Tracks capacity state tickets)
    (path : Reaches (Mpmc.step capacity) (Alone capacity thread) state after) :
    ∃ tickets : RingTickets Thread Word width capacity, Tracks capacity after tickets := by
  apply path.invariant ⟨tickets, tracks⟩
  rintro state action next ⟨tickets, tracks⟩ alone ran
  obtain ⟨future, follows, -⟩ := tracks.step alone.1 ran
  exact ⟨future, follows⟩

omit [Inhabited Word] in
theorem State.Quiet.returned (quiet : state.Quiet) (thread other : Thread) :
    Function.update state.threads thread .idle other = .idle := by
  by_cases same : other = thread
  · rw [same, Function.update_self]
  · rw [Function.update_of_ne same, quiet other]

omit [Inhabited Word] in
private theorem begin_quiet (quiet : state.Quiet) (first : Access Word width) :
    state.begin thread first = some (state.goTo thread first) := by
  simp [State.begin, quiet thread]

theorem Tracks.pushesAlone (tracks : Tracks capacity state tickets) (quiet : state.Quiet) :
    PushesAlone capacity state tickets.queue := by
  intro thread value
  have begins : Mpmc.step capacity state (.tryPush thread value) =
      some (state.goTo thread (.pushLoadPos value)) := begin_quiet quiet _
  have opened : Tracks capacity (state.goTo thread (.pushLoadPos value)) tickets := by
    refine tracks.move ?_ trivial
    rw [quiet thread]
    rfl
  have represents := tracks.represents
  refine ⟨_, begins, fun finish path idle => ?_, fun room => ?_⟩
  · have phase : PushPhase capacity state thread value finish := path.invariant .loadPos fun _ _ _ phase alone ran =>
        phase.step tracks quiet alone ran
    obtain ⟨future, follows⟩ := opened.alone path
    have after := follows.represents
    cases phase with
    | accepted room cells =>
      have pushed : future.queue.pushed = tickets.queue.pushed ++ [value] := by
        rw [after.1, represents.1, map_append]
        rfl
      have taken : future.queue.taken = tickets.queue.taken := after.2.trans represents.2.symm
      rw [Fifo.push_eq_some pushed taken]
      exact ⟨quiet.returned thread, after, rfl⟩
    | refused full =>
      have bound : ¬ tickets.queue.pushed.length < tickets.queue.taken + capacity.size := by
        change ¬ (tickets.claims.map Prod.snd).length < tickets.takes.length + capacity.size
        rw [length_map, ← tracks.enqueuePos_eq, ← tracks.dequeuePos_eq]
        exact full
      rw [Fifo.push_eq_none bound]
      exact ⟨quiet.returned thread, represents, rfl⟩
    | loadPos | loadSeq | exchange room | write room todo cells =>
      exact absurd idle (by simp [goTo_threads])
  · have begun : PushPhase capacity state thread value (state.goTo thread (.pushLoadPos value)) := .loadPos
    obtain ⟨finish, path, -, idle⟩ := Reaches.progress (fun state => (state.threads thread).fuel) begun
        fun middle phase unfinished => phase.advances tracks quiet room unfinished
    exact ⟨finish, path, idle⟩

theorem Tracks.popsAlone (tracks : Tracks capacity state tickets) (quiet : state.Quiet) :
    PopsAlone capacity state tickets.queue := by
  intro thread
  have begins : Mpmc.step capacity state (.tryPop thread) =
      some (state.goTo thread .popLoadPos) := begin_quiet quiet _
  have opened : Tracks capacity (state.goTo thread .popLoadPos) tickets := by
    refine tracks.move ?_ trivial
    rw [quiet thread]
    rfl
  have represents := tracks.represents
  refine ⟨_, begins, fun finish path idle => ?_, fun room => ?_⟩
  · have phase : PopPhase state thread finish := path.invariant .loadPos fun _ _ _ phase alone ran =>
        phase.step tracks quiet alone ran
    obtain ⟨future, follows⟩ := opened.alone path
    have after := follows.represents
    cases phase with
    | returned more snapshot cells =>
      have pushed : future.queue.pushed = tickets.queue.pushed := after.1.trans represents.1.symm
      have taken : future.queue.taken = tickets.queue.taken + 1 := by
        rw [after.2, represents.2, length_append]
        rfl
      -- The entry just returned names the value of its claim.
      have front : tickets.queue.pushed[tickets.queue.taken]? = some snapshot := by
        obtain ⟨owner, claimed⟩ := follows.records.pops_value ⟨thread, state.dequeuePos, snapshot⟩
          (by simp [State.pops, State.returns, Outcome.popped?])
        rw [← pushed]
        change (future.claims.map Prod.snd)[tickets.takes.length]? = some snapshot
        rw [← tracks.dequeuePos_eq, List.getElem?_map, claimed]
        rfl
      rw [Fifo.pop_eq_some pushed taken front]
      exact ⟨quiet.returned thread, after, rfl⟩
    | refused none =>
      have bound : ¬ tickets.queue.taken < tickets.queue.pushed.length := by
        change ¬ tickets.takes.length < (tickets.claims.map Prod.snd).length
        rw [length_map, ← tracks.enqueuePos_eq, ← tracks.dequeuePos_eq]
        exact none
      rw [Fifo.pop_eq_none bound]
      exact ⟨quiet.returned thread, represents, rfl⟩
    | loadPos | loadSeq | exchange more | read more todo snapshot =>
      exact absurd idle (by simp [goTo_threads])
  · have begun : PopPhase state thread (state.goTo thread .popLoadPos) := .loadPos
    obtain ⟨finish, path, -, idle⟩ := Reaches.progress (fun state => (state.threads thread).fuel) begun
        fun middle phase unfinished => phase.advances tracks quiet room unfinished
    exact ⟨finish, path, idle⟩

/-- In every run of any number of threads no record is lost, duplicated or torn,
refusals are justified, and the ring follows the bounded queue of its claimed
positions; while no call is in progress it is that queue. -/
theorem mpmc_refines_lossless_queue
    (path : Reaches (step capacity) (Bounded capacity) (initial values : State Thread Word width) state) :
    Lossless capacity state ∧ RefusedWhenBlocked capacity state ∧
    ∃ queue : Fifo (Words Word width) capacity.size, Represents state queue ∧ FollowsFifo capacity state queue ∧
      (state.Quiet → PushesAlone capacity state queue ∧ PopsAlone capacity state queue) := by
  obtain ⟨tickets, tracks⟩ := exists_tracks path
  exact ⟨tracks.lossless, tracks.refusedWhenBlocked, tickets.queue, tracks.represents,
    tracks.followsFifo, fun quiet => ⟨tracks.pushesAlone quiet, tracks.popsAlone quiet⟩⟩

/-- Thread 0 pushes twice; in between thread 1 is refused by a claimed cell that is
not published yet, and then returns the first record. -/
def overlappingCalls : List (Action (Fin 2) Nat 1) :=
  [.tryPush 0 fun _ => 7, .access 0, .access 0, .access 0, .tryPop 1, .access 1, .access 1, .word 0 (.last 0), .access 0,
    .tryPush 0 fun _ => 8, .access 0, .access 0, .spurious 0, .access 0,
    .tryPop 1, .access 1, .access 1, .access 1, .word 1 (.last 0), .access 1,
    .access 0, .word 0 (.last 0), .access 0]

theorem mpmc_refines_lossless_queue_overlapping : ∃ state : State (Fin 2) Nat 1,
      Reaches (step twoSlots) (Bounded twoSlots) (initial fun _ _ => 0) state ∧
      state.pushes.map (fun entry => (entry.thread, entry.position, entry.value 0)) = [(0, 0, 7), (0, 1, 8)] ∧
      state.pops.map (fun entry => (entry.thread, entry.position, entry.value 0)) = [(1, 0, 7)] ∧
      state.log.length = 4 ∧ Lossless twoSlots state := by
  have passes : (executeIf (step twoSlots) (bounded twoSlots) (initial fun _ _ => 0)
      overlappingCalls).any (fun state => decide
        (state.pushes.map (fun entry => (entry.thread, entry.position, entry.value 0)) = [(0, 0, 7), (0, 1, 8)] ∧
          state.pops.map (fun entry => (entry.thread, entry.position, entry.value 0)) =
            [(1, 0, 7)] ∧ state.log.length = 4)) = true := by
    decide +kernel
  obtain ⟨state, path, ends⟩ := exists_reaches_of_executeIf (fun _ _ => id) passes
  rw [decide_eq_true_eq] at ends
  obtain ⟨lossless, -⟩ := mpmc_refines_lossless_queue path
  exact ⟨state, path, ends.1, ends.2.1, ends.2.2, lossless⟩

end AnimusCore.Mpmc
