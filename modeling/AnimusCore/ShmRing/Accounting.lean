import AnimusCore.ShmRing.Delivery

/-! What `dropped_count` accounts for. A ghost set holds one position for every
exchange that succeeded. A record that is passed over, by the producer's overwrite or
by a consumer that found it lapped, belongs to that set, except the record whose
exchange is still pending; if the consumer stores a tail beyond it in that window, the
exchange fails and the record is lost without being counted. -/

set_option autoImplicit false

namespace AnimusCore.ShmRing

open Lib Lib.Ring

section

variable {Word : Type} {width : Nat}

/-- No tail is stored beyond the floor of an exchange that is still pending. -/
def undisturbed (capacity : Capacity) (state : State Word width) : Action Word width → Bool
  | .consume =>
    match state.producer, state.consumer with
    | .reclaim _ head _ _, .storeTail position _ =>
      !decide (state.tail < State.reclaimFloor capacity head ∧ State.reclaimFloor capacity head ≤ position)
    | _, _ => true
  | action => bounded state action

def Undisturbed (capacity : Capacity) (state : State Word width) (action : Action Word width) : Prop :=
  undisturbed capacity state action = true

/-- The number of records whose write has begun or was announced. -/
def Producer.claimed (head : Nat) : Producer Word width → Nat
  | .writeFree _ _ _ _ | .reclaim _ _ _ _ | .countDrop _ _ | .writeSlot _ _ _
  | .storeHead _ _ => head + 1
  | _ => head

def State.claimed (state : State Word width) : Nat := state.producer.claimed state.head

def Producer.uncounted : Producer Word width → Nat
  | .countDrop _ _ => 1
  | _ => 0

def Consumer.position? : Consumer Word width → Option Nat
  | .loadHead tail | .loadActive tail _ | .cheapCopy tail _ _ | .seqHead tail _
  | .seqCopy tail _ _ _ | .storeTail tail _ => some tail
  | .idle | .loadTail | .reloadTail => none

/-- The records between the next one and `position` are being overwritten. -/
def State.Skips (capacity : Capacity) (state : State Word width) (position : Nat) : Prop :=
  ∀ skipped, state.next ≤ skipped → skipped < position → skipped + capacity.size < state.claimed

structure Accounts (capacity : Capacity) (state : State Word width) (counted : Finset Nat) : Prop where
  inv : Inv capacity state
  size : counted.card ≤ state.droppedCount + state.producer.uncounted
  dropped_le : state.droppedCount ≤ state.started
  past : ∀ position < state.next, position ∈ state.returned.map Prod.fst ∨ position ∈ counted
  gone : ∀ position, state.next ≤ position → position + capacity.size < state.claimed → position ∈ counted ∨
      state.producer.reclaiming = true ∧ position + capacity.size = state.head
  skips : ∀ position, state.consumer.position? = some position → state.Skips capacity position

end

variable {Word : Type} {width : Nat} {capacity : Capacity} {state after : State Word width}
  {slots : Nat → Words Word width} {counted : Finset Nat} {action : Action Word width}

theorem Accounts.initial (slots : Nat → Words Word width) : Accounts capacity (initial slots) ∅ where
  inv := Inv.initial slots
  size := Nat.zero_le _
  dropped_le := Nat.zero_le _
  past pos early := by
    simp [ShmRing.initial, State.next, State.returned, List.reduceOption_nil] at early
  gone pos _ taken := absurd taken (Nat.not_lt_zero _)
  skips := nofun

theorem Inv.begun_le_claimed (inv : Inv capacity state) : begun state.writeSeq ≤ state.claimed := by
  have valid := inv.producer
  rw [begun_eq, State.claimed]
  cases here : state.producer <;> simp only [here, Producer.Valid] at valid <;>
    simp only [Producer.claimed] <;> omega

theorem State.head_le_claimed (state : State Word width) : state.head ≤ state.claimed := by
  rw [State.claimed]
  cases state.producer <;> simp [Producer.claimed]

section
variable (accounts : Accounts capacity state counted)
include accounts

theorem Accounts.produced {more : Finset Nat} (inv : Inv capacity after)
    (results : after.results = state.results) (consumer : after.consumer = state.consumer)
    (claimed : state.claimed ≤ after.claimed) (grown : counted ⊆ more)
    (size : more.card ≤ after.droppedCount + after.producer.uncounted)
    (dropped_le : after.droppedCount ≤ after.started)
    (gone : ∀ pos, state.next ≤ pos → pos + capacity.size < after.claimed → pos ∈ more ∨
        after.producer.reclaiming = true ∧ pos + capacity.size = after.head) : Accounts capacity after more := by
  have returned : after.returned = state.returned := by
    rw [State.returned, State.returned, results]
  have next : after.next = state.next := by
    rw [State.next, State.next, returned]
  refine { inv, size, dropped_le, past := ?_, gone := ?_, skips := ?_ }
  · intro pos early
    rw [returned]
    rw [next] at early
    rcases accounts.past pos early with found | found
    · exact .inl found
    · exact .inr (grown found)
  · intro pos unread
    rw [next] at unread
    exact gone pos unread
  · intro pos working skipped unread passed
    rw [next] at unread
    rw [consumer] at working
    exact (accounts.skips pos working skipped unread passed).trans_le claimed

theorem Accounts.countsAt {producer : Producer Word width} (here : state.producer = producer) :
    counted.card ≤ state.droppedCount + producer.uncounted ∧ state.droppedCount ≤ producer.started state.head ∧
      state.claimed = producer.claimed state.head := by
  subst here
  exact ⟨accounts.size, accounts.dropped_le, rfl⟩

theorem Accounts.unclaimed {pos : Nat} (closed : state.producer.reclaiming = false)
    (unread : state.next ≤ pos) (taken : pos + capacity.size < state.claimed) : pos ∈ counted := by
  rcases accounts.gone pos unread taken with found | ⟨pending, -⟩
  · exact found
  · rw [closed] at pending
    cases pending

theorem Accounts.carriesOn {producer : Producer Word width} (here : state.producer = producer)
    (inv : Inv capacity after) (results : after.results = state.results) (consumer : after.consumer = state.consumer)
    (claimed : after.claimed = producer.claimed state.head) (closed : producer.reclaiming = false)
    (size : counted.card ≤ state.droppedCount + producer.uncounted →
      counted.card ≤ after.droppedCount + after.producer.uncounted)
    (dropped_le : state.droppedCount ≤ producer.started state.head →
      after.droppedCount ≤ after.started) : Accounts capacity after counted := by
  subst here
  exact accounts.produced inv results consumer claimed.ge (Finset.Subset.refl _) (size accounts.size)
    (dropped_le accounts.dropped_le) fun pos unread taken => .inl
    (accounts.unclaimed closed unread (taken.trans_eq claimed))

theorem Accounts.beginPush {overwrite : Bool} {value : Words Word width} (room : state.head + 1 < positionLimit)
    (ran : state.beginPush overwrite value = some after) : Accounts capacity after counted := by
  have inv := accounts.inv.beginPush room ran
  unfold State.beginPush at ran
  split at ran <;> cases ran
  case h_1 idle => exact accounts.carriesOn idle inv rfl rfl rfl rfl id id

theorem Accounts.produceWord {word : Fin width} (ran : state.produceWord capacity word = some after) :
    Accounts capacity after counted := by
  have inv := accounts.inv.produceWord ran
  cases accounts.inv.producesWord ran with
  | free here | slot here => exact accounts.carriesOn here inv rfl rfl rfl rfl id id

/-- The exchange that succeeds is counted for the record being overwritten; the one
that finds the tail beyond the floor leaves no record to count. -/
theorem Accounts.produce (ran : state.produce capacity = some after) : ∃ more, Accounts capacity after more := by
  have inv := accounts.inv.produce ran
  have low := accounts.inv.tail_le
  cases accounts.inv.produces ran with
  | loadHead here | refuse here | full here | publishFree here | first here | again here
  | setActive here | finishSlot here | publishSlot here =>
    exact ⟨counted, accounts.carriesOn here inv rfl rfl rfl rfl id id⟩
  | free here free =>
    -- The slot is free because the record it held is before the next one to return.
    have counter := (accounts.inv.producerAt here).2
    obtain ⟨size, dropped, claimed⟩ := accounts.countsAt here
    refine ⟨counted, accounts.produced inv rfl rfl ?_ (Finset.Subset.refl _) size
      (dropped.trans (Nat.le_succ _)) fun pos unread taken => .inl ?_⟩
    · rw [claimed]
      exact Nat.le_succ _
    · change pos + capacity.size < state.head + 1 at taken
      have early : begun state.writeSeq ≤ state.head := by
        rw [begun_eq]
        omega
      refine accounts.unclaimed (State.reclaiming_of here) unread (claimed ▸ ?_)
      omega
  | announce here =>
    obtain ⟨size, dropped, claimed⟩ := accounts.countsAt here
    refine ⟨counted, accounts.produced inv rfl rfl ?_ (Finset.Subset.refl _) size dropped
      fun pos unread taken => ?_⟩
    · rw [claimed]
      exact Nat.le_succ _
    · change pos + capacity.size < state.head + 1 at taken
      rcases Nat.lt_or_ge (pos + capacity.size) state.head with earlier | last
      · exact .inl (accounts.unclaimed (State.reclaiming_of here) unread (claimed ▸ earlier))
      · exact .inr ⟨rfl, by change _ = state.head; omega⟩
  | exchange here =>
    obtain ⟨size, dropped, claimed⟩ := accounts.countsAt here
    refine ⟨insert (state.head - capacity.size) counted,
      accounts.produced inv rfl rfl claimed.le (Finset.subset_insert _ _) ?_ dropped ?_⟩
    · exact (Finset.card_insert_le _ _).trans (Nat.add_le_add_right size 1)
    · intro pos unread taken
      rcases accounts.gone pos unread (claimed ▸ taken) with found | ⟨-, last⟩
      · exact .inl (Finset.mem_insert_of_mem found)
      · have same : pos = state.head - capacity.size := by omega
        exact .inl (same ▸ Finset.mem_insert_self _ _)
  | retry here =>
    obtain ⟨size, dropped, claimed⟩ := accounts.countsAt here
    refine ⟨counted, accounts.produced inv rfl rfl claimed.le (Finset.Subset.refl _) size
      dropped fun pos unread taken => ?_⟩
    rcases accounts.gone pos unread (claimed ▸ taken) with found | ⟨-, last⟩
    · exact .inl found
    · exact .inr ⟨rfl, last⟩
  | passed here passed =>
    obtain ⟨size, dropped, claimed⟩ := accounts.countsAt here
    obtain ⟨-, -, full, -, below, -⟩ := accounts.inv.producerAt here
    refine ⟨counted, accounts.produced inv rfl rfl claimed.le (Finset.Subset.refl _) size
      (dropped.trans (Nat.le_succ _)) fun pos unread taken => ?_⟩
    rcases accounts.gone pos unread (claimed ▸ taken) with found | ⟨-, last⟩
    · exact .inl found
    · omega
  | countDrop here =>
    have room := accounts.inv.room (by simp [here])
    have dropped : _ ≤ state.head := (accounts.countsAt here).2.1
    rw [succ64_eq (by have := positionLimit_lt; omega)] at inv ⊢
    exact ⟨counted, accounts.carriesOn here inv rfl rfl rfl rfl id fun low => Nat.succ_le_succ low⟩

end

section
variable (accounts : Accounts capacity state counted)
include accounts

theorem Accounts.moveConsumer {consumer : Consumer Word width} (inv : Inv capacity { state with consumer })
    (skips : ∀ pos, consumer.position? = some pos → state.Skips capacity pos) :
    Accounts capacity { state with consumer } counted :=
  { accounts with inv, skips }

theorem Accounts.returnNone : Accounts capacity (state.popReturns none) counted := by
  have next := state.next_none
  have returned := state.returned_none
  refine { accounts with
    inv := accounts.inv.returnNone, past := ?_, gone := ?_, skips := ?_ }
  · rw [next, returned]
    exact accounts.past
  · rw [next]
    exact accounts.gone
  · intro pos working
    cases working

/-- The records a returning call passes over are counted, unless the exchange for one
of them is pending. -/
theorem Accounts.returnSome {tail : Nat} {snapshot : Words Word width}
    (here : state.consumer = .storeTail tail snapshot)
    (settled : state.producer.reclaiming = true → state.next + capacity.size ≤ state.head →
      tail + capacity.size ≤ state.head) :
    Accounts capacity (State.popReturns { state with tail := tail + 1 } (some (tail, snapshot))) counted := by
  have returned := State.returned_some { state with tail := tail + 1 } (tail, snapshot)
  have next := State.next_some { state with tail := tail + 1 } (tail, snapshot)
  have skips := accounts.skips tail (by rw [here]; rfl)
  have unread := (accounts.inv.consumerAt here).1
  refine { accounts with
    inv := accounts.inv.returnSome here, past := ?_, gone := ?_, skips := ?_ }
  · intro pos early
    rw [returned, List.map_append, List.mem_append]
    rcases Nat.lt_or_ge pos state.next with before | unread
    · rcases accounts.past pos before with found | found
      · exact .inl (.inl found)
      · exact .inr found
    · rcases Nat.lt_or_ge pos tail with skipped | last
      · rcases accounts.gone pos unread (skips pos unread skipped) with
          found | ⟨pending, last⟩
        · exact .inr found
        · have bound := settled pending (by omega)
          omega
      · have same : pos = tail := by omega
        exact .inl (.inr (by simp [same]))
  · intro pos later taken
    exact accounts.gone pos (by omega) taken
  · intro pos working
    cases working

theorem Accounts.consumeWord {word : Fin width} (ran : state.consumeWord capacity word = some after) :
    Accounts capacity after counted := by
  have inv := accounts.inv.consumeWord ran
  have skips := accounts.skips
  cases consumesWord ran with
  | cheap here | seq here =>
    rw [here] at skips
    exact accounts.moveConsumer inv skips

theorem Accounts.skips_tail : state.Skips capacity state.tail := by
  intro skipped unread passed
  have low := accounts.inv.tail_le
  have begun := accounts.inv.begun_le_claimed
  omega

end

theorem Undisturbed.settled (inv : Inv capacity state) {tail : Nat} {snapshot : Words Word width}
    (permitted : Undisturbed capacity state .consume) (here : state.consumer = .storeTail tail snapshot)
    (pending : state.producer.reclaiming = true) (unread : state.next + capacity.size ≤ state.head) :
    tail + capacity.size ≤ state.head := by
  have valid := inv.producer
  cases reclaim : state.producer <;> rw [reclaim] at pending valid <;>
    simp only [Producer.reclaiming, Bool.false_eq_true] at pending
  obtain ⟨rfl, _, full, _, low, _⟩ := valid
  simp only [Undisturbed, undisturbed, reclaim, here, Bool.not_eq_true', decide_eq_false_iff_not,
    reclaimFloor_eq (Nat.le_of_add_left_le full) inv.head_lt] at permitted
  omega

variable [Inhabited Word]

theorem Accounts.consume (accounts : Accounts capacity state counted)
    (permitted : Undisturbed capacity state .consume)
    (ran : state.consume capacity = some after) : Accounts capacity after counted := by
  have inv := accounts.inv.consume ran
  have skips := accounts.skips
  cases accounts.inv.consumes ran with
  | empty | drained | giveUp => exact accounts.returnNone
  | active | changed => exact accounts.moveConsumer inv nofun
  | loadTail | reloadTail =>
    refine accounts.moveConsumer inv ?_
    rintro _ ⟨⟩
    exact accounts.skips_tail
  | loadHead here | cheap here | unchanged here | intact here =>
    rw [here] at skips
    exact accounts.moveConsumer inv skips
  | @clamped tail attempt here more =>
    -- What the clamp passes over is a capacity below the head.
    have claimed := state.head_le_claimed
    refine accounts.moveConsumer inv ?_
    rintro _ ⟨⟩ skipped unread passed
    rcases Nat.lt_or_ge skipped tail with earlier | last
    · exact skips tail (by rw [here]; rfl) skipped unread earlier
    · omega
  | @skip tail attempt snapshot here lapped =>
    have claimed := accounts.inv.begun_le_claimed
    refine accounts.moveConsumer inv ?_
    rintro _ ⟨⟩ skipped unread passed
    rcases Nat.lt_or_ge skipped tail with earlier | last
    · exact skips tail (by rw [here]; rfl) skipped unread earlier
    · omega
  | storeTail here =>
    exact accounts.returnSome here (Undisturbed.settled accounts.inv permitted here)

theorem Accounts.step (accounts : Accounts capacity state counted) (permitted : Undisturbed capacity state action)
    (ran : step capacity state action = some after) : ∃ more, Accounts capacity after more := by
  cases action with
  | tryPush value => exact ⟨counted, accounts.beginPush (of_decide_eq_true permitted) ran⟩
  | pushOverwrite value =>
    exact ⟨counted, accounts.beginPush (of_decide_eq_true permitted) ran⟩
  | produce => exact accounts.produce ran
  | produceWord word => exact ⟨counted, accounts.produceWord ran⟩
  | tryPop =>
    have inv := accounts.inv.beginPop ran
    simp only [ShmRing.step, State.beginPop] at ran
    split at ran <;> cases ran
    exact ⟨counted, accounts.moveConsumer inv (by rintro _ ⟨⟩)⟩
  | consume => exact ⟨counted, accounts.consume permitted ran⟩
  | consumeWord word => exact ⟨counted, accounts.consumeWord ran⟩

theorem exists_accounts (path : Reaches (ShmRing.step capacity) (Undisturbed capacity) (initial slots) state) :
    ∃ counted, Accounts capacity state counted := by
  apply path.invariant ⟨∅, Accounts.initial slots⟩
  rintro state action next ⟨counted, accounts⟩ permitted ran
  exact accounts.step permitted ran

end AnimusCore.ShmRing
