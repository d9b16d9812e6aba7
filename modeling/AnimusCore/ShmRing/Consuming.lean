import AnimusCore.ShmRing.Producing

/-! The consumer keeps the invariant. It returns a copy only after a check that the
slot was not taken meanwhile: the unchanged tail on the cheap route, the counter on
the other. -/

set_option autoImplicit false

namespace AnimusCore.ShmRing

open Lib Lib.Ring List

variable {Word : Type} {width : Nat} {capacity : Capacity} {state after : State Word width}
  {consumer : Consumer Word width} {results : List (Option (Nat × Words Word width))}
  {snapshot : Words Word width} {todo : Finset (Fin width)} {head tail attempt floor tries : Nat}

theorem State.returned_none (state : State Word width) : (state.popReturns none).returned = state.returned := by
  simp [State.popReturns, State.returned, reduceOption_append, reduceOption_nil]

theorem State.next_none (state : State Word width) : (state.popReturns none).next = state.next := by
  unfold State.next
  rw [State.returned_none]

theorem State.returned_some (state : State Word width) (entry : Nat × Words Word width) :
    (state.popReturns (some entry)).returned = state.returned ++ [entry] := by
  simp [State.popReturns, State.returned, reduceOption_append, reduceOption_cons_of_some, reduceOption_nil]

theorem State.next_some (state : State Word width) (entry : Nat × Words Word width) :
    (state.popReturns (some entry)).next = entry.1 + 1 := by
  unfold State.next
  rw [State.returned_some, List.getLast?_concat]

theorem RetryBound.mono (retry : RetryBound state floor tail tries) (same : after.tail = state.tail)
    (calm : after.consumer.staleBelow floor → state.consumer.staleBelow floor) :
    RetryBound after floor tail tries := by
  rcases retry with first | ⟨second, settled⟩ | ⟨third, settled, still⟩
  · exact .inl first
  · refine .inr (.inl ⟨second, ?_⟩)
    rw [same]
    rcases settled with unchanged | passed | still
    · exact .inl unchanged
    · exact .inr (.inl passed)
    · exact .inr (.inr (mt calm still))
  · rw [← same] at settled
    exact .inr (.inr ⟨third, settled, mt calm still⟩)

theorem RetryBound.stored (retry : RetryBound state floor tail tries) {pos : Nat}
    (here : state.consumer = .storeTail pos snapshot) (stored : after.tail = pos + 1)
    (idle : after.consumer = .idle) : RetryBound after floor tail tries := by
  have calm : ¬ after.consumer.staleBelow floor := by
    rw [idle]
    exact id
  rcases retry with first | ⟨second, _⟩ | ⟨third, _, still⟩
  · exact .inl first
  · exact .inr (.inl ⟨second, .inr (.inr calm)⟩)
  · rw [here, Consumer.staleBelow] at still
    exact .inr (.inr ⟨third, .inr (by omega), calm⟩)

/-- A step of the consumer leaves the producer's facts alone, except for those of
the exchange. -/
theorem Producer.Valid.consumed {producer : Producer Word width} (valid : producer.Valid capacity state)
    (exchange : producer.reclaiming = true → state.tail ≤ max state.next (state.head - capacity.size) →
      tail ≤ max (State.next { state with tail, consumer, results }) (state.head - capacity.size))
    (retry : ∀ known tries, producer.reclaiming = true →
      RetryBound state (state.head - capacity.size + 1) known tries →
      RetryBound { state with tail, consumer, results } (state.head - capacity.size + 1) known tries) :
    producer.Valid capacity { state with tail, consumer, results } := by
  cases producer with
  | reclaim value head known tries =>
    obtain ⟨rfl, counter, full, active, low, bound⟩ := valid
    exact ⟨rfl, counter, full, active, exchange rfl low, retry known tries rfl bound⟩
  | _ => exact valid

variable (inv : Inv capacity state)
include inv

theorem Inv.moveConsumer (calm : state.producer.reclaiming = true →
      consumer.staleBelow (state.head - capacity.size + 1) →
      state.consumer.staleBelow (state.head - capacity.size + 1))
    (valid : consumer.Valid capacity { state with consumer }) (cheap : CheapSound capacity { state with consumer }) :
    Inv capacity { state with consumer } where
  __ := inv
  producer := inv.producer.consumed (fun _ low => low) (fun _ _ waiting retry => retry.mono rfl (calm waiting))
  consumer := valid
  cheap := cheap

theorem Inv.returnNone : Inv capacity (state.popReturns none) := by
  have returned := state.returned_none
  have next := state.next_none
  refine { inv with
    next_le := ?_, next_le_tail := ?_, tail_le := ?_, sound := ?_, sorted := ?_, below := ?_
    announced := ?_, producer := ?_, consumer := trivial, cheap := ?_ }
  · exact next.trans_le inv.next_le
  · exact next.trans_le inv.next_le_tail
  · rw [next]
    exact inv.tail_le
  · rw [returned]
    exact inv.sound
  · rw [returned]
    exact inv.sorted
  · rw [returned, next]
    exact inv.below
  · rw [next]
    exact inv.announced
  · refine inv.producer.consumed (fun _ low => ?_) (fun _ _ _ retry => retry.mono rfl False.elim)
    exact low.trans (max_le_max_right _ next.ge)
  · exact nofun

theorem Inv.returnSome (here : state.consumer = .storeTail tail snapshot) :
    Inv capacity (State.popReturns { state with tail := tail + 1 } (some (tail, snapshot))) := by
  obtain ⟨unread, found⟩ := inv.consumerAt here
  have inside := inv.lt_head found
  have returned := State.returned_some { state with tail := tail + 1 } (tail, snapshot)
  have next := State.next_some { state with tail := tail + 1 } (tail, snapshot)
  refine { inv with
    next_le := ?_, next_le_tail := ?_, tail_le := ?_, sound := ?_, sorted := ?_, below := ?_
    announced := ?_, producer := ?_, consumer := trivial, cheap := ?_ }
  · rw [next]
    exact inside
  · exact next.le
  · rw [next]
    exact Nat.le_max_left _ _
  · intro entry member
    rw [returned, mem_append, mem_singleton] at member
    rcases member with earlier | rfl
    · exact inv.sound entry earlier
    · exact found
  · rw [returned, map_append, pairwise_append]
    refine ⟨inv.sorted, pairwise_singleton _ _, ?_⟩
    intro pos member last single
    obtain ⟨entry, earlier, rfl⟩ := mem_map.mp member
    rw [map_singleton, mem_singleton] at single
    have bound := inv.below entry earlier
    subst single
    exact bound.trans_le unread
  · intro entry member
    rw [returned, mem_append, mem_singleton] at member
    rw [next]
    rcases member with earlier | rfl
    · have bound := inv.below entry earlier
      omega
    · exact Nat.lt_succ_self _
  · intro pos later taken
    exact inv.announced pos (by omega) taken
  · refine inv.producer.consumed (fun _ _ => ?_) (fun _ _ _ retry => retry.stored here rfl rfl)
    exact next.ge.trans (Nat.le_max_left _ _)
  · exact nofun

theorem Inv.beginPop (ran : state.beginPop = some after) : Inv capacity after := by
  unfold State.beginPop at ran
  split at ran
  · cases ran
    exact inv.moveConsumer (fun _ => False.elim) trivial nofun
  · cases ran

theorem Inv.snapshotWord (partly : SnapshotOf capacity state tail todo snapshot) (word : Fin width) :
    SnapshotOf capacity state tail (todo.erase word)
      (Function.update snapshot word (state.slots (capacity.slot tail) word)) := by
  intro fits value found
  rw [inv.stored tail value found fits]
  exact (partly fits value found).word word

theorem Inv.snapshotWhole (inside : tail < state.head) (whole : SnapshotOf capacity state tail ∅ snapshot)
    (fits : state.started ≤ tail + capacity.size) : state.pushed[tail]? = some snapshot := by
  obtain ⟨value, found⟩ : ∃ value, state.pushed[tail]? = some value := by
    rw [inv.head_eq] at inside
    exact ⟨_, List.getElem?_eq_getElem inside⟩
  rw [found, (whole fits value found).finish]

/-- The slot of an unread record that the counter does not call lapped is its own. -/
theorem Inv.started_of_intact (unread : state.next ≤ tail) (intact : begun state.writeSeq ≤ tail + capacity.size) :
    state.started ≤ tail + capacity.size := by
  by_contra taken
  have announced := inv.announced tail unread (by omega)
  omega

theorem Inv.begun_eq_zero (inactive : state.overwriteActive = false) : begun state.writeSeq = 0 := by
  by_cases zero : state.writeSeq = 0
  · rw [zero]
    rfl
  · have active := inv.active zero
    rw [inactive] at active
    cases active

theorem Inv.consumeWord {word : Fin width}
    (ran : state.consumeWord capacity word = some after) : Inv capacity after := by
  cases consumesWord ran with
  | @cheap tail todo snapshot here =>
    obtain ⟨next, inside, partly⟩ := inv.consumerAt here
    refine inv.moveConsumer ?_ ⟨next, inside, inv.snapshotWord partly word⟩ ?_
    · rw [here]
      exact fun _ stale => stale
    · rintro _ _ _ ⟨⟩ unchanged
      exact inv.cheap tail todo snapshot here unchanged
  | seq here =>
    obtain ⟨unread, inside, partly⟩ := inv.consumerAt here
    exact inv.moveConsumer (fun _ => False.elim) ⟨unread, inside, inv.snapshotWord partly word⟩ nofun

theorem Inv.of_reclaiming (waiting : state.producer.reclaiming = true) :
    state.writeSeq = 2 * state.head + 1 ∧ state.overwriteActive = true := by
  have valid := inv.producer
  cases reclaim : state.producer <;> rw [reclaim] at waiting valid <;>
    simp only [Producer.reclaiming, Bool.false_eq_true] at waiting
  obtain ⟨rfl, counter, -, active, -⟩ := valid
  exact ⟨counter, active⟩

theorem Inv.consume [Inhabited Word] (ran : state.consume capacity = some after) : Inv capacity after := by
  cases inv.consumes ran with
  | loadTail here =>
    exact inv.moveConsumer (fun _ => False.elim) ⟨inv.next_le_tail, inv.tail_le_head, inv.tail_le⟩ nofun
  | loadHead here =>
    obtain ⟨unread, ordered, low⟩ := inv.consumerAt here
    exact inv.moveConsumer (fun _ => False.elim) ⟨unread, ordered, le_refl _, low⟩ nofun
  | empty | drained | giveUp => exact inv.returnNone
  | @cheap tail head here inactive more =>
    obtain ⟨unread, ordered, published, low⟩ := inv.consumerAt here
    have unused := inv.begun_eq_zero inactive
    have fits := inv.started_of_intact unread (by omega)
    refine inv.moveConsumer ?_ ⟨?_, ?_, fun _ _ _ => Copied.start⟩ ?_
    · intro waiting
      rw [(inv.of_reclaiming waiting).2] at inactive
      cases inactive
    · change tail = state.next
      omega
    · change tail < state.head
      omega
    · rintro _ _ _ ⟨⟩ _
      exact ⟨fits, .inl (by change begun state.writeSeq ≤ _; omega)⟩
  | active | changed => exact inv.moveConsumer (fun _ => False.elim) trivial nofun
  | unchanged here =>
    obtain ⟨next, inside, whole⟩ := inv.consumerAt here
    have fits := (inv.cheap _ ∅ _ here rfl).1
    refine inv.moveConsumer ?_ ⟨next.ge, inv.snapshotWhole inside whole fits⟩ nofun
    rw [here]
    exact fun _ stale => stale
  | reloadTail here =>
    exact inv.moveConsumer (fun _ => False.elim) ⟨inv.next_le_tail, inv.tail_le_head⟩ nofun
  | clamped here more =>
    -- The clamp only moves the position forward.
    obtain ⟨unread, ordered⟩ := inv.consumerAt here
    exact inv.moveConsumer (fun _ => False.elim)
      ⟨unread.trans (Nat.le_max_left _ _), more, fun _ _ _ => Copied.start⟩ nofun
  | skip here lapped again =>
    obtain ⟨unread, inside, -⟩ := inv.consumerAt here
    exact inv.moveConsumer (fun _ => False.elim) ⟨unread.trans (Nat.le_succ _), inside⟩ nofun
  | @intact tail attempt snapshot here intact =>
    obtain ⟨unread, inside, whole⟩ := inv.consumerAt here
    have fits := inv.started_of_intact unread intact
    refine inv.moveConsumer ?_ ⟨unread, inv.snapshotWhole inside whole fits⟩ nofun
    -- Once the overwrite is announced, a record that is not lapped is not below.
    intro waiting stale
    have counter := (inv.of_reclaiming waiting).1
    rw [begun_eq] at intact
    change tail + 1 < _ at stale
    omega
  | storeTail here => exact inv.returnSome here

end AnimusCore.ShmRing
