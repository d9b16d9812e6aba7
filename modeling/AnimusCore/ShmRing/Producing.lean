import AnimusCore.ShmRing.Steps

/-! The producer keeps the invariant. Most of its steps only move it to its next
access; the ones that matter are the two that take a slot, the announcement, and the
exchange that settles the tail. -/

set_option autoImplicit false

namespace AnimusCore.ShmRing

open Lib Lib.Ring

variable {Word : Type} {width : Nat} {capacity : Capacity} {state after : State Word width}
  {value : Words Word width} {head tail tries : Nat} {overwrite : Bool}

variable {producer : Producer Word width}

/-- A step of the producer that touches neither slots nor records: it moves the
producer on and may store the tail or one of the flags. -/
theorem Inv.signal (inv : Inv capacity state) {seq dropped : Nat} {active : Bool}
    (started : producer.started state.head = state.started)
    (more : begun state.writeSeq ≤ begun seq) (declared : seq ≠ 0 → active = true)
    (room : producer ≠ .idle → state.head + 1 < positionLimit) (next_le_tail : state.next ≤ tail)
    (tail_le : tail ≤ max state.next (begun seq - capacity.size)) (valid : producer.Valid capacity { state with
      tail, writeSeq := seq, overwriteActive := active, droppedCount := dropped, producer })
    (cheap : CheapSound capacity { state with
      tail, writeSeq := seq, overwriteActive := active, droppedCount := dropped, producer }) :
    Inv capacity { state with
      tail, writeSeq := seq, overwriteActive := active, droppedCount := dropped, producer } where
  __ := inv
  room := room
  next_le_tail := next_le_tail
  tail_le := tail_le
  stored pos value found fits := inv.stored pos value found (started ▸ fits)
  announced pos unread taken := (inv.announced pos unread (started ▸ taken)).trans_le more
  active := declared
  producer := valid
  consumer := inv.consumer.mono inv.head_eq rfl (le_refl _) (fun _ _ => rfl) more started.ge
  cheap := cheap

theorem CheapSound.settled (sound : CheapSound capacity state) (closed : state.producer.reclaiming = false)
    {todo : Finset (Fin width)} {snapshot : Words Word width}
    (copying : state.consumer = .cheapCopy tail todo snapshot) (unchanged : state.tail = tail) :
    state.started ≤ tail + capacity.size ∧ begun state.writeSeq ≤ tail + capacity.size := by
  obtain ⟨free, settled⟩ := sound tail todo snapshot copying unchanged
  rw [closed] at settled
  exact ⟨free, by simpa using settled⟩

theorem CheapSound.signal (sound : CheapSound capacity state) {seq dropped : Nat} {active : Bool}
    (started : producer.started state.head = state.started)
    (window : producer.reclaiming = true ∨ state.producer.reclaiming = false ∧ begun seq = begun state.writeSeq) :
    CheapSound capacity { state with
      writeSeq := seq, overwriteActive := active, droppedCount := dropped, producer } := by
  intro tail todo snapshot copying unchanged
  refine ⟨started.trans_le (sound tail todo snapshot copying unchanged).1, ?_⟩
  rcases window with opened | ⟨closed, unmoved⟩
  · exact .inr opened
  · exact .inl (unmoved.trans_le (sound.settled closed copying unchanged).2)

section
variable (inv : Inv capacity state)
include inv

theorem Inv.moveProducer (started : producer.started state.head = state.started)
    (window : state.producer.reclaiming = false ∨ producer.reclaiming = true)
    (room : producer ≠ .idle → state.head + 1 < positionLimit)
    (valid : producer.Valid capacity { state with producer }) : Inv capacity { state with producer } := by
  refine inv.signal started (le_refl _) inv.active room inv.next_le_tail inv.tail_le valid ?_
  refine inv.cheap.signal started ?_
  rcases window with closed | opened
  · exact .inr ⟨closed, rfl⟩
  · exact .inl opened

theorem Inv.beginPush (room : state.head + 1 < positionLimit)
    (ran : state.beginPush overwrite value = some after) : Inv capacity after := by
  unfold State.beginPush at ran
  split at ran <;> cases ran
  case h_1 idle =>
    exact inv.moveProducer (State.started_of idle).symm (.inl (State.reclaiming_of idle))
      (fun _ => room) (inv.producerAt idle)

/-- Taking a slot: the records whose slots were taken are one more. The record that
the slot held is before the next one to return, or announced; and a cheap copy of it
will find the tail changed. -/
theorem Inv.takeSlot (before : state.started = state.head)
    (taken : producer.started state.head = state.head + 1) (room : state.head + 1 < positionLimit)
    (valid : producer.Valid capacity { state with producer }) (permitted : ∀ pos, state.next ≤ pos →
      pos + capacity.size = state.head → pos + capacity.size < begun state.writeSeq)
    (spared : ∀ tail todo snapshot, state.consumer = .cheapCopy tail todo snapshot →
      state.tail = tail → state.head < tail + capacity.size ∧
        begun state.writeSeq ≤ tail + capacity.size) : Inv capacity { state with producer } := by
  have more : State.started { state with producer } = state.head + 1 := taken
  refine { inv with
    room := fun _ => room, stored := ?_, announced := ?_, producer := valid, consumer := ?_
    cheap := ?_ }
  · intro pos value found fits
    exact inv.stored pos value found (by omega)
  · intro pos unread overtaken
    rcases Nat.lt_or_ge (pos + capacity.size) state.head with earlier | last
    · exact inv.announced pos unread (before ▸ earlier)
    · exact permitted pos unread (by omega)
  · refine inv.consumer.mono inv.head_eq rfl (le_refl _) (fun _ _ => rfl) (le_refl _) ?_
    rw [more, before]
    exact Nat.le_succ _
  · intro tail todo snapshot copying unchanged
    obtain ⟨free, settled⟩ := spared tail todo snapshot copying unchanged
    rw [more]
    exact ⟨free, .inl settled⟩

theorem Inv.writeWord (taken : state.started = state.head + 1) (same : producer.started state.head = state.head + 1)
    (closed : state.producer.reclaiming = false) (word : Fin width) (valid : producer.Valid capacity
      { state with slots := state.writeWord capacity state.head value word, producer }) :
    Inv capacity { state with slots := state.writeWord capacity state.head value word, producer } := by
  have busy : state.producer ≠ .idle := by
    intro idle
    rw [State.started, idle] at taken
    simp [Producer.started] at taken
  have room := inv.room busy
  have started : State.started { state with
      slots := state.writeWord capacity state.head value word, producer } = state.started :=
    same.trans taken.symm
  refine { inv with
    room := fun _ => room, stored := ?_, announced := ?_, producer := valid, consumer := ?_
    cheap := ?_ }
  · intro pos record found fits
    rw [started, taken] at fits
    have apart := capacity.slot_ne (inv.lt_head found) (by omega)
    simp only [State.writeWord, Function.update_of_ne apart]
    exact inv.stored pos record found (taken ▸ fits)
  · intro pos unread overtaken
    exact inv.announced pos unread (started ▸ overtaken)
  · exact inv.consumer.mono inv.head_eq rfl (le_refl _) (fun _ _ => rfl) (le_refl _) started.ge
  · intro tail todo snapshot copying unchanged
    obtain ⟨free, settled⟩ := inv.cheap.settled closed copying unchanged
    exact ⟨started ▸ free, .inl settled⟩

theorem Inv.produceWord {word : Fin width}
    (ran : state.produceWord capacity word = some after) : Inv capacity after := by
  have copied : ∀ {todo value}, Copied todo (state.slots (capacity.slot state.head)) value → Copied (todo.erase word)
        (state.writeWord capacity state.head value word (capacity.slot state.head)) value := by
    intro todo value before
    simp only [State.writeWord, Function.update_self]
    exact before.word word
  cases inv.producesWord ran with
  | free here =>
    obtain ⟨-, counter, written⟩ := inv.producerAt here
    exact inv.writeWord (State.started_of here) rfl (State.reclaiming_of here) word ⟨rfl, counter, copied written⟩
  | slot here =>
    obtain ⟨-, counter, full, written⟩ := inv.producerAt here
    exact inv.writeWord (State.started_of here) rfl (State.reclaiming_of here) word
      ⟨rfl, counter, full, copied written⟩

theorem Inv.publish (taken : state.started = state.head + 1) (room : state.head + 1 < positionLimit)
    (closed : state.producer.reclaiming = false) (written : state.slots (capacity.slot state.head) = value)
    (counter : state.writeSeq ≤ 2 * (state.head + 1)) (pushResults : List Bool) : Inv capacity { state with
      head := state.head + 1
      pushed := state.pushed ++ [value]
      pushResults
      producer := .idle } := by
  have grown : ∀ pos < state.head, (state.pushed ++ [value])[pos]? = state.pushed[pos]? := by
    intro pos inside
    exact List.getElem?_append_left (inv.head_eq ▸ inside)
  refine { inv with
    head_eq := ?_, head_lt := room, room := fun busy => absurd rfl busy
    next_le := inv.next_le.trans (Nat.le_succ _), sound := ?_, stored := ?_, announced := ?_
    producer := counter, consumer := ?_, cheap := ?_ }
  · simp [inv.head_eq]
  · intro entry member
    have found := inv.sound entry member
    exact (grown entry.1 (inv.lt_head found)).trans found
  · intro pos record found fits
    rcases Nat.lt_or_ge pos state.head with earlier | last
    · rw [grown pos earlier] at found
      exact inv.stored pos record found (taken ▸ fits)
    · have bound := (List.getElem?_eq_some_iff.mp found).1
      rw [List.length_append, List.length_singleton, ← inv.head_eq] at bound
      have same : pos = state.head := by omega
      rw [same, inv.head_eq, List.getElem?_concat_length, Option.some.injEq] at found
      rw [same]
      exact written.trans found
  · intro pos unread overtaken
    exact inv.announced pos unread (taken ▸ overtaken)
  · exact inv.consumer.mono inv.head_eq rfl (Nat.le_succ _) grown (le_refl _) taken.le
  · intro tail todo snapshot copying unchanged
    obtain ⟨free, settled⟩ := inv.cheap.settled closed copying unchanged
    exact ⟨taken ▸ free, .inl settled⟩

theorem Inv.storeSeq {seq : Nat} (started : producer.started state.head = state.started)
    (more : begun state.writeSeq ≤ begun seq) (active : state.overwriteActive = true)
    (window : producer.reclaiming = true ∨ state.producer.reclaiming = false ∧ begun seq = begun state.writeSeq)
    (room : state.head + 1 < positionLimit)
    (valid : producer.Valid capacity { state with writeSeq := seq, producer }) :
    Inv capacity { state with writeSeq := seq, producer } := by
  have low := inv.tail_le
  exact inv.signal started more (fun _ => active) (fun _ => room) inv.next_le_tail (by omega)
    valid (inv.cheap.signal started window)

theorem Inv.exchangeTail (counter : state.writeSeq = 2 * state.head + 1) (started : state.started = state.head)
    (below : state.tail + capacity.size ≤ state.head) (room : state.head + 1 < positionLimit) :
    Inv capacity { state with
      tail := state.head - capacity.size + 1
      producer := .countDrop value state.head } := by
  have next := inv.next_le_tail
  have consumer := inv.consumer
  refine inv.signal started.symm (le_refl _) inv.active (fun _ => room) (by omega) ?_ ⟨rfl, counter, by omega⟩ ?_
  · rw [begun_eq]
    omega
  · -- A copy in progress is of the next record, which the new tail has passed.
    intro tail todo snapshot copying unchanged
    change state.head - capacity.size + 1 = tail at unchanged
    rw [copying, Consumer.Valid] at consumer
    omega

end

theorem RetryBound.next {floor : Nat} (retry : RetryBound state floor tail tries) (changed : state.tail ≠ tail)
    (below : state.tail < floor) : RetryBound state floor state.tail (tries + 1) := by
  rcases retry with rfl | ⟨rfl, same | passed | settled⟩ | ⟨rfl, second, _⟩
  · exact .inr (.inl ⟨rfl, .inl rfl⟩)
  · exact absurd same changed
  · omega
  · exact .inr (.inr ⟨rfl, .inl rfl, settled⟩)
  · omega

theorem Inv.countDrop (inv : Inv capacity state) (here : state.producer = .countDrop value state.head)
    (room : state.head + 1 < positionLimit) {dropped : Nat} : Inv capacity { state with
      droppedCount := dropped, producer := .writeSlot value state.head Finset.univ } := by
  obtain ⟨-, counter, full⟩ := inv.producerAt here
  have announced : begun state.writeSeq = state.head + 1 := by
    rw [begun_eq]
    omega
  have taken : Inv capacity { state with producer := .writeSlot value state.head Finset.univ } := by
    refine inv.takeSlot (State.started_of here) rfl room ⟨rfl, counter, full, Copied.start⟩ ?_ ?_
    · intro pos _ last
      omega
    · intro tail todo snapshot copying unchanged
      have spared := (inv.cheap.settled (State.reclaiming_of here) copying unchanged).2
      exact ⟨by omega, spared⟩
  exact { taken with
    consumer := taken.consumer.mono taken.head_eq rfl (le_refl _) (fun _ _ => rfl) (le_refl _) (le_refl _)
    cheap := taken.cheap }

theorem Inv.produce (inv : Inv capacity state) (ran : state.produce capacity = some after) : Inv capacity after := by
  have low := inv.tail_le
  have early : state.writeSeq ≤ 2 * state.head → begun state.writeSeq ≤ state.head := by
    rw [begun_eq]
    omega
  cases inv.produces ran with
  | loadHead here =>
    exact inv.moveProducer (State.started_of here).symm (.inl (State.reclaiming_of here))
      (fun _ => inv.room (by simp [here])) ⟨rfl, inv.producerAt here⟩
  | refuse here full =>
    have moved : Inv capacity { state with producer := .idle } :=
      inv.moveProducer (State.started_of here).symm (.inl (State.reclaiming_of here))
        (fun busy => absurd rfl busy) (inv.producerAt here).2
    exact { moved with }
  | full here full =>
    exact inv.moveProducer (State.started_of here).symm (.inl (State.reclaiming_of here))
      (fun _ => inv.room (by simp [here])) ⟨rfl, (inv.producerAt here).2, full⟩
  | free here free =>
    -- A free slot held a record before the next one to return: the tail is at most
    -- that, because the counter has not reached the head.
    have counter := (inv.producerAt here).2
    refine inv.takeSlot (State.started_of here) rfl (inv.room (by simp [here])) ⟨rfl, counter, Copied.start⟩ ?_ ?_
    · intro pos unread last
      omega
    · intro tail todo snapshot copying unchanged
      exact ⟨by omega, (inv.cheap.settled (State.reclaiming_of here) copying unchanged).2⟩
  | publishFree here =>
    obtain ⟨-, counter, written⟩ := inv.producerAt here
    exact inv.publish (State.started_of here) (inv.room (by simp [here]))
      (State.reclaiming_of here) written.finish (by omega) _
  | first here =>
    exact inv.moveProducer (State.started_of here).symm (.inl (State.reclaiming_of here))
      (fun _ => inv.room (by simp [here])) (inv.producerAt here)
  | again here again =>
    obtain ⟨-, counter, full⟩ := inv.producerAt here
    exact inv.moveProducer (State.started_of here).symm (.inl (State.reclaiming_of here))
      (fun _ => inv.room (by simp [here])) ⟨rfl, counter, full, inv.active again⟩
  | setActive here =>
    obtain ⟨-, counter, full⟩ := inv.producerAt here
    have started := (State.started_of here).symm
    exact inv.signal started (le_refl _) (fun _ => rfl) (fun _ => inv.room (by simp [here]))
      inv.next_le_tail inv.tail_le ⟨rfl, counter, full, rfl⟩
      (inv.cheap.signal started (.inr ⟨State.reclaiming_of here, rfl⟩))
  | announce here =>
    obtain ⟨-, counter, full, active⟩ := inv.producerAt here
    refine inv.storeSeq (State.started_of here).symm ?_ active (.inl rfl)
      (inv.room (by simp [here])) ⟨rfl, beginValue_eq inv.head_lt, full, active, ?_, .inl rfl⟩
    · rw [begun_beginValue inv.head_lt]
      omega
    · change state.tail ≤ max state.next (state.head - capacity.size)
      omega
  | exchange here =>
    obtain ⟨-, counter, full, -⟩ := inv.producerAt here
    exact inv.exchangeTail counter (State.started_of here) full (inv.room (by simp [here]))
  | retry here changed below =>
    obtain ⟨-, counter, -, active, low, retry⟩ := inv.producerAt here
    exact inv.moveProducer (State.started_of here).symm (.inr rfl) (fun _ => inv.room (by simp [here]))
      ⟨rfl, counter, below, active, low, retry.next changed (by omega)⟩
  | passed here passed =>
    obtain ⟨-, counter, full, -⟩ := inv.producerAt here
    refine inv.takeSlot (State.started_of here) rfl (inv.room (by simp [here]))
      ⟨rfl, counter, by omega, Copied.start⟩ ?_ ?_
    · intro pos _ last
      omega
    · intro tail todo snapshot _ unchanged
      rw [begun_eq]
      omega
  | countDrop here => exact inv.countDrop here (inv.room (by simp [here]))
  | finishSlot here =>
    obtain ⟨-, counter, full, written⟩ := inv.producerAt here
    have room := inv.room (by simp [here])
    have unmoved : begun (endValue state.head) = begun state.writeSeq := by
      rw [begun_endValue room, begun_eq, counter]
      omega
    exact inv.storeSeq (State.started_of here).symm unmoved.ge (inv.active (by omega))
      (.inr ⟨State.reclaiming_of here, unmoved⟩) room ⟨rfl, endValue_eq room, written.finish⟩
  | publishSlot here =>
    obtain ⟨-, counter, written⟩ := inv.producerAt here
    exact inv.publish (State.started_of here) (inv.room (by simp [here]))
      (State.reclaiming_of here) written counter.le _

end AnimusCore.ShmRing
