import AnimusCore.ShmRing.Ring

/-! The invariant of the ring. Two facts carry it. The shared tail never passes both
the position after the last returned record and the oldest record that the counter
calls intact. And every record at or after that position whose slot was taken for a
newer one was announced in the counter first; records before it may be overwritten
without a word. -/

set_option autoImplicit false

namespace AnimusCore.ShmRing

open Lib Lib.Ring

variable {Word : Type} {width : Nat} {capacity : Capacity} {state after : State Word width}

/-- The number of records whose slot was taken, when `head` records are published. -/
def Producer.started (head : Nat) : Producer Word width → Nat
  | .writeFree _ _ _ _ | .writeSlot _ _ _ | .storeHead _ _ => head + 1
  | _ => head

/-- The producer announced an overwrite and has not settled the tail yet. -/
def Producer.reclaiming : Producer Word width → Bool
  | .reclaim _ _ _ _ => true
  | _ => false

def State.started (state : State Word width) : Nat := state.producer.started state.head

def Consumer.staleBelow (floor : Nat) : Consumer Word width → Prop
  | .storeTail tail _ | .cheapCopy tail _ _ => tail + 1 < floor
  | _ => False

/-- Why the exchange at this attempt cannot go on failing: after the announcement
the consumer stores at most one tail below the floor. -/
def RetryBound (state : State Word width) (floor tail tries : Nat) : Prop :=
  tries = 0 ∨ tries = 1 ∧ (state.tail = tail ∨ floor ≤ state.tail ∨ ¬ state.consumer.staleBelow floor) ∨
    tries = 2 ∧ (state.tail = tail ∨ floor ≤ state.tail) ∧ ¬ state.consumer.staleBelow floor

section
variable (capacity : Capacity)

def Producer.Valid (state : State Word width) : Producer Word width → Prop
  | .idle => state.writeSeq ≤ 2 * state.head
  | .loadHead _ _ => state.writeSeq ≤ 2 * state.head
  | .loadTail _ _ head => head = state.head ∧ state.writeSeq ≤ 2 * state.head
  | .writeFree _ value head todo => head = state.head ∧ state.writeSeq ≤ 2 * state.head ∧
      Copied todo (state.slots (capacity.slot head)) value
  | .loadSeq _ head tail => head = state.head ∧ state.writeSeq ≤ 2 * state.head ∧ tail + capacity.size ≤ head
  | .setActive _ head tail => head = state.head ∧ state.writeSeq ≤ 2 * state.head ∧ tail + capacity.size ≤ head
  | .announce _ head tail => head = state.head ∧ state.writeSeq ≤ 2 * state.head ∧
      tail + capacity.size ≤ head ∧ state.overwriteActive = true
  | .reclaim _ head tail tries => head = state.head ∧ state.writeSeq = 2 * head + 1 ∧
      tail + capacity.size ≤ head ∧ state.overwriteActive = true ∧
      state.tail ≤ max state.next (head - capacity.size) ∧
      RetryBound state (head - capacity.size + 1) tail tries
  | .countDrop _ head => head = state.head ∧ state.writeSeq = 2 * head + 1 ∧ capacity.size ≤ head
  | .writeSlot value head todo => head = state.head ∧ state.writeSeq = 2 * head + 1 ∧
      capacity.size ≤ head ∧ Copied todo (state.slots (capacity.slot head)) value
  | .storeHead value head => head = state.head ∧ state.writeSeq = 2 * (head + 1) ∧
      state.slots (capacity.slot head) = value

/-- The words of the snapshot are right as long as the record's slot is not taken. -/
def SnapshotOf (state : State Word width) (position : Nat) (todo : Finset (Fin width))
    (snapshot : Words Word width) : Prop :=
  state.started ≤ position + capacity.size →
    ∀ value, state.pushed[position]? = some value → Copied todo snapshot value

def Consumer.Valid (state : State Word width) : Consumer Word width → Prop
  | .idle | .loadTail | .reloadTail => True
  | .loadHead tail => state.next ≤ tail ∧ tail ≤ state.head ∧
      tail ≤ max state.next (begun state.writeSeq - capacity.size)
  | .loadActive tail head => state.next ≤ tail ∧ tail ≤ head ∧ head ≤ state.head ∧
      tail ≤ max state.next (begun state.writeSeq - capacity.size)
  | .cheapCopy tail todo snapshot => tail = state.next ∧ tail < state.head ∧
      SnapshotOf capacity state tail todo snapshot
  | .seqHead tail _ => state.next ≤ tail ∧ tail ≤ state.head
  | .seqCopy tail _ todo snapshot => state.next ≤ tail ∧ tail < state.head ∧
      SnapshotOf capacity state tail todo snapshot
  | .storeTail tail snapshot => state.next ≤ tail ∧ state.pushed[tail]? = some snapshot

/-- On the cheap route an unchanged tail proves that the copied slot is not taken. -/
def CheapSound (state : State Word width) : Prop :=
  ∀ tail todo snapshot, state.consumer = .cheapCopy tail todo snapshot → state.tail = tail →
    state.started ≤ tail + capacity.size ∧
      (begun state.writeSeq ≤ tail + capacity.size ∨ state.producer.reclaiming = true)

end

structure Inv (capacity : Capacity) (state : State Word width) : Prop where
  head_eq : state.head = state.pushed.length
  head_lt : state.head < positionLimit
  room : state.producer ≠ .idle → state.head + 1 < positionLimit
  next_le : state.next ≤ state.head
  next_le_tail : state.next ≤ state.tail
  tail_le : state.tail ≤ max state.next (begun state.writeSeq - capacity.size)
  sound : ∀ entry ∈ state.returned, state.pushed[entry.1]? = some entry.2
  sorted : (state.returned.map Prod.fst).Pairwise (· < ·)
  below : ∀ entry ∈ state.returned, entry.1 < state.next
  stored : ∀ (position : Nat) value, state.pushed[position]? = some value →
    state.started ≤ position + capacity.size → state.slots (capacity.slot position) = value
  announced : ∀ position, state.next ≤ position → position + capacity.size < state.started →
    position + capacity.size < begun state.writeSeq
  active : state.writeSeq ≠ 0 → state.overwriteActive = true
  producer : state.producer.Valid capacity state
  consumer : state.consumer.Valid capacity state
  cheap : CheapSound capacity state

theorem Inv.initial (slots : Nat → Words Word width) : Inv capacity (initial slots) := by
  constructor <;>
    simp [ShmRing.initial, State.next, State.returned, State.started, Producer.started,
      Producer.Valid, Consumer.Valid, CheapSound, positionLimit, List.reduceOption_nil]

theorem Inv.word (inv : Inv capacity state) : state.writeSeq + 1 < wordSize := by
  have valid := inv.producer
  have limit := inv.head_lt
  have room := inv.room
  unfold positionLimit at limit room
  unfold wordSize
  cases here : state.producer <;> simp [here, Producer.Valid] at valid room <;> omega

theorem Inv.begun_le (inv : Inv capacity state) : begun state.writeSeq ≤ state.head + 1 := by
  have valid := inv.producer
  rw [begun_eq]
  cases here : state.producer <;> simp only [here, Producer.Valid] at valid <;> omega

theorem Inv.tail_le_head (inv : Inv capacity state) : state.tail ≤ state.head := by
  have next := inv.next_le
  have tail := inv.tail_le
  have begun := inv.begun_le
  have size := capacity.two_le
  omega

theorem State.le_started (state : State Word width) : state.head ≤ state.started := by
  unfold State.started
  cases state.producer <;> simp [Producer.started]

theorem positionLimit_lt : positionLimit < wordSize := by decide

theorem Consumer.Valid.mono {consumer : Consumer Word width}
    (valid : consumer.Valid capacity state) (length : state.head = state.pushed.length)
    (next_eq : after.next = state.next) (head_le : state.head ≤ after.head)
    (grown : ∀ pos < state.head, after.pushed[pos]? = state.pushed[pos]?)
    (begun_le : begun state.writeSeq ≤ begun after.writeSeq)
    (started_le : state.started ≤ after.started) : consumer.Valid capacity after := by
  have snapshot : ∀ {pos todo copy}, pos < state.head → SnapshotOf capacity state pos todo copy →
      SnapshotOf capacity after pos todo copy := by
    intro pos todo copy inside holds fits value found
    rw [grown pos inside] at found
    exact holds (started_le.trans fits) value found
  cases consumer with
  | idle | loadTail | reloadTail => trivial
  | loadHead tail | loadActive tail head | seqHead tail attempt =>
    simp only [Consumer.Valid, next_eq] at valid ⊢
    omega
  | cheapCopy tail todo copy | seqCopy tail attempt todo copy =>
    simp only [Consumer.Valid, next_eq] at valid ⊢
    exact ⟨valid.1, by omega, snapshot valid.2.1 valid.2.2⟩
  | storeTail tail copy =>
    simp only [Consumer.Valid, next_eq] at valid ⊢
    have inside : tail < state.head := by
      rw [length]
      exact (List.getElem?_eq_some_iff.mp valid.2).1
    exact ⟨valid.1, (grown tail inside).trans valid.2⟩

end AnimusCore.ShmRing
