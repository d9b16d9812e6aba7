import AnimusCore.Spmc.Ring

/-! What holds in every state of the broadcast ring: the sequence counter tells how far
the producer is, the slots retain the records of the last lap, and every consumer
accounts for all records before its tail. -/

set_option autoImplicit false

namespace AnimusCore.Spmc

open Lib Lib.Ring ShmRing

section

variable {Reader Word : Type} {width : Nat}

def Producer.Valid (writeSeq head : Nat) (slot : Words Word width) : Producer Word width → Prop
  | .idle => writeSeq = 2 * head
  | .announce _ => writeSeq = 2 * head ∧ head + 1 < positionLimit
  | .writeSlot value todo =>
    writeSeq = 2 * head + 1 ∧ head + 1 < positionLimit ∧ Copied todo slot value
  | .storeHead value => writeSeq = 2 * head + 2 ∧ head + 1 < positionLimit ∧ slot = value

def Consumer.poller (consumer : Consumer Word width) : Poller Word width :=
  ⟨consumer.localTail, consumer.overrunCount, consumer.call, consumer.results⟩

def Consumer.Counted (consumer : Consumer Word width) : Prop :=
  match consumer.call with
  | .waiting _ => consumer.countAtCall = consumer.overrunCount
  | .idle | .copying _ => consumer.countAtCall ≤ consumer.overrunCount ∧
      (consumer.lastPollOverran = true ↔ consumer.countAtCall < consumer.overrunCount)

structure Consumer.Valid (capacity : Capacity) (records : List (Words Word width))
    (started : Nat) (consumer : Consumer Word width) : Prop where
  poller : consumer.poller.Valid capacity records started
  counted : consumer.Counted

structure Inv (capacity : Capacity) (state : State Reader Word width) : Prop where
  head_eq : state.head = state.broadcasts.length
  producerHead_eq : state.producerHead = state.broadcasts.length
  head_lt : state.broadcasts.length < positionLimit
  producer : state.producer.Valid state.writeSeq state.broadcasts.length
    (state.slots (capacity.slot state.broadcasts.length))
  retains : Retains capacity state.slots state.broadcasts (begun state.writeSeq)
  consumers : ∀ reader, (state.consumers reader).Valid capacity state.broadcasts (begun state.writeSeq)

/-- A broadcast may begin while its index and the next one are below the limit. -/
def bounded (state : State Reader Word width) : Action Reader Word width → Bool
  | .broadcast _ => decide (state.head + 1 < positionLimit)
  | _ => true

def Bounded (state : State Reader Word width) (action : Action Reader Word width) : Prop :=
  bounded state action = true

end

variable {Reader Word : Type} {width : Nat} {capacity : Capacity}
  {state after : State Reader Word width} {consumer : Consumer Word width}
  {records more : List (Words Word width)} {started later : Nat}

theorem Inv.initial (slots : Nat → Words Word width) : Inv capacity (initial slots : State Reader Word width) where
  head_eq := rfl
  producerHead_eq := rfl
  head_lt := by
    change 0 < positionLimit
    decide
  producer := rfl
  retains := Retains.empty
  consumers _ := {
    poller := ⟨Received.none, Nat.le_refl 0, nofun⟩
    counted := by simp [Spmc.initial, Consumer.Counted] }

theorem Consumer.Valid.mono (valid : consumer.Valid capacity records started) (grown : started ≤ later)
    (extended : records <+: more) : consumer.Valid capacity more later :=
  ⟨valid.poller.mono grown extended, valid.counted⟩

variable {value : Words Word width}

section
variable (inv : Inv capacity state)
include inv

theorem Inv.broadcast (room : state.head + 1 < positionLimit)
    (ran : state.broadcast value = some after) : Inv capacity after := by
  unfold State.broadcast at ran
  have producer := inv.producer
  rw [inv.head_eq] at room
  split at ran
  case h_1 here =>
    cases ran
    rw [here] at producer
    exact { inv with producer := ⟨producer, room⟩ }
  case h_2 => cases ran

theorem Inv.produceAnnounce (here : state.producer = .announce value)
    (ran : state.produce = some after) : Inv capacity after := by
  have producer := inv.producer
  rw [here] at producer
  obtain ⟨counter, room⟩ := producer
  have limit := inv.head_lt
  have starts : begun state.writeSeq ≤ begun (beginValue state.broadcasts.length) := by
    rw [begun_beginValue limit, counter, begun_eq]
    omega
  simp only [State.produce, here] at ran
  cases ran
  refine { inv with producer := ⟨?_, room, Copied.start⟩, retains := ?_, consumers := ?_ }
  · rw [inv.producerHead_eq, beginValue_eq limit]
  · rw [inv.producerHead_eq]
    exact inv.retains.start starts
  · intro reader
    rw [inv.producerHead_eq]
    exact (inv.consumers reader).mono starts (List.prefix_refl _)

theorem Inv.produceWord {word : Fin width}
    (ran : state.produceWord capacity word = some after) : Inv capacity after := by
  unfold State.produceWord at ran
  split at ran
  case h_2 => cases ran
  case h_1 value todo here =>
    split at ran
    case isFalse => cases ran
    case isTrue left =>
      cases ran
      have producer := inv.producer
      have retains := inv.retains
      rw [here] at producer
      obtain ⟨counter, room, copied⟩ := producer
      have starts : begun state.writeSeq = state.broadcasts.length + 1 := by
        rw [counter, begun_eq]
        omega
      rw [starts] at retains
      have written := copied.word word
      rw [← Function.update_self (capacity.slot state.broadcasts.length)
        (Function.update (state.slots (capacity.slot state.broadcasts.length)) word (value word))
        state.slots] at written
      rw [inv.producerHead_eq]
      refine { inv with
        producerHead_eq := rfl, producer := ⟨counter, room, written⟩, retains := ?_ }
      rw [starts]
      exact retains.write _

theorem Inv.produceWriteSlot {todo : Finset (Fin width)} (here : state.producer = .writeSlot value todo)
    (ran : state.produce = some after) : Inv capacity after := by
  have producer := inv.producer
  rw [here] at producer
  obtain ⟨counter, room, copied⟩ := producer
  have same : begun (endValue state.broadcasts.length) = begun state.writeSeq := by
    rw [begun_endValue room, counter, begun_eq]
    omega
  simp only [State.produce, here] at ran
  split at ran
  case isFalse => cases ran
  case isTrue done =>
    cases ran
    subst done
    refine { inv with producer := ⟨?_, room, copied.finish⟩, retains := ?_, consumers := ?_ }
    · rw [inv.producerHead_eq]
      exact endValue_eq room
    · rw [inv.producerHead_eq, same]
      exact inv.retains
    · intro reader
      rw [inv.producerHead_eq, same]
      exact inv.consumers reader

theorem Inv.produceStoreHead (here : state.producer = .storeHead value)
    (ran : state.produce = some after) : Inv capacity after := by
  have producer := inv.producer
  have retains := inv.retains
  rw [here] at producer
  obtain ⟨counter, room, whole⟩ := producer
  have starts : begun state.writeSeq = state.broadcasts.length + 1 := by
    rw [counter, begun_eq]
    omega
  rw [starts] at retains
  have limit : positionLimit < wordSize := by decide
  have next : succ64 state.producerHead = state.broadcasts.length + 1 := by
    rw [inv.producerHead_eq]
    exact succ64_eq (by omega)
  simp only [State.produce, here] at ran
  cases ran
  refine ⟨?_, ?_, ?_, ?_, ?_, fun reader => ?_⟩
  · rw [List.length_append]
    exact next
  · rw [List.length_append]
    exact next
  · rw [List.length_append]
    exact room
  · rw [List.length_append]
    change state.writeSeq = _
    omega
  · rw [starts]
    exact retains.publish whole
  · exact (inv.consumers reader).mono (Nat.le_refl _) (List.prefix_append _ _)

theorem Inv.produce (ran : state.produce = some after) : Inv capacity after := by
  cases here : state.producer with
  | idle => simp [State.produce, here] at ran
  | announce value => exact inv.produceAnnounce here ran
  | writeSlot value todo => exact inv.produceWriteSlot here ran
  | storeHead value => exact inv.produceStoreHead here ran

end

section
variable (valid : consumer.Valid capacity records started)
include valid

/-- The overrun check moves the tail to the oldest record of the last lap and counts
the records in between. -/
theorem Consumer.Valid.clamp_eq {head : Nat} (length : records.length = head) (limit : head < positionLimit) :
    consumer.clamp capacity head = { consumer with
      localTail := consumer.poller.oldest capacity.size head
      overrunCount := consumer.overrunCount + (consumer.poller.oldest capacity.size head - consumer.localTail)
      lastPollOverran :=
        decide (consumer.localTail < consumer.poller.oldest capacity.size head) } := by
  have behind : consumer.localTail ≤ records.length := valid.poller.tail_le
  have accounted : _ + consumer.overrunCount = consumer.localTail := valid.poller.received.accounted
  have oldest : consumer.poller.oldest capacity.size head = max consumer.localTail (head - capacity.size) := rfl
  have words : positionLimit < wordSize := by decide
  unfold Consumer.clamp
  rw [sub64_eq (by omega) (by omega)]
  split
  case isTrue far =>
    have moved : consumer.poller.oldest capacity.size head = head - capacity.size := by omega
    rw [sub64_eq (by omega) (by omega), sub64_eq (by omega) (by omega), add64_eq (by omega),
      moved, decide_eq_true (by omega)]
  case isFalse near =>
    have still : consumer.poller.oldest capacity.size head = consumer.localTail := by omega
    rw [still, Nat.sub_self, decide_eq_false (Nat.lt_irrefl _)]
    rfl

theorem Consumer.Valid.loadHead_poller [Inhabited Word] {head maxCount : Nat}
    (length : records.length = head) (limit : head < positionLimit) :
    (consumer.loadHead capacity head maxCount).poller = consumer.poller.load capacity.size head maxCount := by
  have behind : consumer.localTail ≤ records.length := valid.poller.tail_le
  have oldest : consumer.poller.oldest capacity.size head = max consumer.localTail (head - capacity.size) := rfl
  have words : positionLimit < wordSize := by decide
  have count : ∀ available, (if available < maxCount then available else maxCount) = min maxCount available := by
    intro available
    split <;> omega
  unfold Consumer.loadHead Poller.load
  rw [valid.clamp_eq length limit]
  simp only [count]
  rw [sub64_eq (by omega) (by omega)]
  split <;> rfl

theorem Consumer.Valid.loadHead_counted [Inhabited Word] {head maxCount : Nat} (length : records.length = head)
    (limit : head < positionLimit) (here : consumer.call = .waiting maxCount) :
    (consumer.loadHead capacity head maxCount).Counted := by
  have counted := valid.counted
  rw [Consumer.Counted, here] at counted
  have flag : decide (consumer.localTail < consumer.poller.oldest capacity.size head) = true ↔
      consumer.countAtCall < consumer.overrunCount +
        (consumer.poller.oldest capacity.size head - consumer.localTail) := by
    rw [decide_eq_true_iff]
    omega
  unfold Consumer.loadHead
  rw [valid.clamp_eq length limit]
  simp only
  generalize (if _ < maxCount then _ else maxCount) = count
  split <;> exact ⟨by simp only [Consumer.returns]; omega, flag⟩

variable {batch : Batch Word width} (here : consumer.call = .copying batch)
include here

theorem Consumer.Valid.validate_poller {writeSeq : Nat} (word : writeSeq + 1 < wordSize)
    (limit : records.length < positionLimit) :
    (consumer.validate capacity batch writeSeq).poller =
      consumer.poller.finish batch (begun writeSeq - capacity.size) := by
  obtain ⟨first, sound⟩ := valid.poller.copying batch here
  change batch.first = consumer.localTail at first
  have inside := sound.inside
  have accounted : _ + consumer.overrunCount = consumer.localTail := valid.poller.received.accounted
  have words : positionLimit < wordSize := by decide
  unfold Consumer.validate Poller.finish
  rw [Batch.spoiled_eq, oldestIntact_eq word]
  simp only
  rw [add64_eq (by omega)]
  split
  case isTrue some =>
    rw [add64_eq (by omega)]
    rfl
  case isFalse none =>
    have zero : min batch.count (begun writeSeq - capacity.size - batch.first) = 0 := by omega
    rw [zero]
    rfl

theorem Consumer.Valid.validate_counted {writeSeq : Nat} (limit : records.length < positionLimit) :
    (consumer.validate capacity batch writeSeq).Counted := by
  have counted := valid.counted
  rw [Consumer.Counted, here] at counted
  obtain ⟨atLeast, flag⟩ := counted
  obtain ⟨first, sound⟩ := valid.poller.copying batch here
  change batch.first = consumer.localTail at first
  have inside := sound.inside
  have accounted : _ + consumer.overrunCount = consumer.localTail := valid.poller.received.accounted
  have words : positionLimit < wordSize := by decide
  unfold Consumer.validate
  rw [Batch.spoiled_eq]
  simp only
  split
  case isTrue some =>
    have grown : add64 consumer.overrunCount
        (min batch.count (oldestIntact writeSeq capacity.size - batch.first)) = consumer.overrunCount +
            min batch.count (oldestIntact writeSeq capacity.size - batch.first) :=
      add64_eq (by omega)
    refine ⟨?_, ?_⟩
    · simp only [Consumer.returns, grown]
      omega
    · simp only [Consumer.returns, grown, true_iff]
      omega
  case isFalse => exact ⟨atLeast, flag⟩

end

theorem Inv.word (inv : Inv capacity state) : state.writeSeq + 1 < wordSize := by
  have valid := inv.producer
  have limit := inv.head_lt
  unfold positionLimit at limit
  unfold wordSize
  cases here : state.producer <;> simp only [here, Producer.Valid, positionLimit] at valid <;> omega

variable [DecidableEq Reader] {reader : Reader}

theorem Inv.setConsumer (inv : Inv capacity state)
    (valid : consumer.Valid capacity state.broadcasts (begun state.writeSeq)) :
    Inv capacity (state.setConsumer reader consumer) where
  __ := inv
  consumers other := by
    by_cases same : other = reader
    · subst same
      simp only [State.setConsumer, Function.update_self]
      exact valid
    · simp only [State.setConsumer, Function.update_of_ne same]
      exact inv.consumers other

theorem Inv.poll (inv : Inv capacity state) {maxCount : Nat}
    (ran : state.poll reader maxCount = some after) : Inv capacity after := by
  have valid := inv.consumers reader
  simp only [State.poll] at ran
  split at ran <;> cases ran
  refine inv.setConsumer ⟨?_, rfl⟩
  exact { valid.poller with copying := nofun }

variable [Inhabited Word]

/-- The consumer has taken a step of its call, and counts the overruns of the call. -/
structure Consumer.Steps (capacity : Capacity) (state : State Reader Word width)
    (before after : Consumer Word width) : Prop where
  poller : before.poller.Step capacity state.slots capacity.size state.broadcasts.length
    (begun state.writeSeq - capacity.size) after.poller
  counted : after.Counted

section
variable (inv : Inv capacity state)
include inv

omit [DecidableEq Reader] in
theorem Inv.steps_valid (steps : Consumer.Steps capacity state (state.consumers reader) consumer) :
    consumer.Valid capacity state.broadcasts (begun state.writeSeq) where
  poller := (inv.consumers reader).poller.step inv.retains (by omega) steps.poller
  counted := steps.counted

theorem Inv.consumeWord_steps {word : Fin width} (ran : state.consumeWord capacity reader word = some after) :
    ∃ consumer, after = state.setConsumer reader consumer ∧
      Consumer.Steps capacity state (state.consumers reader) consumer := by
  have counted := (inv.consumers reader).counted
  simp only [State.consumeWord] at ran
  split at ran
  case h_2 => cases ran
  case h_1 batch here =>
    split at ran
    case isFalse => cases ran
    case isTrue left =>
      cases ran
      rw [Consumer.Counted, here] at counted
      exact ⟨_, rfl, .copyWord here left, counted⟩

theorem Inv.consume_steps (ran : state.consume capacity reader = some after) :
    ∃ consumer, after = state.setConsumer reader consumer ∧
      Consumer.Steps capacity state (state.consumers reader) consumer := by
  have valid := inv.consumers reader
  have counted := valid.counted
  have limit := inv.head_lt
  simp only [State.consume] at ran
  split at ran
  case h_1 => cases ran
  case h_2 maxCount here =>
    cases ran
    rw [inv.head_eq]
    refine ⟨_, rfl, ?_, valid.loadHead_counted rfl limit here⟩
    rw [valid.loadHead_poller rfl limit]
    exact .load here
  case h_3 batch here =>
    split at ran
    case isFalse => cases ran
    case isTrue done =>
      split at ran
      case isTrue more =>
        cases ran
        rw [Consumer.Counted, here] at counted
        exact ⟨_, rfl, .next here done more, counted⟩
      case isFalse last =>
        cases ran
        refine ⟨_, rfl, ?_, valid.validate_counted here limit⟩
        rw [valid.validate_poller here inv.word limit]
        exact .finish here done last

theorem Inv.step {action : Action Reader Word width} (permitted : Bounded state action)
    (ran : step capacity state action = some after) : Inv capacity after := by
  cases action with
  | broadcast value => exact inv.broadcast (of_decide_eq_true permitted) ran
  | produce => exact inv.produce ran
  | produceWord word => exact inv.produceWord ran
  | poll reader maxCount => exact inv.poll ran
  | consume reader =>
    obtain ⟨consumer, rfl, steps⟩ := inv.consume_steps ran
    exact inv.setConsumer (inv.steps_valid steps)
  | consumeWord reader word =>
    obtain ⟨consumer, rfl, steps⟩ := inv.consumeWord_steps ran
    exact inv.setConsumer (inv.steps_valid steps)

end

theorem inv_of_reaches {slots : Nat → Words Word width}
    (path : Reaches (step capacity) Bounded (initial slots) state) : Inv capacity state :=
  path.invariant (Inv.initial slots) fun _ _ _ inv permitted ran =>
    inv.step permitted ran

end AnimusCore.Spmc
