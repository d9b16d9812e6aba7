import AnimusCore.ShmRing.Invariant

/-! What one access does in a state of the invariant. There the words do not wrap, the
producer's copy of the head is the head, and the reclaim loop only ends at the floor. -/

set_option autoImplicit false

namespace AnimusCore.ShmRing

open Lib Lib.Ring

variable {Word : Type} {width : Nat}

section

variable (capacity : Capacity) (state : State Word width)

inductive Produces : State Word width → Prop where
  | loadHead {overwrite : Bool} {value : Words Word width} (here : state.producer = .loadHead overwrite value) :
      Produces { state with producer := .loadTail overwrite value state.head }
  | refuse {value : Words Word width} (here : state.producer = .loadTail false value state.head)
      (full : state.tail + capacity.size ≤ state.head) :
      Produces { state with producer := .idle, pushResults := state.pushResults ++ [false] }
  | full {value : Words Word width} (here : state.producer = .loadTail true value state.head)
      (full : state.tail + capacity.size ≤ state.head) :
      Produces { state with producer := .loadSeq value state.head state.tail }
  | free {overwrite : Bool} {value : Words Word width} (here : state.producer = .loadTail overwrite value state.head)
      (free : state.head < state.tail + capacity.size) :
      Produces { state with producer := .writeFree overwrite value state.head Finset.univ }
  | publishFree {overwrite : Bool} {value : Words Word width}
      (here : state.producer = .writeFree overwrite value state.head ∅) :
      Produces { state with
        head := state.head + 1
        pushed := state.pushed ++ [value]
        pushResults := if overwrite then state.pushResults else state.pushResults ++ [true]
        producer := .idle }
  | first {value : Words Word width} {tail : Nat} (here : state.producer = .loadSeq value state.head tail) :
      Produces { state with producer := .setActive value state.head tail }
  | again {value : Words Word width} {tail : Nat}
      (here : state.producer = .loadSeq value state.head tail) (again : state.writeSeq ≠ 0) :
      Produces { state with producer := .announce value state.head tail }
  | setActive {value : Words Word width} {tail : Nat} (here : state.producer = .setActive value state.head tail) :
      Produces { state with
        overwriteActive := true, producer := .announce value state.head tail }
  | announce {value : Words Word width} {tail : Nat} (here : state.producer = .announce value state.head tail) :
      Produces { state with
        writeSeq := beginValue state.head, producer := .reclaim value state.head tail 0 }
  | exchange {value : Words Word width} {tries : Nat}
      (here : state.producer = .reclaim value state.head state.tail tries) :
      Produces { state with
        tail := state.head - capacity.size + 1, producer := .countDrop value state.head }
  | retry {value : Words Word width} {tail tries : Nat}
      (here : state.producer = .reclaim value state.head tail tries) (changed : state.tail ≠ tail)
      (below : state.tail + capacity.size ≤ state.head) :
      Produces { state with producer := .reclaim value state.head state.tail (tries + 1) }
  | passed {value : Words Word width} {tail tries : Nat}
      (here : state.producer = .reclaim value state.head tail tries)
      (passed : state.head < state.tail + capacity.size) :
      Produces { state with producer := .writeSlot value state.head Finset.univ }
  | countDrop {value : Words Word width} (here : state.producer = .countDrop value state.head) :
      Produces { state with
        droppedCount := succ64 state.droppedCount
        producer := .writeSlot value state.head Finset.univ }
  | finishSlot {value : Words Word width} (here : state.producer = .writeSlot value state.head ∅) :
      Produces { state with
        writeSeq := endValue state.head, producer := .storeHead value state.head }
  | publishSlot {value : Words Word width} (here : state.producer = .storeHead value state.head) :
      Produces { state with
        head := state.head + 1, pushed := state.pushed ++ [value], producer := .idle }

inductive ProducesWord (word : Fin width) : State Word width → Prop where
  | free {overwrite : Bool} {value : Words Word width} {todo : Finset (Fin width)}
      (here : state.producer = .writeFree overwrite value state.head todo) :
      ProducesWord word { state with
        slots := state.writeWord capacity state.head value word
        producer := .writeFree overwrite value state.head (todo.erase word) }
  | slot {value : Words Word width} {todo : Finset (Fin width)}
      (here : state.producer = .writeSlot value state.head todo) :
      ProducesWord word { state with
        slots := state.writeWord capacity state.head value word
        producer := .writeSlot value state.head (todo.erase word) }

inductive Consumes [Inhabited Word] : State Word width → Prop where
  | loadTail (here : state.consumer = .loadTail) : Consumes { state with consumer := .loadHead state.tail }
  | loadHead {tail : Nat} (here : state.consumer = .loadHead tail) :
      Consumes { state with consumer := .loadActive tail state.head }
  | empty {tail : Nat} (here : state.consumer = .loadActive tail tail)
      (inactive : state.overwriteActive = false) : Consumes (state.popReturns none)
  | cheap {tail head : Nat} (here : state.consumer = .loadActive tail head)
      (inactive : state.overwriteActive = false) (more : tail ≠ head) :
      Consumes { state with consumer := .cheapCopy tail Finset.univ default }
  | active {tail head : Nat} (here : state.consumer = .loadActive tail head) :
      Consumes { state with consumer := .reloadTail }
  | unchanged {snapshot : Words Word width} (here : state.consumer = .cheapCopy state.tail ∅ snapshot) :
      Consumes { state with consumer := .storeTail state.tail snapshot }
  | changed {tail : Nat} {snapshot : Words Word width} (here : state.consumer = .cheapCopy tail ∅ snapshot) :
      Consumes { state with consumer := .reloadTail }
  | reloadTail (here : state.consumer = .reloadTail) : Consumes { state with consumer := .seqHead state.tail 0 }
  | drained {tail attempt : Nat} (here : state.consumer = .seqHead tail attempt)
      (last : max tail (state.head - capacity.size) = state.head) :
      Consumes (state.popReturns none)
  | clamped {tail attempt : Nat} (here : state.consumer = .seqHead tail attempt)
      (more : max tail (state.head - capacity.size) < state.head) :
      Consumes { state with
        consumer := .seqCopy (max tail (state.head - capacity.size)) attempt Finset.univ default }
  | skip {tail attempt : Nat} {snapshot : Words Word width} (here : state.consumer = .seqCopy tail attempt ∅ snapshot)
      (lapped : tail + capacity.size < begun state.writeSeq)
      (again : attempt + 1 < kMaxSeqlockAttempts) :
      Consumes { state with consumer := .seqHead (tail + 1) (attempt + 1) }
  | giveUp {tail attempt : Nat} {snapshot : Words Word width}
      (here : state.consumer = .seqCopy tail attempt ∅ snapshot)
      (lapped : tail + capacity.size < begun state.writeSeq) : Consumes (state.popReturns none)
  | intact {tail attempt : Nat} {snapshot : Words Word width}
      (here : state.consumer = .seqCopy tail attempt ∅ snapshot)
      (intact : begun state.writeSeq ≤ tail + capacity.size) :
      Consumes { state with consumer := .storeTail tail snapshot }
  | storeTail {tail : Nat} {snapshot : Words Word width} (here : state.consumer = .storeTail tail snapshot) :
      Consumes (State.popReturns { state with tail := tail + 1 } (some (tail, snapshot)))

inductive ConsumesWord (word : Fin width) : State Word width → Prop where
  | cheap {tail : Nat} {todo : Finset (Fin width)} {snapshot : Words Word width}
      (here : state.consumer = .cheapCopy tail todo snapshot) (left : word ∈ todo) :
      ConsumesWord word { state with
        consumer := .cheapCopy tail (todo.erase word)
          (Function.update snapshot word (state.slots (capacity.slot tail) word)) }
  | seq {tail attempt : Nat} {todo : Finset (Fin width)} {snapshot : Words Word width}
      (here : state.consumer = .seqCopy tail attempt todo snapshot) (left : word ∈ todo) :
      ConsumesWord word { state with
        consumer := .seqCopy tail attempt (todo.erase word)
          (Function.update snapshot word (state.slots (capacity.slot tail) word)) }

end

variable {capacity : Capacity} {state after : State Word width} {producer : Producer Word width}
  {consumer : Consumer Word width} {word : Fin width} {head tail tries : Nat}

theorem State.started_of (here : state.producer = producer) : state.started = producer.started state.head := by
  rw [State.started, here]

theorem State.reclaiming_of (here : state.producer = producer) : state.producer.reclaiming = producer.reclaiming := by
  rw [here]

theorem Inv.producerAt (inv : Inv capacity state) (here : state.producer = producer) :
    producer.Valid capacity state :=
  here ▸ inv.producer

theorem Inv.consumerAt (inv : Inv capacity state) (here : state.consumer = consumer) :
    consumer.Valid capacity state :=
  here ▸ inv.consumer

theorem Inv.lt_head (inv : Inv capacity state) {pos : Nat} {value : Words Word width}
    (found : state.pushed[pos]? = some value) : pos < state.head := by
  rw [inv.head_eq]
  exact (List.getElem?_eq_some_iff.mp found).1

theorem reclaimFloor_eq (full : capacity.size ≤ head) (bound : head < positionLimit) :
    State.reclaimFloor capacity head = head - capacity.size + 1 := by
  have word := positionLimit_lt
  rw [State.reclaimFloor, sub64_eq full (by omega), succ64_eq (by omega)]

/-- The attempts of the loop do not run out while the tail is below the floor. -/
theorem RetryBound.passed {floor : Nat} (retry : RetryBound state floor tail tries)
    (ended : ¬ (state.tail < floor ∧ tries + 1 < kMaxReclaimAttempts)) : floor ≤ state.tail := by
  by_contra below
  refine ended ⟨by omega, ?_⟩
  unfold RetryBound at retry
  unfold kMaxReclaimAttempts
  omega

theorem Inv.produces (inv : Inv capacity state) (ran : state.produce capacity = some after) :
    Produces capacity state after := by
  have bound := inv.head_lt
  have limit := positionLimit_lt
  have ordered := inv.tail_le_head
  have valid := inv.producer
  unfold State.produce at ran
  cases here : state.producer with
  | idle =>
    rw [here] at ran
    cases ran
  | loadHead overwrite value =>
    simp only [here] at ran
    cases ran
    exact .loadHead here
  | loadTail overwrite value head =>
    simp only [here, Producer.Valid] at ran valid
    obtain ⟨rfl, -⟩ := valid
    rw [sub64_eq ordered (by omega)] at ran
    split at ran
    case isTrue full =>
      cases overwrite <;> cases ran
      · exact .refuse here (by omega)
      · exact .full here (by omega)
    case isFalse free =>
      cases ran
      exact .free here (by omega)
  | writeFree overwrite value head todo =>
    simp only [here, Producer.Valid] at ran valid
    obtain ⟨rfl, -⟩ := valid
    rw [succ64_eq (by omega)] at ran
    split at ran <;> cases ran
    exact .publishFree (‹todo = ∅› ▸ here)
  | loadSeq value head tail =>
    simp only [here, Producer.Valid] at ran valid
    obtain ⟨rfl, -⟩ := valid
    split at ran <;> cases ran
    · exact .first here
    · exact .again here ‹_›
  | setActive value head tail =>
    simp only [here, Producer.Valid] at ran valid
    obtain ⟨rfl, -⟩ := valid
    cases ran
    exact .setActive here
  | announce value head tail =>
    simp only [here, Producer.Valid] at ran valid
    obtain ⟨rfl, -, full, -⟩ := valid
    rw [State.reclaimOrWrite, reclaimFloor_eq (by omega) bound, if_pos ⟨by omega, by decide⟩] at ran
    cases ran
    exact .announce here
  | reclaim value head tail tries =>
    simp only [here, Producer.Valid] at ran valid
    obtain ⟨rfl, -, full, -, -, retry⟩ := valid
    rw [State.reclaimOrWrite, reclaimFloor_eq (by omega) bound] at ran
    split at ran
    case isTrue unchanged =>
      cases ran
      exact .exchange (unchanged ▸ here)
    case isFalse changed =>
      split at ran <;> cases ran
      case isTrue again => exact .retry here changed (by omega)
      case isFalse ended =>
        have passed := retry.passed ended
        exact .passed here (by omega)
  | countDrop value head =>
    simp only [here, Producer.Valid] at ran valid
    obtain ⟨rfl, -⟩ := valid
    cases ran
    exact .countDrop here
  | writeSlot value head todo =>
    simp only [here, Producer.Valid] at ran valid
    obtain ⟨rfl, -⟩ := valid
    split at ran <;> cases ran
    exact .finishSlot (‹todo = ∅› ▸ here)
  | storeHead value head =>
    simp only [here, Producer.Valid] at ran valid
    obtain ⟨rfl, -⟩ := valid
    rw [succ64_eq (by omega)] at ran
    cases ran
    exact .publishSlot here

theorem Inv.producesWord (inv : Inv capacity state) (ran : state.produceWord capacity word = some after) :
    ProducesWord capacity state word after := by
  have valid := inv.producer
  unfold State.produceWord at ran
  split at ran
  case h_1 here =>
    rw [here] at valid
    obtain ⟨rfl, -⟩ := valid
    split at ran <;> cases ran
    exact .free here
  case h_2 here =>
    rw [here] at valid
    obtain ⟨rfl, -⟩ := valid
    split at ran <;> cases ran
    exact .slot here
  case h_3 => cases ran

theorem consumesWord (ran : state.consumeWord capacity word = some after) :
    ConsumesWord capacity state word after := by
  unfold State.consumeWord at ran
  split at ran
  case h_1 here =>
    split at ran <;> cases ran
    exact .cheap here ‹_›
  case h_2 here =>
    split at ran <;> cases ran
    exact .seq here ‹_›
  case h_3 => cases ran

theorem Inv.consumes [Inhabited Word] (inv : Inv capacity state)
    (ran : state.consume capacity = some after) : Consumes capacity state after := by
  have bound := inv.head_lt.trans positionLimit_lt
  have valid := inv.consumer
  unfold State.consume at ran
  cases here : state.consumer with
  | idle =>
    rw [here] at ran
    cases ran
  | loadTail =>
    simp only [here] at ran
    cases ran
    exact .loadTail here
  | loadHead tail =>
    simp only [here] at ran
    cases ran
    exact .loadHead here
  | loadActive tail head =>
    simp only [here] at ran
    split at ran
    case isTrue inactive =>
      split at ran <;> cases ran
      case isTrue last => exact .empty (last ▸ here) inactive
      case isFalse more => exact .cheap here inactive more
    case isFalse =>
      cases ran
      exact .active here
  | cheapCopy tail todo snapshot =>
    simp only [here] at ran
    split at ran
    case isTrue done =>
      subst done
      split at ran <;> cases ran
      case isTrue unchanged => exact unchanged ▸ .unchanged (unchanged ▸ here)
      case isFalse => exact .changed here
    case isFalse => cases ran
  | reloadTail =>
    simp only [here] at ran
    cases ran
    exact .reloadTail here
  | seqHead tail attempt =>
    simp only [here, Consumer.Valid] at ran valid
    have clamp : (if sub64 state.head tail > capacity.size then
        sub64 state.head capacity.size else tail) = max tail (state.head - capacity.size) := by
      rw [sub64_eq valid.2 bound]
      split
      · rw [sub64_eq (by omega) bound]
        omega
      · omega
    rw [clamp] at ran
    split at ran <;> cases ran
    · exact .drained here ‹_›
    · exact .clamped here (by omega)
  | seqCopy tail attempt todo snapshot =>
    simp only [here, Consumer.Valid] at ran valid
    rw [succ64_eq (by omega)] at ran
    split at ran
    case isTrue done =>
      subst done
      split at ran
      case isTrue lapped =>
        rw [lapped_iff inv.word] at lapped
        split at ran <;> cases ran
        case isTrue again => exact .skip here lapped again
        case isFalse => exact .giveUp here lapped
      case isFalse intact =>
        rw [lapped_iff inv.word, Nat.not_lt] at intact
        cases ran
        exact .intact here intact
    case isFalse => cases ran
  | storeTail tail snapshot =>
    have inside := inv.lt_head (inv.consumerAt here).2
    simp only [here] at ran
    rw [succ64_eq (by omega)] at ran
    cases ran
    exact .storeTail here

end AnimusCore.ShmRing
