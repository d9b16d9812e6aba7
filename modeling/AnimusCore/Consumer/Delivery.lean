import AnimusCore.Consumer.Queue

/-! The events that all Python consumers return are those the producer pushed, in order. A
consumer begins at the tail that the one before it left, and what a handle remembers of the
head is never ahead of it. -/

set_option autoImplicit false

namespace AnimusCore.Consumer

open Lib Lib.Ring Lib.StructFormat SharedMemory List

def eventShape : RecordShape EventField where
  offset field := (ExecutionEvent.member field).1
  width field := (ExecutionEvent.member field).2
  size := executionEvent.size.toNat
  inside field := by cases field <;> decide
  apart first second differ := by
    revert differ
    cases first <;> cases second <;> decide

def eventQueue (capacity : UInt64) (pow2 : isPow2 capacity = true) : SlotQueue EventField where
  shape := eventShape
  capacity := capacity.toNat
  capacity_pos := pos_of_isPow2 pow2
  headAt := 64
  tailAt := 128
  base := 192
  counters_apart := by decide
  head_below := by decide
  tail_below := by decide

private theorem fits_raw (event : ExecutionEvent) : eventShape.Fits event.raw := by
  intro field
  cases field with
  | sequence => exact event.sequence.toNat_lt
  | dispatchTsRaw => exact event.dispatchTsRaw.toNat_lt
  | priceTicks => exact event.priceTicks.toUInt64.toNat_lt
  | quantity => exact event.quantity.toUInt64.toNat_lt
  | instrumentId => exact event.instrumentId.toNat_lt
  | flags => exact event.flags.toNat_lt

/-- What Python unpacks from the bytes of a member is its value. -/
theorem decode_raw (event : ExecutionEvent) (field : EventField) : { recordItem field with offset := 0 }.decode
      (toLE (ExecutionEvent.member field).2 (event.raw field)) = event.value field := by
  have number : fromLE (((toLE (ExecutionEvent.member field).2 (event.raw field)).drop 0).take
      (ExecutionEvent.member field).2) = event.raw field := by
    rw [drop_zero, take_of_length_le (Nat.le_of_eq (length_toLE ..))]
    exact fromLE_toLE_of_lt (fits_raw event field)
  cases field with
  | sequence | dispatchTsRaw | instrumentId => exact congrArg (fun n : Nat => Value.int n) number
  | priceTicks | quantity =>
    exact congrArg (fun n : Nat => Value.int (if 2 * n < 256 ^ 8 then (n : Int) else n - 256 ^ 8)) number
  | flags => exact congrArg (fun n : Nat => Value.int n) number

private theorem and_mask {capacity : UInt64} (pow2 : isPow2 capacity = true) (index : Nat) :
    index &&& (capacity - 1).toNat = index % capacity.toNat := by
  have positive := pos_of_isPow2 pow2
  have atLeast : (1 : UInt64) ≤ capacity := UInt64.le_iff_toNat_le.mpr positive
  have size : Ring.isPow2 capacity.toNat = true := by
    simp only [SharedMemory.isPow2, Bool.and_eq_true, decide_eq_true_eq, beq_iff_eq] at pow2
    have bits := congrArg UInt64.toNat pow2.2
    rw [UInt64.toNat_and, UInt64.toNat_sub_of_le _ _ atLeast] at bits
    simp only [Ring.isPow2, Bool.and_eq_true, decide_eq_true_eq, beq_iff_eq]
    exact ⟨UInt64.le_iff_toNat_le.mp pow2.1, bits⟩
  rw [UInt64.toNat_sub_of_le _ _ atLeast]
  exact Capacity.slot_eq_mod ⟨capacity.toNat, size⟩ index

/-- The words that nobody writes while a consumer is constructed. -/
def known (capacity : UInt64) (taken : Nat) : Nat → Option UInt64
  | 0 => some 0x5350534351554555
  | 8 => some capacity
  | 16 => some (capacity - 1)
  | 24 => some 40
  | 128 => some (UInt64.ofNat taken)
  | _ => none

section
variable (capacity : UInt64)

structure HandleInv (count taken : Nat) (handle : Handle) : Prop where
  mask : handle.mask = (capacity - 1).toNat
  tail : handle.tail = taken
  ordered : taken ≤ handle.cachedHead
  seen : handle.cachedHead ≤ count

def ReaderKnows (pushed : List ExecutionEvent) (taken : Nat) : Reader → Prop
  | .absent => True
  | .attaching (.done _) => False
  | .attaching (.load offset next) => (Loads.load offset next).Finds (known capacity taken)
      ⟨capacity, capacity - 1, UInt64.ofNat taken⟩
  | .ready handle => HandleInv capacity pushed.length taken handle
  | .popping handle .loadHead => HandleInv capacity pushed.length taken handle
  | .popping handle (.read todo out) => HandleInv capacity pushed.length taken handle ∧
      taken < handle.cachedHead ∧ ∃ event, pushed[taken]? = some event ∧
        ∀ field, field ∉ todo → out field = event.value field

variable (queue : SlotQueue EventField)

def PushKnows (memory : Memory) (count taken : Nat) (call : PushCall) : Prop :=
  match call.point with
  | .loadHead => True
  | .compare head | .loadTail head | .recheck head => head = count
  | .index head => head = count ∧ head < taken + queue.capacity
  | .write head slot todo => head = count ∧ head < taken + queue.capacity ∧
      slot = head % queue.capacity ∧ queue.Filled memory head todo call.event.raw

structure PushInv (state : State) (call : PushCall) : Prop where
  covers : ∀ field, field ∈ call.order
  knows : PushKnows queue state.memory state.pushed.length state.returned.length call

def State.records (state : State) : List (EventField → Nat) :=
  state.pushed.map ExecutionEvent.raw

structure Inv (state : State) : Prop where
  carries : queue.Carries state.memory state.records state.returned.length
  described : QueueRing.Described executionEvent capacity .spscQueue state.memory
  returned : state.returned <+: state.pushed.map ExecutionEvent.value
  cached : state.cachedTail ≤ state.returned.length
  push : ∀ call, state.push = some call → PushInv queue state call
  reader : ReaderKnows capacity state.pushed state.returned.length state.reader

end

@[simp] theorem State.length_records (state : State) : state.records.length = state.pushed.length := length_map ..

section
variable {capacity : UInt64} {pushed : List ExecutionEvent} {taken : Nat}

theorem HandleInv.append {handle : Handle} (inv : HandleInv capacity pushed.length taken handle)
    (event : ExecutionEvent) : HandleInv capacity (pushed ++ [event]).length taken handle := by
  refine ⟨inv.mask, inv.tail, inv.ordered, ?_⟩
  rw [length_append]
  exact Nat.le_add_right_of_le inv.seen

theorem ReaderKnows.append {reader : Reader} (knows : ReaderKnows capacity pushed taken reader)
    (event : ExecutionEvent) : ReaderKnows capacity (pushed ++ [event]) taken reader := by
  match reader, knows with
  | .absent, _ => exact trivial
  | .attaching (.load _ _), knows => exact knows
  | .ready _, knows => exact HandleInv.append knows event
  | .popping _ .loadHead, knows => exact HandleInv.append knows event
  | .popping _ (.read _ _), ⟨inv, more, oldest, found, copied⟩ =>
    have before := (List.getElem?_eq_some_iff.mp found).1
    exact ⟨inv.append event, more, oldest, by rwa [List.getElem?_append_left before], copied⟩

theorem PushKnows.take {queue : SlotQueue EventField} {memory : Memory} {count : Nat}
    {call : PushCall} (knows : PushKnows queue memory count taken call) :
    PushKnows queue (memory.store (queue.tailStore (taken + 1))) count (taken + 1) call := by
  unfold PushKnows at knows ⊢
  split at knows
  · exact trivial
  · exact knows
  · exact knows
  · exact knows
  · exact ⟨knows.1, by omega⟩
  · obtain ⟨same, room, place, filled⟩ := knows
    exact ⟨same, by omega, place, filled.store (SlotQueue.tailStore_apart_part _ _)⟩

theorem finds_loads {length : Nat} (pow2 : isPow2 capacity = true) (room : 192 + capacity.toNat * 40 ≤ length) :
    (SpscQueueConsumer.loads length).Finds (known capacity taken) ⟨capacity, capacity - 1, UInt64.ofNat taken⟩ := by
  have header : decide (192 ≤ length) = true := decide_eq_true (by omega)
  have valid : (isPow2 capacity && capacity - 1 == capacity - 1) = true := by
    rw [pow2, beq_self_eq_true]
    rfl
  refine Loads.finds_check header (Loads.finds_require rfl rfl ?_)
  refine ⟨capacity, rfl, capacity - 1, rfl, 40, rfl, ?_⟩
  refine Loads.finds_check rfl (Loads.finds_check valid (Loads.finds_check ?_ ?_))
  · exact decide_eq_true room
  · exact ⟨UInt64.ofNat taken, rfl, rfl⟩

theorem readerKnows_constructing {loads : Loads SpscQueueConsumer} (small : taken < 2 ^ 64)
    (ordered : taken ≤ pushed.length)
    (finds : loads.Finds (known capacity taken) ⟨capacity, capacity - 1, UInt64.ofNat taken⟩) :
    ReaderKnows capacity pushed taken (.constructing loads) := by
  match loads, finds with
  | .done _, rfl =>
    have tail : (UInt64.ofNat taken).toNat = taken := UInt64.toNat_ofNat_of_lt' small
    refine ⟨rfl, tail, ?_, ?_⟩
    · exact Nat.le_of_eq tail.symm
    · rw [tail]
      exact ordered
  | .load _ _, finds => exact finds

end

def PushCall.rank (call : PushCall) : Nat :=
  match call.point with
  | .write _ _ todo => todo.length
  | .index _ => call.order.length + 1
  | .recheck _ => call.order.length + 2
  | .loadTail _ => call.order.length + 3
  | .compare _ => call.order.length + 4
  | .loadHead => call.order.length + 5

def PushCall.AtStore (call : PushCall) : Prop := ∃ head slot, call.point = .write head slot []

inductive PushOutcome (capacity : UInt64) (state : State) (call : PushCall) (next : State) : Prop where
  | moved (point : PushPoint) : next.push = some { call with point } →
      next.pushed = state.pushed → { call with point }.rank < call.rank →
      (∀ head, point = .recheck head → next.cachedTail = state.returned.length) →
      PushOutcome capacity state call next
  | refused (head : Nat) : call.point = .recheck head →
      sub64 state.pushed.length state.cachedTail ≥ capacity.toNat → next.push = none →
      next.pushed = state.pushed → PushOutcome capacity state call next
  | accepted : call.AtStore → next.push = none → next.pushed = state.pushed ++ [call.event] →
      PushOutcome capacity state call next

structure PushMove (capacity : UInt64) (state : State) (call : PushCall) (next : State) : Prop where
  reader_eq : next.reader = state.reader
  returned_eq : next.returned = state.returned
  outcome : PushOutcome capacity state call next

def PopPoint.rank : PopPoint → Nat
  | .loadHead => EventField.all.length + 1
  | .read todo _ => todo.length

inductive PopOutcome (state : State) (point : PopPoint) (next : State) : Prop where
  | moved (handle : Handle) (other : PopPoint) : next.reader = .popping handle other →
      next.returned = state.returned → other.rank < point.rank → PopOutcome state point next
  | found_empty (handle : Handle) : next.reader = .ready handle →
      next.returned = state.returned → state.returned.length = state.pushed.length →
      PopOutcome state point next
  | returns (handle : Handle) (event : EventField → Value) : next.reader = .ready handle →
      next.returned = state.returned ++ [event] → PopOutcome state point next

structure PopMove (state : State) (point : PopPoint) (next : State) : Prop where
  push_eq : next.push = state.push
  pushed_eq : next.pushed = state.pushed
  outcome : PopOutcome state point next

section
variable {capacity : UInt64} {pow2 : isPow2 capacity = true} {state : State}

namespace Inv

variable (inv : Inv capacity (eventQueue capacity pow2) state)
include inv

theorem readHead : state.memory.readLE 64 8 = some state.pushed.length := by
  rw [← state.length_records]
  exact inv.carries.readHead

theorem readTail : state.memory.readLE 128 8 = some state.returned.length :=
  inv.carries.readTail

private theorem readCapacity : state.memory.readLE 8 8 = some capacity.toNat :=
  Memory.readLE_of_word inv.described.capacity

private theorem readMask : state.memory.readLE 16 8 = some (capacity - 1).toNat :=
  Memory.readLE_of_word inv.described.mask

theorem returned_le : state.returned.length ≤ state.pushed.length := by
  have le := inv.carries.taken_le
  rwa [state.length_records] at le

theorem pushed_le : state.pushed.length ≤ state.returned.length + capacity.toNat := by
  have le := inv.carries.bounded
  rwa [state.length_records] at le

theorem word_of_known {offset : Nat} {word : UInt64}
    (found : known capacity state.returned.length offset = some word) : state.memory.word offset = some word := by
  have small := inv.carries.small
  have ordered := inv.carries.taken_le
  have tail : (UInt64.ofNat state.returned.length).toNat = state.returned.length :=
    UInt64.toNat_ofNat_of_lt' (show state.returned.length < 2 ^ 64 by omega)
  unfold known at found
  split at found
  · cases found
    exact inv.described.magic
  · cases found
    exact inv.described.capacity
  · cases found
    exact inv.described.mask
  · cases found
    exact inv.described.payloadSize
  · cases found
    apply Memory.word_of_holds
    change state.memory.Holds 128 (toLE 8 (UInt64.ofNat state.returned.length).toNat)
    rw [tail]
    exact inv.carries.tail
  · cases found

variable {call : PushCall}

theorem pushAt {point : PushPoint} (known : PushInv (eventQueue capacity pow2) state { call with point }) :
    Inv capacity (eventQueue capacity pow2) (state.pushAt call point) :=
  { inv with
    push := fun other same => by
      cases same
      exact ⟨known.covers, known.knows⟩ }

theorem readerAt {reader : Reader} (knows : ReaderKnows capacity state.pushed state.returned.length reader) :
    Inv capacity (eventQueue capacity pow2) { state with reader } :=
  { inv with
    push := fun other active =>
      ⟨(inv.push other active).covers, (inv.push other active).knows⟩
    reader := knows }

private theorem described_store {entry : Store} (beyond : 32 ≤ entry.offset) :
    QueueRing.Described executionEvent capacity .spscQueue (state.memory.store entry) :=
  inv.described.congr fun _ before => Memory.store_of_apart (.inr (by omega))

theorem write {field : EventField} {rest : List EventField} (known : PushInv (eventQueue capacity pow2) state call)
    (room : state.pushed.length < state.returned.length + capacity.toNat)
    (filled : (eventQueue capacity pow2).Filled state.memory state.pushed.length (field :: rest) call.event.raw) :
    Inv capacity (eventQueue capacity pow2)
      ({ state with memory := state.memory.store ((eventQueue capacity pow2).partStore
        state.pushed.length field (call.event.raw field)) }.pushAt call
        (.write state.pushed.length (state.pushed.length % capacity.toNat) rest)) where
  carries := by
    have written := inv.carries.write (by rwa [state.length_records]) field (call.event.raw field)
    rwa [state.length_records] at written
  described := inv.described_store (Nat.le_trans (show 32 ≤ 192 by decide)
      (@SlotQueue.base_le_partAt _ (eventQueue capacity pow2) state.pushed.length field))
  returned := inv.returned
  cached := inv.cached
  push other same := by
    cases same
    exact ⟨known.covers, rfl, room, rfl, filled.part⟩
  reader := inv.reader

theorem publish (small : state.pushed.length + 1 < 2 ^ 64)
    (room : state.pushed.length < state.returned.length + capacity.toNat)
    (filled : (eventQueue capacity pow2).Filled state.memory state.pushed.length [] call.event.raw) :
    Inv capacity (eventQueue capacity pow2) { state with
        memory := state.memory.store ((eventQueue capacity pow2).headStore (state.pushed.length + 1))
        push := none
        pushed := state.pushed ++ [call.event] } where
  carries := by
    have published := @SlotQueue.Carries.publish _ _ _ _ _ inv.carries call.event.raw
      (by rwa [state.length_records]) (by rwa [state.length_records])
      (by rwa [state.length_records])
    rw [state.length_records] at published
    rw [State.records, map_append]
    exact published
  described := inv.described_store (show 32 ≤ 64 by decide)
  returned := by
    rw [map_append]
    exact inv.returned.trans (prefix_append _ _)
  cached := inv.cached
  push := nofun
  reader := inv.reader.append call.event

variable {handle : Handle} {event : ExecutionEvent}

theorem take (known : HandleInv capacity state.pushed.length state.returned.length handle)
    (oldest : state.pushed[state.returned.length]? = some event) (more : state.returned.length < handle.cachedHead) :
    Inv capacity (eventQueue capacity pow2) { state with
        memory := state.memory.store ((eventQueue capacity pow2).tailStore (state.returned.length + 1))
        reader := .ready { handle with tail := state.returned.length + 1 }
        returned := state.returned ++ [event.value] } where
  carries := by
    have before := (List.getElem?_eq_some_iff.mp oldest).1
    have taken := inv.carries.take (by rwa [state.length_records])
    rw [length_append]
    exact taken
  described := inv.described_store (show 32 ≤ 128 by decide)
  returned := by
    have found : (state.pushed.map ExecutionEvent.value)[state.returned.length]? = some event.value := by
      rw [List.getElem?_map, oldest, Option.map_some]
    obtain ⟨before, same⟩ := List.getElem?_eq_some_iff.mp found
    have front := prefix_iff_eq_take.mp inv.returned
    have next := take_append_getElem before
    rw [← front, same] at next
    rw [next]
    exact take_prefix _ _
  cached := by
    rw [length_append]
    exact Nat.le_add_right_of_le inv.cached
  push other active := by
    refine ⟨(inv.push other active).covers, ?_⟩
    rw [length_append]
    exact (inv.push other active).knows.take
  reader := by
    rw [length_append]
    exact ⟨known.mask, rfl, more, known.seen⟩

variable {next : State}

theorem tryPush {order : List EventField} (begun : state.tryPush event order = some next) :
    Inv capacity (eventQueue capacity pow2) next := by
  unfold State.tryPush at begun
  split at begun
  case h_1 => cases begun
  case h_2 =>
    split at begun
    case isFalse => cases begun
    case isTrue copies =>
      cases begun
      have covers (field : EventField) : field ∈ order :=
        (isPerm_iff.mp copies).mem_iff.mpr (by cases field <;> decide)
      exact @Inv.pushAt _ _ _ inv ⟨event, order, .loadHead⟩ _ ⟨covers, trivial⟩

/-- What the comparison with the cached tail tells. -/
theorem lt_of_not_le (free : ¬ sub64 state.pushed.length state.cachedTail ≥ capacity.toNat) :
    state.pushed.length < state.returned.length + capacity.toNat := by
  have cached := inv.cached
  have ordered := inv.returned_le
  have small := inv.carries.small
  rw [state.length_records] at small
  rw [sub64_eq (Nat.le_trans cached ordered) small] at free
  omega

theorem pushStep (active : state.push = some call) (small : call.AtStore → state.pushed.length + 1 < 2 ^ 64) :
    ∃ next, state.pushStep = some next ∧ Inv capacity (eventQueue capacity pow2) next ∧
      PushMove capacity state call next := by
  have known := inv.push call active
  have holds := known.knows
  obtain ⟨event, order, point⟩ := call
  simp only [State.pushStep, active]
  cases point with
  | loadHead =>
    rw [show state.memory.readLE SpscQueue.headOffset 8 = _ from inv.readHead]
    exact ⟨_, rfl, inv.pushAt ⟨known.covers, rfl⟩, rfl, rfl, .moved _ rfl rfl (Nat.lt_succ_self _) nofun⟩
  | compare head =>
    cases holds
    rw [show state.memory.readLE SpscQueue.capacityOffset 8 = _ from inv.readCapacity]
    simp only [Option.map_some]
    split
    case isTrue =>
      exact ⟨_, rfl, inv.pushAt ⟨known.covers, rfl⟩, rfl, rfl, .moved _ rfl rfl (Nat.lt_succ_self _) nofun⟩
    case isFalse free =>
      exact ⟨_, rfl, inv.pushAt ⟨known.covers, rfl, inv.lt_of_not_le free⟩, rfl, rfl,
        .moved _ rfl rfl (Nat.add_lt_add_left (by decide) _)
          nofun⟩
  | loadTail head =>
    cases holds
    rw [show state.memory.readLE SpscQueue.tailOffset 8 = _ from inv.readTail]
    refine ⟨_, rfl, ?_, rfl, rfl, .moved _ rfl rfl (Nat.lt_succ_self _) (fun _ _ => rfl)⟩
    exact { inv with
      cached := Nat.le_refl _
      push := fun other same => by
        cases same
        exact ⟨known.covers, rfl⟩ }
  | recheck head =>
    cases holds
    rw [show state.memory.readLE SpscQueue.capacityOffset 8 = _ from inv.readCapacity]
    simp only [Option.map_some]
    split
    case isTrue full =>
      exact ⟨_, rfl, { inv with push := nofun }, rfl, rfl, .refused _ rfl full rfl rfl⟩
    case isFalse free =>
      exact ⟨_, rfl, inv.pushAt ⟨known.covers, rfl, inv.lt_of_not_le free⟩, rfl, rfl,
        .moved _ rfl rfl (Nat.lt_succ_self _) nofun⟩
  | index head =>
    obtain ⟨rfl, room⟩ := holds
    rw [show state.memory.readLE SpscQueue.maskOffset 8 = _ from inv.readMask]
    simp only [Option.map_some, and_mask pow2]
    exact ⟨_, rfl, inv.pushAt ⟨known.covers, rfl, room, rfl, SlotQueue.filled_of_all known.covers⟩, rfl, rfl,
      .moved _ rfl rfl (Nat.lt_succ_self _) nofun⟩
  | write head slot todo =>
    obtain ⟨rfl, room, rfl, filled⟩ := holds
    cases todo with
    | nil =>
      have stored := inv.carries.store?_head (state.pushed.length + 1)
      dsimp only
      rw [show state.memory.store? ⟨SpscQueue.headOffset, _⟩ = _ from stored]
      exact ⟨_, rfl, inv.publish (small ⟨_, _, rfl⟩) room filled, rfl, rfl, .accepted ⟨_, _, rfl⟩ rfl rfl⟩
    | cons field rest =>
      have stored := inv.carries.store?_part state.pushed.length field (event.raw field)
      dsimp only
      rw [show state.memory.store? ⟨SpscQueue.slotOffset _ field,
        toLE (ExecutionEvent.member field).2 _⟩ = _ from stored]
      exact ⟨_, rfl, inv.write known room filled, rfl, rfl, .moved _ rfl rfl (Nat.lt_succ_self _) nofun⟩

theorem attach {length : Nat} (room : 192 + capacity.toNat * 40 ≤ length)
    (begun : state.attach length = some next) : Inv capacity (eventQueue capacity pow2) next := by
  have small := inv.carries.small
  have ordered := inv.returned_le
  rw [state.length_records] at small
  unfold State.attach at begun
  split at begun
  case h_1 =>
    cases begun
    exact inv.readerAt (readerKnows_constructing (by omega) ordered (finds_loads pow2 room))
  case h_2 => cases begun

theorem attachStep {loads : Loads SpscQueueConsumer} (active : state.reader = .attaching loads) :
    ∃ next, state.attachStep = some next ∧ Inv capacity (eventQueue capacity pow2) next := by
  have small := inv.carries.small
  have ordered := inv.returned_le
  rw [state.length_records] at small
  have knows := inv.reader
  rw [active] at knows
  simp only [State.attachStep, active]
  cases loads with
  | done found => exact knows.elim
  | load offset following =>
    obtain ⟨word, found, finds⟩ := knows
    simp only [inv.word_of_known found, Option.map_some]
    exact ⟨_, rfl, inv.readerAt (readerKnows_constructing (by omega) ordered finds)⟩

theorem beginRead (known : HandleInv capacity state.pushed.length state.returned.length handle)
    (more : handle.tail ≠ handle.cachedHead) : Inv capacity (eventQueue capacity pow2) (state.beginRead handle) := by
  have before : state.returned.length < handle.cachedHead :=
    Nat.lt_of_le_of_ne known.ordered (by rw [← known.tail]; exact more)
  have inside : state.returned.length < state.pushed.length := Nat.lt_of_lt_of_le before known.seen
  exact inv.readerAt ⟨known, before, _, List.getElem?_eq_getElem inside,
    fun field outside => absurd (by cases field <;> decide) outside⟩

theorem tryPop (begun : state.tryPop = some next) : Inv capacity (eventQueue capacity pow2) next := by
  have knows := inv.reader
  unfold State.tryPop at begun
  split at begun
  case h_2 => cases begun
  case h_1 handle active =>
    rw [active] at knows
    split at begun
    case isTrue =>
      cases begun
      exact inv.readerAt knows
    case isFalse more =>
      cases begun
      exact inv.beginRead knows more

theorem unpackItem (oldest : state.pushed[state.returned.length]? = some event) (field : EventField) :
    unpackItem state.memory (state.returned.length % capacity.toNat) (recordItem field) =
      some (event.value field) := by
  have found : state.records[state.returned.length]? = some event.raw := by
    rw [State.records, List.getElem?_map, oldest, Option.map_some]
  have held := inv.carries.records _ _ (Nat.le_refl _) found field not_mem_nil
  rw [Memory.Holds, length_toLE] at held
  have place : headerSize + state.returned.length % capacity.toNat * recordFormat.size +
      (recordItem field).offset = (eventQueue capacity pow2).partAt state.returned.length field := by
    cases field <;> rfl
  have width : (recordItem field).width = (ExecutionEvent.member field).2 := by
    cases field <;> rfl
  have read : state.memory.read (headerSize + state.returned.length % capacity.toNat *
      recordFormat.size + (recordItem field).offset) (recordItem field).width =
        some (toLE (ExecutionEvent.member field).2 (event.raw field)) := by
    rw [place, width]
    exact held
  rw [Consumer.unpackItem, read, Option.map_some]
  exact congrArg some (decode_raw event field)

theorem popStep {point : PopPoint} (active : state.reader = .popping handle point) :
    ∃ next, state.popStep = some next ∧ Inv capacity (eventQueue capacity pow2) next ∧ PopMove state point next := by
  have knows := inv.reader
  have ordered := inv.returned_le
  rw [active] at knows
  simp only [State.popStep, active]
  cases point with
  | loadHead =>
    rw [show state.memory.readLE headOff 8 = _ from inv.readHead]
    simp only [Option.map_some]
    have seen : HandleInv capacity state.pushed.length state.returned.length
        { handle with cachedHead := state.pushed.length } :=
      ⟨knows.mask, knows.tail, ordered, Nat.le_refl _⟩
    split
    case isTrue same =>
      exact ⟨_, rfl, inv.readerAt seen, rfl, rfl, .found_empty _ rfl rfl (knows.tail.symm.trans same)⟩
    case isFalse more =>
      exact ⟨_, rfl, inv.beginRead seen more, rfl, rfl, .moved _ _ rfl rfl (Nat.lt_succ_self _)⟩
  | read todo out =>
    obtain ⟨known, more, event, oldest, copied⟩ := knows
    cases todo with
    | nil =>
      obtain rfl : out = event.value := funext fun field => copied field not_mem_nil
      have less : state.returned.length + 1 < 2 ^ 64 := by
        have before := (List.getElem?_eq_some_iff.mp oldest).1
        have small := inv.carries.small
        rw [state.length_records] at small
        omega
      have stored := inv.carries.store?_tail (state.returned.length + 1)
      simp only [known.tail, if_pos less]
      rw [show state.memory.store? ⟨tailOff, _⟩ = _ from stored]
      exact ⟨_, rfl, inv.take known oldest more, rfl, rfl, .returns _ _ rfl rfl⟩
    | cons field rest =>
      simp only [known.tail, known.mask, and_mask pow2, inv.unpackItem oldest field, Option.map_some]
      refine ⟨_, rfl, inv.readerAt ⟨known, more, event, oldest, fun other outside => ?_⟩,
        rfl, rfl, .moved _ _ rfl rfl (Nat.lt_succ_self _)⟩
      by_cases same : other = field
      · rw [same, Function.update_self]
      · rw [Function.update_of_ne same]
        exact copied other fun inside => (mem_cons.mp inside).elim same outside

end Inv

theorem Inv.step {length : Nat} {next : State} {action : Action}
    (inv : Inv capacity (eventQueue capacity pow2) state) (room : 192 + capacity.toNat * 40 ≤ length)
    (few : FewEvents state action) (ran : Consumer.step length state action = some next) :
    Inv capacity (eventQueue capacity pow2) next := by
  cases action with
  | tryPush event order => exact inv.tryPush ran
  | attach => exact inv.attach room ran
  | tryPop => exact inv.tryPop ran
  | stop =>
    change state.stop = some next at ran
    unfold State.stop at ran
    split at ran
    case h_1 =>
      cases ran
      exact inv.readerAt trivial
    case h_2 => cases ran
  | pushStep =>
    cases active : state.push with
    | none => simp [Consumer.step, State.pushStep, active] at ran
    | some call =>
      obtain ⟨after, stepped, kept, -⟩ := inv.pushStep active fun _ => few
      rw [Consumer.step, stepped] at ran
      cases ran
      exact kept
  | attachStep =>
    cases active : state.reader with
    | attaching loads =>
      obtain ⟨after, stepped, kept⟩ := inv.attachStep active
      rw [Consumer.step, stepped] at ran
      cases ran
      exact kept
    | _ => simp [Consumer.step, State.attachStep, active] at ran
  | popStep =>
    cases active : state.reader with
    | popping handle point =>
      obtain ⟨after, stepped, kept, -⟩ := inv.popStep active
      rw [Consumer.step, stepped] at ran
      cases ran
      exact kept
    | _ => simp [Consumer.step, State.popStep, active] at ran

private theorem counters_zero (memory : Memory) :
    (memory.storeAll (QueueRing.spscQueue.stores .line64 executionEvent capacity)).Holds 64 (toLE 8 0) ∧
      (memory.storeAll (QueueRing.spscQueue.stores .line64 executionEvent capacity)).Holds 128 (toLE 8 0) := by
  have apart : Store.NoOverlap ((QueueRing.spscQueue.cursors .line64).map (Store.word · 0) ++
      ([.word 8 capacity, .word 16 (capacity - 1), .word 24 executionEvent.size] ++
        [.word 0 QueueRing.spscQueue.magic])) := by
    simp [Store.NoOverlap, Store.Apart, QueueRing.cursors, CacheLine.bytes]
  constructor
  · exact Memory.storeAll_holds apart (mem_append_left _ (mem_cons_self ..))
  · exact Memory.storeAll_holds apart (mem_append_left _ (mem_cons_of_mem _ (mem_cons_self ..)))

theorem inv_start {segment fresh : Segment}
    (initialised : QueueRing.spscQueue.init .line64 executionEvent segment capacity = some (some fresh))
    (room : 192 + capacity.toNat * 40 ≤ fresh.size.toNat) :
    Inv capacity (eventQueue capacity pow2) (start fresh) := by
  obtain ⟨-, -, -, -, image⟩ := QueueRing.of_init initialised
  obtain ⟨head, tail⟩ := @counters_zero capacity segment.image
  rw [← image] at head tail
  exact {
    carries := SlotQueue.carries_nil
      (fun offset inside => fresh.mapped offset (Nat.lt_of_lt_of_le inside room)) head tail
    described := by
      change QueueRing.Described executionEvent capacity .spscQueue fresh.image
      rw [image]
      exact QueueRing.described segment.image
    returned := nil_prefix
    cached := Nat.le_refl 0
    push := nofun
    reader := trivial }

end

end AnimusCore.Consumer
