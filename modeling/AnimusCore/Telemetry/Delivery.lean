import AnimusCore.Telemetry.Ring

/-! Both languages keep one invariant: the counters and slots carry the records that were
pushed and not yet popped, whichever side wrote or read them. -/

set_option autoImplicit false

namespace AnimusCore.Telemetry

open Lib Lib.Ring Lib.StructFormat SharedMemory List

def recordShape : RecordShape RecordField where
  offset field := (SharedTelemetryChannel.member field).offset
  width field := (SharedTelemetryChannel.member field).width
  size := telemetryRecordSize.toNat
  inside field := by cases field <;> decide
  apart first second differ := by
    revert differ
    cases first <;> cases second <;> decide

def ringQueue (capacity : Nat) (positive : 0 < capacity) : SlotQueue RecordField where
  shape := recordShape
  capacity := capacity
  capacity_pos := positive
  headAt := 8
  tailAt := 16
  base := 24
  counters_apart := by decide
  head_below := by decide
  tail_below := by decide

private theorem fits_field (record : SharedTelemetryRecord) : recordShape.Fits record.field := by
  intro field
  cases field with
  | timestampCycles => exact record.timestampCycles.toNat_lt
  | eventId => exact record.eventId.toNat_lt
  | traceId => exact record.traceId.toNat_lt
  | metricValue => exact record.metricValue.toNat_lt

namespace Side

private theorem header_eq (side : Side) (field : HeaderField) : side.header field = SharedTelemetryChannel.header field := by
  cases side <;> cases field <;> rfl

private theorem record_eq (side : Side) (slot : Nat) (field : RecordField) :
    side.record slot field = SharedTelemetryChannel.record slot field := by
  cases side <;> cases field <;> rfl

private theorem storeCounter_counters {side : Side} {count : Nat} (small : count < 2 ^ 64) (memory : Memory) :
    side.storeCounter side.headCell memory count = memory.store? ⟨8, toLE 8 count⟩ ∧
      side.storeCounter side.tailCell memory count = memory.store? ⟨16, toLE 8 count⟩ := by
  cases side with
  | cpp => exact ⟨rfl, rfl⟩
  | python capacity => exact ⟨if_pos small, if_pos small⟩

private theorem mem_of_mayCopy {side : Side} {order : List RecordField}
    (copies : side.mayCopy order = true) (field : RecordField) : field ∈ order := by
  have all : field ∈ RecordField.all := by cases field <;> decide
  cases side with
  | cpp => exact (isPerm_iff.mp copies).mem_iff.mpr all
  | python capacity =>
    rw [eq_of_beq copies]
    exact all

def Knows (capacity : Nat) : Side → Prop
  | cpp => True
  | python own => own = capacity

end Side

private theorem slotOf_eq {index capacity : Nat} (positive : 0 < capacity) :
    slotOf index capacity = some (index % capacity) :=
  if_neg (Nat.ne_of_gt positive)

def State.records (state : State) : List (RecordField → Nat) :=
  state.pushed.map SharedTelemetryRecord.field

section
variable (queue : SlotQueue RecordField)

/-- What a push knows: no one else moves the head, and the tail only grows. -/
def PushKnows (memory : Memory) (count taken : Nat) (call : PushCall) : Prop :=
  match call.point with
  | .loadCapacity | .loadHead => True
  | .loadTail head => head = count
  | .compare head tail => head = count ∧ tail ≤ taken ∧ tail ≤ head ∧
      head ≤ tail + queue.capacity ∧ call.pending = head - tail
  | .index head => head = count ∧ head < taken + queue.capacity
  | .write head slot todo => head = count ∧ head < taken + queue.capacity ∧
      slot = head % queue.capacity ∧ queue.Filled memory head todo call.record.field

/-- What a pop knows: no one else moves the tail, and the history only grows. -/
def PopKnows (pushed : List (RecordField → Nat)) (taken : Nat) (call : PopCall) : Prop :=
  match call.point with
  | .loadCapacity | .loadHead none | .loadTail none => True
  | .loadHead (some tail) => tail = taken
  | .loadTail (some head) => taken ≤ head ∧ head ≤ pushed.length ∧ call.pending = head - taken
  | .index tail => tail = taken ∧ taken < pushed.length
  | .read tail slot todo out => tail = taken ∧ slot = tail % queue.capacity ∧
      ∃ record, pushed[taken]? = some record ∧ ∀ field, field ∉ todo → out field = record field

structure PushInv (state : State) (call : PushCall) : Prop where
  room : state.pushed.length + 1 < 2 ^ 64
  covers : ∀ field, field ∈ call.order
  knows : PushKnows queue state.memory state.pushed.length state.popped.length call

structure PopInv (state : State) (call : PopCall) : Prop where
  covers : ∀ field, field ∈ call.order
  knows : PopKnows queue state.records state.popped.length call

structure Inv (state : State) : Prop where
  carries : queue.Carries state.memory state.records state.popped.length
  described : state.memory.Holds 0 (toLE 8 queue.capacity)
  popped : state.popped <+: state.records
  push : ∀ call, state.push = some call → PushInv queue state call
  pop : ∀ call, state.pop = some call → PopInv queue state call
  full : ∀ attempt ∈ state.pushes, attempt.succeeded = false → attempt.pending = queue.capacity
  empty : ∀ attempt ∈ state.pops, attempt.succeeded = false → attempt.pending = 0

end

@[simp] theorem State.length_records (state : State) : state.records.length = state.pushed.length := length_map ..

theorem PopKnows.append {queue : SlotQueue RecordField} {pushed : List (RecordField → Nat)}
    {taken : Nat} {call : PopCall} (knows : PopKnows queue pushed taken call)
    (more : List (RecordField → Nat)) : PopKnows queue (pushed ++ more) taken call := by
  unfold PopKnows at knows ⊢
  have grown : pushed.length ≤ (pushed ++ more).length := by
    rw [length_append]
    exact Nat.le_add_right _ _
  split at knows
  · exact trivial
  · exact trivial
  · exact trivial
  · exact knows
  · exact ⟨knows.1, Nat.le_trans knows.2.1 grown, knows.2.2⟩
  · exact ⟨knows.1, Nat.lt_of_lt_of_le knows.2 grown⟩
  · obtain ⟨same, place, record, found, copied⟩ := knows
    have before := (List.getElem?_eq_some_iff.mp found).1
    exact ⟨same, place, record, by rwa [List.getElem?_append_left before], copied⟩

theorem PushKnows.take {queue : SlotQueue RecordField} {memory : Memory} {count taken : Nat}
    {call : PushCall} (knows : PushKnows queue memory count taken call) :
    PushKnows queue (memory.store (queue.tailStore (taken + 1))) count (taken + 1) call := by
  unfold PushKnows at knows ⊢
  split at knows
  · exact trivial
  · exact trivial
  · exact knows
  · exact ⟨knows.1, Nat.le_succ_of_le knows.2.1, knows.2.2⟩
  · exact ⟨knows.1, by omega⟩
  · obtain ⟨same, room, place, filled⟩ := knows
    exact ⟨same, by omega, place, filled.store (SlotQueue.tailStore_apart_part _ _)⟩

section
variable {capacity : Nat} {positive : 0 < capacity} {state : State} {side : Side}

namespace Inv

variable (inv : Inv (ringQueue capacity positive) state)
include inv

theorem loadHead (side : Side) : (side.header .head).load state.memory = some state.pushed.length := by
  rw [side.header_eq, ← state.length_records]
  exact inv.carries.readHead

theorem loadTail (side : Side) : (side.header .tail).load state.memory = some state.popped.length := by
  rw [side.header_eq]
  exact inv.carries.readTail

theorem loadCapacity (small : capacity < 2 ^ 64) (side : Side) :
    (side.header .capacity).load state.memory = some capacity := by
  rw [side.header_eq]
  exact inv.described.readLE_eq small

private theorem popped_le : state.popped.length ≤ state.pushed.length := by
  have le := inv.carries.taken_le
  rwa [state.length_records] at le

theorem pushed_le : state.pushed.length ≤ state.popped.length + capacity := by
  have le := inv.carries.bounded
  rwa [state.length_records] at le

variable {call : PushCall}

theorem pushAt {point : PushPoint} (known : PushInv (ringQueue capacity positive) state { call with point }) :
    Inv (ringQueue capacity positive) (state.pushAt call point) :=
  { inv with
    push := fun other same => by
      cases same
      exact { known with }
    pop := fun other active => { inv.pop other active with } }

theorem popAt {call : PopCall} {point : PopPoint}
    (known : PopInv (ringQueue capacity positive) state { call with point }) :
    Inv (ringQueue capacity positive) (state.popAt call point) :=
  { inv with
    push := fun other active => { inv.push other active with }
    pop := fun other same => by
      cases same
      exact { known with } }

theorem refusePush (full : call.pending = capacity) : Inv (ringQueue capacity positive) (state.refusePush call) :=
  { inv with
    push := nofun
    pop := fun other active => { inv.pop other active with }
    full := forall_mem_append.mpr ⟨inv.full, forall_mem_singleton.mpr fun _ => full⟩ }

theorem refusePop {call : PopCall} (empty : call.pending = 0) :
    Inv (ringQueue capacity positive) (state.refusePop call) :=
  { inv with
    push := fun other active => { inv.push other active with }
    pop := nofun
    empty := forall_mem_append.mpr ⟨inv.empty, forall_mem_singleton.mpr fun _ => empty⟩ }

theorem write {field : RecordField} {rest : List RecordField}
    (known : PushInv (ringQueue capacity positive) state call)
    (room : state.pushed.length < state.popped.length + capacity)
    (filled : (ringQueue capacity positive).Filled state.memory state.pushed.length
      (field :: rest) call.record.field) : Inv (ringQueue capacity positive)
      ({ state with memory := state.memory.store ((ringQueue capacity positive).partStore
        state.pushed.length field (call.record.field field)) }.pushAt call
        (.write state.pushed.length (state.pushed.length % capacity) rest)) where
  carries := by
    have written := inv.carries.write (by rwa [state.length_records]) field (call.record.field field)
    rwa [state.length_records] at written
  described := SlotQueue.holds_of_store_apart inv.described
    (SlotQueue.partStore_apart_below (show 0 + 8 ≤ 24 by decide) ..)
  popped := inv.popped
  push other same := by
    cases same
    exact ⟨known.room, known.covers, rfl, room, rfl, filled.part⟩
  pop other active := { inv.pop other active with }
  full := inv.full
  empty := inv.empty

theorem publish (known : PushInv (ringQueue capacity positive) state call)
    (room : state.pushed.length < state.popped.length + capacity)
    (filled : (ringQueue capacity positive).Filled state.memory state.pushed.length [] call.record.field) :
    Inv (ringQueue capacity positive) { state with
        memory := state.memory.store ((ringQueue capacity positive).headStore (state.pushed.length + 1))
        push := none
        pushed := state.pushed ++ [call.record]
        pushes := state.pushes ++ [⟨true, call.pending⟩] } where
  carries := by
    have published := @SlotQueue.Carries.publish _ _ _ _ _ inv.carries call.record.field
      (by rwa [state.length_records]) (by rw [state.length_records]; exact known.room)
      (by rwa [state.length_records])
    rw [state.length_records] at published
    rw [State.records, map_append]
    exact published
  described := SlotQueue.holds_of_store_apart inv.described
    (Store.apart_toLE_iff.mpr (.inr (show 0 + 8 ≤ 8 by decide)))
  popped := by
    rw [State.records, map_append]
    exact inv.popped.trans (prefix_append _ _)
  push := nofun
  pop other active := by
    refine ⟨(inv.pop other active).covers, ?_⟩
    rw [State.records, map_append]
    exact (inv.pop other active).knows.append _
  full := forall_mem_append.mpr ⟨inv.full, forall_mem_singleton.mpr nofun⟩
  empty := inv.empty

theorem take {out : RecordField → Nat} (pending : Nat) (oldest : state.records[state.popped.length]? = some out) :
    Inv (ringQueue capacity positive) { state with
        memory := state.memory.store ((ringQueue capacity positive).tailStore (state.popped.length + 1))
        pop := none
        popped := state.popped ++ [out]
        pops := state.pops ++ [⟨true, pending⟩] } where
  carries := by
    have more := (List.getElem?_eq_some_iff.mp oldest).1
    have taken := inv.carries.take more
    rw [length_append]
    exact taken
  described := SlotQueue.holds_of_store_apart inv.described
    (Store.apart_toLE_iff.mpr (.inr (show 0 + 8 ≤ 16 by decide)))
  popped := by
    obtain ⟨more, found⟩ := List.getElem?_eq_some_iff.mp oldest
    have front := prefix_iff_eq_take.mp inv.popped
    have next := take_append_getElem more
    rw [← front, found] at next
    rw [next]
    exact take_prefix _ _
  push other active := by
    refine ⟨(inv.push other active).room, (inv.push other active).covers, ?_⟩
    rw [length_append]
    exact (inv.push other active).knows.take
  pop := nofun
  full := inv.full
  empty := forall_mem_append.mpr ⟨inv.empty, forall_mem_singleton.mpr nofun⟩

theorem pushLoaded (small : capacity < 2 ^ 64) (knows : side.Knows capacity)
    (known : PushInv (ringQueue capacity positive) state call)
    (pending : call.pending = state.pushed.length - state.popped.length) :
    ∃ next, state.pushLoaded side call state.pushed.length state.popped.length = some next ∧
      Inv (ringQueue capacity positive) next := by
  have ordered := inv.popped_le
  have bounded := inv.pushed_le
  cases side with
  | cpp =>
    exact ⟨_, rfl, inv.pushAt ⟨known.room, known.covers, rfl, Nat.le_refl _, ordered, bounded, pending⟩⟩
  | python own =>
    cases knows
    rw [State.pushLoaded]
    split
    case isTrue full =>
      exact ⟨_, rfl, inv.refusePush (by omega)⟩
    case isFalse free =>
      rw [slotOf_eq positive]
      exact ⟨_, rfl, inv.pushAt ⟨known.room, known.covers, rfl,
        show state.pushed.length < state.popped.length + capacity by omega, rfl,
        SlotQueue.filled_of_all known.covers⟩⟩

theorem pushStep (small : capacity < 2 ^ 64) (knows : side.Knows capacity) (active : state.push = some call) :
    ∃ next, state.pushStep side = some next ∧ Inv (ringQueue capacity positive) next := by
  have known := inv.push call active
  have holds := known.knows
  obtain ⟨record, order, point, pending⟩ := call
  simp only [State.pushStep, active]
  cases point with
  | loadCapacity =>
    simp only [inv.loadCapacity small side, Option.map_some]
    exact ⟨_, rfl, inv.pushAt ⟨known.room, known.covers, trivial⟩⟩
  | loadHead =>
    simp only [inv.loadHead side, Option.map_some]
    exact ⟨_, rfl, inv.pushAt ⟨known.room, known.covers, rfl⟩⟩
  | loadTail head =>
    cases holds
    simp only [inv.loadTail side, Option.bind_some]
    refine inv.pushLoaded small knows ?_ rfl
    exact ⟨known.room, known.covers, rfl⟩
  | compare head tail =>
    obtain ⟨rfl, seen, ordered, bounded, same⟩ := holds
    have short : sub64 state.pushed.length tail = state.pushed.length - tail :=
      sub64_eq ordered (Nat.lt_of_succ_lt known.room)
    simp only [inv.loadCapacity small side, Option.map_some, short]
    split
    case isTrue full =>
      exact ⟨_, rfl, inv.refusePush (same.trans (Nat.le_antisymm (by
        change _ ≤ _ + capacity at bounded
        omega) full))⟩
    case isFalse free =>
      exact ⟨_, rfl, inv.pushAt ⟨known.room, known.covers, rfl,
        show state.pushed.length < state.popped.length + capacity by omega⟩⟩
  | index head =>
    obtain ⟨rfl, room⟩ := holds
    simp only [inv.loadCapacity small side, Option.bind_some, slotOf_eq positive, Option.map_some]
    exact ⟨_, rfl, inv.pushAt ⟨known.room, known.covers, rfl, room, rfl, SlotQueue.filled_of_all known.covers⟩⟩
  | write head slot todo =>
    obtain ⟨rfl, room, rfl, filled⟩ := holds
    cases todo with
    | nil =>
      have stored := inv.carries.store?_head (state.pushed.length + 1)
      simp only [(side.storeCounter_counters known.room _).1]
      rw [show state.memory.store? ⟨8, toLE 8 (state.pushed.length + 1)⟩ = _ from stored]
      exact ⟨_, rfl, inv.publish known room filled⟩
    | cons field rest =>
      have stored := inv.carries.store?_part state.pushed.length field (record.field field)
      simp only [side.record_eq]
      rw [show (SharedTelemetryChannel.record _ field).store state.memory _ = _ from stored]
      exact ⟨_, rfl, inv.write known room filled⟩

theorem popLoaded (knows : side.Knows capacity) {call : PopCall} {head : Nat}
    (covers : ∀ field, field ∈ call.order) (ordered : state.popped.length ≤ head)
    (seen : head ≤ state.pushed.length) (pending : call.pending = head - state.popped.length) :
    ∃ next, state.popLoaded side call head state.popped.length = some next ∧
      Inv (ringQueue capacity positive) next := by
  unfold State.popLoaded
  split
  case isTrue empty => exact ⟨_, rfl, inv.refusePop (by omega)⟩
  case isFalse more =>
    have before : state.popped.length < state.records.length := by
      rw [state.length_records]
      omega
    cases side with
    | cpp => exact ⟨_, rfl, inv.popAt ⟨covers, rfl, before⟩⟩
    | python own =>
      cases knows
      simp only [slotOf_eq positive, Option.map_some]
      exact ⟨_, rfl, inv.popAt ⟨covers, rfl, rfl, _, List.getElem?_eq_getElem before,
        fun field outside => absurd (covers field) outside⟩⟩

theorem popStep (small : capacity < 2 ^ 64) (knows : side.Knows capacity) {call : PopCall}
    (active : state.pop = some call) :
    ∃ next, state.popStep side = some next ∧ Inv (ringQueue capacity positive) next := by
  have known := inv.pop call active
  have holds := known.knows
  have ordered := inv.popped_le
  obtain ⟨order, point, pending⟩ := call
  simp only [State.popStep, active]
  cases point with
  | loadCapacity =>
    simp only [inv.loadCapacity small side, Option.map_some]
    exact ⟨_, rfl, inv.popAt ⟨known.covers, trivial⟩⟩
  | loadHead tail =>
    cases tail with
    | none =>
      simp only [inv.loadHead side, Option.map_some]
      exact ⟨_, rfl, inv.popAt ⟨known.covers, ordered, Nat.le_of_eq state.length_records.symm, rfl⟩⟩
    | some tail =>
      cases holds
      simp only [inv.loadHead side, Option.bind_some]
      exact inv.popLoaded knows known.covers ordered (Nat.le_refl _) rfl
  | loadTail head =>
    cases head with
    | none =>
      simp only [inv.loadTail side, Option.map_some]
      exact ⟨_, rfl, inv.popAt ⟨known.covers, rfl⟩⟩
    | some head =>
      obtain ⟨after, seen, same⟩ := holds
      rw [state.length_records] at seen
      simp only [inv.loadTail side, Option.bind_some]
      exact inv.popLoaded knows known.covers after seen same
  | index tail =>
    obtain ⟨rfl, more⟩ := holds
    simp only [inv.loadCapacity small side, Option.bind_some, slotOf_eq positive, Option.map_some]
    exact ⟨_, rfl, inv.popAt ⟨known.covers, rfl, rfl, _, List.getElem?_eq_getElem more,
      fun field outside => absurd (known.covers field) outside⟩⟩
  | read tail slot todo out =>
    obtain ⟨rfl, rfl, record, found, copied⟩ := holds
    cases todo with
    | nil =>
      obtain rfl : out = record := funext fun field => copied field not_mem_nil
      have less : state.popped.length + 1 < 2 ^ 64 := by
        have more := (List.getElem?_eq_some_iff.mp found).1
        have bound := inv.carries.small
        omega
      have stored := inv.carries.store?_tail (state.popped.length + 1)
      simp only [(side.storeCounter_counters less _).2]
      rw [show state.memory.store? ⟨16, toLE 8 (state.popped.length + 1)⟩ = _ from stored]
      exact ⟨_, rfl, inv.take pending found⟩
    | cons field rest =>
      obtain ⟨pushed, -, rfl⟩ := mem_map.mp (mem_of_getElem? found)
      have loaded := inv.carries.readPart (Nat.le_refl _) found (fits_field pushed) field
      simp only [side.record_eq]
      rw [show (SharedTelemetryChannel.record _ field).load state.memory = _ from loaded]
      refine ⟨_, rfl, inv.popAt ⟨known.covers, rfl, rfl, _, found, fun other outside => ?_⟩⟩
      by_cases same : other = field
      · rw [same, Function.update_self]
      · rw [Function.update_of_ne same]
        exact copied other fun inside => (mem_cons.mp inside).elim same outside

theorem beginPush {next : State} {record : SharedTelemetryRecord} {order : List RecordField}
    (few : state.pushed.length + 1 < 2 ^ 64) (begun : state.beginPush side record order = some next) :
    Inv (ringQueue capacity positive) next := by
  unfold State.beginPush at begun
  split at begun
  case h_1 => cases begun
  case h_2 =>
    split at begun
    case isFalse => cases begun
    case isTrue copies =>
      cases begun
      refine @Inv.pushAt _ _ _ inv ⟨record, order, .loadHead, 0⟩ _ ⟨few, Side.mem_of_mayCopy copies, ?_⟩
      cases side <;> exact trivial

theorem beginPop {next : State} {order : List RecordField} (begun : state.beginPop side order = some next) :
    Inv (ringQueue capacity positive) next := by
  unfold State.beginPop at begun
  split at begun
  case h_1 => cases begun
  case h_2 =>
    split at begun
    case isFalse => cases begun
    case isTrue copies =>
      cases begun
      refine @Inv.popAt _ _ _ inv ⟨order, .loadCapacity, 0⟩ _ ⟨Side.mem_of_mayCopy copies, ?_⟩
      cases side <;> exact trivial

end Inv

theorem Inv.step {producer consumer : Side} {next : State} {action : Action}
    (inv : Inv (ringQueue capacity positive) state) (small : capacity < 2 ^ 64)
    (producerKnows : producer.Knows capacity) (consumerKnows : consumer.Knows capacity)
    (few : FewEvents state action) (ran : Telemetry.step producer consumer state action = some next) :
    Inv (ringQueue capacity positive) next := by
  cases action with
  | push record order => exact inv.beginPush few ran
  | pop order => exact inv.beginPop ran
  | pushStep =>
    cases active : state.push with
    | none => simp [Telemetry.step, State.pushStep, active] at ran
    | some call =>
      obtain ⟨after, stepped, kept⟩ := inv.pushStep small producerKnows active
      rw [Telemetry.step, stepped] at ran
      cases ran
      exact kept
  | popStep =>
    cases active : state.pop with
    | none => simp [Telemetry.step, State.popStep, active] at ran
    | some call =>
      obtain ⟨after, stepped, kept⟩ := inv.popStep small consumerKnows active
      rw [Telemetry.step, stepped] at ran
      cases ran
      exact kept

end

section
variable {mapper : Mapper} {capacity : Nat} {segment : Segment}

structure Fresh (capacity : Nat) (segment : Segment) : Prop where
  positive : 0 < capacity
  room : 24 + capacity * 24 ≤ segment.size.toNat
  header : segment.image.Holds 0 (toLE 8 capacity ++ (toLE 8 0 ++ toLE 8 0))

theorem Fresh.small (fresh : Fresh capacity segment) : capacity < 2 ^ 64 := by
  have room := fresh.room
  have bound := segment.size.toNat_lt
  omega

private theorem of_createChannel {requested : UInt64} {created : Created}
    (made : createChannel mapper requested = some (some created)) :
    created.capacity = (if requested = 0 then 1 else requested) ∧
    ∃ region, regionCreate mapper (24 + created.capacity * telemetryRecordSize) = some region ∧
      region.construct (SharedRingHeader.layout.bytes ⟨created.capacity, 0, 0⟩) = some created.segment := by
  rw [createChannel] at made
  generalize (if requested = 0 then 1 else requested) = capacity at made
  cases mapped : regionCreate mapper (24 + capacity * telemetryRecordSize) with
  | none => simp [mapped] at made
  | some region =>
    simp only [mapped, Option.bind_eq_bind, Option.bind_eq_some_iff] at made
    obtain ⟨segment, constructed, same⟩ := made
    cases same
    exact ⟨rfl, region, mapped, constructed⟩

private theorem of_construct {region : Segment} {bytes : List UInt8} (constructed : region.construct bytes = some segment) :
    segment.size = region.size ∧ segment.image.Holds 0 bytes := by
  unfold Segment.construct at constructed
  split at constructed
  case isFalse => cases constructed
  case isTrue =>
    cases constructed
    exact ⟨rfl, Memory.write_holds ..⟩

theorem Creation.fresh (creation : Creation mapper capacity segment)
    (honest : ∀ size segment, mapper size = some segment → size ≤ segment.size)
    (fits : 24 + capacity * 24 < 2 ^ 64) : Fresh capacity segment := by
  cases creation with
  | @cpp requested created made =>
    obtain ⟨requestedOrOne, region, mapped, constructed⟩ := of_createChannel made
    obtain ⟨sameSize, held⟩ := of_construct constructed
    have extent : (24 + created.capacity * telemetryRecordSize).toNat =
        24 + created.capacity.toNat * 24 := toNat_extent fits
    have large := UInt64.le_iff_toNat_le.mp (le_of_regionCreate honest mapped)
    have word := channelCapacity_toNat requested
    rw [← requestedOrOne] at word
    rw [extent, ← sameSize] at large
    exact ⟨by omega, large, held⟩
  | python made =>
    unfold SharedTelemetryRing.create at made
    split at made
    case isTrue => cases made
    case isFalse positive =>
      rw [if_pos (show SharedTelemetryRing.headerFormat.size +
        capacity * SharedTelemetryRing.recordFormat.size < 2 ^ 64 from fits)] at made
      obtain ⟨region, mapped, constructed⟩ := Option.bind_eq_some_iff.mp made
      obtain ⟨sameSize, held⟩ := of_construct constructed
      have large := UInt64.le_iff_toNat_le.mp (honest _ _ mapped)
      have word : (UInt64.ofNat (24 + capacity * 24)).toNat = 24 + capacity * 24 := UInt64.toNat_ofNat_of_lt' fits
      rw [← sameSize] at large
      exact ⟨by omega, Nat.le_trans (Nat.le_of_eq word.symm) large, held⟩

variable (fresh : Fresh capacity segment)
include fresh

theorem Fresh.attachChannel : SharedMemory.attachChannel segment = some (UInt64.ofNat capacity) := by
  have room := fresh.room
  have bound := segment.size.toNat_lt
  have word : (UInt64.ofNat capacity).toNat = capacity := UInt64.toNat_ofNat_of_lt' fresh.small
  have read : SharedRingHeader.layout.read segment.image 0 = some ⟨UInt64.ofNat capacity, 0, 0⟩ := by
    apply SharedRingHeader.layout.read_bytes
    change segment.image.Holds 0 (toLE 8 (UInt64.ofNat capacity).toNat ++ (toLE 8 0 ++ toLE 8 0))
    rw [word]
    exact fresh.header
  have nonzero : UInt64.ofNat capacity ≠ 0 := by
    intro zero
    rw [zero] at word
    exact absurd word (Nat.ne_of_lt fresh.positive)
  have extent : (24 + UInt64.ofNat capacity * telemetryRecordSize).toNat = 24 + capacity * 24 := by
    rw [toNat_extent (by
      change 24 + (UInt64.ofNat capacity).toNat * 24 < 2 ^ 64
      omega), word]
    rfl
  simp only [SharedMemory.attachChannel, Option.bind_eq_bind, Option.bind_eq_some_iff,
    guard_eq_some_iff, exists_const]
  refine ⟨?_, _, read, ⟨nonzero, ?_⟩, rfl⟩
  · change 24 ≤ segment.size.toNat
    omega
  · rw [UInt64.le_iff_toNat_le, extent]
    exact room

theorem Fresh.attach (language : Language) : ∃ side, language.attach segment = some side ∧ side.Knows capacity := by
  cases language with
  | cpp => exact ⟨.cpp, by rw [Language.attach, fresh.attachChannel, Option.map_some], trivial⟩
  | python =>
    have room := fresh.room
    have long : SharedTelemetryRing.headerFormat.size ≤ segment.size.toNat :=
      show 24 ≤ segment.size.toNat by omega
    have found : SharedTelemetryRing.attach segment = some capacity := by
      rw [SharedTelemetryRing.attach, if_pos long]
      exact (Memory.holds_append.mp fresh.header).1.readLE_eq fresh.small
    exact ⟨.python capacity, by rw [Language.attach, found, Option.map_some], rfl⟩

theorem Fresh.start : Inv (ringQueue capacity fresh.positive) (start segment) := by
  obtain ⟨described, counters⟩ := Memory.holds_append.mp fresh.header
  obtain ⟨head, tail⟩ := Memory.holds_append.mp counters
  exact {
    carries := SlotQueue.carries_nil
      (fun offset inside => segment.mapped offset (Nat.lt_of_lt_of_le inside fresh.room)) head tail
    described := described
    popped := nil_prefix
    push := nofun
    pop := nofun
    full := nofun
    empty := nofun }

end

theorem Fresh.reaches {capacity : Nat} {segment : Segment} {producer consumer : Side}
    {state : State} (fresh : Fresh capacity segment) (producerKnows : producer.Knows capacity)
    (consumerKnows : consumer.Knows capacity)
    (reached : Reaches (step producer consumer) FewEvents (Telemetry.start segment) state) :
    Inv (ringQueue capacity fresh.positive) state :=
  reached.invariant fresh.start fun _ _ _ kept few ran =>
    kept.step fresh.small producerKnows consumerKnows few ran

/-- The ring is a lossless queue, and a call that is under way can always take its next step:
none of its accesses is outside the segment. -/
structure LosslessFifo (capacity : Nat) (producer consumer : Side) (state : State) : Prop where
  inOrder : state.popped <+: state.pushed.map SharedTelemetryRecord.field
  bounded : state.pushed.length ≤ state.popped.length + capacity
  full : ∀ attempt ∈ state.pushes, attempt.succeeded = false → attempt.pending = capacity
  empty : ∀ attempt ∈ state.pops, attempt.succeeded = false → attempt.pending = 0
  pushGoesOn : state.push.isSome → (state.pushStep producer).isSome
  popGoesOn : state.pop.isSome → (state.popStep consumer).isSome

theorem shared_ring_lossless (mapper : Mapper) (capacity : Nat) (segment : Segment) (producer consumer : Language)
    (creation : Creation mapper capacity segment)
    (honest : ∀ size segment, mapper size = some segment → size ≤ segment.size) (fits : 24 + capacity * 24 < 2 ^ 64) :
    ∃ pusher popper, producer.attach segment = some pusher ∧ consumer.attach segment = some popper ∧
      ∀ state, Reaches (step pusher popper) FewEvents (start segment) state →
        LosslessFifo capacity pusher popper state := by
  have fresh := creation.fresh honest fits
  obtain ⟨pusher, pusherAttached, pusherKnows⟩ := fresh.attach producer
  obtain ⟨popper, popperAttached, popperKnows⟩ := fresh.attach consumer
  refine ⟨pusher, popper, pusherAttached, popperAttached, fun state reached => ?_⟩
  have inv := fresh.reaches pusherKnows popperKnows reached
  refine ⟨inv.popped, inv.pushed_le, inv.full, inv.empty, fun active => ?_, fun active => ?_⟩
  · obtain ⟨call, found⟩ := Option.isSome_iff_exists.mp active
    obtain ⟨next, stepped, -⟩ := inv.pushStep fresh.small pusherKnows found
    rw [stepped]
    rfl
  · obtain ⟨call, found⟩ := Option.isSome_iff_exists.mp active
    obtain ⟨next, stepped, -⟩ := inv.popStep fresh.small popperKnows found
    rw [stepped]
    rfl

theorem shared_ring_lossless_three :
    ∃ segment pusher popper, SharedTelemetryRing.create sampleMapper 3 = some segment ∧
      Language.python.attach segment = some pusher ∧ Language.cpp.attach segment = some popper ∧
      ∀ state, Reaches (step pusher popper) FewEvents (start segment) state → LosslessFifo 3 pusher popper state := by
  have made : ∃ segment, SharedTelemetryRing.create sampleMapper 3 = some segment := ⟨_, rfl⟩
  obtain ⟨segment, created⟩ := made
  obtain ⟨pusher, popper, attached⟩ := shared_ring_lossless sampleMapper 3 segment .python .cpp
    (.python created) sampleMapper_honest (by decide)
  exact ⟨segment, pusher, popper, created, attached⟩

def someRecord : SharedTelemetryRecord := ⟨1, 2, 3, 4⟩

/-- With `2 ^ 61` records the size of the segment wraps to that of the header. The channel is
created and attached to, and its first push would write outside the segment. -/
theorem shared_ring_outside : ∃ created state, createChannel sampleMapper 0x2000000000000000 = some (some created) ∧
      Language.cpp.attach created.segment = some .cpp ∧
      Reaches (step .cpp .cpp) FewEvents (start created.segment) state ∧
      state.pushed = [] ∧ state.push.isSome = true ∧ state.pushStep .cpp = none := by
  have made : ∃ created, createChannel sampleMapper 0x2000000000000000 = some (some created) ∧
      Language.cpp.attach created.segment = some .cpp ∧
      ((executeIf (step .cpp .cpp) (fun state action => decide (FewEvents state action)) (start created.segment)
        [.push someRecord RecordField.all, .pushStep, .pushStep, .pushStep, .pushStep]).any
        fun state => state.pushed.isEmpty && (state.push.isSome && (state.pushStep .cpp).isNone)) = true :=
    ⟨_, rfl, rfl, rfl⟩
  obtain ⟨created, creates, attaches, executed⟩ := made
  obtain ⟨state, reached, tested⟩ := exists_reaches_of_executeIf (fun _ _ => of_decide_eq_true) executed
  rw [Bool.and_eq_true, Bool.and_eq_true] at tested
  exact ⟨created, state, creates, attaches, reached, isEmpty_iff.mp tested.1, tested.2.1,
    Option.isNone_iff_eq_none.mp tested.2.2⟩

end AnimusCore.Telemetry
