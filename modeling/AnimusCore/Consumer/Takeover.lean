import AnimusCore.Consumer.Delivery

/-! Any number of consumers after one another. Every call comes to its end, so the queue can be
driven through as many rounds as one likes, and after enough of them the head has wrapped. -/

set_option autoImplicit false

namespace AnimusCore.Consumer

open Lib Lib.Ring Lib.StructFormat SharedMemory

section
variable {capacity : UInt64} {pow2 : isPow2 capacity = true} {length : Nat} {state : State}

theorem Inv.reaches_attached {loads : Loads SpscQueueConsumer} (inv : Inv capacity (eventQueue capacity pow2) state)
    (finds : loads.Finds (known capacity state.returned.length)
      ⟨capacity, capacity - 1, UInt64.ofNat state.returned.length⟩) (active : state.reader = .constructing loads) :
    ∃ next handle, Reaches (Consumer.step length) Always state next ∧
      Inv capacity (eventQueue capacity pow2) next ∧ next.reader = .ready handle ∧
      next.push = state.push ∧ next.pushed = state.pushed ∧ next.returned = state.returned := by
  induction loads generalizing state with
  | done found =>
    cases finds
    exact ⟨state, _, .refl, inv, active, rfl, rfl, rfl⟩
  | load offset following ih =>
    obtain ⟨word, found, rest⟩ := finds
    have small := inv.carries.small
    have ordered := inv.returned_le
    rw [state.length_records] at small
    have stepped : Consumer.step length state .attachStep =
        some { state with reader := .constructing (following word) } := by
      rw [Consumer.step, State.attachStep, active]
      simp only [Reader.constructing, inv.word_of_known found, Option.map_some]
    have kept : Inv capacity (eventQueue capacity pow2) { state with reader := .constructing (following word) } :=
      inv.readerAt (readerKnows_constructing (by omega) ordered rest)
    obtain ⟨next, handle, path, result⟩ := @ih word _ kept rest rfl
    exact ⟨next, handle, (Reaches.single trivial stepped).trans path, result⟩

/-- A push to an empty queue, up to the store of the head. -/
structure Pushing (capacity : UInt64) (pow2 : isPow2 capacity = true) (begun : State)
    (event : ExecutionEvent) (state : State) : Prop where
  inv : Inv capacity (eventQueue capacity pow2) state
  reader : state.reader = begun.reader
  returned : state.returned = begun.returned
  pushed : state.pushed = begun.pushed
  active : ∃ call, state.push = some call ∧ call.event = event ∧
    ∀ head, call.point = .recheck head → state.cachedTail = state.returned.length

def State.pushRank (state : State) : Nat := (state.push.map PushCall.rank).getD 0

theorem Pushing.advances {begun : State} {event : ExecutionEvent}
    (pushing : Pushing capacity pow2 begun event state) (empty : begun.returned.length = begun.pushed.length)
    (before : ¬ ∃ call, state.push = some call ∧ call.AtStore) :
    ∃ next, Consumer.step length state .pushStep = some next ∧
      Pushing capacity pow2 begun event next ∧ next.pushRank < state.pushRank := by
  obtain ⟨inv, reader, returned, pushed, call, active, same, fresh⟩ := pushing
  obtain ⟨next, stepped, kept, move⟩ := inv.pushStep active fun store => absurd ⟨call, active, store⟩ before
  refine ⟨next, stepped, ?_⟩
  cases move.outcome with
  | moved point moved kept' less seen =>
    refine ⟨⟨kept, move.reader_eq.trans reader, move.returned_eq.trans returned,
      kept'.trans pushed, _, moved, same, fun head atRecheck => ?_⟩, ?_⟩
    · rw [seen head atRecheck, move.returned_eq]
    · rw [State.pushRank, State.pushRank, moved, active]
      exact less
  | refused head atRecheck full =>
    have small := inv.carries.small
    have equal : state.cachedTail = state.pushed.length := by
      rw [fresh head atRecheck, returned, empty, pushed]
    rw [state.length_records] at small
    rw [equal, sub64_eq (Nat.le_refl _) small, Nat.sub_self] at full
    exact absurd (pos_of_isPow2 pow2) (Nat.not_lt.mpr full)
  | accepted store => exact absurd ⟨call, active, store⟩ before

theorem Inv.reaches_store {call : PushCall} (inv : Inv capacity (eventQueue capacity pow2) state)
    (active : state.push = some call) (begins : call.point = .loadHead)
    (empty : state.returned.length = state.pushed.length) :
    ∃ next, Reaches (Consumer.step length) Always state next ∧ Pushing capacity pow2 state call.event next ∧
      ∃ other, next.push = some other ∧ other.AtStore := by
  have initial : Pushing capacity pow2 state call.event state :=
    ⟨inv, rfl, rfl, rfl, call, active, rfl, fun head atRecheck => by
      rw [begins] at atRecheck
      cases atRecheck⟩
  refine Reaches.progress State.pushRank initial fun middle pushing before => ?_
  obtain ⟨next, stepped, kept, less⟩ := pushing.advances empty before
  exact ⟨.pushStep, next, trivial, stepped, kept, less⟩

/-- A pop from a queue that is not empty. -/
structure Popping (capacity : UInt64) (pow2 : isPow2 capacity = true) (begun state : State) : Prop where
  inv : Inv capacity (eventQueue capacity pow2) state
  push : state.push = begun.push
  pushed : state.pushed = begun.pushed
  reader : (∃ handle point, state.reader = .popping handle point ∧ state.returned.length = begun.returned.length) ∨
    ∃ handle, state.reader = .ready handle ∧ state.returned.length = begun.returned.length + 1

def State.popRank (state : State) : Nat :=
  match state.reader with
  | .popping _ point => point.rank + 1
  | _ => 0

theorem State.exists_popping {handle : Handle} (ready : state.reader = .ready handle) :
    ∃ next other point, state.tryPop = some next ∧ next.reader = .popping other point ∧
      next.push = state.push ∧ next.pushed = state.pushed ∧ next.returned = state.returned := by
  simp only [State.tryPop, ready]
  split
  case isTrue => exact ⟨_, _, _, rfl, rfl, rfl, rfl, rfl⟩
  case isFalse => exact ⟨_, _, _, rfl, rfl, rfl, rfl, rfl⟩

theorem Inv.reaches_returned {handle : Handle} {point : PopPoint}
    (inv : Inv capacity (eventQueue capacity pow2) state) (active : state.reader = .popping handle point)
    (more : state.returned.length < state.pushed.length) :
    ∃ next, Reaches (Consumer.step length) Always state next ∧ Popping capacity pow2 state next ∧
      ∃ handle, next.reader = .ready handle := by
  have initial : Popping capacity pow2 state state := ⟨inv, rfl, rfl, .inl ⟨handle, point, active, rfl⟩⟩
  refine Reaches.progress State.popRank initial fun middle popping before => ?_
  obtain ⟨kept, push, pushed, ⟨handle, point, reading, returned⟩ | ⟨handle, ready, -⟩⟩ := popping
  · obtain ⟨next, stepped, after, move⟩ := kept.popStep reading
    refine ⟨.popStep, next, trivial, stepped, ?_⟩
    have push' := move.push_eq.trans push
    have pushed' := move.pushed_eq.trans pushed
    cases move.outcome with
    | moved handle' point' reading' returned' less =>
      refine ⟨⟨after, push', pushed', .inl ⟨_, _, reading', ?_⟩⟩, ?_⟩
      · rw [returned', returned]
      · rw [State.popRank, State.popRank, reading, reading']
        exact Nat.succ_lt_succ less
    | found_empty handle' ready' returned' same =>
      rw [returned, pushed] at same
      exact absurd same (Nat.ne_of_lt more)
    | returns handle' event ready' returned' =>
      refine ⟨⟨after, push', pushed', .inr ⟨_, ready', ?_⟩⟩, ?_⟩
      · rw [returned', List.length_append, returned, List.length_singleton]
      · rw [State.popRank, State.popRank, reading, ready']
        exact Nat.succ_pos _
  · exact absurd ⟨handle, ready⟩ before

/-- Everything that was pushed has been returned, and nobody is in a call. -/
structure Idle (capacity : UInt64) (pow2 : isPow2 capacity = true) (count : Nat) (state : State) : Prop where
  inv : Inv capacity (eventQueue capacity pow2) state
  push : state.push = none
  reader : ∃ handle, state.reader = .ready handle
  pushed : state.pushed.length = count
  returned : state.returned.length = count

theorem Idle.reaches_store {count : Nat} (idle : Idle capacity pow2 count state) (event : ExecutionEvent) :
    ∃ next, Reaches (Consumer.step length) Always state next ∧ Pushing capacity pow2 state event next ∧
      ∃ call, next.push = some call ∧ call.AtStore := by
  have begun : state.tryPush event EventField.all =
      some { state with push := some ⟨event, EventField.all, .loadHead⟩ } := by
    rw [State.tryPush, idle.push]
    rfl
  obtain ⟨next, path, pushing, store⟩ := @Inv.reaches_store _ _ length _ _
    (idle.inv.tryPush begun) rfl rfl (idle.returned.trans idle.pushed.symm)
  have first : Consumer.step length state (.tryPush event EventField.all) = some _ := begun
  exact ⟨next, (Reaches.single trivial first).trans path,
    ⟨pushing.inv, pushing.reader, pushing.returned, pushing.pushed, pushing.active⟩, store⟩

theorem Idle.round {count : Nat} (idle : Idle capacity pow2 count state)
    (small : count + 1 < 2 ^ 64) (event : ExecutionEvent) :
    ∃ next, Reaches (Consumer.step length) Always state next ∧ Idle capacity pow2 (count + 1) next := by
  obtain ⟨filled, path, pushing, call, active, store⟩ := idle.reaches_store event
  have fewer : filled.pushed.length + 1 < 2 ^ 64 := by rwa [pushing.pushed, idle.pushed]
  obtain ⟨published, stepped, kept, move⟩ := pushing.inv.pushStep active fun _ => fewer
  have first : Consumer.step length filled .pushStep = some published := stepped
  obtain ⟨head, slot, point⟩ := store
  cases move.outcome with
  | moved _ _ _ less =>
    rw [PushCall.rank, PushCall.rank, point] at less
    exact absurd less (Nat.not_lt_zero _)
  | refused _ other =>
    rw [point] at other
    cases other
  | accepted _ push grown =>
    have pushed : published.pushed.length = count + 1 := by
      rw [grown, List.length_append, pushing.pushed, idle.pushed, List.length_singleton]
    have returned : published.returned.length = count := by
      rw [move.returned_eq, pushing.returned, idle.returned]
    obtain ⟨handle, ready⟩ := idle.reader
    rw [← pushing.reader, ← move.reader_eq] at ready
    obtain ⟨popping, handle', point', begun, reading, samePush, samePushed, sameReturned⟩ :=
      published.exists_popping ready
    have second : Consumer.step length published .tryPop = some popping := begun
    have more : popping.returned.length < popping.pushed.length := by
      rw [sameReturned, samePushed, returned, pushed]
      exact Nat.lt_succ_self count
    obtain ⟨finish, rest, ended, handle'', ready'⟩ := (kept.tryPop begun).reaches_returned reading more
    refine ⟨finish, (((path.trans (.single trivial first)).trans (.single trivial second)).trans
      rest), ended.inv, ?_, ⟨handle'', ready'⟩, ?_, ?_⟩
    · rw [ended.push, samePush, push]
    · rw [ended.pushed, samePushed, pushed]
    · rcases ended.reader with ⟨_, _, stillReading, -⟩ | ⟨_, -, counted⟩
      · rw [ready'] at stillReading
        cases stillReading
      · rw [counted, sameReturned, returned]

theorem Idle.rounds (idle : Idle capacity pow2 0 state) (event : ExecutionEvent) {count : Nat}
    (small : count < 2 ^ 64) :
    ∃ next, Reaches (Consumer.step length) Always state next ∧ Idle capacity pow2 count next := by
  induction count with
  | zero => exact ⟨state, .refl, idle⟩
  | succ count ih =>
    obtain ⟨middle, path, reached⟩ := ih (Nat.lt_of_succ_lt small)
    obtain ⟨next, rest, idle'⟩ := reached.round small event
    exact ⟨next, path.trans rest, idle'⟩

/-- One more push, and the head is zero while the tail is not. -/
theorem Idle.wraps (idle : Idle capacity pow2 (2 ^ 64 - 1) state) (event : ExecutionEvent) :
    ∃ next, Reaches (Consumer.step length) Always state next ∧
      next.memory.readLE 64 8 = some 0 ∧ next.memory.readLE 128 8 = some (2 ^ 64 - 1) := by
  obtain ⟨filled, path, pushing, call, active, head, slot, point⟩ := @Idle.reaches_store _ _ length _ _ idle event
  have known := (pushing.inv.push call active).knows
  rw [PushKnows, point] at known
  have last : head + 1 = 2 ^ 64 := by
    rw [known.1, pushing.pushed, idle.pushed]
    exact Nat.sub_add_cancel Nat.one_le_two_pow
  have stored := pushing.inv.carries.store?_head (2 ^ 64)
  have stepped : ∃ next, Consumer.step length filled .pushStep = some next ∧
      next.memory = filled.memory.store ((eventQueue capacity pow2).headStore (2 ^ 64)) := by
    simp only [Consumer.step, State.pushStep, active, point, last]
    rw [show filled.memory.store? ⟨SpscQueue.headOffset, _⟩ = _ from stored]
    exact ⟨_, rfl, rfl⟩
  obtain ⟨next, ran, memory⟩ := stepped
  refine ⟨next, path.trans (.single trivial ran), ?_, ?_⟩
  · have zero : toLE 8 (2 ^ 64) = toLE 8 0 := by decide
    have head : next.memory.Holds 64 (toLE 8 0) := by
      rw [memory, ← zero]
      exact Memory.store_holds filled.memory ((eventQueue capacity pow2).headStore (2 ^ 64))
    exact head.readLE_eq (by decide)
  · have tail := pushing.inv.carries.tail
    rw [pushing.returned, idle.returned] at tail
    have kept : next.memory.Holds 128 (toLE 8 (2 ^ 64 - 1)) := by
      rw [memory]
      exact SlotQueue.holds_of_store_apart tail (Store.apart_toLE_iff.mpr (.inl (show 64 + 8 ≤ 128 by decide)))
    exact kept.readLE_eq (by decide)

end

/-- The consumers together return the pushed events in order, the counters stay ordered, a
constructor that runs now finds the queue and its tail, and no call that is under way gets
stuck. -/
structure Delivered (capacity : UInt64) (length : Nat) (state : State) : Prop where
  inOrder : state.returned <+: state.pushed.map ExecutionEvent.value
  ordered : ∃ head tail, state.memory.readLE 64 8 = some head ∧
    state.memory.readLE 128 8 = some tail ∧ tail ≤ head ∧ head ≤ tail + capacity.toNat
  attaches : (SpscQueueConsumer.loads length).run state.memory =
    some (some ⟨capacity, capacity - 1, UInt64.ofNat state.returned.length⟩)
  pushGoesOn : ∀ call, state.push = some call → state.pushed.length + 1 < 2 ^ 64 → state.pushStep.isSome
  attachGoesOn : ∀ loads, state.reader = .attaching loads → state.attachStep.isSome
  popGoesOn : ∀ handle point, state.reader = .popping handle point → state.popStep.isSome

theorem Inv.delivered {capacity : UInt64} {pow2 : isPow2 capacity = true} {state : State}
    {length : Nat} (inv : Inv capacity (eventQueue capacity pow2) state)
    (room : 192 + capacity.toNat * 40 ≤ length) : Delivered capacity length state where
  inOrder := inv.returned
  ordered := ⟨_, _, inv.readHead, inv.readTail, inv.returned_le, inv.pushed_le⟩
  attaches := (finds_loads pow2 room).run fun _ _ => inv.word_of_known
  pushGoesOn call active few := by
    obtain ⟨next, stepped, -⟩ := inv.pushStep active fun _ => few
    rw [stepped]
    rfl
  attachGoesOn loads active := by
    obtain ⟨next, stepped, -⟩ := inv.attachStep active
    rw [stepped]
    rfl
  popGoesOn handle point active := by
    obtain ⟨next, stepped, -⟩ := inv.popStep active
    rw [stepped]
    rfl

theorem successive_consumers_in_order (segment fresh : Segment) (capacity : UInt64)
    (initialised : QueueRing.spscQueue.init .line64 executionEvent segment capacity = some (some fresh))
    (fits : 192 + capacity.toNat * 40 < 2 ^ 64) (state : State)
    (reached : Reaches (step fresh.size.toNat) FewEvents (start fresh) state) :
    Delivered capacity fresh.size.toNat state := by
  obtain ⟨pow2, required, -, sameSize, -⟩ := QueueRing.of_init initialised
  have room : 192 + capacity.toNat * 40 ≤ fresh.size.toNat := by
    have extent : (requiredBytes (QueueRing.spscQueue.headerSize .line64) executionEvent
        capacity).toNat = 192 + capacity.toNat * 40 := toNat_extent fits
    rw [sameSize, ← extent]
    exact UInt64.le_iff_toNat_le.mp required
  have inv : Inv capacity (eventQueue capacity pow2) state :=
    reached.invariant (inv_start initialised room) fun before action after kept few advanced =>
      kept.step room few advanced
  exact inv.delivered room

def twoEvents : Segment := Segment.ofBytes 4096 272 []

private theorem exists_init_twoEvents :
    ∃ fresh, QueueRing.spscQueue.init .line64 executionEvent twoEvents 2 = some (some fresh) :=
  QueueRing.exists_init (by decide) (by decide) (by decide) (by decide) (by decide)

theorem successive_consumers_in_order_two :
    ∃ fresh, QueueRing.spscQueue.init .line64 executionEvent twoEvents 2 = some (some fresh) ∧
      ∀ state, Reaches (step fresh.size.toNat) FewEvents (start fresh) state →
        Delivered 2 fresh.size.toNat state := by
  obtain ⟨fresh, initialised⟩ := exists_init_twoEvents
  exact ⟨fresh, initialised, fun state reached =>
    successive_consumers_in_order twoEvents fresh 2 initialised (by decide) state reached⟩

def someEvent : ExecutionEvent := ⟨1, 2, 3, 4, 5, 6⟩

def headerAlone : Segment := Segment.ofBytes 4096 192 []

/-- After `2 ^ 64` pushes to a queue of two slots the head has wrapped to zero, below the tail.
For `2 ^ 61` slots `init` accepts a header without any, and the first record is stored outside. -/
theorem successive_consumers_wrap :
    (∃ fresh state, QueueRing.spscQueue.init .line64 executionEvent twoEvents 2 = some (some fresh) ∧
      Reaches (step fresh.size.toNat) Always (start fresh) state ∧
      state.memory.readLE 64 8 = some 0 ∧ state.memory.readLE 128 8 = some (2 ^ 64 - 1)) ∧
    ∃ fresh state, QueueRing.spscQueue.init .line64 executionEvent headerAlone 0x2000000000000000 = some (some fresh) ∧
      Reaches (step 192) Always (start fresh) state ∧ state.push.isSome = true ∧ step 192 state .pushStep = none := by
  constructor
  · obtain ⟨fresh, initialised⟩ := exists_init_twoEvents
    have room : 192 + (2 : UInt64).toNat * 40 ≤ fresh.size.toNat := by
      rw [(QueueRing.of_init initialised).2.2.2.1]
      decide
    have pow2 : SharedMemory.isPow2 2 = true := by decide
    have inv : Inv 2 (eventQueue 2 pow2) (start fresh) := inv_start initialised room
    have attached : step fresh.size.toNat (start fresh) .attach = some
        { start fresh with reader := .constructing (SpscQueueConsumer.loads fresh.size.toNat) } := rfl
    obtain ⟨ready, handle, path, kept, reader, push, pushed, returned⟩ :=
      @Inv.reaches_attached _ _ fresh.size.toNat _ _ (inv.attach room attached) (finds_loads pow2 room) rfl
    have idle : Idle 2 pow2 0 ready :=
      ⟨kept, push, ⟨handle, reader⟩, congrArg List.length pushed, congrArg List.length returned⟩
    obtain ⟨last, rounds, idle'⟩ := @Idle.rounds _ _ fresh.size.toNat _ idle someEvent (2 ^ 64 - 1) (by decide)
    obtain ⟨wrapped, rest, head, tail⟩ := @Idle.wraps _ _ fresh.size.toNat _ idle' someEvent
    exact ⟨fresh, wrapped, initialised,
      (((Reaches.single trivial attached).trans path).trans rounds).trans rest, head, tail⟩
  · have executed : ((QueueRing.spscQueue.init .line64 executionEvent headerAlone 0x2000000000000000).join.bind
        fun fresh => (execute (step 192) (start fresh) [.tryPush someEvent EventField.all, .pushStep, .pushStep,
          .pushStep])).any (fun state => state.push.isSome && (step 192 state .pushStep).isNone) = true := by
      decide +kernel
    obtain ⟨state, found, stuck⟩ := (Option.any_eq_true _ _).mp executed
    obtain ⟨fresh, initialised, run⟩ := Option.bind_eq_some_iff.mp found
    rw [Bool.and_eq_true, Option.isNone_iff_eq_none] at stuck
    exact ⟨fresh, state, Option.join_eq_some_iff.mp initialised,
      execute_reaches_of_forall (fun _ _ _ => trivial) run, stuck⟩

end AnimusCore.Consumer
