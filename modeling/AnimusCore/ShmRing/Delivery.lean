import AnimusCore.ShmRing.Consuming
import Mathlib.Data.Fintype.Card
import Mathlib.Data.List.Range

/-! What the consumer receives. In every run the returned records are records that
were pushed, at increasing positions. When the producer has stopped, further calls
return the records that are left, in order, and then nothing. -/

set_option autoImplicit false

namespace AnimusCore.ShmRing

open Lib Lib.Ring

section

variable {Word : Type} {width : Nat}

/-- A push may begin while its position and the next one are below the limit. -/
def bounded (state : State Word width) : Action Word width → Bool
  | .tryPush _ | .pushOverwrite _ => decide (state.head + 1 < positionLimit)
  | _ => true

def Bounded (state : State Word width) (action : Action Word width) : Prop :=
  bounded state action = true

def byConsumer : Action Word width → Bool
  | .tryPop | .consume | .consumeWord _ => true
  | _ => false

def ByConsumer (_ : State Word width) (action : Action Word width) : Prop :=
  byConsumer action = true

/-- The oldest record that was neither returned nor overwritten. -/
def State.oldest (capacity : Capacity) (state : State Word width) : Nat :=
  max state.next (state.head - capacity.size)

/-- The results of the next calls if nothing more is pushed. -/
def State.remaining (capacity : Capacity) (state : State Word width) (calls : Nat) :
    List (Option (Nat × Words Word width)) :=
  (List.range calls).map fun call =>
    (state.pushed[state.oldest capacity + call]?).map (state.oldest capacity + call, ·)

end

variable {Word : Type} {width : Nat} [Inhabited Word] {capacity : Capacity}
  {state after start : State Word width} {slots : Nat → Words Word width}
  {action : Action Word width}

theorem Inv.step (inv : Inv capacity state) (permitted : Bounded state action)
    (ran : step capacity state action = some after) : Inv capacity after := by
  cases action with
  | tryPush value => exact inv.beginPush (of_decide_eq_true permitted) ran
  | pushOverwrite value => exact inv.beginPush (of_decide_eq_true permitted) ran
  | produce => exact inv.produce ran
  | produceWord word => exact inv.produceWord ran
  | tryPop => exact inv.beginPop ran
  | consume => exact inv.consume ran
  | consumeWord word => exact inv.consumeWord ran

theorem inv_of_reaches (path : Reaches (step capacity) Bounded (initial slots) state) : Inv capacity state :=
  path.invariant (Inv.initial slots) fun _ _ _ inv permitted ran =>
    inv.step permitted ran

def Consumer.fuel : Consumer Word width → Nat
  | .idle => 0
  | .storeTail _ _ => 1
  | .seqCopy _ attempt todo _ => (63 - attempt) * (width + 3) + todo.card + 2
  | .seqHead _ attempt => (63 - attempt) * (width + 3) + width + 3
  | .reloadTail => 63 * (width + 3) + width + 4
  | .cheapCopy _ todo _ => 63 * (width + 3) + width + 5 + todo.card
  | .loadActive _ _ => 63 * (width + 3) + 2 * width + 6
  | .loadHead _ => 63 * (width + 3) + 2 * width + 7
  | .loadTail => 63 * (width + 3) + 2 * width + 8

theorem Consumes.fuel_lt (consumes : Consumes capacity state after) : after.consumer.fuel < state.consumer.fuel := by
  cases consumes with
  | @skip tail attempt snapshot here lapped again =>
    rw [here]
    unfold kMaxSeqlockAttempts at again
    obtain ⟨left, more⟩ : ∃ left, 63 - attempt = left + 1 := ⟨62 - attempt, by omega⟩
    have fewer : 63 - (attempt + 1) = left := by omega
    simp only [Consumer.fuel, more, fewer, Nat.add_one_mul]
    omega
  | loadTail here | loadHead here | empty here | cheap here | active here | unchanged here
  | changed here | reloadTail here | drained here | clamped here | giveUp here | intact here
  | storeTail here =>
    rw [here]
    simp only [State.popReturns, Consumer.fuel, Finset.card_univ, Fintype.card_fin]
    omega

omit [Inhabited Word] in
theorem ConsumesWord.fuel_lt {word : Fin width} (consumes : ConsumesWord capacity state word after) :
    after.consumer.fuel < state.consumer.fuel := by
  cases consumes with
  | cheap here left | seq here left =>
    have fewer := Finset.card_erase_lt_of_mem left
    rw [here]
    simp only [Consumer.fuel]
    omega

def CallStep (state after : State Word width) : Prop :=
  after.consumer ≠ .idle ∧ after.results = state.results ∨
    after.consumer = .idle ∧ ∃ result, after.results = state.results ++ [result]

theorem Consumes.callStep (consumes : Consumes capacity state after) : CallStep state after := by
  cases consumes with
  | empty | drained | giveUp | storeTail => exact .inr ⟨rfl, _, rfl⟩
  | _ => exact .inl ⟨nofun, rfl⟩

omit [Inhabited Word] in
theorem ConsumesWord.callStep {word : Fin width} (consumes : ConsumesWord capacity state word after) :
    CallStep state after := by
  cases consumes <;> exact .inl ⟨nofun, rfl⟩

private theorem consumer_enabled (capacity : Capacity) (busy : state.consumer ≠ .idle) :
    (state.consume capacity).isSome = true ∨ ∃ word, (state.consumeWord capacity word).isSome = true := by
  cases here : state.consumer with
  | idle => exact absurd here busy
  | loadTail | loadHead tail | reloadTail | storeTail tail snapshot =>
    simp [State.consume, here]
  | loadActive | seqHead =>
    left
    simp only [State.consume, here]
    repeat' split
    all_goals rfl
  | cheapCopy tail todo snapshot =>
    rcases todo.eq_empty_or_nonempty with done | ⟨word, member⟩
    · left
      simp only [State.consume, here, if_pos done]
      split <;> rfl
    · exact .inr ⟨word, by simp [State.consumeWord, here, member]⟩
  | seqCopy tail attempt todo snapshot =>
    rcases todo.eq_empty_or_nonempty with done | ⟨word, member⟩
    · left
      simp only [State.consume, here, if_pos done]
      repeat' split
      all_goals rfl
    · exact .inr ⟨word, by simp [State.consumeWord, here, member]⟩

theorem Inv.consumer_advances (inv : Inv capacity state) (busy : state.consumer ≠ .idle) :
    ∃ action after, ByConsumer state action ∧ ShmRing.step capacity state action = some after ∧
      Inv capacity after ∧ CallStep state after ∧ after.consumer.fuel < state.consumer.fuel := by
  rcases consumer_enabled capacity busy with enabled | ⟨word, enabled⟩
  · obtain ⟨after, ran⟩ := Option.isSome_iff_exists.mp enabled
    have consumes := inv.consumes ran
    exact ⟨.consume, after, rfl, ran, inv.consume ran, consumes.callStep, consumes.fuel_lt⟩
  · obtain ⟨after, ran⟩ := Option.isSome_iff_exists.mp enabled
    have consumes := consumesWord ran
    exact ⟨.consumeWord word, after, rfl, ran, inv.consumeWord ran, consumes.callStep, consumes.fuel_lt⟩

theorem Inv.call_returns (inv : Inv capacity state) (busy : state.consumer ≠ .idle) :
    ∃ finish result, Reaches (ShmRing.step capacity) ByConsumer state finish ∧
      finish.consumer = .idle ∧ finish.results = state.results ++ [result] := by
  have ended : ∃ finish, Reaches (ShmRing.step capacity) ByConsumer state finish ∧
      (Inv capacity finish ∧ CallStep state finish) ∧ finish.consumer = .idle := by
    refine Reaches.progress (fun state : State Word width => state.consumer.fuel) ⟨inv, .inl ⟨busy, rfl⟩⟩ ?_
    rintro middle ⟨inv, called⟩ unfinished
    obtain ⟨action, next, own, ran, after, stepped, less⟩ := inv.consumer_advances unfinished
    rcases called with ⟨-, same⟩ | ⟨idle, -⟩
    · rw [CallStep, same] at stepped
      exact ⟨action, next, own, ran, ⟨after, stepped⟩, less⟩
    · exact absurd idle unfinished
  obtain ⟨finish, path, ⟨-, called⟩, idle⟩ := ended
  rcases called with ⟨working, -⟩ | ⟨-, result, results⟩
  · exact absurd idle working
  · exact ⟨finish, result, path, idle, results⟩

/-- Where a call stands that began after the producer stopped. -/
def Consumer.Quiet (oldest head : Nat) : Consumer Word width → Prop
  | .idle | .loadTail | .reloadTail => True
  | .loadHead tail | .seqHead tail _ => tail ≤ oldest
  | .loadActive tail loaded => tail ≤ oldest ∧ loaded = head
  | .cheapCopy tail _ _ | .seqCopy tail _ _ _ | .storeTail tail _ => tail = oldest

/-- The states of a consumer that runs alone from `start`. -/
structure Draining (capacity : Capacity) (start state : State Word width) : Prop where
  inv : Inv capacity state
  stopped : state.producer = .idle
  head_eq : state.head = start.head
  pushed_eq : state.pushed = start.pushed
  quiet : state.consumer.Quiet (state.oldest capacity) state.head
  delivered : ∃ calls, state.results = start.results ++ start.remaining capacity calls ∧
    state.oldest capacity = min (start.oldest capacity + calls) start.head

section
omit [Inhabited Word]

theorem State.remaining_succ (state : State Word width) (calls : Nat) :
    state.remaining capacity (calls + 1) = state.remaining capacity calls ++
      [(state.pushed[state.oldest capacity + calls]?).map (state.oldest capacity + calls, ·)] := by
  simp [State.remaining, List.range_succ]

theorem Inv.oldest_le (inv : Inv capacity state) : state.oldest capacity ≤ state.head :=
  max_le inv.next_le (Nat.sub_le _ _)

theorem Draining.refl (inv : Inv capacity start) (stopped : start.producer = .idle)
    (idle : start.consumer = .idle) : Draining capacity start start where
  inv := inv
  stopped := stopped
  head_eq := rfl
  pushed_eq := rfl
  quiet := by
    rw [idle]
    trivial
  delivered := ⟨0, by simp [State.remaining], by
    have bound := inv.oldest_le
    omega⟩

end

section
variable (draining : Draining capacity start state)
include draining

section
omit [Inhabited Word]

theorem Draining.begun_le : begun state.writeSeq ≤ state.head := by
  have valid := draining.inv.producer
  rw [draining.stopped, Producer.Valid] at valid
  rw [begun_eq]
  omega

theorem Draining.tail_le : state.tail ≤ state.oldest capacity := by
  have low := draining.inv.tail_le
  have early := draining.begun_le
  unfold State.oldest
  omega

theorem Draining.quietAt {consumer : Consumer Word width} (here : state.consumer = consumer) :
    consumer.Quiet (state.oldest capacity) state.head :=
  here ▸ draining.quiet

theorem Draining.move {consumer : Consumer Word width} (inv : Inv capacity { state with consumer })
    (quiet : consumer.Quiet (state.oldest capacity) state.head) : Draining capacity start { state with consumer } :=
  { draining with inv, quiet }

theorem Draining.returnNone (empty : state.oldest capacity = state.head) :
    Draining capacity start (state.popReturns none) := by
  obtain ⟨calls, results, pos⟩ := draining.delivered
  have length := draining.inv.head_eq
  have head := draining.head_eq
  have same : (state.popReturns none).oldest capacity = state.oldest capacity := by
    unfold State.oldest
    rw [State.next_none]
    rfl
  refine { draining with
    inv := draining.inv.returnNone, quiet := trivial, delivered := ⟨calls + 1, ?_, ?_⟩ }
  · have past : start.pushed[start.oldest capacity + calls]? = none := by
      rw [← draining.pushed_eq]
      exact List.getElem?_eq_none (by omega)
    rw [State.remaining_succ, past, ← List.append_assoc, ← results]
    rfl
  · omega

theorem Draining.returnSome {tail : Nat} {snapshot : Words Word width}
    (here : state.consumer = .storeTail tail snapshot) :
    Draining capacity start (State.popReturns { state with tail := tail + 1 } (some (tail, snapshot))) := by
  obtain ⟨calls, results, pos⟩ := draining.delivered
  obtain ⟨unread, found⟩ := draining.inv.consumerAt here
  have inside := draining.inv.lt_head found
  have head := draining.head_eq
  have quiet : tail = _ := draining.quietAt here
  have current : start.oldest capacity + calls = tail := by omega
  have advances : (State.popReturns { state with tail := tail + 1 }
      (some (tail, snapshot))).oldest capacity = tail + 1 := by
    unfold State.oldest
    rw [State.next_some]
    unfold State.oldest at quiet
    change max (tail + 1) (state.head - capacity.size) = tail + 1
    omega
  refine { draining with
    inv := draining.inv.returnSome here, quiet := trivial, delivered := ⟨calls + 1, ?_, ?_⟩ }
  · rw [State.remaining_succ, ← draining.pushed_eq, current, found, ← List.append_assoc, ← results]
    rfl
  · omega

end

theorem Draining.consume (ran : state.consume capacity = some after) : Draining capacity start after := by
  have inv := draining.inv.consume ran
  have bound := draining.inv.oldest_le
  cases draining.inv.consumes ran with
  | loadTail | reloadTail => exact draining.move inv draining.tail_le
  | loadHead here => exact draining.move inv ⟨draining.quietAt here, rfl⟩
  | @empty tail here =>
    obtain ⟨low, last⟩ := draining.quietAt here
    exact draining.returnNone (by omega)
  | @cheap tail head here inactive =>
    obtain ⟨low, rfl⟩ := draining.quietAt here
    obtain ⟨unread, -⟩ := draining.inv.consumerAt here
    have unused := draining.inv.begun_eq_zero inactive
    have fits := draining.inv.started_of_intact (le_refl state.next) (by omega)
    have started := state.le_started
    refine draining.move inv ?_
    change tail = max state.next (state.head - capacity.size)
    unfold State.oldest at low
    omega
  | active | changed => exact draining.move inv trivial
  | unchanged here | intact here =>
    have quiet := draining.quietAt here
    exact draining.move inv quiet
  | @drained tail attempt here last =>
    obtain ⟨unread, -⟩ := draining.inv.consumerAt here
    refine draining.returnNone ?_
    have low : tail ≤ _ := draining.quietAt here
    unfold State.oldest at bound low ⊢
    omega
  | @clamped tail attempt here more =>
    -- The clamp lands on the oldest record.
    obtain ⟨unread, -⟩ := draining.inv.consumerAt here
    have low : tail ≤ _ := draining.quietAt here
    refine draining.move inv ?_
    change max tail (state.head - capacity.size) = max state.next (state.head - capacity.size)
    unfold State.oldest at low
    omega
  | skip here lapped | giveUp here lapped =>
    have early := draining.begun_le
    have quiet := draining.quietAt here
    simp only [Consumer.Quiet, State.oldest] at quiet
    omega
  | storeTail here => exact draining.returnSome here

omit [Inhabited Word] in
theorem Draining.consumeWord {word : Fin width}
    (ran : state.consumeWord capacity word = some after) : Draining capacity start after := by
  have inv := draining.inv.consumeWord ran
  cases consumesWord ran with
  | cheap here | seq here =>
    have quiet := draining.quietAt here
    exact draining.move inv quiet

theorem Draining.step (own : ByConsumer state action)
    (ran : step capacity state action = some after) : Draining capacity start after := by
  cases action with
  | tryPop =>
    have inv := draining.inv.beginPop ran
    simp only [ShmRing.step, State.beginPop] at ran
    split at ran
    · cases ran
      exact draining.move inv trivial
    · cases ran
  | consume => exact draining.consume ran
  | consumeWord word => exact draining.consumeWord ran
  | tryPush | pushOverwrite | produce | produceWord => cases own

end

theorem Draining.reaches (draining : Draining capacity start start)
    (path : Reaches (ShmRing.step capacity) ByConsumer start state) : Draining capacity start state :=
  path.invariant draining fun _ _ _ before own ran => before.step own ran

theorem Draining.calls (draining : Draining capacity start start) (idle : start.consumer = .idle) (calls : Nat) :
    ∃ finish, Reaches (ShmRing.step capacity) ByConsumer start finish ∧ finish.consumer = .idle ∧
      finish.results = start.results ++ start.remaining capacity calls := by
  induction calls with
  | zero => exact ⟨start, .refl, idle, by simp [State.remaining]⟩
  | succ calls ih =>
    obtain ⟨middle, path, ready, results⟩ := ih
    have begins : ShmRing.step capacity middle .tryPop = some { middle with consumer := .loadTail } := by
      simp [ShmRing.step, State.beginPop, ready]
    have own : ByConsumer middle .tryPop := rfl
    have called := path.trans (Reaches.single own begins)
    have busy : State.consumer { middle with consumer := .loadTail } ≠ .idle := nofun
    obtain ⟨finish, result, rest, done, more⟩ := (draining.reaches called).inv.call_returns busy
    refine ⟨finish, called.trans rest, done, ?_⟩
    obtain ⟨total, all, -⟩ := (draining.reaches (called.trans rest)).delivered
    have count : total = calls + 1 := by
      have length := congrArg List.length (all.symm.trans more)
      simp only [results, State.remaining, List.length_append, List.length_map,
        List.length_range, List.length_singleton] at length
      omega
    rw [all, count]

/-- Every record a run returns is a record that was pushed, at increasing positions.
A call always comes to its end; and when the producer has stopped, further calls
return exactly the records left over and then nothing. -/
theorem overwrite_delivery (path : Reaches (ShmRing.step capacity) Bounded (initial slots) state) :
    (∀ entry ∈ state.returned, state.pushed[entry.1]? = some entry.2) ∧
    (state.returned.map Prod.fst).Pairwise (· < ·) ∧
    (state.consumer ≠ .idle → ∃ finish result, Reaches (ShmRing.step capacity) ByConsumer state finish ∧
        finish.consumer = .idle ∧ finish.results = state.results ++ [result]) ∧
    (state.producer = .idle → state.consumer = .idle →
      (∀ finish, Reaches (ShmRing.step capacity) ByConsumer state finish →
        ∃ calls, finish.results = state.results ++ state.remaining capacity calls) ∧
      ∀ calls, ∃ finish, Reaches (ShmRing.step capacity) ByConsumer state finish ∧ finish.consumer = .idle ∧
        finish.results = state.results ++ state.remaining capacity calls) := by
  have inv := inv_of_reaches path
  refine ⟨inv.sound, inv.sorted, inv.call_returns, fun stopped idle => ?_⟩
  have draining := Draining.refl inv stopped idle
  refine ⟨fun finish alone => ?_, draining.calls idle⟩
  obtain ⟨calls, results, -⟩ := (draining.reaches alone).delivered
  exact ⟨calls, results⟩

def State.atRest (state : State Word width) : Bool :=
  match state.producer, state.consumer with
  | .idle, .idle => true
  | _, _ => false

omit [Inhabited Word] in
theorem State.atRest_iff : state.atRest = true ↔ state.producer = .idle ∧ state.consumer = .idle := by
  unfold State.atRest
  cases state.producer <;> cases state.consumer <;> simp

def pushFree (value : Nat) : List (Action Nat 1) :=
  [.tryPush fun _ => value, .produce, .produce, .produceWord (.last 0), .produce]

/-- The first overwrite of a full ring, as far as its announcement. -/
def announceOverwrite (value : Nat) : List (Action Nat 1) :=
  [.pushOverwrite fun _ => value, .produce, .produce, .produce, .produce, .produce]

def settleOverwrite : List (Action Nat 1) :=
  [.produce, .produce, .produceWord (.last 0), .produce, .produce]

/-- A call on the route of the sequence lock that finds its first record intact. -/
def popIntact : List (Action Nat 1) :=
  [.tryPop, .consume, .consume, .consume, .consume, .consume, .consumeWord (.last 0), .consume, .consume]

theorem overwrite_delivery_third_push :
    ∃ state : State Nat 1, Reaches (ShmRing.step twoSlots) Bounded (initial fun _ _ => 0) state ∧
      state.producer = .idle ∧ state.consumer = .idle ∧ state.head = 3 ∧
      state.returned.map (fun entry => (entry.1, entry.2 0)) = [(1, 11)] ∧
      (state.returned.map Prod.fst).Pairwise (· < ·) ∧
      ∀ calls, ∃ finish, Reaches (ShmRing.step twoSlots) ByConsumer state finish ∧ finish.consumer = .idle ∧
        finish.results = state.results ++ state.remaining twoSlots calls := by
  have passes : (executeIf (ShmRing.step twoSlots) bounded (initial fun _ _ => 0)
      (pushFree 10 ++ pushFree 11 ++ announceOverwrite 12 ++ settleOverwrite ++ popIntact)).any
        (fun state => decide (state.atRest = true ∧ state.head = 3 ∧
          state.returned.map (fun entry => (entry.1, entry.2 0)) = [(1, 11)])) = true := by
    decide +kernel
  obtain ⟨state, path, ends⟩ := exists_reaches_of_executeIf (fun _ _ => id) passes
  rw [decide_eq_true_eq, State.atRest_iff] at ends
  obtain ⟨⟨stopped, idle⟩, head, returned⟩ := ends
  obtain ⟨_, sorted, _, drains⟩ := overwrite_delivery path
  exact ⟨state, path, stopped, idle, head, returned, sorted, (drains stopped idle).2⟩

end AnimusCore.ShmRing
