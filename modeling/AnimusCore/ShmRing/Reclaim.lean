import AnimusCore.ShmRing.Delivery

/-! The reclaim loop when `compare_exchange_weak` also fails spuriously. The consumer defeats at
most one of the four attempts, so two spurious failures in a call are harmless. -/

set_option autoImplicit false

namespace AnimusCore.ShmRing

open Lib Lib.Ring

section

variable (Word : Type) (width : Nat)

/-- A ring, with what happened since the last announcement of an overwrite: the number of
spurious failures, and the largest value that the tail has held. -/
structure Weak where
  ring : State Word width
  spurious : Nat := 0
  peak : Nat := 0

inductive WeakAction where
  | access (action : Action Word width)
  | failSpuriously

end

variable {Word : Type} {width : Nat}

/-- The exchange fails although the tail is the expected one. -/
def State.failSpuriously (capacity : Capacity) (state : State Word width) : Option (State Word width) :=
  match state.producer with
  | .reclaim value head tail tries =>
    if state.tail = tail then some (state.reclaimOrWrite capacity value head state.tail (tries + 1))
    else none
  | _ => none

def Producer.announcing : Producer Word width → Bool
  | .announce _ _ _ => true
  | _ => false

def State.announces (state : State Word width) : Action Word width → Bool
  | .produce => state.producer.announcing
  | _ => false

def Weak.goOn (weak : Weak Word width) (action : Action Word width) (ring : State Word width) : Weak Word width :=
  if weak.ring.announces action then { ring, peak := ring.tail }
  else { weak with ring, peak := max weak.peak ring.tail }

def weakStep [Inhabited Word] (capacity : Capacity) (weak : Weak Word width) :
    WeakAction Word width → Option (Weak Word width)
  | .access action => (step capacity weak.ring action).map (weak.goOn action)
  | .failSpuriously => (weak.ring.failSpuriously capacity).map fun ring =>
    { weak with ring, spurious := weak.spurious + 1 }

/-- The index whose slot the full branch of `push_overwrite` is storing. -/
def Producer.storing : Producer Word width → Option Nat
  | .writeSlot _ head _ => some head
  | _ => none

def Consumer.copied : Consumer Word width → Option (Nat × Words Word width)
  | .cheapCopy tail todo snapshot => if todo = ∅ then some (tail, snapshot) else none
  | _ => none

def sparing (weak : Weak Word width) : WeakAction Word width → Bool
  | .access action => bounded weak.ring action
  | .failSpuriously => decide (weak.spurious < 2)

def Sparing (weak : Weak Word width) (action : WeakAction Word width) : Prop :=
  sparing weak action = true

/-- From its load of the tail on, the producer meets at most one store below the floor. -/
def Calm (capacity : Capacity) (state : State Word width) (tail tries : Nat) : Prop :=
  tries = 0 ∧ (state.tail = tail ∨ ¬ state.consumer.staleBelow (state.head - capacity.size + 1)) ∨
    tries = 1 ∧ (state.tail = tail ∨ state.head - capacity.size + 1 ≤ state.tail) ∧
      ¬ state.consumer.staleBelow (state.head - capacity.size + 1)

def Producer.Calm (capacity : Capacity) (state : State Word width) : Producer Word width → Prop
  | .loadSeq _ _ tail | .setActive _ _ tail | .announce _ _ tail => ShmRing.Calm capacity state tail 0
  | .reclaim _ _ tail tries => ShmRing.Calm capacity state tail tries
  | _ => True

def Producer.retried (spurious : Nat) : Producer Word width → Producer Word width
  | .reclaim value head tail tries => .reclaim value head tail (tries + spurious)
  | producer => producer

/-- The tail has been at the floor of the overwrite. -/
def Producer.Reclaimed (capacity : Capacity) (head peak : Nat) : Producer Word width → Prop
  | .countDrop _ _ | .writeSlot _ _ _ => head + 1 ≤ peak + capacity.size
  | _ => True

/-- The ring is in the given state of a run without spurious failures, up to the attempts. -/
structure Tracks (capacity : Capacity) (weak : Weak Word width) (state : State Word width) : Prop where
  inv : Inv capacity state
  calm : state.producer.Calm capacity state
  ring : weak.ring = { state with producer := state.producer.retried weak.spurious }
  spurious_le : weak.spurious ≤ 2
  tail_le : state.tail ≤ weak.peak
  reclaimed : state.producer.Reclaimed capacity state.head weak.peak

def Tracked (capacity : Capacity) (weak : Weak Word width) : Prop := ∃ state, Tracks capacity weak state

variable {capacity : Capacity} {state after : State Word width} {weak : Weak Word width}
  {action : Action Word width} {tail tries peak : Nat}

theorem Producer.retried_of {producer : Producer Word width} (elsewhere : producer.reclaiming = false)
    (spurious : Nat) : producer.retried spurious = producer := by
  cases producer <;> first | rfl | cases elsewhere

theorem Producer.retried_zero (producer : Producer Word width) : producer.retried 0 = producer := by
  cases producer <;> rfl

theorem Producer.Reclaimed.mono {producer : Producer Word width} {head later : Nat}
    (reclaimed : producer.Reclaimed capacity head peak) (more : peak ≤ later) :
    producer.Reclaimed capacity head later := by
  cases producer <;> first | trivial | exact reclaimed.trans (Nat.add_le_add_right more _)

section
variable (calm : Calm capacity state tail tries)
include calm

theorem Calm.mono (head : after.head = state.head) (same : after.tail = state.tail)
    (stale : after.consumer.staleBelow (state.head - capacity.size + 1) →
      state.consumer.staleBelow (state.head - capacity.size + 1)) : Calm capacity after tail tries := by
  unfold Calm at calm ⊢
  rw [head, same]
  tauto

theorem Calm.stored {pos : Nat} {snapshot : Words Word width}
    (here : state.consumer = .storeTail pos snapshot) (head : after.head = state.head)
    (stored : after.tail = pos + 1) (idle : after.consumer = .idle) : Calm capacity after tail tries := by
  unfold Calm at calm ⊢
  rw [here] at calm
  rw [head, stored, idle]
  simp only [Consumer.staleBelow, not_false_eq_true, and_true, or_true] at calm ⊢
  omega

theorem Calm.next (changed : state.tail ≠ tail) (below : state.tail + capacity.size ≤ state.head) :
    tries = 0 ∧ Calm capacity state state.tail 1 := by
  rcases calm with ⟨first, same | settled⟩ | ⟨-, same | passed, -⟩
  · exact absurd same changed
  · exact ⟨first, .inr ⟨rfl, .inl rfl, settled⟩⟩
  · exact absurd same changed
  · omega

end

section
variable (inv : Inv capacity state)
include inv

omit inv in
theorem Produces.calm (produces : Produces capacity state after)
    (calm : state.producer.Calm capacity state) : after.producer.Calm capacity after := by
  cases produces with
  | full => exact .inl ⟨rfl, .inl rfl⟩
  | first here | again here | setActive here | announce here =>
    rw [here] at calm
    exact calm
  | retry here changed below =>
    rw [here] at calm
    obtain ⟨rfl, next⟩ := Calm.next calm changed below
    exact next
  | _ => trivial

/-- No record that the consumer accepts from now on lies below the floor. -/
theorem Inv.calm_consumes [Inhabited Word] (consumes : Consumes capacity state after)
    (calm : Calm capacity state tail tries) : Calm capacity after tail tries := by
  have started := state.le_started
  cases consumes with
  | @cheap pos head here inactive =>
    have unused := inv.begun_eq_zero inactive
    have fits := inv.started_of_intact (inv.consumerAt here).1 (by omega)
    refine calm.mono rfl rfl fun stale => ?_
    change pos + 1 < _ at stale
    omega
  | @intact pos attempt snapshot here intact =>
    have fits := inv.started_of_intact (inv.consumerAt here).1 intact
    refine calm.mono rfl rfl fun stale => ?_
    change pos + 1 < _ at stale
    omega
  | unchanged here =>
    refine calm.mono rfl rfl fun stale => ?_
    rw [here]
    exact stale
  | storeTail here => exact calm.stored here rfl rfl rfl
  | _ => exact calm.mono rfl rfl False.elim

omit inv in
theorem Producer.Calm.consumed {producer : Producer Word width} (calm : producer.Calm capacity state)
    (keeps : ∀ tail tries, ShmRing.Calm capacity state tail tries → ShmRing.Calm capacity after tail tries) :
    producer.Calm capacity after := by
  cases producer <;> first | trivial | exact keeps _ _ calm

theorem Inv.consumer_frame [Inhabited Word] (own : byConsumer action = true)
    (ran : ShmRing.step capacity state action = some after) :
    after.producer = state.producer ∧ after.head = state.head ∧
      ∀ tail tries, Calm capacity state tail tries → Calm capacity after tail tries := by
  cases action with
  | tryPop =>
    simp only [ShmRing.step, State.beginPop] at ran
    split at ran <;> cases ran
    exact ⟨rfl, rfl, fun _ _ calm => calm.mono rfl rfl False.elim⟩
  | consume =>
    have consumes := inv.consumes ran
    refine ⟨?_, ?_, fun _ _ => inv.calm_consumes consumes⟩
    · cases consumes <;> rfl
    · cases consumes <;> rfl
  | consumeWord word =>
    cases consumesWord ran with
    | cheap here =>
      refine ⟨rfl, rfl, fun _ _ calm => calm.mono rfl rfl fun stale => ?_⟩
      rw [here]
      exact stale
    | seq => exact ⟨rfl, rfl, fun _ _ calm => calm.mono rfl rfl False.elim⟩
  | tryPush | pushOverwrite | produce | produceWord => cases own

/-- Outside the loop the attempts play no part. -/
theorem Inv.outside_frame [Inhabited Word] (calm : state.producer.Calm capacity state)
    (outside : state.producer.reclaiming = false) (own : byConsumer action = false)
    (ran : ShmRing.step capacity state action = some after) : after.producer.Calm capacity after ∧
    (state.announces action = false → after.producer.reclaiming = false ∧
      (state.producer.Reclaimed capacity state.head peak → after.producer.Reclaimed capacity after.head peak)) ∧
    (state.announces action = true → after.producer.Reclaimed capacity after.head 0) := by
  cases action with
  | tryPush value | pushOverwrite value =>
    simp only [ShmRing.step, State.beginPush] at ran
    split at ran <;> cases ran
    exact ⟨trivial, fun _ => ⟨rfl, fun _ => trivial⟩, by rintro ⟨⟩⟩
  | produce =>
    have produces := inv.produces ran
    refine ⟨produces.calm calm, ?_, ?_⟩
    · intro quiet
      change state.producer.announcing = false at quiet
      cases produces with
      | announce here => rw [here] at quiet; cases quiet
      | exchange here | retry here | passed here => rw [here] at outside; cases outside
      | countDrop here => rw [here]; exact ⟨rfl, id⟩
      | _ => exact ⟨rfl, fun _ => trivial⟩
    · intro announces
      change state.producer.announcing = true at announces
      cases produces with
      | countDrop here => rw [here] at announces; cases announces
      | exchange here | passed here => rw [here] at outside; cases outside
      | _ => trivial
  | produceWord word =>
    cases inv.producesWord ran with
    | free => exact ⟨trivial, fun _ => ⟨rfl, fun _ => trivial⟩, by rintro ⟨⟩⟩
    | slot here => rw [here]; exact ⟨trivial, fun _ => ⟨rfl, id⟩, by rintro ⟨⟩⟩
  | tryPop | consume | consumeWord => cases own

end

/-- The consumer does not look at the producer. -/
theorem consumer_step_with [Inhabited Word] (own : byConsumer action = true)
    (producer : Producer Word width) : step capacity { state with producer } action =
      (step capacity state action).map fun after => { after with producer } := by
  cases action with
  | tryPop =>
    simp only [step, State.beginPop]
    split <;> rfl
  | consume =>
    unfold step State.consume
    cases state.consumer <;> dsimp only
    all_goals first | rfl | (split <;> first | rfl | (split <;> first | rfl | (split <;> rfl)))
  | consumeWord word =>
    unfold step State.consumeWord
    cases state.consumer <;> dsimp only
    all_goals first | rfl | (split <;> rfl)
  | tryPush | pushOverwrite | produce | produceWord => cases own

section
variable [Inhabited Word] (tracks : Tracks capacity weak state)
include tracks

theorem Tracks.outside {ring : State Word width} (outside : state.producer.reclaiming = false)
    (own : byConsumer action = false) (permitted : Bounded state action) (ran : ShmRing.step capacity state action = some ring) :
    Tracks capacity (weak.goOn action ring) ring := by
  have same : weak.ring = state := by rw [tracks.ring, Producer.retried_of outside]
  have inv := tracks.inv.step permitted ran
  obtain ⟨calm, quiet, announced⟩ := tracks.inv.outside_frame tracks.calm outside own ran
  rw [Weak.goOn, same]
  split
  case isTrue announces =>
    refine ⟨inv, calm, ?_, Nat.zero_le _, le_refl _, (announced announces).mono (Nat.zero_le _)⟩
    rw [Producer.retried_zero]
  case isFalse silent =>
    obtain ⟨elsewhere, reclaimed⟩ := quiet (Bool.eq_false_iff.mpr silent)
    refine ⟨inv, calm, ?_, tracks.spurious_le, le_max_right _ _, ?_⟩
    · rw [Producer.retried_of elsewhere]
    · exact (reclaimed tracks.reclaimed).mono (le_max_left _ _)

theorem Tracks.consumed {ring : State Word width} (own : byConsumer action = true)
    (ran : ShmRing.step capacity weak.ring action = some ring) : Tracked capacity (weak.goOn action ring) := by
  have quiet : weak.ring.announces action = false := by
    cases action <;> first | rfl | cases own
  rw [Weak.goOn, quiet, if_neg Bool.false_ne_true]
  rw [tracks.ring, consumer_step_with own, Option.map_eq_some_iff] at ran
  obtain ⟨after, stepped, rfl⟩ := ran
  obtain ⟨producer, head, keeps⟩ := tracks.inv.consumer_frame own stepped
  have bounded : Bounded state action := by
    cases action <;> first | rfl | cases own
  refine ⟨after, tracks.inv.step bounded stepped, ?_, ?_, tracks.spurious_le, le_max_right _ _, ?_⟩
  · rw [producer]
    exact tracks.calm.consumed keeps
  · rw [producer]
  · rw [producer, head]
    exact tracks.reclaimed.mono (le_max_left _ _)

section
variable {value : Words Word width} {head : Nat} (here : state.producer = .reclaim value head tail tries)
include here

omit [Inhabited Word] in
theorem Tracks.producer_eq :
    weak.ring = { state with producer := .reclaim value head tail (tries + weak.spurious) } := by
  rw [tracks.ring, here]
  rfl

/-- At most one attempt has met a changed tail, so that one is left in any case. -/
theorem Tracks.attempted {ring : State Word width} (ran : ShmRing.step capacity weak.ring .produce = some ring) :
    Tracked capacity (weak.goOn .produce ring) := by
  have few := tracks.spurious_le
  obtain ⟨rfl, -, full, -⟩ := tracks.inv.producerAt here
  have floor := reclaimFloor_eq (show capacity.size ≤ state.head by omega) tracks.inv.head_lt
  have calm : Calm capacity state tail tries := by
    have calm := tracks.calm
    rwa [here] at calm
  have quiet : weak.ring.announces .produce = false := by
    rw [tracks.producer_eq here]
    rfl
  rw [Weak.goOn, quiet, if_neg Bool.false_ne_true]
  rw [tracks.producer_eq here] at ran
  -- Both loops take the same branch.
  have stepped : ∃ after, state.produce capacity = some after ∧
      ring = { after with producer := after.producer.retried weak.spurious } ∧
      (after.producer.Calm capacity after → after.producer.Reclaimed capacity after.head
        (max weak.peak after.tail)) := by
    simp only [ShmRing.step, State.produce, State.reclaimOrWrite, floor, here] at ran ⊢
    split at ran
    case isTrue unchanged =>
      cases ran
      refine ⟨_, if_pos unchanged, rfl, fun _ => ?_⟩
      change state.head + 1 ≤ max _ (state.head - capacity.size + 1) + capacity.size
      omega
    case isFalse changed =>
      by_cases below : state.tail + capacity.size ≤ state.head
      · obtain ⟨rfl, -⟩ := calm.next changed below
        rw [if_pos ⟨by omega, by unfold kMaxReclaimAttempts; omega⟩] at ran
        cases ran
        refine ⟨_, (if_neg changed).trans (congrArg some (if_pos ⟨by omega, by decide⟩)), ?_, fun _ => trivial⟩
        simp [Producer.retried, Nat.add_comm]
      · rw [if_neg fun both => below (by omega)] at ran
        cases ran
        refine ⟨_, (if_neg changed).trans (congrArg some (if_neg fun both => below (by omega))), rfl, fun _ => ?_⟩
        change state.head + 1 ≤ max _ state.tail + capacity.size
        omega
  obtain ⟨after, stepped, rfl, reclaimed⟩ := stepped
  have calmAfter := (tracks.inv.produces stepped).calm tracks.calm
  exact ⟨after, tracks.inv.produce stepped, calmAfter, rfl, few, le_max_right _ _, reclaimed calmAfter⟩

omit [Inhabited Word] in
theorem Tracks.failed {ring : State Word width} (permitted : weak.spurious < 2)
    (failed : weak.ring.failSpuriously capacity = some ring) :
    Tracks capacity { weak with ring, spurious := weak.spurious + 1 } state := by
  obtain ⟨rfl, -, full, -⟩ := tracks.inv.producerAt here
  have floor := reclaimFloor_eq (show capacity.size ≤ state.head by omega) tracks.inv.head_lt
  have once : tries ≤ 1 := by
    have calm := tracks.calm
    rw [here] at calm
    rcases calm with ⟨rfl, -⟩ | ⟨rfl, -⟩ <;> decide
  rw [tracks.producer_eq here] at failed
  simp only [State.failSpuriously, State.reclaimOrWrite, floor] at failed
  split at failed
  case isTrue unchanged =>
    rw [if_pos ⟨by omega, by unfold kMaxReclaimAttempts; omega⟩] at failed
    cases failed
    refine { tracks with ring := ?_, spurious_le := permitted }
    rw [here, ← unchanged]
    rfl
  case isFalse => cases failed

end

theorem Tracks.step {action : WeakAction Word width} {later : Weak Word width} (permitted : Sparing weak action)
    (ran : weakStep capacity weak action = some later) : Tracked capacity later := by
  cases action with
  | failSpuriously =>
    rw [weakStep, Option.map_eq_some_iff] at ran
    obtain ⟨ring, failed, rfl⟩ := ran
    cases here : state.producer with
    | reclaim value head tail tries => exact ⟨state, tracks.failed here (of_decide_eq_true permitted) failed⟩
    | _ =>
      rw [tracks.ring, here] at failed
      cases failed
  | access action =>
    rw [weakStep, Option.map_eq_some_iff] at ran
    obtain ⟨ring, stepped, rfl⟩ := ran
    cases own : byConsumer action with
    | true => exact tracks.consumed own stepped
    | false =>
      cases here : state.producer with
      | reclaim value head tail tries =>
        cases action with
        | produce => exact tracks.attempted here stepped
        | tryPop | consume | consumeWord => cases own
        | tryPush | pushOverwrite | produceWord =>
          rw [tracks.producer_eq here] at stepped
          cases stepped
      | _ =>
        have outside : state.producer.reclaiming = false := by rw [here]; rfl
        have same : weak.ring = state := by rw [tracks.ring, Producer.retried_of outside]
        rw [same] at stepped
        exact ⟨ring, tracks.outside outside own (same ▸ permitted) stepped⟩

end

private theorem tracked_initial (slots : Nat → Words Word width) : Tracked capacity { ring := initial slots } :=
  ⟨_, .initial slots, trivial, rfl, Nat.zero_le _, le_refl _, trivial⟩

/-- When an overwrite stores its slot, the tail has been at its floor since the announcement;
and a copy on the cheap route that finds its tail unchanged is the record that was pushed. -/
theorem reclaim_precedes_overwrite [Inhabited Word] {slots : Nat → Words Word width}
    (path : Reaches (weakStep capacity) Sparing { ring := initial slots } weak) :
    (∀ head, weak.ring.producer.storing = some head → head + 1 ≤ weak.peak + capacity.size) ∧
    ∀ tail snapshot, weak.ring.consumer.copied = some (tail, snapshot) → weak.ring.tail = tail →
      weak.ring.pushed[tail]? = some snapshot := by
  obtain ⟨state, tracks⟩ := path.invariant (tracked_initial slots)
    fun _ _ _ ⟨_, tracks⟩ permitted advanced => tracks.step permitted advanced
  have inv := tracks.inv
  rw [tracks.ring]
  constructor
  · intro head stores
    have reclaimed := tracks.reclaimed
    cases here : state.producer with
    | writeSlot value index todo =>
      obtain ⟨rfl, -⟩ := inv.producerAt here
      rw [here] at stores reclaimed
      cases stores
      exact reclaimed
    | _ => rw [here] at stores; cases stores
  · intro tail snapshot copied unchanged
    change state.consumer.copied = _ at copied
    cases here : state.consumer with
    | cheapCopy position todo copy =>
      rw [here, Consumer.copied] at copied
      split at copied <;> cases copied
      obtain ⟨-, inside, whole⟩ := inv.consumerAt here
      subst todo
      exact inv.snapshotWhole inside whole (inv.cheap _ _ _ here unchanged).1
    | _ => rw [here] at copied; cases copied

def spuriously (times : Nat) : List (WeakAction Nat 1) := List.replicate times .failSpuriously

theorem reclaim_precedes_overwrite_two_failures :
    ∃ weak : Weak Nat 1, Reaches (weakStep twoSlots) Sparing { ring := initial fun _ _ => 0 } weak ∧
      weak.spurious = 2 ∧ weak.ring.producer.storing = some 2 ∧ 2 + 1 ≤ weak.peak + twoSlots.size := by
  have passes : (executeIf (weakStep twoSlots) sparing { ring := initial fun _ _ => 0 }
      ((pushFree 10 ++ pushFree 11 ++ announceOverwrite 12).map .access ++ spuriously 2 ++
        [.access .produce, .access .produce])).any
      (fun weak => decide (weak.spurious = 2 ∧ weak.ring.producer.storing = some 2)) = true := by
    decide +kernel
  obtain ⟨weak, path, ends⟩ := exists_reaches_of_executeIf (fun _ _ => id) passes
  obtain ⟨failures, stores⟩ := of_decide_eq_true ends
  exact ⟨weak, path, failures, stores, (reclaim_precedes_overwrite path).1 2 stores⟩

def beginCheap : List (Action Nat 1) := [.tryPop, .consume, .consume, .consume]

def finishCheap : List (Action Nat 1) := [.consumeWord (.last 0), .consume]

/-- An overwrite after the first one, as far as its announcement. -/
def announceAgain (value : Nat) : List (Action Nat 1) :=
  [.pushOverwrite fun _ => value, .produce, .produce, .produce, .produce]

/-- After four spurious failures the slot is stored under a tail that has not moved, and a copy of
the new record passes for the old one. Three are enough when a stale store of the tail defeats
the last attempt. -/
theorem overwrite_without_reclaim :
    (∃ weak : Weak Nat 1, Reaches (weakStep twoSlots) Always { ring := initial fun _ _ => 0 } weak ∧
      weak.ring.producer.storing = some 2 ∧ weak.peak + twoSlots.size < 2 + 1 ∧ weak.ring.tail = 0 ∧
      weak.ring.consumer.copied.map (fun copy => (copy.1, copy.2 0)) = some (0, 12) ∧
      weak.ring.pushed.map (· 0) = [10, 11]) ∧
    ∃ weak : Weak Nat 1, Reaches (weakStep twoSlots) Always { ring := initial fun _ _ => 0 } weak ∧
      weak.spurious = 3 ∧ weak.ring.producer.storing = some 4 ∧ weak.peak + twoSlots.size < 4 + 1 := by
  have four : (execute (weakStep twoSlots) { ring := initial fun _ _ => 0 }
      ((pushFree 10 ++ pushFree 11 ++ beginCheap ++ announceOverwrite 12).map .access ++ spuriously 4 ++
        [.access (.produceWord 0), .access (.consumeWord 0)])).any
      (fun weak => decide (weak.ring.producer.storing = some 2 ∧ weak.peak + twoSlots.size < 2 + 1 ∧
        weak.ring.tail = 0 ∧
        weak.ring.consumer.copied.map (fun copy => (copy.1, copy.2 0)) = some (0, 12) ∧
        weak.ring.pushed.map (· 0) = [10, 11])) = true := by
    decide +kernel
  have three : (execute (weakStep twoSlots) { ring := initial fun _ _ => 0 }
      ((pushFree 10 ++ pushFree 11 ++ beginCheap ++ finishCheap ++ announceOverwrite 12 ++
        settleOverwrite ++ announceAgain 13 ++ settleOverwrite ++ announceAgain 14).map .access ++
        spuriously 3 ++ [.access .consume, .access .produce])).any
      (fun weak => decide (weak.spurious = 3 ∧ weak.ring.producer.storing = some 4 ∧
        weak.peak + twoSlots.size < 4 + 1)) = true := by
    decide +kernel
  obtain ⟨first, firstPath, firstEnds⟩ := exists_reaches_of_execute four
  obtain ⟨second, secondPath, secondEnds⟩ := exists_reaches_of_execute three
  exact ⟨⟨first, firstPath, of_decide_eq_true firstEnds⟩, second, secondPath, of_decide_eq_true secondEnds⟩

end AnimusCore.ShmRing
