import AnimusCore.Spsc.Effects
import AnimusCore.Spsc.Invariant
import AnimusCore.Lib.Fifo

/-! The queue as a bounded FIFO. A producer view and a consumer view that were
attached before the first push never meet an outdated cached head, so their runs
refine the FIFO without further conditions. A view that is attached later starts
with a cached head of zero, and on an empty queue takes that for a record. -/

set_option autoImplicit false

namespace AnimusCore.Spsc

open Lib Lib.Ring

variable {Value : Type} {capacity : Capacity} {state next : State Value}

def State.finishPop (capacity : Capacity) : Nat → State Value → State Value
  | 0, state => state
  | fuel + 1, state =>
    match state.popStep capacity with
    | none => state
    | some next => finishPop capacity fuel next

/-- `try_pop` of a view, run without interruption: at most four accesses. -/
def State.tryPop (capacity : Capacity) (state : State Value) (view : ViewId) : State Value :=
  ((state.pop view 1).getD state).finishPop capacity 4

private theorem tryPop_tryPops (idle : state.consumer = none) (view : ViewId) :
    (state.tryPop capacity view).tryPops = state.tryPops ++
      [if state.tail = (state.views view).cachedHead ∧ state.tail = state.head then none
        else some (state.slots (capacity.slot state.tail))] := by
  by_cases cached : state.tail = (state.views view).cachedHead
  · by_cases empty : state.tail = state.head
    · simp [State.tryPop, State.pop, idle, State.finishPop, State.popStep, ← cached, ← empty]
    · simp [State.tryPop, State.pop, idle, State.finishPop, State.popStep, ← cached, empty, State.popAccepted]
  · simp [State.tryPop, State.pop, idle, State.finishPop, State.popStep, cached, State.popAccepted]

theorem Inv.next_record (inv : Inv capacity state) (more : state.tail ≠ state.head) :
    state.pushed[state.tail]? = some (state.slots (capacity.slot state.tail)) := by
  have published : state.tail < state.pushed.length := by
    rw [← inv.head_eq]
    exact Nat.lt_of_le_of_ne inv.tail_le more
  have found := List.getElem?_eq_getElem published
  rw [inv.stored state.tail _ (le_refl _) found]
  exact found

theorem Inv.no_record (inv : Inv capacity state) (empty : state.tail = state.head) :
    state.pushed[state.tail]? = none := by
  rw [List.getElem?_eq_none_iff, ← inv.head_eq, empty]

/-- In every run whose pops start with a current cache, the indices stay ordered,
the records returned are the pushed ones in order, and a `try_pop` of any view
returns the record at the tail, or nothing when there is none, exactly when the
view's cached head is current or the queue is not empty. -/
theorem attached_view_iff {slots : Nat → Value} (path : Reaches (step capacity) Careful (initial slots) state) :
    (state.tail ≤ state.head ∧ state.head ≤ state.tail + capacity.size) ∧
    state.tryPops.reduceOption = state.pushed.take state.tail ∧ (state.consumer = none → ∀ view,
      (state.tryPop capacity view).tryPops = state.tryPops ++ [state.pushed[state.tail]?] ↔
        (state.tail = state.head → (state.views view).cachedHead = state.tail)) := by
  have inv := Inv.reaches path
  refine ⟨⟨inv.tail_le, inv.head_le⟩, inv.popped_tries.symm.trans inv.popped_eq, ?_⟩
  intro idle view
  rw [tryPop_tryPops idle view, List.append_cancel_left_eq, List.singleton_inj]
  by_cases empty : state.tail = state.head
  · rw [inv.no_record empty]
    simp only [empty, and_true, ite_eq_left_iff, reduceCtorEq, imp_false, not_not, forall_const]
    exact eq_comm
  · rw [inv.next_record empty]
    simp [empty]

def attachLate : List (Action Nat) :=
  [.push 0 [7], .pushStep, .pushStep, .pushStep, .pop 0 1, .popStep, .popStep, .popStep, .popStep, .attach 1]

/-- A record waits for the late view, so its outdated cache does no harm. -/
theorem attached_view_iff_late : ∃ state : State Nat, Reaches (step twoSlots) Careful (initial fun _ => 0) state ∧
      state.tail = 1 ∧ state.head = 2 ∧ (state.views 1).cachedHead = 0 ∧
      (state.tryPop twoSlots 1).tryPops = state.tryPops ++ [state.pushed[state.tail]?] := by
  have passes : (executeIf (step twoSlots) careful (initial fun _ => 0)
      (attachLate ++ [.push 0 [8], .pushStep, .pushStep, .pushStep])).any
      (fun state => decide (state.tail = 1 ∧ state.head = 2 ∧ (state.views 1).cachedHead = 0) &&
        state.consumer.isNone) = true := by decide
  obtain ⟨state, path, ends⟩ := exists_reaches_of_executeIf (fun _ _ => id) passes
  simp only [Bool.and_eq_true, decide_eq_true_eq, Option.isNone_iff_eq_none] at ends
  obtain ⟨⟨tail, head, cached⟩, idle⟩ := ends
  exact ⟨state, path, tail, head, cached, ((attached_view_iff path).2.2 idle 1).mpr (by omega)⟩

/-- The late view pops from the empty queue: it returns a record that nobody
pushed, and the tail passes the head. -/
theorem attached_view_phantom : ∃ state : State Nat, Reaches (step twoSlots) Always (initial fun _ => 0) state ∧
      state.pushed = [7] ∧ state.tryPops = [some 7, some 0] ∧ state.head < state.tail := by
  have passes : (execute (step twoSlots) (initial fun _ => 0)
      (attachLate ++ [.pop 1 1, .popStep, .popStep, .popStep])).any
      (fun state => decide (state.pushed = [7] ∧ state.tryPops = [some 7, some 0] ∧
        state.head < state.tail)) = true := by decide
  obtain ⟨state, path, ends⟩ := exists_reaches_of_execute passes
  exact ⟨state, path, of_decide_eq_true ends⟩

/-- One view pushes, one view pops, and neither is attached anew once something
was pushed. -/
def twoViews (producer consumer : ViewId) (state : State Value) : Action Value → Bool
  | .attach view => (view != producer && view != consumer) || state.pushed.isEmpty
  | .push view _ => view == producer
  | .pop view _ => view == consumer
  | .pushStep => state.producer.all state.belowWrap
  | .popStep => true

def TwoViews (producer consumer : ViewId) (state : State Value) (action : Action Value) : Prop :=
  twoViews producer consumer state action = true

structure CacheBetween (consumer : ViewId) (state : State Value) : Prop where
  tail_le : state.tail ≤ (state.views consumer).cachedHead
  le_head : (state.views consumer).cachedHead ≤ state.head
  view_eq : ∀ call, state.consumer = some call → call.view = consumer
  decided_lt : ∀ call, state.consumer = some call → call.point.decided = true →
    state.tail < (state.views consumer).cachedHead

variable {consumer : ViewId} {action : Action Value}

section
variable (between : CacheBetween consumer state)
include between

theorem CacheBetween.careful {producer : ViewId} (two : TwoViews producer consumer state action) :
    Careful state action := by
  cases action with
  | attach view | push view orders | pop view maxCount => rfl
  | pushStep => exact two
  | popStep =>
    cases active : state.consumer with
    | none => simp [Careful, Spsc.careful, active]
    | some call =>
      have view := between.view_eq call active
      have low := between.tail_le
      have high := between.le_head
      simp only [Careful, Spsc.careful, active, Option.all_some, State.cacheCurrent]
      split
      · rw [decide_eq_true_eq, view]
        intro empty
        omega
      · rfl

variable (inv : Inv capacity state)
include inv

theorem CacheBetween.attach {producer view : ViewId} (two : TwoViews producer consumer state (.attach view))
    (ran : state.attach view = some next) : CacheBetween consumer next := by
  unfold State.attach at ran
  split at ran
  · cases ran
  case isFalse free =>
    cases ran
    by_cases same : consumer = view
    · subst same
      have fresh : state.pushed = [] := by simpa [TwoViews, twoViews] using two
      have zero : state.head = 0 := by rw [inv.head_eq, fresh, List.length_nil]
      have low := inv.tail_le
      refine { between with tail_le := ?_, le_head := ?_, decided_lt := ?_ }
      · simp only [Function.update_self]
        omega
      · simp
      · intro call active
        have here := between.view_eq call active
        change state.consumer = some call at active
        simp [State.busy, active, here] at free
    · refine { between with tail_le := ?_, le_head := ?_, decided_lt := ?_ }
      · simpa [Function.update_of_ne same] using between.tail_le
      · simpa [Function.update_of_ne same] using between.le_head
      · simpa [Function.update_of_ne same] using between.decided_lt

theorem CacheBetween.pushStep {producer : ViewId} (two : TwoViews producer consumer state .pushStep)
    (ran : state.pushStep capacity = some next) : CacheBetween consumer next := by
  have effect := pushStep_effect ran
  have high := between.le_head
  refine ⟨?_, ?_, ?_, ?_⟩
  · rw [effect.tail_eq, effect.cachedHead_eq]
    exact between.tail_le
  · rw [effect.cachedHead_eq]
    cases effect.outcome with
    | silent head_eq | refused _ _ _ _ _ head_eq => exact head_eq ▸ high
    | stored call head order active point head_eq =>
      have below : state.head + 1 < wordSize := by
        simpa [TwoViews, twoViews, active, State.belowWrap, point] using two
      have valid := inv.producer call active
      simp only [PushCall.Valid, point] at valid
      rw [head_eq, valid.2.1, succ64_eq below]
      exact high.trans (Nat.le_succ _)
  · intro call running
    exact between.view_eq call (effect.consumer_eq ▸ running)
  · intro call running decided
    rw [effect.tail_eq, effect.cachedHead_eq]
    exact between.decided_lt call (effect.consumer_eq ▸ running) decided

theorem CacheBetween.popStep (ran : state.popStep capacity = some next) : CacheBetween consumer next := by
  obtain ⟨call, active, effect⟩ := popStep_effect ran
  have here := between.view_eq call active
  have valid := inv.consumer call active
  have view : ∀ after, next.consumer = some after → after.view = consumer :=
    fun after running => (effect.view_eq after running).trans here
  cases effect.outcome with
  | silent tail_eq _ _ views_eq decides =>
    refine ⟨?_, ?_, view, ?_⟩
    · rw [tail_eq, views_eq]
      exact between.tail_le
    · rw [effect.head_eq, views_eq]
      exact between.le_head
    · intro after running decided
      rw [tail_eq, views_eq]
      rcases decides after running decided with before | differ
      · exact between.decided_lt call active before
      · exact Nat.lt_of_le_of_ne between.tail_le (here ▸ differ)
  | loaded tail point nonempty tail_eq _ _ views_eq =>
    simp only [PopCall.Valid, point] at valid
    have cached : (next.views consumer).cachedHead = state.head := by simp [views_eq, here]
    refine ⟨?_, ?_, view, ?_⟩
    · rw [tail_eq, cached]
      exact inv.tail_le
    · rw [effect.head_eq, cached]
    · intro after running decided
      rw [tail_eq, cached]
      exact Nat.lt_of_le_of_ne inv.tail_le (valid.2 ▸ nonempty)
  | refused point tail_eq _ _ views_eq idle =>
    have cached : (next.views consumer).cachedHead = state.head := by simp [views_eq, here]
    refine ⟨?_, ?_, view, fun after running => by simp [idle] at running⟩
    · rw [tail_eq, cached]
      exact inv.tail_le
    · rw [effect.head_eq, cached]
  | retired tail out point tail_eq _ _ views_eq undecided =>
    have ahead := between.decided_lt call active (by rw [point]; rfl)
    have high := between.le_head
    have wrap := inv.head_lt
    simp only [PopCall.Valid, point] at valid
    have advancedTail : next.tail = state.tail + 1 := by
      rw [tail_eq, valid.2.1, succ64_eq (by omega)]
    refine ⟨?_, ?_, view, ?_⟩
    · rw [advancedTail, views_eq]
      exact ahead
    · rw [effect.head_eq, views_eq]
      exact high
    · intro after running decided
      rw [undecided after running] at decided
      cases decided

theorem CacheBetween.step {producer : ViewId} (two : TwoViews producer consumer state action)
    (ran : step capacity state action = some next) : CacheBetween consumer next := by
  cases action with
  | attach view => exact between.attach inv two ran
  | push view orders =>
    simp only [Spsc.step, State.push] at ran
    split at ran
    · cases ran
    · split at ran <;> cases ran <;> exact { between with }
  | pushStep => exact between.pushStep inv two ran
  | pop view maxCount =>
    simp only [Spsc.step, State.pop] at ran
    split at ran
    · cases ran
    · split at ran
      · cases ran
        exact { between with }
      · cases ran
        refine { between with view_eq := ?_, decided_lt := ?_ }
        · rintro _ ⟨⟩
          simpa [TwoViews, twoViews] using two
        · rintro _ ⟨⟩ ⟨⟩
  | popStep => exact between.popStep inv ran

end

theorem CacheBetween.reaches {producer : ViewId} {slots : Nat → Value}
    (path : Reaches (Spsc.step capacity) (TwoViews producer consumer) (Spsc.initial slots) state) :
    Inv capacity state ∧ CacheBetween consumer state := by
  have start : CacheBetween consumer (Spsc.initial slots) := ⟨Nat.le_refl 0, Nat.le_refl 0, nofun, nofun⟩
  apply path.invariant (And.intro (Inv.initial slots) start)
  intro state action next holds two ran
  exact ⟨holds.1.step (holds.2.careful two) ran, holds.2.step holds.1 two ran⟩

def Inv.fifo (inv : Inv capacity state) : Fifo Value capacity.size where
  pushed := state.pushed
  taken := state.tail
  taken_le := inv.head_eq ▸ inv.tail_le
  bounded := inv.head_eq ▸ inv.head_le

def Represents (state : State Value) (queue : Fifo Value capacity.size) : Prop :=
  queue.pushed = state.pushed ∧ queue.popped = state.popped

theorem Inv.represents (inv : Inv capacity state) : Represents state inv.fifo :=
  ⟨rfl, inv.popped_eq.symm⟩

private theorem fifo_step (inv : Inv capacity state) (after : Inv capacity next) (careful : Careful state action)
    (ran : step capacity state action = some next) : Fifo.Step inv.fifo after.fifo := by
  cases action with
  | attach view =>
    simp only [Spsc.step, State.attach] at ran
    split at ran
    · cases ran
    · cases ran
      exact Fifo.step_idle rfl rfl
  | push view orders =>
    simp only [Spsc.step, State.push] at ran
    split at ran
    · cases ran
    · split at ran <;> cases ran <;> exact Fifo.step_idle rfl rfl
  | pushStep =>
    have effect := pushStep_effect ran
    cases effect.outcome with
    | silent _ pushed_eq | refused _ _ _ _ _ _ pushed_eq =>
      exact Fifo.step_idle pushed_eq effect.tail_eq
    | stored _ _ _ _ _ _ pushed_eq => exact Fifo.step_push pushed_eq effect.tail_eq
  | pop view maxCount =>
    simp only [Spsc.step, State.pop] at ran
    split at ran
    · cases ran
    · split at ran <;> cases ran <;> exact Fifo.step_idle rfl rfl
  | popStep =>
    obtain ⟨call, active, effect⟩ := popStep_effect ran
    have valid := inv.consumer call active
    cases effect.outcome with
    | silent tail_eq | loaded _ _ _ tail_eq | refused _ tail_eq =>
      exact Fifo.step_idle effect.pushed_eq tail_eq
    | retired tail out point tail_eq =>
      simp only [PopCall.Valid, point] at valid
      have published := (List.getElem?_eq_some_iff.mp valid.2.2).1
      have wrap := inv.head_lt
      rw [valid.2.1, ← inv.head_eq] at published
      refine Fifo.step_pop effect.pushed_eq ?_
      change next.tail = state.tail + 1
      rw [tail_eq, valid.2.1, succ64_eq (by omega)]

def WritesFreeSlot (capacity : Capacity) (state : State Value) : Prop :=
  ∀ call head, state.producer = some call → call.point = .writeSlot head →
    ∀ position, state.popped.length ≤ position → position < state.pushed.length →
      capacity.slot position ≠ capacity.slot head

/-- The load after which `try_push` returns false saw a full queue. -/
def RefusesWhenFull (capacity : Capacity) (state : State Value) : Prop :=
  ∀ next, state.pushStep capacity = some next →
    next.tryPushes = state.tryPushes ++ [false] →
    state.pushed.length = state.popped.length + capacity.size

/-- The load after which `try_pop` returns false saw an empty queue. -/
def RefusesWhenEmpty (capacity : Capacity) (state : State Value) : Prop :=
  ∀ next, state.popStep capacity = some next → next.tryPops = state.tryPops ++ [none] →
    state.pushed.length = state.popped.length

/-- What was pushed is, call after call, the prefix of the batch that the call
reports, and what was popped is what the calls hand out. -/
structure BatchesExact (state : State Value) : Prop where
  within : ∀ result ∈ state.pushReturns, result.count ≤ result.orders.length
  pushed_eq : state.pushed =
    (state.pushReturns.flatMap fun result => result.orders.take result.count) ++ state.pushing
  popped_eq : state.popped = state.popReturns.flatten ++ state.popping

theorem Inv.writes_free_slot (inv : Inv capacity state) : WritesFreeSlot capacity state := by
  intro call head active point pos unpopped published
  have valid := inv.producer call active
  simp only [PushCall.Valid, point] at valid
  rw [← inv.tail_eq] at unpopped
  rw [← inv.head_eq] at published
  rw [valid.2.1]
  exact capacity.slot_ne published (by omega)

theorem Inv.refuses_when_full (inv : Inv capacity state) : RefusesWhenFull capacity state := by
  intro next ran refused
  rw [← inv.head_eq, ← inv.tail_eq]
  cases (pushStep_effect ran).outcome with
  | silent _ _ same => simp [same] at refused
  | refused call head active point full =>
    have valid := inv.producer call active
    simp only [PushCall.Valid, point] at valid
    rw [valid.2, sub64_eq inv.tail_le inv.head_lt] at full
    have bounded := inv.head_le
    have ordered := inv.tail_le
    omega
  | stored _ _ _ _ _ _ _ accepted => simp [accepted] at refused

theorem Inv.refuses_when_empty (inv : Inv capacity state) : RefusesWhenEmpty capacity state := by
  intro next ran refused
  rw [← inv.head_eq, ← inv.tail_eq]
  obtain ⟨call, active, effect⟩ := popStep_effect ran
  have valid := inv.consumer call active
  cases effect.outcome with
  | silent _ _ same | loaded _ _ _ _ _ same => simp [same] at refused
  | refused point =>
    simp only [PopCall.Valid, point] at valid
    exact valid.2
  | retired _ _ _ _ _ accepted => simp [accepted] at refused

/-- The queue with one producer view and one consumer view, both attached before
the first push, refines the bounded FIFO. -/
theorem spsc_refines_fifo {producer consumer : ViewId} {slots : Nat → Value}
    (path : Reaches (step capacity) (TwoViews producer consumer) (initial slots) state) :
    ∃ queue : Fifo Value capacity.size, Represents state queue ∧
      (∀ action next, TwoViews producer consumer state action → step capacity state action = some next →
        ∃ later : Fifo Value capacity.size, Represents next later ∧ Fifo.Step queue later) ∧
      state.tryPops.reduceOption <+: state.pushed ∧
      state.pushed.length ≤ state.tryPops.reduceOption.length + capacity.size ∧
      WritesFreeSlot capacity state ∧ RefusesWhenFull capacity state ∧
      RefusesWhenEmpty capacity state ∧ BatchesExact state := by
  obtain ⟨inv, between⟩ := CacheBetween.reaches path
  refine ⟨inv.fifo, inv.represents, ?_, ?_, ?_, inv.writes_free_slot, inv.refuses_when_full,
    inv.refuses_when_empty, ⟨inv.returned, inv.pushed_eq, inv.popped_calls⟩⟩
  · intro action next two advanced
    have careful := between.careful two
    have after := inv.step careful advanced
    exact ⟨after.fifo, after.represents, fifo_step inv after careful advanced⟩
  · rw [← inv.popped_tries, inv.popped_eq]
    exact List.take_prefix _ _
  · rw [← inv.popped_tries, ← inv.tail_eq, ← inv.head_eq]
    exact inv.head_le

def shortBatch : List (Action Nat) :=
  [.push 0 [5, 6, 7]] ++ List.replicate 8 .pushStep ++ [.pop 1 1] ++ List.replicate 4 .popStep

theorem spsc_refines_fifo_short_batch :
    ∃ state : State Nat, Reaches (step twoSlots) (TwoViews 0 1) (initial fun _ => 0) state ∧
      state.tryPushes = [true, true, false] ∧ state.tryPops = [some 5] ∧
      state.tryPops.reduceOption <+: state.pushed ∧ BatchesExact state := by
  have passes : (executeIf (step twoSlots) (twoViews 0 1) (initial fun _ => 0) shortBatch).any
      (fun state => decide (state.tryPushes = [true, true, false] ∧ state.tryPops = [some 5])) = true := by decide
  obtain ⟨state, path, ends⟩ := exists_reaches_of_executeIf (fun _ _ => id) passes
  rw [decide_eq_true_eq] at ends
  obtain ⟨_, _, _, popped, _, _, _, _, batches⟩ := spsc_refines_fifo path
  exact ⟨state, path, ends.1, ends.2, popped, batches⟩

end AnimusCore.Spsc
