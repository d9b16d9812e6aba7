import AnimusCore.Spsc.Queue
import Mathlib.Data.List.ReduceOption

/-! The invariant of the queue. It holds as long as no attempt to pop starts on an
empty queue with a cached head that says otherwise; the producer needs no such
condition, because an outdated cached tail only makes it more careful. -/

set_option autoImplicit false

namespace AnimusCore.Spsc

open Lib Lib.Ring List

variable {Value : Type} {capacity : Capacity} {state next : State Value}

def PushCall.Valid (capacity : Capacity) (state : State Value) (call : PushCall Value) : Prop :=
  call.pushed < call.orders.length ∧
    match call.point with
    | .loadHead => True
    | .loadTail head => head = state.head
    | .writeSlot head => head = state.head ∧ state.head < state.tail + capacity.size
    | .storeHead head => head = state.head ∧ state.head < state.tail + capacity.size ∧
        call.orders[call.pushed]? = some (state.slots (capacity.slot head))

def PopCall.Valid (state : State Value) (call : PopCall Value) : Prop :=
  call.out.length < call.maxCount ∧
    match call.point with
    | .loadTail => True
    | .loadHead tail => tail = state.tail
    | .readSlot tail => tail = state.tail ∧ state.tail < state.head
    | .storeTail tail out => tail = state.tail ∧ state.pushed[tail]? = some out

def State.pushing (state : State Value) : List Value :=
  match state.producer with
  | none => []
  | some call => call.orders.take call.pushed

def State.popping (state : State Value) : List Value :=
  match state.consumer with
  | none => []
  | some call => call.out

structure Inv (capacity : Capacity) (state : State Value) : Prop where
  head_eq : state.head = state.pushed.length
  head_lt : state.head < wordSize
  tail_le : state.tail ≤ state.head
  head_le : state.head ≤ state.tail + capacity.size
  popped_eq : state.popped = state.pushed.take state.tail
  stored : ∀ (position : Nat) value, state.tail ≤ position →
    state.pushed[position]? = some value → state.slots (capacity.slot position) = value
  cachedTail_le : ∀ view, (state.views view).cachedTail ≤ state.tail
  producer : ∀ call, state.producer = some call → call.Valid capacity state
  consumer : ∀ call, state.consumer = some call → call.Valid state
  returned : ∀ result ∈ state.pushReturns, result.count ≤ result.orders.length
  pushed_eq : state.pushed =
    (state.pushReturns.flatMap fun result => result.orders.take result.count) ++ state.pushing
  popped_calls : state.popped = state.popReturns.flatten ++ state.popping
  popped_tries : state.popped = state.tryPops.reduceOption

theorem Inv.initial (slots : Nat → Value) : Inv capacity (initial slots) := by
  constructor <;> simp [Spsc.initial, State.pushing, State.popping, wordSize, reduceOption_nil]

section
variable (state : State Value)

/-- An attempt to pop that starts on an empty queue does not have a cached head
other than the tail. -/
def State.cacheCurrent (call : PopCall Value) : Bool :=
  match call.point with
  | .loadTail => decide (state.tail = state.head → (state.views call.view).cachedHead = state.tail)
  | _ => true

def State.belowWrap (call : PushCall Value) : Bool :=
  match call.point with
  | .storeHead _ => decide (state.head + 1 < wordSize)
  | _ => true

/-- The conditions under which a step keeps the invariant. -/
def careful : Action Value → Bool
  | .popStep => state.consumer.all state.cacheCurrent
  | .pushStep => state.producer.all state.belowWrap
  | _ => true

def Careful (action : Action Value) : Prop := careful state action = true

end

section
variable (inv : Inv capacity state)
include inv

theorem Inv.tail_eq : state.tail = state.popped.length := by
  rw [inv.popped_eq, length_take, ← inv.head_eq, min_eq_left inv.tail_le]

theorem Inv.update_cachedTail_le {view : ViewId} {cached : View} (le : cached.cachedTail ≤ state.tail) :
    ∀ other, (Function.update state.views view cached other).cachedTail ≤ state.tail :=
  (Function.forall_update_iff state.views fun _ kept => kept.cachedTail ≤ state.tail).mpr
    ⟨le, fun other _ => inv.cachedTail_le other⟩

theorem Inv.returned_append {result : PushReturn Value} (count_le : result.count ≤ result.orders.length) :
    ∀ other ∈ state.pushReturns ++ [result], other.count ≤ other.orders.length :=
  forall_mem_append.mpr ⟨inv.returned, forall_mem_singleton.mpr count_le⟩

theorem Inv.attach {view : ViewId} (ran : state.attach view = some next) : Inv capacity next := by
  unfold State.attach at ran
  split at ran
  · cases ran
  · cases ran
    exact { inv with cachedTail_le := inv.update_cachedTail_le (Nat.zero_le _) }

theorem Inv.push {view : ViewId} {orders : List Value}
    (ran : state.push view orders = some next) : Inv capacity next := by
  unfold State.push at ran
  split at ran
  case h_1 => cases ran
  case h_2 idle =>
    have pushed := inv.pushed_eq
    simp only [State.pushing, idle] at pushed
    split at ran
    case isTrue empty =>
      cases ran
      refine { inv with returned := inv.returned_append (Nat.zero_le _), pushed_eq := ?_ }
      simp only [State.pushing, idle]
      simpa using pushed
    case isFalse nonempty =>
      cases ran
      have positive : 0 < orders.length := by
        rw [length_pos_iff]
        simpa using nonempty
      refine { inv with producer := ?_, pushed_eq := ?_ }
      · rintro _ ⟨⟩
        exact ⟨positive, trivial⟩
      · simpa [State.pushing] using pushed

theorem Inv.pop {view : ViewId} {maxCount : Nat} (ran : state.pop view maxCount = some next) : Inv capacity next := by
  unfold State.pop at ran
  split at ran
  case h_1 => cases ran
  case h_2 idle =>
    have popped := inv.popped_calls
    simp only [State.popping, idle] at popped
    split at ran
    case isTrue nothing =>
      cases ran
      refine { inv with popped_calls := ?_ }
      simp only [State.popping, idle]
      simpa using popped
    case isFalse positive =>
      cases ran
      refine { inv with consumer := ?_, popped_calls := ?_ }
      · rintro _ ⟨⟩
        exact ⟨Nat.pos_of_ne_zero positive, trivial⟩
      · simpa [State.popping] using popped

end

section Producer

variable {call : PushCall Value} (inv : Inv capacity state) (active : state.producer = some call)
  (ran : state.pushStep capacity = some next)
include inv active ran

theorem Inv.pushLoadHead (point : call.point = .loadHead) : Inv capacity next := by
  have valid := inv.producer call active
  have cached := inv.cachedTail_le call.view
  have ordered := cached.trans inv.tail_le
  unfold State.pushStep at ran
  simp only [active, point, sub64_eq ordered inv.head_lt] at ran
  have pushed := inv.pushed_eq
  simp only [State.pushing, active] at pushed
  split at ran
  case isTrue full =>
    cases ran
    refine { inv with producer := ?_, pushed_eq := pushed }
    rintro _ ⟨⟩
    exact ⟨valid.1, rfl⟩
  case isFalse room =>
    cases ran
    refine { inv with producer := ?_, pushed_eq := pushed }
    rintro _ ⟨⟩
    exact ⟨valid.1, rfl, by simp only; omega⟩

theorem Inv.pushLoadTail {head : Nat} (point : call.point = .loadTail head) : Inv capacity next := by
  have valid := inv.producer call active
  simp only [PushCall.Valid, point] at valid
  obtain ⟨inside, rfl⟩ := valid
  have pushed := inv.pushed_eq
  simp only [State.pushing, active] at pushed
  unfold State.pushStep at ran
  simp only [active, point, sub64_eq inv.tail_le inv.head_lt] at ran
  split at ran
  case isTrue full =>
    cases ran
    refine { inv with
      cachedTail_le := inv.update_cachedTail_le (Nat.le_refl _), producer := nofun
      returned := inv.returned_append inside.le, pushed_eq := ?_ }
    simpa [State.pushing] using pushed
  case isFalse room =>
    cases ran
    refine { inv with
      cachedTail_le := inv.update_cachedTail_le (Nat.le_refl _), producer := ?_
      pushed_eq := pushed }
    rintro _ ⟨⟩
    exact ⟨inside, rfl, by simp only; omega⟩

theorem Inv.pushWriteSlot {head : Nat} (point : call.point = .writeSlot head) : Inv capacity next := by
  have valid := inv.producer call active
  simp only [PushCall.Valid, point] at valid
  obtain ⟨inside, rfl, room⟩ := valid
  have pushed := inv.pushed_eq
  simp only [State.pushing, active] at pushed
  unfold State.pushStep at ran
  simp only [active, point, List.getElem?_eq_getElem inside] at ran
  cases ran
  refine { inv with stored := ?_, producer := ?_, pushed_eq := pushed }
  · intro pos value unpopped found
    change state.tail ≤ pos at unpopped
    have published := (List.getElem?_eq_some_iff.mp found).1
    rw [← inv.head_eq] at published
    simp only [Function.update_of_ne (capacity.slot_ne published (by omega))]
    exact inv.stored pos value unpopped found
  · rintro _ ⟨⟩
    exact ⟨inside, rfl, room, by simp [List.getElem?_eq_getElem inside]⟩

theorem Inv.pushStoreHead {head : Nat} (point : call.point = .storeHead head) (below : state.head + 1 < wordSize) :
    Inv capacity next := by
  have valid := inv.producer call active
  simp only [PushCall.Valid, point] at valid
  obtain ⟨inside, rfl, room, written⟩ := valid
  have pushed := inv.pushed_eq
  simp only [State.pushing, active] at pushed
  unfold State.pushStep at ran
  simp only [active, point, written, succ64_eq below] at ran
  -- The published order is the one the slot holds.
  have taken : call.orders.take (call.pushed + 1) =
      call.orders.take call.pushed ++ [state.slots (capacity.slot state.head)] := by
    rw [take_add_one, written, Option.toList_some]
  have popped : state.popped = (state.pushed ++ [state.slots (capacity.slot state.head)]).take state.tail := by
    rw [take_append_of_le_length (inv.head_eq ▸ inv.tail_le)]
    exact inv.popped_eq
  have stored : ∀ (pos : Nat) value, state.tail ≤ pos →
      (state.pushed ++ [state.slots (capacity.slot state.head)])[pos]? = some value →
      state.slots (capacity.slot pos) = value := by
    intro pos value unpopped found
    rcases Nat.lt_or_ge pos state.pushed.length with before | last
    · rw [List.getElem?_append_left before] at found
      exact inv.stored pos value unpopped found
    · have bound := (List.getElem?_eq_some_iff.mp found).1
      rw [length_append, length_singleton] at bound
      have here : pos = state.pushed.length := by omega
      rw [here, List.getElem?_concat_length, Option.some.injEq, inv.head_eq] at found
      rw [here, found]
  have consumer : ∀ pop, state.consumer = some pop → pop.Valid { state with
      head := state.head + 1
      pushed := state.pushed ++ [state.slots (capacity.slot state.head)] } := by
    intro pop running
    obtain ⟨more, held⟩ := inv.consumer pop running
    refine ⟨more, ?_⟩
    cases here : pop.point with
    | loadTail => trivial
    | loadHead tail => simpa only [here] using held
    | readSlot tail =>
      simp only [here] at held ⊢
      exact ⟨held.1, Nat.lt_succ_of_lt held.2⟩
    | storeTail tail out =>
      simp only [here] at held ⊢
      have bound := (List.getElem?_eq_some_iff.mp held.2).1
      exact ⟨held.1, by rw [List.getElem?_append_left bound]; exact held.2⟩
  have length : state.head + 1 = (state.pushed ++ [state.slots (capacity.slot state.head)]).length := by
    rw [length_append, length_singleton, ← inv.head_eq]
  have ordered := inv.tail_le
  unfold State.pushAccepted at ran
  split at ran
  case isTrue more =>
    cases ran
    refine { inv with
      head_eq := length, head_lt := below, tail_le := by simp only; omega
      head_le := by simp only; omega, popped_eq := popped, stored := stored
      producer := ?_, consumer := consumer, pushed_eq := ?_ }
    · rintro _ ⟨⟩
      exact ⟨more, trivial⟩
    · simp only [State.pushing, taken, ← append_assoc, ← pushed]
  case isFalse last =>
    cases ran
    refine { inv with
      head_eq := length, head_lt := below, tail_le := by simp only; omega
      head_le := by simp only; omega, popped_eq := popped, stored := stored
      producer := nofun, consumer := consumer, returned := inv.returned_append inside
      pushed_eq := ?_ }
    simp only [State.pushing, flatMap_append, flatMap_singleton, taken, append_nil, ← append_assoc, ← pushed]

end Producer

section Consumer

variable {call : PopCall Value} (inv : Inv capacity state) (active : state.consumer = some call)
  (ran : state.popStep capacity = some next)
include inv active ran

theorem Inv.popLoadTail (point : call.point = .loadTail)
    (current : state.tail = state.head → (state.views call.view).cachedHead = state.tail) : Inv capacity next := by
  have valid := inv.consumer call active
  have popped := inv.popped_calls
  simp only [State.popping, active] at popped
  unfold State.popStep at ran
  simp only [active, point] at ran
  split at ran
  case isTrue same =>
    cases ran
    refine { inv with consumer := ?_, popped_calls := popped }
    rintro _ ⟨⟩
    exact ⟨valid.1, rfl⟩
  case isFalse differ =>
    cases ran
    have more : state.tail ≠ state.head := fun empty => differ (current empty).symm
    refine { inv with consumer := ?_, popped_calls := popped }
    rintro _ ⟨⟩
    exact ⟨valid.1, rfl, Nat.lt_of_le_of_ne inv.tail_le more⟩

theorem Inv.popLoadHead {tail : Nat} (point : call.point = .loadHead tail) : Inv capacity next := by
  have valid := inv.consumer call active
  simp only [PopCall.Valid, point] at valid
  obtain ⟨more, rfl⟩ := valid
  have popped := inv.popped_calls
  simp only [State.popping, active] at popped
  unfold State.popStep at ran
  simp only [active, point] at ran
  split at ran
  case isTrue empty =>
    cases ran
    refine { inv with
      cachedTail_le := inv.update_cachedTail_le (inv.cachedTail_le _), consumer := nofun
      popped_calls := ?_, popped_tries := ?_ }
    · simpa [State.popping] using popped
    · simpa [reduceOption_append] using inv.popped_tries
  case isFalse nonempty =>
    cases ran
    refine { inv with
      cachedTail_le := inv.update_cachedTail_le (inv.cachedTail_le _), consumer := ?_
      popped_calls := popped }
    rintro _ ⟨⟩
    exact ⟨more, rfl, Nat.lt_of_le_of_ne inv.tail_le nonempty⟩

theorem Inv.popReadSlot {tail : Nat} (point : call.point = .readSlot tail) : Inv capacity next := by
  have valid := inv.consumer call active
  simp only [PopCall.Valid, point] at valid
  obtain ⟨more, rfl, published⟩ := valid
  have popped := inv.popped_calls
  simp only [State.popping, active] at popped
  unfold State.popStep at ran
  simp only [active, point] at ran
  cases ran
  refine { inv with consumer := ?_, popped_calls := popped }
  rintro _ ⟨⟩
  rw [inv.head_eq] at published
  have found := List.getElem?_eq_getElem published
  refine ⟨more, rfl, ?_⟩
  rw [inv.stored state.tail _ (le_refl _) found]
  exact found

theorem Inv.popStoreTail {tail : Nat} {out : Value} (point : call.point = .storeTail tail out) : Inv capacity next := by
  have valid := inv.consumer call active
  simp only [PopCall.Valid, point] at valid
  obtain ⟨more, rfl, found⟩ := valid
  have published := (List.getElem?_eq_some_iff.mp found).1
  rw [← inv.head_eq] at published
  have wrap := inv.head_lt
  have ordered := inv.head_le
  have popped := inv.popped_calls
  simp only [State.popping, active] at popped
  unfold State.popStep at ran
  simp only [active, point, succ64_eq (Nat.lt_of_le_of_lt published wrap)] at ran
  have taken : state.popped ++ [out] = state.pushed.take (state.tail + 1) := by
    rw [take_add_one, found, Option.toList_some, ← inv.popped_eq]
  have stored : ∀ (pos : Nat) value, state.tail + 1 ≤ pos →
      state.pushed[pos]? = some value → state.slots (capacity.slot pos) = value :=
    fun pos value unpopped => inv.stored pos value (Nat.le_of_succ_le unpopped)
  have producer : ∀ push, state.producer = some push → push.Valid capacity { state with tail := state.tail + 1 } := by
    intro push running
    obtain ⟨inside, held⟩ := inv.producer push running
    refine ⟨inside, ?_⟩
    cases here : push.point with
    | loadHead => trivial
    | loadTail head => simpa only [here] using held
    | writeSlot head =>
      simp only [here] at held ⊢
      exact ⟨held.1, by omega⟩
    | storeHead head =>
      simp only [here] at held ⊢
      exact ⟨held.1, by omega, held.2.2⟩
  have tries : state.popped ++ [out] = (state.tryPops ++ [some out]).reduceOption := by
    rw [reduceOption_append, reduceOption_singleton, Option.toList_some, ← inv.popped_tries]
  unfold State.popAccepted at ran
  split at ran
  case isTrue again =>
    cases ran
    refine { inv with
      tail_le := published, head_le := by simp only; omega, popped_eq := taken
      stored := stored, producer := producer
      cachedTail_le := fun view => (inv.cachedTail_le view).trans (Nat.le_succ _)
      consumer := ?_, popped_calls := ?_, popped_tries := tries }
    · rintro _ ⟨⟩
      exact ⟨by simpa using again, trivial⟩
    · simp only [State.popping, popped, append_assoc]
  case isFalse last =>
    cases ran
    refine { inv with
      tail_le := published, head_le := by simp only; omega, popped_eq := taken
      stored := stored, producer := producer
      cachedTail_le := fun view => (inv.cachedTail_le view).trans (Nat.le_succ _)
      consumer := nofun, popped_calls := ?_, popped_tries := tries }
    simp [State.popping, popped]

end Consumer

theorem Inv.step (inv : Inv capacity state) {action : Action Value} (careful : Careful state action)
    (ran : step capacity state action = some next) : Inv capacity next := by
  cases action with
  | attach view => exact inv.attach ran
  | push view orders => exact inv.push ran
  | pushStep =>
    cases active : state.producer with
    | none => simp [Spsc.step, State.pushStep, active] at ran
    | some call =>
      cases point : call.point with
      | loadHead => exact inv.pushLoadHead active ran point
      | loadTail head => exact inv.pushLoadTail active ran point
      | writeSlot head => exact inv.pushWriteSlot active ran point
      | storeHead head =>
        have below : state.head + 1 < wordSize := by
          simpa [Careful, Spsc.careful, active, State.belowWrap, point] using careful
        exact inv.pushStoreHead active ran point below
  | pop view maxCount => exact inv.pop ran
  | popStep =>
    cases active : state.consumer with
    | none => simp [Spsc.step, State.popStep, active] at ran
    | some call =>
      cases point : call.point with
      | loadTail =>
        have current : state.tail = state.head → (state.views call.view).cachedHead = state.tail := by
          simpa [Careful, Spsc.careful, active, State.cacheCurrent, point, imp_iff_not_or] using careful
        exact inv.popLoadTail active ran point current
      | loadHead tail => exact inv.popLoadHead active ran point
      | readSlot tail => exact inv.popReadSlot active ran point
      | storeTail tail out => exact inv.popStoreTail active ran point

theorem Inv.reaches {slots : Nat → Value} (path : Reaches (Spsc.step capacity) Careful (Spsc.initial slots) state) :
    Inv capacity state :=
  path.invariant (Inv.initial slots) fun _ _ _ inv careful ran => inv.step careful ran

end AnimusCore.Spsc
