import AnimusCore.Spsc.Queue

/-! What one shared access changes. An access of one side leaves the other side's
index, history and call alone; the two inductive types list what it may do to its
own. -/

set_option autoImplicit false

namespace AnimusCore.Spsc

open Lib Lib.Ring

variable {Value : Type} {capacity : Capacity} {state next : State Value}

inductive PushOutcome (capacity : Capacity) (state next : State Value) : Prop where
  | silent : next.head = state.head → next.pushed = state.pushed →
      next.tryPushes = state.tryPushes → PushOutcome capacity state next
  | refused (call : PushCall Value) (head : Nat) : state.producer = some call →
      call.point = .loadTail head → sub64 head state.tail ≥ capacity.size →
      next.head = state.head → next.pushed = state.pushed →
      next.tryPushes = state.tryPushes ++ [false] → PushOutcome capacity state next
  | stored (call : PushCall Value) (head : Nat) (order : Value) : state.producer = some call →
      call.point = .storeHead head → next.head = succ64 head →
      next.pushed = state.pushed ++ [order] → next.tryPushes = state.tryPushes ++ [true] →
      PushOutcome capacity state next

structure PushEffect (capacity : Capacity) (state next : State Value) : Prop where
  tail_eq : next.tail = state.tail
  popped_eq : next.popped = state.popped
  consumer_eq : next.consumer = state.consumer
  cachedHead_eq : ∀ view, (next.views view).cachedHead = (state.views view).cachedHead
  outcome : PushOutcome capacity state next

theorem pushStep_effect (ran : state.pushStep capacity = some next) : PushEffect capacity state next := by
  unfold State.pushStep at ran
  cases active : state.producer with
  | none => simp [active] at ran
  | some call =>
    simp only [active] at ran
    cases point : call.point with
    | loadHead =>
      simp only [point] at ran
      split at ran
      all_goals
        cases ran
        exact ⟨rfl, rfl, rfl, fun _ => rfl, .silent rfl rfl rfl⟩
    | loadTail head =>
      simp only [point] at ran
      have cached := (Function.forall_update_iff state.views fun view cached =>
        cached.cachedHead = (state.views view).cachedHead).mpr
        ⟨show { state.views call.view with cachedTail := state.tail }.cachedHead = _ from rfl, fun _ _ => rfl⟩
      split at ran
      case isTrue full =>
        cases ran
        exact ⟨rfl, rfl, rfl, cached, .refused call head active point full rfl rfl rfl⟩
      case isFalse =>
        cases ran
        exact ⟨rfl, rfl, rfl, cached, .silent rfl rfl rfl⟩
    | writeSlot head =>
      simp only [point] at ran
      split at ran
      · cases ran
      · cases ran
        exact ⟨rfl, rfl, rfl, fun _ => rfl, .silent rfl rfl rfl⟩
    | storeHead head =>
      simp only [point] at ran
      split at ran
      · cases ran
      case h_2 order found =>
        unfold State.pushAccepted at ran
        split at ran
        all_goals
          cases ran
          exact ⟨rfl, rfl, rfl, fun _ => rfl, .stored call head order active point rfl rfl rfl⟩

def PopPoint.decided : PopPoint Value → Bool
  | .loadTail | .loadHead _ => false
  | .readSlot _ | .storeTail _ _ => true

inductive PopOutcome (state next : State Value) (call : PopCall Value) : Prop where
  | silent : next.tail = state.tail → next.popped = state.popped →
      next.tryPops = state.tryPops → next.views = state.views →
      (∀ after, next.consumer = some after → after.point.decided = true →
        call.point.decided = true ∨ state.tail ≠ (state.views call.view).cachedHead) →
      PopOutcome state next call
  | loaded (tail : Nat) : call.point = .loadHead tail → tail ≠ state.head →
      next.tail = state.tail → next.popped = state.popped → next.tryPops = state.tryPops →
      next.views = Function.update state.views call.view { state.views call.view with cachedHead := state.head } →
      PopOutcome state next call
  | refused : call.point = .loadHead state.head → next.tail = state.tail →
      next.popped = state.popped → next.tryPops = state.tryPops ++ [none] →
      next.views = Function.update state.views call.view
        { state.views call.view with cachedHead := state.head } → next.consumer = none →
      PopOutcome state next call
  | retired (tail : Nat) (out : Value) : call.point = .storeTail tail out →
      next.tail = succ64 tail → next.popped = state.popped ++ [out] →
      next.tryPops = state.tryPops ++ [some out] → next.views = state.views →
      (∀ after, next.consumer = some after → after.point.decided = false) →
      PopOutcome state next call

structure PopEffect (state next : State Value) (call : PopCall Value) : Prop where
  head_eq : next.head = state.head
  pushed_eq : next.pushed = state.pushed
  view_eq : ∀ after, next.consumer = some after → after.view = call.view
  outcome : PopOutcome state next call

theorem popStep_effect (ran : state.popStep capacity = some next) :
    ∃ call, state.consumer = some call ∧ PopEffect state next call := by
  unfold State.popStep at ran
  cases active : state.consumer with
  | none => simp [active] at ran
  | some call =>
    refine ⟨call, rfl, ?_⟩
    simp only [active] at ran
    cases point : call.point with
    | loadTail =>
      simp only [point] at ran
      split at ran
      case isTrue same =>
        cases ran
        refine ⟨rfl, rfl, ?_, .silent rfl rfl rfl rfl ?_⟩
        · rintro _ ⟨⟩
          rfl
        · rintro _ ⟨⟩ ⟨⟩
      case isFalse differ =>
        cases ran
        refine ⟨rfl, rfl, ?_, .silent rfl rfl rfl rfl fun _ _ _ => .inr differ⟩
        rintro _ ⟨⟩
        rfl
    | loadHead tail =>
      simp only [point] at ran
      split at ran
      case isTrue empty =>
        cases ran
        exact ⟨rfl, rfl, nofun, .refused (empty ▸ point) rfl rfl rfl rfl rfl⟩
      case isFalse nonempty =>
        cases ran
        refine ⟨rfl, rfl, ?_, .loaded tail point nonempty rfl rfl rfl rfl⟩
        rintro _ ⟨⟩
        rfl
    | readSlot tail =>
      simp only [point] at ran
      cases ran
      refine ⟨rfl, rfl, ?_, .silent rfl rfl rfl rfl fun _ _ _ => .inl (by rw [point]; rfl)⟩
      rintro _ ⟨⟩
      rfl
    | storeTail tail out =>
      simp only [point] at ran
      unfold State.popAccepted at ran
      split at ran
      · cases ran
        refine ⟨rfl, rfl, ?_, .retired tail out point rfl rfl rfl rfl ?_⟩
        all_goals
          rintro _ ⟨⟩
          rfl
      · cases ran
        exact ⟨rfl, rfl, nofun, .retired tail out point rfl rfl rfl rfl nofun⟩

end AnimusCore.Spsc
