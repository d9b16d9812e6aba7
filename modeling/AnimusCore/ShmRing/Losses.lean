import AnimusCore.ShmRing.Accounting

/-! Lost records against `dropped_count`. Between calls a pushed record can still be
returned exactly if it is not before the oldest one left. The records before it are
covered by the counter in every run that lets each pending exchange settle; a run
that does not is shown to lose a record with the counter at zero. -/

set_option autoImplicit false

namespace AnimusCore.ShmRing

open Lib Lib.Ring List

variable {Word : Type} {width : Nat} [Inhabited Word] {capacity : Capacity}
  {state after : State Word width} {slots : Nat → Words Word width} {counted : Finset Nat}
  {action : Action Word width} {position : Nat}

/-- The record was pushed, and no continuation has it returned. -/
def State.Lost (capacity : Capacity) (state : State Word width) (position : Nat) : Prop :=
  position < state.head ∧ ∀ later, Reaches (step capacity) Bounded state later →
    ∀ value, (position, value) ∉ later.returned

omit [Inhabited Word] in
theorem ByConsumer.bounded (own : ByConsumer state action) : Bounded state action := by
  cases action with
  | tryPop | consume | consumeWord => rfl
  | tryPush | pushOverwrite | produce | produceWord => cases own

theorem Inv.returnable (inv : Inv capacity state) (stopped : state.producer = .idle)
    (idle : state.consumer = .idle) (unread : state.oldest capacity ≤ position)
    (inside : position < state.head) : ¬ state.Lost capacity position := by
  rintro ⟨-, never⟩
  have draining := Draining.refl inv stopped idle
  obtain ⟨later, path, -, results⟩ := draining.calls idle (position - state.oldest capacity + 1)
  obtain ⟨value, found⟩ : ∃ value, state.pushed[position]? = some value := by
    rw [inv.head_eq] at inside
    exact ⟨_, List.getElem?_eq_getElem inside⟩
  have current : state.oldest capacity + (position - state.oldest capacity) = position := by
    omega
  apply never later (path.mono fun _ _ => ByConsumer.bounded) value
  rw [State.returned, reduceOption_mem_iff, results, State.remaining_succ, current, found]
  simp

theorem Inv.step_returned (inv : Inv capacity state) (ran : ShmRing.step capacity state action = some after) :
    after.returned = state.returned ∨ ∃ tail snapshot, state.consumer = .storeTail tail snapshot ∧
        after.returned = state.returned ++ [(tail, snapshot)] := by
  cases action with
  | tryPush value | pushOverwrite value =>
    simp only [ShmRing.step, State.beginPush] at ran
    split at ran <;> cases ran
    exact .inl rfl
  | produce => cases inv.produces ran <;> exact .inl rfl
  | produceWord word => cases inv.producesWord ran <;> exact .inl rfl
  | tryPop =>
    simp only [ShmRing.step, State.beginPop] at ran
    split at ran <;> cases ran
    exact .inl rfl
  | consumeWord word => cases consumesWord ran <;> exact .inl rfl
  | consume =>
    cases inv.consumes ran with
    | storeTail here => exact .inr ⟨_, _, here, State.returned_some _ _⟩
    | empty | drained | giveUp => exact .inl (State.returned_none _)
    | _ => exact .inl rfl

theorem Inv.lost (inv : Inv capacity state) (inside : position < state.head) (passed : position < state.next)
    (absent : position ∉ state.returned.map Prod.fst) : state.Lost capacity position := by
  refine ⟨inside, fun later path value member => ?_⟩
  have kept : Inv capacity later ∧ position < later.next ∧ position ∉ later.returned.map Prod.fst := by
    apply path.invariant (And.intro inv (And.intro passed absent))
    rintro state action after ⟨inv, passed, absent⟩ permitted ran
    refine ⟨inv.step permitted ran, ?_⟩
    rcases inv.step_returned ran with same | ⟨tail, snapshot, here, more⟩
    · rw [State.next, same]
      exact ⟨passed, absent⟩
    · have unread := inv.consumer
      rw [here] at unread
      rw [State.next, more, List.getLast?_concat, map_append, mem_append]
      refine ⟨passed.trans_le (unread.1.trans (Nat.le_succ _)), ?_⟩
      rintro (earlier | last)
      · exact absent earlier
      · rw [map_singleton, mem_singleton] at last
        have bound := unread.1
        omega
  exact kept.2.2 (mem_map.mpr ⟨_, member, rfl⟩)

omit [Inhabited Word] in
theorem Accounts.covers (accounts : Accounts capacity state counted) (stopped : state.producer = .idle)
    (early : position < state.oldest capacity) : position ∈ state.returned.map Prod.fst ∨ position ∈ counted := by
  rcases Nat.lt_or_ge position state.next with passed | unread
  · exact accounts.past position passed
  · have claimed : state.claimed = state.head := by
      rw [State.claimed, stopped]
      rfl
    have gone := accounts.gone position unread (by unfold State.oldest at early; omega)
    rw [stopped] at gone
    simpa [Producer.reclaiming] using Or.inr gone

/-- Between calls of a run that lets every pending exchange settle, the counter
covers all records that were not and will not be returned. Once nothing is left to
return, it covers the difference between the records pushed and returned. -/
theorem dropped_count_covers_losses (path : Reaches (step capacity) (Undisturbed capacity) (initial slots) state)
    (stopped : state.producer = .idle) (idle : state.consumer = .idle) :
    (∀ lost : Finset Nat, (∀ position ∈ lost, state.Lost capacity position) → lost.card ≤ state.droppedCount) ∧
    (state.remaining capacity 1 = [none] → state.pushed.length ≤ state.returned.length + state.droppedCount) := by
  obtain ⟨counted, accounts⟩ := exists_accounts path
  have size := accounts.size
  rw [stopped] at size
  constructor
  · intro lost never
    refine (Finset.card_le_card fun position member => ?_).trans size
    have missing := never position member
    have early : position < state.oldest capacity := by
      by_contra unread
      exact accounts.inv.returnable stopped idle (Nat.not_lt.mp unread) missing.1 missing
    rcases accounts.covers stopped early with found | found
    · obtain ⟨entry, returned, rfl⟩ := mem_map.mp found
      exact absurd returned (missing.2 state .refl entry.2)
    · exact found
  · intro drained
    have last : state.pushed.length ≤ state.oldest capacity := by
      simpa [State.remaining] using drained
    have covered : Finset.range state.pushed.length ⊆ (state.returned.map Prod.fst).toFinset ∪ counted := by
      intro position member
      rw [Finset.mem_range] at member
      rw [Finset.mem_union, mem_toFinset]
      exact accounts.covers stopped (member.trans_le last)
    calc state.pushed.length = (Finset.range state.pushed.length).card := (Finset.card_range _).symm
      _ ≤ ((state.returned.map Prod.fst).toFinset ∪ counted).card := Finset.card_le_card covered
      _ ≤ (state.returned.map Prod.fst).toFinset.card + counted.card := Finset.card_union_le _ _
      _ ≤ state.returned.length + state.droppedCount :=
          Nat.add_le_add ((toFinset_card_le _).trans_eq (length_map _)) size

theorem dropped_count_covers_losses_third_push : ∃ state : State Nat 1,
      Reaches (step twoSlots) (Undisturbed twoSlots) (initial fun _ _ => 0) state ∧
      state.producer = .idle ∧ state.consumer = .idle ∧ state.droppedCount = 1 ∧
      ∀ lost : Finset Nat, (∀ position ∈ lost, state.Lost twoSlots position) → lost.card ≤ 1 := by
  have passes : (executeIf (step twoSlots) (undisturbed twoSlots) (initial fun _ _ => 0)
      (pushFree 10 ++ pushFree 11 ++ announceOverwrite 12 ++ settleOverwrite ++ popIntact)).any
        (fun state => decide (state.atRest = true ∧ state.droppedCount = 1)) = true := by
    decide +kernel
  obtain ⟨state, path, ends⟩ := exists_reaches_of_executeIf (fun _ _ => id) passes
  rw [decide_eq_true_eq, State.atRest_iff] at ends
  obtain ⟨⟨stopped, idle⟩, dropped⟩ := ends
  obtain ⟨covered, -⟩ := dropped_count_covers_losses path stopped idle
  rw [dropped] at covered
  exact ⟨state, path, stopped, idle, dropped, covered⟩

def popSecond : List (Action Nat 1) :=
  [.tryPop, .consume, .consume, .consume, .consume, .consume, .consumeWord (.last 0), .consume,
    .consume, .consumeWord (.last 0), .consume, .consume]

def overtakenOverwrite : List (Action Nat 1) :=
  [.produce, .produceWord (.last 0), .produce, .produce]

/-- The third record is announced, the consumer skips the first one and returns the
second, and the exchange finds nothing to do: one record is lost, none is counted. -/
theorem dropped_count_undercounts :
    ∃ state : State Nat 1, Reaches (step twoSlots) Bounded (initial fun _ _ => 0) state ∧
      state.producer = .idle ∧ state.consumer = .idle ∧ state.droppedCount = 0 ∧ state.Lost twoSlots 0 := by
  have passes : (executeIf (step twoSlots) bounded (initial fun _ _ => 0)
      (pushFree 10 ++ pushFree 11 ++ announceOverwrite 12 ++ popSecond ++
        overtakenOverwrite)).any (fun state => decide (state.atRest = true ∧
          state.droppedCount = 0 ∧ state.head = 3 ∧ state.next = 2 ∧ state.returned.map Prod.fst = [1])) = true := by
    decide +kernel
  obtain ⟨state, path, ends⟩ := exists_reaches_of_executeIf (fun _ _ => id) passes
  rw [decide_eq_true_eq, State.atRest_iff] at ends
  obtain ⟨⟨stopped, idle⟩, dropped, head, next, returned⟩ := ends
  refine ⟨state, path, stopped, idle, dropped, (inv_of_reaches path).lost ?_ ?_ ?_⟩
  · omega
  · omega
  · rw [returned]
    decide

end AnimusCore.ShmRing
