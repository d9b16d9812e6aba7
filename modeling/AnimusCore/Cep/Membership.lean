import AnimusCore.Cep.Native

/-! Whether the event just fed is inside its own window. The eviction drops entries
from the front until a test fails, so the new entry at the back stays exactly if its own
test fails or the loop stops before it. Its own test holds only if adding the window
size wraps. -/

set_option autoImplicit false

namespace AnimusCore.Cep

open Lib

variable {rule : CepRule} {state : CepRuleState} {value nowMs : UInt64}

theorem CepRule.add_size_le_self_iff (rule : CepRule) (word : UInt64) :
    word + rule.size ≤ word ↔ ¬ word.toNat + rule.pythonSize < 2 ^ 64 := by
  have size := rule.one_le_pythonSize
  have bound := rule.size_lt
  rw [UInt64.le_iff_toNat_le, UInt64.toNat_add, rule.size_toNat]
  omega

private theorem evictFifo_count (counts : rule.windowType = .count) {entries : List CepWindowEntry} {runningSum : UInt64} :
    (rule.evictFifo nowMs entries runningSum).1 = entries.drop (entries.length - rule.pythonSize) := by
  induction entries generalizing runningSum with
  | nil => simp [CepRule.evictFifo]
  | cons front rest ih =>
    simp only [CepRule.evictFifo, CepRule.leavesFifo, counts, decide_eq_true_eq,
      List.length_cons, rule.size_toNat, drop_excess_cons]
    split
    · exact ih
    · rfl

private theorem evictFifo_time (times : rule.windowType = .time) {entries : List CepWindowEntry}
    {runningSum : UInt64} : (rule.evictFifo nowMs entries runningSum).1 =
      entries.dropWhile fun entry => entry.timestampMs + rule.size ≤ nowMs := by
  induction entries generalizing runningSum with
  | nil => rfl
  | cons front rest ih =>
    simp only [CepRule.evictFifo, CepRule.leavesFifo, times, List.dropWhile_cons]
    split
    · exact ih
    · rfl

namespace CepRuleState

/-- The new entry's own eviction test does not wrap. -/
def KeyFits (state : CepRuleState) (nowMs : UInt64) : Prop :=
  match state.rule.windowType with
  | .count => (state.sequenceCounter + 1).toNat + state.rule.pythonSize < 2 ^ 64
  | .time => nowMs.toNat + state.rule.pythonSize < 2 ^ 64

/-- What keeps the new entry in its window: a count window of a sum always does; else the
entry's own key fits, or an older entry that is still in the deque passes its test. -/
def Stays (state : CepRuleState) (value nowMs : UInt64) : Prop :=
  let spared := fun entry => state.rule.expired (state.sequenceCounter + 1) nowMs entry = false
  match state.rule.aggregation with
  | .sum | .avg => state.rule.windowType = .count ∨ state.KeyFits nowMs ∨ ∃ older ∈ state.sumWindow, spared older
  | .max => state.KeyFits nowMs ∨
      ∃ older ∈ state.maxMonotonic.rdropWhile (fun back => back.value ≤ value), spared older
  | .min => state.KeyFits nowMs ∨
      ∃ older ∈ state.minMonotonic.rdropWhile (fun back => back.value ≥ value), spared older

/-- The entry is at the back of its deque, the front exists, and so does the result. -/
def EntryInside (state : CepRuleState) (value nowMs : UInt64) : Prop :=
  (state.feed value nowMs).window.getLast? = some (state.entry value nowMs) ∧
    1 ≤ (state.feed value nowMs).window.length ∧ (state.onEvent value nowMs).isSome = true

private theorem expired_entry : state.rule.expired (state.sequenceCounter + 1) nowMs
    (state.entry value nowMs) = false ↔ state.KeyFits nowMs := by
  unfold CepRule.expired KeyFits entry
  cases state.rule.windowType with
  | count | time => simp only [CepRule.add_size_le_self_iff, decide_eq_false_iff_not, not_not]

private theorem stays_of_evictMonotonic {deque : List CepWindowEntry} :
    (state.rule.evictMonotonic (state.sequenceCounter + 1) nowMs
        (deque ++ [state.entry value nowMs])).getLast? = some (state.entry value nowMs) ↔
      state.KeyFits nowMs ∨ ∃ older ∈ deque, state.rule.expired (state.sequenceCounter + 1) nowMs older = false := by
  rw [CepRule.evictMonotonic, getLast?_dropWhile_concat, expired_entry]

private theorem stays_of_evictFifo {runningSum : UInt64} :
    (state.rule.evictFifo nowMs (state.sumWindow ++ [state.entry value nowMs])
        runningSum).1.getLast? = some (state.entry value nowMs) ↔
      state.rule.windowType = .count ∨ state.KeyFits nowMs ∨ ∃ older ∈ state.sumWindow,
        state.rule.expired (state.sequenceCounter + 1) nowMs older = false := by
  cases kind : state.rule.windowType with
  | count =>
    have size := state.rule.one_le_pythonSize
    rw [evictFifo_count kind, List.getLast?_drop, if_neg, List.getLast?_concat]
    · simp
    · rw [List.length_append, List.length_singleton]
      omega
  | time =>
    have tests : (fun entry : CepWindowEntry =>
        decide (entry.timestampMs + state.rule.size ≤ nowMs)) =
        state.rule.expired (state.sequenceCounter + 1) nowMs := by
      funext entry
      simp only [CepRule.expired, kind]
    rw [evictFifo_time kind, tests, getLast?_dropWhile_concat, expired_entry]
    simp

theorem getLast?_window : (state.feed value nowMs).window.getLast? =
    some (state.entry value nowMs) ↔ state.Stays value nowMs := by
  unfold window Stays
  rw [feed_rule]
  cases kind : state.rule.aggregation with
  | sum =>
    have fed := congrArg Prod.fst (feed_sum value nowMs (.inl kind))
    simp only at fed ⊢
    rw [fed]
    exact stays_of_evictFifo
  | avg =>
    have fed := congrArg Prod.fst (feed_sum value nowMs (.inr kind))
    simp only at fed ⊢
    rw [fed]
    exact stays_of_evictFifo
  | max | min =>
    simp only [feed, kind]
    exact stays_of_evictMonotonic

private theorem isSome_result (filled : state.window ≠ []) : state.result.isSome = true := by
  cases kind : state.rule.aggregation with
  | sum | avg => simp only [result, kind, Option.isSome_some]
  | max | min =>
    simp only [window, kind] at filled
    simpa only [result, kind, Option.isSome_map, List.isSome_head?, Bool.not_eq_true',
      List.isEmpty_eq_false_iff] using filled

private theorem entryInside_iff : state.EntryInside value nowMs ↔ state.Stays value nowMs := by
  rw [← getLast?_window]
  refine ⟨And.left, fun last => ⟨last, ?_, ?_⟩⟩
  · exact List.length_pos_iff.mpr fun empty => by rw [empty] at last; cases last
  · rw [onEvent, Option.isSome_map]
    exact isSome_result fun empty => by rw [empty] at last; cases last

end CepRuleState

/-- In every sequence of calls, whatever the order of the times, a call keeps the event it
feeds exactly under the condition. -/
theorem entry_inside_iff (rule : CepRule) (events : List Event) (event : Event) :
    (stateAfter rule events).EntryInside event.value event.nowMs ↔
      (stateAfter rule events).Stays event.value event.nowMs :=
  CepRuleState.entryInside_iff

def unboundedMin : CepRule := ⟨1, 42, .count, 0xFFFFFFFFFFFFFFFF, .min, .lessThan, 10, 5⟩

def unboundedAvg : CepRule := ⟨2, 42, .time, 0xFFFFFFFFFFFFFFFF, .avg, .lessThan, 10, 5⟩

/-- The first event is evicted by its own call: the minimum is taken from an empty deque,
and the average over no event. -/
theorem entry_evicted_at_once : (stateAfter unboundedMin []).onEvent 5 1 = none ∧
      ((stateAfter unboundedMin []).feed 5 1).minMonotonic = [] ∧
      ((stateAfter unboundedAvg []).feed 5 1).sumWindow = [] := by
  decide +kernel

end AnimusCore.Cep
