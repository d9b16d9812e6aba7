import AnimusCore.Cep.Rescan

/-! Rules with a count window. The clock is read for them and never looked at, so what
such a rule reports is settled by the values it was fed. -/

set_option autoImplicit false

namespace AnimusCore.Cep

open Lib List

variable {rule : CepRule} {state : CepRuleState} {value nowMs : UInt64} {values : List UInt64}

def CepWindowEntry.untimed (entry : CepWindowEntry) : CepWindowEntry :=
  { entry with timestampMs := 0 }

def CepRuleState.untimed (state : CepRuleState) : CepRuleState :=
  { state with
    sumWindow := state.sumWindow.map CepWindowEntry.untimed
    minMonotonic := state.minMonotonic.map CepWindowEntry.untimed
    maxMonotonic := state.maxMonotonic.map CepWindowEntry.untimed }

private theorem evictFifo_untimed (nowMs : UInt64) (counts : rule.windowType = .count) (entries : List CepWindowEntry)
    (runningSum : UInt64) : rule.evictFifo 0 (entries.map CepWindowEntry.untimed) runningSum =
      ((rule.evictFifo nowMs entries runningSum).1.map CepWindowEntry.untimed,
        (rule.evictFifo nowMs entries runningSum).2) := by
  induction entries generalizing runningSum with
  | nil => rfl
  | cons front rest ih =>
    simp only [map_cons, CepRule.evictFifo, CepRule.leavesFifo, counts, length_cons, length_map]
    split
    · exact ih _
    · rfl

private theorem evictMonotonic_untimed (nowMs : UInt64) (counts : rule.windowType = .count)
    (sequenceCounter : UInt64) (deque : List CepWindowEntry) :
    rule.evictMonotonic sequenceCounter 0 (deque.map CepWindowEntry.untimed) =
      (rule.evictMonotonic sequenceCounter nowMs deque).map CepWindowEntry.untimed := by
  have same : rule.expired sequenceCounter 0 ∘ CepWindowEntry.untimed = rule.expired sequenceCounter nowMs := by
    funext entry
    simp only [Function.comp_apply, CepRule.expired, counts]
    rfl
  rw [CepRule.evictMonotonic, dropWhile_map, same, CepRule.evictMonotonic]

private theorem rdropWhile_untimed (leaves : UInt64 → Bool) (deque : List CepWindowEntry) :
    (deque.map CepWindowEntry.untimed).rdropWhile (fun back => leaves back.value) =
      (deque.rdropWhile fun back => leaves back.value).map CepWindowEntry.untimed := by
  simp only [List.rdropWhile, ← map_reverse, dropWhile_map]
  rfl

theorem CepRuleState.feed_untimed (counts : state.rule.windowType = .count) :
    (state.feed value nowMs).untimed = state.untimed.feed value 0 := by
  have pushed : ∀ deque : List CepWindowEntry, deque.map CepWindowEntry.untimed ++ [state.untimed.entry value 0] =
        (deque ++ [state.entry value nowMs]).map CepWindowEntry.untimed := by
    intro deque
    rw [map_append]
    rfl
  unfold CepRuleState.feed
  cases kind : state.rule.aggregation with
  | sum | avg =>
    have fed := evictFifo_untimed nowMs counts (state.sumWindow ++ [state.entry value nowMs])
      (state.runningSum + value)
    rw [← pushed] at fed
    simp only [CepRuleState.untimed, kind] at fed ⊢
    rw [fed]
  | min =>
    have left := rdropWhile_untimed (fun back => decide (back ≥ value)) state.minMonotonic
    have fed := evictMonotonic_untimed nowMs counts (state.sequenceCounter + 1)
      (state.minMonotonic.rdropWhile (fun back => back.value ≥ value) ++ [state.entry value nowMs])
    rw [← pushed, ← left] at fed
    simp only [CepRuleState.untimed, kind] at fed ⊢
    rw [fed]
  | max =>
    have left := rdropWhile_untimed (fun back => decide (back ≤ value)) state.maxMonotonic
    have fed := evictMonotonic_untimed nowMs counts (state.sequenceCounter + 1)
      (state.maxMonotonic.rdropWhile (fun back => back.value ≤ value) ++ [state.entry value nowMs])
    rw [← pushed, ← left] at fed
    simp only [CepRuleState.untimed, kind] at fed ⊢
    rw [fed]

theorem CepRuleState.result_untimed : state.untimed.result = state.result := by
  unfold CepRuleState.result
  cases kind : state.rule.aggregation <;>
    simp [CepRuleState.untimed, kind, List.head?_map, Option.map_map, Function.comp_def, CepWindowEntry.untimed]

def still (values : List UInt64) : List Event := values.map fun value => ⟨value, 0⟩

private theorem still_nondecreasing (values : List UInt64) : Nondecreasing (still values) := by
  rw [Nondecreasing, still, pairwise_map]
  exact pairwise_of_forall fun _ _ => Nat.le_refl _

/-- Apart from its time stamps the rule is in the state after these values. -/
def CepRuleState.Fed (state : CepRuleState) (rule : CepRule) (values : List UInt64) : Prop :=
  state.untimed = stateAfter rule (still values)

theorem CepRuleState.Fed.rule_eq (fed : state.Fed rule values) : state.rule = rule :=
  (congrArg CepRuleState.rule fed).trans stateAfter_rule

theorem CepRuleState.fed_create (rule : CepRule) : (CepRuleState.create rule).Fed rule [] := rfl

def lastValues (rule : CepRule) (values : List UInt64) : List Nat :=
  (values.drop (values.length - rule.pythonSize)).map UInt64.toNat

private theorem rescan_still (counts : rule.windowType = .count) (values : List UInt64) :
    rescan rule (still values) 0 = rule.aggregate (lastValues rule values) := by
  simp only [rescan, lastWindow, counts, still, lastValues, length_map, ← map_drop, map_map]
  rfl

/-- At any time a value in range yields the pair of the rescan. -/
theorem CepRuleState.Fed.onEvent (fed : state.Fed rule values) (counts : rule.windowType = .count)
    (range : InRange rule (still (values ++ [value])) 0) (nowMs : UInt64) :
    ∃ matched aggregated next, state.onEvent value nowMs = some ((matched, aggregated), next) ∧
      next.Fed rule (values ++ [value]) ∧
      rule.aggregate (lastValues rule (values ++ [value])) = some (matched, aggregated.toNat) := by
  have appended : still (values ++ [value]) = still values ++ [⟨value, 0⟩] := map_append
  have sorted := still_nondecreasing (values ++ [value])
  rw [appended] at range sorted
  obtain ⟨matched, aggregated, reported, scanned, -⟩ := on_event_eq_rescan sorted range
  rw [← appended, rescan_still counts] at scanned
  have followed : (state.feed value nowMs).untimed = stateAfter rule (still (values ++ [value])) := by
    rw [CepRuleState.feed_untimed (by rw [fed.rule_eq, counts]), fed, appended, stateAfter_concat]
  have result : (stateAfter rule (still (values ++ [value]))).result = some (matched, aggregated) := by
    rw [CepRuleState.onEvent, ← stateAfter_concat, ← appended] at reported
    obtain ⟨pair, found, same⟩ := Option.map_eq_some_iff.mp reported
    rw [found, (Prod.mk.inj same).1]
  refine ⟨matched, aggregated, state.feed value nowMs, ?_, followed, scanned⟩
  rw [CepRuleState.onEvent, ← CepRuleState.result_untimed, followed, result]
  rfl

structure PythonRuleState.Fed (state : PythonRuleState) (rule : CepRule) (values : List UInt64) : Prop where
  rule_eq : state.rule = rule
  window : state.window.map PythonEntry.value = lastValues rule values

theorem PythonRuleState.fed_new (rule : CepRule) : PythonRuleState.Fed { rule } rule [] :=
  ⟨rfl, by simp [lastValues]⟩

private theorem lastValues_ne_nil (rule : CepRule) (values : List UInt64) (value : UInt64) :
    lastValues rule (values ++ [value]) ≠ [] := by
  have size := rule.one_le_pythonSize
  rw [lastValues, ne_eq, map_eq_nil_iff, drop_eq_nil_iff, length_append, length_singleton]
  omega

theorem CepRule.exists_aggregate (rule : CepRule) {values : List Nat} (filled : values ≠ []) :
    ∃ matched aggregated, rule.aggregate values = some (matched, aggregated) := by
  unfold CepRule.aggregate
  cases rule.aggregation with
  | sum | avg => exact ⟨_, _, rfl⟩
  | min =>
    obtain ⟨least, found⟩ := Option.ne_none_iff_exists'.mp (mt List.min?_eq_none_iff.mp filled)
    exact ⟨_, _, congrArg (Option.map _) found⟩
  | max =>
    obtain ⟨greatest, found⟩ := Option.ne_none_iff_exists'.mp (mt List.max?_eq_none_iff.mp filled)
    exact ⟨_, _, congrArg (Option.map _) found⟩

variable {python : PythonRuleState} (fed : python.Fed rule values)
include fed

theorem PythonRuleState.Fed.feed (counts : rule.windowType = .count) (value : UInt64)
    (nowMs : Nat) : (python.feed value.toNat nowMs).Fed rule (values ++ [value]) := by
  refine ⟨fed.rule_eq, ?_⟩
  have lengths := congrArg List.length fed.window
  have window : (python.feed value.toNat nowMs).window.map PythonEntry.value =
      (python.window.map PythonEntry.value ++ [value.toNat]).drop (python.window.length + 1 - rule.pythonSize) := by
    rw [PythonRuleState.feed, fed.rule_eq, pythonEvict_count counts, map_drop, map_append, length_append]
    rfl
  rw [length_map] at lengths
  rw [window, lengths, fed.window, lastValues, lastValues, length_map, ← map_singleton, ← map_append,
    ← map_drop, drop_excess_concat, length_append, length_singleton]

theorem PythonRuleState.Fed.onEvent (counts : rule.windowType = .count) (value : UInt64) (nowMs : Nat) :
    ∃ matched aggregated next, python.onEvent value.toNat nowMs = some ((matched, aggregated), next) ∧
      next.Fed rule (values ++ [value]) ∧
      rule.aggregate (lastValues rule (values ++ [value])) = some (matched, aggregated) := by
  have next := fed.feed counts value nowMs
  obtain ⟨matched, aggregated, found⟩ := rule.exists_aggregate (lastValues_ne_nil rule values value)
  refine ⟨matched, aggregated, _, ?_, next, found⟩
  rw [PythonRuleState.onEvent, next.rule_eq, next.window, found]
  rfl

end AnimusCore.Cep
