import AnimusCore.Cep.Native

/-! Sliding-window aggregation equals a full rescan of the window. -/

set_option autoImplicit false

namespace AnimusCore.Cep

open Lib List

variable {rule : CepRule} {events : List Event} {event : Event}

theorem compareValue_toNat (lhs rhs : UInt64) (comparator : RuleComparator) :
    compareValue lhs rhs comparator = pythonCompareValue lhs.toNat rhs.toNat comparator := by
  cases comparator with
  | greaterThan => simp only [compareValue, pythonCompareValue, gt_iff_lt, UInt64.lt_iff_toNat_lt]
  | lessThan => simp only [compareValue, pythonCompareValue, UInt64.lt_iff_toNat_lt]
  | equal => simp only [compareValue, pythonCompareValue, Bool.beq_eq_decide_eq, UInt64.toNat_inj]

/-- The native result is the aggregate of these values. -/
def Reports (state : CepRuleState) (values : List Nat) : Prop :=
  ∃ matched aggregated, state.result = some (matched, aggregated) ∧
    state.rule.aggregate values = some (matched, aggregated.toNat)

section

variable {state : CepRuleState} {python : PythonRuleState}

theorem Sums.runningSum_toNat (sums : Sums state python) (fits : (python.window.map PythonEntry.value).sum < 2 ^ 64) :
    state.runningSum.toNat = (python.window.map PythonEntry.value).sum := by
  rw [sums.sum, sums.total_eq, Nat.mod_eq_of_lt fits]

theorem Sums.length_eq (sums : Sums state python) : state.sumWindow.length = python.window.length := by
  have lengths := congrArg List.length sums.window
  rwa [length_map, length_map] at lengths

theorem Sums.reports_sum (sums : Sums state python) (kind : state.rule.aggregation = .sum)
    (fits : (python.window.map PythonEntry.value).sum < 2 ^ 64) :
    Reports state (python.window.map PythonEntry.value) := by
  have sum := sums.runningSum_toNat fits
  refine ⟨_, state.runningSum, by simp only [CepRuleState.result, kind]; rfl, ?_⟩
  simp only [CepRule.aggregate, kind, compareValue_toNat, sum]

private theorem threshold_mul_toNat {threshold : UInt64} {count : Nat} (fits : threshold.toNat * count < 2 ^ 64) :
    (threshold * UInt64.ofNat count).toNat = threshold.toNat * count := by
  rw [UInt64.toNat_mul, UInt64.toNat_ofNat', Nat.mul_mod_mod, Nat.mod_eq_of_lt fits]

theorem Sums.reports_avg (sums : Sums state python) (kind : state.rule.aggregation = .avg)
    (fits : (python.window.map PythonEntry.value).sum < 2 ^ 64)
    (product : state.rule.threshold.toNat * python.window.length < 2 ^ 64) :
    Reports state (python.window.map PythonEntry.value) := by
  have sum := sums.runningSum_toNat fits
  have mean : (if python.window.length = 0 then 0
      else (python.window.map PythonEntry.value).sum / python.window.length) < 2 ^ 64 := by
    split
    · decide
    · exact (Nat.div_le_self _ _).trans_lt fits
  refine ⟨_, _, by simp only [CepRuleState.result, kind]; rfl, ?_⟩
  simp only [CepRule.aggregate, kind, compareValue_toNat, sums.length_eq, length_map, sum,
    threshold_mul_toNat product]
  rw [UInt64.toNat_ofNat', Nat.mod_eq_of_lt mean]

/-- The front of a deque that holds the candidates is the extreme value. -/
theorem exists_front {yields : PythonEntry → PythonEntry → Bool}
    (total : ∀ left right, yields left right = true ∨ yields right left = true)
    (trans : ∀ {first second third}, yields first second = true → yields second third = true →
      yields first third = true) {deque : List CepWindowEntry} {window : List PythonEntry} (filled : window ≠ [])
    (tracks : deque.map CepWindowEntry.exact = candidates yields window) :
    ∃ front, deque.head? = some front ∧ front.exact ∈ window ∧ ∀ other ∈ window, yields other front.exact = true := by
  obtain ⟨best, rest, shape, inside, dominates⟩ := candidates_front total trans filled
  rw [shape] at tracks
  cases deque with
  | nil => cases tracks
  | cons front later =>
    have head : front.exact = best := head_eq_of_cons_eq tracks
    exact ⟨front, rfl, head ▸ inside, head ▸ dominates⟩

private theorem reports_max (kind : state.rule.aggregation = .max) (filled : python.window ≠ [])
    (tracks : state.maxMonotonic.map CepWindowEntry.exact = candidates yieldsMax python.window) :
    Reports state (python.window.map PythonEntry.value) := by
  obtain ⟨front, head, inside, dominates⟩ := exists_front yieldsMax_total yieldsMax_trans filled tracks
  have greatest : (python.window.map PythonEntry.value).max? = some front.value.toNat := by
    rw [List.max?_eq_some_iff]
    refine ⟨mem_map_of_mem inside, fun value listed => ?_⟩
    obtain ⟨other, member, rfl⟩ := mem_map.mp listed
    exact of_decide_eq_true (dominates other member)
  refine ⟨_, front.value, by simp only [CepRuleState.result, kind, head]; rfl, ?_⟩
  simp only [CepRule.aggregate, kind, greatest, Option.map_some, compareValue_toNat]

private theorem reports_min (kind : state.rule.aggregation = .min) (filled : python.window ≠ [])
    (tracks : state.minMonotonic.map CepWindowEntry.exact = candidates yieldsMin python.window) :
    Reports state (python.window.map PythonEntry.value) := by
  obtain ⟨front, head, inside, dominates⟩ := exists_front yieldsMin_total yieldsMin_trans filled tracks
  have least : (python.window.map PythonEntry.value).min? = some front.value.toNat := by
    rw [List.min?_eq_some_iff]
    refine ⟨mem_map_of_mem inside, fun value listed => ?_⟩
    obtain ⟨other, member, rfl⟩ := mem_map.mp listed
    exact of_decide_eq_true (dominates other member)
  refine ⟨_, front.value, by simp only [CepRuleState.result, kind, head]; rfl, ?_⟩
  simp only [CepRule.aggregate, kind, least, Option.map_some, compareValue_toNat]

end

/-- No number that the native engine forms for this rule exceeds a word. -/
structure InRange (rule : CepRule) (events : List Event) (nowMs : UInt64) : Prop where
  sums : rule.aggregation = .sum ∨ rule.aggregation = .avg →
    ((lastWindow rule events nowMs).map fun event => event.value.toNat).sum < 2 ^ 64
  products : rule.aggregation = .avg → rule.threshold.toNat * (lastWindow rule events nowMs).length < 2 ^ 64
  sequences : rule.aggregation = .min ∨ rule.aggregation = .max → events.length + rule.pythonSize < 2 ^ 64
  times : TimesFit rule events

private theorem stateAfter_reports (sorted : Nondecreasing (events ++ [event]))
    (range : InRange rule (events ++ [event]) event.nowMs) : Reports (stateAfter rule (events ++ [event]))
      ((pythonAfter rule (events ++ [event])).window.map PythonEntry.value) := by
  have values : (pythonAfter rule (events ++ [event])).window.map PythonEntry.value = _ := pythonAfter_window sorted
  have filled : (pythonAfter rule (events ++ [event])).window ≠ [] := pythonAfter_window_ne_nil
  have ruleEq : (stateAfter rule (events ++ [event])).rule = rule := stateAfter_rule
  cases kind : rule.aggregation with
  | sum =>
    refine (stateAfter_sums (.inl kind) range.times).reports_sum (by rw [ruleEq, kind]) ?_
    rw [values]
    exact range.sums (.inl kind)
  | avg =>
    refine (stateAfter_sums (.inr kind) range.times).reports_avg (by rw [ruleEq, kind]) ?_ ?_
    · rw [values]
      exact range.sums (.inr kind)
    · have lengths := congrArg List.length values
      rw [length_map, length_map] at lengths
      rw [ruleEq, lengths]
      exact range.products kind
  | min =>
    exact reports_min (by rw [ruleEq, kind]) filled
      (stateAfter_min kind sorted ⟨range.sequences (.inl kind), range.times⟩)
  | max =>
    exact reports_max (by rw [ruleEq, kind]) filled
      (stateAfter_max kind sorted ⟨range.sequences (.inr kind), range.times⟩)

/-- Whatever was fed before, a call in range returns the pair of the rescan, and so does
the fallback's. -/
theorem on_event_eq_rescan (sorted : Nondecreasing (events ++ [event]))
    (range : InRange rule (events ++ [event]) event.nowMs) :
    ∃ matched aggregated, (stateAfter rule events).onEvent event.value event.nowMs =
        some ((matched, aggregated), stateAfter rule (events ++ [event])) ∧
      rescan rule (events ++ [event]) event.nowMs = some (matched, aggregated.toNat) ∧
      (pythonAfter rule events).onEvent event.value.toNat event.nowMs.toNat =
        some ((matched, aggregated.toNat), pythonAfter rule (events ++ [event])) := by
  obtain ⟨matched, aggregated, native, python⟩ := stateAfter_reports sorted range
  rw [stateAfter_rule] at python
  refine ⟨matched, aggregated, ?_, ?_, ?_⟩
  · rw [CepRuleState.onEvent, ← stateAfter_concat, native]
    rfl
  · rw [rescan, ← pythonAfter_window sorted]
    exact python
  · rw [PythonRuleState.onEvent, ← pythonAfter_concat, pythonAfter_rule, python]
    rfl

/-- A time window of ten milliseconds: the tie at 5 keeps its later entry, which is still
in the window when the first one has left. -/
def maxRule : CepRule := ⟨1, 42, .time, 10, .max, .greaterThan, 4, 5⟩

def maxEvents : List Event := [⟨5, 0⟩, ⟨5, 3⟩]

theorem on_event_eq_rescan_tie :
    Nondecreasing (maxEvents ++ [⟨2, 12⟩]) ∧ InRange maxRule (maxEvents ++ [⟨2, 12⟩]) 12 ∧
      ∃ matched aggregated, (stateAfter maxRule maxEvents).onEvent 2 12 =
          some ((matched, aggregated), stateAfter maxRule (maxEvents ++ [⟨2, 12⟩])) ∧
        rescan maxRule (maxEvents ++ [⟨2, 12⟩]) 12 = some (true, 5) ∧
        rescan maxRule (maxEvents ++ [⟨2, 12⟩]) 12 = some (matched, aggregated.toNat) := by
  have sorted : Nondecreasing (maxEvents ++ [⟨2, 12⟩]) := by
    unfold Nondecreasing
    decide
  have range : InRange maxRule (maxEvents ++ [⟨2, 12⟩]) 12 := ⟨by decide, by decide, by decide, fun _ => by decide⟩
  obtain ⟨matched, aggregated, native, scanned, -⟩ := on_event_eq_rescan sorted range
  exact ⟨sorted, range, matched, aggregated, native, by decide, scanned⟩

end AnimusCore.Cep
