import AnimusCore.Cep.Rescan
import Mathlib.Algebra.Order.Field.Basic
import Mathlib.Data.Rat.Cast.Order

/-! When a sum or an average rule fires exactly. The average is compared by cross
multiplication, which is exact as long as the product stays within a word; an entry's
time in the window is exact as long as its end does. -/

set_option autoImplicit false

namespace AnimusCore.Cep

variable {rule : CepRule} {events : List Event} {event : Event}

def exactCompare (lhs rhs : ℚ) : RuleComparator → Bool
  | .greaterThan => lhs > rhs
  | .lessThan => lhs < rhs
  | .equal => lhs = rhs

/-- The sum of the window, or its mean for an average rule. -/
def CepRule.statistic (rule : CepRule) (values : List Nat) : ℚ :=
  match rule.aggregation with
  | .avg => (values.sum : ℚ) / (values.length : ℚ)
  | _ => (values.sum : ℚ)

def CepRule.exactMatch (rule : CepRule) (values : List Nat) : Bool :=
  exactCompare (rule.statistic values) (rule.threshold.toNat : ℚ) rule.comparator

private theorem exactCompare_natCast (lhs rhs : Nat) (comparator : RuleComparator) :
    exactCompare (lhs : ℚ) (rhs : ℚ) comparator = pythonCompareValue lhs rhs comparator := by
  cases comparator with
  | greaterThan => simp only [exactCompare, pythonCompareValue, gt_iff_lt, Nat.cast_lt]
  | lessThan => simp only [exactCompare, pythonCompareValue, Nat.cast_lt]
  | equal => simp only [exactCompare, pythonCompareValue, Nat.cast_inj, Bool.beq_eq_decide_eq]

private theorem exactCompare_div {count : Nat} (positive : 0 < count) (sum threshold : Nat)
    (comparator : RuleComparator) : exactCompare ((sum : ℚ) / (count : ℚ)) (threshold : ℚ) comparator =
      pythonCompareValue sum (threshold * count) comparator := by
  have scale : (0 : ℚ) < (count : ℚ) := Nat.cast_pos.mpr positive
  rw [← exactCompare_natCast, Nat.cast_mul]
  cases comparator with
  | greaterThan => simp only [exactCompare, gt_iff_lt, lt_div_iff₀ scale]
  | lessThan => simp only [exactCompare, div_lt_iff₀ scale]
  | equal => simp only [exactCompare, div_eq_iff scale.ne']

private theorem aggregate_exact (adds : rule.aggregation = .sum ∨ rule.aggregation = .avg) {values : List Nat}
    (filled : values ≠ []) {matched : Bool} {aggregated : Nat}
    (found : rule.aggregate values = some (matched, aggregated)) : matched = rule.exactMatch values := by
  unfold CepRule.exactMatch CepRule.statistic
  unfold CepRule.aggregate at found
  rcases adds with kind | kind
  · simp only [kind, Option.some.injEq, Prod.mk.injEq] at found ⊢
    rw [exactCompare_natCast, ← found.1]
  · simp only [kind, Option.some.injEq, Prod.mk.injEq] at found ⊢
    rw [exactCompare_div (List.length_pos_iff.mpr filled), ← found.1]

theorem sum_and_avg_fire_exactly (adds : rule.aggregation = .sum ∨ rule.aggregation = .avg)
    (sums : ((pythonAfter rule (events ++ [event])).window.map PythonEntry.value).sum < 2 ^ 64)
    (times : TimesFit rule (events ++ [event])) (products : rule.aggregation = .avg →
      rule.threshold.toNat * (pythonAfter rule (events ++ [event])).window.length < 2 ^ 64) :
    ∃ matched aggregated, (stateAfter rule events).onEvent event.value event.nowMs =
        some ((matched, aggregated), stateAfter rule (events ++ [event])) ∧
      matched = rule.exactMatch ((pythonAfter rule (events ++ [event])).window.map PythonEntry.value) ∧
      (pythonAfter rule events).onEvent event.value.toNat event.nowMs.toNat =
        some ((matched, aggregated.toNat), pythonAfter rule (events ++ [event])) := by
  have tracks := stateAfter_sums adds times
  have reports : Reports (stateAfter rule (events ++ [event]))
      ((pythonAfter rule (events ++ [event])).window.map PythonEntry.value) := by
    rcases adds with kind | kind
    · exact tracks.reports_sum (by rw [stateAfter_rule, kind]) sums
    · exact tracks.reports_avg (by rw [stateAfter_rule, kind]) sums (by rw [stateAfter_rule]; exact products kind)
  obtain ⟨matched, aggregated, native, python⟩ := reports
  rw [stateAfter_rule] at python
  have filled : (pythonAfter rule (events ++ [event])).window.map PythonEntry.value ≠ [] :=
    fun empty => pythonAfter_window_ne_nil (List.map_eq_nil_iff.mp empty)
  refine ⟨matched, aggregated, ?_, aggregate_exact adds filled python, ?_⟩
  · rw [CepRuleState.onEvent, ← stateAfter_concat, native]
    rfl
  · rw [PythonRuleState.onEvent, ← pythonAfter_concat, pythonAfter_rule, python]
    rfl

/-- The mean of 10, 10 and 11 is above 10 although its floor is not. -/
def avgRule : CepRule := ⟨2, 43, .count, 3, .avg, .greaterThan, 10, 1⟩

theorem sum_and_avg_fire_exactly_above_floor : ∃ matched aggregated,
      (stateAfter avgRule [⟨10, 0⟩, ⟨10, 0⟩]).onEvent 11 0 =
        some ((matched, aggregated), stateAfter avgRule [⟨10, 0⟩, ⟨10, 0⟩, ⟨11, 0⟩]) ∧
      (stateAfter avgRule [⟨10, 0⟩, ⟨10, 0⟩, ⟨11, 0⟩]).result = some (true, 10) ∧ matched = avgRule.exactMatch
        ((pythonAfter avgRule [⟨10, 0⟩, ⟨10, 0⟩, ⟨11, 0⟩]).window.map PythonEntry.value) := by
  have times : TimesFit avgRule ([⟨10, 0⟩, ⟨10, 0⟩] ++ [⟨11, 0⟩]) := by
    intro kind
    cases kind
  obtain ⟨matched, aggregated, native, exact, -⟩ :=
    sum_and_avg_fire_exactly (.inr rfl) (by decide) times (fun _ => by decide)
  exact ⟨matched, aggregated, native, by decide, exact⟩

/-- An average rule with the threshold 2^63 over the last two events, and a sum rule over
an unbounded time window. -/
def wideAvgRule : CepRule := ⟨1, 42, .count, 2, .avg, .greaterThan, 0x8000000000000000, 5⟩

def wideSumRule : CepRule := ⟨2, 42, .time, 0xFFFFFFFFFFFFFFFF, .sum, .greaterThan, 0, 5⟩

/-- The product wraps to zero, and the average rule fires for the mean one half; the end
of the only event's time wraps, and the sum rule sees an empty window. -/
theorem sum_and_avg_misfire : (((stateAfter wideAvgRule [⟨1, 0⟩]).onEvent 0 0).map fun called => called.1) =
        some (true, 0) ∧
      (((pythonAfter wideAvgRule [⟨1, 0⟩]).onEvent 0 0).map fun called => called.1) = some (false, 0) ∧
      wideAvgRule.exactMatch [1, 0] = false ∧
      (((stateAfter wideSumRule []).onEvent 5 1).map fun called => called.1) = some (false, 0) ∧
      (((pythonAfter wideSumRule []).onEvent 5 1).map fun called => called.1) = some (true, 5) ∧
      wideSumRule.exactMatch [5] = true := by
  decide +kernel

end AnimusCore.Cep
