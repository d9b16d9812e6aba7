import AnimusCore.Cep.Native

/-! The rules of an engine: how they are registered, and what the persistence worker
does with one event. -/

set_option autoImplicit false

namespace AnimusCore.Engine

open Cep List

structure TelemetryPayload where
  timestampCycles : UInt64
  eventId : UInt32
  traceId : UInt32
  metricValue : UInt64
  deriving DecidableEq

structure ThreatSignal where
  timestampCycles : UInt64
  eventId : UInt32
  traceId : UInt32
  metricValue : UInt64
  ruleId : UInt32
  severity : UInt32
  deriving DecidableEq

structure RawEvent where
  eventId : UInt32
  traceId : UInt32
  metricValue : UInt64
  deriving DecidableEq

structure RuleThreshold where
  ruleId : UInt32
  eventId : UInt32
  threshold : UInt64
  comparator : RuleComparator
  severity : UInt32
  deriving DecidableEq

/-- The range test on the byte and its cast. -/
def comparatorOfByte : UInt8 → Option RuleComparator
  | 0 => some .greaterThan
  | 1 => some .lessThan
  | 2 => some .equal
  | _ => none

def windowTypeOfByte : UInt8 → Option WindowType
  | 0 => some .count
  | 1 => some .time
  | _ => none

def aggregationOfByte : UInt8 → Option AggregationFunction
  | 0 => some .sum
  | 1 => some .avg
  | 2 => some .min
  | 3 => some .max
  | _ => none

/-- The arguments of `add_rule` with the comparator still a byte. -/
structure RuleArguments where
  ruleId : UInt32
  eventId : UInt32
  threshold : UInt64
  comparator : UInt8
  severity : UInt32
  deriving DecidableEq

structure CepRuleArguments where
  ruleId : UInt32
  eventId : UInt32
  windowType : UInt8
  windowSize : UInt64
  aggregation : UInt8
  comparator : UInt8
  threshold : UInt64
  severity : UInt32
  deriving DecidableEq

def RuleArguments.rule (arguments : RuleArguments) : Option RuleThreshold := do
  let comparator ← comparatorOfByte arguments.comparator
  return { arguments with comparator }

def CepRuleArguments.rule (arguments : CepRuleArguments) : Option CepRule := do
  let windowType ← windowTypeOfByte arguments.windowType
  let aggregation ← aggregationOfByte arguments.aggregation
  let comparator ← comparatorOfByte arguments.comparator
  return { arguments with windowType, aggregation, comparator }

/-- The call's result and the rules afterwards; `allocates` is false when an allocation
throws. -/
def addRule (rules : List RuleThreshold) (arguments : RuleArguments) (allocates : Bool) : Bool × List RuleThreshold :=
  match arguments.rule with
  | none => (false, rules)
  | some rule => if allocates then (true, rules ++ [rule]) else (false, rules)

def addCepRule (cepRules : List CepRuleState) (arguments : CepRuleArguments)
    (allocates : Bool) : Bool × List CepRuleState :=
  match arguments.rule with
  | none => (false, cepRules)
  | some rule =>
    if allocates then (true, cepRules ++ [CepRuleState.create rule]) else (false, cepRules)

/-- The signals that `evaluate_rules` pushes, in order. -/
def evaluateRules (payload : TelemetryPayload) (rules : List RuleThreshold) : List ThreatSignal :=
  rules.filterMap fun rule =>
    if rule.eventId ≠ payload.eventId then none
    else if compareValue payload.metricValue rule.threshold rule.comparator then
      some { payload with ruleId := rule.ruleId, severity := rule.severity }
    else none

/-- The signals that `evaluate_cep_rules` pushes and the rules' windows afterwards. -/
def evaluateCepRules (payload : TelemetryPayload) (nowMs : UInt64) :
    List CepRuleState → Option (List ThreatSignal × List CepRuleState)
  | [] => some ([], [])
  | state :: rest =>
    if state.rule.eventId ≠ payload.eventId then do
      let (signals, fed) ← evaluateCepRules payload nowMs rest
      return (signals, state :: fed)
    else do
      let ((matched, aggregated), next) ← state.onEvent payload.metricValue nowMs
      let (signals, fed) ← evaluateCepRules payload nowMs rest
      let signal : ThreatSignal :=
        { payload with
          metricValue := aggregated
          ruleId := state.rule.ruleId
          severity := state.rule.severity }
      return (if matched then signal :: signals else signals, next :: fed)

/-- One event against the snapshots of its batch. The first `ceps` windowed rules are
those of the snapshot; their windows are shared with the engine. -/
def evaluate (payload : TelemetryPayload) (rules : List RuleThreshold) (ceps : Nat)
    (nowMs : UInt64) (cepRules : List CepRuleState) : Option (List ThreatSignal × List CepRuleState) := do
  let (signals, fed) ← evaluateCepRules payload nowMs (cepRules.take ceps)
  return (evaluateRules payload rules ++ signals, fed ++ cepRules.drop ceps)

variable {nowMs : UInt64}

private theorem onEvent_rule {state next : CepRuleState} {value : UInt64} {result : Bool × UInt64}
    (fed : state.onEvent value nowMs = some (result, next)) : next.rule = state.rule := by
  obtain ⟨_, -, same⟩ := Option.map_eq_some_iff.mp fed
  cases same
  exact state.feed_rule value nowMs

variable {payload : TelemetryPayload} {signals : List ThreatSignal}

private theorem evaluateCepRules_rules {states fed : List CepRuleState}
    (evaluated : evaluateCepRules payload nowMs states = some (signals, fed)) :
    fed.map CepRuleState.rule = states.map CepRuleState.rule := by
  induction states generalizing signals fed with
  | nil =>
    cases evaluated
    rfl
  | cons state rest ih =>
    unfold evaluateCepRules at evaluated
    split at evaluated
    case isTrue =>
      obtain ⟨⟨more, others⟩, recursive, same⟩ := Option.bind_eq_some_iff.mp evaluated
      cases same
      rw [map_cons, map_cons, ih recursive]
    case isFalse =>
      obtain ⟨⟨result, next⟩, fed, continued⟩ := Option.bind_eq_some_iff.mp evaluated
      obtain ⟨⟨more, others⟩, recursive, same⟩ := Option.bind_eq_some_iff.mp continued
      cases same
      rw [map_cons, map_cons, ih recursive, onEvent_rule fed]

variable {rules : List RuleThreshold} {ceps : Nat} {cepRules fed : List CepRuleState}
  (evaluated : evaluate payload rules ceps nowMs cepRules = some (signals, fed))
include evaluated

theorem evaluate_rules : fed.map CepRuleState.rule = cepRules.map CepRuleState.rule := by
  obtain ⟨⟨more, front⟩, fed, same⟩ := Option.bind_eq_some_iff.mp evaluated
  cases same
  rw [map_append, evaluateCepRules_rules fed, ← map_append, take_append_drop]

theorem evaluate_append (inside : ceps ≤ cepRules.length) (later : List CepRuleState) :
    evaluate payload rules ceps nowMs (cepRules ++ later) = some (signals, fed ++ later) := by
  obtain ⟨⟨more, front⟩, fed, same⟩ := Option.bind_eq_some_iff.mp evaluated
  cases same
  refine Option.bind_eq_some_iff.mpr ⟨(more, front), ?_, ?_⟩
  · rw [take_append_of_le_length inside]
    exact fed
  · rw [drop_append_of_le_length inside, append_assoc]
    rfl

end AnimusCore.Engine
