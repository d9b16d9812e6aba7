import AnimusCore.Engine.Log
import AnimusCore.Parity.Contract
import AnimusCore.RingBuffer.Queue
import Mathlib.Data.List.Forall2

/-! The native engine in a session with one client. No two calls of a ring overlap: the
client records before the worker exists and polls when it is gone. -/

set_option autoImplicit false

namespace AnimusCore.Parity

open Cep Engine Lib RingBuffer

def nativeSignal (signal : Engine.ThreatSignal) : Observed :=
  { signal with metricValue := signal.metricValue.toNat }

def opensCall : Engine.Action Unit → Bool
  | .record _ _ _ | .recordBatch _ _ _ | .pollSignals _ _ | .addRule _ _ | .addCepRule _ _
  | .startPersistence | .stopPersistence => true
  | _ => false

/-- Allocations succeed. -/
def native (capacity : Nat) : Service (Engine.State Unit) (Engine.Action Unit) UInt64 Request Reply where
  begin state request cycles :=
    match request with
    | .setup (.addRule arguments) =>
      (Engine.step machine capacity state (.addRule arguments true)).map fun next =>
        (next, some (.flag (addRule state.rules arguments true).1))
    | .setup (.addCepRule arguments) =>
      (Engine.step machine capacity state (.addCepRule arguments true)).map fun next =>
        (next, some (.flag (addCepRule state.cepRules arguments true).1))
    | .setup (.recordEvent event) =>
      (Engine.step machine capacity state (.record () event cycles)).map fun next => (next, none)
    | .startLogging =>
      (Engine.step machine capacity state .startPersistence).map fun next => (next, none)
    | .stopLogging =>
      (Engine.step machine capacity state .stopPersistence).map fun next => (next, none)
    | .pollSignals maxCount =>
      (Engine.step machine capacity state (.pollSignals () maxCount)).map fun next =>
        (next, none)
  step state action :=
    if opensCall action then none else Engine.step machine capacity state action
  reply state request :=
    match request with
    | .setup (.recordEvent _) =>
      match state.callers () with
      | .idle => state.calls.getLast?.map fun call => .flag (call.pushed == 1)
      | _ => none
    | .setup _ => none
    | .startLogging =>
      match state.control with
      | .idle => some .nothing
      | _ => none
    | .stopLogging =>
      match state.control with
      | .stopped _ => some .nothing
      | _ => none
    | .pollSignals _ =>
      match state.callers () with
      | .idle => state.polls.getLast?.map fun poll => .signals (poll.2.map nativeSignal)
      | _ => none

section

variable {capacity : Nat} {state next : Engine.State Unit} {action : Engine.Action Unit}

theorem native_step (closed : opensCall action = false) :
    (native capacity).step state action = Engine.step machine capacity state action := by
  change (if opensCall action then none else _) = _
  rw [closed]
  rfl

theorem closed_of_native (ran : (native capacity).step state action = some next) :
    opensCall action = false ∧ Engine.step machine capacity state action = some next := by
  change (if opensCall action then none else _) = _ at ran
  split at ran
  case isTrue => cases ran
  case isFalse closed => exact ⟨Bool.eq_false_iff.mpr closed, ran⟩

end

variable {payload : TelemetryPayload} {nowMs : UInt64} {history : List RawEvent}

def payloadEvent (payload : TelemetryPayload) : RawEvent := { payload with }

private theorem evaluateRules_observed (payload : TelemetryPayload) (rules : List RuleThreshold) :
    (evaluateRules payload rules).map nativeSignal = rules.filterMap (ruleSignal (payloadEvent payload)) := by
  rw [evaluateRules, List.map_filterMap]
  congr 1
  funext rule
  rw [ruleSignal, compareValue_toNat]
  by_cases same : rule.eventId = payload.eventId
  · rw [if_neg (not_not_intro same)]
    by_cases matched : pythonCompareValue payload.metricValue.toNat rule.threshold.toNat rule.comparator = true
    · rw [if_pos matched, if_pos ⟨same, matched⟩]
      rfl
    · rw [if_neg matched, if_neg (fun both => matched both.2)]
      rfl
  · rw [if_pos same, if_neg (fun both => same both.1)]
    rfl

def WindowsFed (history : List RawEvent) : List CepRule → List CepRuleState → Prop :=
  List.Forall₂ fun rule state => state.Fed rule (fedValues rule history)

private theorem evaluateCepRules_observed {rules : List CepRule} {states : List CepRuleState}
    (counts : ∀ rule ∈ rules, rule.windowType = .count)
    (range : ∀ rule ∈ rules, InRange rule (still (fedValues rule (history ++ [payloadEvent payload]))) 0)
    (fed : WindowsFed history rules states) (nowMs : UInt64) :
    ∃ signals next, evaluateCepRules payload nowMs states = some (signals, next) ∧
      WindowsFed (history ++ [payloadEvent payload]) rules next ∧
      signals.map nativeSignal = rules.filterMap (cepSignal history (payloadEvent payload)) := by
  induction fed with
  | nil => exact ⟨[], [], rfl, .nil, rfl⟩
  | @cons rule state rules states first others ih =>
    rw [List.forall_mem_cons] at counts range
    obtain ⟨signals, fed, evaluated, later, observed⟩ := ih counts.2 range.2
    by_cases same : rule.eventId = payload.eventId
    · have here : rule.eventId = (payloadEvent payload).eventId := same
      have fits := range.1
      rw [fedValues_of_eq here] at fits
      obtain ⟨matched, aggregated, next, reported, after, found⟩ :=
        first.onEvent counts.1 fits nowMs
      change state.onEvent payload.metricValue nowMs = _ at reported
      rw [evaluateCepRules, if_neg (not_not_intro (by rw [first.rule_eq, same])), reported, evaluated, first.rule_eq]
      have signal := cepSignal_of_eq here found
      refine ⟨_, _, rfl, .cons (by rw [fedValues_of_eq here]; exact after) later, ?_⟩
      cases matched with
      | false =>
        rw [List.filterMap_cons_none signal]
        exact observed
      | true =>
        rw [List.filterMap_cons_some signal, ← observed]
        rfl
    · have elsewhere : rule.eventId ≠ (payloadEvent payload).eventId := same
      rw [evaluateCepRules, if_pos (by rw [first.rule_eq]; exact same), evaluated,
        List.filterMap_cons_none (cepSignal_of_ne elsewhere)]
      refine ⟨signals, state :: fed, rfl, .cons ?_ later, observed⟩
      rw [fedValues_of_ne elsewhere]
      exact first

theorem evaluate_observed {contract : Contract} {states : List CepRuleState}
    (counts : ∀ rule ∈ contract.cepRules, rule.windowType = .count)
    (range : ∀ rule ∈ contract.cepRules, InRange rule (still (fedValues rule (history ++ [payloadEvent payload]))) 0)
    (fed : WindowsFed history contract.cepRules states) (nowMs : UInt64) :
    ∃ signals next, Engine.evaluate payload contract.rules contract.cepRules.length nowMs states =
        some (signals, next) ∧ WindowsFed (history ++ [payloadEvent payload]) contract.cepRules next ∧
      signals.map nativeSignal = signalsOf contract.rules contract.cepRules history (payloadEvent payload) := by
  obtain ⟨signals, next, evaluated, later, observed⟩ := evaluateCepRules_observed counts range fed nowMs
  have length : contract.cepRules.length = states.length := List.Forall₂.length_eq fed
  refine ⟨evaluateRules payload contract.rules ++ signals, next, ?_, later, ?_⟩
  · rw [Engine.evaluate, length, List.take_length, List.drop_length, evaluated]
    exact congrArg (fun fed => some (_, fed)) (List.append_nil next)
  · rw [List.map_append, evaluateRules_observed, observed, signalsOf]

end AnimusCore.Parity
