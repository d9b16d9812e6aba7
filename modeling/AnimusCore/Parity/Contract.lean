import AnimusCore.Cep.Count
import AnimusCore.Engine.Rules
import AnimusCore.Lib.Session

/-! What a client of one engine sees who registers rules and records events, starts and
stops logging, and then polls: the contract of the native engine and its fallback. -/

set_option autoImplicit false

namespace AnimusCore.Parity

open Cep Engine Lib List

/-- What signals of the two engines are compared on. -/
structure Observed where
  eventId : UInt32
  traceId : UInt32
  metricValue : Nat
  ruleId : UInt32
  severity : UInt32
  deriving DecidableEq

inductive Setup where
  | addRule (arguments : RuleArguments)
  | addCepRule (arguments : CepRuleArguments)
  | recordEvent (event : RawEvent)

inductive Request where
  | setup (call : Setup)
  | startLogging
  | stopLogging
  | pollSignals (maxCount : Nat)

inductive Reply where
  | flag (result : Bool)
  | nothing
  | signals (signals : List Observed)
  deriving DecidableEq

def script (calls : List Setup) (polls : List Nat) : List Request :=
  calls.map .setup ++ [.startLogging, .stopLogging] ++ polls.map .pollSignals

def ruleSignal (event : RawEvent) (rule : RuleThreshold) : Option Observed :=
  if rule.eventId = event.eventId ∧
      pythonCompareValue event.metricValue.toNat rule.threshold.toNat rule.comparator then
    some ⟨event.eventId, event.traceId, event.metricValue.toNat, rule.ruleId, rule.severity⟩
  else none

def fedValues (rule : CepRule) (events : List RawEvent) : List UInt64 :=
  (events.filter fun event => event.eventId = rule.eventId).map RawEvent.metricValue

def cepSignal (history : List RawEvent) (event : RawEvent) (rule : CepRule) : Option Observed :=
  if rule.eventId = event.eventId then
    match rule.aggregate (lastValues rule (fedValues rule (history ++ [event]))) with
    | some (true, aggregated) =>
      some ⟨event.eventId, event.traceId, aggregated, rule.ruleId, rule.severity⟩
    | _ => none
  else none

/-- The signals of an event after those of its history. -/
def signalsOf (rules : List RuleThreshold) (cepRules : List CepRule) (history : List RawEvent)
    (event : RawEvent) : List Observed :=
  rules.filterMap (ruleSignal event) ++ cepRules.filterMap (cepSignal history event)

def streamFrom (rules : List RuleThreshold) (cepRules : List CepRule) : List RawEvent → List RawEvent → List Observed
  | _, [] => []
  | history, event :: rest =>
    signalsOf rules cepRules history event ++ streamFrom rules cepRules (history ++ [event]) rest

section
variable (rules : List RuleThreshold)
include rules

def stream (cepRules : List CepRule) (events : List RawEvent) : List Observed :=
  streamFrom rules cepRules [] events

private theorem streamFrom_append (cepRules : List CepRule) (history first second : List RawEvent) :
    streamFrom rules cepRules history (first ++ second) = streamFrom rules cepRules history first ++
        streamFrom rules cepRules (history ++ first) second := by
  induction first generalizing history with
  | nil => simp [streamFrom]
  | cons event rest ih =>
    rw [cons_append, streamFrom, streamFrom, ih, append_assoc, append_assoc, singleton_append]

theorem stream_concat (cepRules : List CepRule) (history : List RawEvent) (event : RawEvent) :
    stream rules cepRules (history ++ [event]) =
      stream rules cepRules history ++ signalsOf rules cepRules history event := by
  rw [stream, streamFrom_append, streamFrom, streamFrom, append_nil, nil_append, stream]

theorem length_stream_le (cepRules : List CepRule) {history events : List RawEvent} (inside : history <+: events) :
    (stream rules cepRules history).length ≤ (stream rules cepRules events).length := by
  obtain ⟨rest, rfl⟩ := inside
  rw [stream, stream, streamFrom_append, length_append]
  exact Nat.le_add_right _ _

end

section

variable {rule : CepRule} {history : List RawEvent} {event : RawEvent}

theorem fedValues_of_eq (same : rule.eventId = event.eventId) :
    fedValues rule (history ++ [event]) = fedValues rule history ++ [event.metricValue] := by
  simp [fedValues, filter_append, same]

theorem fedValues_of_ne (different : rule.eventId ≠ event.eventId) :
    fedValues rule (history ++ [event]) = fedValues rule history := by
  simp [fedValues, filter_append, different.symm]

theorem cepSignal_of_ne (different : rule.eventId ≠ event.eventId) : cepSignal history event rule = none :=
  if_neg different

theorem cepSignal_of_eq (same : rule.eventId = event.eventId) {matched : Bool} {aggregated : Nat}
    (found : rule.aggregate (lastValues rule (fedValues rule history ++ [event.metricValue])) =
      some (matched, aggregated)) : cepSignal history event rule = if matched then
        some ⟨event.eventId, event.traceId, aggregated, rule.ruleId, rule.severity⟩ else none := by
  rw [cepSignal, if_pos same, fedValues_of_eq same, found]
  cases matched <;> rfl

end

inductive Phase where
  | setup
  | logging
  | stopped

structure Contract where
  rules : List RuleThreshold := []
  cepRules : List CepRule := []
  events : List RawEvent := []
  signals : List Observed := []
  phase : Phase := .setup

namespace Contract

variable (capacity : Nat) (contract : Contract)

/-- Registering reports whether the arguments make a rule, recording whether the buffer
had room. -/
def set : Setup → Bool × Contract
  | .addRule arguments =>
    match arguments.rule with
    | some rule => (true, { contract with rules := contract.rules ++ [rule] })
    | none => (false, contract)
  | .addCepRule arguments =>
    match arguments.rule with
    | some rule => (true, { contract with cepRules := contract.cepRules ++ [rule] })
    | none => (false, contract)
  | .recordEvent event =>
    if contract.events.length < capacity then
      (true, { contract with events := contract.events ++ [event] })
    else (false, contract)

def stream : List Observed := Parity.stream contract.rules contract.cepRules contract.events

/-- Count windows only, no number of a window beyond a word, and room for every signal. -/
structure Bounded : Prop where
  counts : ∀ rule ∈ contract.cepRules, rule.windowType = .count
  range : ∀ rule ∈ contract.cepRules, ∀ history, history <+: contract.events →
    InRange rule (still (fedValues rule history)) 0
  few : contract.stream.length < capacity

open Classical in
/-- Calls in the order of a script; outside its bounds the contract says nothing. -/
noncomputable def call : Request → Option (Reply × Contract)
  | .setup call =>
    match contract.phase with
    | .setup => some (.flag (contract.set capacity call).1, (contract.set capacity call).2)
    | _ => none
  | .startLogging =>
    match contract.phase with
    | .setup =>
      if Bounded capacity contract then some (.nothing, { contract with phase := .logging })
      else none
    | _ => none
  | .stopLogging =>
    match contract.phase with
    | .logging => some (.nothing, { contract with phase := .stopped, signals := contract.stream })
    | _ => none
  | .pollSignals maxCount =>
    match contract.phase with
    | .stopped =>
      some (.signals (contract.signals.take maxCount), { contract with signals := contract.signals.drop maxCount })
    | _ => none

inductive Serves : Request → Reply → Contract → Prop where
  | setup (call : Setup) : contract.phase = .setup →
      Serves (.setup call) (.flag (contract.set capacity call).1) (contract.set capacity call).2
  | startLogging : contract.phase = .setup → Bounded capacity contract →
      Serves .startLogging .nothing { contract with phase := .logging }
  | stopLogging : contract.phase = .logging → Serves .stopLogging .nothing
        { contract with phase := .stopped, signals := contract.stream }
  | pollSignals (maxCount : Nat) : contract.phase = .stopped →
      Serves (.pollSignals maxCount) (.signals (contract.signals.take maxCount))
        { contract with signals := contract.signals.drop maxCount }

variable {capacity contract}

theorem serves_of_call {request : Request} {reply : Reply} {after : Contract}
    (called : contract.call capacity request = some (reply, after)) :
    Serves capacity contract request reply after := by
  cases request with
  | setup call =>
    simp only [Contract.call] at called
    split at called <;> cases called
    exact .setup call ‹_›
  | startLogging =>
    simp only [Contract.call] at called
    split at called
    · split at called <;> cases called
      exact .startLogging ‹_› ‹_›
    · cases called
  | stopLogging =>
    simp only [Contract.call] at called
    split at called <;> cases called
    exact .stopLogging ‹_›
  | pollSignals maxCount =>
    simp only [Contract.call] at called
    split at called <;> cases called
    exact .pollSignals maxCount ‹_›

theorem set_phase (call : Setup) : (contract.set capacity call).2.phase = contract.phase := by
  cases call with
  | addRule arguments | addCepRule arguments =>
    rw [set]
    cases arguments.rule <;> rfl
  | recordEvent event =>
    rw [set]
    split <;> rfl

theorem set_record (contract : Contract) (capacity : Nat) (event : RawEvent) :
    (contract.set capacity (.recordEvent event)).2.rules = contract.rules ∧
      (contract.set capacity (.recordEvent event)).2.cepRules = contract.cepRules := by
  rw [set]
  split <;> exact ⟨rfl, rfl⟩

variable (capacity)

def afterCalls (calls : List Setup) : Contract :=
  calls.foldl (fun contract call => (contract.set capacity call).2) {}

variable {capacity}

private theorem run_polls (stopped : contract.phase = .stopped) (polls : List Nat) :
    ∃ replies, contractRun (Contract.call capacity) contract (polls.map .pollSignals) = some replies := by
  induction polls generalizing contract with
  | nil => exact ⟨[], rfl⟩
  | cons maxCount polls ih =>
    have called : contract.call capacity (.pollSignals maxCount) = some (.signals (contract.signals.take maxCount),
          { contract with signals := contract.signals.drop maxCount }) := by
      simp only [Contract.call, stopped]
    exact contractRun_of_call called (ih stopped)

private theorem run_logging (setup : contract.phase = .setup) (bounded : contract.Bounded capacity)
    (polls : List Nat) : ∃ replies, contractRun (Contract.call capacity) contract
      (.startLogging :: .stopLogging :: polls.map .pollSignals) = some replies := by
  have started : contract.call capacity .startLogging = some (.nothing, { contract with phase := .logging }) := by
    simp only [Contract.call, setup, bounded, if_true]
  exact contractRun_of_call started (contractRun_of_call rfl (run_polls rfl polls))

private theorem run_setup (setup : contract.phase = .setup) {calls : List Setup} {rest : List Request}
    (ran : ∀ last : Contract, last.phase = .setup →
      last = calls.foldl (fun contract call => (contract.set capacity call).2) contract →
      ∃ replies, contractRun (Contract.call capacity) last rest = some replies) :
    ∃ replies, contractRun (Contract.call capacity) contract (calls.map .setup ++ rest) = some replies := by
  induction calls generalizing contract with
  | nil => exact ran contract setup rfl
  | cons call calls ih =>
    have called : contract.call capacity (.setup call) =
        some (.flag (contract.set capacity call).1, (contract.set capacity call).2) := by
      simp only [Contract.call, setup]
    exact contractRun_of_call called (ih ((set_phase call).trans setup) ran)

theorem run_script {calls : List Setup} (bounded : (afterCalls capacity calls).Bounded capacity) (polls : List Nat) :
    ∃ replies, contractRun (Contract.call capacity) {} (script calls polls) = some replies := by
  rw [script, append_assoc]
  refine run_setup rfl fun last setup same => ?_
  subst same
  exact run_logging setup bounded polls

private theorem windowType_of_rule {arguments : CepRuleArguments} {rule : CepRule}
    (valid : arguments.rule = some rule) (zero : arguments.windowType = 0) : rule.windowType = .count := by
  obtain ⟨windowType, window, valid⟩ := Option.bind_eq_some_iff.mp valid
  obtain ⟨aggregation, -, valid⟩ := Option.bind_eq_some_iff.mp valid
  obtain ⟨comparator, -, valid⟩ := Option.bind_eq_some_iff.mp valid
  cases valid
  rw [zero] at window
  cases window
  rfl

private theorem set_counts {call : Setup} (old : ∀ rule ∈ contract.cepRules, rule.windowType = .count)
    (counts : ∀ arguments, call = .addCepRule arguments → arguments.windowType = 0) :
    ∀ rule ∈ (contract.set capacity call).2.cepRules, rule.windowType = .count := by
  cases call with
  | addRule arguments =>
    rw [set]
    cases arguments.rule <;> exact old
  | addCepRule arguments =>
    rw [set]
    cases valid : arguments.rule with
    | none => exact old
    | some rule =>
      intro other inside
      rcases mem_append.mp inside with earlier | last
      · exact old other earlier
      · rw [mem_singleton.mp last]
        exact windowType_of_rule valid (counts arguments rfl)
  | recordEvent event =>
    rw [(contract.set_record capacity event).2]
    exact old

/-- Registered windows are count windows if no other is asked for. -/
theorem counts_afterCalls {calls : List Setup}
    (counts : ∀ arguments, Setup.addCepRule arguments ∈ calls → arguments.windowType = 0) :
    ∀ rule ∈ (afterCalls capacity calls).cepRules, rule.windowType = .count := by
  have kept : ∀ contract : Contract, (∀ rule ∈ contract.cepRules, rule.windowType = .count) →
      ∀ rule ∈ (calls.foldl (fun contract call => (contract.set capacity call).2)
        contract).cepRules, rule.windowType = .count := by
    induction calls with
    | nil => exact fun _ old => old
    | cons call calls ih =>
      intro contract old
      refine ih (fun arguments inside => counts arguments (mem_cons_of_mem call inside)) _ ?_
      exact set_counts old fun arguments same => counts arguments (same ▸ mem_cons_self)
  exact kept {} fun _ inside => nomatch inside

end Contract

end AnimusCore.Parity
