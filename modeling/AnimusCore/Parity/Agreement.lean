import AnimusCore.Parity.Calls
import AnimusCore.Parity.Fallback

/-! The native engine keeps the contract too, so the two engines agree. -/

set_option autoImplicit false

namespace AnimusCore.Parity

open Cep Engine Lib RingBuffer

variable {capacity : Nat} {contract after : Contract} {state next : Engine.State Unit}
  {action : Engine.Action Unit} {request : Request} {reply result : Reply} {cycles : UInt64}

theorem NativeRests.step (admitted : Admitted capacity) (two : 2 ≤ capacity)
    (rests : NativeRests capacity state contract) (works : SinkWorks state action)
    (ran : (native capacity).step state action = some next) : NativeRests capacity next contract := by
  obtain ⟨closed, ran⟩ := closed_of_native ran
  unfold NativeRests at rests ⊢
  cases phase : contract.phase with
  | setup =>
    rw [phase] at rests
    obtain ⟨control, running, idle, before, records, holds, -⟩ := rests
    exact absurd ran (not_step before.worker idle holds before.signals (startOrStop_idle control) closed)
  | logging =>
    rw [phase] at rests
    obtain ⟨control, running, bounded, working⟩ := rests
    by_cases own : action = .control
    · subst own
      rw [Engine.step, startOrStop_idle control] at ran
      cases ran
    · obtain ⟨kept, sameControl, sameRunning⟩ := working.step admitted two bounded closed own works ran
      exact ⟨sameControl.trans control, sameRunning.trans running, bounded, kept⟩
  | stopped =>
    rw [phase] at rests
    obtain ⟨after, idle, items, holds, -⟩ := rests
    obtain ⟨records, ring⟩ := after.ring
    exact absurd ran (not_step after.worker idle ring holds (startOrStop_stopped after.control) closed)

theorem NativeBusy.step (admitted : Admitted capacity) (two : 2 ≤ capacity)
    (busy : NativeBusy capacity state contract request) (works : SinkWorks state action)
    (ran : (native capacity).step state action = some next) : NativeBusy capacity next contract request := by
  obtain ⟨closed, ran⟩ := closed_of_native ran
  cases request with
  | setup call =>
    cases call with
    | addRule | addCepRule => cases busy
    | recordEvent event =>
      obtain ⟨idle, running, before, recording⟩ := busy
      obtain ⟨kept, still, control, same⟩ := recording.step admitted two before idle closed ran
      exact ⟨control.trans idle, same.trans running, still, kept⟩
  | startLogging =>
    obtain ⟨bounded, starting⟩ := busy
    exact ⟨bounded, starting.step admitted two bounded closed works ran⟩
  | stopLogging =>
    obtain ⟨bounded, stopping⟩ := busy
    exact ⟨bounded, stopping.step admitted two bounded closed works ran⟩
  | pollSignals maxCount =>
    obtain ⟨after, polling⟩ := busy
    obtain ⟨kept, still⟩ := polling.step admitted two after closed ran
    exact ⟨still, kept⟩

theorem NativeBusy.finishes (admitted : Admitted capacity) (two : 2 ≤ capacity)
    (busy : NativeBusy capacity state contract request) :
    ∃ finish, Reaches (native capacity).step SinkWorks state finish ∧
      ((native capacity).reply finish request).isSome = true := by
  cases request with
  | setup call =>
    cases call with
    | addRule | addCepRule => cases busy
    | recordEvent event =>
      obtain ⟨idle, -, before, recording⟩ := busy
      obtain ⟨finish, path, ⟨recorded, -, -⟩, resting⟩ := recording.finishes admitted two before idle
      refine ⟨finish, path, ?_⟩
      rcases recorded with ⟨record, records, began, here, -⟩ | ⟨-, -, call, last, -⟩
      · rw [here] at resting
        cases resting
      · simp [native, resting, last]
  | startLogging =>
    obtain ⟨finish, path, idle⟩ := busy.2.finishes
    exact ⟨finish, path, by simp [native, idle]⟩
  | stopLogging =>
    obtain ⟨finish, path, asked, stopped⟩ := busy.2.finishes admitted two busy.1
    exact ⟨finish, path, by simp [native, stopped]⟩
  | pollSignals maxCount =>
    obtain ⟨finish, path, ⟨polled, -⟩, resting⟩ := busy.2.finishes admitted two busy.1
    refine ⟨finish, path, ?_⟩
    rcases polled with ⟨out, items, here, -⟩ | ⟨-, -, poll, last, -⟩
    · rw [here] at resting
      cases resting
    · simp [native, resting, last]

section
variable (rests : NativeRests capacity state contract)
include rests

variable (called : contract.call capacity request = some (reply, after))
include called

theorem NativeRests.begins : ∃ cycles begun, (native capacity).begin state request cycles = some begun := by
  unfold NativeRests at rests
  cases Contract.serves_of_call called with
  | setup call phase =>
    cases call with
    | addRule | addCepRule => exact ⟨0, _, rfl⟩
    | recordEvent event =>
      rw [phase] at rests
      obtain ⟨-, -, idle, -, records, holds, -⟩ := rests
      obtain ⟨ring, begun⟩ := holds.exists_begin (.caller ()) (.pushLoadPos ⟨event.stamp 0, (), state.registered⟩)
      refine ⟨0, ?_⟩
      simp only [native, Engine.step, Engine.State.recordBatch, Engine.State.recordFrom, idle,
        List.getElem?_cons_zero, begun]
      exact ⟨_, rfl⟩
  | startLogging phase | stopLogging phase =>
    rw [phase] at rests
    refine ⟨0, ?_⟩
    simp only [native, Engine.step, Core.unoccupied, rests.1]
    exact ⟨_, rfl⟩
  | pollSignals maxCount phase =>
    rw [phase] at rests
    obtain ⟨-, idle, items, holds, -⟩ := rests
    obtain ⟨ring, begun⟩ := holds.exists_begin (.caller ()) .popLoadPos
    simp only [native, Engine.step, Engine.State.pollSignals, Engine.State.pollFrom, idle, begun]
    split <;> exact ⟨0, _, rfl⟩

theorem NativeRests.atOnce (began : (native capacity).begin state request cycles = some (next, some result)) :
    result = reply ∧ NativeRests capacity next after := by
  unfold NativeRests at rests
  cases Contract.serves_of_call called with
  | setup call phase =>
    rw [phase] at rests
    obtain ⟨control, running, idle, before, held⟩ := rests
    unfold NativeRests
    rw [Contract.set_phase, phase]
    cases call with
    | addRule arguments =>
      cases began
      rw [Contract.set, addRule]
      cases valid : arguments.rule with
      | none =>
        exact ⟨rfl, control, running, idle, { before with }, held⟩
      | some rule =>
        exact ⟨rfl, control, running, idle, { before with rules := congrArg (· ++ [rule]) before.rules }, held⟩
    | addCepRule arguments =>
      cases began
      rw [Contract.set, addCepRule]
      cases valid : arguments.rule with
      | none =>
        exact ⟨rfl, control, running, idle, { before with }, held⟩
      | some rule =>
        refine ⟨rfl, control, running, idle, { before with cepRules := ?_ }, held⟩
        exact List.rel_append before.cepRules (.cons (CepRuleState.fed_create rule) .nil)
    | recordEvent event =>
      obtain ⟨begun, -, same⟩ := Option.map_eq_some_iff.mp began
      cases same
  | startLogging | stopLogging | pollSignals =>
    obtain ⟨begun, -, same⟩ := Option.map_eq_some_iff.mp began
    cases same

theorem NativeRests.underWay (began : (native capacity).begin state request cycles = some (next, none)) :
    NativeBusy capacity next contract request := by
  unfold NativeRests at rests
  cases Contract.serves_of_call called with
  | setup call phase =>
    rw [phase] at rests
    obtain ⟨control, running, idle, before, records, holds, events⟩ := rests
    cases call with
    | addRule | addCepRule => cases began
    | recordEvent event =>
      obtain ⟨begun, ran, same⟩ := Option.map_eq_some_iff.mp began
      cases same
      simp only [Engine.step, Engine.State.recordBatch, Engine.State.recordFrom, idle, List.getElem?_cons_zero] at ran
      obtain ⟨ring, pushed, rfl⟩ := Option.map_eq_some_iff.mp ran
      refine ⟨control, running, { before with }, .inl ⟨_, records,
        state.registered, by simp, .inl (holds.push pushed), rfl, events⟩⟩
  | startLogging phase bounded =>
    rw [phase] at rests
    obtain ⟨control, running, idle, before, held⟩ := rests
    obtain ⟨begun, ran, same⟩ := Option.map_eq_some_iff.mp began
    cases same
    simp only [Engine.step, Core.unoccupied, control, if_true] at ran
    cases ran
    exact ⟨bounded, .inl ⟨idle, held, { before with }, .inl ⟨.inl rfl, running⟩⟩⟩
  | stopLogging phase =>
    rw [phase] at rests
    obtain ⟨control, running, bounded, working⟩ := rests
    obtain ⟨begun, ran, same⟩ := Option.map_eq_some_iff.mp began
    cases same
    simp only [Engine.step, Core.unoccupied, control, if_true] at ran
    cases ran
    exact ⟨bounded, .inl ⟨⟨_, .inl ⟨.inl rfl, running⟩⟩, working.withControl _ _⟩⟩
  | pollSignals maxCount phase =>
    rw [phase] at rests
    obtain ⟨after, idle, items, holds, signals⟩ := rests
    obtain ⟨begun, ran, same⟩ := Option.map_eq_some_iff.mp began
    cases same
    simp only [Engine.step, Engine.State.pollSignals, idle] at ran
    have total : ([] ++ items).map nativeSignal = contract.signals := signals
    obtain ⟨polling, still⟩ := pollFrom_polling holds total (Nat.zero_le maxCount) after ran
    exact ⟨still, polling⟩

end

theorem NativeBusy.replies (busy : NativeBusy capacity state contract request)
    (called : contract.call capacity request = some (reply, after))
    (replied : (native capacity).reply state request = some result) :
    result = reply ∧ NativeRests capacity state after := by
  unfold NativeRests
  cases Contract.serves_of_call called with
  | setup call phase =>
    rw [Contract.set_phase, phase]
    cases call with
    | addRule | addCepRule => cases busy
    | recordEvent event =>
      obtain ⟨control, running, before, recording⟩ := busy
      rcases recording with ⟨record, records, began, here, -⟩ | ⟨idle, held, call, last, same⟩
      · simp [native, here] at replied
      · simp only [native, idle, last, Option.map_some, Option.some.injEq] at replied
        rw [← replied, same]
        obtain ⟨rules, cepRules⟩ := contract.set_record capacity event
        refine ⟨rfl, control, running, idle, { before with rules := ?_, cepRules := ?_ }, held⟩
        · rw [rules]
          exact before.rules
        · rw [cepRules]
          exact before.cepRules
  | startLogging phase bounded =>
    obtain ⟨-, ⟨-, -, -, ⟨here | here, -⟩ | ⟨here, -⟩⟩ | ⟨control, running, working⟩⟩ := busy
    · simp [native, here] at replied
    · simp [native, here] at replied
    · simp [native, here] at replied
    · simp only [native, control, Option.some.injEq] at replied
      obtain ⟨snapshot, history, records, evaluated, split⟩ := working
      exact ⟨replied.symm, control, running, { bounded with }, snapshot, history, records, { evaluated with }, split⟩
  | stopLogging phase =>
    obtain ⟨-, ⟨⟨asked, ⟨here | here, -⟩ | ⟨here, -⟩⟩, -⟩ | ⟨after, idle, held⟩⟩ := busy
    · simp [native, here] at replied
    · simp [native, here] at replied
    · simp [native, here] at replied
    · obtain ⟨asked, stopped⟩ := after.control
      simp only [native, stopped, Option.some.injEq] at replied
      exact ⟨replied.symm, after, idle, held⟩
  | pollSignals maxCount phase =>
    simp only [phase]
    obtain ⟨after, polling⟩ := busy
    rcases polling with ⟨out, items, here, -⟩ | ⟨idle, held, poll, last, same⟩
    · simp [native, here] at replied
    · simp only [native, idle, last, Option.map_some, Option.some.injEq] at replied
      rw [← replied, same]
      exact ⟨rfl, after, idle, held⟩

private theorem native_keeps (admitted : Admitted capacity) (two : 2 ≤ capacity) :
    Keeps (native capacity) SinkWorks (Contract.call capacity) (NativeRests capacity) (NativeBusy capacity) where
  rests_step := NativeRests.step admitted two
  busy_step := NativeBusy.step admitted two
  begins := NativeRests.begins
  atOnce := NativeRests.atOnce
  underWay := NativeRests.underWay
  replies := NativeBusy.replies
  finishes := NativeBusy.finishes admitted two

private theorem nativeRests_initial (admitted : Admitted capacity) (records : Nat → Record Unit)
    (signals : Nat → Engine.ThreatSignal) : NativeRests capacity (Engine.initial records signals) {} :=
  ⟨rfl, rfl, rfl, ⟨rfl, .nil, rfl, rfl, holds_initial admitted signals⟩, [], holds_initial admitted records, rfl⟩

theorem native_and_fallback_agree {exponent : Nat} (two : 1 ≤ exponent) (word : exponent ≤ 63) {calls : List Setup}
    (counts : ∀ arguments, Setup.addCepRule arguments ∈ calls → arguments.windowType = 0)
    (range : ∀ rule ∈ (Contract.afterCalls (2 ^ exponent) calls).cepRules,
      ∀ history, history <+: (Contract.afterCalls (2 ^ exponent) calls).events →
        InRange rule (still (fedValues rule history)) 0)
    (few : (Contract.afterCalls (2 ^ exponent) calls).stream.length < 2 ^ exponent)
    (polls : List Nat) (records : Nat → Record Unit) (signals : Nat → Engine.ThreatSignal) :
    roundUpPow2 (2 ^ exponent) = some (2 ^ exponent) ∧
      (native (2 ^ exponent)).Completes SinkWorks (Engine.initial records signals) (script calls polls) ∧
      fallback.Completes LogWorks (Fallback.init (2 ^ exponent)) (script calls polls) ∧
      ∀ nativeEnd fallbackEnd, Reaches (native (2 ^ exponent)).clientStep (Service.Permits SinkWorks)
          { state := Engine.initial records signals, todo := script calls polls } nativeEnd →
        Reaches fallback.clientStep (Service.Permits LogWorks)
          { state := Fallback.init (2 ^ exponent), todo := script calls polls } fallbackEnd →
        nativeEnd.done = true → fallbackEnd.done = true →
        nativeEnd.replies = fallbackEnd.replies := by
  have rounded := roundUpPow2_two_pow word
  have admitted := admitted_of_accepted rounded
  have atLeast : 2 ^ 1 ≤ 2 ^ exponent := Nat.pow_le_pow_right Nat.two_pos two
  obtain ⟨expected, run⟩ := Contract.run_script ⟨Contract.counts_afterCalls counts, range, few⟩ polls
  have native := native_keeps admitted atLeast
  have nativeRests := nativeRests_initial admitted records signals
  have fallback := fallback_keeps (2 ^ exponent)
  have fallbackRests := fallbackRests_init (2 ^ exponent)
  refine ⟨rounded, native.completes nativeRests run, fallback.completes fallbackRests run, ?_⟩
  intro nativeEnd fallbackEnd nativePath fallbackPath nativeDone fallbackDone
  rw [native.replies_eq nativeRests run nativePath nativeDone,
    fallback.replies_eq fallbackRests run fallbackPath fallbackDone]

def sampleCalls : List Setup :=
  [.addRule ⟨1, 42, 10, 0, 5⟩, .addCepRule ⟨2, 42, 0, 2, 0, 0, 15, 7⟩, .addRule ⟨3, 42, 10, 3, 5⟩,
    .recordEvent ⟨42, 1, 11⟩, .recordEvent ⟨42, 2, 9⟩]

def sampleEngine : Engine.State Unit :=
  Engine.initial (fun _ => ⟨⟨0, 0, 0, 0⟩, (), 0, 0⟩) fun _ => ⟨0, 0, 0, 0, 0, 0⟩

theorem native_and_fallback_agree_sample :
    (Contract.afterCalls (2 ^ 2) sampleCalls).stream = [⟨42, 1, 11, 1, 5⟩, ⟨42, 2, 20, 2, 7⟩] ∧
      ∀ nativeEnd fallbackEnd, Reaches (native (2 ^ 2)).clientStep (Service.Permits SinkWorks)
          { state := sampleEngine, todo := script sampleCalls [1, 8] } nativeEnd →
        Reaches fallback.clientStep (Service.Permits LogWorks)
          { state := Fallback.init (2 ^ 2), todo := script sampleCalls [1, 8] } fallbackEnd →
        nativeEnd.done = true → fallbackEnd.done = true →
        nativeEnd.replies = fallbackEnd.replies := by
  have stream : (Contract.afterCalls (2 ^ 2) sampleCalls).stream = [⟨42, 1, 11, 1, 5⟩, ⟨42, 2, 20, 2, 7⟩] := by
    decide
  have counts : ∀ arguments, Setup.addCepRule arguments ∈ sampleCalls → arguments.windowType = 0 := by
    simp [sampleCalls]
  have rules : (Contract.afterCalls (2 ^ 2) sampleCalls).cepRules =
      [⟨2, 42, .count, 2, .sum, .greaterThan, 15, 7⟩] := by
    decide
  have range : ∀ rule ∈ (Contract.afterCalls (2 ^ 2) sampleCalls).cepRules,
      ∀ history ∈ (Contract.afterCalls (2 ^ 2) sampleCalls).events.inits,
        InRange rule (still (fedValues rule history)) 0 := by
    have events : (Contract.afterCalls (2 ^ 2) sampleCalls).events.inits =
        [[], [⟨42, 1, 11⟩], [⟨42, 1, 11⟩, ⟨42, 2, 9⟩]] := by
      decide
    rw [rules, events]
    intro rule inside history before
    rw [List.mem_singleton.mp inside]
    simp only [List.mem_cons, List.not_mem_nil, or_false] at before
    rcases before with rfl | rfl | rfl <;>
      exact ⟨by decide, by decide, by decide, fun time => nomatch time⟩
  have agreed := native_and_fallback_agree (by decide) (by decide) counts
    (fun rule inside history before => range rule inside history ((List.mem_inits ..).mpr before))
    (by rw [stream]; decide) [1, 8] (fun _ => ⟨⟨0, 0, 0, 0⟩, (), 0, 0⟩)
    fun _ => ⟨0, 0, 0, 0, 0, 0⟩
  exact ⟨stream, agreed.2.2.2⟩

end AnimusCore.Parity
