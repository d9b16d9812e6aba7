import AnimusCore.Engine.Conservation
import Mathlib.Order.Basic

/-! The snapshots of the rules. They are taken after the batch is popped, so they hold
every rule that was registered when a `record` call of the batch began, and a later
snapshot holds every rule of an earlier one. -/

set_option autoImplicit false

namespace AnimusCore.Engine

open RingBuffer Cep Function List

section

variable {Thread : Type}

def Evaluation.counts (evaluation : Evaluation Thread) : Nat × Nat :=
  (evaluation.rules, evaluation.cepRules)

def View.RulesTaken (view : View Thread) (batch : List (Record Thread)) (rules : List RuleThreshold) : Prop :=
  rules <+: view.rules ∧ (∀ record ∈ batch, record.began.1 ≤ rules.length) ∧
    ∀ evaluation ∈ view.evaluations, evaluation.rules ≤ rules.length

def View.CepRulesTaken (view : View Thread) (batch : List (Record Thread)) (cepRules : Nat) : Prop :=
  cepRules ≤ view.cepRules.length ∧ (∀ record ∈ batch, record.began.2 ≤ cepRules) ∧
    ∀ evaluation ∈ view.evaluations, evaluation.cepRules ≤ cepRules

def View.SnapshotsTaken (view : View Thread) : Prop :=
  match view.worker with
  | .cepRulesLock batch rules => view.RulesTaken batch rules
  | .readClock batch rules cepRules =>
    view.RulesTaken batch rules ∧ view.CepRulesTaken batch cepRules
  | .evaluating _ rest snapshot | .signalling _ rest snapshot _ =>
    view.RulesTaken rest snapshot.rules ∧ view.CepRulesTaken rest snapshot.cepRules
  | _ => True

structure Snapshots (view : View Thread) : Prop where
  claimed : ∀ claim ∈ view.ring.claims, claim.2.began ≤ view.registered
  recording : ∀ thread events pushed began,
    view.callers thread = .recording events pushed began → began ≤ view.registered
  evaluated : ∀ evaluation ∈ view.evaluations,
    evaluation.record.began ≤ evaluation.counts ∧ evaluation.counts ≤ view.registered
  grows : view.evaluations.Pairwise fun first second => first.counts ≤ second.counts
  taken : view.SnapshotsTaken

theorem Snapshots.initial (records : Nat → Record Thread) (signals : Nat → ThreatSignal) :
    Snapshots (initial records signals).view where
  claimed := nofun
  recording := nofun
  evaluated := nofun
  grows := .nil
  taken := trivial

end

variable {Thread : Type} [DecidableEq Thread] {view after : View Thread} {action : Action Thread}

theorem addRule_grows (rules : List RuleThreshold) (arguments : RuleArguments)
    (allocates : Bool) : rules <+: (addRule rules arguments allocates).2 := by
  unfold addRule
  split
  case h_1 => exact prefix_refl _
  case h_2 =>
    split
    · exact prefix_append _ _
    · exact prefix_refl _

private theorem addCepRule_grows (cepRules : List CepRuleState) (arguments : CepRuleArguments)
    (allocates : Bool) : cepRules <+: (addCepRule cepRules arguments allocates).2 := by
  unfold addCepRule
  split
  case h_1 => exact prefix_refl _
  case h_2 =>
    split
    · exact prefix_append _ _
    · exact prefix_refl _

omit [DecidableEq Thread] in
theorem Snapshots.grow (snapshots : Snapshots view) {rules : List RuleThreshold} {cepRules : List CepRuleState}
    (more : view.rules <+: rules) (more' : view.cepRules <+: cepRules) : Snapshots { view with rules, cepRules } := by
  have grown : view.registered ≤ (rules.length, cepRules.length) := ⟨more.length_le, more'.length_le⟩
  have rulesTaken : ∀ {batch snapshot}, view.RulesTaken batch snapshot →
      View.RulesTaken { view with rules, cepRules } batch snapshot :=
    fun taken => ⟨taken.1.trans more, taken.2⟩
  have cepRulesTaken : ∀ {batch count}, view.CepRulesTaken batch count →
      View.CepRulesTaken { view with rules, cepRules } batch count :=
    fun taken => ⟨taken.1.trans more'.length_le, taken.2⟩
  refine ⟨?_, ?_, ?_, snapshots.grows, ?_⟩
  · exact fun claim member => (snapshots.claimed claim member).trans grown
  · exact fun thread events pushed began recording =>
      (snapshots.recording thread events pushed began recording).trans grown
  · exact fun evaluation member => (snapshots.evaluated evaluation member).imp_right fun bound => bound.trans grown
  · have taken := snapshots.taken
    unfold View.SnapshotsTaken at taken ⊢
    cases here : view.worker with
    | cepRulesLock =>
      simp only [here] at taken ⊢
      exact rulesTaken taken
    | readClock | evaluating | signalling =>
      simp only [here] at taken ⊢
      exact ⟨rulesTaken taken.1, cepRulesTaken taken.2⟩
    | _ => trivial

section
variable (snapshots : Snapshots view)
include snapshots

theorem Snapshots.ring (roles : Roles view) {party : Party Thread} {ring : Summary (Party Thread) (Record Thread)}
    (effect : Effect view.ring party ring) : Snapshots { view with ring } := by
  refine { snapshots with claimed := ?_ }
  refine effect.forall_claims snapshots.claimed fun record phase => ?_
  obtain ⟨thread, rfl, events, pushed, recording, -⟩ := roles.offers phase
  exact snapshots.recording thread events pushed record.began recording

theorem Snapshots.setCaller {thread : Thread} {next : Caller}
    (began : ∀ events pushed began, next = .recording events pushed began → began ≤ view.registered) :
    Snapshots { view with callers := update view.callers thread next } := by
  refine { snapshots with recording := ?_ }
  intro other events pushed start recording
  change update view.callers thread next other = _ at recording
  by_cases here : other = thread
  · subst here
    rw [update_self] at recording
    exact began events pushed start recording
  · rw [update_of_ne here] at recording
    exact snapshots.recording other events pushed start recording

omit [DecidableEq Thread] in
theorem Snapshots.records {thread : Thread} {events : List RawEvent} {pushed : Nat} {began : Nat × Nat}
    {cycles : UInt64} (records : Records view action thread events pushed began cycles) :
    began ≤ view.registered := by
  cases records with
  | record | recordBatch => exact le_refl _
  | resume recording => exact snapshots.recording _ _ _ _ recording

theorem Snapshots.caller (step : CallerStep view action after) : Snapshots after := by
  cases step with
  | @pushes _ thread events pushed began _ _ records =>
    have called : Snapshots { view with
        callers := update view.callers thread (.recording events pushed began) } := by
      refine snapshots.setCaller fun _ _ start same => ?_
      cases same
      exact snapshots.records records
    exact { called with }
  | @pops _ thread maxCount out =>
    have called : Snapshots { view with
        callers := update view.callers thread (.polling maxCount out) } :=
      snapshots.setCaller (by simp)
    exact { called with }
  | @returns _ thread | @refused thread | @filled _ thread | @empty thread =>
    have called : Snapshots { view with
        callers := update view.callers thread .idle } :=
      snapshots.setCaller (by simp)
    exact { called with }

end

omit [DecidableEq Thread] in
theorem Conserved.claimed (conserved : Conserved view) (roles : Roles view) {record : Record Thread}
    (member : record ∈ view.worker.unevaluated) : ∃ claim ∈ view.ring.claims, claim.2 = record := by
  have inside : record ∈ view.popped := by
    rw [conserved.popped]
    exact mem_append_right _ (mem_append_left _ member)
  rw [View.popped, roles.single.values roles.sound] at inside
  obtain ⟨claim, member, same⟩ := mem_map.mp inside
  exact ⟨claim, mem_of_mem_take member, same⟩

omit [DecidableEq Thread] in
theorem Snapshots.began_le (snapshots : Snapshots view) (conserved : Conserved view) (roles : Roles view)
    {record : Record Thread} (member : record ∈ view.worker.unevaluated) : record.began ≤ view.registered := by
  obtain ⟨claim, member, same⟩ := conserved.claimed roles member
  exact same ▸ snapshots.claimed claim member

theorem Snapshots.emit (snapshots : Snapshots { view with worker := .absent })
    {done rest : List (Record Thread)} {snapshot : Snapshot} (signals : List ThreatSignal)
    (taken : view.RulesTaken rest snapshot.rules ∧ view.CepRulesTaken rest snapshot.cepRules) :
    Snapshots (view.emit done rest snapshot signals) := by
  cases signals <;> exact { snapshots with taken := taken }

theorem Snapshots.worker (snapshots : Snapshots view) (conserved : Conserved view)
    (roles : Roles view) (step : WorkerStep view action after) : Snapshots after := by
  have taken := snapshots.taken
  unfold View.SnapshotsTaken at taken
  cases step with
  | @rulesLock batch here =>
    refine { snapshots with taken := ⟨prefix_refl _, ?_, ?_⟩ }
    · intro record member
      refine (snapshots.began_le conserved roles ?_).1
      rw [here]
      exact member
    · exact fun evaluation member => (snapshots.evaluated evaluation member).2.1
  | @cepRulesLock batch rules here =>
    rw [here] at taken
    refine { snapshots with taken := ⟨taken, le_refl _, ?_, ?_⟩ }
    · intro record member
      refine (snapshots.began_le conserved roles ?_).2
      rw [here]
      exact member
    · exact fun evaluation member => (snapshots.evaluated evaluation member).2.2
  | readClock here =>
    rw [here] at taken
    exact { snapshots with taken := taken }
  | @evaluates done rest record snapshot signals cepRules here fired =>
    rw [here] at taken
    obtain ⟨⟨front, began, earlier⟩, inside, began', earlier'⟩ := taken
    have length := congrArg List.length (evaluate_rules fired)
    rw [length_map, length_map] at length
    have kept : view.registered ≤ (view.rules.length, cepRules.length) := by
      rw [length]
      exact le_refl _
    have first : record ∈ record :: rest := mem_cons_self
    have grown : ∀ evaluation ∈ view.evaluations ++ [⟨record, snapshot.rules.length,
        snapshot.cepRules, snapshot.nowMs⟩], evaluation.counts ≤ (snapshot.rules.length, snapshot.cepRules) := by
      intro evaluation member
      rcases mem_append.mp member with old | new
      · exact ⟨earlier evaluation old, earlier' evaluation old⟩
      · rw [mem_singleton.mp new]
        exact le_refl _
    have fed : Snapshots { view with
        cepRules
        worker := .absent
        evaluations := view.evaluations ++
          [⟨record, snapshot.rules.length, snapshot.cepRules, snapshot.nowMs⟩] } := by
      refine ⟨?_, ?_, ?_, ?_, trivial⟩
      · exact fun claim member => (snapshots.claimed claim member).trans kept
      · exact fun thread events pushed began recording =>
          (snapshots.recording thread events pushed began recording).trans kept
      · intro evaluation member
        rcases mem_append.mp member with old | new
        · exact (snapshots.evaluated evaluation old).imp_right fun bound => bound.trans kept
        · rw [mem_singleton.mp new]
          refine ⟨⟨began record first, began' record first⟩, front.length_le, ?_⟩
          exact inside.trans length.ge
      · refine pairwise_append.mpr ⟨snapshots.grows, pairwise_singleton _ _, ?_⟩
        intro evaluation old last new
        rw [mem_singleton.mp new]
        exact grown evaluation (mem_append_left _ old)
    refine fed.emit signals ⟨⟨front, ?_, ?_⟩, ?_, ?_, ?_⟩
    · exact fun later member => began later (mem_cons_of_mem _ member)
    · exact fun evaluation member => (grown evaluation member).1
    · rw [length]
      exact inside
    · exact fun later member => began' later (mem_cons_of_mem _ member)
    · exact fun evaluation member => (grown evaluation member).2
  | signals here =>
    rw [here] at taken
    have resting : Snapshots { view with worker := .absent } := { snapshots with taken := trivial }
    exact resting.emit _ taken
  | _ => exact { snapshots with taken := trivial }

theorem Snapshots.step (snapshots : Snapshots view) (conserved : Conserved view)
    (roles : Roles view) (step : Step view action after) : Snapshots after := by
  cases step with
  | ring effect => exact snapshots.ring roles effect
  | ringSpurious | signalRingSpurious => exact snapshots
  | signalRing => exact { snapshots with }
  | caller step => exact snapshots.caller step
  | worker step => exact snapshots.worker conserved roles step
  | control step =>
    cases step with
    | startSpawn | stopJoin => exact { snapshots with taken := trivial }
    | _ => exact { snapshots with }
  | register step =>
    cases step with
    | addRule arguments allocates =>
      exact snapshots.grow (addRule_grows _ _ _) (prefix_refl _)
    | addCepRule arguments allocates =>
      exact snapshots.grow (prefix_refl _) (addCepRule_grows _ _ _)

end AnimusCore.Engine
