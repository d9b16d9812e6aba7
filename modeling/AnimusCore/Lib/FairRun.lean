import AnimusCore.Lib.Transition
import Mathlib.Data.Nat.Find
import Mathlib.Order.WellFounded

/-! Infinite runs and what must happen in them. A rank that every helpful step lowers and
no step raises cannot stay away from its goal if helpful steps keep coming. -/

set_option autoImplicit false

namespace AnimusCore.Lib

section

variable {State Action : Type}

/-- An infinite run: the states, and the action taken in each. -/
structure Runs (step : State → Action → Option State) (states : Nat → State) (actions : Nat → Action) : Prop where
  advances : ∀ time, step (states time) (actions time) = some (states (time + 1))

def prepend {α : Type} (first : α) (rest : Nat → α) : Nat → α
  | 0 => first
  | time + 1 => rest time

variable {step : State → Action → Option State} {states : Nat → State} {actions : Nat → Action}

theorem Runs.prepend {start : State} {action : Action} (runs : Runs step states actions)
    (ran : step start action = some (states 0)) :
    Runs step (Lib.prepend start states) (Lib.prepend action actions) where
  advances
    | 0 => ran
    | time + 1 => runs.advances time

/-- A choice of actions that can always go on gives an infinite run. -/
theorem exists_runs {Holds : State → Prop} (choose : State → Action)
    (goes : ∀ state, Holds state → ∃ next, step state (choose state) = some next ∧ Holds next) {start : State}
    (holds : Holds start) : ∃ states, states 0 = start ∧ Runs step states (fun time => choose (states time)) ∧
      ∀ time, Holds (states time) := by
  let states : Nat → State := Nat.rec start fun _ state => (step state (choose state)).getD state
  have next : ∀ time, states (time + 1) =
      (step (states time) (choose (states time))).getD (states time) := fun _ => rfl
  have all : ∀ time, Holds (states time) := by
    intro time
    induction time with
    | zero => exact holds
    | succ time ih =>
      obtain ⟨state, ran, kept⟩ := goes _ ih
      rw [next, ran]
      exact kept
  refine ⟨states, rfl, ⟨fun time => ?_⟩, all⟩
  obtain ⟨state, ran, -⟩ := goes _ (all time)
  rw [next, ran]
  rfl

theorem Runs.reaches {allowed : State → Action → Prop} (runs : Runs step states actions)
    (permitted : ∀ time, allowed (states time) (actions time)) (time : Nat) :
    Reaches step allowed (states 0) (states time) := by
  induction time with
  | zero => exact .refl
  | succ time ih => exact .step ih (permitted time) (runs.advances time)

theorem Runs.stable (runs : Runs step states actions) (Holds : State → Prop)
    (kept : ∀ time next, Holds (states time) → step (states time) (actions time) = some next → Holds next)
    {start : Nat} (holds : Holds (states start)) {time : Nat} (later : start ≤ time) : Holds (states time) := by
  induction later with
  | refl => exact holds
  | step _ ih => exact kept _ _ ih (runs.advances _)

end

/-- The ranking rule. -/
theorem eventually_of_rank {State Rank : Type} (states : Nat → State) (Goal : State → Prop)
    {less : Rank → Rank → Prop} (wellFounded : WellFounded less) (rank : State → Rank)
    (helpful : Nat → Prop) (start : Nat) (fair : ∀ time ≥ start, ∃ later ≥ time, helpful later ∨ Goal (states later))
    (helps : ∀ time ≥ start, ¬ Goal (states time) → helpful time →
      less (rank (states (time + 1))) (rank (states time)) ∨ Goal (states (time + 1)))
    (keeps : ∀ time ≥ start, ¬ Goal (states time) → rank (states (time + 1)) = rank (states time) ∨
        less (rank (states (time + 1))) (rank (states time)) ∨ Goal (states (time + 1))) :
    ∃ time ≥ start, Goal (states time) := by
  by_contra never
  have away : ∀ time ≥ start, ¬ Goal (states time) := fun time late met =>
    never ⟨time, late, met⟩
  -- No rank is the rank of a state of the run, by induction on the rank.
  have none : ∀ value, ∀ time ≥ start, rank (states time) ≠ value := by
    intro value
    induction value using wellFounded.induction with
    | _ value ih =>
      rintro time late rfl
      have lowers : ∃ waited, less (rank (states (time + waited + 1))) (rank (states (time + waited))) := by
        obtain ⟨later, after, help | met⟩ := fair time late
        · refine ⟨later - time, ?_⟩
          rw [Nat.add_sub_cancel' after]
          exact (helps later (late.trans after) (away later (late.trans after))
            help).resolve_right (away _ (by omega))
        · exact absurd met (away later (late.trans after))
      obtain ⟨waited, lower, first⟩ : ∃ waited,
          less (rank (states (time + waited + 1))) (rank (states (time + waited))) ∧
            ∀ earlier < waited, ¬ less (rank (states (time + earlier + 1))) (rank (states (time + earlier))) := by
        classical
        exact ⟨Nat.find lowers, Nat.find_spec lowers, fun earlier => Nat.find_min lowers⟩
      have same : ∀ earlier ≤ waited, rank (states (time + earlier)) = rank (states time) := by
        intro earlier before
        induction earlier with
        | zero => rfl
        | succ earlier ih =>
          rw [← ih (Nat.le_of_succ_le before)]
          rcases keeps (time + earlier) (by omega) (away _ (by omega)) with eq | less | met
          · exact eq
          · exact absurd less (first earlier before)
          · exact absurd met (away _ (by omega))
      rw [same waited (Nat.le_refl _)] at lower
      exact ih _ lower _ (by omega) rfl
  exact none _ start (Nat.le_refl _) rfl

/-- Finitely many facts that come to stay hold together at some moment. -/
theorem eventually_forall_lt {Holds : Nat → Nat → Prop}
    (stable : ∀ index time later, time ≤ later → Holds index time → Holds index later) (start : Nat) {bound : Nat}
    (each : ∀ index < bound, ∃ time, Holds index time) : ∃ time ≥ start, ∀ index < bound, Holds index time := by
  induction bound with
  | zero => exact ⟨start, Nat.le_refl _, fun index inside => absurd inside (Nat.not_lt_zero _)⟩
  | succ bound ih =>
    obtain ⟨time, late, all⟩ := ih fun index inside => each index (by omega)
    obtain ⟨time', last⟩ := each bound (Nat.lt_succ_self _)
    refine ⟨max time time', by omega, fun index inside => ?_⟩
    rcases Nat.lt_or_ge index bound with earlier | here
    · exact stable _ _ _ (Nat.le_max_left _ _) (all index earlier)
    · have same : index = bound := by omega
      exact same ▸ stable _ _ _ (Nat.le_max_right _ _) last

end AnimusCore.Lib
