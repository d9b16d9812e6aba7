import Mathlib.Order.RelClasses

/-! Runs of a deterministic step function under arbitrary scheduling. A step is
selected by an action, so every interleaving of a system is one list of actions.
The `allowed` predicate restricts which steps a run may take; a result about all
runs uses the predicate that is always true. -/

set_option autoImplicit false

namespace AnimusCore.Lib

section

variable {State Action : Type} (step : State → Action → Option State) (allowed : State → Action → Prop)

inductive Reaches (start : State) : State → Prop where
  | refl : Reaches start start
  | step {middle finish : State} {action : Action} : Reaches start middle → allowed middle action →
      step middle action = some finish → Reaches start finish

def Always : State → Action → Prop := fun _ _ => True

def execute : State → List Action → Option State
  | state, [] => some state
  | state, action :: rest =>
    match step state action with
    | none => none
    | some next => execute next rest

/-- Execute a schedule whose every step also passes a decidable test. -/
def executeIf (test : State → Action → Bool) : State → List Action → Option State
  | state, [] => some state
  | state, action :: rest =>
    match test state action, step state action with
    | true, some next => executeIf test next rest
    | _, _ => none

/-- The state a schedule ends in; a schedule that gets stuck leads nowhere. -/
def finalState (start : State) (schedule : List Action) : State :=
  (execute step start schedule).getD start

end

section

variable {State Action : Type} {step : State → Action → Option State} {allowed : State → Action → Prop}

variable {start finish : State}

theorem Reaches.trans {middle : State} (first : Reaches step allowed start middle)
    (second : Reaches step allowed middle finish) : Reaches step allowed start finish := by
  induction second with
  | refl => exact first
  | step _ permitted ran ih => exact .step ih permitted ran

theorem Reaches.single {action : Action} (permitted : allowed start action)
    (ran : step start action = some finish) : Reaches step allowed start finish :=
  .step .refl permitted ran

section
variable (path : Reaches step allowed start finish)
include path

theorem Reaches.mono {weaker : State → Action → Prop}
    (relax : ∀ state action, allowed state action → weaker state action) : Reaches step weaker start finish := by
  induction path with
  | refl => exact .refl
  | step _ permitted ran ih => exact .step ih (relax _ _ permitted) ran

/-- The invariant rule: what holds at the start and is kept by one allowed step
holds in every state of every run. -/
theorem Reaches.invariant {Inv : State → Prop} (initial : Inv start)
    (preserved : ∀ state action next, Inv state → allowed state action → step state action = some next → Inv next) :
    Inv finish := by
  induction path with
  | refl => exact initial
  | step _ permitted ran ih => exact preserved _ _ _ ih permitted ran

/-- The simulation rule for history variables: a relation to an abstract state
that every allowed step can follow by growing the abstract state is followed by
every run, and the abstract state only grows along it. -/
theorem Reaches.simulation {History : Type} [Preorder History] {Rel : State → History → Prop}
    {history : History} (related : Rel start history)
    (follow : ∀ state action next past, Rel state past → allowed state action →
      step state action = some next → ∃ future, Rel next future ∧ past ≤ future) :
    ∃ future, Rel finish future ∧ history ≤ future := by
  induction path with
  | refl => exact ⟨history, related, le_refl history⟩
  | step _ permitted ran ih =>
    obtain ⟨middle, tracked, grown⟩ := ih
    obtain ⟨future, followed, extended⟩ := follow _ _ _ _ tracked permitted ran
    exact ⟨future, followed, le_trans grown extended⟩

end

/-- The progress rule: while the goal is not met some allowed step keeps the invariant
and lowers the measure, so a state that meets the goal is reached. -/
theorem Reaches.progress {Inv Goal : State → Prop} {Rank : Type} [LT Rank] [WellFoundedLT Rank]
    (measure : State → Rank) (initial : Inv start)
    (advances : ∀ state, Inv state → ¬ Goal state → ∃ action next, allowed state action ∧
      step state action = some next ∧ Inv next ∧ measure next < measure state) :
    ∃ finish, Reaches step allowed start finish ∧ Inv finish ∧ Goal finish := by
  induction left : measure start using WellFoundedLT.induction generalizing start with
  | ind left ih =>
    by_cases met : Goal start
    · exact ⟨start, .refl, initial, met⟩
    · obtain ⟨action, next, permitted, ran, kept, less⟩ := advances start initial met
      obtain ⟨finish, path, holds, reached⟩ := ih (measure next) (left ▸ less) kept rfl
      exact ⟨finish, (Reaches.single permitted ran).trans path, holds, reached⟩

variable {schedule : List Action}

theorem execute_reaches_of_forall (permitted : ∀ action ∈ schedule, ∀ state, allowed state action)
    (executed : execute step start schedule = some finish) : Reaches step allowed start finish := by
  induction schedule generalizing start with
  | nil =>
    simp only [execute, Option.some.injEq] at executed
    exact executed ▸ .refl
  | cons action rest ih =>
    simp only [execute] at executed
    cases ran : step start action with
    | none => simp [ran] at executed
    | some next =>
      rw [ran] at executed
      have first := permitted action (List.mem_cons_self ..) start
      exact (Reaches.single first ran).trans
        (ih (fun other inside => permitted other (List.mem_cons_of_mem action inside)) executed)

theorem execute_reaches (executed : execute step start schedule = some finish) : Reaches step Always start finish :=
  execute_reaches_of_forall (fun _ _ _ => trivial) executed

theorem finalState_reaches (completes : (execute step start schedule).isSome = true) :
    Reaches step Always start (finalState step start schedule) := by
  obtain ⟨finish, executed⟩ := Option.isSome_iff_exists.mp completes
  rw [finalState, executed]
  exact execute_reaches executed

theorem finalState_single {action : Action} (enabled : (step start action).isSome = true) :
    step start action = some (finalState step start [action]) := by
  obtain ⟨next, ran⟩ := Option.isSome_iff_exists.mp enabled
  simp [finalState, execute, ran]

theorem executeIf_reaches {test : State → Action → Bool}
    (sound : ∀ state action, test state action = true → allowed state action)
    (executed : executeIf step test start schedule = some finish) : Reaches step allowed start finish := by
  induction schedule generalizing start with
  | nil =>
    simp only [executeIf, Option.some.injEq] at executed
    exact executed ▸ .refl
  | cons action rest ih =>
    simp only [executeIf] at executed
    cases passed : test start action with
    | false => simp [passed] at executed
    | true =>
      cases ran : step start action with
      | none => simp [passed, ran] at executed
      | some next =>
        rw [passed, ran] at executed
        exact (Reaches.single (sound _ _ passed) ran).trans (ih executed)

theorem exists_reaches_of_execute {test : State → Bool} (passes : (execute step start schedule).any test = true) :
    ∃ finish, Reaches step Always start finish ∧ test finish = true := by
  obtain ⟨finish, executed, passed⟩ := (Option.any_eq_true _ _).mp passes
  exact ⟨finish, execute_reaches executed, passed⟩

theorem exists_reaches_of_executeIf {permits : State → Action → Bool}
    (sound : ∀ state action, permits state action = true → allowed state action)
    {test : State → Bool} (passes : (executeIf step permits start schedule).any test = true) :
    ∃ finish, Reaches step allowed start finish ∧ test finish = true := by
  obtain ⟨finish, executed, passed⟩ := (Option.any_eq_true _ _).mp passes
  exact ⟨finish, executeIf_reaches sound executed, passed⟩

end

end AnimusCore.Lib
