import AnimusCore.Lib.Transition

/-! What one observer sees of a run. A step shows it a label or nothing, and whether it
does may depend on the state. When the observer's view of the system is a machine of its
own that runs on the labels alone, two runs with the same labels end in the same view. -/

set_option autoImplicit false

namespace AnimusCore.Lib

variable {State Action Label View : Type}

section

variable (step : State → Action → Option State) (label : State → Action → Option Label)

/-- The labels of a schedule's steps. -/
def observed : State → List Action → List Label
  | _, [] => []
  | state, action :: rest =>
    match step state action with
    | none => []
    | some next => (label state action).toList ++ observed next rest

/-- The view is a machine on the labels, along all runs that keep the invariant. -/
structure Projects (Inv : State → Prop) (allowed : Action → Prop) (view : State → View)
    (viewStep : View → Label → Option View) : Prop where
  kept : ∀ {state action next}, Inv state → allowed action → step state action = some next → Inv next
  hidden : ∀ {state action next}, Inv state → allowed action → step state action = some next →
    label state action = none → view next = view state
  seen : ∀ {state action next shown}, Inv state → allowed action →
    step state action = some next → label state action = some shown →
    viewStep (view state) shown = some (view next)

end

variable {step : State → Action → Option State} {label : State → Action → Option Label}
  {Inv : State → Prop} {allowed : Action → Prop} {view : State → View}
  {viewStep : View → Label → Option View}

variable (projects : Projects step label Inv allowed view viewStep)
include projects

theorem Projects.execute {start finish : State} {schedule : List Action} (initial : Inv start)
    (permitted : ∀ action ∈ schedule, allowed action) (executed : Lib.execute step start schedule = some finish) :
    Lib.execute viewStep (view start) (observed step label start schedule) = some (view finish) := by
  induction schedule generalizing start with
  | nil =>
    cases executed
    rfl
  | cons action rest ih =>
    have here := permitted action List.mem_cons_self
    simp only [Lib.execute] at executed
    cases stepped : step start action with
    | none => simp [stepped] at executed
    | some next =>
      rw [stepped] at executed
      have later := ih (projects.kept initial here stepped)
        (fun other member => permitted other (List.mem_cons_of_mem _ member)) executed
      simp only [observed, stepped]
      cases shown : label start action with
      | none =>
        rw [projects.hidden initial here stepped shown] at later
        exact later
      | some event =>
        change Lib.execute viewStep (view start) (event :: observed step label next rest) = _
        simp only [Lib.execute, projects.seen initial here stepped shown]
        exact later

theorem Projects.agree {start left right : State} {leftSchedule rightSchedule : List Action}
    (initial : Inv start) (leftPermitted : ∀ action ∈ leftSchedule, allowed action)
    (rightPermitted : ∀ action ∈ rightSchedule, allowed action)
    (leftRun : Lib.execute step start leftSchedule = some left)
    (rightRun : Lib.execute step start rightSchedule = some right)
    (same : observed step label start leftSchedule = observed step label start rightSchedule) :
    view left = view right := by
  have onLeft := projects.execute initial leftPermitted leftRun
  have onRight := projects.execute initial rightPermitted rightRun
  rw [same, onRight] at onLeft
  exact (Option.some.inj onLeft).symm

end AnimusCore.Lib
