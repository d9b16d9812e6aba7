import Mathlib.Logic.Function.Basic

/-! Digests that take their input symbol by symbol. Where no step loses anything, a common
suffix keeps the digests before it apart, and one changed symbol is always noticed. -/

set_option autoImplicit false

namespace AnimusCore.Lib

variable {State Symbol : Type}

/-- The state can be told from the result and the symbol, and the symbol from the result
and the state. -/
structure Lossless (step : State → Symbol → State) : Prop where
  state : ∀ symbol, Function.Injective (step · symbol)
  symbol : ∀ state, Function.Injective (step state)

/-- There is exactly one position at which the two lists differ. -/
def DifferOnce (first second : List Symbol) : Prop :=
  ∃! position : Nat, first[position]? ≠ second[position]?

theorem DifferOnce.exists_split {first second : List Symbol} (once : DifferOnce first second)
    (length : first.length = second.length) :
    ∃ front back symbol other, first = front ++ symbol :: back ∧ second = front ++ other :: back ∧
      symbol ≠ other := by
  induction first generalizing second with
  | nil =>
    cases second with
    | nil =>
      obtain ⟨pos, differ, -⟩ := once
      exact absurd rfl differ
    | cons other rest => cases length
  | cons symbol first ih =>
    cases second with
    | nil => cases length
    | cons other second =>
      obtain ⟨pos, differ, only⟩ := once
      cases pos with
      | zero =>
        have same : first = second := by
          apply List.ext_getElem?
          intro index
          by_contra later
          cases only (index + 1) later
        exact ⟨[], first, symbol, other, rfl, by rw [same]; rfl, fun equal => differ (congrArg some equal)⟩
      | succ pos =>
        have same : symbol = other := by
          by_contra first
          cases only 0 fun equal => first (Option.some.inj equal)
        have later : DifferOnce first second :=
          ⟨pos, differ, fun index apart => Nat.succ.inj (only (index + 1) apart)⟩
        obtain ⟨front, back, old, new, left, right, changed⟩ := ih later (Nat.succ.inj length)
        exact ⟨symbol :: front, back, old, new, by rw [left]; rfl, by rw [right, same]; rfl, changed⟩

section
variable {step : State → Symbol → State} (lossless : Lossless step)
include lossless

theorem Lossless.foldl_eq_iff {first second : State} (suffix : List Symbol) :
    suffix.foldl step first = suffix.foldl step second ↔ first = second := by
  induction suffix generalizing first second with
  | nil => exact Iff.rfl
  | cons symbol rest ih =>
    rw [List.foldl_cons, List.foldl_cons, ih]
    exact (lossless.state symbol).eq_iff

theorem Lossless.foldl_ne {first second : List Symbol} (once : DifferOnce first second)
    (length : first.length = second.length) (start : State) : first.foldl step start ≠ second.foldl step start := by
  obtain ⟨front, back, symbol, other, rfl, rfl, changed⟩ := once.exists_split length
  intro equal
  rw [List.foldl_append, List.foldl_append, List.foldl_cons, List.foldl_cons, lossless.foldl_eq_iff] at equal
  exact changed (lossless.symbol _ equal)

end

end AnimusCore.Lib
