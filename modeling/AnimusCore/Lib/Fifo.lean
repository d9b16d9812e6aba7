import Mathlib.Data.List.Infix

/-! A lossless bounded queue with its history: everything ever pushed, and how
many records were taken from the front. The bounds are part of the queue. -/

set_option autoImplicit false

namespace AnimusCore.Lib

@[ext]
structure Fifo (Value : Type) (capacity : Nat) where
  pushed : List Value
  taken : Nat
  taken_le : taken ≤ pushed.length
  bounded : pushed.length ≤ taken + capacity

namespace Fifo

variable {Value : Type} {capacity : Nat}

def empty : Fifo Value capacity := ⟨[], 0, Nat.le_refl 0, Nat.zero_le _⟩

section
variable (queue : Fifo Value capacity)

def popped : List Value := queue.pushed.take queue.taken

def pending : List Value := queue.pushed.drop queue.taken

def push (value : Value) : Option (Fifo Value capacity) :=
  if room : queue.pushed.length < queue.taken + capacity then
    some ⟨queue.pushed ++ [value], queue.taken,
      by rw [List.length_append]; exact Nat.le_add_right_of_le queue.taken_le,
      by rw [List.length_append]; exact room⟩
  else none

def pop : Option (Value × Fifo Value capacity) :=
  if more : queue.taken < queue.pushed.length then
    some (queue.pushed[queue.taken], ⟨queue.pushed, queue.taken + 1, more, by have bounded := queue.bounded; omega⟩)
  else none

end

inductive Step : Fifo Value capacity → Fifo Value capacity → Prop where
  | idle (queue : Fifo Value capacity) : Step queue queue
  | push {queue next : Fifo Value capacity} {value : Value} : queue.push value = some next → Step queue next
  | pop {queue next : Fifo Value capacity} {value : Value} : queue.pop = some (value, next) → Step queue next

variable {queue next : Fifo Value capacity}

theorem step_idle (pushed : next.pushed = queue.pushed) (taken : next.taken = queue.taken) : Step queue next := by
  have same : next = queue := Fifo.ext pushed taken
  rw [same]
  exact .idle queue

theorem push_eq_some {value : Value} (pushed : next.pushed = queue.pushed ++ [value])
    (taken : next.taken = queue.taken) : queue.push value = some next := by
  have bounded := next.bounded
  rw [pushed, taken, List.length_append, List.length_singleton] at bounded
  have room : queue.pushed.length < queue.taken + capacity := bounded
  rw [push, dif_pos room, Option.some.injEq]
  exact Fifo.ext pushed.symm taken.symm

theorem push_eq_none {value : Value} (full : ¬ queue.pushed.length < queue.taken + capacity) :
    queue.push value = none :=
  dif_neg full

theorem pop_eq_some {value : Value} (pushed : next.pushed = queue.pushed) (taken : next.taken = queue.taken + 1)
    (front : queue.pushed[queue.taken]? = some value) : queue.pop = some (value, next) := by
  obtain ⟨more, found⟩ := List.getElem?_eq_some_iff.mp front
  rw [pop, dif_pos more, Option.some.injEq, Prod.mk.injEq]
  exact ⟨found, Fifo.ext pushed.symm taken.symm⟩

theorem pop_eq_none (empty : ¬ queue.taken < queue.pushed.length) : queue.pop = none :=
  dif_neg empty

theorem of_push_eq_some {value : Value} (pushed : queue.push value = some next) :
    next.pushed = queue.pushed ++ [value] ∧ next.taken = queue.taken := by
  unfold push at pushed
  split at pushed <;> cases pushed
  exact ⟨rfl, rfl⟩

theorem of_pop_eq_some {value : Value} (popped : queue.pop = some (value, next)) :
    next.pushed = queue.pushed ∧ next.taken = queue.taken + 1 ∧ queue.pushed[queue.taken]? = some value := by
  unfold pop at popped
  split at popped <;> cases popped
  exact ⟨rfl, rfl, List.getElem?_eq_getElem _⟩

theorem step_push {value : Value} (pushed : next.pushed = queue.pushed ++ [value])
    (taken : next.taken = queue.taken) : Step queue next :=
  .push (push_eq_some pushed taken)

theorem step_pop (pushed : next.pushed = queue.pushed) (taken : next.taken = queue.taken + 1) : Step queue next := by
  have more := next.taken_le
  rw [pushed, taken] at more
  exact .pop (pop_eq_some pushed taken (List.getElem?_eq_getElem more))

end Fifo

end AnimusCore.Lib
