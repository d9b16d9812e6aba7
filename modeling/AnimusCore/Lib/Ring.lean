import Mathlib.Data.Nat.Bitwise

/-! Positions of a ring. A position counts the records of the whole run, its slot
is the position masked to the capacity, and two positions share a slot exactly when
they are a multiple of the capacity apart. Positions are 64-bit words, so the
difference of two positions wraps. -/

set_option autoImplicit false

namespace AnimusCore.Lib.Ring

def wordSize : Nat := 2 ^ 64

def succ64 (word : Nat) : Nat := (word + 1) % wordSize

def add64 (left right : Nat) : Nat := (left + right) % wordSize

def sub64 (left right : Nat) : Nat := (left + wordSize - right) % wordSize

theorem succ64_eq {word : Nat} (room : word + 1 < wordSize) : succ64 word = word + 1 :=
  Nat.mod_eq_of_lt room

theorem add64_eq {left right : Nat} (room : left + right < wordSize) : add64 left right = left + right :=
  Nat.mod_eq_of_lt room

theorem sub64_eq {left right : Nat} (ordered : right ≤ left) (bound : left < wordSize) :
    sub64 left right = left - right := by
  unfold sub64
  have total : left + wordSize - right = left - right + wordSize := by omega
  rw [total, Nat.add_mod_right, Nat.mod_eq_of_lt (by omega)]

/-- Words below this bound are nonnegative as signed ones. -/
def signedLimit : Nat := 2 ^ 63

def signed64 (word : Nat) : Int :=
  if word < signedLimit then word else (word : Int) - (wordSize : Int)

/-- The difference of the two words as signed ones is a signed word. -/
def differenceFits (left right : Nat) : Bool :=
  decide (-(signedLimit : Int) ≤ signed64 left - signed64 right ∧ signed64 left - signed64 right < signedLimit)

theorem signed64_sub64 {left right : Nat} (leftBound : left < signedLimit) (rightBound : right ≤ signedLimit) :
    signed64 (sub64 left right) = (left : Int) - (right : Int) := by
  unfold signed64 sub64
  unfold signedLimit at *
  unfold wordSize
  split <;> omega

theorem signed64_sub64_mod {left right : Nat} (notAhead : left < right + signedLimit)
    (notBehind : right ≤ left + signedLimit) :
    signed64 (sub64 (left % wordSize) (right % wordSize)) = (left : Int) - (right : Int) := by
  unfold signed64 sub64
  unfold signedLimit at *
  unfold wordSize
  split <;> omega

theorem differenceFits_mod {left right : Nat} (ordered : left ≤ right) (near : right ≤ left + signedLimit)
    (small : right % wordSize < signedLimit) : differenceFits (left % wordSize) (right % wordSize) = true := by
  unfold differenceFits signed64
  unfold signedLimit wordSize at *
  rw [decide_eq_true_eq]
  split <;> omega

/-- At least two, with a single bit set. -/
def isPow2 (value : Nat) : Bool := decide (value ≥ 2) && value &&& (value - 1) == 0

theorem isPow2_two : isPow2 2 = true := by decide

theorem isPow2_four : isPow2 4 = true := by decide

structure Capacity where
  size : Nat
  pow2 : isPow2 size = true

def twoSlots : Capacity := ⟨2, isPow2_two⟩

namespace Capacity

variable (capacity : Capacity)

def slot (position : Nat) : Nat := position &&& (capacity.size - 1)

theorem two_le : 2 ≤ capacity.size := by
  have pow2 := capacity.pow2
  simp only [isPow2, Bool.and_eq_true, decide_eq_true_eq] at pow2
  exact pow2.1

theorem size_pos : 0 < capacity.size := Nat.lt_of_lt_of_le (by decide) capacity.two_le

theorem slot_eq_mod (pos : Nat) : capacity.slot pos = pos % capacity.size := by
  have pow2 := capacity.pow2
  simp only [isPow2, Bool.and_eq_true, decide_eq_true_eq, beq_iff_eq] at pow2
  obtain ⟨exponent, power⟩ := (Nat.and_sub_one_eq_zero_iff_isPowerOfTwo capacity.size_pos.ne').mp pow2.2
  rw [slot, power, Nat.and_two_pow_sub_one_eq_mod]

theorem slot_ne {early late : Nat} (before : early < late)
    (near : late < early + capacity.size) : capacity.slot early ≠ capacity.slot late := by
  rw [capacity.slot_eq_mod, capacity.slot_eq_mod]
  intro same
  have difference := Nat.sub_mod_eq_zero_of_mod_eq same.symm
  rw [Nat.mod_eq_of_lt (by omega)] at difference
  omega

theorem slot_add (pos : Nat) : capacity.slot (pos + capacity.size) = capacity.slot pos := by
  rw [capacity.slot_eq_mod, capacity.slot_eq_mod, Nat.add_mod_right]

end Capacity

end AnimusCore.Lib.Ring
