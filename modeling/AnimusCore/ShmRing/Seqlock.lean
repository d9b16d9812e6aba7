import AnimusCore.Lib.Ring

/-! The index-coded sequence lock of `namespace seqlock`. The counter names the
write that began or ended last, so one read of it tells which records are intact. -/

set_option autoImplicit false

namespace AnimusCore.ShmRing

open Lib.Ring

/-- Positions stay below this bound, so that the counter of a position is a word. -/
def positionLimit : Nat := 2 ^ 63

def beginValue (writeIndex : Nat) : Nat := (writeIndex <<< 1 ||| 1) % wordSize

def endValue (writeIndex : Nat) : Nat := ((writeIndex + 1) <<< 1) % wordSize

/-- The number of writes that had begun at a counter value. -/
def begun (seq : Nat) : Nat := (seq + 1) >>> 1

def oldestIntact (seq capacity : Nat) : Nat :=
  let begun := succ64 seq >>> 1
  if begun > capacity then begun - capacity else 0

def lapped (seq recordIndex capacity : Nat) : Bool :=
  decide (recordIndex < oldestIntact seq capacity)

variable {writeIndex seq later capacity recordIndex : Nat}

theorem beginValue_eq (bound : writeIndex < positionLimit) : beginValue writeIndex = 2 * writeIndex + 1 := by
  have shifted : writeIndex <<< 1 ||| 1 = 2 * writeIndex + 1 := by
    exact (Nat.two_pow_add_eq_or_of_lt (i := 1) (by decide) writeIndex).symm
  rw [beginValue, shifted, Nat.mod_eq_of_lt]
  unfold positionLimit at bound
  unfold wordSize
  omega

theorem endValue_eq (bound : writeIndex + 1 < positionLimit) : endValue writeIndex = 2 * (writeIndex + 1) := by
  rw [endValue, Nat.shiftLeft_eq, Nat.pow_one, Nat.mul_comm, Nat.mod_eq_of_lt]
  unfold positionLimit at bound
  unfold wordSize
  omega

theorem begun_eq (seq : Nat) : begun seq = (seq + 1) / 2 := Nat.shiftRight_one _

theorem begun_beginValue (bound : writeIndex < positionLimit) : begun (beginValue writeIndex) = writeIndex + 1 := by
  rw [begun_eq, beginValue_eq bound]
  omega

theorem begun_endValue (bound : writeIndex + 1 < positionLimit) : begun (endValue writeIndex) = writeIndex + 1 := by
  rw [begun_eq, endValue_eq bound]
  omega

theorem oldestIntact_eq (word : seq + 1 < wordSize) (capacity : Nat) :
    oldestIntact seq capacity = begun seq - capacity := by
  rw [oldestIntact, succ64_eq word, ← begun]
  split <;> omega

theorem lapped_iff (word : seq + 1 < wordSize) :
    lapped seq recordIndex capacity = true ↔ recordIndex + capacity < begun seq := by
  rw [lapped, decide_eq_true_eq, oldestIntact_eq word]
  omega

end AnimusCore.ShmRing
