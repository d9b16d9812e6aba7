import Mathlib.Data.List.Induction

/-! A bounded log that makes room by losing its oldest unread value. It knows everything
that was appended, how much of that has left, and which positions left unread. -/

set_option autoImplicit false

namespace AnimusCore.Lib

open List

section

variable {Value : Type}

def removeAt (positions : List Nat) (values : List Value) : List Value :=
  (values.zipIdx.filter fun value => value.2 ∉ positions).map Prod.fst

variable {positions : List Nat}

theorem removeAt_append (front back : List Value) : removeAt positions (front ++ back) = removeAt positions front ++
      ((back.zipIdx front.length).filter fun value => value.2 ∉ positions).map Prod.fst := by
  rw [removeAt, zipIdx_append, filter_append, map_append, Nat.zero_add]
  rfl

theorem removeAt_append_of_lt {front : List Value} (back : List Value)
    (before : ∀ pos ∈ positions, pos < front.length) :
    removeAt positions (front ++ back) = removeAt positions front ++ back := by
  have kept : (back.zipIdx front.length).filter (fun value => value.2 ∉ positions) = back.zipIdx front.length := by
    apply filter_eq_self.mpr
    intro value member
    have behind := le_snd_of_mem_zipIdx member
    have outside : value.2 ∉ positions := fun removed => by
      have inFront := before _ removed
      omega
    exact decide_eq_true outside
  rw [removeAt_append, kept, zipIdx_map_fst]

theorem removeAt_concat_last (positions : List Nat) (front : List Value) (value : Value) :
    removeAt (positions ++ [front.length]) (front ++ [value]) = removeAt positions front := by
  have others : front.zipIdx.filter (fun value => value.2 ∉ positions ++ [front.length]) =
      front.zipIdx.filter (fun value => value.2 ∉ positions) := by
    apply filter_congr
    intro value member
    have inFront := snd_lt_of_mem_zipIdx member
    have different : value.2 ≠ front.length := by omega
    simp [different]
  rw [removeAt_append, removeAt, others]
  simp [removeAt]

theorem length_removeAt {values : List Value} (ascending : positions.Pairwise (· < ·))
    (inside : ∀ pos ∈ positions, pos < values.length) :
    (removeAt positions values).length + positions.length = values.length := by
  induction positions using List.reverseRecOn generalizing values with
  | nil =>
    have all : values.zipIdx.filter (fun value => value.2 ∉ ([] : List Nat)) = values.zipIdx :=
      filter_eq_self.mpr fun _ _ => rfl
    rw [removeAt, all, zipIdx_map_fst]
    rfl
  | append_singleton positions last ih =>
    obtain ⟨earlierAscending, -, below⟩ := pairwise_append.mp ascending
    have lastInside := inside last mem_concat_self
    obtain ⟨front, value, back, rfl, rfl⟩ : ∃ front value back,
        values = front ++ [value] ++ back ∧ front.length = last := by
      refine ⟨values.take last, values[last], values.drop (last + 1), ?_, ?_⟩
      · rw [← concat_eq_append, take_concat_get, take_append_drop]
      · exact length_take_of_le (Nat.le_of_lt lastInside)
    have before : ∀ pos ∈ positions, pos < front.length := fun pos member =>
      below pos member front.length mem_cons_self
    have upToLast : ∀ pos ∈ positions ++ [front.length], pos < (front ++ [value]).length := by
      intro pos member
      rw [length_append, length_singleton]
      rcases mem_append.mp member with earlier | last
      · exact Nat.lt_succ_of_lt (before pos earlier)
      · rw [mem_singleton.mp last]
        exact Nat.lt_succ_self _
    rw [removeAt_append_of_lt back upToLast, removeAt_concat_last]
    have rest := ih earlierAscending before
    simp only [length_append, length_singleton]
    omega

end

structure Lossy (Value : Type) (capacity : Nat) where
  appended : List Value
  /-- How many of them have left, read or lost. -/
  read : Nat
  lost : List Nat
  read_le : read ≤ appended.length
  bounded : appended.length ≤ read + capacity
  ascending : lost.Pairwise (· < ·)
  lost_lt : ∀ position ∈ lost, position < read

namespace Lossy

variable {Value : Type} {capacity : Nat}

theorem nil_bounded (capacity : Nat) : ([] : List Value).length ≤ 0 + capacity := Nat.zero_le _

theorem zero_le_nil : 0 ≤ ([] : List Value).length := Nat.zero_le _

def empty : Lossy Value capacity where
  appended := []
  read := 0
  lost := []
  read_le := zero_le_nil
  bounded := nil_bounded capacity
  ascending := .nil
  lost_lt := fun _ member => nomatch member

section
variable (log : Lossy Value capacity)

def unread : List Value := log.appended.drop log.read

def drained : List Value :=
  removeAt log.lost (log.appended.take log.read)

def append (value : Value) : Lossy Value capacity :=
  if room : log.appended.length < log.read + capacity then
    { log with
      appended := log.appended ++ [value]
      read_le := by rw [length_append]; exact Nat.le_add_right_of_le log.read_le
      bounded := by rw [length_append]; exact room }
  else
    { log with
      appended := log.appended ++ [value]
      read := log.read + 1
      lost := log.lost ++ [log.read]
      read_le := by
        rw [length_append]
        exact Nat.add_le_add_right log.read_le 1
      bounded := by
        have bounded := log.bounded
        rw [length_append, length_singleton]
        omega
      ascending := pairwise_append.mpr ⟨log.ascending, pairwise_singleton _ _, fun position lost last same => by
          rw [mem_singleton.mp same]
          exact log.lost_lt position lost⟩
      lost_lt := fun position member => by
        rcases mem_append.mp member with earlier | last
        · exact Nat.lt_succ_of_lt (log.lost_lt position earlier)
        · rw [mem_singleton.mp last]
          exact Nat.lt_succ_self _ }

def drain (maxCount : Nat) : Lossy Value capacity :=
  { log with
    read := log.read + min log.unread.length maxCount
    read_le := by
      have read_le := log.read_le
      rw [unread, length_drop]
      omega
    bounded := by
      have bounded := log.bounded
      omega
    lost_lt := fun position member => Nat.lt_add_right _ (log.lost_lt position member) }

end

variable (log : Lossy Value capacity)

theorem lost_lt_take : ∀ pos ∈ log.lost, pos < (log.appended.take log.read).length := by
  rw [length_take_of_le log.read_le]
  exact log.lost_lt

theorem length_appended : log.appended.length = log.drained.length + log.lost.length + log.unread.length := by
  have removed := length_removeAt log.ascending log.lost_lt_take
  rw [length_take_of_le log.read_le] at removed
  have read_le := log.read_le
  rw [drained, unread, length_drop]
  omega

theorem drained_append (value : Value) : (log.append value).drained = log.drained := by
  rw [append]
  split
  case isTrue => rw [drained, drained, take_append_of_le_length log.read_le]
  case isFalse full =>
    -- What is lost is the value at the position to be read next.
    obtain ⟨oldest, taken⟩ : ∃ oldest, (log.appended ++ [value]).take (log.read + 1) =
        log.appended.take log.read ++ [oldest] := by
      have inside : log.read < (log.appended ++ [value]).length := by
        rw [length_append, length_singleton]
        omega
      refine ⟨(log.appended ++ [value])[log.read], ?_⟩
      rw [take_succ_eq_append_getElem inside, take_append_of_le_length log.read_le]
    have removed : removeAt (log.lost ++ [log.read]) (log.appended.take log.read ++ [oldest]) =
        removeAt log.lost (log.appended.take log.read) := by
      have concat := removeAt_concat_last log.lost (log.appended.take log.read) oldest
      rwa [length_take_of_le log.read_le] at concat
    rw [drained, drained, taken, removed]

theorem drained_drain (maxCount : Nat) : (log.drain maxCount).drained = log.drained ++ log.unread.take maxCount := by
  have taken : log.appended.take (log.read + min log.unread.length maxCount) =
      log.appended.take log.read ++ log.unread.take maxCount := by
    rw [take_add, ← unread, Nat.min_comm, ← take_eq_take_min]
  rw [drained, drain, taken]
  exact removeAt_append_of_lt _ log.lost_lt_take

end Lossy

end AnimusCore.Lib
