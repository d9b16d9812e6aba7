import AnimusCore.Lib.Lossy
import AnimusCore.Lib.Ring
import AnimusCore.Lib.Transition
import Mathlib.Logic.Function.Basic

/-! Roles, permissions, and `BoundedAuditLog`: a ring that overwrites its oldest unread
entry and counts what it overwrote. An append and a drain are each one critical section. -/

set_option autoImplicit false

namespace AnimusCore.Security

open Lib Lib.Ring List

inductive Role where
  | viewer
  | operator
  | admin
  deriving DecidableEq

inductive Permission where
  | recordEvent
  | pollSignals
  | addRule
  | managePersistence
  | manageTenants
  | submitOrder
  deriving DecidableEq

def RbacPolicy.isAllowed : Role → Permission → Bool
  | .viewer, perm => perm = .pollSignals
  | .operator, perm => perm = .pollSignals ∨ perm = .recordEvent ∨ perm = .submitOrder
  | .admin, _ => true

structure AccessToken where
  tenantId : UInt32
  principalId : UInt64
  role : Role
  deriving DecidableEq

inductive AuditOutcome where
  | allowed
  | denied
  deriving DecidableEq

structure AuditEvent where
  timestampCycles : UInt64
  tenantId : UInt32
  principalId : UInt64
  permission : Permission
  outcome : AuditOutcome
  deriving DecidableEq

/-- The entries and the cursors. The last two fields record the run. -/
structure BoundedAuditLog (Entry : Type) where
  entries : Nat → Entry
  write : Nat := 0
  read : Nat := 0
  dropped : Nat := 0
  appended : List Entry := []
  drained : List Entry := []

namespace BoundedAuditLog

variable {Entry : Type} (capacity : Capacity)

section
variable (log : BoundedAuditLog Entry)

def append (entry : Entry) : BoundedAuditLog Entry :=
  let log := { log with
    entries := Function.update log.entries (capacity.slot log.write) entry
    write := succ64 log.write
    appended := log.appended ++ [entry] }
  if sub64 log.write log.read > capacity.size then
    { log with read := succ64 log.read, dropped := succ64 log.dropped }
  else log

def fromRead (count : Nat) : List Entry :=
  (List.range count).map fun i => log.entries (capacity.slot (add64 log.read i))

def size : Nat := sub64 log.write log.read

/-- What lands in `out`, and the log afterwards; `hasOut` is false for a null pointer. -/
def drain (hasOut : Bool) (maxCount : Nat) : List Entry × BoundedAuditLog Entry :=
  if hasOut then
    let unread := sub64 log.write log.read
    let count := if unread < maxCount then unread else maxCount
    let out := log.fromRead capacity count
    (out, { log with read := add64 log.read count, drained := log.drained ++ out })
  else ([], log)

end

inductive Action (Entry : Type) where
  | append (entry : Entry)
  | drain (hasOut : Bool) (maxCount : Nat)

def step (log : BoundedAuditLog Entry) : Action Entry → Option (BoundedAuditLog Entry)
  | .append entry => some (log.append capacity entry)
  | .drain hasOut maxCount => some (log.drain capacity hasOut maxCount).2

variable {capacity}

structure Represents (log : BoundedAuditLog Entry) (model : Lossy Entry capacity.size) : Prop where
  write : log.write = model.appended.length
  read : log.read = model.read
  dropped : log.dropped = model.lost.length
  appended : log.appended = model.appended
  drained : log.drained = model.drained
  held : ∀ position entry, model.read ≤ position → model.appended[position]? = some entry →
    log.entries (capacity.slot position) = entry
  fits : model.appended.length < wordSize

section

variable {log : BoundedAuditLog Entry} {model : Lossy Entry capacity.size}

section
variable (represents : log.Represents model)
include represents

theorem Represents.size_eq : log.size = model.unread.length := by
  have read_le := model.read_le
  rw [size, represents.write, represents.read, sub64_eq read_le represents.fits, Lossy.unread, length_drop]

theorem Represents.fromRead_eq {count : Nat} (unread : count ≤ model.unread.length) :
    log.fromRead capacity count = model.unread.take count := by
  have fits := represents.fits
  rw [Lossy.unread, length_drop] at unread
  apply ext_getElem?
  intro i
  rw [fromRead, List.getElem?_map, List.getElem?_take]
  split
  case isTrue inside =>
    have pos : model.read + i < model.appended.length := by omega
    rw [List.getElem?_range inside, Lossy.unread, List.getElem?_drop,
      List.getElem?_eq_getElem pos, Option.map_some, represents.read,
      add64_eq (by omega)]
    exact congrArg some (represents.held _ _ (Nat.le_add_right _ _) (List.getElem?_eq_getElem pos))
  case isFalse outside =>
    rw [List.getElem?_eq_none (by rw [length_range]; omega), Option.map_none]

theorem Represents.append (entry : Entry) (room : model.appended.length + 1 < wordSize) :
    (log.append capacity entry).Represents (model.append entry) := by
  have read_le := model.read_le
  have bounded := model.bounded
  -- The slot written holds no entry that is still unread afterwards.
  have held (read : Nat) (pos : Nat) (value : Entry) (unread : read ≤ pos)
      (later : model.read ≤ read) (near : model.appended.length < read + capacity.size)
      (found : (model.appended ++ [entry])[pos]? = some value) :
      Function.update log.entries (capacity.slot log.write) entry (capacity.slot pos) = value := by
    rw [represents.write]
    rcases Nat.lt_or_ge pos model.appended.length with inside | behind
    · rw [List.getElem?_append_left inside] at found
      rw [Function.update_of_ne (capacity.slot_ne inside (by omega))]
      exact represents.held pos value (by omega) found
    · have last : pos = model.appended.length := by
        have within := (List.getElem?_eq_some_iff.mp found).1
        rw [length_append, length_singleton] at within
        omega
      subst last
      rw [List.getElem?_concat_length, Option.some.injEq] at found
      rw [Function.update_self, found]
  have counted : sub64 (succ64 log.write) log.read = model.appended.length + 1 - model.read := by
    rw [represents.write, represents.read, succ64_eq room, sub64_eq (by omega) room]
  have drained : log.drained = (model.append entry).drained :=
    represents.drained.trans (model.drained_append entry).symm
  have write : succ64 log.write = (model.appended ++ [entry]).length := by
    rw [represents.write, succ64_eq room, length_append, length_singleton]
  have fits : (model.appended ++ [entry]).length < wordSize := by
    rw [length_append, length_singleton]
    exact room
  by_cases free : model.appended.length < model.read + capacity.size
  · have kept : ¬ sub64 (succ64 log.write) log.read > capacity.size := by omega
    rw [Lossy.append, dif_pos free] at drained ⊢
    rw [BoundedAuditLog.append, if_neg kept]
    exact
      { write
        read := represents.read
        dropped := represents.dropped
        appended := congrArg (· ++ [entry]) represents.appended
        drained
        held := fun pos value unread found =>
          held model.read pos value unread (Nat.le_refl _) free found
        fits }
  · have lost : sub64 (succ64 log.write) log.read > capacity.size := by omega
    have few := model.length_appended
    rw [Lossy.append, dif_neg free] at drained ⊢
    rw [BoundedAuditLog.append, if_pos lost]
    exact
      { write
        read := by rw [represents.read]; exact succ64_eq (by omega)
        dropped := by
          rw [represents.dropped, length_append, length_singleton]
          exact succ64_eq (by omega)
        appended := congrArg (· ++ [entry]) represents.appended
        drained
        held := fun pos value unread found =>
          held (model.read + 1) pos value unread (Nat.le_succ _) (by omega) found
        fits }

theorem Represents.drain (maxCount : Nat) : (log.drain capacity true maxCount).1 = model.unread.take maxCount ∧
      (log.drain capacity true maxCount).2.Represents (model.drain maxCount) := by
  have read_le := model.read_le
  have fits := represents.fits
  have size := represents.size_eq
  rw [BoundedAuditLog.size] at size
  have count : (if sub64 log.write log.read < maxCount then sub64 log.write log.read
      else maxCount) = min model.unread.length maxCount := by
    split <;> omega
  have out : log.fromRead capacity (min model.unread.length maxCount) = model.unread.take maxCount := by
    rw [represents.fromRead_eq (Nat.min_le_left _ _), Nat.min_comm, ← take_eq_take_min]
  have unread : model.unread.length = model.appended.length - model.read := length_drop
  simp only [BoundedAuditLog.drain, ↓reduceIte, count]
  refine ⟨out, ?_⟩
  exact
    { write := represents.write
      read := by rw [represents.read]; exact add64_eq (by omega)
      dropped := represents.dropped
      appended := represents.appended
      drained := by rw [out, represents.drained, model.drained_drain]
      held := fun pos entry later found =>
        represents.held pos entry (Nat.le_of_add_right_le later) found
      fits }

end

theorem Represents.initial (entries : Nat → Entry) :
    Represents { entries } (Lossy.empty : Lossy Entry capacity.size) where
  write := rfl
  read := rfl
  dropped := rfl
  appended := rfl
  drained := rfl
  held := nofun
  fits := by
    rw [show (Lossy.empty : Lossy Entry capacity.size).appended = [] from rfl, length_nil]
    decide

end

@[simp] theorem append_appended (log : BoundedAuditLog Entry) (entry : Entry) :
    (log.append capacity entry).appended = log.appended ++ [entry] := by
  simp only [append]
  split <;> rfl

@[simp] theorem drain_appended (log : BoundedAuditLog Entry) (hasOut : Bool) (maxCount : Nat) :
    (log.drain capacity hasOut maxCount).2.appended = log.appended := by
  cases hasOut <;> simp only [drain, ↓reduceIte, Bool.false_eq_true]

private theorem appended_step {log next : BoundedAuditLog Entry} {action : Action Entry}
    (stepped : log.step capacity action = some next) : log.appended <+: next.appended := by
  cases action with
  | append entry =>
    cases stepped
    rw [append_appended]
    exact prefix_append _ _
  | drain hasOut maxCount =>
    cases stepped
    exact (drain_appended log hasOut maxCount).symm ▸ prefix_rfl

/-- The oldest unread entry was lost at a moment of the run that led from `start` to
`log`: the entry appended then was the last of `capacity` newer ones. -/
def LostBetween (capacity : Capacity) (start log : BoundedAuditLog Entry) (position : Nat) : Prop :=
  ∃ before entry, Reaches (step capacity) Always start before ∧
    Reaches (step capacity) Always (before.append capacity entry) log ∧
    before.appended.length - before.size = position ∧
    (before.append capacity entry).appended.length = position + 1 + capacity.size

/-- The account of a log: `lost` are the positions of the append sequence that nobody
read, everything else before the unread entries was drained in order. -/
structure Accounts (capacity : Capacity) (start log : BoundedAuditLog Entry) (lost : List Nat) : Prop where
  conserved : log.appended.length = log.drained.length + log.dropped + log.size
  counted : lost.length = log.dropped
  ascending : lost.Pairwise (· < ·)
  lost_lt : ∀ position ∈ lost, position < log.appended.length - log.size
  drained : log.drained = removeAt lost (log.appended.take (log.appended.length - log.size))
  unread : ∀ maxCount, (log.drain capacity true maxCount).1 =
    (log.appended.drop (log.appended.length - log.size)).take maxCount
  moments : ∀ position ∈ lost, LostBetween capacity start log position

theorem Represents.read_eq {log : BoundedAuditLog Entry} {model : Lossy Entry capacity.size}
    (represents : log.Represents model) : log.appended.length - log.size = model.read := by
  have read_le := model.read_le
  rw [represents.size_eq, represents.appended, Lossy.unread, length_drop]
  omega

section

variable {start log next : BoundedAuditLog Entry}

theorem LostBetween.step {pos : Nat} {action : Action Entry} (lost : LostBetween capacity start log pos)
    (stepped : log.step capacity action = some next) : LostBetween capacity start next pos := by
  obtain ⟨before, entry, reached, left, oldest, newer⟩ := lost
  exact ⟨before, entry, reached, left.trans (.single trivial stepped), oldest, newer⟩

theorem Represents.step {model : Lossy Entry capacity.size} {action : Action Entry}
    (represents : log.Represents model) (reached : Reaches (step capacity) Always start log)
    (lost : ∀ pos ∈ model.lost, LostBetween capacity start log pos)
    (stepped : log.step capacity action = some next) (fits : next.appended.length < wordSize) :
    ∃ model : Lossy Entry capacity.size, next.Represents model ∧
      ∀ pos ∈ model.lost, LostBetween capacity start next pos := by
  have earlier : ∀ pos ∈ model.lost, LostBetween capacity start next pos :=
    fun pos member => (lost pos member).step stepped
  cases action with
  | append entry =>
    cases stepped
    rw [append_appended, length_append, length_singleton, represents.appended] at fits
    refine ⟨model.append entry, represents.append entry fits, ?_⟩
    intro pos member
    rw [Lossy.append] at member
    split at member
    case isTrue => exact earlier pos member
    case isFalse full =>
      rcases mem_append.mp member with old | last
      · exact earlier pos old
      · have bounded := model.bounded
        rw [mem_singleton.mp last]
        refine ⟨log, entry, reached, .refl, represents.read_eq, ?_⟩
        rw [append_appended, length_append, length_singleton, represents.appended]
        omega
  | drain hasOut maxCount =>
    cases stepped
    cases hasOut with
    | false => exact ⟨model, represents, earlier⟩
    | true => exact ⟨model.drain maxCount, (represents.drain maxCount).2, earlier⟩

theorem Represents.accounts {model : Lossy Entry capacity.size} (represents : log.Represents model)
    (lost : ∀ pos ∈ model.lost, LostBetween capacity start log pos) : Accounts capacity start log model.lost where
  conserved := by
    rw [represents.size_eq, represents.dropped, represents.drained, represents.appended]
    exact model.length_appended
  counted := represents.dropped.symm
  ascending := model.ascending
  lost_lt := by
    rw [represents.read_eq]
    exact model.lost_lt
  drained := by
    rw [represents.read_eq, represents.drained, represents.appended]
    rfl
  unread := fun maxCount => by
    rw [(represents.drain maxCount).1, represents.read_eq, represents.appended]
    rfl
  moments := lost

theorem exists_accounts {entries : Nat → Entry} (run : Reaches (step capacity) Always { entries } log)
    (fits : log.appended.length < wordSize) : ∃ lost, Accounts capacity { entries } log lost := by
  have tracked : ∃ model : Lossy Entry capacity.size, log.Represents model ∧
      ∀ pos ∈ model.lost, LostBetween capacity { entries } log pos := by
    induction run with
    | refl => exact ⟨.empty, .initial entries, fun _ member => nomatch member⟩
    | step reached _ stepped ih =>
      have fewer := (appended_step stepped).length_le
      obtain ⟨model, represents, lost⟩ := ih (Nat.lt_of_le_of_lt fewer fits)
      exact represents.step reached lost stepped fits
  obtain ⟨model, represents, lost⟩ := tracked
  exact ⟨model.lost, represents.accounts lost⟩

end

end BoundedAuditLog

end AnimusCore.Security
