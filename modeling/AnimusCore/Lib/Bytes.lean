import Mathlib.Algebra.Order.Group.Nat
import Mathlib.Data.List.Infix

/-! Numbers as bytes, and memory that can be read only in part. A read of a byte that is
not there gives nothing, so what is computed from a memory reads only bytes it has. -/

set_option autoImplicit false

namespace AnimusCore.Lib

open List

def fromLE : List UInt8 → Nat
  | [] => 0
  | byte :: rest => byte.toNat + 256 * fromLE rest

def toLE : Nat → Nat → List UInt8
  | 0, _ => []
  | width + 1, value => UInt8.ofNat value :: toLE width (value / 256)

def fromBE (bytes : List UInt8) : Nat := fromLE bytes.reverse

def toBE (width value : Nat) : List UInt8 := (toLE width value).reverse

@[simp] theorem length_toLE (width value : Nat) : (toLE width value).length = width := by
  induction width generalizing value with
  | zero => rfl
  | succ width ih => rw [toLE, length_cons, ih]

theorem fromLE_lt (bytes : List UInt8) : fromLE bytes < 256 ^ bytes.length := by
  induction bytes with
  | nil => exact Nat.one_pos
  | cons byte rest ih =>
    have small := byte.toNat_lt
    rw [fromLE, length_cons, Nat.pow_succ]
    omega

theorem fromLE_toLE (width value : Nat) : fromLE (toLE width value) = value % 256 ^ width := by
  induction width generalizing value with
  | zero => rw [Nat.pow_zero, Nat.mod_one]; rfl
  | succ width ih =>
    rw [toLE, fromLE, ih, Nat.pow_succ, Nat.mul_comm (256 ^ width), Nat.mod_mul, UInt8.toNat_ofNat']

theorem fromLE_toLE_of_lt {width value : Nat} (fits : value < 256 ^ width) : fromLE (toLE width value) = value := by
  rw [fromLE_toLE, Nat.mod_eq_of_lt fits]

theorem toLE_fromLE (bytes : List UInt8) : toLE bytes.length (fromLE bytes) = bytes := by
  induction bytes with
  | nil => rfl
  | cons byte rest ih =>
    have small := byte.toNat_lt
    have low : UInt8.ofNat (byte.toNat + 256 * fromLE rest) = byte := by
      apply UInt8.toNat_inj.mp
      rw [UInt8.toNat_ofNat']
      omega
    have high : (byte.toNat + 256 * fromLE rest) / 256 = fromLE rest := by omega
    rw [length_cons, fromLE, toLE, low, high, ih]

theorem fromBE_toBE_of_lt {width value : Nat} (fits : value < 256 ^ width) : fromBE (toBE width value) = value := by
  rw [fromBE, toBE, reverse_reverse, fromLE_toLE_of_lt fits]

theorem toBE_fromBE (bytes : List UInt8) : toBE bytes.length (fromBE bytes) = bytes := by
  have reversed := toLE_fromLE bytes.reverse
  rw [length_reverse] at reversed
  rw [fromBE, toBE, reversed, reverse_reverse]

/-- The number whose bytes are those of the given one in reverse order. -/
def bswap (width value : Nat) : Nat := fromLE (toLE width value).reverse

theorem toLE_bswap (width value : Nat) : toLE width (bswap width value) = toBE width value := by
  have bytes := toLE_fromLE (toLE width value).reverse
  rw [length_reverse, length_toLE] at bytes
  exact bytes

theorem bswap_lt (width value : Nat) : bswap width value < 256 ^ width := by
  have bound := fromLE_lt (toLE width value).reverse
  rw [length_reverse, length_toLE] at bound
  exact bound

theorem bswap_bswap {width value : Nat} (fits : value < 256 ^ width) : bswap width (bswap width value) = value := by
  rw [bswap, toLE_bswap, ← fromBE, fromBE_toBE_of_lt fits]

theorem fromBE_lt (bytes : List UInt8) : fromBE bytes < 256 ^ bytes.length := by
  have bound := fromLE_lt bytes.reverse
  rw [length_reverse] at bound
  exact bound

/-- The bytes by address; `none` where nothing may be read. -/
def Memory := Nat → Option UInt8

namespace Memory

def read (memory : Memory) (offset : Nat) : Nat → Option (List UInt8)
  | 0 => some []
  | width + 1 => do
      let byte ← memory offset
      let rest ← read memory (offset + 1) width
      return byte :: rest

def readLE (memory : Memory) (offset width : Nat) : Option Nat :=
  (memory.read offset width).map fromLE

def ofBytes (bytes : List UInt8) : Memory := fun offset => bytes[offset]?

def Holds (memory : Memory) (offset : Nat) (bytes : List UInt8) : Prop :=
  memory.read offset bytes.length = some bytes

def zeroed (size : Nat) : Memory := fun offset => if offset < size then some 0 else none

def write (memory : Memory) (bytes : List UInt8) : Memory := fun offset =>
  if offset < bytes.length then bytes[offset]? else memory offset

def Readable (memory : Memory) (bound : Nat) : Prop := ∀ offset < bound, (memory offset).isSome

variable {memory : Memory} {offset width : Nat} {bytes : List UInt8}

theorem read_add (memory : Memory) (offset first second : Nat) :
    memory.read offset (first + second) = (memory.read offset first).bind fun front =>
      (memory.read (offset + first) second).map fun back => front ++ back := by
  induction first generalizing offset with
  | zero => simp [read]
  | succ first ih =>
    have next : offset + 1 + first = offset + (first + 1) := by omega
    rw [Nat.add_right_comm, read, ih, read, next]
    cases memory offset with
    | none => rfl
    | some byte =>
      cases memory.read (offset + 1) first with
      | none => rfl
      | some front => cases memory.read (offset + (first + 1)) second <;> rfl

theorem length_of_read (found : memory.read offset width = some bytes) : bytes.length = width := by
  induction width generalizing offset bytes with
  | zero =>
    cases found
    rfl
  | succ width ih =>
    obtain ⟨byte, -, continued⟩ := Option.bind_eq_some_iff.mp found
    obtain ⟨rest, read, same⟩ := Option.bind_eq_some_iff.mp continued
    cases same
    rw [length_cons, ih read]

theorem holds_of_read (found : memory.read offset width = some bytes) : memory.Holds offset bytes := by
  rw [Holds, length_of_read found]
  exact found

@[simp] theorem holds_append {front back : List UInt8} : memory.Holds offset (front ++ back) ↔
    memory.Holds offset front ∧ memory.Holds (offset + front.length) back := by
  unfold Holds
  rw [length_append, read_add]
  constructor
  · intro found
    obtain ⟨first, read, continued⟩ := Option.bind_eq_some_iff.mp found
    obtain ⟨second, read', same⟩ := Option.map_eq_some_iff.mp continued
    obtain ⟨rfl, rfl⟩ := append_inj same (length_of_read read)
    exact ⟨read, read'⟩
  · rintro ⟨first, second⟩
    rw [first, second]
    rfl

@[simp] theorem holds_cons {byte : UInt8} {rest : List UInt8} : memory.Holds offset (byte :: rest) ↔
    memory offset = some byte ∧ memory.Holds (offset + 1) rest := by
  rw [← singleton_append, holds_append]
  have single : memory.Holds offset [byte] ↔ memory offset = some byte := by
    change ((memory offset).bind fun byte => some [byte]) = some [byte] ↔ _
    cases memory offset <;> simp
  rw [single]
  rfl

@[simp] theorem holds_nil : memory.Holds offset [] := rfl

theorem Holds.readLE (holds : memory.Holds offset bytes) :
    memory.readLE offset bytes.length = some (fromLE bytes) := by
  rw [Memory.readLE, holds]
  rfl

theorem read_congr {other : Memory} (same : ∀ pos, offset ≤ pos → pos < offset + width →
      other pos = memory pos) : other.read offset width = memory.read offset width := by
  induction width generalizing offset with
  | zero => rfl
  | succ width ih =>
    have rest : other.read (offset + 1) width = memory.read (offset + 1) width :=
      ih fun pos after before => same pos (by omega) (by omega)
    rw [read, read, same offset (Nat.le_refl _) (by omega), rest]

theorem Holds.congr {other : Memory} (holds : memory.Holds offset bytes)
    (same : ∀ pos, offset ≤ pos → pos < offset + bytes.length → other pos = memory pos) :
    other.Holds offset bytes := by
  rw [Holds, read_congr same]
  exact holds

theorem Holds.isPrefix {short long : List UInt8} (holds : memory.Holds offset long)
    (shorter : memory.Holds offset short) (le : short.length ≤ long.length) : short <+: long := by
  have split : (long.take short.length).length = short.length := by
    rw [length_take, Nat.min_eq_left le]
  rw [← long.take_append_drop short.length, holds_append] at holds
  have front := holds.1
  rw [Holds, split, show memory.read offset short.length = some short from shorter] at front
  rw [Option.some.inj front]
  exact take_prefix _ _

theorem Holds.unique {other : List UInt8} (holds : memory.Holds offset bytes)
    (also : memory.Holds offset other) (same : other.length = bytes.length) : other = bytes := by
  rw [Holds, same] at also
  exact Option.some.inj (also.symm.trans holds)

theorem Holds.isSome (holds : memory.Holds offset bytes) {pos : Nat} (after : offset ≤ pos)
    (before : pos < offset + bytes.length) : (memory pos).isSome := by
  induction bytes generalizing offset with
  | nil => exact absurd before (Nat.not_lt.mpr after)
  | cons byte rest ih =>
    obtain ⟨first, restHeld⟩ := holds_cons.mp holds
    rcases Nat.eq_or_lt_of_le after with rfl | later
    · rw [first]
      rfl
    · exact ih restHeld later (by rw [length_cons] at before; omega)

theorem Holds.readable (holds : memory.Holds 0 bytes) : memory.Readable bytes.length :=
  fun _ inside => holds.isSome (Nat.zero_le _) (by omega)

theorem Readable.exists_read {bound : Nat} (readable : memory.Readable bound)
    (inside : offset + width ≤ bound) : ∃ bytes, memory.read offset width = some bytes := by
  induction width generalizing offset with
  | zero => exact ⟨[], rfl⟩
  | succ width ih =>
    obtain ⟨byte, found⟩ := Option.isSome_iff_exists.mp (readable offset (by omega))
    obtain ⟨rest, read⟩ := ih (show offset + 1 + width ≤ bound by omega)
    exact ⟨byte :: rest, by rw [Memory.read, found, read]; rfl⟩

theorem Readable.exists_toBE {bound : Nat} (readable : memory.Readable bound) (inside : offset + width ≤ bound) :
    ∃ value < 256 ^ width, memory.Holds offset (toBE width value) := by
  obtain ⟨bytes, read⟩ := readable.exists_read inside
  have small := fromBE_lt bytes
  have back := toBE_fromBE bytes
  rw [length_of_read read] at small back
  refine ⟨fromBE bytes, small, ?_⟩
  rw [back]
  exact holds_of_read read

theorem ofBytes_holds (front bytes back : List UInt8) :
    (ofBytes (front ++ (bytes ++ back))).Holds front.length bytes := by
  induction bytes generalizing front with
  | nil => rfl
  | cons byte rest ih =>
    rw [holds_cons]
    have found : ofBytes (front ++ (byte :: rest ++ back)) front.length = some byte := by
      simp [ofBytes]
    have shifted := ih (front ++ [byte])
    rw [length_append, append_assoc] at shifted
    exact ⟨found, shifted⟩

theorem ofBytes_holds_tail (byte : UInt8) (rest : List UInt8) : (ofBytes (byte :: rest)).Holds 1 rest := by
  have held := ofBytes_holds [byte] rest []
  rwa [append_nil] at held

theorem ofBytes_readable (bytes : List UInt8) : (ofBytes bytes).Readable bytes.length := by
  intro offset inside
  rw [ofBytes, List.getElem?_eq_getElem inside]
  rfl

theorem zeroed_readable (size : Nat) : (zeroed size).Readable size := by
  intro offset inside
  rw [zeroed, if_pos inside]
  rfl

theorem write_holds (memory : Memory) (bytes : List UInt8) : (memory.write bytes).Holds 0 bytes := by
  have whole := ofBytes_holds [] bytes []
  rw [nil_append, append_nil, length_nil] at whole
  refine whole.congr fun pos _ before => ?_
  rw [Nat.zero_add] at before
  rw [write, if_pos before, ofBytes]

theorem Readable.write {bound : Nat} (readable : memory.Readable bound) (bytes : List UInt8) :
    (memory.write bytes).Readable bound := by
  intro offset inside
  rw [Memory.write]
  split
  case isTrue covered =>
    rw [List.getElem?_eq_getElem covered]
    rfl
  case isFalse => exact readable offset inside

end Memory

end AnimusCore.Lib
