import AnimusCore.Lib.Bytes
import Mathlib.Logic.Equiv.Defs

/-! Packed layouts: a value as bytes in memory, with no padding between its parts. Every
layout reads back what it writes, and any readable bytes of its width are a value. -/

set_option autoImplicit false

namespace AnimusCore.Lib

structure Layout (α : Type) where
  width : Nat
  read : Memory → Nat → Option α
  bytes : α → List UInt8
  length_bytes : ∀ value, (bytes value).length = width
  read_bytes : ∀ {memory : Memory} {offset : Nat} {value : α},
    memory.Holds offset (bytes value) → read memory offset = some value
  exists_bytes : ∀ {memory : Memory} {offset bound : Nat}, memory.Readable bound →
    offset + width ≤ bound → ∃ value, memory.Holds offset (bytes value)

namespace Layout

variable {α β : Type}

attribute [simp] length_bytes

def le (width : Nat) (number : { n : Nat // n < 256 ^ width } ≃ α) : Layout α where
  width := width
  read memory offset := do
    let bytes ← memory.read offset width
    if fits : fromLE bytes < 256 ^ width then return number ⟨fromLE bytes, fits⟩ else none
  bytes value := toLE width (number.symm value).val
  length_bytes value := length_toLE ..
  read_bytes {memory offset value} holds := by
    unfold Memory.Holds at holds
    rw [length_toLE] at holds
    have fits := (number.symm value).property
    simp only [holds, Option.bind_eq_bind, Option.bind_some, fromLE_toLE_of_lt fits, fits,
      dif_pos, Subtype.coe_eta, Equiv.apply_symm_apply]
    rfl
  exists_bytes {memory offset bound} readable inside := by
    obtain ⟨bytes, read⟩ := readable.exists_read inside
    have fits := fromLE_lt bytes
    have back := toLE_fromLE bytes
    rw [Memory.length_of_read read] at fits back
    refine ⟨number ⟨fromLE bytes, fits⟩, ?_⟩
    rw [Equiv.symm_apply_apply, back]
    exact Memory.holds_of_read read

def pair (first : Layout α) (second : Layout β) : Layout (α × β) where
  width := first.width + second.width
  read memory offset := do
    let left ← first.read memory offset
    let right ← second.read memory (offset + first.width)
    return (left, right)
  bytes value := first.bytes value.1 ++ second.bytes value.2
  length_bytes value := by simp
  read_bytes {memory offset value} holds := by
    rw [Memory.holds_append, first.length_bytes] at holds
    rw [first.read_bytes holds.1, second.read_bytes holds.2]
    rfl
  exists_bytes {memory offset bound} readable inside := by
    obtain ⟨left, leftHeld⟩ := first.exists_bytes readable (show offset + first.width ≤ bound by omega)
    obtain ⟨right, rightHeld⟩ := second.exists_bytes readable
      (show offset + first.width + second.width ≤ bound by omega)
    refine ⟨(left, right), ?_⟩
    rw [Memory.holds_append, first.length_bytes]
    exact ⟨leftHeld, rightHeld⟩

def map (layout : Layout α) (view : α ≃ β) : Layout β where
  width := layout.width
  read memory offset := (layout.read memory offset).map view
  bytes value := layout.bytes (view.symm value)
  length_bytes value := layout.length_bytes _
  read_bytes holds := by
    rw [layout.read_bytes holds, Option.map_some, Equiv.apply_symm_apply]
  exists_bytes readable inside := by
    obtain ⟨value, held⟩ := layout.exists_bytes readable inside
    exact ⟨view value, by rwa [Equiv.symm_apply_apply]⟩

section
variable {memory : Memory} {offset : Nat}

theorem read_pair_eq_some_iff {first : Layout α} {second : Layout β} {value : α × β} :
    (first.pair second).read memory offset = some value ↔ first.read memory offset = some value.1 ∧
      second.read memory (offset + first.width) = some value.2 := by
  simp only [pair, Option.bind_eq_bind, Option.bind_eq_some_iff, Option.pure_def, Option.some_inj]
  constructor
  · rintro ⟨_, left, _, right, rfl⟩
    exact ⟨left, right⟩
  · exact fun both => ⟨_, both.1, _, both.2, rfl⟩

theorem read_map_eq_some_iff {layout : Layout α} {view : α ≃ β} {value : β} :
    (layout.map view).read memory offset = some value ↔ layout.read memory offset = some (view.symm value) := by
  simp only [map, Option.map_eq_some_iff, ← Equiv.eq_symm_apply, exists_eq_right]

end

def u8 : Layout UInt8 := le 1
  { toFun := fun n => UInt8.ofNat n.val
    invFun := fun value => ⟨value.toNat, value.toNat_lt⟩
    left_inv := fun n => Subtype.ext (UInt8.toNat_ofNat_of_lt' n.property)
    right_inv := fun _ => UInt8.ofNat_toNat }

def u16 : Layout UInt16 := le 2
  { toFun := fun n => UInt16.ofNat n.val
    invFun := fun value => ⟨value.toNat, value.toNat_lt⟩
    left_inv := fun n => Subtype.ext (UInt16.toNat_ofNat_of_lt' n.property)
    right_inv := fun _ => UInt16.ofNat_toNat }

def u32 : Layout UInt32 := le 4
  { toFun := fun n => UInt32.ofNat n.val
    invFun := fun value => ⟨value.toNat, value.toNat_lt⟩
    left_inv := fun n => Subtype.ext (UInt32.toNat_ofNat_of_lt' n.property)
    right_inv := fun _ => UInt32.ofNat_toNat }

def u64 : Layout UInt64 := le 8
  { toFun := fun n => UInt64.ofNat n.val
    invFun := fun value => ⟨value.toNat, value.toNat_lt⟩
    left_inv := fun n => Subtype.ext (UInt64.toNat_ofNat_of_lt' n.property)
    right_inv := fun _ => UInt64.ofNat_toNat }

def i32 : Layout Int32 := u32.map
  { toFun := UInt32.toInt32, invFun := Int32.toUInt32
    left_inv := fun _ => rfl, right_inv := fun _ => rfl }

def i64 : Layout Int64 := u64.map
  { toFun := UInt64.toInt64, invFun := Int64.toUInt64
    left_inv := fun _ => rfl, right_inv := fun _ => rfl }

def chars (count : Nat) : Layout (Vector UInt8 count) where
  width := count
  read memory offset := do
    let bytes ← memory.read offset count
    if length : bytes.length = count then return ⟨bytes.toArray, length⟩ else none
  bytes value := value.toList
  length_bytes value := Vector.length_toList
  read_bytes {memory offset value} holds := by
    unfold Memory.Holds at holds
    rw [Vector.length_toList] at holds
    simp only [holds, Option.bind_eq_bind, Option.bind_some, Vector.length_toList, dif_pos]
    rfl
  exists_bytes {memory offset bound} readable inside := by
    obtain ⟨bytes, read⟩ := readable.exists_read inside
    exact ⟨⟨bytes.toArray, Memory.length_of_read read⟩, Memory.holds_of_read read⟩

section
variable (layout : Layout α)

def readMany (memory : Memory) : Nat → Nat → Option (List α)
  | _, 0 => some []
  | offset, count + 1 => do
      let first ← layout.read memory offset
      let rest ← readMany memory (offset + layout.width) count
      return first :: rest

def manyBytes (values : List α) : List UInt8 := values.flatMap layout.bytes

@[simp] theorem length_manyBytes (values : List α) :
    (layout.manyBytes values).length = values.length * layout.width := by
  simp [manyBytes, List.length_flatMap]

variable {layout} {memory : Memory} {offset : Nat}

theorem readMany_bytes {values : List α} (held : memory.Holds offset (layout.manyBytes values)) :
    layout.readMany memory offset values.length = some values := by
  induction values generalizing offset with
  | nil => rfl
  | cons first rest ih =>
    rw [manyBytes, List.flatMap_cons, Memory.holds_append, layout.length_bytes] at held
    rw [List.length_cons, readMany, layout.read_bytes held.1, ih held.2]
    rfl

theorem exists_manyBytes {bound count : Nat} (readable : memory.Readable bound)
    (inside : offset + count * layout.width ≤ bound) :
    ∃ values, values.length = count ∧ memory.Holds offset (layout.manyBytes values) := by
  induction count generalizing offset with
  | zero => exact ⟨[], rfl, rfl⟩
  | succ count ih =>
    rw [Nat.succ_mul] at inside
    obtain ⟨first, held⟩ := layout.exists_bytes readable (show offset + layout.width ≤ bound by omega)
    obtain ⟨rest, length, heldRest⟩ := ih (show offset + layout.width + count * layout.width ≤ bound by omega)
    refine ⟨first :: rest, by rw [List.length_cons, length], ?_⟩
    rw [manyBytes, List.flatMap_cons, Memory.holds_append, layout.length_bytes]
    exact ⟨held, heldRest⟩

end

end Layout

end AnimusCore.Lib
