import AnimusCore.Lib.Bytes
import Mathlib.Algebra.Order.Ring.Nat

/-! Records as the `struct` module of Python lays them out. In the standard modes the items
follow each other with fixed widths; in the native mode widths, alignment and byte order are
those of the platform. Only the integer and floating-point codes are covered, without repeat
counts. -/

set_option autoImplicit false

namespace AnimusCore.Lib.StructFormat

inductive ByteOrder where
  | little
  | big
  deriving DecidableEq

inductive ItemKind where
  | signed
  | unsigned
  | float
  deriving DecidableEq

/-- A single byte has no order. -/
def orderFor (width : Nat) (order : ByteOrder) : Option ByteOrder :=
  if width = 1 then none else some order

structure Item where
  offset : Nat
  width : Nat
  kind : ItemKind
  order : Option ByteOrder
  deriving DecidableEq

structure RecordLayout where
  items : List Item
  size : Nat
  deriving DecidableEq

/-- A floating-point number is given by its bits. -/
inductive Value where
  | int (value : Int)
  | float (width bits : Nat)
  deriving DecidableEq

def Item.decode (bytes : List UInt8) (item : Item) : Value :=
  let raw := (bytes.drop item.offset).take item.width
  let number := if item.order = some .big then fromBE raw else fromLE raw
  match item.kind with
  | .unsigned => .int number
  | .signed => .int (if 2 * number < 256 ^ item.width then number else number - 256 ^ item.width)
  | .float => .float item.width number

/-- `none` for a buffer of another length. -/
def RecordLayout.decode (layout : RecordLayout) (bytes : List UInt8) : Option (List Value) :=
  if bytes.length = layout.size then some (layout.items.map (Item.decode bytes)) else none

inductive Code where
  | b | B | h | H | i | I | l | L | q | Q | f | d
  deriving DecidableEq

namespace Code

def ofChar : Char → Option Code
  | 'b' => some b | 'B' => some B
  | 'h' => some h | 'H' => some H
  | 'i' => some i | 'I' => some I
  | 'l' => some l | 'L' => some L
  | 'q' => some q | 'Q' => some Q
  | 'f' => some f | 'd' => some d
  | _ => none

def kind : Code → ItemKind
  | b | h | i | l | q => .signed
  | B | H | I | L | Q => .unsigned
  | f | d => .float

def standardSize : Code → Nat
  | b | B => 1
  | h | H => 2
  | i | I | l | L | f => 4
  | q | Q | d => 8

end Code

/-- The C types of a platform: only the width of `long` varies. -/
structure Platform where
  order : ByteOrder
  longSize : Nat
  align : Code → Nat
  align_pos : ∀ code, 0 < align code

def Platform.size (platform : Platform) : Code → Nat
  | .l | .L => platform.longSize
  | code => code.standardSize

def alignUp (offset align : Nat) : Nat := (offset + (align - 1)) / align * align

theorem alignUp_eq_self_iff {offset align : Nat} (positive : 0 < align) :
    alignUp offset align = offset ↔ align ∣ offset := by
  rw [alignUp]
  constructor
  · intro same
    exact ⟨_, by rw [Nat.mul_comm]; exact same.symm⟩
  · rintro ⟨count, rfl⟩
    rw [Nat.mul_add_div positive, Nat.div_eq_of_lt (by omega), Nat.add_zero, Nat.mul_comm]

def nativeFrom (platform : Platform) : Nat → List Code → List Item × Nat
  | offset, [] => ([], offset)
  | offset, code :: rest =>
    let start := alignUp offset (platform.align code)
    let width := platform.size code
    let later := nativeFrom platform (start + width) rest
    (⟨start, width, code.kind, orderFor width platform.order⟩ :: later.1, later.2)

def standardFrom (order : ByteOrder) : Nat → List Code → List Item × Nat
  | offset, [] => ([], offset)
  | offset, code :: rest =>
    let later := standardFrom order (offset + code.standardSize) rest
    (⟨offset, code.standardSize, code.kind, orderFor code.standardSize order⟩ :: later.1, later.2)

def RecordLayout.ofPair (placed : List Item × Nat) : RecordLayout := ⟨placed.1, placed.2⟩

/-- `none` for a format with anything else in it. -/
def layout (platform : Platform) : List Char → Option RecordLayout
  | '@' :: rest => (rest.mapM Code.ofChar).map fun codes => .ofPair (nativeFrom platform 0 codes)
  | '=' :: rest =>
    (rest.mapM Code.ofChar).map fun codes => .ofPair (standardFrom platform.order 0 codes)
  | '<' :: rest => (rest.mapM Code.ofChar).map fun codes => .ofPair (standardFrom .little 0 codes)
  | '>' :: rest => (rest.mapM Code.ofChar).map fun codes => .ofPair (standardFrom .big 0 codes)
  | '!' :: rest => (rest.mapM Code.ofChar).map fun codes => .ofPair (standardFrom .big 0 codes)
  | rest => (rest.mapM Code.ofChar).map fun codes => .ofPair (nativeFrom platform 0 codes)

/-- From this offset on the platform adds no padding and agrees with the standard widths and
with little-endian order. -/
def Plain (platform : Platform) : Nat → List Code → Prop
  | _, [] => True
  | offset, code :: rest =>
    platform.align code ∣ offset ∧ platform.size code = code.standardSize ∧
    (code.standardSize = 1 ∨ platform.order = .little) ∧
    Plain platform (offset + code.standardSize) rest

theorem orderFor_eq_iff {width : Nat} {first second : ByteOrder} :
    orderFor width first = orderFor width second ↔ width = 1 ∨ first = second := by
  unfold orderFor
  by_cases single : width = 1 <;> simp [single]

theorem standard_eq_native_iff (platform : Platform) (offset : Nat) (codes : List Code) :
    standardFrom .little offset codes = nativeFrom platform offset codes ↔ Plain platform offset codes := by
  induction codes generalizing offset with
  | nil => exact ⟨fun _ => trivial, fun _ => rfl⟩
  | cons code rest ih =>
    have aligned : alignUp offset (platform.align code) = offset ↔ platform.align code ∣ offset :=
      alignUp_eq_self_iff (platform.align_pos code)
    rw [standardFrom, nativeFrom, Plain, ← ih (offset + code.standardSize), ← aligned]
    simp only [Prod.mk.injEq, List.cons.injEq, Item.mk.injEq, true_and]
    constructor
    · rintro ⟨⟨⟨start, width, order⟩, items⟩, finish⟩
      rw [← start, ← width] at items finish
      rw [← width, orderFor_eq_iff] at order
      exact ⟨start.symm, width.symm, order.imp_right Eq.symm, Prod.ext items finish⟩
    · rintro ⟨start, width, order, later⟩
      rw [start, width, ← later, orderFor_eq_iff]
      exact ⟨⟨⟨rfl, rfl, order.imp_right Eq.symm⟩, rfl⟩, rfl⟩

end AnimusCore.Lib.StructFormat
