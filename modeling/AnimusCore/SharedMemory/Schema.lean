import AnimusCore.Lib.Digest
import AnimusCore.SharedMemory.Opening

/-! The identity of a wire schema: a 64-bit digest of its name, its wire format and the size
of its records, stamped by `create` and compared by `open`. -/

set_option autoImplicit false

namespace AnimusCore.SharedMemory

open Lib List

def kFnvOffsetBasis : UInt64 := 14695981039346656037
def kFnvPrime : UInt64 := 1099511628211

/-- A string is the list of its bytes; the terminator stands behind the last one. -/
def fnv1a : List UInt8 → UInt64 → UInt64
  | [], hash => hash
  | char :: s, hash => if char = 0 then hash else fnv1a s ((hash ^^^ char.toUInt64) * kFnvPrime)

def fnv1aMixU64 (hash value : UInt64) : UInt64 :=
  (List.range 8).foldl (fun hash byte => (hash ^^^ ((value >>> UInt64.ofNat (byte * 8)) &&& 0xFF)) * kFnvPrime) hash

def schemaVersionHash (name wireFormat : List UInt8) (payloadSize : UInt64) : UInt64 :=
  fnv1aMixU64 (fnv1a wireFormat (fnv1a name kFnvOffsetBasis)) payloadSize

/-- The two strings of `ANIMUS_DEFINE_SCHEMA`. -/
structure Schema where
  name : List UInt8
  wireFormat : List UInt8
  name_nulFree : 0 ∉ name
  wireFormat_nulFree : 0 ∉ wireFormat

namespace Schema

def versionHash (schema : Schema) (size : UInt64) : UInt64 :=
  schemaVersionHash schema.name schema.wireFormat size

def text (schema : Schema) : List UInt8 := schema.name ++ schema.wireFormat

def bytes (schema : Schema) (size : UInt64) : List UInt8 := schema.text ++ toLE 8 size.toNat

structure Registers (schema : Schema) (type : RecordType) : Prop where
  versionHash : type.versionHash = schema.versionHash type.size
  wireFormat : type.wireFormat = schema.wireFormat

end Schema

/-- The three headers have these two fields at the same offsets. -/
structure Identifies (memory : Memory) (type : RecordType) : Prop where
  versionHash : memory.word 24 = some type.versionHash
  payloadSize : memory.word 32 = some type.size

def fnv1aByte (hash : UInt64) (byte : UInt8) : UInt64 := (hash ^^^ byte.toUInt64) * kFnvPrime

/-- The prime is odd, so its multiples tell the factor. -/
theorem mul_kFnvPrime_injective : Function.Injective (· * kFnvPrime) := by
  have inverse : kFnvPrime * 14886173955864302971 = 1 := by decide
  intro first second equal
  have scaled := congrArg (· * (14886173955864302971 : UInt64)) equal
  simpa only [UInt64.mul_assoc, inverse, UInt64.mul_one] using scaled

private theorem lossless_fnv1aByte : Lossless fnv1aByte where
  state _ _ _ equal := (UInt64.xor_left_inj _).mp (mul_kFnvPrime_injective equal)
  symbol hash _ _ equal := UInt8.toUInt64_inj.mp ((UInt64.xor_right_inj hash).mp (mul_kFnvPrime_injective equal))

private theorem fnv1a_eq {s : List UInt8} (nulFree : 0 ∉ s) (hash : UInt64) : fnv1a s hash = s.foldl fnv1aByte hash := by
  induction s generalizing hash with
  | nil => rfl
  | cons char rest ih =>
    have first := ne_of_not_mem_cons nulFree
    rw [fnv1a, if_neg first.symm, ih (not_mem_of_not_mem_cons nulFree)]
    rfl

private theorem toLE_eq_map (width value : Nat) :
    toLE width value = (List.range width).map fun index => UInt8.ofNat (value / 256 ^ index) := by
  induction width generalizing value with
  | zero => rfl
  | succ width ih =>
    rw [toLE, ih, range_succ_eq_map, map_cons, map_map, Nat.pow_zero, Nat.div_one]
    simp only [Function.comp_def, Nat.div_div_eq_div_mul, Nat.pow_succ', Nat.succ_eq_add_one]

private theorem shifted_byte (value : UInt64) {byte : Nat} (small : byte < 8) :
    (value >>> UInt64.ofNat (byte * 8)) &&& 0xFF = (UInt8.ofNat (value.toNat / 256 ^ byte)).toUInt64 := by
  apply UInt64.toNat_inj.mp
  have mask : (0xFF : UInt64).toNat = 2 ^ 8 - 1 := rfl
  have places : 256 ^ byte = 2 ^ (byte * 8) := by rw [Nat.mul_comm, Nat.pow_mul]
  rw [UInt64.toNat_and, UInt64.toNat_shiftRight, UInt64.toNat_ofNat', mask,
    Nat.mod_eq_of_lt (show byte * 8 < 2 ^ 64 by omega), Nat.mod_eq_of_lt (show byte * 8 < 64 by omega),
    Nat.and_two_pow_sub_one_eq_mod, Nat.shiftRight_eq_div_pow, UInt8.toNat_toUInt64,
    UInt8.toNat_ofNat', places]

private theorem fnv1aMixU64_eq (hash value : UInt64) :
    fnv1aMixU64 hash value = (toLE 8 value.toNat).foldl fnv1aByte hash := by
  rw [toLE_eq_map, foldl_map, fnv1aMixU64]
  apply foldl_ext
  intro hash byte listed
  rw [shifted_byte value (mem_range.mp listed)]
  rfl

theorem Schema.versionHash_eq (schema : Schema) (size : UInt64) :
    schema.versionHash size = (schema.bytes size).foldl fnv1aByte kFnvOffsetBasis := by
  rw [versionHash, schemaVersionHash, fnv1aMixU64_eq, fnv1a_eq schema.wireFormat_nulFree,
    fnv1a_eq schema.name_nulFree, bytes, text, foldl_append, foldl_append]

section
variable {schema other : Schema} (names : schema.name.length = other.name.length)
  (formats : schema.wireFormat.length = other.wireFormat.length)
include names formats

theorem Schema.length_text : schema.text.length = other.text.length := by
  rw [text, text, length_append, length_append, names, formats]

theorem Schema.versionHash_ne {size otherSize : UInt64}
    (once : DifferOnce (schema.bytes size) (other.bytes otherSize)) :
    schema.versionHash size ≠ other.versionHash otherSize := by
  rw [versionHash_eq, versionHash_eq]
  refine lossless_fnv1aByte.foldl_ne once ?_ _
  rw [bytes, bytes, length_append, length_append, length_text names formats, length_toLE, length_toLE]

/-- Either the sizes differ, or both hashes end in the same eight bytes. -/
theorem Schema.Registers.differ {type creator : RecordType} (registered : schema.Registers creator)
    (opening : other.Registers type) (once : DifferOnce schema.text other.text) :
    ¬ (creator.size = type.size ∧ creator.versionHash = type.versionHash) := by
  rintro ⟨size, hash⟩
  rw [registered.versionHash, opening.versionHash, versionHash_eq, versionHash_eq, size, bytes, bytes,
    foldl_append, foldl_append, lossless_fnv1aByte.foldl_eq_iff] at hash
  exact lossless_fnv1aByte.foldl_ne once (length_text names formats) _ hash

end

section
variable {type creator : RecordType} {segment : Segment} (identified : Identifies segment.image creator)
include identified

theorem Identifies.of_openRing {kind : RingKind} {headerSize : UInt64} {view : View}
    (opened : openRing kind headerSize type segment = some view) :
    creator.size = type.size ∧ creator.versionHash = type.versionHash := by
  simp only [openRing, Option.bind_eq_bind, Option.bind_eq_some_iff, guard_eq_some_iff, exists_const,
    Descriptor.read_eq_some_iff] at opened
  obtain ⟨-, header, ⟨-, -, -, hash, payload, -, -⟩, -, -, samePayload, sameHash, -, -⟩ := opened
  rw [identified.versionHash, Option.some_inj] at hash
  rw [identified.payloadSize, Option.some_inj] at payload
  exact ⟨payload.trans samePayload, hash.trans sameHash⟩

theorem Identifies.of_openMpmcRing {line : CacheLine} {type : CellType} {view : View}
    (opened : openMpmcRing line type segment = some (some view)) :
    creator.size = type.size ∧ creator.versionHash = type.versionHash := by
  simp only [openMpmcRing, openMpmcLoads, Loads.run_check, Loads.run_require, Loads.run_done, beq_iff_eq,
    decide_eq_true_eq, Option.some_inj, identified.versionHash, identified.payloadSize] at opened
  obtain ⟨-, -, -, -, -, -, -, -, -, -, -, -, -, size, rfl, sameSize, -, -, -, hash, rfl, sameHash, -⟩ := opened
  exact ⟨sameSize, sameHash⟩

end

private theorem within_openMpmcLoads (line : CacheLine) (type : CellType) (size : UInt64) :
    (openMpmcLoads line type size).Within size.toNat := by
  refine Loads.within_check fun large => ?_
  have header := (le_mpmcRingHeaderSize line).1
  have bound := UInt64.le_iff_toNat_le.mp (of_decide_eq_true large)
  refine Loads.within_require (by omega) fun _ => Loads.within_require (by omega) fun _ => ?_
  refine Loads.within_require (by omega) fun _ => Loads.within_require (by omega) fun _ => ?_
  refine Loads.within_require (by omega) fun _ => Loads.within_require (by omega) fun _ => ?_
  refine Loads.within_require (by omega) fun _ => ?_
  exact Loads.within_check fun _ => Loads.within_check fun _ => trivial

private theorem identifies_of_holds {memory : Memory} {kind : RingKind} {type : RecordType} {capacity : UInt64}
    (held : memory.Holds 0 (Descriptor.layout.bytes (descriptorFor kind type capacity))) :
    Identifies memory type := by
  obtain ⟨-, -, -, hash, payload, -, -⟩ := (Descriptor.read_eq_some_iff _ _).mp (Descriptor.layout.read_bytes held)
  exact ⟨hash, payload⟩

/-- One changed byte changes the hash, and under a common suffix the hashes stay equal or
different. A ring of one schema is not opened as one whose text differs in one character. -/
theorem schema_edit_detected (schema other : Schema) :
    (schema.name.length = other.name.length → schema.wireFormat.length = other.wireFormat.length →
      ∀ size otherSize, DifferOnce (schema.bytes size) (other.bytes otherSize) →
        schemaVersionHash schema.name schema.wireFormat size ≠
          schemaVersionHash other.name other.wireFormat otherSize) ∧
    (∀ size otherSize front otherFront suffix, schema.bytes size = front ++ suffix →
      other.bytes otherSize = otherFront ++ suffix → (schemaVersionHash schema.name schema.wireFormat size =
          schemaVersionHash other.name other.wireFormat otherSize ↔
        front.foldl fnv1aByte kFnvOffsetBasis = otherFront.foldl fnv1aByte kFnvOffsetBasis)) ∧
    (schema.name.length = other.name.length → schema.wireFormat.length = other.wireFormat.length →
      DifferOnce schema.text other.text →
      ∀ (creator : RecordType) (type : CellType) (segment : Segment) (line : CacheLine),
        schema.Registers creator → other.Registers type.toRecordType →
        Identifies segment.image creator → openShmRing line type.toRecordType segment = none ∧
          openSpmcRing line type.toRecordType segment = none ∧ openMpmcRing line type segment = some none) := by
  refine ⟨fun names formats size otherSize once => Schema.versionHash_ne names formats once, ?_, ?_⟩
  · intro size otherSize front otherFront suffix split otherSplit
    change schema.versionHash size = other.versionHash otherSize ↔ _
    rw [Schema.versionHash_eq, Schema.versionHash_eq, split, otherSplit, foldl_append,
      foldl_append, lossless_fnv1aByte.foldl_eq_iff]
  · intro names formats once creator type segment line registered opening identified
    have differ := registered.differ names formats opening once
    have refused (kind : RingKind) (headerSize : UInt64) :
        openRing kind headerSize type.toRecordType segment = none :=
      Option.eq_none_iff_forall_ne_some.mpr fun _ opened => differ (identified.of_openRing opened)
    refine ⟨refused _ _, refused _ _, ?_⟩
    obtain ⟨result, ran⟩ := (within_openMpmcLoads line type segment.size).exists_run segment.mapped
    cases result with
    | none => exact ran
    | some view => exact absurd (identified.of_openMpmcRing ran) differ

def letterSchema (letter : UInt8) (visible : 0 ≠ letter) : Schema :=
  ⟨[letter], [81], by rwa [mem_singleton], by decide⟩

def letterType (schema : Schema) : CellType :=
  ⟨⟨8, Nat.succ_pos 7, schema.versionHash 8, schema.wireFormat⟩, ⟨0, Nat.succ_pos 6⟩, Nat.mod_one _⟩

def letterSegment (schema : Schema) : Segment :=
  Segment.ofBytes 4096 384 (Descriptor.layout.bytes (descriptorFor .spsc (letterType schema).toRecordType 2))

private theorem letterSegment_identifies (schema : Schema) :
    Identifies (letterSegment schema).image (letterType schema).toRecordType :=
  identifies_of_holds (Memory.write_holds ..)

theorem schema_edit_detected_letter : schemaVersionHash [65] [81] 8 ≠ schemaVersionHash [66] [81] 8 ∧
    openShmRing .line64 (letterType (letterSchema 66 (by decide))).toRecordType
      (letterSegment (letterSchema 65 (by decide))) = none := by
  have once (rest : List UInt8) : DifferOnce (65 :: rest) (66 :: rest) := by
    refine ⟨0, show some (65 : UInt8) ≠ some 66 by decide, fun position differ => ?_⟩
    cases position with
    | zero => rfl
    | succ position => exact absurd rfl differ
  obtain ⟨edited, -, refused⟩ := schema_edit_detected (letterSchema 65 (by decide)) (letterSchema 66 (by decide))
  have opens := refused rfl rfl (once _) _ (letterType _) _ .line64 ⟨rfl, rfl⟩ ⟨rfl, rfl⟩ (letterSegment_identifies _)
  exact ⟨edited rfl rfl 8 8 (once _), opens.1⟩

end AnimusCore.SharedMemory
