import AnimusCore.Lib.StructFormat

/-! `wire_format_to_dtype`: the NumPy dtype for a wire format, against the layout that the
`struct` module gives the same string. The two agree under every byte-order prefix; without
one `struct` uses the platform's native layout, and the dtype does not. -/

set_option autoImplicit false

namespace AnimusCore.DynamicSchema

open Lib.StructFormat

inductive NumpyType where
  | i1 | u1 | i2 | u2 | i4 | u4 | i8 | u8 | f4 | f8

namespace NumpyType

def width : NumpyType → Nat
  | i1 | u1 => 1
  | i2 | u2 => 2
  | i4 | u4 | f4 => 4
  | i8 | u8 | f8 => 8

def kind : NumpyType → ItemKind
  | i1 | i2 | i4 | i8 => .signed
  | u1 | u2 | u4 | u8 => .unsigned
  | f4 | f8 => .float

end NumpyType

inductive Endian where
  | little
  | big
  | native

def Endian.order (platform : Platform) : Endian → ByteOrder
  | little => .little
  | big => .big
  | native => platform.order

/-- One entry of the list given to `np.dtype`. -/
structure Field where
  name : String
  endian : Endian
  type : NumpyType

structure Dtype where
  names : List String
  layout : RecordLayout

/-- Each field begins where the one before it ends. -/
def packFrom (platform : Platform) : Nat → List Field → List Item × Nat
  | offset, [] => ([], offset)
  | offset, field :: rest =>
    let width := field.type.width
    let later := packFrom platform (offset + width) rest
    (⟨offset, width, field.type.kind, orderFor width (field.endian.order platform)⟩ :: later.1, later.2)

def npDtype (platform : Platform) (fields : List Field) : Dtype where
  names := fields.map Field.name
  layout := .ofPair (packFrom platform 0 fields)

def structToNumpy : Char → Option NumpyType
  | 'b' => some .i1 | 'B' => some .u1
  | 'h' => some .i2 | 'H' => some .u2
  | 'i' => some .i4 | 'I' => some .u4
  | 'l' => some .i4 | 'L' => some .u4
  | 'q' => some .i8 | 'Q' => some .u8
  | 'f' => some .f4 | 'd' => some .f8
  | _ => none

def endianPrefixes : Char → Option Endian
  | '<' => some .little
  | '>' => some .big
  | '=' => some .native
  | '!' => some .big
  | _ => none

inductive SchemaError where
  | importError (message : String)
  | valueError (message : String)

def numpyMissing : String :=
  "wire_format_to_dtype() requires numpy, which this package does not " ++
  "depend on -- pip install numpy, or decode the raw bytes by hand with " ++
  "the struct module using the same format string."

def emptyFormat : String :=
  "empty wire_format -- this schema has no ANIMUS_DEFINE_SCHEMA registration " ++
  "(include/animus/schema.hpp) to derive field types from"

def unsupported (ch : Char) (wireFormat : List Char) : String :=
  "unsupported struct format character '" ++ ch.toString ++ "' in wire_format '" ++ String.ofList wireFormat ++ "'"

/-- The loop over the body; `i` counts its characters. -/
def fieldsFrom (wireFormat : List Char) (endian : Endian) : Nat → List Char → Except SchemaError (List Field)
  | _, [] => .ok []
  | i, ch :: rest =>
    match structToNumpy ch with
    | none => .error (.valueError (unsupported ch wireFormat))
    | some type => do
        let fields ← fieldsFrom wireFormat endian (i + 1) rest
        return ⟨"f" ++ toString i, endian, type⟩ :: fields

/-- `endian` and `body`; without a prefix the order is little-endian. -/
def splitFormat : List Char → Endian × List Char
  | [] => (.little, [])
  | first :: rest =>
    match endianPrefixes first with
    | some endian => (endian, rest)
    | none => (.little, first :: rest)

def wireFormatToDtype (platform : Platform) (numpyInstalled : Bool) (wireFormat : List Char) :
    Except SchemaError Dtype :=
  if numpyInstalled then
    if wireFormat.isEmpty then .error (.valueError emptyFormat)
    else
      let (endian, body) := splitFormat wireFormat
      (fieldsFrom wireFormat endian 0 body).map (npDtype platform)
  else .error (.importError numpyMissing)

def prefixed : List Char → Bool
  | [] => false
  | first :: _ => (endianPrefixes first).isSome

/-- The native layout of the format is packed and little-endian, with four bytes for `long`. -/
def PlainFormat (platform : Platform) (format : List Char) : Prop :=
  ∃ codes, format.mapM Code.ofChar = some codes ∧ Plain platform 0 codes

private theorem exists_code_of_structToNumpy {ch : Char} {type : NumpyType} (found : structToNumpy ch = some type) :
    ∃ code, Code.ofChar ch = some code ∧ type.width = code.standardSize ∧ type.kind = code.kind := by
  unfold structToNumpy at found
  split at found
  all_goals cases found
  · exact ⟨.b, rfl, rfl, rfl⟩
  · exact ⟨.B, rfl, rfl, rfl⟩
  · exact ⟨.h, rfl, rfl, rfl⟩
  · exact ⟨.H, rfl, rfl, rfl⟩
  · exact ⟨.i, rfl, rfl, rfl⟩
  · exact ⟨.I, rfl, rfl, rfl⟩
  · exact ⟨.l, rfl, rfl, rfl⟩
  · exact ⟨.L, rfl, rfl, rfl⟩
  · exact ⟨.q, rfl, rfl, rfl⟩
  · exact ⟨.Q, rfl, rfl, rfl⟩
  · exact ⟨.f, rfl, rfl, rfl⟩
  · exact ⟨.d, rfl, rfl, rfl⟩

/-- The packed fields are the standard layout of the same characters. -/
theorem exists_codes_of_fieldsFrom {wireFormat body : List Char} {endian : Endian} {i : Nat}
    {fields : List Field} (built : fieldsFrom wireFormat endian i body = .ok fields) :
    ∃ codes, body.mapM Code.ofChar = some codes ∧ ∀ platform offset,
      packFrom platform offset fields = standardFrom (endian.order platform) offset codes := by
  induction body generalizing i fields with
  | nil =>
    cases built
    exact ⟨[], rfl, fun _ _ => rfl⟩
  | cons ch rest ih =>
    rw [fieldsFrom] at built
    cases found : structToNumpy ch with
    | none =>
      rw [found] at built
      cases built
    | some type =>
      rw [found] at built
      cases later : fieldsFrom wireFormat endian (i + 1) rest with
      | error error =>
        rw [later] at built
        cases built
      | ok others =>
        rw [later] at built
        cases built
        obtain ⟨code, ofChar, width, kind⟩ := exists_code_of_structToNumpy found
        obtain ⟨codes, mapped, packed⟩ := ih later
        refine ⟨code :: codes, ?_, fun platform offset => ?_⟩
        · rw [List.mapM_cons, ofChar, mapped]
          rfl
        · rw [packFrom, standardFrom, width, kind, packed]

variable {platform : Platform} {format : List Char}

/-- A format of codes alone has no prefix for `struct` either. -/
theorem layout_of_codes {codes : List Code} (mapped : format.mapM Code.ofChar = some codes) :
    layout platform format = some (.ofPair (nativeFrom platform 0 codes)) := by
  have first {ch : Char} {rest : List Char} (same : format = ch :: rest) (other : Code.ofChar ch = none) : False := by
    rw [same, List.mapM_cons, other] at mapped
    cases mapped
  unfold layout
  split
  case h_6 =>
    rw [mapped]
    rfl
  all_goals exact (first rfl rfl).elim

private theorem layout_of_prefixed {first : Char} {rest : List Char} {endian : Endian} {codes : List Code}
    (known : endianPrefixes first = some endian) (mapped : rest.mapM Code.ofChar = some codes) :
    layout platform (first :: rest) = some (.ofPair (standardFrom (endian.order platform) 0 codes)) := by
  unfold endianPrefixes at known
  split at known
  case h_5 => cases known
  all_goals
    cases known
    rw [layout, mapped]
    rfl

private theorem ofPair_inj {first second : List Item × Nat} :
    RecordLayout.ofPair first = RecordLayout.ofPair second ↔ first = second := by
  rw [RecordLayout.ofPair, RecordLayout.ofPair, RecordLayout.mk.injEq, Prod.ext_iff]

section
variable {numpyInstalled : Bool} {dtype : Dtype}
  (accepted : wireFormatToDtype platform numpyInstalled format = .ok dtype)
include accepted

private theorem exists_fields_of_accepted : ∃ first rest fields, format = first :: rest ∧
      fieldsFrom format (splitFormat format).1 0 (splitFormat format).2 = .ok fields ∧
      dtype = npDtype platform fields := by
  unfold wireFormatToDtype at accepted
  split at accepted
  case isFalse => cases accepted
  case isTrue =>
    cases format with
    | nil => cases accepted
    | cons first rest =>
      cases built : fieldsFrom (first :: rest) (splitFormat (first :: rest)).1 0 (splitFormat (first :: rest)).2 with
      | error error =>
        simp only [List.isEmpty_cons, Bool.false_eq_true, if_false, built] at accepted
        cases accepted
      | ok fields =>
        simp only [List.isEmpty_cons, Bool.false_eq_true, if_false, built] at accepted
        cases accepted
        exact ⟨first, rest, fields, rfl, rfl, rfl⟩

private theorem exists_codes_of_accepted : ∃ codes expected, layout platform format = some expected ∧
      ((prefixed format = true ∧ dtype.layout = expected) ∨
       (prefixed format = false ∧ format.mapM Code.ofChar = some codes ∧
        dtype.layout = .ofPair (standardFrom .little 0 codes) ∧
        expected = .ofPair (nativeFrom platform 0 codes))) := by
  obtain ⟨first, rest, fields, rfl, built, rfl⟩ := exists_fields_of_accepted accepted
  obtain ⟨codes, mapped, packed⟩ := exists_codes_of_fieldsFrom built
  cases known : endianPrefixes first with
  | some endian =>
    simp only [splitFormat, known] at mapped packed
    refine ⟨codes, _, layout_of_prefixed known mapped, .inl ⟨?_, ?_⟩⟩
    · rw [prefixed, known, Option.isSome_some]
    · rw [npDtype, packed]
  | none =>
    simp only [splitFormat, known] at mapped packed
    refine ⟨codes, _, layout_of_codes mapped, .inr ⟨?_, mapped, ?_, rfl⟩⟩
    · rw [prefixed, known, Option.isSome_none]
    · rw [npDtype, packed]
      rfl

end

/-- Under a prefix, and for a format whose native layout is plain, the dtype is the layout of
`struct`; for every other accepted format it is not. -/
theorem dtype_layout_eq_iff (platform : Platform) (numpyInstalled : Bool) (format : List Char) (dtype : Dtype)
    (accepted : wireFormatToDtype platform numpyInstalled format = .ok dtype) :
    ∃ expected, layout platform format = some expected ∧
      (dtype.layout = expected ↔ prefixed format = true ∨ PlainFormat platform format) ∧
      (prefixed format = true ∨ PlainFormat platform format → ∀ bytes,
        dtype.layout.decode bytes = expected.decode bytes) := by
  obtain ⟨codes, expected, found, cases⟩ := exists_codes_of_accepted accepted
  have iff : dtype.layout = expected ↔ prefixed format = true ∨ PlainFormat platform format := by
    rcases cases with ⟨known, same⟩ | ⟨unknown, mapped, packed, rfl⟩
    · exact ⟨fun _ => .inl known, fun _ => same⟩
    · rw [packed, ofPair_inj, standard_eq_native_iff]
      constructor
      · intro plain
        exact .inr ⟨codes, mapped, plain⟩
      · rintro (known | ⟨others, again, plain⟩)
        · rw [unknown] at known
          cases known
        · rw [mapped, Option.some_inj] at again
          rwa [again]
  refine ⟨expected, found, iff, fun holds bytes => ?_⟩
  rw [iff.mpr holds]

def lp64 : Platform where
  order := .little
  longSize := 8
  align code := match code with
    | .b | .B => 1
    | .h | .H => 2
    | .i | .I | .f => 4
    | .l | .L | .q | .Q | .d => 8
  align_pos code := by cases code <;> decide

theorem dtype_layout_eq_execution_event :
    ∃ dtype expected, wireFormatToDtype lp64 true ['<', 'Q', 'Q', 'q', 'q', 'I', 'I'] = .ok dtype ∧
      layout lp64 ['<', 'Q', 'Q', 'q', 'q', 'I', 'I'] = some expected ∧
      dtype.layout = expected ∧ expected.size = 40 := by
  obtain ⟨expected, found, iff, -⟩ := dtype_layout_eq_iff lp64 true ['<', 'Q', 'Q', 'q', 'q', 'I', 'I'] _ rfl
  have size : expected.size = 40 := by
    cases found
    rfl
  exact ⟨_, expected, rfl, found, iff.mpr (.inl rfl), size⟩

/-- Without a prefix `struct` pads `bi` and gives `l` eight bytes. -/
theorem dtype_layout_ne_native : (∃ dtype expected, wireFormatToDtype lp64 true ['b', 'i'] = .ok dtype ∧
      layout lp64 ['b', 'i'] = some expected ∧ dtype.layout.size = 5 ∧ expected.size = 8 ∧
      dtype.layout.items.map Item.offset = [0, 1] ∧ expected.items.map Item.offset = [0, 4]) ∧
    ∃ dtype expected, wireFormatToDtype lp64 true ['l'] = .ok dtype ∧
      layout lp64 ['l'] = some expected ∧ dtype.layout.items.map Item.width = [4] ∧
      expected.items.map Item.width = [8] :=
  ⟨⟨_, _, rfl, rfl, rfl, rfl, rfl, rfl⟩, ⟨_, _, rfl, rfl, rfl, rfl⟩⟩

end AnimusCore.DynamicSchema
