import AnimusCore.Cme.Messages
import AnimusCore.Lib.Ring
import Mathlib.Data.Bool.Count

/-! `decode_packet_into_ring`: every message of a datagram that fits is decoded, one frame
for each entry, and nothing outside the datagram is read. The ring is any type with a
push that says whether it stored the frame. -/

set_option autoImplicit false

namespace AnimusCore.Cme

open Lib Lib.Ring

structure MdBookUpdateFrame where
  sequenceId : UInt64
  recvTimestampNs : UInt64
  transactTimeNs : UInt64
  mdEntryPx : Int64
  rptSeq : UInt32
  packetSequenceNumber : UInt32
  securityId : Int32
  mdEntrySize : Int32
  numberOfOrders : Int32
  mdPriceLevel : UInt8
  mdUpdateAction : UInt8
  mdEntryType : UInt8
  matchEventIndicator : UInt8
  flags : UInt64
  deriving DecidableEq

structure IngestStats where
  packetsMalformed : UInt64 := 0
  messagesDecodedT46 : UInt64 := 0
  messagesSkippedOtherTemplate : UInt64 := 0
  entriesPushed : UInt64 := 0
  entriesRingFullDropped : UInt64 := 0
  deriving DecidableEq

variable {Ring : Type}

/-- What the caller hands in by reference. -/
structure Ingest (Ring : Type) where
  ring : Ring
  nextFrameSequence : UInt64
  stats : IngestStats

namespace Ingest

def malformed (ingest : Ingest Ring) : Ingest Ring :=
  { ingest with
    stats := { ingest.stats with packetsMalformed := ingest.stats.packetsMalformed + 1 } }

def skippedOtherTemplate (ingest : Ingest Ring) : Ingest Ring :=
  { ingest with
    stats := { ingest.stats with
      messagesSkippedOtherTemplate := ingest.stats.messagesSkippedOtherTemplate + 1 } }

def decodedT46 (ingest : Ingest Ring) : Ingest Ring :=
  { ingest with
    stats := { ingest.stats with messagesDecodedT46 := ingest.stats.messagesDecodedT46 + 1 } }

end Ingest

def frameOf (packetHeader : PacketHeader) (arrivalTsNs : UInt64)
    (root : MDIncrementalRefreshBook46) (entry : MDEntry46) (sequenceId : UInt64) : MdBookUpdateFrame where
  sequenceId := sequenceId
  recvTimestampNs := arrivalTsNs
  transactTimeNs := root.transactTime
  mdEntryPx := entry.mdEntryPx
  rptSeq := entry.rptSeq
  packetSequenceNumber := packetHeader.sequenceNumber
  securityId := entry.securityId
  mdEntrySize := entry.mdEntrySize
  numberOfOrders := entry.numberOfOrders
  mdPriceLevel := entry.mdPriceLevel
  mdUpdateAction := entry.mdUpdateAction
  mdEntryType := entry.mdEntryType
  matchEventIndicator := root.matchEventIndicator
  flags := 0

section
variable (push : Ring → MdBookUpdateFrame → Bool × Ring) (buf : Memory) (len : Nat)
variable (arrivalTsNs : UInt64) (packetHeader : PacketHeader)

def Ingest.visit (ingest : Ingest Ring) (root : MDIncrementalRefreshBook46) (entry : MDEntry46) : Ingest Ring :=
  let frame := frameOf packetHeader arrivalTsNs root entry ingest.nextFrameSequence
  let (stored, ring) := push ingest.ring frame
  { ring
    nextFrameSequence := ingest.nextFrameSequence + 1
    stats :=
      if stored then { ingest.stats with entriesPushed := ingest.stats.entriesPushed + 1 }
      else { ingest.stats with
        entriesRingFullDropped := ingest.stats.entriesRingFullDropped + 1 } }

/-- The entry loop, from one pointer of the view to the other; `none` when the loop has
not ended or reads what it may not. -/
def visitEntries (root : MDIncrementalRefreshBook46) (stride last : Nat) :
    Nat → Nat → Ingest Ring → Option (Ingest Ring)
  | 0, _, _ => none
  | fuel + 1, ptr, ingest =>
    if ptr = last then some ingest
    else do
      let entry ← MDEntry46.layout.read buf ptr
      visitEntries root stride last fuel (ptr + stride) (ingest.visit push arrivalTsNs packetHeader root entry)

def decodeMessages (entryFuel : Nat) : Nat → Nat → Ingest Ring → Option (Ingest Ring)
  | 0, _, _ => none
  | fuel + 1, offset, ingest =>
    if add64 offset SbeMessageHeader.layout.width ≤ len then do
      let mh ← SbeMessageHeader.layout.read buf offset
      let rootStart := add64 offset SbeMessageHeader.layout.width
      if add64 rootStart mh.blockLength.toNat > len then return ingest.malformed
      if mh.templateId ≠ 46 then return ingest.skippedOtherTemplate
      if mh.blockLength.toNat < MDIncrementalRefreshBook46.layout.width then
        return ingest.malformed
      let root ← MDIncrementalRefreshBook46.layout.read buf rootStart
      let groupStart := add64 rootStart mh.blockLength.toNat
      if add64 groupStart GroupSizeEncoding.layout.width > len then return ingest.malformed
      let dimension ← GroupSizeEncoding.layout.read buf groupStart
      let firstEntry := groupStart + GroupSizeEncoding.layout.width
      let stride := dimension.blockLength.toNat
      if stride < MDEntry46.layout.width then return ingest.malformed
      if add64 groupStart dimension.byteLength > len then return ingest.malformed
      let ingest ← visitEntries push buf arrivalTsNs packetHeader root stride
        (firstEntry + dimension.numInGroup.toNat * stride) entryFuel firstEntry
        ingest.decodedT46
      decodeMessages entryFuel fuel (add64 groupStart dimension.byteLength) ingest
    else some ingest

def decodePacketIntoRing (fuel : Nat) (ingest : Ingest Ring) : Option (Ingest Ring) :=
  if len < PacketHeader.layout.width then some ingest.malformed
  else do
    let packetHeader ← PacketHeader.layout.read buf 0
    decodeMessages push buf len arrivalTsNs packetHeader fuel fuel PacketHeader.layout.width ingest

end

inductive TailOutcome where
  | nothing
  | malformed
  | skippedOtherTemplate

/-- What the bytes after the last message count as. -/
def tailOutcome (tail : List UInt8) : TailOutcome :=
  if tail.length < 8 then .nothing
  else if tail.length < 8 + fromLE (tail.take 2) then .malformed
  else if fromLE ((tail.drop 2).take 2) ≠ 46 then .skippedOtherTemplate
  else .malformed

def Ingest.finish (ingest : Ingest Ring) : TailOutcome → Ingest Ring
  | .nothing => ingest
  | .malformed => ingest.malformed
  | .skippedOtherTemplate => ingest.skippedOtherTemplate

/-- The entries of the messages in order, each with its message's root block. -/
def entriesOf (messages : List BookMessage) : List (MDIncrementalRefreshBook46 × MDEntry46) :=
  messages.flatMap fun message => message.entries.map fun entry => (message.root, entry.1)

section
variable (push : Ring → MdBookUpdateFrame → Bool × Ring)
variable (arrivalTsNs : UInt64) (packetHeader : PacketHeader)

def framesFrom : UInt64 → List (MDIncrementalRefreshBook46 × MDEntry46) → List MdBookUpdateFrame
  | _, [] => []
  | next, (root, entry) :: rest =>
    frameOf packetHeader arrivalTsNs root entry next :: framesFrom (next + 1) rest

def ringAfter (ring : Ring) (frames : List MdBookUpdateFrame) : Ring :=
  frames.foldl (fun ring frame => (push ring frame).2) ring

/-- What the ring answers to the frames when they are offered in order. -/
def answers : Ring → List MdBookUpdateFrame → List Bool
  | _, [] => []
  | ring, frame :: rest => (push ring frame).1 :: answers (push ring frame).2 rest

/-- Messages were decoded, and these frames offered. -/
def Ingest.after (ingest : Ingest Ring) (decoded : Nat) (frames : List MdBookUpdateFrame) : Ingest Ring where
  ring := ringAfter push ingest.ring frames
  nextFrameSequence := ingest.nextFrameSequence + UInt64.ofNat frames.length
  stats := { ingest.stats with
    messagesDecodedT46 := ingest.stats.messagesDecodedT46 + UInt64.ofNat decoded
    entriesPushed := ingest.stats.entriesPushed + UInt64.ofNat ((answers push ingest.ring frames).count true)
    entriesRingFullDropped := ingest.stats.entriesRingFullDropped +
      UInt64.ofNat ((answers push ingest.ring frames).count false) }

def Ingest.decoded (ingest : Ingest Ring) (message : BookMessage) : Ingest Ring :=
  message.entries.foldl (fun ingest entry => ingest.visit push arrivalTsNs packetHeader message.root entry.1)
    ingest.decodedT46

private theorem length_answers (ring : Ring) (frames : List MdBookUpdateFrame) :
    (answers push ring frames).length = frames.length := by
  induction frames generalizing ring with
  | nil => rfl
  | cons frame rest ih => rw [answers, List.length_cons, List.length_cons, ih]

private theorem answers_append (ring : Ring) (front back : List MdBookUpdateFrame) : answers push ring (front ++ back) =
      answers push ring front ++ answers push (ringAfter push ring front) back := by
  induction front generalizing ring with
  | nil => rfl
  | cons frame rest ih =>
    rw [List.cons_append, answers, ih]
    rfl

private theorem framesFrom_append (next : UInt64) (front back : List (MDIncrementalRefreshBook46 × MDEntry46)) :
    framesFrom arrivalTsNs packetHeader next (front ++ back) = framesFrom arrivalTsNs packetHeader next front ++
        framesFrom arrivalTsNs packetHeader (next + UInt64.ofNat front.length) back := by
  induction front generalizing next with
  | nil => simp [framesFrom]
  | cons pair rest ih =>
    rw [List.cons_append, framesFrom, ih, framesFrom, List.cons_append, List.length_cons,
      Nat.add_comm, UInt64.ofNat_add, ← UInt64.add_assoc]
    rfl

@[simp] theorem length_framesFrom (next : UInt64) (pairs : List (MDIncrementalRefreshBook46 × MDEntry46)) :
    (framesFrom arrivalTsNs packetHeader next pairs).length = pairs.length := by
  induction pairs generalizing next with
  | nil => rfl
  | cons pair rest ih => rw [framesFrom, List.length_cons, List.length_cons, ih]

variable (ingest : Ingest Ring)

theorem Ingest.after_after (first second : Nat) (front back : List MdBookUpdateFrame) :
    (ingest.after push first front).after push second back = ingest.after push (first + second) (front ++ back) := by
  simp only [Ingest.after, answers_append, List.count_append, ringAfter, List.foldl_append,
    List.length_append, UInt64.ofNat_add, UInt64.add_assoc]

theorem Ingest.decodedT46_eq : ingest.decodedT46 = ingest.after push 1 [] := by
  simp [Ingest.after, Ingest.decodedT46, answers, ringAfter]

theorem Ingest.visit_eq (root : MDIncrementalRefreshBook46) (entry : MDEntry46) :
    ingest.visit push arrivalTsNs packetHeader root entry = ingest.after push 0
        [frameOf packetHeader arrivalTsNs root entry ingest.nextFrameSequence] := by
  simp only [Ingest.visit, Ingest.after, answers, ringAfter, List.foldl_cons, List.foldl_nil]
  cases (push ingest.ring (frameOf packetHeader arrivalTsNs root entry ingest.nextFrameSequence)).1 <;> simp

theorem Ingest.foldl_visit {extra : Nat} (root : MDIncrementalRefreshBook46)
    (entries : List (MDEntry46 × Vector UInt8 extra)) :
    entries.foldl (fun ingest entry => ingest.visit push arrivalTsNs packetHeader root entry.1)
      ingest = ingest.after push 0 (framesFrom arrivalTsNs packetHeader ingest.nextFrameSequence
        (entries.map fun entry => (root, entry.1))) := by
  induction entries generalizing ingest with
  | nil => simp [framesFrom, Ingest.after, answers, ringAfter]
  | cons entry rest ih =>
    rw [List.foldl_cons, ih, Ingest.visit_eq, Ingest.after_after]
    rfl

theorem Ingest.decoded_eq (message : BookMessage) : ingest.decoded push arrivalTsNs packetHeader message =
      ingest.after push 1 (framesFrom arrivalTsNs packetHeader ingest.nextFrameSequence (entriesOf [message])) := by
  rw [Ingest.decoded, Ingest.foldl_visit, Ingest.decodedT46_eq push, Ingest.after_after]
  simp [entriesOf, Ingest.after]

theorem Ingest.foldl_decoded (messages : List BookMessage) :
    messages.foldl (fun ingest message => ingest.decoded push arrivalTsNs packetHeader message)
      ingest = ingest.after push messages.length
        (framesFrom arrivalTsNs packetHeader ingest.nextFrameSequence (entriesOf messages)) := by
  induction messages generalizing ingest with
  | nil => simp [entriesOf, framesFrom, Ingest.after, answers, ringAfter]
  | cons message rest ih =>
    have split : entriesOf (message :: rest) = entriesOf [message] ++ entriesOf rest := by
      simp [entriesOf]
    rw [List.foldl_cons, ih, Ingest.decoded_eq, Ingest.after_after, split, framesFrom_append,
      List.length_cons, Nat.add_comm]
    simp [Ingest.after]

end

variable {ingest : Ingest Ring} {tail : List UInt8}

section
variable {push : Ring → MdBookUpdateFrame → Bool × Ring} {buf : Memory} {len : Nat}
variable {arrivalTsNs : UInt64} {packetHeader : PacketHeader}

private theorem visitEntries_encode {root : MDIncrementalRefreshBook46} {extra : Nat}
    (entries : List (MDEntry46 × Vector UInt8 extra)) {ptr fuel : Nat}
    (held : buf.Holds ptr (entries.flatMap encodeEntry)) (enough : entries.length < fuel) :
    visitEntries push buf arrivalTsNs packetHeader root (27 + extra)
      (ptr + entries.length * (27 + extra)) fuel ptr ingest =
      some (entries.foldl (fun ingest entry => ingest.visit push arrivalTsNs packetHeader root entry.1) ingest) := by
  induction entries generalizing ptr fuel ingest with
  | nil =>
    obtain ⟨fuel, rfl⟩ := Nat.exists_eq_succ_of_ne_zero (by omega : fuel ≠ 0)
    simp [visitEntries]
  | cons entry rest ih =>
    obtain ⟨fuel, rfl⟩ := Nat.exists_eq_succ_of_ne_zero (by omega : fuel ≠ 0)
    rw [List.flatMap_cons, Memory.holds_append, length_encodeEntry, encodeEntry, Memory.holds_append] at held
    obtain ⟨⟨entryHeld, -⟩, restHeld⟩ := held
    have more : ptr ≠ ptr + (entry :: rest).length * (27 + extra) := by
      rw [List.length_cons, Nat.succ_mul]
      omega
    have total : ptr + (entry :: rest).length * (27 + extra) = ptr + (27 + extra) + rest.length * (27 + extra) := by
      rw [List.length_cons, Nat.succ_mul]
      omega
    rw [visitEntries, if_neg more, MDEntry46.layout.read_bytes entryHeld, total]
    exact ih restHeld (by simpa using enough)

theorem GroupSizeEncoding.byteLength_le (dimension : GroupSizeEncoding) : dimension.byteLength + 2 ^ 16 ≤ 2 ^ 24 := by
  have count : dimension.numInGroup.toNat ≤ 255 := Nat.le_of_lt_succ dimension.numInGroup.toNat_lt
  have width : dimension.blockLength.toNat ≤ 65535 := Nat.le_of_lt_succ dimension.blockLength.toNat_lt
  have product := Nat.mul_le_mul count width
  rw [byteLength, GroupSizeEncoding.width]
  omega

private theorem decodeMessages_encode (message : BookMessage) {entryFuel fuel offset : Nat}
    (held : buf.Holds offset message.encode) (fits : offset + message.encode.length ≤ len)
    (room : len + 2 ^ 24 ≤ 2 ^ 64) (enough : 256 ≤ entryFuel) :
    decodeMessages push buf len arrivalTsNs packetHeader entryFuel (fuel + 1) offset ingest =
      decodeMessages push buf len arrivalTsNs packetHeader entryFuel fuel (offset + message.encode.length)
        (ingest.decoded push arrivalTsNs packetHeader message) := by
  have blockLength := message.blockLength_toNat
  have stride := message.entryLength_toNat
  have count := message.numInGroup_toNat
  have length := message.length_encode
  have byteLength : message.dimension.byteLength = 3 + message.entries.length * (27 + message.entryExtra) := by
    rw [GroupSizeEncoding.byteLength, stride, count, GroupSizeEncoding.width]
  simp only [BookMessage.encode, Memory.holds_append, List.length_append, Layout.length_bytes,
    SbeMessageHeader.width, MDIncrementalRefreshBook46.width, GroupSizeEncoding.width] at held
  obtain ⟨⟨⟨headerHeld, rootHeld, -⟩, dimensionHeld⟩, entriesHeld⟩ := held
  have rootStart : add64 offset 8 = offset + 8 := add64_eq (by unfold wordSize; omega)
  have groupStart : add64 (offset + 8) (9 + message.rootExtra.length) =
      offset + (8 + (9 + message.rootExtra.length)) := by
    rw [add64_eq (by unfold wordSize; omega), Nat.add_assoc]
  have firstEntry : add64 (offset + (8 + (9 + message.rootExtra.length))) 3 =
      offset + (8 + (9 + message.rootExtra.length)) + 3 := add64_eq (by unfold wordSize; omega)
  have next : add64 (offset + (8 + (9 + message.rootExtra.length)))
      message.dimension.byteLength = offset + message.encode.length := by
    rw [add64_eq (by unfold wordSize; omega)]
    omega
  have entries : visitEntries push buf arrivalTsNs packetHeader message.root (27 + message.entryExtra)
      (offset + (8 + (9 + message.rootExtra.length)) + 3 +
        message.entries.length * (27 + message.entryExtra)) entryFuel
      (offset + (8 + (9 + message.rootExtra.length)) + 3) ingest.decodedT46 =
      some (ingest.decoded push arrivalTsNs packetHeader message) :=
    visitEntries_encode message.entries entriesHeld (Nat.lt_of_lt_of_le message.entries_fit enough)
  have template : message.header.templateId = 46 := rfl
  rw [decodeMessages]
  simp only [SbeMessageHeader.width, MDIncrementalRefreshBook46.width, GroupSizeEncoding.width,
    MDEntry46.width, SbeMessageHeader.layout.read_bytes headerHeld,
    MDIncrementalRefreshBook46.layout.read_bytes rootHeld, blockLength, rootStart, groupStart,
    GroupSizeEncoding.layout.read_bytes dimensionHeld, firstEntry, stride, count, next, template,
    Option.bind_eq_bind, Option.bind_some, entries]
  rw [if_pos (by omega), if_neg (by omega), if_neg (by simp), if_neg (by omega),
    if_neg (by omega), if_neg (by omega), if_neg (by omega)]

private theorem fromLE_header (header : SbeMessageHeader) (rest : List UInt8) :
    fromLE ((SbeMessageHeader.layout.bytes header ++ rest).take 2) = header.blockLength.toNat ∧
      fromLE (((SbeMessageHeader.layout.bytes header ++ rest).drop 2).take 2) = header.templateId.toNat := by
  have bytes : SbeMessageHeader.layout.bytes header ++ rest =
      toLE 2 header.blockLength.toNat ++ (toLE 2 header.templateId.toNat ++
        (toLE 2 header.schemaId.toNat ++ toLE 2 header.version.toNat ++ rest)) := by
    rfl
  rw [bytes, List.take_left' (length_toLE ..), List.drop_left' (length_toLE ..), List.take_left' (length_toLE ..)]
  exact ⟨fromLE_toLE_of_lt header.blockLength.toNat_lt, fromLE_toLE_of_lt header.templateId.toNat_lt⟩

private theorem decodeMessages_tail {entryFuel fuel offset : Nat} (readable : buf.Readable len)
    (held : buf.Holds offset tail) (ends : offset + tail.length = len) (room : len + 2 ^ 24 ≤ 2 ^ 64)
    (noMessage : ∀ message : BookMessage, ¬ message.encode <+: tail) :
    decodeMessages push buf len arrivalTsNs packetHeader entryFuel (fuel + 1) offset ingest =
      some (ingest.finish (tailOutcome tail)) := by
  have rootStart : add64 offset 8 = offset + 8 := add64_eq (by unfold wordSize; omega)
  rw [decodeMessages, tailOutcome]
  simp only [SbeMessageHeader.width, MDIncrementalRefreshBook46.width, GroupSizeEncoding.width,
    MDEntry46.width, rootStart, Option.bind_eq_bind]
  by_cases short : tail.length < 8
  · rw [if_neg (by omega), if_pos short]
    rfl
  · obtain ⟨header, headerHeld⟩ := SbeMessageHeader.layout.exists_bytes readable (show offset + 8 ≤ len by omega)
    obtain ⟨rest, rfl⟩ := held.isPrefix headerHeld (by rw [Layout.length_bytes]; exact not_lt.mp short)
    obtain ⟨blockLength, templateId⟩ := fromLE_header header rest
    have wide := header.blockLength.toNat_lt
    have groupStart : add64 (offset + 8) header.blockLength.toNat =
        offset + 8 + header.blockLength.toNat := add64_eq (by unfold wordSize; omega)
    rw [if_pos (by omega), if_neg short, blockLength, templateId, SbeMessageHeader.layout.read_bytes headerHeld]
    simp only [Option.bind_some, groupStart]
    by_cases overrun : (SbeMessageHeader.layout.bytes header ++ rest).length < 8 + header.blockLength.toNat
    · rw [if_pos (by omega), if_pos overrun]
      rfl
    rw [if_neg (by omega), if_neg overrun]
    have template : header.templateId.toNat = 46 ↔ header.templateId = 46 :=
      show header.templateId.toNat = (46 : UInt16).toNat ↔ _ from UInt16.toNat_inj
    by_cases other : header.templateId ≠ 46
    · rw [if_pos other, if_pos (template.not.mpr other)]
      rfl
    rw [if_neg other, if_neg (template.not.not.mpr other)]
    -- From here every check that fails counts the packet as malformed, and they cannot
    -- all pass, for then the tail would begin with a message.
    by_cases narrow : header.blockLength.toNat < 9
    · rw [if_pos narrow]
      rfl
    obtain ⟨root, rootHeld⟩ := MDIncrementalRefreshBook46.layout.exists_bytes readable
      (show offset + 8 + 9 ≤ len by omega)
    have firstEntry : add64 (offset + 8 + header.blockLength.toNat) 3 =
        offset + 8 + header.blockLength.toNat + 3 := add64_eq (by unfold wordSize; omega)
    simp only [MDIncrementalRefreshBook46.layout.read_bytes rootHeld, Option.bind_some, firstEntry]
    rw [if_neg narrow]
    by_cases noGroup : offset + 8 + header.blockLength.toNat + 3 > len
    · rw [if_pos noGroup]
      rfl
    obtain ⟨dimension, dimensionHeld⟩ := GroupSizeEncoding.layout.exists_bytes readable (not_lt.mp noGroup)
    have small := dimension.byteLength_le
    have next : add64 (offset + 8 + header.blockLength.toNat) dimension.byteLength =
        offset + 8 + header.blockLength.toNat + dimension.byteLength :=
      add64_eq (by unfold wordSize; omega)
    simp only [GroupSizeEncoding.layout.read_bytes dimensionHeld, Option.bind_some, next]
    rw [if_neg noGroup]
    by_cases thin : dimension.blockLength.toNat < 27
    · rw [if_pos thin]
      rfl
    rw [if_neg thin]
    by_cases long : offset + 8 + header.blockLength.toNat + dimension.byteLength > len
    · rw [if_pos long]
      rfl
    obtain ⟨message, messageHeld, fits⟩ := exists_message readable headerHeld dimensionHeld
      ⟨not_not.mp other, not_lt.mp narrow, not_lt.mp thin, not_lt.mp long⟩
    exact (noMessage message (held.isPrefix messageHeld (by omega))).elim

private theorem decodeMessages_all (messages : List BookMessage) {entryFuel fuel offset : Nat}
    (readable : buf.Readable len) (held : buf.Holds offset (messages.flatMap BookMessage.encode ++ tail))
    (ends : offset + (messages.flatMap BookMessage.encode ++ tail).length = len) (room : len + 2 ^ 24 ≤ 2 ^ 64)
    (noMessage : ∀ message : BookMessage, ¬ message.encode <+: tail) (enough : messages.length < fuel)
    (enoughEntries : 256 ≤ entryFuel) :
    decodeMessages push buf len arrivalTsNs packetHeader entryFuel fuel offset ingest =
      some ((messages.foldl (fun ingest message => ingest.decoded push arrivalTsNs packetHeader message)
        ingest).finish (tailOutcome tail)) := by
  induction messages generalizing offset fuel ingest with
  | nil =>
    obtain ⟨fuel, rfl⟩ := Nat.exists_eq_succ_of_ne_zero (by omega : fuel ≠ 0)
    exact decodeMessages_tail readable held ends room noMessage
  | cons message rest ih =>
    obtain ⟨fuel, rfl⟩ := Nat.exists_eq_succ_of_ne_zero (by omega : fuel ≠ 0)
    rw [List.flatMap_cons, List.append_assoc] at held ends
    rw [Memory.holds_append] at held
    rw [List.length_append] at ends
    rw [decodeMessages_encode message held.1 (by omega) room enoughEntries]
    exact ih held.2 (by omega) (by simpa using enough)

end

def datagram (header : PacketHeader) (messages : List BookMessage) (tail : List UInt8) : List UInt8 :=
  PacketHeader.layout.bytes header ++ (messages.flatMap BookMessage.encode ++ tail)

private theorem length_datagram (header : PacketHeader) (messages : List BookMessage)
    (tail : List UInt8) : (datagram header messages tail).length =
      12 + ((messages.flatMap BookMessage.encode).length + tail.length) := by
  simp only [datagram, List.length_append, Layout.length_bytes, PacketHeader.width]

/-- Every entry takes its 27 bytes, and every message its headers. -/
theorem entries_fit_bytes (messages : List BookMessage) :
    27 * (entriesOf messages).length + messages.length ≤ (messages.flatMap BookMessage.encode).length := by
  induction messages with
  | nil => exact Nat.le_refl 0
  | cons message rest ih =>
    have wide : 27 * message.entries.length ≤ message.entries.length * (27 + message.entryExtra) := by
      rw [Nat.mul_add, Nat.mul_comm 27]
      exact Nat.le_add_right _ _
    have count : (entriesOf (message :: rest)).length = message.entries.length + (entriesOf rest).length := by
      simp [entriesOf]
    rw [count, List.flatMap_cons, List.length_append, message.length_encode, List.length_cons]
    omega

/-- Any bytes are a list of messages and a tail that begins with none. -/
theorem exists_messages (bytes : List UInt8) : ∃ (messages : List BookMessage) (tail : List UInt8),
      bytes = messages.flatMap BookMessage.encode ++ tail ∧ ∀ message : BookMessage, ¬ message.encode <+: tail := by
  by_cases begins : ∃ message : BookMessage, message.encode <+: bytes
  · obtain ⟨message, rest, rfl⟩ := begins
    have shorter : rest.length < (message.encode ++ rest).length := by
      rw [List.length_append, message.length_encode]
      omega
    obtain ⟨messages, tail, same, noMessage⟩ := exists_messages rest
    refine ⟨message :: messages, tail, ?_, noMessage⟩
    rw [List.flatMap_cons, List.append_assoc, ← same]
  · exact ⟨[], bytes, rfl, not_exists.mp begins⟩
termination_by bytes.length

section
variable {push : Ring → MdBookUpdateFrame → Bool × Ring} {buf : Memory}
variable {arrivalTsNs : UInt64} {header : PacketHeader} {messages : List BookMessage}
variable {tail : List UInt8}

private theorem decodePacketIntoRing_datagram {fuel : Nat} (held : buf.Holds 0 (datagram header messages tail))
    (room : (datagram header messages tail).length + 2 ^ 24 ≤ 2 ^ 64)
    (noMessage : ∀ message : BookMessage, ¬ message.encode <+: tail)
    (enough : (datagram header messages tail).length + 256 ≤ fuel) :
    decodePacketIntoRing push buf (datagram header messages tail).length arrivalTsNs fuel ingest =
      some ((ingest.after push messages.length (framesFrom arrivalTsNs header
        ingest.nextFrameSequence (entriesOf messages))).finish (tailOutcome tail)) := by
  have length := length_datagram header messages tail
  have readable := held.readable
  have bytes := entries_fit_bytes messages
  rw [datagram, Memory.holds_append, Layout.length_bytes] at held
  rw [decodePacketIntoRing, PacketHeader.width, if_neg (by omega),
    PacketHeader.layout.read_bytes held.1, ← Ingest.foldl_decoded]
  have ends : 12 + (messages.flatMap BookMessage.encode ++ tail).length =
      (datagram header messages tail).length := by rw [length, List.length_append]
  exact decodeMessages_all messages readable held.2 ends room noMessage (by omega) (by omega)

end

private theorem exists_datagram {buf : Memory} {len : Nat} (readable : buf.Readable len) (long : 12 ≤ len) :
    ∃ (header : PacketHeader) (messages : List BookMessage) (tail : List UInt8),
      buf.Holds 0 (datagram header messages tail) ∧ (datagram header messages tail).length = len ∧
      ∀ message : BookMessage, ¬ message.encode <+: tail := by
  obtain ⟨header, headerHeld⟩ := PacketHeader.layout.exists_bytes readable (show 0 + 12 ≤ len by omega)
  obtain ⟨bytes, read⟩ := readable.exists_read (show 0 + 12 + (len - 12) ≤ len by omega)
  obtain ⟨messages, tail, same, noMessage⟩ := exists_messages bytes
  have total := Memory.length_of_read read
  rw [same, List.length_append] at total
  refine ⟨header, messages, tail, ?_, by rw [length_datagram]; omega, noMessage⟩
  rw [datagram, Memory.holds_append, ← same, Layout.length_bytes]
  exact ⟨headerHeld, Memory.holds_of_read read⟩

/-- A message of one entry, with one byte more in its root block and in the entry. -/
def sampleMessage : BookMessage where
  schemaId := 1
  version := 9
  root := ⟨1000, 0x40⟩
  rootExtra := [255]
  root_fits := by decide
  entryExtra := 1
  entry_fits := by decide
  entries := [(⟨5, 10, 7, 1, 2, 1, 0, 48⟩, #v[255])]
  entries_fit := by decide

private theorem not_isPrefix_short (message : BookMessage) (short : tail.length < 20) : ¬ message.encode <+: tail := by
  intro begins
  have le := begins.length_le
  rw [message.length_encode] at le
  omega

theorem decode_packet_in_bounds (push : Ring → MdBookUpdateFrame → Bool × Ring) (buf : Memory) (len : Nat)
    (arrivalTsNs : UInt64) (ingest : Ingest Ring) (small : len < 2 ^ 62) (readable : buf.Readable len) :
    ∃ (final : Ingest Ring) (frames : List MdBookUpdateFrame), final.ring = ringAfter push ingest.ring frames ∧
      final.nextFrameSequence = ingest.nextFrameSequence + UInt64.ofNat frames.length ∧ frames.length ≤ len / 27 ∧
      ∀ (other : Memory) (fuel : Nat), (∀ offset < len, other offset = buf offset) → len + 256 ≤ fuel →
        decodePacketIntoRing push other len arrivalTsNs fuel ingest = some final := by
  by_cases short : len < 12
  · refine ⟨ingest.malformed, [], rfl, by simp [Ingest.malformed], Nat.zero_le _, ?_⟩
    intro other fuel same enough
    rw [decodePacketIntoRing, PacketHeader.width, if_pos short]
  · obtain ⟨header, messages, tail, held, rfl, noMessage⟩ := exists_datagram readable (not_lt.mp short)
    have bytes := entries_fit_bytes messages
    have length := length_datagram header messages tail
    let frames := framesFrom arrivalTsNs header ingest.nextFrameSequence (entriesOf messages)
    refine ⟨(ingest.after push messages.length frames).finish (tailOutcome tail), frames, ?_, ?_,
      ?_, fun other fuel same enough => ?_⟩
    · cases tailOutcome tail <;> rfl
    · cases tailOutcome tail <;> rfl
    · rw [length_framesFrom]
      omega
    · exact decodePacketIntoRing_datagram (held.congr fun offset _ inside =>
        same offset (by omega)) (by omega) noMessage enough

/-- Two messages with wider blocks, and two frames; beyond the datagram nothing is read. -/
theorem decode_packet_in_bounds_two_messages : ∃ (buf : Memory) (len : Nat) (final : Ingest Nat),
      buf.Holds 0 (datagram ⟨4, 900⟩ [sampleMessage, sampleMessage] [3]) ∧ final.ring = 2 ∧
      ∀ (other : Memory) (fuel : Nat), (∀ offset < len, other offset = buf offset) → len + 256 ≤ fuel →
        decodePacketIntoRing (fun ring _ => (true, ring + 1)) other len 77 fuel ⟨0, 0, {}⟩ = some final := by
  let bytes := datagram ⟨4, 900⟩ [sampleMessage, sampleMessage] [3]
  have held : (Memory.ofBytes bytes).Holds 0 bytes := by
    have whole := Memory.ofBytes_holds [] bytes []
    rwa [List.nil_append, List.append_nil] at whole
  obtain ⟨final, -, -, -, -, runs⟩ := decode_packet_in_bounds (fun ring _ => (true, ring + 1))
    (Memory.ofBytes bytes) bytes.length 77 (⟨0, 0, {}⟩ : Ingest Nat) (by decide) held.readable
  have decoded := runs _ _ (fun _ _ => rfl) (Nat.le_refl _)
  rw [decodePacketIntoRing_datagram held (by decide) (fun message => not_isPrefix_short message (by decide))
    (Nat.le_refl _)] at decoded
  refine ⟨_, _, final, held, ?_, runs⟩
  rw [← Option.some.inj decoded]
  decide

end AnimusCore.Cme
