import AnimusCore.Transport.Channel
import Mathlib.Data.List.Infix

/-! Framing: no record holds bytes of two messages, so after each message the plaintext
buffer is empty, and the channel asks the socket only for bytes of the message it is
receiving. -/

set_option autoImplicit false

namespace AnimusCore.Transport

open Lib List

namespace RecordLayer

variable (layer : RecordLayer)

private theorem encrypt_ne_nil (record : Nat) (data : List UInt8) : layer.encrypt record data ≠ [] := by
  -- An empty record would be a complete one and a part of any other.
  intro empty
  have complete := layer.decrypt_encrypt record data []
  rw [empty] at complete
  have other := layer.decrypt_encrypt record (0 :: data) []
  by_cases alsoEmpty : layer.encrypt record (0 :: data) = []
  · rw [alsoEmpty, complete] at other
    simp at other
  · have part := layer.decrypt_part record (0 :: data) [] nil_prefix (Ne.symm alsoEmpty)
    rw [nil_append, part] at complete
    cases complete

def wire : Nat → List (List UInt8) → List UInt8
  | _, [] => []
  | record, data :: rest => layer.encrypt record data ++ wire (record + 1) rest

private theorem wire_append (record : Nat) (front back : List (List UInt8)) : layer.wire record (front ++ back) =
      layer.wire record front ++ layer.wire (record + front.length) back := by
  induction front generalizing record with
  | nil => rfl
  | cons data rest ih =>
    rw [cons_append, wire, wire, ih, append_assoc, length_cons, Nat.add_right_comm, Nat.add_assoc]

private theorem length_le_wire (record : Nat) (records : List (List UInt8)) :
    records.length ≤ (layer.wire record records).length := by
  induction records generalizing record with
  | nil => exact Nat.le_refl 0
  | cons data rest ih =>
    have nonempty := length_pos_iff.mpr (layer.encrypt_ne_nil record data)
    have more := ih (record + 1)
    rw [length_cons, wire, length_append]
    omega

end RecordLayer

variable {data : List UInt8} {fuel : Nat}

section
variable {channel : Outgoing}

/-- Chunks that together are the data, none of them empty. -/
structure Chunks (data : List UInt8) (records : List (List UInt8)) : Prop where
  flatten : records.flatten = data
  nonempty : ∀ record ∈ records, record ≠ []

private theorem sendChunks_eq {maxMsg : Nat} (positive : 0 < maxMsg) {offset : Nat}
    (inside : offset ≤ data.length) (enough : data.length < offset + fuel) (sender : Sender) :
    ∃ records, Chunks (data.drop offset) records ∧ channel.sendChunks maxMsg data fuel offset sender = some
        { record := sender.record + records.length
          sent := sender.sent ++ channel.layer.wire sender.record records } := by
  induction fuel generalizing offset sender with
  | zero => omega
  | succ fuel ih =>
    rw [Outgoing.sendChunks]
    by_cases more : offset < data.length
    · rw [if_pos more]
      generalize size : (if data.length - offset < maxMsg then data.length - offset
        else maxMsg) = chunk
      have bounds : 0 < chunk ∧ chunk ≤ data.length - offset := by
        split at size <;> omega
      obtain ⟨records, chunks, sent⟩ := ih (show offset + chunk ≤ data.length by omega)
        (by omega) { record := sender.record + 1
                     sent := sender.sent ++ channel.layer.encrypt sender.record ((data.drop offset).take chunk) }
      refine ⟨(data.drop offset).take chunk :: records, ⟨?_, ?_⟩, ?_⟩
      · rw [flatten_cons, chunks.flatten, ← drop_drop, take_append_drop]
      · intro record member
        rcases mem_cons.mp member with rfl | member
        · rw [← length_pos_iff, length_take, length_drop]
          omega
        · exact chunks.nonempty record member
      · rw [sent, RecordLayer.wire, length_cons, append_assoc]
        congr 2
        show sender.record + 1 + records.length = sender.record + (records.length + 1)
        omega
    · rw [if_neg more]
      refine ⟨[], ⟨?_, nofun⟩, ?_⟩
      · rw [drop_eq_nil_of_le (by omega)]
        rfl
      · simp [RecordLayer.wire]

private theorem sendRaw_eq (positive : 0 < channel.cbMaximumMessage) (enough : data.length < fuel) (sender : Sender) :
    ∃ records, Chunks data records ∧ channel.sendRaw fuel data sender = some
      { record := sender.record + records.length
        sent := sender.sent ++ channel.layer.wire sender.record records } := by
  have first : channel.cbMaximumMessage ≠ 0 := by omega
  simp only [Outgoing.sendRaw, ne_eq, first, not_false_eq_true, if_true, if_false]
  exact sendChunks_eq positive (Nat.zero_le _) (by omega) sender

private theorem sendMessage_eq (channel : Outgoing) (positive : 0 < channel.cbMaximumMessage)
    {payload : List UInt8} (enough : payload.length + 4 < fuel) (sender : Sender) :
    ∃ header body, Chunks (toLE 4 payload.length) header ∧ Chunks payload body ∧
      channel.sendMessage fuel payload sender = some
        { record := sender.record + (header ++ body).length
          sent := sender.sent ++ channel.layer.wire sender.record (header ++ body) } := by
  obtain ⟨header, headerChunks, headerSent⟩ := sendRaw_eq positive
    (show (toLE 4 payload.length).length < fuel by rw [length_toLE]; omega) sender
  rw [Outgoing.sendMessage, headerSent]
  simp only [Option.bind_eq_bind, Option.bind_some]
  by_cases empty : payload = []
  · refine ⟨header, [], headerChunks, ⟨empty.symm, nofun⟩, ?_⟩
    rw [if_pos empty, append_nil]
    rfl
  · obtain ⟨body, bodyChunks, bodySent⟩ := sendRaw_eq positive (show payload.length < fuel by omega)
      { record := sender.record + header.length
        sent := sender.sent ++ channel.layer.wire sender.record header }
    refine ⟨header, body, headerChunks, bodyChunks, ?_⟩
    rw [if_neg empty, bodySent, length_append, RecordLayer.wire_append, append_assoc, Nat.add_assoc]

end

/-- Whenever the socket was asked in between, it held more than `later` bytes. -/
def AsksAbove (later : Nat) (before after : Receiver) : Prop :=
  ∃ more, after.asked = before.asked ++ more ∧ ∀ held ∈ more, later < held

theorem AsksAbove.refl (later : Nat) (receiver : Receiver) : AsksAbove later receiver receiver :=
  ⟨[], (append_nil _).symm, nofun⟩

theorem AsksAbove.trans {later : Nat} {before middle after : Receiver} (first : AsksAbove later before middle)
    (second : AsksAbove later middle after) : AsksAbove later before after := by
  obtain ⟨more, asked, above⟩ := first
  obtain ⟨more', asked', above'⟩ := second
  refine ⟨more ++ more', by rw [asked', asked, append_assoc], fun held member => ?_⟩
  rcases mem_append.mp member with member | member
  · exact above held member
  · exact above' held member

/-- What a part of a call does: data is decrypted and its wire bytes are consumed. -/
structure Advances (later : Nat) (before after : Receiver) (data taken : List UInt8) (records : Nat) : Prop where
  plaintext : after.plaintextBuf = before.plaintextBuf ++ data
  record : after.record = before.record + records
  wire : before.recvBuf ++ before.pending = taken ++ (after.recvBuf ++ after.pending)
  pending : after.pending.length ≤ before.pending.length
  asked : AsksAbove later before after

namespace Advances

variable {later : Nat} {before middle after : Receiver}

theorem refl (receiver : Receiver) : Advances later receiver receiver [] [] 0 where
  plaintext := (append_nil _).symm
  record := rfl
  wire := rfl
  pending := Nat.le_refl _
  asked := .refl later receiver

theorem trans {data' taken taken' : List UInt8} {records records' : Nat}
    (first : Advances later before middle data taken records)
    (second : Advances later middle after data' taken' records') :
    Advances later before after (data ++ data') (taken ++ taken') (records + records') where
  plaintext := by rw [second.plaintext, first.plaintext, append_assoc]
  record := by rw [second.record, first.record, Nat.add_assoc]
  wire := by rw [first.wire, second.wire, append_assoc]
  pending := second.pending.trans first.pending
  asked := first.asked.trans second.asked

end Advances

variable {receiver : Receiver}

section
variable {channel : Incoming} {later : Nat}

private theorem recvSome_eq (channel : Incoming) (more : later < receiver.pending.length) :
    ∃ next, channel.recvSome receiver = some next ∧ Advances later receiver next [] [] 0 ∧
      next.pending.length < receiver.pending.length := by
  have positive := channel.pieces_pos receiver.asked.length
  have nonempty : receiver.pending ≠ [] := length_pos_iff.mp (by omega)
  rw [Incoming.recvSome, if_neg nonempty]
  refine ⟨_, rfl, ⟨(append_nil _).symm, rfl, ?_, ?_, ⟨_, rfl, ?_⟩⟩, ?_⟩
  · rw [nil_append, append_assoc, take_append_drop]
  · rw [length_drop]
    exact Nat.sub_le _ _
  · intro held member
    rw [mem_singleton.mp member]
    exact more
  · rw [length_drop]
    omega

private theorem refill_eq (more : later < receiver.recvBuf.length + receiver.pending.length) :
    ∃ ready, channel.refill receiver = some ready ∧ Advances later receiver ready [] [] 0 := by
  rw [Incoming.refill]
  by_cases empty : receiver.recvBuf = []
  · rw [empty, length_nil, Nat.zero_add] at more
    obtain ⟨next, asked, advance, -⟩ := recvSome_eq channel more
    exact ⟨next, by rw [if_pos empty, asked], advance⟩
  · exact ⟨receiver, if_neg empty, .refl receiver⟩

/-- The record in front is decrypted, from whatever part of it is buffered. -/
theorem decryptOneRecord_eq {rest : List UInt8}
    (front : receiver.recvBuf ++ receiver.pending = channel.layer.encrypt receiver.record data ++ rest)
    (behind : later ≤ rest.length) (enough : receiver.pending.length < fuel) :
    ∃ after, channel.decryptOneRecord fuel receiver = some after ∧
      Advances later receiver after data (channel.layer.encrypt receiver.record data) 1 := by
  induction fuel generalizing receiver with
  | zero => omega
  | succ fuel ih =>
    have nonempty := length_pos_iff.mpr (channel.layer.encrypt_ne_nil receiver.record data)
    have lengths := congrArg List.length front
    rw [length_append, length_append] at lengths
    obtain ⟨ready, first, advance⟩ : ∃ ready, channel.refill receiver = some ready ∧
        Advances later receiver ready [] [] 0 := refill_eq (by omega)
    have le := advance.pending
    have sameRecord : ready.record = receiver.record := advance.record
    have frontReady : ready.recvBuf ++ ready.pending = channel.layer.encrypt ready.record data ++ rest := by
      rw [sameRecord, ← front, advance.wire]
      rfl
    rw [Incoming.decryptOneRecord, first]
    simp only [Option.bind_eq_bind, Option.bind_some]
    have held : ready.recvBuf <+: channel.layer.encrypt ready.record data ++ rest := ⟨_, frontReady⟩
    by_cases complete : (channel.layer.encrypt ready.record data).length ≤ ready.recvBuf.length
    · obtain ⟨extra, buffered⟩ := prefix_of_prefix_length_le (prefix_append _ rest) held complete
      have decrypted : channel.layer.decrypt ready.record ready.recvBuf = some (data, extra) := by
        rw [← buffered]
        exact channel.layer.decrypt_encrypt ..
      rw [decrypted]
      have last : Advances later ready
          { ready with
            recvBuf := extra
            plaintextBuf := ready.plaintextBuf ++ data
            record := ready.record + 1 }
          data (channel.layer.encrypt ready.record data) 1 :=
        ⟨rfl, rfl, by rw [← buffered, append_assoc], Nat.le_refl _, .refl later ready⟩
      rw [← sameRecord]
      exact ⟨_, rfl, advance.trans last⟩
    · have part : ready.recvBuf <+: channel.layer.encrypt ready.record data :=
        prefix_of_prefix_length_le held (prefix_append _ rest) (by omega)
      have strict : ready.recvBuf ≠ channel.layer.encrypt ready.record data := by
        intro same
        rw [same] at complete
        exact complete (Nat.le_refl _)
      rw [channel.layer.decrypt_part _ _ _ part strict]
      have total := congrArg List.length frontReady
      rw [length_append, length_append] at total
      obtain ⟨next, asked, further, less⟩ := recvSome_eq channel (show later < ready.pending.length by omega)
      have nextRecord : next.record = receiver.record := further.record.trans sameRecord
      have frontNext : next.recvBuf ++ next.pending = channel.layer.encrypt next.record data ++ rest := by
        rw [nextRecord, ← sameRecord, ← frontReady, further.wire]
        rfl
      obtain ⟨after, decrypted, last⟩ := ih frontNext (by omega)
      rw [← nextRecord]
      simp only [asked, Option.bind_some]
      exact ⟨after, decrypted, (advance.trans further).trans last⟩

/-- Records that together are exactly what is missing are all decrypted, and no more. -/
theorem fill_eq {n rounds : Nat} (records : List (List UInt8)) {rest : List UInt8}
    (nonempty : ∀ record ∈ records, record ≠ []) (missing : receiver.plaintextBuf.length + records.flatten.length = n)
    (front : receiver.recvBuf ++ receiver.pending = channel.layer.wire receiver.record records ++ rest)
    (behind : later ≤ rest.length) (enough : receiver.pending.length < fuel)
    (enoughRounds : records.length < rounds) : ∃ after, channel.fill fuel n rounds receiver = some after ∧
      Advances later receiver after records.flatten (channel.layer.wire receiver.record records) records.length := by
  induction records generalizing receiver rounds with
  | nil =>
    obtain ⟨rounds, rfl⟩ := Nat.exists_eq_succ_of_ne_zero (by omega : rounds ≠ 0)
    have full : ¬ receiver.plaintextBuf.length < n := by
      rw [flatten_nil, length_nil] at missing
      omega
    exact ⟨receiver, by rw [Incoming.fill, if_neg full], .refl receiver⟩
  | cons data others ih =>
    obtain ⟨rounds, rfl⟩ := Nat.exists_eq_succ_of_ne_zero (by omega : rounds ≠ 0)
    rw [flatten_cons, length_append] at missing
    have some_data := length_pos_iff.mpr (nonempty data mem_cons_self)
    rw [RecordLayer.wire, append_assoc] at front
    obtain ⟨next, decrypted, first⟩ := decryptOneRecord_eq front
      (show later ≤ (channel.layer.wire (receiver.record + 1) others ++ rest).length by
        rw [length_append]; omega) enough
    have text : next.plaintextBuf.length = receiver.plaintextBuf.length + data.length := by
      rw [first.plaintext, length_append]
    have frontNext : next.recvBuf ++ next.pending = channel.layer.wire next.record others ++ rest := by
      have wires := first.wire
      rw [front, append_cancel_left_eq] at wires
      rw [first.record, wires]
    obtain ⟨after, filled, others_read⟩ := ih
      (fun record member => nonempty record (mem_cons_of_mem _ member)) (by omega) frontNext
      (Nat.lt_of_le_of_lt first.pending enough) (by simpa using enoughRounds)
    refine ⟨after, ?_, ?_⟩
    · rw [Incoming.fill, if_pos (by omega), decrypted]
      exact filled
    · rw [flatten_cons, RecordLayer.wire, length_cons, ← first.record, Nat.add_comm others.length]
      exact first.trans others_read

/-- The receiver between two calls: nothing is decrypted, and the wire bytes from this
record on are buffered or pending. -/
structure Boundary (receiver : Receiver) (record : Nat) (wire : List UInt8) : Prop where
  plaintext : receiver.plaintextBuf = []
  record : receiver.record = record
  wire : receiver.recvBuf ++ receiver.pending = wire

/-- The bytes of a run of records are handed back, and the rest is left. -/
theorem recvExact_eq {record : Nat} {rest : List UInt8} {records : List (List UInt8)} (chunks : Chunks data records)
    (boundary : Boundary receiver record (channel.layer.wire record records ++ rest)) (behind : later ≤ rest.length)
    (enough : (channel.layer.wire record records ++ rest).length < fuel) :
    ∃ after, channel.recvExact fuel data.length receiver = some (data, after) ∧
      Boundary after (record + records.length) rest ∧ AsksAbove later receiver after := by
  obtain ⟨drained, rfl, front⟩ := boundary
  have total := congrArg List.length front
  have count := channel.layer.length_le_wire receiver.record records
  rw [length_append] at total enough
  rw [length_append] at total
  have missing : receiver.plaintextBuf.length + records.flatten.length = data.length := by
    rw [drained, chunks.flatten, length_nil, Nat.zero_add]
  obtain ⟨full, filled, advance⟩ := fill_eq records chunks.nonempty missing front behind
    (show receiver.pending.length < fuel by omega) (show records.length < fuel by omega)
  have text : full.plaintextBuf = data := by
    rw [advance.plaintext, drained, chunks.flatten, nil_append]
  have wires := advance.wire
  rw [front, append_cancel_left_eq] at wires
  refine ⟨{ full with plaintextBuf := [] }, ?_, ⟨rfl, advance.record, wires.symm⟩, advance.asked⟩
  simp [Incoming.recvExact, filled, text]

theorem recvMessage_eq (channel : Incoming) {record : Nat} {payload rest : List UInt8}
    {header body : List (List UInt8)} (headerChunks : Chunks (toLE 4 payload.length) header)
    (bodyChunks : Chunks payload body) (small : payload.length ≤ 64 * 1024 * 1024)
    (boundary : Boundary receiver record (channel.layer.wire record (header ++ body) ++ rest))
    (enough : (channel.layer.wire record (header ++ body) ++ rest).length < fuel) :
    ∃ after, channel.recvMessage fuel receiver = some (some payload, after) ∧
      Boundary after (record + (header ++ body).length) rest ∧ AsksAbove rest.length receiver after := by
  rw [RecordLayer.wire_append, append_assoc] at boundary enough
  obtain ⟨middle, headerRead, middleBoundary, headerAsks⟩ := recvExact_eq headerChunks boundary
    (show rest.length ≤ (channel.layer.wire (record + header.length) body ++ rest).length by
      rw [length_append]; omega) enough
  obtain ⟨after, bodyRead, afterBoundary, bodyAsks⟩ := recvExact_eq bodyChunks middleBoundary
    (Nat.le_refl rest.length)
    (show (channel.layer.wire (record + header.length) body ++ rest).length < fuel by
      rw [length_append] at enough; omega)
  refine ⟨after, ?_, ?_, ?_⟩
  · have prefixed : fromLE (toLE 4 payload.length) = payload.length :=
      fromLE_toLE_of_lt (Nat.lt_of_le_of_lt small (by decide))
    rw [length_toLE] at headerRead
    rw [Incoming.recvMessage, headerRead]
    simp only [Option.bind_eq_bind, Option.bind_some, prefixed]
    rw [if_neg (by omega), bodyRead]
    rfl
  · rw [length_append, ← Nat.add_assoc]
    exact afterBoundary
  · exact headerAsks.trans bodyAsks

end

/-- A returned call left the later messages, and asked only for bytes of its own. -/
structure Reception.Exact (reception : Reception) (later : List UInt8) : Prop where
  plaintext : reception.after.plaintextBuf = []
  buffered : reception.after.recvBuf ++ reception.after.pending = later
  asked : ∀ held ∈ reception.asked, later.length < held

theorem exchange (layer : RecordLayer) {cbMaximumMessage : Nat} (positive : 0 < cbMaximumMessage)
    {pieces : Nat → Nat} (pieces_pos : ∀ call, 0 < pieces call) {payloads : List (List UInt8)}
    (small : ∀ payload ∈ payloads, payload.length ≤ 64 * 1024 * 1024)
    (enough : 64 * 1024 * 1024 + 4 < fuel) (record : Nat) :
    ∃ wires, Outgoing.sendMessages ⟨layer, cbMaximumMessage⟩ fuel record payloads = some wires ∧
      ∀ (rounds : Nat) (receiver : Receiver), wires.flatten.length < rounds → Boundary receiver record wires.flatten →
        ∃ receptions, Incoming.recvMessages ⟨layer, pieces, pieces_pos⟩ rounds payloads.length
            receiver = some receptions ∧ receptions.map Reception.payload = payloads.map some ∧
          ∀ (call : Nat) (reception : Reception), receptions[call]? = some reception →
            reception.Exact (wires.drop (call + 1)).flatten := by
  induction payloads generalizing record with
  | nil =>
    refine ⟨[], rfl, fun rounds receiver _ _ => ⟨[], rfl, rfl, fun call reception found => ?_⟩⟩
    cases found
  | cons payload rest ih =>
    have fits := small payload mem_cons_self
    obtain ⟨header, body, headerChunks, bodyChunks, sent⟩ := sendMessage_eq ⟨layer, cbMaximumMessage⟩ positive
        (show payload.length + 4 < fuel by omega) { record, sent := [] }
    obtain ⟨wires, restSent, receive⟩ := ih (fun other member => small other (mem_cons_of_mem _ member))
      (record + (header ++ body).length)
    refine ⟨layer.wire record (header ++ body) :: wires, ?_, fun rounds receiver more start => ?_⟩
    · rw [Outgoing.sendMessages, sent]
      simp only [Option.bind_eq_bind, Option.bind_some, restSent, nil_append]
      rfl
    · rw [flatten_cons] at more start
      obtain ⟨after, received, boundary, ⟨asks, asked, above⟩⟩ :=
        recvMessage_eq ⟨layer, pieces, pieces_pos⟩ headerChunks bodyChunks fits start more
      obtain ⟨receptions, restReceived, payloads, exact⟩ := receive rounds after
        (by rw [length_append] at more; omega) boundary
      refine ⟨⟨some payload, after, asks⟩ :: receptions, ?_, ?_, ?_⟩
      · rw [length_cons, Incoming.recvMessages, received]
        simp only [Option.bind_eq_bind, Option.bind_some, restReceived, asked, drop_left]
        rfl
      · rw [map_cons, map_cons, payloads]
      · intro call reception found
        cases call with
        | zero =>
          cases found
          exact ⟨boundary.plaintext, boundary.wire, above⟩
        | succ call => exact exact call reception found

theorem framing_round_trip (layer : RecordLayer) (cbMaximumMessage : Nat) (positive : 1 ≤ cbMaximumMessage)
    (pieces : Nat → Nat) (pieces_pos : ∀ call, 0 < pieces call) (payloads : List (List UInt8))
    (small : ∀ payload ∈ payloads, payload.length ≤ 64 * 1024 * 1024) (fuel : Nat)
    (enough : 64 * 1024 * 1024 + 4 < fuel) :
    ∃ wires, Outgoing.sendMessages ⟨layer, cbMaximumMessage⟩ fuel 0 payloads = some wires ∧
      ∀ rounds, wires.flatten.length < rounds →
        ∃ receptions, Incoming.recvMessages ⟨layer, pieces, pieces_pos⟩ rounds payloads.length
            { pending := wires.flatten } = some receptions ∧
          receptions.map Reception.payload = payloads.map some ∧
          ∀ (call : Nat) (reception : Reception), receptions[call]? = some reception →
            reception.Exact (wires.drop (call + 1)).flatten := by
  obtain ⟨wires, sent, receive⟩ := exchange layer positive pieces_pos small enough 0
  exact ⟨wires, sent, fun rounds more => receive rounds _ more ⟨rfl, rfl, rfl⟩⟩

/-! A record layer that keeps the contract: a one stands before each byte of the data, and
a zero ends the record. -/

def mark : List UInt8 → List UInt8
  | [] => [0]
  | byte :: data => 1 :: byte :: mark data

def unmark : List UInt8 → Option (List UInt8 × List UInt8)
  | [] => none
  | [first] => if first = 0 then some ([], []) else none
  | first :: byte :: rest =>
    if first = 0 then some ([], byte :: rest)
    else (unmark rest).map fun (data, extra) => (byte :: data, extra)

theorem unmark_mark (data extra : List UInt8) : unmark (mark data ++ extra) = some (data, extra) := by
  induction data with
  | nil => cases extra <;> rfl
  | cons byte data ih =>
    change Option.map _ (unmark (mark data ++ extra)) = _
    rw [ih]
    rfl

theorem unmark_part {part : List UInt8} (held : part <+: mark data) (proper : part ≠ mark data) :
    unmark part = none := by
  induction data generalizing part with
  | nil =>
    obtain rfl | ⟨tail, rfl, empty⟩ := prefix_cons_iff.mp held
    · rfl
    · rw [prefix_nil.mp empty] at proper
      exact absurd rfl proper
  | cons byte data ih =>
    obtain rfl | ⟨tail, rfl, more⟩ := prefix_cons_iff.mp held
    · rfl
    obtain rfl | ⟨rest, rfl, marked⟩ := prefix_cons_iff.mp more
    · rfl
    have unread := ih marked (fun whole => proper (by rw [whole, mark]))
    change Option.map _ (unmark rest) = none
    rw [unread]
    rfl

def markedLayer : RecordLayer where
  encrypt _ := mark
  decrypt _ := unmark
  decrypt_encrypt _ := unmark_mark
  decrypt_part _ _ _ := unmark_part

/-- The hypotheses hold of an empty message between two others, cut into records of two
bytes that arrive byte by byte. -/
theorem framing_round_trip_marked : (∀ payload ∈ ([[7, 8, 9], [], [5]] : List (List UInt8)),
        payload.length ≤ 64 * 1024 * 1024) ∧
      ∃ wires, Outgoing.sendMessages ⟨markedLayer, 2⟩ (64 * 1024 * 1024 + 5) 0 [[7, 8, 9], [], [5]] = some wires ∧
        ∀ rounds, wires.flatten.length < rounds →
          ∃ receptions, Incoming.recvMessages ⟨markedLayer, fun _ => 1, fun _ => Nat.one_pos⟩
              rounds 3 { pending := wires.flatten } = some receptions ∧
            receptions.map Reception.payload = [some [7, 8, 9], some [], some [5]] ∧
            ∀ (call : Nat) (reception : Reception), receptions[call]? = some reception →
              reception.Exact (wires.drop (call + 1)).flatten :=
  have small : ∀ payload ∈ ([[7, 8, 9], [], [5]] : List (List UInt8)), payload.length ≤ 64 * 1024 * 1024 := by decide
  ⟨small, framing_round_trip markedLayer 2 (by decide) (fun _ => 1) (fun _ => Nat.one_pos)
    [[7, 8, 9], [], [5]] small (64 * 1024 * 1024 + 5) (by decide)⟩

end AnimusCore.Transport
