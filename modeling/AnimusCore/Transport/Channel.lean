import AnimusCore.Lib.Bytes

/-! `SecureChannel` after its handshake: messages are cut into records, and put together
again from whatever pieces the socket delivers. The records themselves are a layer that
is only assumed to keep its contract. -/

set_option autoImplicit false

namespace AnimusCore.Transport

open Lib

/-- `EncryptMessage` and `DecryptMessage`, by the number of the record. No result is
`SEC_E_INCOMPLETE_MESSAGE`; a result is the data and `SECBUFFER_EXTRA`. -/
structure RecordLayer where
  encrypt : Nat → List UInt8 → List UInt8
  decrypt : Nat → List UInt8 → Option (List UInt8 × List UInt8)
  decrypt_encrypt : ∀ record data extra, decrypt record (encrypt record data ++ extra) = some (data, extra)
  decrypt_part : ∀ record data part, part <+: encrypt record data →
    part ≠ encrypt record data → decrypt record part = none

structure Sender where
  record : Nat
  sent : List UInt8

structure Outgoing where
  layer : RecordLayer
  cbMaximumMessage : Nat

namespace Outgoing

variable (channel : Outgoing)

/-- The loop of `send_raw`; `none` while it has not ended. -/
def sendChunks (maxMsg : Nat) (data : List UInt8) : Nat → Nat → Sender → Option Sender
  | 0, _, _ => none
  | fuel + 1, offset, sender =>
    if offset < data.length then
      let chunk := if data.length - offset < maxMsg then data.length - offset else maxMsg
      sendChunks maxMsg data fuel (offset + chunk)
        { record := sender.record + 1
          sent := sender.sent ++ channel.layer.encrypt sender.record ((data.drop offset).take chunk) }
    else some sender

def sendRaw (fuel : Nat) (data : List UInt8) (sender : Sender) : Option Sender :=
  let maxMsg := if channel.cbMaximumMessage ≠ 0 then channel.cbMaximumMessage else data.length
  let maxMsg := if maxMsg = 0 then (if data.length ≠ 0 then data.length else 1) else maxMsg
  channel.sendChunks maxMsg data fuel 0 sender

def sendMessage (fuel : Nat) (payload : List UInt8) (sender : Sender) : Option Sender := do
  let hdr := toLE 4 payload.length
  let sender ← channel.sendRaw fuel hdr sender
  if payload = [] then return sender
  channel.sendRaw fuel payload sender

def sendMessages (fuel : Nat) : Nat → List (List UInt8) → Option (List (List UInt8))
  | _, [] => some []
  | record, payload :: rest => do
      let sender ← channel.sendMessage fuel payload { record, sent := [] }
      let more ← sendMessages fuel sender.record rest
      return sender.sent :: more

end Outgoing

structure Receiver where
  recvBuf : List UInt8 := []
  plaintextBuf : List UInt8 := []
  record : Nat := 0
  /-- What was sent and the socket has not delivered. -/
  pending : List UInt8
  /-- The length of `pending` at each call of `recv_some`. -/
  asked : List Nat := []

/-- The receiving half. The pieces that the socket delivers are as long as `pieces` says,
or as long as what is there. -/
structure Incoming where
  layer : RecordLayer
  pieces : Nat → Nat
  pieces_pos : ∀ call, 0 < pieces call

namespace Incoming

variable (channel : Incoming)

/-- A call with nothing to deliver does not return. -/
def recvSome (receiver : Receiver) : Option Receiver :=
  if receiver.pending = [] then none
  else
    let length := channel.pieces receiver.asked.length
    some { receiver with
      recvBuf := receiver.recvBuf ++ receiver.pending.take length
      pending := receiver.pending.drop length
      asked := receiver.asked ++ [receiver.pending.length] }

def refill (receiver : Receiver) : Option Receiver :=
  if receiver.recvBuf = [] then channel.recvSome receiver else some receiver

def decryptOneRecord : Nat → Receiver → Option Receiver
  | 0, _ => none
  | fuel + 1, receiver => do
      let receiver ← channel.refill receiver
      match channel.layer.decrypt receiver.record receiver.recvBuf with
      | none => do
          let receiver ← channel.recvSome receiver
          decryptOneRecord fuel receiver
      | some (data, extra) =>
        return { receiver with
          recvBuf := extra
          plaintextBuf := receiver.plaintextBuf ++ data
          record := receiver.record + 1 }

/-- The loop of `recv_exact`. -/
def fill (fuel n : Nat) : Nat → Receiver → Option Receiver
  | 0, _ => none
  | rounds + 1, receiver =>
    if receiver.plaintextBuf.length < n then do
      let receiver ← channel.decryptOneRecord fuel receiver
      fill fuel n rounds receiver
    else some receiver

def recvExact (fuel n : Nat) (receiver : Receiver) : Option (List UInt8 × Receiver) := do
  let receiver ← channel.fill fuel n fuel receiver
  return (receiver.plaintextBuf.take n, { receiver with plaintextBuf := receiver.plaintextBuf.drop n })

/-- The payload is `none` where the call returns false. -/
def recvMessage (fuel : Nat) (receiver : Receiver) : Option (Option (List UInt8) × Receiver) := do
  let (hdr, receiver) ← channel.recvExact fuel 4 receiver
  let len := fromLE hdr
  if len > 64 * 1024 * 1024 then return (none, receiver)
  let (payload, receiver) ← channel.recvExact fuel len receiver
  return (some payload, receiver)

end Incoming

structure Reception where
  payload : Option (List UInt8)
  /-- The channel after the call. -/
  after : Receiver
  /-- The calls of `recv_some` made during it. -/
  asked : List Nat

def Incoming.recvMessages (channel : Incoming) (fuel : Nat) : Nat → Receiver → Option (List Reception)
  | 0, _ => some []
  | count + 1, receiver => do
      let (payload, after) ← channel.recvMessage fuel receiver
      let rest ← channel.recvMessages fuel count after
      return { payload, after, asked := after.asked.drop receiver.asked.length } :: rest

end AnimusCore.Transport
