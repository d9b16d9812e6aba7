import AnimusCore.Cluster.Node
import AnimusCore.Lib.Layout

/-! The messages of the cluster as packed structs, and `dispatch_request`, which takes a
request apart. The request is memory of its own length, so a result means that no byte past its
end was read. -/

set_option autoImplicit false

namespace AnimusCore.Cluster.Wire

open Lib

structure LogEntry where
  term : UInt64
  isNoop : UInt8
  command : AddRuleCommand
deriving DecidableEq

structure RequestVoteArgs where
  term : UInt64
  candidateId : NodeId
  lastLogIndex : UInt64
  lastLogTerm : UInt64
deriving DecidableEq

structure RequestVoteResult where
  term : UInt64
  voteGranted : UInt8
deriving DecidableEq

structure AppendEntriesHeader where
  term : UInt64
  leaderId : NodeId
  prevLogIndex : UInt64
  prevLogTerm : UInt64
  leaderCommit : UInt64
  entryCount : UInt32
deriving DecidableEq

structure AppendEntriesResult where
  term : UInt64
  success : UInt8
  matchIndex : UInt64
deriving DecidableEq

def commandLayout : Layout AddRuleCommand :=
  (Layout.u32.pair (Layout.u32.pair (Layout.u64.pair (Layout.u8.pair Layout.u32)))).map
    { toFun := fun (ruleId, eventId, threshold, comparator, severity) =>
        ⟨ruleId, eventId, threshold, comparator, severity⟩
      invFun := fun command => (command.ruleId, command.eventId, command.threshold,
        command.comparator, command.severity)
      left_inv := fun _ => rfl, right_inv := fun _ => rfl }

def LogEntry.layout : Layout LogEntry :=
  (Layout.u64.pair (Layout.u8.pair commandLayout)).map
    { toFun := fun (term, isNoop, command) => ⟨term, isNoop, command⟩
      invFun := fun entry => (entry.term, entry.isNoop, entry.command)
      left_inv := fun _ => rfl, right_inv := fun _ => rfl }

def RequestVoteArgs.layout : Layout RequestVoteArgs :=
  (Layout.u64.pair (Layout.u32.pair (Layout.u64.pair Layout.u64))).map
    { toFun := fun (term, candidateId, lastLogIndex, lastLogTerm) =>
        ⟨term, candidateId, lastLogIndex, lastLogTerm⟩
      invFun := fun args => (args.term, args.candidateId, args.lastLogIndex, args.lastLogTerm)
      left_inv := fun _ => rfl, right_inv := fun _ => rfl }

def RequestVoteResult.layout : Layout RequestVoteResult :=
  (Layout.u64.pair Layout.u8).map
    { toFun := fun (term, voteGranted) => ⟨term, voteGranted⟩
      invFun := fun result => (result.term, result.voteGranted)
      left_inv := fun _ => rfl, right_inv := fun _ => rfl }

def AppendEntriesHeader.layout : Layout AppendEntriesHeader :=
  (Layout.u64.pair (Layout.u32.pair (Layout.u64.pair (Layout.u64.pair (Layout.u64.pair Layout.u32))))).map
    { toFun := fun (term, leaderId, prevLogIndex, prevLogTerm, leaderCommit, entryCount) =>
        ⟨term, leaderId, prevLogIndex, prevLogTerm, leaderCommit, entryCount⟩
      invFun := fun hdr => (hdr.term, hdr.leaderId, hdr.prevLogIndex, hdr.prevLogTerm,
        hdr.leaderCommit, hdr.entryCount)
      left_inv := fun _ => rfl, right_inv := fun _ => rfl }

def AppendEntriesResult.layout : Layout AppendEntriesResult :=
  (Layout.u64.pair (Layout.u8.pair Layout.u64)).map
    { toFun := fun (term, success, matchIndex) => ⟨term, success, matchIndex⟩
      invFun := fun result => (result.term, result.success, result.matchIndex)
      left_inv := fun _ => rfl, right_inv := fun _ => rfl }

inductive MsgType where
  | requestVoteReq
  | requestVoteResp
  | appendEntriesReq
  | appendEntriesResp

def MsgType.byte : MsgType → UInt8
  | requestVoteReq => 1
  | requestVoteResp => 2
  | appendEntriesReq => 3
  | appendEntriesResp => 4

def pack {α : Type} (type : MsgType) (layout : Layout α) (body : α) : List UInt8 :=
  type.byte :: layout.bytes body

def packAppendEntries (hdr : AppendEntriesHeader) (entries : List LogEntry) : List UInt8 :=
  MsgType.appendEntriesReq.byte :: (AppendEntriesHeader.layout.bytes hdr ++ LogEntry.layout.manyBytes entries)

inductive Call where
  | requestVote (args : RequestVoteArgs)
  | appendEntries (hdr : AppendEntriesHeader) (entries : List LogEntry)
deriving DecidableEq

/-- The handler that is called, if any, and the size of the entry vector, if one is made. -/
structure Decoded where
  call : Option Call := none
  vector : Option Nat := none

/-- Of `dispatch_request`, up to the call of a handler. -/
def decodeRequest (req : List UInt8) : Option Decoded :=
  (Memory.ofBytes req 0).bind fun type =>
    if type = MsgType.requestVoteReq.byte ∧ req.length = 1 + RequestVoteArgs.layout.width then
      (RequestVoteArgs.layout.read (.ofBytes req) 1).map fun args =>
        { call := some (.requestVote args) }
    else if type = MsgType.appendEntriesReq.byte ∧ req.length ≥ 1 + AppendEntriesHeader.layout.width then
      (AppendEntriesHeader.layout.read (.ofBytes req) 1).bind fun hdr =>
        if req.length ≠ (1 + AppendEntriesHeader.layout.width +
            hdr.entryCount.toNat * LogEntry.layout.width) % 2 ^ 64 then some {}
        else
          (LogEntry.layout.readMany (.ofBytes req) (1 + AppendEntriesHeader.layout.width)
            hdr.entryCount.toNat).map fun entries =>
              { call := some (.appendEntries hdr entries), vector := some hdr.entryCount.toNat }
    else some {}

structure Handlers (State : Type) where
  handleRequestVote : State → NodeId → RequestVoteArgs → State × RequestVoteResult
  handleAppendEntries : State → NodeId → AppendEntriesHeader → List LogEntry → State × AppendEntriesResult

def Handlers.run {State : Type} (handlers : Handlers State) (state : State) (sender : NodeId) :
    Option Call → State × List UInt8
  | none => (state, [])
  | some (.requestVote args) =>
    let (state, result) := handlers.handleRequestVote state sender args
    (state, pack .requestVoteResp RequestVoteResult.layout result)
  | some (.appendEntries hdr entries) =>
    let (state, result) := handlers.handleAppendEntries state sender hdr entries
    (state, pack .appendEntriesResp AppendEntriesResult.layout result)

def Handlers.dispatchRequest {State : Type} (handlers : Handlers State) (state : State)
    (sender : NodeId) (req : List UInt8) : Option (State × List UInt8) :=
  (decodeRequest req).map fun decoded => handlers.run state sender decoded.call

def LogEntry.toNode (entry : LogEntry) : Cluster.LogEntry :=
  ⟨entry.term.toNat, entry.isNoop != 0, entry.command⟩

/-- The handlers of a node, whose terms and positions are numbers. -/
def raftHandlers : Handlers RaftNode where
  handleRequestVote node sender args :=
    let (node, result) := node.handleRequestVote sender
      ⟨args.term.toNat, args.candidateId, args.lastLogIndex.toNat, args.lastLogTerm.toNat⟩
    (node, ⟨UInt64.ofNat result.term, result.voteGranted.toUInt8⟩)
  handleAppendEntries node sender hdr entries :=
    let (node, result) := node.handleAppendEntries sender
      ⟨hdr.term.toNat, hdr.leaderId, hdr.prevLogIndex.toNat, hdr.prevLogTerm.toNat,
        hdr.leaderCommit.toNat, hdr.entryCount.toNat⟩ (entries.map LogEntry.toNode)
    (node, ⟨UInt64.ofNat result.term, result.success.toUInt8, UInt64.ofNat result.matchIndex⟩)

def Call.request : Call → List UInt8
  | requestVote args => pack .requestVoteReq RequestVoteArgs.layout args
  | appendEntries hdr entries => packAppendEntries hdr entries

def Call.Counted : Call → Prop
  | requestVote _ => True
  | appendEntries hdr entries => hdr.entryCount.toNat = entries.length

def Call.vector : Call → Option Nat
  | requestVote _ => none
  | appendEntries _ entries => some entries.length

private theorem expected_eq (hdr : AppendEntriesHeader) :
    (1 + AppendEntriesHeader.layout.width + hdr.entryCount.toNat * LogEntry.layout.width) % 2 ^ 64 =
    1 + AppendEntriesHeader.layout.width + hdr.entryCount.toNat * LogEntry.layout.width := by
  have small := hdr.entryCount.toNat_lt
  have header : AppendEntriesHeader.layout.width = 40 := rfl
  have entry : LogEntry.layout.width = 30 := rfl
  rw [header, entry]
  omega

private theorem decodeRequest_pack (args : RequestVoteArgs) :
    decodeRequest (pack .requestVoteReq RequestVoteArgs.layout args) = some { call := some (.requestVote args) } := by
  have held := Memory.ofBytes_holds_tail MsgType.requestVoteReq.byte (RequestVoteArgs.layout.bytes args)
  have length : (pack .requestVoteReq RequestVoteArgs.layout args).length = 1 + RequestVoteArgs.layout.width := by
    rw [pack, List.length_cons, Layout.length_bytes, Nat.add_comm]
  rw [decodeRequest, show Memory.ofBytes (pack .requestVoteReq RequestVoteArgs.layout args) 0 =
    some MsgType.requestVoteReq.byte from rfl, Option.bind_some, if_pos ⟨rfl, length⟩, pack,
    Layout.read_bytes _ held]
  rfl

private theorem length_packAppendEntries (hdr : AppendEntriesHeader) (entries : List LogEntry) :
    (packAppendEntries hdr entries).length =
      1 + AppendEntriesHeader.layout.width + entries.length * LogEntry.layout.width := by
  rw [packAppendEntries, List.length_cons, List.length_append, Layout.length_bytes, Layout.length_manyBytes]
  omega

private theorem decodeRequest_packAppendEntries {hdr : AppendEntriesHeader} {entries : List LogEntry}
    (counted : hdr.entryCount.toNat = entries.length) : decodeRequest (packAppendEntries hdr entries) =
      some { call := some (.appendEntries hdr entries), vector := some entries.length } := by
  have length := length_packAppendEntries hdr entries
  have held := Memory.ofBytes_holds_tail MsgType.appendEntriesReq.byte
    (AppendEntriesHeader.layout.bytes hdr ++ LogEntry.layout.manyBytes entries)
  rw [Memory.holds_append, Layout.length_bytes] at held
  rw [decodeRequest, show Memory.ofBytes (packAppendEntries hdr entries) 0 =
    some MsgType.appendEntriesReq.byte from rfl, Option.bind_some,
    if_neg (fun ⟨type, _⟩ => absurd type (by decide)), if_pos ⟨rfl, by omega⟩]
  rw [packAppendEntries] at length ⊢
  rw [Layout.read_bytes _ held.1, Option.bind_some, expected_eq, counted,
    if_neg (fun other => other length), Layout.readMany_bytes held.2]
  rfl

private theorem decodeRequest_request {call : Call} (counted : call.Counted) :
    decodeRequest call.request = some { call := some call, vector := call.vector } := by
  cases call with
  | requestVote args => exact decodeRequest_pack args
  | appendEntries hdr entries => exact decodeRequest_packAppendEntries counted

/-- A request is the form of a call, or nothing comes of it. -/
theorem decodeRequest_cases {req : List UInt8} (nonempty : req ≠ []) :
    (∃ call : Call, call.Counted ∧ req = call.request) ∨ decodeRequest req = some {} := by
  obtain ⟨type, rest, rfl⟩ := List.exists_cons_of_ne_nil nonempty
  have whole := Memory.ofBytes_holds_tail type rest
  have readable := Memory.ofBytes_readable (type :: rest)
  by_cases vote : type = MsgType.requestVoteReq.byte ∧ (type :: rest).length = 1 + RequestVoteArgs.layout.width
  · obtain ⟨rfl, length⟩ := vote
    rw [List.length_cons] at length
    obtain ⟨args, held⟩ := RequestVoteArgs.layout.exists_bytes readable (Nat.le_of_eq length.symm)
    have same := whole.unique held (by rw [Layout.length_bytes]; omega)
    exact .inl ⟨.requestVote args, trivial, by rw [← same]; rfl⟩
  by_cases append : type = MsgType.appendEntriesReq.byte ∧
      (type :: rest).length ≥ 1 + AppendEntriesHeader.layout.width
  · obtain ⟨hdr, held⟩ := AppendEntriesHeader.layout.exists_bytes readable append.2
    rw [decodeRequest, show Memory.ofBytes (type :: rest) 0 = some type from rfl,
      Option.bind_some, if_neg vote, if_pos append, Layout.read_bytes _ held, Option.bind_some,
      expected_eq]
    by_cases length : (type :: rest).length = 1 + AppendEntriesHeader.layout.width +
        hdr.entryCount.toNat * LogEntry.layout.width
    · obtain ⟨rfl, _⟩ := append
      rw [List.length_cons] at length
      obtain ⟨entries, count, heldEntries⟩ := Layout.exists_manyBytes readable (Nat.le_of_eq length.symm)
      have both := Memory.holds_append.mpr ⟨held, by rw [Layout.length_bytes]; exact heldEntries⟩
      have same := whole.unique both
        (by rw [List.length_append, Layout.length_bytes, Layout.length_manyBytes, count]; omega)
      exact .inl ⟨.appendEntries hdr entries, count.symm, by rw [← same]; rfl⟩
    · rw [if_pos length]
      exact .inr rfl
  · rw [decodeRequest, show Memory.ofBytes (type :: rest) 0 = some type from rfl,
      Option.bind_some, if_neg vote, if_neg append]
    exact .inr rfl

private theorem eq_request_of_call {req : List UInt8} {decoded : Decoded} {call : Call}
    (found : decodeRequest req = some decoded) (called : decoded.call = some call) : req = call.request := by
  have nonempty : req ≠ [] := by
    rintro rfl
    cases found
  rcases decodeRequest_cases nonempty with ⟨other, counted, rfl⟩ | nothing
  · rw [decodeRequest_request counted] at found
    cases found
    cases called
    rfl
  · rw [nothing] at found
    cases found
    cases called

/-- The requests of the two forms reach their handler unchanged. Every other one is read within
its bounds and then dropped. -/
structure Codec {State : Type} (handlers : Handlers State) : Prop where
  appendEntries : ∀ (state : State) (sender : NodeId) (hdr : AppendEntriesHeader)
    (entries : List LogEntry), hdr.entryCount.toNat = entries.length →
    handlers.dispatchRequest state sender (packAppendEntries hdr entries) =
      some (handlers.run state sender (some (.appendEntries hdr entries)))
  requestVote : ∀ (state : State) (sender : NodeId) (args : RequestVoteArgs),
    handlers.dispatchRequest state sender (pack .requestVoteReq RequestVoteArgs.layout args) =
      some (handlers.run state sender (some (.requestVote args)))
  rejects : ∀ (state : State) (sender : NodeId) (req : List UInt8), req ≠ [] →
    (∀ hdr entries, hdr.entryCount.toNat = entries.length → req ≠ packAppendEntries hdr entries) →
    (∀ args, req ≠ pack .requestVoteReq RequestVoteArgs.layout args) →
    decodeRequest req = some { call := none, vector := none } ∧
      handlers.dispatchRequest state sender req = some (state, [])
  injective : ∀ (req other : List UInt8) (decoded also : Decoded) (call : Call),
    decodeRequest req = some decoded → decodeRequest other = some also →
    decoded.call = some call → also.call = some call → req = other

example (node : RaftNode) (sender : NodeId) :
    raftHandlers.dispatchRequest node sender [MsgType.requestVoteResp.byte, 0] = some (node, []) := rfl

end AnimusCore.Cluster.Wire
