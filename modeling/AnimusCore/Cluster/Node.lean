import Mathlib.Logic.Function.Basic

/-! The replicated state of one `RaftNode` and its critical sections. Each
function below is the body of one block that holds `state_mutex_`, so it is one
atomic step of the cluster. Terms and log positions, 64-bit words in the source, are
natural numbers. Only an election makes a new term, the next one, and a log grows by one
entry per proposal and per election won: no run with fewer than `2 ^ 64` elections and
proposals reaches the end of a word, and the runs here are runs of the code up to there.
Election deadlines and the transport are scheduling, and are left to the environment. -/

set_option autoImplicit false

namespace AnimusCore.Cluster

abbrev NodeId := UInt32

structure AddRuleCommand where
  ruleId : UInt32 := 0
  eventId : UInt32 := 0
  threshold : UInt64 := 0
  comparator : UInt8 := 0
  severity : UInt32 := 0
deriving DecidableEq, Repr

structure LogEntry where
  term : Nat
  isNoop : Bool
  command : AddRuleCommand
deriving DecidableEq, Repr

inductive Role where
  | follower
  | candidate
  | leader
deriving DecidableEq, Repr

inductive ProposeResult where
  | ok
  | notLeader
  | failed
deriving DecidableEq, Repr

structure RequestVoteArgs where
  term : Nat
  candidateId : NodeId
  lastLogIndex : Nat
  lastLogTerm : Nat
deriving DecidableEq, Repr

structure RequestVoteResult where
  term : Nat
  voteGranted : Bool
deriving DecidableEq, Repr

structure AppendEntriesHeader where
  term : Nat
  leaderId : NodeId
  prevLogIndex : Nat
  prevLogTerm : Nat
  leaderCommit : Nat
  entryCount : Nat
deriving DecidableEq, Repr

structure AppendEntriesResult where
  term : Nat
  success : Bool
  matchIndex : Nat
deriving DecidableEq, Repr

def kMaxEntriesPerRpc : Nat := 64

/-- The fields guarded by `state_mutex_`. `applied` and `engine` record what
`apply_committed_entries_locked` did: the entries it consumed, in log order, and
the rules it handed to the local engine. -/
structure RaftNode where
  role : Role := .follower
  currentTerm : Nat := 0
  votedFor : NodeId := 0
  hasVotedThisTerm : Bool := false
  log : List LogEntry := []
  commitIndex : Nat := 0
  lastApplied : Nat := 0
  currentLeader : NodeId := 0
  hasLeader : Bool := false
  nextIndex : NodeId → Nat := fun _ => 0
  matchIndex : NodeId → Nat := fun _ => 0
  applied : List LogEntry := []
  engine : List AddRuleCommand := []

def majority (peers : List NodeId) : Nat := (peers.length + 1) / 2 + 1

namespace RaftNode

def lastLogTermLocked (node : RaftNode) : Nat :=
  match node.log.getLast? with
  | none => 0
  | some entry => entry.term

def stepDown (node : RaftNode) (term : Nat) : RaftNode :=
  { node with currentTerm := term, role := .follower, hasVotedThisTerm := false }

def logOk (node : RaftNode) (args : RequestVoteArgs) : Bool :=
  decide (args.lastLogTerm > node.lastLogTermLocked) || (args.lastLogTerm == node.lastLogTermLocked &&
      decide (args.lastLogIndex ≥ node.log.length))

def handleRequestVote (node : RaftNode) (candidateId : NodeId) (args : RequestVoteArgs) :
    RaftNode × RequestVoteResult :=
  let node := if args.term > node.currentTerm then node.stepDown args.term else node
  if args.term ≥ node.currentTerm ∧ (!node.hasVotedThisTerm || node.votedFor == candidateId) ∧ node.logOk args then
    ({ node with hasVotedThisTerm := true, votedFor := candidateId }, ⟨node.currentTerm, true⟩)
  else (node, ⟨node.currentTerm, false⟩)

/-- One iteration of the loop of `apply_committed_entries_locked` per unit of fuel.
The log always reaches the commit index when the loop runs. -/
def applyLoop : Nat → RaftNode → RaftNode
  | 0, node => node
  | fuel + 1, node =>
    match node.log[node.lastApplied]? with
    | none => node
    | some entry =>
      applyLoop fuel
        { node with
          engine := if entry.isNoop then node.engine else node.engine ++ [entry.command]
          applied := node.applied ++ [entry]
          lastApplied := node.lastApplied + 1 }

def applyCommittedEntriesLocked (node : RaftNode) : RaftNode :=
  node.applyLoop (node.commitIndex - node.lastApplied)

/-- The loop of `handle_append_entries` over the received entries: an entry whose
term differs from the stored one truncates the log at its index. -/
def appendLoop (log : List LogEntry) (index : Nat) : List LogEntry → List LogEntry
  | [] => log
  | entry :: rest =>
    match log[index]? with
    | some stored =>
      if stored.term ≠ entry.term then appendLoop (log.take index ++ [entry]) (index + 1) rest
      else appendLoop log (index + 1) rest
    | none => appendLoop (log ++ [entry]) (index + 1) rest

section
variable (node : RaftNode)

def acceptEntries (hdr : AppendEntriesHeader) (entries : List LogEntry) : RaftNode :=
  let node := { node with log := appendLoop node.log hdr.prevLogIndex entries }
  if hdr.leaderCommit > node.commitIndex then
    applyCommittedEntriesLocked { node with commitIndex := min hdr.leaderCommit node.log.length }
  else node

def followLeader (leaderId : NodeId) (term : Nat) : RaftNode :=
  let node := if term > node.currentTerm then
      { node with currentTerm := term, hasVotedThisTerm := false } else node
  { node with role := .follower, currentLeader := leaderId, hasLeader := true }

def handleAppendEntries (leaderId : NodeId) (hdr : AppendEntriesHeader) (entries : List LogEntry) :
    RaftNode × AppendEntriesResult :=
  if hdr.term < node.currentTerm then (node, ⟨node.currentTerm, false, 0⟩)
  else
    let node := node.followLeader leaderId hdr.term
    if hdr.prevLogIndex > 0 then
      match node.log[hdr.prevLogIndex - 1]? with
      | none => (node, ⟨node.currentTerm, false, 0⟩)
      | some stored =>
        if stored.term ≠ hdr.prevLogTerm then
          ({ node with log := node.log.take (hdr.prevLogIndex - 1) }, ⟨node.currentTerm, false, 0⟩)
        else
          let node := node.acceptEntries hdr entries
          (node, ⟨node.currentTerm, true, node.log.length⟩)
    else
      let node := node.acceptEntries hdr entries
      (node, ⟨node.currentTerm, true, node.log.length⟩)

/-- The first block of `start_election`: campaign in the next term. -/
def startElection (id : NodeId) : RaftNode × RequestVoteArgs :=
  let node := { node with
    currentTerm := node.currentTerm + 1
    role := .candidate
    votedFor := id
    hasVotedThisTerm := true
    hasLeader := false }
  (node, ⟨node.currentTerm, id, node.log.length, node.lastLogTermLocked⟩)

/-- The block of a vote worker after its response arrived; the flag tells whether
the worker adds to the tally. -/
def receiveVote (termAtElection : Nat) (result : RequestVoteResult) : RaftNode × Bool :=
  if result.term > node.currentTerm then (node.stepDown result.term, false)
  else (node, result.voteGranted && result.term == termAtElection)

end

def noopEntry (term : Nat) : LogEntry := ⟨term, true, {}⟩

section
variable (node : RaftNode)

/-- The last block of `start_election`, run after all vote workers were joined. -/
def finishElection (id : NodeId) (peers : List NodeId) (termAtElection votes : Nat) : RaftNode :=
  if node.role = .candidate ∧ node.currentTerm = termAtElection ∧ votes ≥ majority peers then
    { node with
      role := .leader
      currentLeader := id
      hasLeader := true
      nextIndex := fun peer =>
        if peer ∈ peers then node.log.length + 1 else node.nextIndex peer
      matchIndex := fun peer => if peer ∈ peers then 0 else node.matchIndex peer
      log := node.log ++ [noopEntry node.currentTerm] }
  else node

/-- The first block of `replicate_to_all_peers`: the term and commit snapshots. -/
def replicateSnapshot : Option (Nat × Nat) :=
  if node.role ≠ .leader then none else some (node.currentTerm, node.commitIndex)

/-- The first block of `replicate_to_peer`: at most `kMaxEntriesPerRpc` entries
from the peer's next index on, or nothing when the snapshot is outdated. -/
def replicateToPeer (id peer : NodeId) (termSnapshot commitSnapshot : Nat) :
    Option (AppendEntriesHeader × List LogEntry) :=
  if node.role ≠ .leader ∨ node.currentTerm ≠ termSnapshot then none
  else
    let nextIdx := node.nextIndex peer
    let prevLogIndex := if nextIdx > 0 then nextIdx - 1 else 0
    let prevLogTerm :=
      if prevLogIndex > 0 then ((node.log[prevLogIndex - 1]?).map (·.term)).getD 0 else 0
    let entries := (node.log.drop (nextIdx - 1)).take kMaxEntriesPerRpc
    some (⟨termSnapshot, id, prevLogIndex, prevLogTerm, commitSnapshot, entries.length⟩, entries)

/-- The last block of `replicate_to_peer`, after the response arrived. -/
def receiveAppend (peer : NodeId) (termSnapshot prevLogIndex entryCount : Nat)
    (result : AppendEntriesResult) : RaftNode :=
  if result.term > node.currentTerm then node.stepDown result.term
  else if node.role ≠ .leader ∨ node.currentTerm ≠ termSnapshot then node
  else if result.success then
    { node with
      nextIndex := Function.update node.nextIndex peer (prevLogIndex + entryCount + 1)
      matchIndex := Function.update node.matchIndex peer (prevLogIndex + entryCount) }
  else if node.nextIndex peer > 1 then
    { node with nextIndex := Function.update node.nextIndex peer (node.nextIndex peer - 1) }
  else node

def replicaCount (peers : List NodeId) (index : Nat) : Nat :=
  1 + (peers.filter fun peer => node.matchIndex peer ≥ index).length

end

/-- The commit loop of `replicate_to_all_peers`, scanning down from an index. -/
def commitLoop (node : RaftNode) (peers : List NodeId) : Nat → RaftNode
  | 0 => node
  | index + 1 =>
    if index + 1 ≤ node.commitIndex then node
    else if (node.log[index]?).map (·.term) ≠ some node.currentTerm then
      commitLoop node peers index
    else if node.replicaCount peers (index + 1) ≥ majority peers then
      applyCommittedEntriesLocked { node with commitIndex := index + 1 }
    else commitLoop node peers index

variable (node : RaftNode)

/-- The last block of `replicate_to_all_peers`, run after its workers were joined. -/
def finishReplicate (peers : List NodeId) (termSnapshot : Nat) : RaftNode :=
  if node.role ≠ .leader ∨ node.currentTerm ≠ termSnapshot then node
  else node.commitLoop peers node.log.length

def leaderHint : NodeId := if node.hasLeader then node.currentLeader else 0

/-- The first block of `propose`: a leader appends the command in its term, and
the result is the entry and `my_index`, its position counted from one. Any other
node refuses with its leader hint. -/
def propose (command : AddRuleCommand) : Except NodeId (RaftNode × LogEntry × Nat) :=
  if node.role ≠ .leader then .error node.leaderHint
  else
    let entry : LogEntry := ⟨node.currentTerm, false, command⟩
    let log := node.log ++ [entry]
    .ok ({ node with log := log }, entry, log.length)

/-- One poll of `propose`: the result it returns with the leader hint it writes,
or nothing to keep waiting. -/
def pollProposal (myIndex : Nat) : Option (ProposeResult × Option NodeId) :=
  if node.commitIndex ≥ myIndex then some (.ok, none)
  else if node.role ≠ .leader then some (.notLeader, some node.leaderHint)
  else none

end RaftNode

end AnimusCore.Cluster
