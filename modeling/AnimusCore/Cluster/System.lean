import AnimusCore.Cluster.Node
import AnimusCore.Lib.Transition

/-! A cluster of nodes, the threads running inside them and the messages between
them. An action runs one critical section or moves one message; a schedule is any
list of actions. A message is delivered at any later time or never, and a call
may fail while its request is still under way. A response returns to the call
that waits for it and carries the locals of that call. -/

set_option autoImplicit false

namespace AnimusCore.Cluster

open Lib

/-- Static membership: distinct identities, and each node's peers are the others. -/
structure Membership where
  ids : List NodeId
  peers : NodeId → List NodeId
  nodup : ids.Nodup
  peers_nodup : ∀ id ∈ ids, (peers id).Nodup
  mem_peers : ∀ id ∈ ids, ∀ peer, peer ∈ peers id ↔ peer ∈ ids ∧ peer ≠ id

structure VoteCall where
  node : NodeId
  term : Nat
  peer : NodeId
deriving DecidableEq

structure VoteRequest where
  call : VoteCall
  args : RequestVoteArgs

structure VoteResponse where
  call : VoteCall
  result : RequestVoteResult

/-- A `start_election` call that joins its workers: `waiting` lists the peers
whose worker has not returned. -/
structure Election where
  node : NodeId
  term : Nat
  votes : Nat
  waiting : List NodeId

structure AppendCall where
  round : Nat
  node : NodeId
  peer : NodeId
  termSnapshot : Nat
  prevLogIndex : Nat
  entryCount : Nat
deriving DecidableEq

structure AppendRequest where
  call : AppendCall
  hdr : AppendEntriesHeader
  entries : List LogEntry

structure AppendResponse where
  call : AppendCall
  result : AppendEntriesResult

/-- A `replicate_to_all_peers` call that joins its workers: `spawned` lists the
workers that have not run, `calling` those that wait for a response. -/
structure Round where
  id : Nat
  node : NodeId
  termSnapshot : Nat
  commitSnapshot : Nat
  spawned : List NodeId
  calling : List NodeId

inductive ProposalPhase where
  | appended
  | replicating (round : Nat)
  | polling
deriving DecidableEq

/-- A `propose` call. The entry is the one the call appended; the code itself
keeps only `myIndex`. -/
structure Proposal where
  node : NodeId
  entry : LogEntry
  myIndex : Nat
  phase : ProposalPhase
deriving DecidableEq

structure State where
  nodes : NodeId → RaftNode := fun _ => {}
  elections : List Election := []
  voteRequests : List VoteRequest := []
  voteResponses : List VoteResponse := []
  nextRound : Nat := 0
  rounds : List Round := []
  appendRequests : List AppendRequest := []
  appendResponses : List AppendResponse := []
  proposals : List Proposal := []

/-- Messages and threads are selected by their position in the state's lists. -/
inductive Action where
  | startElection (node : NodeId)
  | deliverVoteRequest (position : Nat)
  | deliverVoteResponse (position : Nat)
  | failVoteCall (call : VoteCall)
  | finishElection (position : Nat)
  | replicateToAllPeers (node : NodeId)
  | replicateToPeer (position : Nat) (peer : NodeId)
  | deliverAppendRequest (position : Nat)
  | deliverAppendResponse (position : Nat)
  | failAppendCall (round : Nat) (peer : NodeId)
  | finishReplicate (position : Nat)
  | propose (node : NodeId) (command : AddRuleCommand)
  | proposeReplicate (position : Nat)
  | pollProposal (position : Nat)
  | timeOutProposal (position : Nat)

namespace Election

def awaits (election : Election) (call : VoteCall) : Bool :=
  election.node == call.node && election.term == call.term && election.waiting.contains call.peer

def settle (election : Election) (call : VoteCall) (counted : Bool) : Election :=
  if election.awaits call then
    { election with
      votes := if counted then election.votes + 1 else election.votes
      waiting := election.waiting.erase call.peer }
  else election

end Election

namespace Round

def awaits (round : Round) (id : Nat) (peer : NodeId) : Bool :=
  round.id == id && round.calling.contains peer

def settle (round : Round) (id : Nat) (peer : NodeId) : Round :=
  if round.awaits id peer then { round with calling := round.calling.erase peer } else round

end Round

def Proposal.resume (proposal : Proposal) (round : Nat) : Proposal :=
  if proposal.phase = .replicating round then { proposal with phase := .polling } else proposal

namespace State

variable (cluster : Membership)

variable (state : State)

def setNode (id : NodeId) (node : RaftNode) : State :=
  { state with nodes := Function.update state.nodes id node }

def startElection (id : NodeId) : Option State :=
  if id ∈ cluster.ids then
    let (node, args) := (state.nodes id).startElection id
    some { state.setNode id node with
      elections := state.elections ++ [⟨id, args.term, 1, cluster.peers id⟩]
      voteRequests := state.voteRequests ++ (cluster.peers id).map fun peer => ⟨⟨id, args.term, peer⟩, args⟩ }
  else none

def deliverVoteRequest (position : Nat) : Option State :=
  match state.voteRequests[position]? with
  | none => none
  | some ⟨call, args⟩ =>
    let (node, result) := (state.nodes call.peer).handleRequestVote call.node args
    some { state.setNode call.peer node with
      voteRequests := state.voteRequests.eraseIdx position
      voteResponses := state.voteResponses ++ [⟨call, result⟩] }

def deliverVoteResponse (position : Nat) : Option State :=
  match state.voteResponses[position]? with
  | none => none
  | some ⟨call, result⟩ =>
    if state.elections.any (·.awaits call) then
      let (node, counted) := (state.nodes call.node).receiveVote call.term result
      some { state.setNode call.node node with
        voteResponses := state.voteResponses.eraseIdx position
        elections := state.elections.map (·.settle call counted) }
    else none

def failVoteCall (call : VoteCall) : Option State :=
  some { state with elections := state.elections.map (·.settle call false) }

def finishElection (position : Nat) : Option State :=
  match state.elections[position]? with
  | none => none
  | some election =>
    if election.waiting.isEmpty then
      let node := (state.nodes election.node).finishElection election.node
        (cluster.peers election.node) election.term election.votes
      some { state.setNode election.node node with
        elections := state.elections.eraseIdx position }
    else none

def replicateToAllPeers (id : NodeId) : Option State :=
  match (state.nodes id).replicateSnapshot with
  | none => some state
  | some (termSnapshot, commitSnapshot) =>
    some { state with
      rounds := state.rounds ++ [⟨state.nextRound, id, termSnapshot, commitSnapshot, cluster.peers id, []⟩]
      nextRound := state.nextRound + 1 }

def replicateToPeer (position : Nat) (peer : NodeId) : Option State :=
  match state.rounds[position]? with
  | none => none
  | some round =>
    if peer ∈ round.spawned then
      let left := round.spawned.erase peer
      match (state.nodes round.node).replicateToPeer round.node peer round.termSnapshot round.commitSnapshot with
      | none => some { state with
          rounds := state.rounds.set position { round with spawned := left } }
      | some (hdr, entries) =>
        let call : AppendCall := ⟨round.id, round.node, peer, round.termSnapshot, hdr.prevLogIndex, entries.length⟩
        some { state with
          rounds := state.rounds.set position { round with spawned := left, calling := round.calling ++ [peer] }
          appendRequests := state.appendRequests ++ [⟨call, hdr, entries⟩] }
    else none

def deliverAppendRequest (position : Nat) : Option State :=
  match state.appendRequests[position]? with
  | none => none
  | some ⟨call, hdr, entries⟩ =>
    let (node, result) := (state.nodes call.peer).handleAppendEntries call.node hdr entries
    some { state.setNode call.peer node with
      appendRequests := state.appendRequests.eraseIdx position
      appendResponses := state.appendResponses ++ [⟨call, result⟩] }

def deliverAppendResponse (position : Nat) : Option State :=
  match state.appendResponses[position]? with
  | none => none
  | some ⟨call, result⟩ =>
    if state.rounds.any (·.awaits call.round call.peer) then
      let node := (state.nodes call.node).receiveAppend call.peer call.termSnapshot
        call.prevLogIndex call.entryCount result
      some { state.setNode call.node node with
        appendResponses := state.appendResponses.eraseIdx position
        rounds := state.rounds.map (·.settle call.round call.peer) }
    else none

def failAppendCall (round : Nat) (peer : NodeId) : Option State :=
  some { state with rounds := state.rounds.map (·.settle round peer) }

def finishReplicate (position : Nat) : Option State :=
  match state.rounds[position]? with
  | none => none
  | some round =>
    if round.spawned.isEmpty && round.calling.isEmpty then
      let node := (state.nodes round.node).finishReplicate (cluster.peers round.node) round.termSnapshot
      some { state.setNode round.node node with
        rounds := state.rounds.eraseIdx position
        proposals := state.proposals.map (·.resume round.id) }
    else none

/-- The first block of `propose`; a refused proposal changes nothing. -/
def propose (id : NodeId) (command : AddRuleCommand) : Option State :=
  match (state.nodes id).propose command with
  | .error _ => some state
  | .ok (node, entry, myIndex) =>
    some { state.setNode id node with
      proposals := state.proposals ++ [⟨id, entry, myIndex, .appended⟩] }

def proposeReplicate (position : Nat) : Option State :=
  match state.proposals[position]? with
  | none => none
  | some proposal =>
    if proposal.phase = .appended then
      match (state.nodes proposal.node).replicateSnapshot with
      | none => some { state with
          proposals := state.proposals.set position { proposal with phase := .polling } }
      | some (termSnapshot, commitSnapshot) =>
        some { state with
          rounds := state.rounds ++ [⟨state.nextRound, proposal.node, termSnapshot, commitSnapshot,
              cluster.peers proposal.node, []⟩]
          nextRound := state.nextRound + 1
          proposals := state.proposals.set position { proposal with phase := .replicating state.nextRound } }
    else none

def pollProposal (position : Nat) : Option State :=
  match state.proposals[position]? with
  | none => none
  | some proposal =>
    if proposal.phase = .polling then
      match (state.nodes proposal.node).pollProposal proposal.myIndex with
      | none => some state
      | some _ => some { state with proposals := state.proposals.eraseIdx position }
    else none

def timeOutProposal (position : Nat) : Option State :=
  match state.proposals[position]? with
  | none => none
  | some proposal =>
    if proposal.phase = .polling then
      some { state with proposals := state.proposals.eraseIdx position }
    else none

end State

def step (cluster : Membership) (state : State) : Action → Option State
  | .startElection id => state.startElection cluster id
  | .deliverVoteRequest position => state.deliverVoteRequest position
  | .deliverVoteResponse position => state.deliverVoteResponse position
  | .failVoteCall call => state.failVoteCall call
  | .finishElection position => state.finishElection cluster position
  | .replicateToAllPeers id => state.replicateToAllPeers cluster id
  | .replicateToPeer position peer => state.replicateToPeer position peer
  | .deliverAppendRequest position => state.deliverAppendRequest position
  | .deliverAppendResponse position => state.deliverAppendResponse position
  | .failAppendCall round peer => state.failAppendCall round peer
  | .finishReplicate position => state.finishReplicate cluster position
  | .propose id command => state.propose id command
  | .proposeReplicate position => state.proposeReplicate cluster position
  | .pollProposal position => state.pollProposal position
  | .timeOutProposal position => state.timeOutProposal position

def initial : State := {}

def Reachable (cluster : Membership) : State → Prop :=
  Reaches (step cluster) Always initial

end AnimusCore.Cluster
