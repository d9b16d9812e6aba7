import AnimusCore.Cluster.System
import AnimusCore.Lib.Consensus.Completeness

/-! The relation between a cluster state and the history of its run. Facts about
messages and threads only mention records that a history keeps, so they survive
every later step; facts about a node survive the steps of all other nodes. -/

set_option autoImplicit false

namespace AnimusCore.Cluster

open Lib Lib.Consensus

abbrev Record := History NodeId LogEntry

def Membership.members (cluster : Membership) : Finset NodeId := cluster.ids.toFinset

abbrev Record.Sound (cluster : Membership) (record : Record) : Prop :=
  History.Sound cluster.members LogEntry.term record

structure NodeTracks (cluster : Membership) (record : Record) (id : NodeId) (node : RaftNode) : Prop where
  term_eq : record.term id = node.currentTerm
  log_eq : record.log id = node.log
  member : node.role ≠ .follower → id ∈ cluster.ids
  leader_won : node.role = .leader → record.winner node.currentTerm = some id
  leader_log : node.role = .leader → record.leaderLog node.currentTerm = node.log
  leader_acked : node.role = .leader → node.log.length ≤ record.acked id node.currentTerm
  match_acked : node.role = .leader → ∀ peer ∈ cluster.peers id,
    node.matchIndex peer ≤ record.acked peer node.currentTerm
  next_bound : node.role = .leader → ∀ peer ∈ cluster.peers id,
    0 < node.nextIndex peer ∧ node.nextIndex peer ≤ node.log.length + 1
  candidate_ran : node.role = .candidate → record.campaign id node.currentTerm = some node.log
  candidate_open : node.role = .candidate → record.winner node.currentTerm ≠ some id
  voted : node.hasVotedThisTerm = true → ∃ ballot,
    record.ballot id node.currentTerm = some ballot ∧ ballot.candidate = node.votedFor
  unvoted : node.hasVotedThisTerm = false → record.ballot id node.currentTerm = none

def VoteRequest.Valid (record : Record) (request : VoteRequest) : Prop :=
  ∃ log, record.campaign request.call.node request.args.term = some log ∧ request.args.lastLogIndex = log.length ∧
    request.args.lastLogTerm = lastTerm LogEntry.term log

def VoteResponse.Valid (record : Record) (response : VoteResponse) : Prop :=
  response.result.voteGranted = true → ∃ ballot, record.ballot response.call.peer response.result.term = some ballot ∧
    ballot.candidate = response.call.node

/-- The tally counts distinct members that cast their ballot for the candidate;
none of them is still waited for. -/
def Election.Valid (cluster : Membership) (record : Record) (election : Election) : Prop :=
  election.node ∈ cluster.ids ∧ election.waiting.Nodup ∧ (∀ peer ∈ election.waiting, peer ∈ cluster.ids) ∧
    ∃ voters : Finset NodeId, voters.card = election.votes ∧ voters ⊆ cluster.members ∧
      (∀ voter ∈ voters, voter ∉ election.waiting) ∧
      ∀ voter ∈ voters, ∃ ballot, record.ballot voter election.term = some ballot ∧ ballot.candidate = election.node

/-- The request carries a contiguous slice of the leader log of its term. -/
structure AppendRequest.Valid (record : Record) (request : AppendRequest) : Prop where
  won : record.winner request.hdr.term = some request.call.node
  inside : request.hdr.prevLogIndex + request.entries.length ≤ (record.leaderLog request.hdr.term).length
  slice : request.entries = ((record.leaderLog request.hdr.term).drop request.hdr.prevLogIndex).take
      request.entries.length
  prevTerm : 0 < request.hdr.prevLogIndex →
    ((record.leaderLog request.hdr.term)[request.hdr.prevLogIndex - 1]?).map LogEntry.term =
      some request.hdr.prevLogTerm
  call_prev : request.call.prevLogIndex = request.hdr.prevLogIndex
  call_count : request.call.entryCount = request.entries.length
  call_term : request.call.termSnapshot = request.hdr.term

def AppendResponse.Valid (record : Record) (response : AppendResponse) : Prop :=
  response.result.success = true → response.call.prevLogIndex + response.call.entryCount ≤
      record.acked response.call.peer response.call.termSnapshot

def Round.Valid (cluster : Membership) (round : Round) : Prop :=
  ∀ peer ∈ round.spawned, peer ∈ cluster.peers round.node

def Proposal.Valid (record : Record) (proposal : Proposal) : Prop :=
  record.winner proposal.entry.term = some proposal.node ∧ 0 < proposal.myIndex ∧
    (record.leaderLog proposal.entry.term)[proposal.myIndex - 1]? = some proposal.entry

structure Tracks (cluster : Membership) (state : State) (record : Record) : Prop where
  sound : Record.Sound cluster record
  node : ∀ id, NodeTracks cluster record id (state.nodes id)
  election : ∀ election ∈ state.elections, election.Valid cluster record
  voteRequest : ∀ request ∈ state.voteRequests, request.Valid record
  voteResponse : ∀ response ∈ state.voteResponses, response.Valid record
  round : ∀ round ∈ state.rounds, round.Valid cluster
  appendRequest : ∀ request ∈ state.appendRequests, request.Valid record
  appendResponse : ∀ response ∈ state.appendResponses, response.Valid record
  proposal : ∀ proposal ∈ state.proposals, proposal.Valid record

variable {id : NodeId} {node : RaftNode}

section Growth

variable {cluster : Membership} {past future : Record}

section
variable (grown : past ≤ future)
include grown

theorem VoteRequest.Valid.mono {request : VoteRequest} (valid : request.Valid past) : request.Valid future := by
  obtain ⟨log, ran, index, term⟩ := valid
  exact ⟨log, grown.campaign_eq ran, index, term⟩

theorem VoteResponse.Valid.mono {response : VoteResponse} (valid : response.Valid past) : response.Valid future := by
  intro granted
  obtain ⟨ballot, cast, forNode⟩ := valid granted
  exact ⟨ballot, grown.ballot_eq cast, forNode⟩

theorem Election.Valid.mono {election : Election} (valid : election.Valid cluster past) :
    election.Valid cluster future := by
  obtain ⟨member, nodup, within, voters, tally, subset, apart, ballots⟩ := valid
  refine ⟨member, nodup, within, voters, tally, subset, apart, fun voter inside => ?_⟩
  obtain ⟨ballot, cast, forNode⟩ := ballots voter inside
  exact ⟨ballot, grown.ballot_eq cast, forNode⟩

theorem AppendRequest.Valid.mono {request : AppendRequest} (valid : request.Valid past) : request.Valid future := by
  obtain ⟨suffix, whole⟩ := grown.leaderLog_prefix request.hdr.term
  have inside := valid.inside
  refine { valid with
    won := grown.winner_eq valid.won, inside := ?_, slice := ?_, prevTerm := ?_ }
  · rw [← whole, List.length_append]
    omega
  · have slice := valid.slice
    rw [← whole, List.drop_append_of_le_length (by omega),
      List.take_append_of_le_length (by rw [List.length_drop]; omega)]
    exact slice
  · intro positive
    rw [← whole, List.getElem?_append_left (by omega)]
    exact valid.prevTerm positive

theorem AppendResponse.Valid.mono {response : AppendResponse} (valid : response.Valid past) : response.Valid future :=
  fun success => (valid success).trans (grown.acked_le _ _)

theorem Proposal.Valid.mono {proposal : Proposal} (valid : proposal.Valid past) : proposal.Valid future := by
  obtain ⟨won, positive, found⟩ := valid
  refine ⟨grown.winner_eq won, positive, ?_⟩
  rw [prefix_getElem?_eq (grown.leaderLog_prefix _) (List.getElem?_eq_some_iff.mp found).1]
  exact found

end

/-- A step of another node changes nothing the history says about this one. -/
theorem NodeTracks.frame {actor : NodeId} (tracks : NodeTracks cluster past id node)
    (acts : History.ActsAs actor past future) (other : id ≠ actor) : NodeTracks cluster future id node where
  term_eq := (acts.term_same other).trans tracks.term_eq
  log_eq := (acts.log_same other).trans tracks.log_eq
  member := tracks.member
  leader_won leads := acts.winner_eq (tracks.leader_won leads)
  leader_log leads := (acts.leaderLog_same other (acts.winner_eq (tracks.leader_won leads))).trans
      (tracks.leader_log leads)
  leader_acked leads := (tracks.leader_acked leads).trans (acts.acked_le _ _)
  match_acked leads peer inside := (tracks.match_acked leads peer inside).trans (acts.acked_le _ _)
  next_bound := tracks.next_bound
  candidate_ran runs := acts.campaign_eq (tracks.candidate_ran runs)
  candidate_open runs won := tracks.candidate_open runs (acts.winner_same other won)
  voted set := by
    obtain ⟨ballot, cast, forNode⟩ := tracks.voted set
    exact ⟨ballot, acts.ballot_eq cast, forNode⟩
  unvoted unset := (acts.ballot_same other).trans (tracks.unvoted unset)

theorem NodeTracks.unobserved {record : Record} (tracks : NodeTracks cluster record id node)
    (commitIndex lastApplied : Nat) (applied : List LogEntry) (engine : List AddRuleCommand) :
    NodeTracks cluster record id { node with commitIndex, lastApplied, applied, engine } :=
  { tracks with }

/-- A step that changes one node, as seen by the rest of the state. -/
structure Follows (cluster : Membership) (past future : Record) (id : NodeId) (node : RaftNode) : Prop where
  sound : Record.Sound cluster future
  acts : History.ActsAs id past future
  tracks : NodeTracks cluster future id node

theorem Tracks.node_of_follows {state : State} (tracks : Tracks cluster state past)
    (follows : Follows cluster past future id node) (other : NodeId) :
    NodeTracks cluster future other (Function.update state.nodes id node other) := by
  by_cases same : other = id
  · subst same
    rw [Function.update_self]
    exact follows.tracks
  · rw [Function.update_of_ne same]
    exact (tracks.node other).frame follows.acts same

theorem Tracks.setNode {state : State} (tracks : Tracks cluster state past)
    (follows : Follows cluster past future id node) : Tracks cluster (state.setNode id node) future where
  sound := follows.sound
  node := tracks.node_of_follows follows
  election election inside := (tracks.election election inside).mono follows.acts.toExtends
  voteRequest request inside := (tracks.voteRequest request inside).mono follows.acts.toExtends
  voteResponse response inside := (tracks.voteResponse response inside).mono follows.acts.toExtends
  round := tracks.round
  appendRequest request inside := (tracks.appendRequest request inside).mono follows.acts.toExtends
  appendResponse response inside := (tracks.appendResponse response inside).mono follows.acts.toExtends
  proposal proposal inside := (tracks.proposal proposal inside).mono follows.acts.toExtends

end Growth

theorem Tracks.initial (cluster : Membership) : Tracks cluster initial (History.initial : Record) where
  sound := History.Sound.initial
  node id := by
    constructor <;> simp [Cluster.initial, History.initial]
  election election inside := by simp [Cluster.initial] at inside
  voteRequest request inside := by simp [Cluster.initial] at inside
  voteResponse response inside := by simp [Cluster.initial] at inside
  round round inside := by simp [Cluster.initial] at inside
  appendRequest request inside := by simp [Cluster.initial] at inside
  appendResponse response inside := by simp [Cluster.initial] at inside
  proposal proposal inside := by simp [Cluster.initial] at inside

end AnimusCore.Cluster
