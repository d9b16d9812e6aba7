import AnimusCore.Cluster.Replication

/-! Every run of the cluster has a history. Each action extends the history by what its
critical section did and re-establishes the facts about the messages and threads it
touched. -/

set_option autoImplicit false

namespace AnimusCore.Cluster

open Lib Lib.Consensus List

variable {cluster : Membership} {state next : State} {record : Record}

/-- A worker that returns keeps the tally honest: a counted vote is a ballot of a
member that was still waited for. -/
theorem Election.Valid.settle {election : Election} (valid : election.Valid cluster record)
    {call : VoteCall} {counted : Bool}
    (vote : counted = true → ∃ ballot, record.ballot call.peer call.term = some ballot ∧
      ballot.candidate = call.node) : (election.settle call counted).Valid cluster record := by
  unfold Election.settle
  split
  case isFalse => exact valid
  case isTrue awaited =>
    simp only [Election.awaits, Bool.and_eq_true, beq_iff_eq, contains_iff_mem] at awaited
    obtain ⟨⟨sameNode, sameTerm⟩, waiting⟩ := awaited
    obtain ⟨member, nodup, within, voters, tally, subset, apart, ballots⟩ := valid
    have fewer : ∀ peer ∈ election.waiting.erase call.peer, peer ∈ election.waiting :=
      fun peer inside => mem_of_mem_erase inside
    have stillApart : ∀ voter ∈ voters, voter ∉ election.waiting.erase call.peer :=
      fun voter inside waits => apart voter inside (fewer voter waits)
    cases counted with
    | false =>
      exact ⟨member, nodup.erase _, fun peer inside => within peer (fewer peer inside),
        voters, tally, subset, stillApart, ballots⟩
    | true =>
      have fresh : call.peer ∉ voters := fun inside => apart call.peer inside waiting
      refine ⟨member, nodup.erase _, fun peer inside => within peer (fewer peer inside),
        insert call.peer voters, ?_, ?_, ?_, ?_⟩
      · simp [Finset.card_insert_of_notMem fresh, tally]
      · refine Finset.insert_subset ?_ subset
        simpa [Membership.members] using within call.peer waiting
      · intro voter inside
        rcases Finset.mem_insert.mp inside with rfl | before
        · exact nodup.not_mem_erase
        · exact stillApart voter before
      · intro voter inside
        rcases Finset.mem_insert.mp inside with rfl | before
        · rw [sameNode, sameTerm]
          exact vote rfl
        · exact ballots voter before

theorem Round.Valid.settle {round : Round} (valid : round.Valid cluster) (id : Nat)
    (peer : NodeId) : (round.settle id peer).Valid cluster := by
  unfold Round.settle
  split
  · exact valid
  · exact valid

theorem Proposal.Valid.resume {proposal : Proposal} (valid : proposal.Valid record)
    (round : Nat) : (proposal.resume round).Valid record := by
  unfold Proposal.resume
  split
  · exact valid
  · exact valid

section

variable {Thread : Type} {threads : List Thread} {Holds : Thread → Prop}

variable (all : ∀ thread ∈ threads, Holds thread)
include all

theorem forall_mem_concat {added : Thread} (new : Holds added) : ∀ thread ∈ threads ++ [added], Holds thread := by
  intro thread inside
  rcases mem_append.mp inside with before | last
  · exact all thread before
  · rw [mem_singleton] at last
    exact last ▸ new

theorem forall_mem_set {pos : Nat} {replacement : Thread} (new : Holds replacement) :
    ∀ thread ∈ threads.set pos replacement, Holds thread := by
  intro thread inside
  rcases mem_or_eq_of_mem_set inside with before | rfl
  · exact all thread before
  · exact new

theorem forall_mem_eraseIdx (pos : Nat) : ∀ thread ∈ threads.eraseIdx pos, Holds thread :=
  fun thread inside => all thread (mem_of_mem_eraseIdx inside)

private theorem forall_mem_mapped {change : Thread → Thread} (kept : ∀ thread, Holds thread → Holds (change thread)) :
    ∀ thread ∈ threads.map change, Holds thread :=
  forall_mem_map.mpr fun thread inside => kept thread (all thread inside)

end

section
variable (tracks : Tracks cluster state record)
include tracks

private theorem tracks_startElection {id : NodeId} (ran : state.startElection cluster id = some next) :
    ∃ future, Tracks cluster next future ∧ record ≤ future := by
  unfold State.startElection at ran
  split at ran <;> cases ran
  case isTrue member =>
    obtain ⟨future, follows, campaign, ballot⟩ := follows_startElection tracks.sound (tracks.node id) member
    have after := tracks.setNode follows
    refine ⟨future, { after with
      election := forall_mem_concat after.election ?_, voteRequest := ?_ },
      follows.acts.toExtends⟩
    · refine ⟨member, cluster.peers_nodup id member,
        fun peer waits => ((cluster.mem_peers id member peer).mp waits).1, {id}, rfl, ?_, ?_, ?_⟩
      · simpa [Membership.members] using member
      · intro voter self waits
        rw [Finset.mem_singleton] at self
        exact ((cluster.mem_peers id member voter).mp waits).2 self
      · intro voter self
        rw [Finset.mem_singleton] at self
        exact self ▸ ballot
    · intro request inside
      rcases mem_append.mp inside with before | added
      · exact after.voteRequest request before
      · obtain ⟨peer, _, rfl⟩ := mem_map.mp added
        exact ⟨(state.nodes id).log, campaign, rfl, RaftNode.lastLogTermLocked_eq _⟩

private theorem tracks_replicateToPeer {pos : Nat} {peer : NodeId}
    (ran : state.replicateToPeer pos peer = some next) : Tracks cluster next record := by
  unfold State.replicateToPeer at ran
  split at ran
  · cases ran
  case h_2 round found =>
    have valid := tracks.round round (mem_of_getElem? found)
    have fewer : ∀ other ∈ round.spawned.erase peer, other ∈ cluster.peers round.node :=
      fun other inside => valid other (mem_of_mem_erase inside)
    split at ran
    case isFalse => cases ran
    case isTrue spawned =>
      split at ran <;> cases ran
      case h_1 => exact { tracks with round := forall_mem_set tracks.round fewer }
      case h_2 hdr entries sent =>
        exact { tracks with
          round := forall_mem_set tracks.round fewer
          appendRequest := forall_mem_concat tracks.appendRequest
            (valid_replicateToPeer (tracks.node round.node) (valid peer spawned) sent) }

theorem Tracks.addRound (node : NodeId) (termSnapshot commitSnapshot : Nat)
    {proposals : List Proposal} (valid : ∀ proposal ∈ proposals, proposal.Valid record) : Tracks cluster { state with
      rounds := state.rounds ++ [⟨state.nextRound, node, termSnapshot, commitSnapshot, cluster.peers node, []⟩]
      nextRound := state.nextRound + 1
      proposals } record :=
  { tracks with round := forall_mem_concat tracks.round fun _ => id, proposal := valid }

private theorem tracks_proposeReplicate {pos : Nat} (ran : state.proposeReplicate cluster pos = some next) :
    Tracks cluster next record := by
  unfold State.proposeReplicate at ran
  split at ran
  · cases ran
  case h_2 proposal found =>
    have valid := tracks.proposal proposal (mem_of_getElem? found)
    split at ran
    · split at ran <;> cases ran
      · exact { tracks with proposal := forall_mem_set tracks.proposal valid }
      · exact tracks.addRound _ _ _ (forall_mem_set tracks.proposal valid)
    · cases ran

theorem tracks_step {action : Action} (ran : step cluster state action = some next) :
    ∃ future, Tracks cluster next future ∧ record ≤ future := by
  cases action with
  | startElection id => exact tracks_startElection tracks ran
  | deliverVoteRequest pos =>
    simp only [step, State.deliverVoteRequest] at ran
    split at ran <;> cases ran
    case h_2 found =>
      obtain ⟨future, follows, response⟩ := follows_handleRequestVote tracks.sound
        (tracks.node _) (tracks.voteRequest _ (mem_of_getElem? found))
      have after := tracks.setNode follows
      exact ⟨future, { after with
        voteRequest := forall_mem_eraseIdx after.voteRequest pos
        voteResponse := forall_mem_concat after.voteResponse response },
        follows.acts.toExtends⟩
  | deliverVoteResponse pos =>
    simp only [step, State.deliverVoteResponse] at ran
    split at ran
    · cases ran
    case h_2 found =>
      split at ran <;> cases ran
      obtain ⟨future, follows, counted⟩ := follows_receiveVote tracks.sound
        (tracks.node _) (tracks.voteResponse _ (mem_of_getElem? found))
      have after := tracks.setNode follows
      exact ⟨future, { after with
        election := forall_mem_mapped after.election fun _ valid => valid.settle counted
        voteResponse := forall_mem_eraseIdx after.voteResponse pos },
        follows.acts.toExtends⟩
  | failVoteCall call =>
    cases ran
    exact ⟨record, { tracks with
      election := forall_mem_mapped tracks.election fun _ valid => valid.settle nofun },
      le_refl _⟩
  | finishElection pos =>
    simp only [step, State.finishElection] at ran
    split at ran
    · cases ran
    case h_2 found =>
      split at ran <;> cases ran
      obtain ⟨future, follows⟩ := follows_finishElection tracks.sound
        (tracks.node _) (tracks.election _ (mem_of_getElem? found))
      have after := tracks.setNode follows
      exact ⟨future, { after with election := forall_mem_eraseIdx after.election pos }, follows.acts.toExtends⟩
  | replicateToAllPeers id =>
    simp only [step, State.replicateToAllPeers] at ran
    split at ran <;> cases ran
    · exact ⟨record, tracks, le_refl _⟩
    · exact ⟨record, tracks.addRound _ _ _ tracks.proposal, le_refl _⟩
  | replicateToPeer pos peer =>
    exact ⟨record, tracks_replicateToPeer tracks ran, le_refl _⟩
  | deliverAppendRequest pos =>
    simp only [step, State.deliverAppendRequest] at ran
    split at ran <;> cases ran
    case h_2 found =>
      obtain ⟨future, follows, response⟩ := follows_handleAppendEntries tracks.sound
        (tracks.node _) (tracks.appendRequest _ (mem_of_getElem? found))
      have after := tracks.setNode follows
      exact ⟨future, { after with
        appendRequest := forall_mem_eraseIdx after.appendRequest pos
        appendResponse := forall_mem_concat after.appendResponse response },
        follows.acts.toExtends⟩
  | deliverAppendResponse pos =>
    simp only [step, State.deliverAppendResponse] at ran
    split at ran
    · cases ran
    case h_2 found =>
      split at ran <;> cases ran
      obtain ⟨future, follows⟩ := follows_receiveAppend tracks.sound
        (tracks.node _) (tracks.appendResponse _ (mem_of_getElem? found))
      have after := tracks.setNode follows
      exact ⟨future, { after with
        round := forall_mem_mapped after.round fun _ valid => valid.settle _ _
        appendResponse := forall_mem_eraseIdx after.appendResponse pos },
        follows.acts.toExtends⟩
  | failAppendCall round peer =>
    cases ran
    exact ⟨record, { tracks with
      round := forall_mem_mapped tracks.round fun _ valid => valid.settle _ _ }, le_refl _⟩
  | finishReplicate pos =>
    simp only [step, State.finishReplicate] at ran
    split at ran
    · cases ran
    case h_2 round found =>
      split at ran <;> cases ran
      have after := tracks.setNode (follows_finishReplicate tracks.sound
        (tracks.node round.node) (cluster.peers round.node) round.termSnapshot)
      exact ⟨record, { after with
        round := forall_mem_eraseIdx after.round pos
        proposal := forall_mem_mapped after.proposal fun _ valid => valid.resume _ },
        le_refl _⟩
  | propose id command =>
    simp only [step, State.propose] at ran
    split at ran <;> cases ran
    · exact ⟨record, tracks, le_refl _⟩
    case h_2 accepted =>
      obtain ⟨future, follows, valid⟩ := follows_propose tracks.sound (tracks.node id) accepted
      have after := tracks.setNode follows
      exact ⟨future, { after with proposal := forall_mem_concat after.proposal valid }, follows.acts.toExtends⟩
  | proposeReplicate pos =>
    exact ⟨record, tracks_proposeReplicate tracks ran, le_refl _⟩
  | pollProposal pos =>
    simp only [step, State.pollProposal] at ran
    split at ran
    · cases ran
    · split at ran
      · split at ran <;> cases ran
        · exact ⟨record, tracks, le_refl _⟩
        · exact ⟨record, { tracks with
            proposal := forall_mem_eraseIdx tracks.proposal pos }, le_refl _⟩
      · cases ran
  | timeOutProposal pos =>
    simp only [step, State.timeOutProposal] at ran
    split at ran
    · cases ran
    · split at ran <;> cases ran
      exact ⟨record, { tracks with
        proposal := forall_mem_eraseIdx tracks.proposal pos }, le_refl _⟩

end

theorem Tracks.reaches {allowed : State → Action → Prop} {start finish : State}
    (tracks : Tracks cluster start record) (path : Reaches (step cluster) allowed start finish) :
    ∃ future, Tracks cluster finish future ∧ record ≤ future :=
  path.simulation tracks fun _ _ _ _ tracked _ ran => tracks_step tracked ran

theorem Reachable.tracks (reachable : Reachable cluster state) : ∃ record, Tracks cluster state record := by
  obtain ⟨record, tracks, -⟩ := (Tracks.initial cluster).reaches reachable
  exact ⟨record, tracks⟩

end AnimusCore.Cluster
