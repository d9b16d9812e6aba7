import AnimusCore.Cluster.Tracking

/-! The critical sections of an election, related to the history. Each lemma
takes a node that the history tracks and extends the history by what the block
did: a higher term, a campaign, a ballot or a victory. -/

set_option autoImplicit false

namespace AnimusCore.Cluster

open Lib.Consensus

variable {cluster : Membership} {record : Record} {id : NodeId} {node : RaftNode}

theorem RaftNode.lastLogTermLocked_eq (node : RaftNode) :
    node.lastLogTermLocked = lastTerm LogEntry.term node.log := by
  unfold RaftNode.lastLogTermLocked lastTerm
  cases node.log.getLast? <;> rfl

theorem Follows.trans {middle future : Record} {first second : RaftNode}
    (early : Follows cluster record middle id first) (late : Follows cluster middle future id second) :
    Follows cluster record future id second :=
  ⟨late.sound, early.acts.trans late.acts, late.tracks⟩

section
variable (sound : record.Sound cluster) (tracks : NodeTracks cluster record id node)
include sound tracks

theorem NodeTracks.ballot_eq_none {term : Nat} (ahead : node.currentTerm < term) : record.ballot id term = none := by
  cases cast : record.ballot id term with
  | none => rfl
  | some ballot =>
    have reached := sound.ballot_term cast
    rw [tracks.term_eq] at reached
    exact absurd reached (Nat.not_le.mpr ahead)

theorem follows_higher_term {term : Nat} (ahead : node.currentTerm < term) {raised : RaftNode} (role : raised.role = .follower)
    (currentTerm : raised.currentTerm = term) (vote : raised.hasVotedThisTerm = false) (log : raised.log = node.log) :
    Follows cluster record (record.raise id term) id raised := by
  have higher : record.term id ≤ term := tracks.term_eq ▸ ahead.le
  refine ⟨sound.raise higher, History.ActsAs.raise higher, ?_⟩
  have notLeader : raised.role ≠ .leader := by simp [role]
  have notCandidate : raised.role ≠ .candidate := by simp [role]
  exact {
    term_eq := by simp [History.raise, currentTerm]
    log_eq := tracks.log_eq.trans log.symm
    member := fun active => absurd role active
    leader_won := fun leads => absurd leads notLeader
    leader_log := fun leads => absurd leads notLeader
    leader_acked := fun leads => absurd leads notLeader
    match_acked := fun leads => absurd leads notLeader
    next_bound := fun leads => absurd leads notLeader
    candidate_ran := fun runs => absurd runs notCandidate
    candidate_open := fun runs => absurd runs notCandidate
    voted := fun set => by simp [vote] at set
    unvoted := fun _ => by
      rw [currentTerm]
      exact tracks.ballot_eq_none sound ahead }

theorem follows_stepDown {term : Nat} (ahead : node.currentTerm < term) :
    Follows cluster record (record.raise id term) id (node.stepDown term) :=
  follows_higher_term sound tracks ahead rfl rfl rfl rfl

theorem Follows.refl : Follows cluster record record id node :=
  ⟨sound, History.ActsAs.refl id record, tracks⟩

private theorem follows_cast {candidate : NodeId} {log : List LogEntry} (unset : node.hasVotedThisTerm = false)
    (ran : record.campaign candidate node.currentTerm = some log) (recent : UpToDate LogEntry.term log node.log) :
    Follows cluster record (record.cast id candidate) id
      { node with hasVotedThisTerm := true, votedFor := candidate } := by
  have fresh : record.ballot id (record.term id) = none := by
    rw [tracks.term_eq]
    exact tracks.unvoted unset
  refine ⟨sound.cast fresh (tracks.term_eq ▸ ran) (tracks.log_eq ▸ recent), History.ActsAs.cast fresh, ?_⟩
  refine { tracks with voted := ?_, unvoted := ?_ }
  · intro _
    refine ⟨⟨candidate, record.log id, record.winner (record.term id) = none⟩, ?_, rfl⟩
    simp [History.cast, tracks.term_eq]
  · intro unset
    simp at unset

end

theorem RaftNode.logOk_upToDate {args : RequestVoteArgs} {log : List LogEntry} (ok : node.logOk args = true)
    (index : args.lastLogIndex = log.length) (term : args.lastLogTerm = lastTerm LogEntry.term log) :
    UpToDate LogEntry.term log node.log := by
  simp only [RaftNode.logOk, Bool.or_eq_true, decide_eq_true_eq, Bool.and_eq_true, beq_iff_eq,
    RaftNode.lastLogTermLocked_eq] at ok
  rw [term, index] at ok
  exact ok

/-- `handle_request_vote`: the voter follows, and a granted vote is recorded. -/
theorem follows_handleRequestVote (sound : record.Sound cluster) {request : VoteRequest}
    (tracks : NodeTracks cluster record request.call.peer node) (valid : request.Valid record) :
    ∃ future, Follows cluster record future request.call.peer
        (node.handleRequestVote request.call.node request.args).1 ∧
      VoteResponse.Valid future ⟨request.call, (node.handleRequestVote request.call.node request.args).2⟩ := by
  -- First the term: the voter is at least at the request's term afterwards.
  obtain ⟨raised, same, followed, reached⟩ : ∃ raised,
      raised = (if request.args.term > node.currentTerm then node.stepDown request.args.term
        else node) ∧
      (∃ middle, Follows cluster record middle request.call.peer raised) ∧
      request.args.term ≤ raised.currentTerm := by
    by_cases ahead : request.args.term > node.currentTerm
    · exact ⟨_, (if_pos ahead).symm, ⟨_, follows_stepDown sound tracks ahead⟩, le_refl _⟩
    · exact ⟨_, (if_neg ahead).symm, ⟨_, .refl sound tracks⟩, Nat.le_of_not_lt ahead⟩
  obtain ⟨middle, followed⟩ := followed
  unfold RaftNode.handleRequestVote
  rw [← same]
  by_cases grant : request.args.term ≥ raised.currentTerm ∧
      (!raised.hasVotedThisTerm || raised.votedFor == request.call.node) ∧
      raised.logOk request.args
  · simp only [grant, and_self, ↓reduceIte]
    obtain ⟨current, free, ok⟩ := grant
    have sameTerm : request.args.term = raised.currentTerm := le_antisymm reached current
    obtain ⟨log, ran, index, term⟩ := valid.mono followed.acts.toExtends
    rw [sameTerm] at ran
    cases set : raised.hasVotedThisTerm with
    | false =>
      have cast := follows_cast followed.sound followed.tracks set ran (RaftNode.logOk_upToDate ok index term)
      exact ⟨_, followed.trans cast, fun _ => cast.tracks.voted rfl⟩
    | true =>
      -- A repeated request of the candidate already voted for changes nothing.
      have forNode : raised.votedFor = request.call.node := by simpa [set] using free
      have unchanged : { raised with
          hasVotedThisTerm := true, votedFor := request.call.node } = raised := by
        rw [← set, ← forNode]
      rw [unchanged]
      obtain ⟨ballot, recorded, candidate⟩ := followed.tracks.voted set
      exact ⟨middle, followed, fun _ => ⟨ballot, recorded, candidate.trans forNode⟩⟩
  · simp only [grant, ↓reduceIte]
    exact ⟨middle, followed, fun granted => absurd granted (by simp)⟩

/-- The first block of `start_election`: the node campaigns and votes for itself. -/
theorem follows_startElection (sound : record.Sound cluster)
    (tracks : NodeTracks cluster record id node) (member : id ∈ cluster.ids) :
    ∃ future, Follows cluster record future id (node.startElection id).1 ∧
      future.campaign id (node.currentTerm + 1) = some node.log ∧
      ∃ ballot, future.ballot id (node.currentTerm + 1) = some ballot ∧ ballot.candidate = id := by
  have ahead := Nat.lt_succ_self node.currentTerm
  have stepped := follows_stepDown sound tracks ahead
  have fresh : (record.raise id (node.currentTerm + 1)).campaign id
      ((record.raise id (node.currentTerm + 1)).term id) = none := by
    cases ran : record.campaign id (node.currentTerm + 1) with
    | none => simpa [History.raise] using ran
    | some log =>
      have reached := sound.campaign_term ran
      rw [tracks.term_eq] at reached
      exact absurd reached (Nat.not_le.mpr ahead)
  have older : ∀ entry ∈ (record.raise id (node.currentTerm + 1)).log id,
      entry.term < (record.raise id (node.currentTerm + 1)).term id := by
    intro entry inside
    have bound := sound.log_le id entry inside
    rw [tracks.term_eq] at bound
    simpa [History.raise] using Nat.lt_succ_of_le bound
  have enlisted := stepped.sound.enlist fresh older
  have campaign : ((record.raise id (node.currentTerm + 1)).enlist id).campaign id
      (node.currentTerm + 1) = some node.log := by
    simp [History.enlist, History.raise, tracks.log_eq]
  have running : Follows cluster record ((record.raise id (node.currentTerm + 1)).enlist id) id
      { node.stepDown (node.currentTerm + 1) with role := .candidate, hasLeader := false } := by
    refine ⟨enlisted, stepped.acts.trans (History.ActsAs.enlist fresh), ?_⟩
    refine {
      term_eq := stepped.tracks.term_eq
      log_eq := stepped.tracks.log_eq
      member := fun _ => member
      leader_won := by rintro ⟨⟩
      leader_log := by rintro ⟨⟩
      leader_acked := by rintro ⟨⟩
      match_acked := by rintro ⟨⟩
      next_bound := by rintro ⟨⟩
      candidate_ran := fun _ => campaign
      candidate_open := fun _ => ?_
      voted := by rintro ⟨⟩
      unvoted := fun _ => stepped.tracks.unvoted rfl }
    -- The campaign of a winner is recorded, and this node has just reached the term.
    intro won
    obtain ⟨_, _, ran, _⟩ := sound.elected won
    have reached := sound.campaign_term ran
    rw [tracks.term_eq] at reached
    exact absurd reached (Nat.not_le.mpr ahead)
  have recent : UpToDate LogEntry.term node.log node.log := .inr ⟨rfl, le_refl _⟩
  have cast := follows_cast running.sound running.tracks rfl campaign recent
  exact ⟨_, running.trans cast, campaign, cast.tracks.voted rfl⟩

theorem follows_receiveVote (sound : record.Sound cluster) {response : VoteResponse}
    (tracks : NodeTracks cluster record response.call.node node) (valid : response.Valid record) :
    ∃ future, Follows cluster record future response.call.node
        (node.receiveVote response.call.term response.result).1 ∧
      ((node.receiveVote response.call.term response.result).2 = true → ∃ ballot,
        future.ballot response.call.peer response.call.term = some ballot ∧
          ballot.candidate = response.call.node) := by
  unfold RaftNode.receiveVote
  by_cases ahead : response.result.term > node.currentTerm
  · simp only [ahead, ↓reduceIte]
    exact ⟨_, follows_stepDown sound tracks ahead, nofun⟩
  · simp only [ahead, ↓reduceIte]
    refine ⟨record, .refl sound tracks, fun counted => ?_⟩
    rw [Bool.and_eq_true, beq_iff_eq] at counted
    exact counted.2 ▸ valid counted.1

theorem quorum_of_votes {voters : Finset NodeId} (member : id ∈ cluster.ids)
    (within : voters ⊆ cluster.members) {votes : Nat} (tally : voters.card = votes)
    (enough : votes ≥ majority (cluster.peers id)) : Quorum cluster.members voters := by
  refine ⟨within, ?_⟩
  have size : cluster.members.card = (cluster.peers id).length + 1 := by
    have split : cluster.members = insert id (cluster.peers id).toFinset := by
      ext other
      simp only [Membership.members, List.mem_toFinset, Finset.mem_insert, cluster.mem_peers id member]
      by_cases same : other = id <;> simp [same, member]
    rw [split, Finset.card_insert_of_notMem, List.toFinset_card_of_nodup (cluster.peers_nodup id member)]
    simp [cluster.mem_peers id member]
  unfold majority at enough
  omega

/-- The last block of `start_election`: a candidate with a majority of the
recorded ballots wins its term and leads it with a no-op entry. -/
theorem follows_finishElection (sound : record.Sound cluster) {election : Election}
    (tracks : NodeTracks cluster record election.node node) (valid : election.Valid cluster record) :
    ∃ future, Follows cluster record future election.node
      (node.finishElection election.node (cluster.peers election.node) election.term election.votes) := by
  unfold RaftNode.finishElection
  split
  case isFalse => exact ⟨record, .refl sound tracks⟩
  case isTrue won =>
      obtain ⟨runs, sameTerm, enough⟩ := won
      obtain ⟨member, -, -, voters, tally, within, -, ballots⟩ := valid
      have quorum := quorum_of_votes member within tally enough
      rw [← sameTerm] at ballots
      have vacant := sound.winner_eq_none quorum ballots (tracks.candidate_open runs)
      have ran := tracks.candidate_ran runs
      rw [← tracks.term_eq] at vacant ballots ran
      rw [← tracks.log_eq] at ran
      have elected := History.Sound.elect sound vacant ran quorum ballots
      have electedActs := History.ActsAs.elect sound vacant
      have winner : (record.elect election.node).winner
          ((record.elect election.node).term election.node) = some election.node := by
        simp [History.elect]
      have whole : (record.elect election.node).leaderLog ((record.elect election.node).term election.node) =
          (record.elect election.node).log election.node := by
        simp [History.elect]
      have own : (RaftNode.noopEntry node.currentTerm).term =
          (record.elect election.node).term election.node := tracks.term_eq.symm
      refine ⟨(record.elect election.node).lead election.node (RaftNode.noopEntry node.currentTerm),
        elected.lead winner whole own, electedActs.trans (History.ActsAs.lead _ winner), ?_⟩
      refine {
        term_eq := tracks.term_eq
        log_eq := ?_
        member := fun _ => member
        leader_won := fun _ => ?_
        leader_log := fun _ => ?_
        leader_acked := fun _ => ?_
        match_acked := fun _ peer inside => ?_
        next_bound := fun _ peer inside => ?_
        candidate_ran := by rintro ⟨⟩
        candidate_open := by rintro ⟨⟩
        voted := tracks.voted
        unvoted := tracks.unvoted }
      · simp [History.lead, History.acknowledge, History.relog, History.extend, History.elect, tracks.log_eq]
      · simp [History.lead, History.acknowledge, History.relog, History.extend, History.elect, tracks.term_eq]
      · simp [History.lead, History.acknowledge, History.relog, History.extend, History.elect,
          tracks.log_eq, tracks.term_eq]
      · simp [History.lead, History.acknowledge, History.relog, History.extend, History.elect,
          tracks.log_eq, tracks.term_eq]
      · simp [inside]
      · simp [inside]

end AnimusCore.Cluster
