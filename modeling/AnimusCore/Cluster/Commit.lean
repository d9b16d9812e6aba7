import AnimusCore.Cluster.Simulation

/-! Committed entries. A leader commits what a majority acknowledged in its own
term; a follower adopts the leader's commit index. The follower's update is only
justified up to the last entry of the request, because entries behind it were
never compared with the leader's log. -/

set_option autoImplicit false

namespace AnimusCore.Cluster

open Lib Lib.Consensus List

variable {cluster : Membership} {record : Record} {id : NodeId} {node : RaftNode}

abbrev Record.Committed (cluster : Membership) (record : Record) (term : Nat) (front : List LogEntry) : Prop :=
  History.Committed cluster.members LogEntry.term record term front

theorem commitLoop_cases (node : RaftNode) (peers : List NodeId) (index : Nat) :
    node.commitLoop peers index = node ∨ ∃ pos entry, node.commitIndex < pos + 1 ∧
        node.log[pos]? = some entry ∧ entry.term = node.currentTerm ∧
        majority peers ≤ node.replicaCount peers (pos + 1) ∧ node.commitLoop peers index =
          RaftNode.applyCommittedEntriesLocked { node with commitIndex := pos + 1 } := by
  induction index with
  | zero => exact .inl rfl
  | succ index ih =>
    unfold RaftNode.commitLoop
    split
    case isTrue => exact .inl rfl
    case isFalse above =>
      split
      case isTrue => exact ih
      case isFalse own =>
        split
        case isFalse => exact ih
        case isTrue enough =>
          obtain ⟨entry, found, term⟩ := Option.map_eq_some_iff.mp (Classical.not_not.mp own)
          exact .inr ⟨index, entry, Nat.lt_of_not_le above, found, term, enough, rfl⟩

theorem decided_of_replicaCount (tracks : NodeTracks cluster record id node)
    (leads : node.role = .leader) {pos : Nat} {entry : LogEntry}
    (found : node.log[pos]? = some entry) (own : entry.term = node.currentTerm)
    (enough : majority (cluster.peers id) ≤ node.replicaCount (cluster.peers id) (pos + 1)) :
    History.Decided cluster.members LogEntry.term record node.currentTerm (pos + 1) := by
  have member := tracks.member (by simp [leads])
  have nodup := cluster.peers_nodup id member
  refine ⟨Nat.succ_pos _, ?_, insert id ((cluster.peers id).filter fun peer =>
    node.matchIndex peer ≥ pos + 1).toFinset, ?_, ?_⟩
  · rw [tracks.leader_log leads, take_succ_eq found, lastTerm_concat, own]
  · have apart : id ∉ ((cluster.peers id).filter fun peer =>
        node.matchIndex peer ≥ pos + 1).toFinset := by
      simp [cluster.mem_peers id member]
    refine quorum_of_votes member ?_ (Finset.card_insert_of_notMem apart) ?_
    · refine Finset.insert_subset (by simpa [Membership.members] using member) ?_
      intro peer inside
      simp only [mem_toFinset, mem_filter, cluster.mem_peers id member] at inside
      simpa [Membership.members] using inside.1.1
    · rw [toFinset_card_of_nodup (nodup.filter _)]
      unfold RaftNode.replicaCount at enough
      omega
  · intro voter inside
    rcases Finset.mem_insert.mp inside with rfl | peer
    · have bound := (List.getElem?_eq_some_iff.mp found).1
      have acked := tracks.leader_acked leads
      omega
    · simp only [mem_toFinset, mem_filter, decide_eq_true_eq] at peer
      exact peer.2.trans (tracks.match_acked leads voter peer.1)

/-- The node's commit index covers a committed prefix of its log, and the node
applied a part of that prefix in order. -/
structure NodeCommits (cluster : Membership) (record : Record) (node : RaftNode) : Prop where
  bound : node.commitIndex ≤ node.log.length
  committed : record.Committed cluster node.currentTerm (node.log.take node.commitIndex)
  lastApplied_le : node.lastApplied ≤ node.commitIndex
  applied_eq : node.applied = node.log.take node.lastApplied

def CommitSnapshot (cluster : Membership) (record : Record) (term commitIndex : Nat) : Prop :=
  commitIndex ≤ (record.leaderLog term).length ∧
    record.Committed cluster term ((record.leaderLog term).take commitIndex)

structure Commits (cluster : Membership) (state : State) (record : Record) : Prop where
  node : ∀ id, NodeCommits cluster record (state.nodes id)
  round : ∀ round ∈ state.rounds, CommitSnapshot cluster record round.termSnapshot round.commitSnapshot
  request : ∀ request ∈ state.appendRequests, CommitSnapshot cluster record request.hdr.term request.hdr.leaderCommit

variable {future : Record}

theorem NodeCommits.mono (commits : NodeCommits cluster record node) (sound : record.Sound cluster)
    (grown : record ≤ future) : NodeCommits cluster future node :=
  { commits with committed := commits.committed.mono sound grown (le_refl _) }

variable {term : Nat}

theorem CommitSnapshot.mono {commitIndex : Nat} (snapshot : CommitSnapshot cluster record term commitIndex)
    (sound : record.Sound cluster) (grown : record ≤ future) : CommitSnapshot cluster future term commitIndex := by
  refine ⟨snapshot.1.trans (grown.leaderLog_prefix term).length_le, ?_⟩
  rw [grown.take_leaderLog snapshot.1]
  exact snapshot.2.mono sound grown (le_refl _)

theorem Commits.mono {state : State} (commits : Commits cluster state record)
    (sound : record.Sound cluster) (grown : record ≤ future) : Commits cluster state future where
  node other := (commits.node other).mono sound grown
  round round inside := (commits.round round inside).mono sound grown
  request request inside := (commits.request request inside).mono sound grown

structure NodeAdvances (cluster : Membership) (record : Record) (node changed : RaftNode) : Prop where
  commits : NodeCommits cluster record changed
  commitIndex_le : node.commitIndex ≤ changed.commitIndex

variable {changed : RaftNode}

theorem NodeAdvances.trans {middle : RaftNode} (first : NodeAdvances cluster record node middle)
    (second : NodeAdvances cluster record middle changed) : NodeAdvances cluster record node changed :=
  ⟨second.commits, first.commitIndex_le.trans second.commitIndex_le⟩

theorem NodeCommits.keep (commits : NodeCommits cluster record node) (sound : record.Sound cluster)
    (term : node.currentTerm ≤ changed.currentTerm) (part : node.log.take node.commitIndex <+: changed.log)
    (commitIndex : changed.commitIndex = node.commitIndex) (lastApplied : changed.lastApplied = node.lastApplied)
    (applied : changed.applied = node.applied) : NodeAdvances cluster record node changed := by
  have length : (node.log.take node.commitIndex).length = node.commitIndex := by
    rw [length_take, min_eq_left commits.bound]
  have same : changed.log.take node.commitIndex = node.log.take node.commitIndex := by
    have whole := prefix_iff_eq_take.mp part
    rw [length] at whole
    exact whole.symm
  refine ⟨⟨?_, ?_, ?_, ?_⟩, commitIndex.ge⟩
  · rw [commitIndex, ← length]
    exact part.length_le
  · rw [commitIndex, same]
    exact commits.committed.mono sound (le_refl record) term
  · rw [commitIndex, lastApplied]
    exact commits.lastApplied_le
  · rw [applied, lastApplied, commits.applied_eq]
    have shorter := congrArg (List.take node.lastApplied) same
    rw [take_take, take_take, min_eq_left commits.lastApplied_le] at shorter
    exact shorter.symm

private theorem applyLoop_applied (fuel : Nat) (node : RaftNode) (inside : node.lastApplied + fuel ≤ node.log.length)
    (applied : node.applied = node.log.take node.lastApplied) :
    (node.applyLoop fuel).lastApplied = node.lastApplied + fuel ∧
      (node.applyLoop fuel).applied = node.log.take (node.lastApplied + fuel) := by
  induction fuel generalizing node with
  | zero => exact ⟨rfl, applied⟩
  | succ fuel ih =>
    have bound : node.lastApplied < node.log.length := by omega
    have found := List.getElem?_eq_getElem bound
    unfold RaftNode.applyLoop
    rw [found]
    obtain ⟨last, entries⟩ := ih { node with
      engine := if node.log[node.lastApplied].isNoop then node.engine
        else node.engine ++ [node.log[node.lastApplied].command]
      applied := node.applied ++ [node.log[node.lastApplied]]
      lastApplied := node.lastApplied + 1 } (by simp only; omega)
      (by simp only [applied]; exact (take_succ_eq found).symm)
    have total : node.lastApplied + 1 + fuel = node.lastApplied + (fuel + 1) := by omega
    rw [← total]
    exact ⟨last, entries⟩

theorem NodeCommits.advance (commits : NodeCommits cluster record node) {commitIndex : Nat}
    (above : node.commitIndex ≤ commitIndex) (bound : commitIndex ≤ node.log.length)
    (committed : record.Committed cluster node.currentTerm (node.log.take commitIndex)) :
    NodeAdvances cluster record node (RaftNode.applyCommittedEntriesLocked { node with commitIndex }) := by
  unfold RaftNode.applyCommittedEntriesLocked
  have reach := commits.lastApplied_le.trans above
  have restored : node.lastApplied + (commitIndex - node.lastApplied) = commitIndex := by omega
  obtain ⟨last, entries⟩ := applyLoop_applied (commitIndex - node.lastApplied)
    { node with commitIndex } (by simp only; omega) commits.applied_eq
  simp only [restored] at last entries
  obtain ⟨lastApplied, applied, engine, same⟩ := RaftNode.applyLoop_eq
    (commitIndex - node.lastApplied) { node with commitIndex }
  rw [same] at last entries ⊢
  simp only at last entries
  exact ⟨⟨bound, committed, last.le, by simp only [last, entries]⟩, above⟩

structure RaftNode.Keeps (node changed : RaftNode) : Prop where
  term_le : node.currentTerm ≤ changed.currentTerm
  log_grown : node.log <+: changed.log
  commitIndex_eq : changed.commitIndex = node.commitIndex
  lastApplied_eq : changed.lastApplied = node.lastApplied
  applied_eq : changed.applied = node.applied

theorem NodeCommits.of_keeps (commits : NodeCommits cluster record node) (sound : record.Sound cluster)
    (keeps : node.Keeps changed) : NodeAdvances cluster record node changed :=
  commits.keep sound keeps.term_le ((List.take_prefix _ _).trans keeps.log_grown)
    keeps.commitIndex_eq keeps.lastApplied_eq keeps.applied_eq

private theorem keeps_refl (node : RaftNode) : node.Keeps node :=
  ⟨le_refl _, prefix_refl _, rfl, rfl, rfl⟩

private theorem keeps_stepDown (ahead : node.currentTerm ≤ term) : node.Keeps (node.stepDown term) :=
  ⟨ahead, prefix_refl _, rfl, rfl, rfl⟩

theorem followLeader_log (node : RaftNode) (leaderId : NodeId) (term : Nat) :
    (node.followLeader leaderId term).log = node.log := by
  unfold RaftNode.followLeader
  split <;> rfl

theorem followLeader_currentTerm (leaderId : NodeId) (current : node.currentTerm ≤ term) :
    (node.followLeader leaderId term).currentTerm = term := by
  unfold RaftNode.followLeader
  split
  · rfl
  case isFalse same => exact le_antisymm current (Nat.le_of_not_lt same)

section
variable (node)

private theorem keeps_followLeader (leaderId : NodeId) (term : Nat) : node.Keeps (node.followLeader leaderId term) := by
  unfold RaftNode.followLeader
  split
  case isTrue ahead => exact ⟨Nat.le_of_lt ahead, prefix_refl _, rfl, rfl, rfl⟩
  case isFalse => exact { keeps_refl node with }

private theorem keeps_startElection (id : NodeId) : node.Keeps (node.startElection id).1 :=
  ⟨Nat.le_succ _, prefix_refl _, rfl, rfl, rfl⟩

private theorem keeps_handleRequestVote (candidateId : NodeId) (args : RequestVoteArgs) :
    node.Keeps (node.handleRequestVote candidateId args).1 := by
  have raised : node.Keeps (if args.term > node.currentTerm then node.stepDown args.term else node) := by
    split
    case isTrue ahead => exact keeps_stepDown (Nat.le_of_lt ahead)
    case isFalse => exact keeps_refl node
  unfold RaftNode.handleRequestVote
  simp only
  generalize (if args.term > node.currentTerm then node.stepDown args.term else node) = voter at raised ⊢
  split
  · exact { raised with }
  · exact raised

private theorem keeps_receiveVote (term : Nat) (result : RequestVoteResult) :
    node.Keeps (node.receiveVote term result).1 := by
  unfold RaftNode.receiveVote
  split
  case isTrue ahead => exact keeps_stepDown (Nat.le_of_lt ahead)
  case isFalse => exact keeps_refl node

private theorem keeps_finishElection (id : NodeId) (peers : List NodeId) (term votes : Nat) :
    node.Keeps (node.finishElection id peers term votes) := by
  unfold RaftNode.finishElection
  split
  · exact ⟨le_refl _, prefix_append _ _, rfl, rfl, rfl⟩
  · exact keeps_refl node

private theorem keeps_receiveAppend (peer : NodeId) (term prev count : Nat) (result : AppendEntriesResult) :
    node.Keeps (node.receiveAppend peer term prev count result) := by
  unfold RaftNode.receiveAppend
  split
  case isTrue ahead => exact keeps_stepDown (Nat.le_of_lt ahead)
  case isFalse =>
    split
    · exact keeps_refl node
    · split
      · exact { keeps_refl node with }
      · split
        · exact { keeps_refl node with }
        · exact keeps_refl node

end

private theorem keeps_propose {command : AddRuleCommand} {appended : RaftNode} {entry : LogEntry} {myIndex : Nat}
    (accepted : node.propose command = .ok (appended, entry, myIndex)) : node.Keeps appended := by
  unfold RaftNode.propose at accepted
  split at accepted
  · cases accepted
  · cases accepted
    exact ⟨le_refl _, prefix_append _ _, rfl, rfl, rfl⟩

/-- The last block of `replicate_to_all_peers` commits what its leader decided. -/
theorem NodeCommits.finishReplicate (commits : NodeCommits cluster record node)
    (tracks : NodeTracks cluster record id node) (termSnapshot : Nat) :
    NodeAdvances cluster record node (node.finishReplicate (cluster.peers id) termSnapshot) := by
  unfold RaftNode.finishReplicate
  split
  · exact ⟨commits, le_refl _⟩
  case isFalse active =>
    simp only [ne_eq, not_or, Classical.not_not] at active
    rcases commitLoop_cases node (cluster.peers id) node.log.length with
      unchanged | ⟨pos, entry, above, found, own, enough, ran⟩
    · rw [unchanged]
      exact ⟨commits, le_refl _⟩
    · rw [ran]
      have decided := decided_of_replicaCount tracks active.1 found own enough
      refine commits.advance above.le (List.getElem?_eq_some_iff.mp found).1
        (.inr ⟨node.currentTerm, pos + 1, le_refl _, decided, ?_⟩)
      rw [tracks.leader_log active.1]

/-- The request passes the checks of `handle_append_entries`, matches the node's
log, and names a commit index behind its last entry while the node's log also goes
on behind it. The commit index then moves over entries the request never named. -/
def RaftNode.commitsBeyondSlice (node : RaftNode) (hdr : AppendEntriesHeader) (entries : List LogEntry) : Bool :=
  let last := hdr.prevLogIndex + entries.length
  decide (hdr.term ≥ node.currentTerm) && (hdr.prevLogIndex == 0 ||
      (node.log[hdr.prevLogIndex - 1]?).map (·.term) == some hdr.prevLogTerm) &&
    ((node.log.drop hdr.prevLogIndex).take entries.length).map (·.term) == entries.map (·.term) &&
    decide (hdr.leaderCommit > node.commitIndex) && decide (hdr.leaderCommit > last) &&
    decide (node.log.length > last)

theorem NodeCommits.on_leader (commits : NodeCommits cluster record node) (sound : record.Sound cluster)
    (elected : record.winner term ≠ none) (current : node.currentTerm ≤ term) :
    node.log.take node.commitIndex <+: record.leaderLog term :=
  sound.committed_prefix commits.committed elected current

theorem NodeCommits.le_conflict (commits : NodeCommits cluster record node) {leader : List LogEntry}
    (agrees : node.log.take node.commitIndex <+: leader) {index : Nat} {mine theirs : LogEntry}
    (mineFound : node.log[index]? = some mine) (theirsFound : leader[index]? = some theirs)
    (differ : mine.term ≠ theirs.term) : node.commitIndex ≤ index := by
  by_contra inside
  have below : index < (node.log.take node.commitIndex).length := by
    rw [length_take, min_eq_left commits.bound]
    exact Nat.lt_of_not_le inside
  have same := prefix_getElem?_eq agrees below
  rw [theirsFound, List.getElem?_take_of_lt (Nat.lt_of_not_le inside), mineFound, Option.some.injEq] at same
  exact differ (congrArg LogEntry.term same.symm)

private theorem take_eq_of_held {leader log : List LogEntry} {count : Nat} (inside : count ≤ leader.length)
    (held : leader.take count <+: log) : log.take count = leader.take count := by
  have whole := prefix_iff_eq_take.mp held
  rw [length_take, min_eq_left inside] at whole
  exact whole.symm

variable {request : AppendRequest}

private theorem slice_of_held (valid : request.Valid record) {log : List LogEntry}
    (held : (record.leaderLog request.hdr.term).take (request.hdr.prevLogIndex + request.entries.length) <+: log) :
    (log.drop request.hdr.prevLogIndex).take request.entries.length = request.entries := by
  rw [take_drop, take_eq_of_held valid.inside held, ← take_drop]
  exact valid.slice.symm

/-- The accepted slice keeps the committed prefix, and the new commit index covers
leader entries only, unless it moved behind the slice. -/
theorem NodeCommits.acceptEntries (commits : NodeCommits cluster record node)
    (sound : record.Sound cluster) (tracks : NodeTracks cluster record id node) (valid : request.Valid record)
    (snapshot : CommitSnapshot cluster record request.hdr.term request.hdr.leaderCommit)
    {raised : RaftNode} (current : node.currentTerm ≤ request.hdr.term)
    (term : raised.currentTerm = request.hdr.term) (keeps : node.Keeps raised) (log : raised.log = node.log)
    (agreed : node.log.take request.hdr.prevLogIndex =
      (record.leaderLog request.hdr.term).take request.hdr.prevLogIndex)
    (reached : request.hdr.prevLogIndex ≤ node.log.length) (covered : request.hdr.leaderCommit > node.commitIndex →
      ((node.log.drop request.hdr.prevLogIndex).take request.entries.length).map
        LogEntry.term = request.entries.map LogEntry.term →
      request.hdr.leaderCommit ≤ request.hdr.prevLogIndex + request.entries.length ∨
        node.log.length ≤ request.hdr.prevLogIndex + request.entries.length) :
    NodeAdvances cluster record node (raised.acceptEntries request.hdr request.entries) := by
  have elected : record.winner request.hdr.term ≠ none := by
    rw [valid.won]
    simp
  have agrees := commits.on_leader sound elected current
  have outcome := appendLoop_cases (record.leaderLog request.hdr.term) node.log request.hdr.prevLogIndex
    request.entries valid.inside valid.slice agreed reached (fun _ _ _ => tracks.matching sound request.hdr.term)
  simp only [RaftNode.acceptEntries, log, keeps.commitIndex_eq]
  generalize RaftNode.appendLoop node.log request.hdr.prevLogIndex request.entries = newLog at outcome ⊢
  have kept : node.log.take node.commitIndex <+: newLog := by
    rcases outcome with ⟨rfl, -⟩ | ⟨rfl, shorter | conflict⟩
    · exact take_prefix _ _
    · exact (List.take_prefix _ _).trans shorter
    · obtain ⟨index, mine, theirs, common, mineFound, theirsFound, differ⟩ := conflict
      exact (take_prefix_take_left (commits.le_conflict agrees mineFound theirsFound differ)).trans common
  have appended : NodeAdvances cluster record node { raised with log := newLog } :=
    commits.keep sound keeps.term_le kept keeps.commitIndex_eq keeps.lastApplied_eq keeps.applied_eq
  split
  case isFalse => simpa only [keeps.commitIndex_eq] using appended
  case isTrue above =>
    have bound : min request.hdr.leaderCommit newLog.length ≤ request.hdr.prevLogIndex + request.entries.length := by
      rcases outcome with ⟨rfl, held⟩ | ⟨rfl, -⟩
      · rcases covered above (by rw [slice_of_held valid held]) with within | within
        · exact (min_le_left _ _).trans within
        · exact (min_le_right _ _).trans within
      · rw [length_take]
        omega
    have holds : (record.leaderLog request.hdr.term).take
        (request.hdr.prevLogIndex + request.entries.length) <+: newLog := by
      rcases outcome with ⟨rfl, held⟩ | ⟨rfl, -⟩
      · exact held
      · exact prefix_refl _
    have same := take_eq_of_held (bound.trans valid.inside) ((take_prefix_take_left bound).trans holds)
    have raisedIndex : node.commitIndex ≤ min request.hdr.leaderCommit newLog.length :=
      le_min above.le (appended.commitIndex_le.trans appended.commits.bound)
    refine appended.trans (appended.commits.advance ?_ (min_le_right _ _) ?_)
    · rw [keeps.commitIndex_eq]
      exact raisedIndex
    · rw [term, same]
      exact snapshot.2.restrict (take_prefix_take_left (min_le_left _ _))

theorem NodeCommits.handleAppendEntries (commits : NodeCommits cluster record node) (sound : record.Sound cluster)
    (tracks : NodeTracks cluster record request.call.peer node) (valid : request.Valid record)
    (snapshot : CommitSnapshot cluster record request.hdr.term request.hdr.leaderCommit)
    (covered : node.commitsBeyondSlice request.hdr request.entries = false) :
    NodeAdvances cluster record node (node.handleAppendEntries request.call.node request.hdr request.entries).1 := by
  unfold RaftNode.handleAppendEntries
  by_cases stale : request.hdr.term < node.currentTerm
  · simp only [stale, ↓reduceIte]
    exact ⟨commits, le_refl _⟩
  simp only [stale, ↓reduceIte]
  have current := Nat.le_of_not_lt stale
  have term := followLeader_currentTerm request.call.node current
  have keeps := keeps_followLeader node request.call.node request.hdr.term
  have log := followLeader_log node request.call.node request.hdr.term
  have elected : record.winner request.hdr.term ≠ none := by
    rw [valid.won]
    simp
  have accept : (request.hdr.prevLogIndex = 0 ∨
        (node.log[request.hdr.prevLogIndex - 1]?).map LogEntry.term = some request.hdr.prevLogTerm) →
      node.log.take request.hdr.prevLogIndex = (record.leaderLog request.hdr.term).take request.hdr.prevLogIndex →
      request.hdr.prevLogIndex ≤ node.log.length →
      NodeAdvances cluster record node ((node.followLeader request.call.node
        request.hdr.term).acceptEntries request.hdr request.entries) := by
    intro check agreed reached
    refine commits.acceptEntries sound tracks valid snapshot current term keeps log agreed
      reached fun above matching => ?_
    by_contra beyond
    rw [not_or, Nat.not_le, Nat.not_le] at beyond
    have slice : node.commitsBeyondSlice request.hdr request.entries = true := by
      simp only [RaftNode.commitsBeyondSlice, Bool.and_eq_true, Bool.or_eq_true, beq_iff_eq, decide_eq_true_eq,
        and_assoc]
      exact ⟨current, check, matching, above, beyond.1, beyond.2⟩
    simp [covered] at slice
  generalize node.followLeader request.call.node request.hdr.term = raised at *
  rw [log]
  by_cases positive : request.hdr.prevLogIndex > 0
  · simp only [positive, ↓reduceIte]
    cases stored : node.log[request.hdr.prevLogIndex - 1]? with
    | none => exact commits.of_keeps sound keeps
    | some mine =>
      obtain ⟨theirs, theirsFound, theirsTerm⟩ := Option.map_eq_some_iff.mp (valid.prevTerm positive)
      by_cases differ : mine.term ≠ request.hdr.prevLogTerm
      · simp only [if_pos differ]
        have behind := commits.le_conflict (commits.on_leader sound elected current) stored
          theirsFound (theirsTerm ▸ differ)
        exact commits.keep sound keeps.term_le (take_prefix_take_left behind)
          keeps.commitIndex_eq keeps.lastApplied_eq keeps.applied_eq
      · simp only [if_neg differ]
        have equal := Classical.not_not.mp differ
        have agreed := tracks.matching sound request.hdr.term stored theirsFound (equal.trans theirsTerm.symm)
        have bound := (List.getElem?_eq_some_iff.mp stored).1
        have restored : request.hdr.prevLogIndex - 1 + 1 = request.hdr.prevLogIndex := by
          omega
        rw [restored] at agreed
        exact accept (.inr (by rw [stored, Option.map_some, equal])) agreed (by omega)
  · simp only [positive, ↓reduceIte]
    have zero := Nat.eq_zero_of_not_pos positive
    exact accept (.inl zero) (by rw [zero, take_zero, take_zero]) (zero ▸ Nat.zero_le _)

section Steps

variable {state next : State}

/-- The step does not move a follower's commit index behind a received slice. -/
def commitWithinSlice (state : State) : Action → Bool
  | .deliverAppendRequest position =>
    match state.appendRequests[position]? with
    | none => true
    | some ⟨call, hdr, entries⟩ =>
      !(state.nodes call.peer).commitsBeyondSlice hdr entries
  | _ => true

def WithinSlice (state : State) (action : Action) : Prop :=
  commitWithinSlice state action = true

structure Advances (cluster : Membership) (record : Record) (state next : State) : Prop where
  commits : Commits cluster next record
  commitIndex_le : ∀ id, (state.nodes id).commitIndex ≤ (next.nodes id).commitIndex

/-- Every round and request under way carries a commit index of its leader's log. -/
def Snapshots (cluster : Membership) (record : Record) (rounds : List Round) (requests : List AppendRequest) : Prop :=
  (∀ round ∈ rounds, CommitSnapshot cluster record round.termSnapshot round.commitSnapshot) ∧
    ∀ request ∈ requests, CommitSnapshot cluster record request.hdr.term request.hdr.leaderCommit

section
variable (commits : Commits cluster state record)
include commits

theorem Commits.snapshots : Snapshots cluster record state.rounds state.appendRequests :=
  ⟨commits.round, commits.request⟩

theorem Commits.advance (new : NodeAdvances cluster record (state.nodes id) changed)
    (nodes : next.nodes = Function.update state.nodes id changed)
    (snapshots : Snapshots cluster record next.rounds next.appendRequests) : Advances cluster record state next := by
  have each : ∀ other, NodeAdvances cluster record (state.nodes other) (next.nodes other) := by
    intro other
    rw [nodes]
    by_cases same : other = id
    · subst same
      rw [Function.update_self]
      exact new
    · rw [Function.update_of_ne same]
      exact ⟨commits.node other, le_refl _⟩
  exact ⟨⟨fun other => (each other).commits, snapshots.1, snapshots.2⟩, fun other => (each other).commitIndex_le⟩

theorem Commits.keeping (sound : record.Sound cluster) (keeps : (state.nodes id).Keeps changed)
    (nodes : next.nodes = Function.update state.nodes id changed)
    (snapshots : Snapshots cluster record next.rounds next.appendRequests) : Advances cluster record state next :=
  commits.advance ((commits.node id).of_keeps sound keeps) nodes snapshots

theorem Commits.idle (nodes : next.nodes = state.nodes)
    (snapshots : Snapshots cluster record next.rounds next.appendRequests) : Advances cluster record state next :=
  ⟨⟨fun other => nodes ▸ commits.node other, snapshots.1, snapshots.2⟩, fun other => by rw [nodes]⟩

end

theorem NodeCommits.snapshot (commits : NodeCommits cluster record node)
    (tracks : NodeTracks cluster record id node) {termSnapshot commitSnapshot : Nat}
    (taken : node.replicateSnapshot = some (termSnapshot, commitSnapshot)) :
    CommitSnapshot cluster record termSnapshot commitSnapshot := by
  unfold RaftNode.replicateSnapshot at taken
  split at taken
  · cases taken
  case isFalse active =>
    cases taken
    have leads : node.role = .leader := Classical.not_not.mp active
    unfold CommitSnapshot
    rw [tracks.leader_log leads]
    exact ⟨commits.bound, commits.committed⟩

private theorem replicateToPeer_hdr {peer : NodeId} {termSnapshot commitSnapshot : Nat}
    {hdr : AppendEntriesHeader} {entries : List LogEntry}
    (sent : node.replicateToPeer id peer termSnapshot commitSnapshot = some (hdr, entries)) :
    hdr.term = termSnapshot ∧ hdr.leaderCommit = commitSnapshot := by
  unfold RaftNode.replicateToPeer at sent
  split at sent
  · cases sent
  · cases sent
    exact ⟨rfl, rfl⟩

theorem Round.settle_snapshot (round : Round) (id : Nat) (peer : NodeId) :
    (round.settle id peer).termSnapshot = round.termSnapshot ∧
      (round.settle id peer).commitSnapshot = round.commitSnapshot := by
  unfold Round.settle
  split <;> exact ⟨rfl, rfl⟩

theorem Commits.settled (commits : Commits cluster state record) (id : Nat) (peer : NodeId) :
    Snapshots cluster record (state.rounds.map (·.settle id peer)) state.appendRequests := by
  refine ⟨fun round inside => ?_, commits.request⟩
  obtain ⟨before, member, rfl⟩ := mem_map.mp inside
  rw [(before.settle_snapshot id peer).1, (before.settle_snapshot id peer).2]
  exact commits.round before member

private theorem commits_replicateToPeer (commits : Commits cluster state record) {pos : Nat} {peer : NodeId}
    (ran : state.replicateToPeer pos peer = some next) : Advances cluster record state next := by
  unfold State.replicateToPeer at ran
  split at ran
  · cases ran
  case h_2 round found =>
    have snapshot := commits.round round (mem_of_getElem? found)
    split at ran
    · split at ran <;> cases ran
      case h_1 => exact commits.idle rfl ⟨forall_mem_set commits.round snapshot, commits.request⟩
      case h_2 sent =>
        obtain ⟨term, commit⟩ := replicateToPeer_hdr sent
        refine commits.idle rfl ⟨forall_mem_set commits.round snapshot, forall_mem_concat commits.request ?_⟩
        simpa only [term, commit] using snapshot
    · cases ran

private theorem commits_step (tracks : Tracks cluster state record) (commits : Commits cluster state record)
    {action : Action} (within : WithinSlice state action) (ran : step cluster state action = some next) :
    Advances cluster record state next := by
  have sound := tracks.sound
  cases action with
  | startElection id =>
    simp only [step, State.startElection] at ran
    split at ran <;> cases ran
    exact commits.keeping sound (keeps_startElection _ id) rfl commits.snapshots
  | deliverVoteRequest pos =>
    simp only [step, State.deliverVoteRequest] at ran
    split at ran <;> cases ran
    exact commits.keeping sound (keeps_handleRequestVote _ _ _) rfl commits.snapshots
  | deliverVoteResponse pos =>
    simp only [step, State.deliverVoteResponse] at ran
    split at ran
    · cases ran
    · split at ran <;> cases ran
      exact commits.keeping sound (keeps_receiveVote _ _ _) rfl commits.snapshots
  | failVoteCall call =>
    cases ran
    exact commits.idle rfl commits.snapshots
  | finishElection pos =>
    simp only [step, State.finishElection] at ran
    split at ran
    · cases ran
    · split at ran <;> cases ran
      exact commits.keeping sound (keeps_finishElection _ _ _ _ _) rfl commits.snapshots
  | replicateToAllPeers id =>
    simp only [step, State.replicateToAllPeers] at ran
    split at ran <;> cases ran
    case h_1 => exact commits.idle rfl commits.snapshots
    case h_2 taken =>
      exact commits.idle rfl ⟨forall_mem_concat commits.round
        ((commits.node id).snapshot (tracks.node id) taken), commits.request⟩
  | replicateToPeer pos peer => exact commits_replicateToPeer commits ran
  | deliverAppendRequest pos =>
    simp only [step, State.deliverAppendRequest] at ran
    split at ran <;> cases ran
    case h_2 call hdr entries found =>
      have inside := mem_of_getElem? found
      simp only [WithinSlice, commitWithinSlice, found, Bool.not_eq_true'] at within
      exact commits.advance ((commits.node call.peer).handleAppendEntries sound
        (tracks.node call.peer) (tracks.appendRequest _ inside) (commits.request _ inside)
        within) rfl ⟨commits.round, forall_mem_eraseIdx commits.request pos⟩
  | deliverAppendResponse pos =>
    simp only [step, State.deliverAppendResponse] at ran
    split at ran
    · cases ran
    · split at ran <;> cases ran
      exact commits.keeping sound (keeps_receiveAppend _ _ _ _ _ _) rfl (commits.settled _ _)
  | failAppendCall round peer =>
    cases ran
    exact commits.idle rfl (commits.settled _ _)
  | finishReplicate pos =>
    simp only [step, State.finishReplicate] at ran
    split at ran
    · cases ran
    case h_2 round found =>
      split at ran <;> cases ran
      exact commits.advance ((commits.node round.node).finishReplicate (tracks.node round.node) round.termSnapshot)
        rfl ⟨forall_mem_eraseIdx commits.round pos, commits.request⟩
  | propose id command =>
    simp only [step, State.propose] at ran
    split at ran <;> cases ran
    case h_1 => exact commits.idle rfl commits.snapshots
    case h_2 accepted =>
      exact commits.keeping sound (keeps_propose accepted) rfl commits.snapshots
  | proposeReplicate pos =>
    simp only [step, State.proposeReplicate] at ran
    split at ran
    · cases ran
    case h_2 proposal found =>
      split at ran
      · split at ran <;> cases ran
        case h_1 => exact commits.idle rfl commits.snapshots
        case h_2 taken =>
          exact commits.idle rfl ⟨forall_mem_concat commits.round
            ((commits.node proposal.node).snapshot (tracks.node proposal.node) taken),
            commits.request⟩
      · cases ran
  | pollProposal pos =>
    simp only [step, State.pollProposal] at ran
    split at ran
    · cases ran
    · split at ran
      · split at ran <;> cases ran <;> exact commits.idle rfl commits.snapshots
      · cases ran
  | timeOutProposal pos =>
    simp only [step, State.timeOutProposal] at ran
    split at ran
    · cases ran
    · split at ran <;> cases ran
      exact commits.idle rfl commits.snapshots

end Steps

theorem Commits.initial (cluster : Membership) : Commits cluster initial (History.initial : Record) where
  node id := ⟨Nat.le_refl 0, .inl rfl, Nat.le_refl 0, rfl⟩
  round round inside := by simp [Cluster.initial] at inside
  request request inside := by simp [Cluster.initial] at inside

structure Continues (cluster : Membership) (start state : State) (record : Record) : Prop where
  tracks : Tracks cluster state record
  commits : Commits cluster state record
  commitIndex_le : ∀ id, (start.nodes id).commitIndex ≤ (state.nodes id).commitIndex

theorem Continues.reaches {start finish : State} (tracks : Tracks cluster start record)
    (commits : Commits cluster start record) (path : Reaches (step cluster) WithinSlice start finish) :
    ∃ future, Continues cluster start finish future ∧ record ≤ future := by
  refine path.simulation ⟨tracks, commits, fun _ => le_refl _⟩ ?_
  intro state action next past continues within ran
  obtain ⟨future, tracked, grown⟩ := tracks_step continues.tracks ran
  have advances := commits_step continues.tracks continues.commits within ran
  exact ⟨future, ⟨tracked, advances.commits.mono continues.tracks.sound grown,
    fun id => (continues.commitIndex_le id).trans (advances.commitIndex_le id)⟩, grown⟩

end AnimusCore.Cluster
