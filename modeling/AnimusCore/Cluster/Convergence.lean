import AnimusCore.Cluster.Safety

/-! A follower that a leader keeps talking to takes over the leader's log. The leader backs off
one entry at a time until the logs meet and then sends its log in slices. A follower's log that
is still longer in the end would need an entry of the leader's own term that the leader has not
written. -/

set_option autoImplicit false

namespace AnimusCore.Cluster

open Lib Lib.Consensus Function List

variable {cluster : Membership} {state next : State} {node : RaftNode}

/-- The critical sections that change a node. -/
inductive RaftNode.Moves (node : RaftNode) : RaftNode → Prop where
  | startElection (id : NodeId) : Moves node (node.startElection id).1
  | handleRequestVote (candidateId : NodeId) (args : RequestVoteArgs) :
      Moves node (node.handleRequestVote candidateId args).1
  | receiveVote (term : Nat) (result : RequestVoteResult) : Moves node (node.receiveVote term result).1
  | finishElection (id : NodeId) (peers : List NodeId) (term votes : Nat) :
      Moves node (node.finishElection id peers term votes)
  | handleAppendEntries (leaderId : NodeId) (hdr : AppendEntriesHeader)
      (entries : List LogEntry) : Moves node (node.handleAppendEntries leaderId hdr entries).1
  | receiveAppend (peer : NodeId) (term prev count : Nat) (result : AppendEntriesResult) :
      Moves node (node.receiveAppend peer term prev count result)
  | finishReplicate (peers : List NodeId) (term : Nat) : Moves node (node.finishReplicate peers term)
  | propose {command : AddRuleCommand} {appended : RaftNode} {entry : LogEntry} {myIndex : Nat} :
      node.propose command = .ok (appended, entry, myIndex) → Moves node appended

private theorem step_nodes {action : Action} (ran : step cluster state action = some next) :
    next.nodes = state.nodes ∨ ∃ id changed, (state.nodes id).Moves changed ∧
      next.nodes = update state.nodes id changed := by
  cases action with
  | startElection id =>
    simp only [step, State.startElection] at ran
    split at ran <;> cases ran
    exact .inr ⟨id, _, .startElection id, rfl⟩
  | deliverVoteRequest pos =>
    simp only [step, State.deliverVoteRequest] at ran
    split at ran <;> cases ran
    exact .inr ⟨_, _, .handleRequestVote _ _, rfl⟩
  | deliverVoteResponse pos =>
    simp only [step, State.deliverVoteResponse] at ran
    split at ran
    · cases ran
    · split at ran <;> cases ran
      exact .inr ⟨_, _, .receiveVote _ _, rfl⟩
  | failVoteCall call | failAppendCall round peer =>
    cases ran
    exact .inl rfl
  | finishElection pos =>
    simp only [step, State.finishElection] at ran
    split at ran
    · cases ran
    · split at ran <;> cases ran
      exact .inr ⟨_, _, .finishElection _ _ _ _, rfl⟩
  | replicateToAllPeers id =>
    simp only [step, State.replicateToAllPeers] at ran
    split at ran <;> cases ran <;> exact .inl rfl
  | replicateToPeer pos peer =>
    simp only [step, State.replicateToPeer] at ran
    split at ran
    · cases ran
    · split at ran
      · split at ran <;> cases ran <;> exact .inl rfl
      · cases ran
  | deliverAppendRequest pos =>
    simp only [step, State.deliverAppendRequest] at ran
    split at ran <;> cases ran
    exact .inr ⟨_, _, .handleAppendEntries _ _ _, rfl⟩
  | deliverAppendResponse pos =>
    simp only [step, State.deliverAppendResponse] at ran
    split at ran
    · cases ran
    · split at ran <;> cases ran
      exact .inr ⟨_, _, .receiveAppend _ _ _ _ _, rfl⟩
  | finishReplicate pos =>
    simp only [step, State.finishReplicate] at ran
    split at ran
    · cases ran
    · split at ran <;> cases ran
      exact .inr ⟨_, _, .finishReplicate _ _, rfl⟩
  | propose id command =>
    simp only [step, State.propose] at ran
    split at ran <;> cases ran
    · exact .inl rfl
    case h_2 accepted => exact .inr ⟨_, _, .propose accepted, rfl⟩
  | proposeReplicate pos =>
    simp only [step, State.proposeReplicate] at ran
    split at ran
    · cases ran
    · split at ran
      · split at ran <;> cases ran <;> exact .inl rfl
      · cases ran
  | pollProposal pos =>
    simp only [step, State.pollProposal] at ran
    split at ran
    · cases ran
    · split at ran
      · split at ran <;> cases ran <;> exact .inl rfl
      · cases ran
  | timeOutProposal pos =>
    simp only [step, State.timeOutProposal] at ran
    split at ran
    · cases ran
    · split at ran <;> cases ran
      exact .inl rfl

/-- A leader's log ends with an entry of its own term, its no-op at first. -/
def RaftNode.Headed (node : RaftNode) : Prop :=
  node.role = .leader → ∃ kept last, node.log = kept ++ [last] ∧ last.term = node.currentTerm

theorem RaftNode.headed_of_follower (follower : node.role = .follower) : node.Headed := by
  intro leads
  rw [follower] at leads
  cases leads

theorem RaftNode.handleAppendEntries_role (leaderId : NodeId) {hdr : AppendEntriesHeader}
    (current : node.currentTerm ≤ hdr.term) (entries : List LogEntry) :
    (node.handleAppendEntries leaderId hdr entries).1.role = .follower := by
  have accepted : ((node.followLeader leaderId hdr.term).acceptEntries hdr entries).role = .follower := by
    obtain ⟨_, _, _, _, same⟩ := (node.followLeader leaderId hdr.term).acceptEntries_eq hdr entries
    rw [same]
    rfl
  unfold RaftNode.handleAppendEntries
  rw [if_neg (Nat.not_lt.mpr current)]
  dsimp only
  split
  · split
    · rfl
    · split
      · rfl
      · exact accepted
  · exact accepted

theorem RaftNode.Headed.moves {changed : RaftNode} (headed : node.Headed)
    (moved : node.Moves changed) : changed.Headed := by
  cases moved with
  | startElection id =>
    intro leads
    cases leads
  | handleRequestVote candidateId args =>
    unfold RaftNode.handleRequestVote
    have raised : (if args.term > node.currentTerm then node.stepDown args.term else node).Headed := by
      split
      · exact headed_of_follower rfl
      · exact headed
    dsimp only
    generalize (if args.term > node.currentTerm then node.stepDown args.term else node) = voter at raised ⊢
    split
    · exact raised
    · exact raised
  | receiveVote term result =>
    unfold RaftNode.receiveVote
    split
    · exact headed_of_follower rfl
    · exact headed
  | finishElection id peers term votes =>
    unfold RaftNode.finishElection
    split
    · exact fun _ => ⟨node.log, noopEntry node.currentTerm, rfl, rfl⟩
    · exact headed
  | handleAppendEntries leaderId hdr entries =>
    by_cases stale : hdr.term < node.currentTerm
    · rw [RaftNode.handleAppendEntries, if_pos stale]
      exact headed
    · exact headed_of_follower (handleAppendEntries_role leaderId (Nat.le_of_not_lt stale) entries)
  | receiveAppend peer term prev count result =>
    unfold RaftNode.receiveAppend
    split
    · exact headed_of_follower rfl
    · split
      · exact headed
      · split
        · exact headed
        · split
          · exact headed
          · exact headed
  | finishReplicate peers term =>
    unfold RaftNode.finishReplicate
    split
    · exact headed
    · obtain ⟨_, _, _, _, same⟩ := node.commitLoop_eq peers node.log.length
      rw [same]
      exact headed
  | propose accepted =>
    unfold RaftNode.propose at accepted
    split at accepted <;> cases accepted
    exact fun _ => ⟨node.log, _, rfl, rfl⟩

theorem Reachable.headed (reachable : Reachable cluster state) : ∀ id, (state.nodes id).Headed := by
  apply Reaches.invariant reachable
  · exact fun _ => RaftNode.headed_of_follower rfl
  · intro state action next headed _ ran id
    rcases step_nodes ran with same | ⟨actor, changed, moved, nodes⟩
    · rw [same]
      exact headed id
    · rw [nodes]
      by_cases acting : id = actor
      · subst acting
        rw [update_self]
        exact (headed id).moves moved
      · rw [update_of_ne acting]
        exact headed id

/-- A log that holds the whole log of a leader of no smaller term is that log. -/
theorem Tracks.log_eq_of_prefix {record : Record} (tracks : Tracks cluster state record) {leader follower : NodeId}
    (headed : (state.nodes leader).Headed) (leads : (state.nodes leader).role = .leader)
    (behind : (state.nodes follower).currentTerm ≤ (state.nodes leader).currentTerm)
    (held : (state.nodes leader).log <+: (state.nodes follower).log) :
    (state.nodes follower).log = (state.nodes leader).log := by
  obtain ⟨kept, last, whole, own⟩ := headed leads
  have anchored := tracks.sound.log_anchored follower
  have ascending := tracks.sound.log_ascending follower
  have bounded := tracks.sound.log_le follower
  rw [(tracks.node follower).log_eq] at anchored ascending bounded
  rw [(tracks.node follower).term_eq] at bounded
  have nonempty : (state.nodes follower).log ≠ [] := by
    intro empty
    rw [empty, prefix_nil, whole] at held
    simp at held
  obtain ⟨front, final, split⟩ := (eq_nil_or_concat' _).resolve_left nonempty
  -- The last term is at least the leader's, since the leader's last entry is in the log.
  have member : last ∈ (state.nodes follower).log := held.subset (by simp [whole])
  have atLeast := ascending.le_lastTerm member
  have atMost := bounded final (by simp [split])
  have sameTerm : lastTerm LogEntry.term (state.nodes follower).log = (state.nodes leader).currentTerm := by
    rw [split, lastTerm_concat] at atLeast ⊢
    omega
  have onLeader := anchored.prefix_leaderLog nonempty
  rw [sameTerm, (tracks.node leader).leader_log leads] at onLeader
  exact (onLeader.eq_of_length_le held.length_le)

theorem RaftNode.handleAppendEntries_cases (leaderId : NodeId) {hdr : AppendEntriesHeader}
    (current : node.currentTerm ≤ hdr.term) (entries : List LogEntry) :
    ((node.handleAppendEntries leaderId hdr entries).1.currentTerm = hdr.term ∧
      (node.handleAppendEntries leaderId hdr entries).2.term = hdr.term) ∧
    (((node.handleAppendEntries leaderId hdr entries).2.success = true ∧
      (node.handleAppendEntries leaderId hdr entries).1.log = appendLoop node.log hdr.prevLogIndex entries ∧
      (0 < hdr.prevLogIndex → ∃ stored, node.log[hdr.prevLogIndex - 1]? = some stored ∧
        stored.term = hdr.prevLogTerm)) ∨
    ((node.handleAppendEntries leaderId hdr entries).2.success = false ∧ 0 < hdr.prevLogIndex ∧
      ∀ stored, node.log[hdr.prevLogIndex - 1]? = some stored → stored.term ≠ hdr.prevLogTerm)) := by
  have term := followLeader_currentTerm leaderId current
  have log := followLeader_log node leaderId hdr.term
  unfold RaftNode.handleAppendEntries
  rw [if_neg (Nat.not_lt.mpr current)]
  dsimp only
  generalize node.followLeader leaderId hdr.term = raised at term log ⊢
  obtain ⟨commitIndex, lastApplied, applied, engine, accepted⟩ := raised.acceptEntries_eq hdr entries
  rw [← log, ← term, accepted]
  split
  case isTrue positive =>
    split
    case h_1 absent => exact ⟨⟨rfl, rfl⟩, .inr ⟨rfl, positive, by simp [absent]⟩⟩
    case h_2 stored found =>
      split
      case isTrue differ =>
        refine ⟨⟨rfl, rfl⟩, .inr ⟨rfl, positive, ?_⟩⟩
        intro other also
        rw [found] at also
        cases also
        exact differ
      case isFalse same =>
        exact ⟨⟨rfl, rfl⟩, .inl ⟨rfl, rfl, fun _ => ⟨stored, found, not_not.mp same⟩⟩⟩
  case isFalse zero => exact ⟨⟨rfl, rfl⟩, .inl ⟨rfl, rfl, fun positive => absurd positive zero⟩⟩

/-- A call of `replicate_to_peer` that is answered: the leader and the follower after it. -/
def RaftNode.exchange (leader follower : RaftNode) (id peer : NodeId)
    (termSnapshot commitSnapshot : Nat) : RaftNode × RaftNode :=
  match leader.replicateToPeer id peer termSnapshot commitSnapshot with
  | none => (leader, follower)
  | some (hdr, entries) =>
    let (follower, result) := follower.handleAppendEntries id hdr entries
    (leader.receiveAppend peer termSnapshot hdr.prevLogIndex entries.length result, follower)

/-- A leader of the term and a peer that has not passed it. -/
structure Linked (peer : NodeId) (term : Nat) (leader follower : RaftNode) : Prop where
  leads : leader.role = .leader
  current : leader.currentTerm = term
  behind : follower.currentTerm ≤ term
  next_pos : 0 < leader.nextIndex peer
  next_le : leader.nextIndex peer ≤ leader.log.length + 1
  matching : ∀ {index : Nat} {mine theirs : LogEntry}, follower.log[index]? = some mine →
    leader.log[index]? = some theirs → mine.term = theirs.term →
    follower.log.take (index + 1) = leader.log.take (index + 1)

theorem Tracks.linked {record : Record} (tracks : Tracks cluster state record)
    {leader follower : NodeId} {term : Nat} (inside : follower ∈ cluster.peers leader)
    (leads : (state.nodes leader).role = .leader) (current : (state.nodes leader).currentTerm = term)
    (behind : (state.nodes follower).currentTerm ≤ term) :
    Linked follower term (state.nodes leader) (state.nodes follower) where
  leads := leads
  current := current
  behind := behind
  next_pos := ((tracks.node leader).next_bound leads follower inside).1
  next_le := ((tracks.node leader).next_bound leads follower inside).2
  matching mine theirs same := by
    have onLeader := (tracks.node leader).leader_log leads
    have agreed := (tracks.node follower).matching tracks.sound _ mine (onLeader ▸ theirs) same
    rwa [onLeader] at agreed

section
variable {peer : NodeId} {term : Nat} {leader follower : RaftNode}

theorem Linked.replicateToPeer (linked : Linked peer term leader follower) (id : NodeId)
    (commitSnapshot : Nat) : ∃ hdr entries, leader.replicateToPeer id peer term commitSnapshot = some (hdr, entries) ∧
      hdr.term = term ∧ hdr.prevLogIndex = leader.nextIndex peer - 1 ∧
      (∀ theirs, leader.log[hdr.prevLogIndex - 1]? = some theirs → 0 < hdr.prevLogIndex →
        hdr.prevLogTerm = theirs.term) ∧
      entries = (leader.log.drop (leader.nextIndex peer - 1)).take kMaxEntriesPerRpc := by
  have active : ¬ (leader.role ≠ .leader ∨ leader.currentTerm ≠ term) := by
    simp [linked.leads, linked.current]
  simp only [RaftNode.replicateToPeer, if_neg active, if_pos linked.next_pos]
  refine ⟨_, _, rfl, rfl, rfl, ?_, rfl⟩
  intro theirs found positive
  rw [if_pos positive, found]
  rfl

/-- The follower holds the leader's log as far as the request goes, or refuses it. -/
theorem Linked.handleAppendEntries (linked : Linked peer term leader follower) (id : NodeId)
    {hdr : AppendEntriesHeader} {entries : List LogEntry} (sent : hdr.term = term)
    (prev : hdr.prevLogIndex = leader.nextIndex peer - 1)
    (prevTerm : ∀ theirs, leader.log[hdr.prevLogIndex - 1]? = some theirs →
      0 < hdr.prevLogIndex → hdr.prevLogTerm = theirs.term)
    (slice : entries = (leader.log.drop (leader.nextIndex peer - 1)).take kMaxEntriesPerRpc) :
    ((follower.handleAppendEntries id hdr entries).2.success = true ∧
      leader.log.take (hdr.prevLogIndex + entries.length) <+: (follower.handleAppendEntries id hdr entries).1.log) ∨
    ((follower.handleAppendEntries id hdr entries).2.success = false ∧ 0 < hdr.prevLogIndex ∧
      ¬ leader.log.take hdr.prevLogIndex <+: follower.log) := by
  have bound := linked.next_le
  have count : entries.length = min 64 (leader.log.length - hdr.prevLogIndex) := by
    rw [slice, length_take, length_drop, prev]
    rfl
  rcases (RaftNode.handleAppendEntries_cases id (sent ▸ linked.behind) entries).2 with
    ⟨success, log, met⟩ | ⟨refused, inside, unmet⟩
  · refine .inl ⟨success, ?_⟩
    have agreed : follower.log.take hdr.prevLogIndex = leader.log.take hdr.prevLogIndex ∧
        hdr.prevLogIndex ≤ follower.log.length := by
      rcases Nat.eq_zero_or_pos hdr.prevLogIndex with zero | inside
      · rw [zero]
        exact ⟨rfl, Nat.zero_le _⟩
      · obtain ⟨stored, found, same⟩ := met inside
        have within : hdr.prevLogIndex - 1 < leader.log.length := by omega
        have theirs := List.getElem?_eq_getElem within
        have agreed := linked.matching found theirs (same.trans (prevTerm _ theirs inside))
        rw [Nat.sub_add_cancel inside] at agreed
        exact ⟨agreed, by have := (List.getElem?_eq_some_iff.mp found).1; omega⟩
    have whole : entries = (leader.log.drop hdr.prevLogIndex).take entries.length := by
      rw [count, prev, slice, take_eq_take_iff, length_drop]
      simp only [kMaxEntriesPerRpc]
      omega
    rw [log]
    rcases appendLoop_cases leader.log follower.log hdr.prevLogIndex entries (by omega) whole
      agreed.1 agreed.2 (fun _ _ _ => linked.matching) with ⟨same, held⟩ | ⟨same, -⟩
    · rw [same]
      exact held
    · rw [same]
  · refine .inr ⟨refused, inside, fun held => ?_⟩
    have within : hdr.prevLogIndex - 1 < leader.log.length := by omega
    have theirs := List.getElem?_eq_getElem within
    have found := prefix_getElem?_eq held (show hdr.prevLogIndex - 1 < _ by rw [length_take]; omega)
    rw [List.getElem?_take_of_lt (by omega), theirs] at found
    exact unmet _ found (prevTerm _ theirs inside).symm

/-- What an exchange leaves: the leader backs off by one entry, or the follower holds the
leader's log up to the match index. -/
structure Exchanged (peer : NodeId) (term : Nat) (leader follower : RaftNode)
    (changed : RaftNode × RaftNode) : Prop where
  leads : changed.1.role = .leader
  current : changed.1.currentTerm = term
  log : changed.1.log = leader.log
  behind : changed.2.currentTerm = term
  outcome : (changed.1.nextIndex peer + 1 = leader.nextIndex peer ∧
      ¬ leader.log.take (leader.nextIndex peer - 1) <+: follower.log) ∨
    (changed.1.nextIndex peer = changed.1.matchIndex peer + 1 ∧ changed.1.matchIndex peer =
        min (leader.nextIndex peer - 1 + kMaxEntriesPerRpc) leader.log.length ∧
      leader.log.take (changed.1.matchIndex peer) <+: changed.2.log)

theorem Linked.exchange (linked : Linked peer term leader follower) (id : NodeId) (commitSnapshot : Nat) :
    Exchanged peer term leader follower (leader.exchange follower id peer term commitSnapshot) := by
  obtain ⟨hdr, entries, sent, ofTerm, prev, prevTerm, slice⟩ := linked.replicateToPeer id commitSnapshot
  obtain ⟨⟨raised, answered⟩, -⟩ := RaftNode.handleAppendEntries_cases id
    (ofTerm.symm ▸ linked.behind : follower.currentTerm ≤ hdr.term) entries
  have handled := linked.handleAppendEntries id ofTerm prev prevTerm slice
  have bound := linked.next_le
  have count : entries.length = min kMaxEntriesPerRpc (leader.log.length - hdr.prevLogIndex) := by
    rw [slice, length_take, length_drop, prev]
  simp only [RaftNode.exchange, sent]
  generalize follower.handleAppendEntries id hdr entries = response at raised answered handled ⊢
  have known : ¬ response.2.term > leader.currentTerm := by
    rw [answered, ofTerm, linked.current]
    exact lt_irrefl _
  have active : ¬ (leader.role ≠ .leader ∨ leader.currentTerm ≠ term) := by
    simp [linked.leads, linked.current]
  simp only [RaftNode.receiveAppend, if_neg known, if_neg active]
  rcases handled with ⟨success, held⟩ | ⟨refused, inside, unheld⟩
  · rw [if_pos success]
    refine ⟨linked.leads, linked.current, rfl, raised.trans ofTerm, .inr ?_⟩
    simp only [update_self]
    exact ⟨trivial, by omega, held⟩
  · rw [if_neg (by simp [refused]), if_pos (by omega)]
    refine ⟨linked.leads, linked.current, rfl, raised.trans ofTerm, .inl ?_⟩
    simp only [update_self]
    exact ⟨by omega, prev ▸ unheld⟩

end

/-- A worker of `replicate_to_all_peers` that runs to its end, with its own two messages. -/
def exchangeActions (state : State) (position : Nat) (peer : NodeId) : List Action :=
  [.replicateToPeer position peer, .deliverAppendRequest state.appendRequests.length,
    .deliverAppendResponse state.appendResponses.length]

/-- Runs in which the leader starts rounds of its term and the follower's workers run one after
another, with the number of workers that ran. -/
inductive Exchanges (cluster : Membership) (leader follower : NodeId) (term : Nat)
    (start : State) : Nat → State → Prop where
  | start : Exchanges cluster leader follower term start 0 start
  | spawn {count : Nat} {state next : State} : Exchanges cluster leader follower term start count state →
      step cluster state (.replicateToAllPeers leader) = some next →
      Exchanges cluster leader follower term start count next
  | exchange {count position : Nat} {state next : State} {round : Round} :
      Exchanges cluster leader follower term start count state →
      state.rounds[position]? = some round → round.node = leader → round.termSnapshot = term →
      execute (step cluster) state (exchangeActions state position follower) = some next →
      Exchanges cluster leader follower term start (count + 1) next

section
variable {leader follower : NodeId} {term pos count : Nat} {start : State} {round : Round}

theorem Exchanges.reaches (run : Exchanges cluster leader follower term start count state) :
    Reaches (step cluster) Always start state := by
  induction run with
  | start => exact .refl
  | spawn _ spawned ih => exact .step ih trivial spawned
  | exchange _ _ _ _ executed ih => exact ih.trans (execute_reaches executed)

private theorem execute_exchange (linked : Linked follower term (state.nodes leader) (state.nodes follower))
    (apart : leader ≠ follower) (found : state.rounds[pos]? = some round) (ofNode : round.node = leader)
    (ofTerm : round.termSnapshot = term) (waiting : follower ∈ round.spawned) :
    ∃ next, execute (step cluster) state (exchangeActions state pos follower) = some next ∧
      (next.nodes leader, next.nodes follower) = (state.nodes leader).exchange
        (state.nodes follower) leader follower term round.commitSnapshot := by
  subst ofNode ofTerm
  obtain ⟨hdr, entries, sent, -⟩ := linked.replicateToPeer round.node round.commitSnapshot
  have inside : pos < state.rounds.length := (List.getElem?_eq_some_iff.mp found).1
  simp only [exchangeActions, execute, step, State.replicateToPeer, found, if_pos waiting, sent,
    State.deliverAppendRequest, List.getElem?_concat_length, State.deliverAppendResponse, State.setNode]
  rw [if_pos ?awaited]
  case awaited =>
    rw [any_eq_true]
    refine ⟨_, mem_set inside _, ?_⟩
    simp [Round.awaits]
  refine ⟨_, rfl, ?_⟩
  simp only [RaftNode.exchange, sent, update_self, update_of_ne apart, update_of_ne apart.symm]

private theorem mem_spawned_of_execute (found : state.rounds[pos]? = some round)
    (executed : execute (step cluster) state (exchangeActions state pos follower) = some next) :
    follower ∈ round.spawned := by
  by_contra gone
  simp [exchangeActions, execute, step, State.replicateToPeer, found, gone] at executed

/-- The leader has backed off once per exchange, or the logs have met and the follower holds
the leader's log up to the match index, one slice further for each exchange that is left. -/
structure Approach (peer : NodeId) (term first count : Nat) (log : List LogEntry)
    (leader follower : RaftNode) : Prop where
  leads : leader.role = .leader
  current : leader.currentTerm = term
  log_eq : leader.log = log
  behind : follower.currentTerm ≤ term
  progress : leader.nextIndex peer + count = first ∨ (leader.nextIndex peer = leader.matchIndex peer + 1 ∧
      log.take (leader.matchIndex peer) <+: follower.log ∧
      min log.length (kMaxEntriesPerRpc * (count + 1 - first)) ≤ leader.matchIndex peer)

theorem Approach.exchange {peer : NodeId} {first : Nat} {log : List LogEntry}
    {leader follower : RaftNode} {changed : RaftNode × RaftNode}
    (approach : Approach peer term first count log leader follower) (linked : Linked peer term leader follower)
    (exchanged : Exchanged peer term leader follower changed) :
    Approach peer term first (count + 1) log changed.1 changed.2 where
  leads := exchanged.leads
  current := exchanged.current
  log_eq := exchanged.log.trans approach.log_eq
  behind := exchanged.behind.le
  progress := by
    have positive := linked.next_pos
    have outcome := exchanged.outcome
    simp only [kMaxEntriesPerRpc] at outcome ⊢
    rw [approach.log_eq] at outcome
    rcases approach.progress with backing | ⟨met, held, far⟩
    · rcases outcome with ⟨backs, -⟩ | ⟨next, reached, holds⟩
      · exact .inl (by omega)
      · exact .inr ⟨next, holds, by omega⟩
    · simp only [kMaxEntriesPerRpc] at far
      rcases outcome with ⟨-, unheld⟩ | ⟨next, reached, holds⟩
      · rw [met, Nat.add_sub_cancel] at unheld
        exact absurd held unheld
      · exact .inr ⟨next, holds, by omega⟩

private theorem nodes_of_spawn (spawned : step cluster state (.replicateToAllPeers leader) = some next) :
    next.nodes = state.nodes := by
  simp only [step, State.replicateToAllPeers] at spawned
  split at spawned <;> cases spawned <;> rfl

private theorem exists_spawn (leads : (state.nodes leader).role = .leader)
    (current : (state.nodes leader).currentTerm = term) :
    ∃ next, step cluster state (.replicateToAllPeers leader) = some next ∧
      next.nodes = state.nodes ∧ next.rounds[state.rounds.length]? =
        some ⟨state.nextRound, leader, term, (state.nodes leader).commitIndex, cluster.peers leader, []⟩ := by
  have spawned : step cluster state (.replicateToAllPeers leader) = some { state with
      rounds := state.rounds ++ [⟨state.nextRound, leader, term,
        (state.nodes leader).commitIndex, cluster.peers leader, []⟩]
      nextRound := state.nextRound + 1 } := by
    simp only [step, State.replicateToAllPeers, RaftNode.replicateSnapshot, leads, current,
      ne_eq, not_true_eq_false, if_false]
  exact ⟨_, spawned, rfl, List.getElem?_concat_length ..⟩

variable (inside : follower ∈ cluster.peers leader)
include inside

theorem Linked.of_reachable (reachable : Reachable cluster state) (leads : (state.nodes leader).role = .leader)
    (current : (state.nodes leader).currentTerm = term) (behind : (state.nodes follower).currentTerm ≤ term) :
    Linked follower term (state.nodes leader) (state.nodes follower) ∧ leader ≠ follower := by
  obtain ⟨record, tracks⟩ := reachable.tracks
  have member := (tracks.node leader).member (by rw [leads]; decide)
  exact ⟨tracks.linked inside leads current behind, ((cluster.mem_peers leader member follower).mp inside).2.symm⟩

theorem Exchanges.approach (reachable : Reachable cluster start) (leads : (start.nodes leader).role = .leader)
    (current : (start.nodes leader).currentTerm = term) (behind : (start.nodes follower).currentTerm ≤ term)
    (run : Exchanges cluster leader follower term start count state) :
    Approach follower term ((start.nodes leader).nextIndex follower) count
      (start.nodes leader).log (state.nodes leader) (state.nodes follower) := by
  induction run with
  | start => exact ⟨leads, current, rfl, behind, .inl rfl⟩
  | spawn _ spawned ih =>
    rw [nodes_of_spawn spawned]
    exact ih
  | @exchange count pos state next round run found ofNode ofTerm executed ih =>
    obtain ⟨linked, apart⟩ := Linked.of_reachable inside (reachable.trans run.reaches) ih.leads ih.current ih.behind
    obtain ⟨after, same, nodes⟩ := execute_exchange linked apart found ofNode ofTerm
      (mem_spawned_of_execute found executed)
    cases Option.some.inj (executed.symm.trans same)
    have approach := ih.exchange linked (linked.exchange leader round.commitSnapshot)
    rw [← nodes] at approach
    exact approach

/-- The leader can always start one more round and let the follower's worker run. -/
theorem exists_exchanges (reachable : Reachable cluster start) (leads : (start.nodes leader).role = .leader)
    (current : (start.nodes leader).currentTerm = term) (behind : (start.nodes follower).currentTerm ≤ term)
    (count : Nat) : ∃ state, Exchanges cluster leader follower term start count state := by
  induction count with
  | zero => exact ⟨start, .start⟩
  | succ count ih =>
    obtain ⟨state, run⟩ := ih
    have approach := run.approach inside reachable leads current behind
    obtain ⟨linked, apart⟩ := Linked.of_reachable inside (reachable.trans run.reaches)
      approach.leads approach.current approach.behind
    obtain ⟨spawning, spawned, nodes, found⟩ := exists_spawn approach.leads approach.current
    rw [← nodes] at linked
    obtain ⟨next, executed, -⟩ := execute_exchange linked apart found rfl rfl inside
    exact ⟨next, .exchange (.spawn run spawned) found rfl rfl executed⟩

/-- The exchanges can go on for ever. After as many as the follower's next index and the slices
of the leader's log, the follower has the leader's log, and keeps it. -/
theorem follower_log_converges (reachable : Reachable cluster start) (leads : (start.nodes leader).role = .leader)
    (current : (start.nodes leader).currentTerm = term) (behind : (start.nodes follower).currentTerm ≤ term) :
    (∀ count, ∃ state, Exchanges cluster leader follower term start count state) ∧
    ∀ count state, Exchanges cluster leader follower term start count state →
      (start.nodes leader).nextIndex follower + ((start.nodes leader).log.length + 63) / kMaxEntriesPerRpc ≤ count →
      (state.nodes leader).log = (start.nodes leader).log ∧ (state.nodes follower).log = (start.nodes leader).log ∧
      (state.nodes leader).matchIndex follower = (start.nodes leader).log.length := by
  refine ⟨exists_exchanges inside reachable leads current behind, ?_⟩
  intro count state run enough
  have approach := run.approach inside reachable leads current behind
  have reached : Reachable cluster state := reachable.trans run.reaches
  obtain ⟨linked, -⟩ := Linked.of_reachable inside reached approach.leads approach.current approach.behind
  have positive := linked.next_pos
  have bound := linked.next_le
  have progress := approach.progress
  rw [approach.log_eq] at bound
  simp only [kMaxEntriesPerRpc] at enough progress
  obtain ⟨met, held, far⟩ := progress.resolve_left (by omega)
  have whole : (state.nodes leader).matchIndex follower = (start.nodes leader).log.length := by
    omega
  rw [whole, take_length, ← approach.log_eq] at held
  obtain ⟨record, tracks⟩ := reached.tracks
  have same := tracks.log_eq_of_prefix (reached.headed leader) approach.leads
    (approach.current ▸ approach.behind) held
  exact ⟨approach.log_eq, same.trans approach.log_eq, whole⟩

end

theorem follower_log_converges_two :
    (firstLeader.nodes 1).nextIndex 2 + ((firstLeader.nodes 1).log.length + 63) / 64 = 2 ∧
    ∃ state, Exchanges threeNodes 1 2 1 firstLeader 2 state ∧ (state.nodes 2).log = [RaftNode.noopEntry 1] := by
  have reachable : Reachable threeNodes firstLeader := finalState_reaches (by decide)
  obtain ⟨exist, converge⟩ := follower_log_converges (show (2 : NodeId) ∈ threeNodes.peers 1 by
    decide) reachable (by decide) (show (firstLeader.nodes 1).currentTerm = 1 by decide)
    (by decide)
  obtain ⟨state, run⟩ := exist 2
  obtain ⟨-, same, -⟩ := converge 2 state run (by decide)
  exact ⟨by decide, state, run, same.trans (by decide)⟩

end AnimusCore.Cluster
