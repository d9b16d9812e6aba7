import AnimusCore.Cluster.Elections

/-! The critical sections of replication, related to the history. A follower's
log after a request is either unchanged, cut at an index where it contradicts the
leader, or a prefix of the leader log of the request's term. -/

set_option autoImplicit false

namespace AnimusCore.Cluster

open Lib.Consensus List

variable {cluster : Membership} {record : Record} {id : NodeId} {node : RaftNode}

private theorem appendLoop_of_take (leader : List LogEntry) (index : Nat) (entries : List LogEntry)
    (inside : index + entries.length ≤ leader.length) (slice : entries = (leader.drop index).take entries.length) :
    RaftNode.appendLoop (leader.take index) index entries = leader.take (index + entries.length) := by
  induction entries generalizing index with
  | nil => rfl
  | cons entry rest ih =>
    rw [length_cons] at inside
    have bound : index < leader.length := by omega
    rw [length_cons, drop_eq_getElem_cons bound, take_succ_cons, List.cons.injEq] at slice
    obtain ⟨first, slice⟩ := slice
    have past : (leader.take index)[index]? = none := by
      rw [List.getElem?_eq_none_iff, length_take]
      omega
    have longer : leader.take index ++ [entry] = leader.take (index + 1) := by
      rw [first]
      exact take_concat_get' leader index bound
    have total : index + 1 + rest.length = index + (entry :: rest).length := by
      rw [length_cons]
      omega
    rw [RaftNode.appendLoop, past]
    rw [longer, ih (index + 1) (by omega) slice, total]

/-- The outcome of the append loop against the leader's log: unchanged when the
log already holds the slice, otherwise the leader's log up to the end of the
slice, which extends the old log or replaces it from a conflicting term on. -/
theorem appendLoop_cases (leader log : List LogEntry) (index : Nat) (entries : List LogEntry)
    (inside : index + entries.length ≤ leader.length) (slice : entries = (leader.drop index).take entries.length)
    (agreed : log.take index = leader.take index) (reached : index ≤ log.length)
    (matching : ∀ spot mine theirs, log[spot]? = some mine → leader[spot]? = some theirs →
      mine.term = theirs.term → log.take (spot + 1) = leader.take (spot + 1)) :
    (RaftNode.appendLoop log index entries = log ∧ leader.take (index + entries.length) <+: log) ∨
    (RaftNode.appendLoop log index entries = leader.take (index + entries.length) ∧
      (log <+: leader.take (index + entries.length) ∨
        ∃ spot mine theirs, log.take spot <+: leader.take (index + entries.length) ∧
          log[spot]? = some mine ∧ leader[spot]? = some theirs ∧ mine.term ≠ theirs.term)) := by
  induction entries generalizing index with
  | nil =>
    refine .inl ⟨rfl, ?_⟩
    rw [length_nil, Nat.add_zero, ← agreed]
    exact take_prefix _ _
  | cons entry rest ih =>
    have whole := slice
    rw [length_cons] at inside
    have bound : index < leader.length := by omega
    rw [length_cons, drop_eq_getElem_cons bound, take_succ_cons, List.cons.injEq] at slice
    obtain ⟨first, slice⟩ := slice
    have there : leader[index]? = some entry := by
      rw [List.getElem?_eq_getElem bound, first]
    have below : leader.take index <+: leader.take (index + (entry :: rest).length) :=
      take_prefix_take_left (by omega)
    have total : index + 1 + rest.length = index + (entry :: rest).length := by
      rw [length_cons]
      omega
    cases stored : log[index]? with
    | none =>
      -- The log ends here, so it is a prefix of the leader's log.
      have ends : log.length ≤ index := List.getElem?_eq_none_iff.mp stored
      have prefixed : log = leader.take index := by
        rw [← agreed, take_of_length_le ends]
      refine .inr ⟨?_, .inl (prefixed ▸ below)⟩
      rw [prefixed]
      exact appendLoop_of_take leader index _ (by rw [length_cons]; omega) whole
    | some mine =>
      by_cases differ : mine.term ≠ entry.term
      · refine .inr ⟨?_, .inr ⟨index, mine, entry, agreed ▸ below, stored, there, differ⟩⟩
        have longer : log.take index ++ [entry] = leader.take (index + 1) := by
          rw [agreed, first]
          exact take_concat_get' leader index bound
        rw [RaftNode.appendLoop, stored]
        simp only [if_pos differ]
        rw [longer, appendLoop_of_take leader (index + 1) rest (by omega) slice, total]
      · have equal := Classical.not_not.mp differ
        have next := ih (index + 1) (by omega) slice (matching index mine entry stored there equal)
          (List.getElem?_eq_some_iff.mp stored).1
        rw [total] at next
        rw [RaftNode.appendLoop, stored]
        simpa only [if_neg differ] using next

theorem RaftNode.applyLoop_eq (fuel : Nat) (node : RaftNode) : ∃ lastApplied applied engine,
    node.applyLoop fuel = { node with lastApplied, applied, engine } := by
  induction fuel generalizing node with
  | zero => exact ⟨_, _, _, rfl⟩
  | succ fuel ih =>
    unfold RaftNode.applyLoop
    split
    · exact ⟨_, _, _, rfl⟩
    · obtain ⟨lastApplied, applied, engine, same⟩ := ih _
      exact ⟨lastApplied, applied, engine, same⟩

theorem RaftNode.commitLoop_eq (node : RaftNode) (peers : List NodeId) (index : Nat) :
    ∃ commitIndex lastApplied applied engine, node.commitLoop peers index =
        { node with commitIndex, lastApplied, applied, engine } := by
  induction index with
  | zero => exact ⟨_, _, _, _, rfl⟩
  | succ index ih =>
    unfold RaftNode.commitLoop
    split
    · exact ⟨_, _, _, _, rfl⟩
    · split
      · exact ih
      · split
        · obtain ⟨lastApplied, applied, engine, same⟩ := RaftNode.applyLoop_eq
            (index + 1 - node.lastApplied) { node with commitIndex := index + 1 }
          exact ⟨_, lastApplied, applied, engine, same⟩
        · exact ih

private theorem follows_relog (tracks : NodeTracks cluster record id node) (follower : node.role = .follower)
    {log : List LogEntry} (replaced : Record.Sound cluster (record.relog id log)) :
    Follows cluster record (record.relog id log) id { node with log } := by
  refine ⟨replaced, History.ActsAs.relog, { tracks with
    log_eq := by simp [History.relog]
    leader_log := fun leads => by simp [follower] at leads
    leader_acked := fun leads => by simp [follower] at leads
    next_bound := fun leads => by simp [follower] at leads
    candidate_ran := fun runs => by simp [follower] at runs }⟩

theorem RaftNode.acceptEntries_eq (node : RaftNode) (hdr : AppendEntriesHeader)
    (entries : List LogEntry) : ∃ commitIndex lastApplied applied engine, node.acceptEntries hdr entries = { node with
          log := appendLoop node.log hdr.prevLogIndex entries
          commitIndex, lastApplied, applied, engine } := by
  simp only [RaftNode.acceptEntries]
  split
  · obtain ⟨lastApplied, applied, engine, same⟩ := RaftNode.applyLoop_eq _ _
    exact ⟨_, lastApplied, applied, engine, same⟩
  · exact ⟨_, _, _, _, rfl⟩

section
variable (sound : record.Sound cluster) (tracks : NodeTracks cluster record id node)
include sound tracks

theorem follows_finishReplicate (peers : List NodeId) (termSnapshot : Nat) :
    Follows cluster record record id (node.finishReplicate peers termSnapshot) := by
  unfold RaftNode.finishReplicate
  split
  · exact .refl sound tracks
  · obtain ⟨commitIndex, lastApplied, applied, engine, same⟩ := node.commitLoop_eq peers node.log.length
    rw [same]
    exact .refl sound (tracks.unobserved commitIndex lastApplied applied engine)

private theorem follows_followLeader (leaderId : NodeId) {term : Nat} (current : node.currentTerm ≤ term) :
    ∃ future, Follows cluster record future id (node.followLeader leaderId term) ∧
      (node.followLeader leaderId term).currentTerm = term ∧ (node.followLeader leaderId term).log = node.log := by
  unfold RaftNode.followLeader
  by_cases ahead : term > node.currentTerm
  · simp only [ahead, ↓reduceIte, and_self, and_true]
    exact ⟨_, follows_higher_term sound tracks ahead rfl rfl rfl rfl⟩
  · simp only [ahead, ↓reduceIte, and_true]
    refine ⟨record, .refl sound { tracks with
      member := fun active => absurd rfl active
      leader_won := nofun
      leader_log := nofun
      leader_acked := nofun
      match_acked := nofun
      next_bound := nofun
      candidate_ran := nofun
      candidate_open := nofun }, ?_⟩
    exact le_antisymm current (Nat.le_of_not_lt ahead)

theorem NodeTracks.matching (term : Nat) {index : Nat} {mine theirs : LogEntry} (mineFound : node.log[index]? = some mine)
    (theirsFound : (record.leaderLog term)[index]? = some theirs) (sameTerm : mine.term = theirs.term) :
    node.log.take (index + 1) = (record.leaderLog term).take (index + 1) :=
  Anchored.take_eq (tracks.log_eq ▸ sound.log_anchored id) (sound.leaderLog_anchored term)
    mineFound theirsFound sameTerm

private theorem follows_truncate (follower : node.role = .follower) {index : Nat} {mine theirs : LogEntry}
    (elected : record.winner node.currentTerm ≠ none) (mineFound : node.log[index]? = some mine)
    (theirsFound : (record.leaderLog node.currentTerm)[index]? = some theirs) (differ : mine.term ≠ theirs.term) :
    Follows cluster record (record.relog id (node.log.take index)) id { node with log := node.log.take index } := by
  apply follows_relog tracks follower
  have part : node.log.take index <+: record.log id := tracks.log_eq ▸ take_prefix _ _
  refine sound.relog ((sound.log_anchored id).restrict part) ((sound.log_ascending id).restrict part)
    (fun entry inside => sound.log_le id entry (part.subset inside)) ?_
  intro term count within held
  rw [← tracks.term_eq] at elected theirsFound
  rw [← tracks.log_eq] at mineFound
  exact sound.kept_of_divergence elected (by rw [tracks.log_eq]) mineFound theirsFound differ within held

/-- The accepted slice: the follower's new log holds the leader's log up to the
end of the slice, and the follower acknowledges it. -/
theorem follows_append (follower : node.role = .follower) {prevLogIndex : Nat} {entries : List LogEntry}
    (elected : record.winner node.currentTerm ≠ none)
    (inside : prevLogIndex + entries.length ≤ (record.leaderLog node.currentTerm).length)
    (slice : entries = ((record.leaderLog node.currentTerm).drop prevLogIndex).take entries.length)
    (agreed : node.log.take prevLogIndex = (record.leaderLog node.currentTerm).take prevLogIndex)
    (reached : prevLogIndex ≤ node.log.length) : ∃ future, Follows cluster record future id
        { node with log := RaftNode.appendLoop node.log prevLogIndex entries } ∧
      prevLogIndex + entries.length ≤ future.acked id node.currentTerm ∧
      (record.leaderLog node.currentTerm).take (prevLogIndex + entries.length) <+:
        RaftNode.appendLoop node.log prevLogIndex entries := by
  have outcome := appendLoop_cases (record.leaderLog node.currentTerm) node.log prevLogIndex entries inside slice
    agreed reached (fun _ _ _ => tracks.matching sound node.currentTerm)
  generalize RaftNode.appendLoop node.log prevLogIndex entries = log at outcome ⊢
  have holds : (record.leaderLog node.currentTerm).take (prevLogIndex + entries.length) <+: log := by
    rcases outcome with ⟨rfl, held⟩ | ⟨rfl, -⟩
    · exact held
    · exact prefix_refl _
  have replaced : Record.Sound cluster (record.relog id log) := by
    rcases outcome with ⟨rfl, -⟩ | ⟨rfl, shape⟩
    · refine sound.relog ?_ ?_ ?_ (fun _ held => .inl (tracks.log_eq ▸ held))
      · exact tracks.log_eq ▸ sound.log_anchored id
      · exact tracks.log_eq ▸ sound.log_ascending id
      · exact tracks.log_eq ▸ sound.log_le id
    · have part := take_prefix (prevLogIndex + entries.length) (record.leaderLog node.currentTerm)
      refine sound.relog ((sound.leaderLog_anchored _).restrict part)
        ((sound.leaderLog_ascending _).restrict part) ?_ ?_
      · intro entry member
        rw [tracks.term_eq]
        exact sound.leaderLog_le _ entry (part.subset member)
      · intro term count within held
        rcases shape with shorter | ⟨index, mine, theirs, common, mineFound, theirsFound, differ⟩
        · exact .inl ((tracks.log_eq ▸ held).trans shorter)
        · rw [← tracks.log_eq] at mineFound common
          rw [← tracks.term_eq] at elected theirsFound common
          exact tracks.term_eq ▸ sound.kept_of_divergence elected common mineFound theirsFound differ within held
  have relogged := follows_relog tracks follower replaced
  refine ⟨(record.relog id log).acknowledge id (prevLogIndex + entries.length),
    relogged.trans ⟨?_, History.ActsAs.acknowledge, ?_⟩, ?_, holds⟩
  · refine replaced.acknowledge ?_ ?_
    · change _ ≤ (record.leaderLog (record.term id)).length
      rw [tracks.term_eq]
      exact inside
    · change (record.leaderLog (record.term id)).take _ <+: _
      rw [tracks.term_eq, relogged.tracks.log_eq]
      exact holds
  · exact { relogged.tracks with
      leader_acked := fun leads => by simp [follower] at leads
      match_acked := fun leads => by simp [follower] at leads }
  · simp [History.acknowledge, History.relog, tracks.term_eq]

private theorem follows_acceptEntries (follower : node.role = .follower) {hdr : AppendEntriesHeader}
    {entries : List LogEntry} (elected : record.winner node.currentTerm ≠ none)
    (inside : hdr.prevLogIndex + entries.length ≤ (record.leaderLog node.currentTerm).length)
    (slice : entries = ((record.leaderLog node.currentTerm).drop hdr.prevLogIndex).take entries.length)
    (agreed : node.log.take hdr.prevLogIndex = (record.leaderLog node.currentTerm).take hdr.prevLogIndex)
    (reached : hdr.prevLogIndex ≤ node.log.length) :
    ∃ future, Follows cluster record future id (node.acceptEntries hdr entries) ∧
      hdr.prevLogIndex + entries.length ≤ future.acked id node.currentTerm := by
  obtain ⟨future, follows, acked, -⟩ := follows_append sound tracks follower elected inside slice agreed reached
  obtain ⟨commitIndex, lastApplied, applied, engine, same⟩ := node.acceptEntries_eq hdr entries
  rw [same]
  exact ⟨future, ⟨follows.sound, follows.acts,
    follows.tracks.unobserved commitIndex lastApplied applied engine⟩, acked⟩

end

theorem follows_handleAppendEntries (sound : record.Sound cluster) {request : AppendRequest}
    (tracks : NodeTracks cluster record request.call.peer node) (valid : request.Valid record) :
    ∃ future, Follows cluster record future request.call.peer
        (node.handleAppendEntries request.call.node request.hdr request.entries).1 ∧
      AppendResponse.Valid future ⟨request.call,
        (node.handleAppendEntries request.call.node request.hdr request.entries).2⟩ := by
  unfold RaftNode.handleAppendEntries
  by_cases stale : request.hdr.term < node.currentTerm
  · simp only [stale, ↓reduceIte]
    exact ⟨record, .refl sound tracks, nofun⟩
  simp only [stale, ↓reduceIte]
  obtain ⟨middle, followed, term, log⟩ := follows_followLeader sound tracks request.call.node (Nat.le_of_not_lt stale)
  have follower : (node.followLeader request.call.node request.hdr.term).role = .follower := rfl
  generalize node.followLeader request.call.node request.hdr.term = raised at *
  have validNow := valid.mono followed.acts.toExtends
  have elected : middle.winner raised.currentTerm ≠ none := by
    rw [term, validNow.won]
    simp
  -- Once the logs agree up to the previous entry, the rest is the accepted slice.
  have accept : raised.log.take request.hdr.prevLogIndex =
        (middle.leaderLog raised.currentTerm).take request.hdr.prevLogIndex →
      request.hdr.prevLogIndex ≤ raised.log.length →
      ∃ future, Follows cluster record future request.call.peer (raised.acceptEntries request.hdr request.entries) ∧
        AppendResponse.Valid future ⟨request.call,
          ⟨(raised.acceptEntries request.hdr request.entries).currentTerm, true,
            (raised.acceptEntries request.hdr request.entries).log.length⟩⟩ := by
    intro agreed reached
    obtain ⟨future, accepted, acked⟩ := follows_acceptEntries followed.sound followed.tracks
      follower elected (term ▸ validNow.inside) (term ▸ validNow.slice) agreed reached
    refine ⟨future, followed.trans accepted, fun _ => ?_⟩
    simp only [validNow.call_prev, validNow.call_count, validNow.call_term]
    exact term ▸ acked
  by_cases positive : request.hdr.prevLogIndex > 0
  · simp only [positive, ↓reduceIte]
    cases stored : raised.log[request.hdr.prevLogIndex - 1]? with
    | none => exact ⟨middle, followed, nofun⟩
    | some mine =>
      obtain ⟨theirs, theirsFound, theirsTerm⟩ := Option.map_eq_some_iff.mp (validNow.prevTerm positive)
      rw [← term] at theirsFound
      by_cases differ : mine.term ≠ request.hdr.prevLogTerm
      · simp only [if_pos differ]
        exact ⟨_, followed.trans (follows_truncate followed.sound followed.tracks follower
          elected stored theirsFound (theirsTerm ▸ differ)), nofun⟩
      · simp only [if_neg differ]
        have equal : mine.term = theirs.term := (Classical.not_not.mp differ).trans theirsTerm.symm
        have agreed := followed.tracks.matching followed.sound raised.currentTerm stored theirsFound equal
        have bound := (List.getElem?_eq_some_iff.mp stored).1
        have restored : request.hdr.prevLogIndex - 1 + 1 = request.hdr.prevLogIndex := by omega
        rw [restored] at agreed
        exact accept agreed (by omega)
  · simp only [positive, ↓reduceIte]
    have zero : request.hdr.prevLogIndex = 0 := Nat.eq_zero_of_not_pos positive
    exact accept (by rw [zero, take_zero, take_zero]) (zero ▸ Nat.zero_le _)

theorem valid_replicateToPeer (tracks : NodeTracks cluster record id node) {round : Nat}
    {peer : NodeId} (inside : peer ∈ cluster.peers id) {termSnapshot commitSnapshot : Nat}
    {hdr : AppendEntriesHeader} {entries : List LogEntry}
    (sent : node.replicateToPeer id peer termSnapshot commitSnapshot = some (hdr, entries)) :
    AppendRequest.Valid record ⟨⟨round, id, peer, termSnapshot, hdr.prevLogIndex, entries.length⟩, hdr, entries⟩ := by
  unfold RaftNode.replicateToPeer at sent
  split at sent
  · cases sent
  case isFalse active =>
    simp only [ne_eq, not_or, Classical.not_not] at active
    obtain ⟨leads, current⟩ := active
    obtain ⟨nextPositive, nextBound⟩ := tracks.next_bound leads peer inside
    have leaderLog := tracks.leader_log leads
    simp only [nextPositive, ↓reduceIte, Option.some.injEq, Prod.mk.injEq, gt_iff_lt] at sent
    obtain ⟨rfl, rfl⟩ := sent
    subst current
    refine {
      won := tracks.leader_won leads
      inside := ?_
      slice := ?_
      prevTerm := ?_
      call_prev := rfl
      call_count := rfl
      call_term := rfl }
    · simp only [leaderLog, length_take, length_drop]
      omega
    · simp only [leaderLog, length_take, take_eq_take_iff, length_drop]
      omega
    · intro positive
      simp only at positive
      have bound : node.nextIndex peer - 1 - 1 < node.log.length := by omega
      simp [leaderLog, positive, List.getElem?_eq_getElem bound]

/-- The last block of `replicate_to_peer`: a higher term makes the node a
follower, a success raises the peer's match index to what the peer acknowledged. -/
theorem follows_receiveAppend (sound : record.Sound cluster) {response : AppendResponse}
    (tracks : NodeTracks cluster record response.call.node node) (valid : response.Valid record) :
    ∃ future, Follows cluster record future response.call.node
      (node.receiveAppend response.call.peer response.call.termSnapshot
        response.call.prevLogIndex response.call.entryCount response.result) := by
  unfold RaftNode.receiveAppend
  split
  case isTrue ahead => exact ⟨_, follows_stepDown sound tracks ahead⟩
  split
  · exact ⟨record, .refl sound tracks⟩
  case isFalse active =>
    simp only [ne_eq, not_or, Classical.not_not] at active
    obtain ⟨leads, current⟩ := active
    split
    case isTrue success =>
      have acked := valid success
      rw [← current] at acked
      have length := acked.trans (sound.acked_length _ _)
      rw [tracks.leader_log leads] at length
      refine ⟨record, .refl sound { tracks with match_acked := ?_, next_bound := ?_ }⟩
      · intro _ peer inside
        by_cases same : peer = response.call.peer
        · subst same
          simpa using acked
        · simpa [Function.update_of_ne same] using tracks.match_acked leads peer inside
      · intro _ peer inside
        by_cases same : peer = response.call.peer
        · subst same
          simpa using length
        · simpa [Function.update_of_ne same] using tracks.next_bound leads peer inside
    case isFalse =>
      split
      case isTrue above =>
        refine ⟨record, .refl sound { tracks with next_bound := ?_ }⟩
        intro _ peer inside
        have bound := tracks.next_bound leads peer inside
        by_cases same : peer = response.call.peer
        · subst same
          simp only [Function.update_self]
          omega
        · simpa [Function.update_of_ne same] using bound
      case isFalse => exact ⟨record, .refl sound tracks⟩

theorem follows_propose (sound : record.Sound cluster) (tracks : NodeTracks cluster record id node)
    {command : AddRuleCommand} {appended : RaftNode} {entry : LogEntry} {myIndex : Nat}
    (accepted : node.propose command = .ok (appended, entry, myIndex)) :
    ∃ future, Follows cluster record future id appended ∧ Proposal.Valid future ⟨id, entry, myIndex, .appended⟩ := by
  unfold RaftNode.propose at accepted
  split at accepted
  · cases accepted
  case isFalse active =>
    have leads : node.role = .leader := Classical.not_not.mp active
    obtain ⟨rfl, rfl, rfl⟩ := accepted
    have won := tracks.leader_won leads
    have whole := tracks.leader_log leads
    rw [← tracks.term_eq] at won
    have complete : record.leaderLog (record.term id) = record.log id := by
      rw [tracks.term_eq, whole, tracks.log_eq]
    have own : (⟨node.currentTerm, false, command⟩ : LogEntry).term = record.term id := tracks.term_eq.symm
    have led := sound.lead won complete own
    have acts := History.ActsAs.lead (⟨node.currentTerm, false, command⟩ : LogEntry) won
    have grownLog : (record.lead id ⟨node.currentTerm, false, command⟩).leaderLog
        node.currentTerm = node.log ++ [⟨node.currentTerm, false, command⟩] := by
      simp [History.lead, History.acknowledge, History.relog, History.extend, tracks.term_eq, whole]
    refine ⟨_, ⟨led, acts, ?_⟩, ?_, ?_, ?_⟩
    · refine { tracks with
        log_eq := ?_, leader_log := fun _ => grownLog, leader_acked := fun _ => ?_
        match_acked := fun leads peer inside =>
          (tracks.match_acked leads peer inside).trans (acts.acked_le _ _)
        next_bound := fun leads peer inside => ?_
        candidate_ran := fun runs => by simp [leads] at runs }
      · simp [History.lead, History.acknowledge, History.relog, History.extend, tracks.log_eq]
      · simp [History.lead, History.acknowledge, History.relog, History.extend, tracks.log_eq, tracks.term_eq]
      · have bound := tracks.next_bound leads peer inside
        simp only [length_append, length_singleton]
        omega
    · exact acts.winner_eq (tracks.term_eq ▸ won)
    · simp
    · simp only [grownLog]
      simp

end AnimusCore.Cluster
