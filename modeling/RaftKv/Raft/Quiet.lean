import RaftKv.Raft.Leader

/-!
# Sections that leave the replica alone

Most sections only move a node to a later term, or do nothing to its log, its
commit index and what it knows about its peers. A leadership ends with its term:
a section is quiet if the node is a leader afterwards exactly when it was one
before and its term has not changed.
-/

namespace RaftKv.Raft.Raftserver

structure Quiet (rf rf' : Raftserver) : Prop where
  log : rf'.log = rf.log
  includedIndex : rf'.lastIncludedIndex = rf.lastIncludedIndex
  includedTerm : rf'.lastIncludedTerm = rf.lastIncludedTerm
  commit : rf'.commitIndex = rf.commitIndex
  matchIndex : rf'.matchIndex = rf.matchIndex
  nextIndex : ∀ k ∈ rf.nextIndex, k ∈ rf'.nextIndex
  term : rf.currentTerm ≤ rf'.currentTerm
  role : rf'.role = .leader ↔ rf.role = .leader ∧ rf'.currentTerm = rf.currentTerm

namespace Quiet

theorem refl (rf : Raftserver) : Quiet rf rf :=
  ⟨rfl, rfl, rfl, rfl, rfl, fun _ hk => hk, le_rfl, by simp⟩

theorem trans {a b c : Raftserver} (hab : Quiet a b) (hbc : Quiet b c) : Quiet a c where
  log := hbc.log.trans hab.log
  includedIndex := hbc.includedIndex.trans hab.includedIndex
  includedTerm := hbc.includedTerm.trans hab.includedTerm
  commit := hbc.commit.trans hab.commit
  matchIndex := hbc.matchIndex.trans hab.matchIndex
  nextIndex k hk := hbc.nextIndex k (hab.nextIndex k hk)
  term := hab.term.trans hbc.term
  role := by
    have hle := hab.term
    have hle' := hbc.term
    rw [hbc.role, hab.role]
    constructor
    · rintro ⟨⟨hrole, hb⟩, hc⟩
      exact ⟨hrole, hc.trans hb⟩
    · rintro ⟨hrole, hc⟩
      exact ⟨⟨hrole, by omega⟩, by omega⟩

/-- Moving to a later term without a leadership. -/
theorem later {rf rf' : Raftserver} (log : rf'.log = rf.log)
    (includedIndex : rf'.lastIncludedIndex = rf.lastIncludedIndex)
    (includedTerm : rf'.lastIncludedTerm = rf.lastIncludedTerm)
    (commit : rf'.commitIndex = rf.commitIndex) (matchIndex : rf'.matchIndex = rf.matchIndex)
    (nextIndex : rf'.nextIndex = rf.nextIndex) (term : rf.currentTerm < rf'.currentTerm)
    (role : rf'.role ≠ .leader) : Quiet rf rf' :=
  ⟨log, includedIndex, includedTerm, commit, matchIndex, fun _ hk => nextIndex ▸ hk, term.le,
    ⟨fun leader => absurd leader role, fun same => absurd same.2 term.ne'⟩⟩

end Quiet

theorem persist_quiet {rf rf' : Raftserver} (h : rf.persist = some rf') : Quiet rf rf' := by
  obtain ⟨calls, rfl⟩ := persist_eq h
  exact ⟨rfl, rfl, rfl, rfl, rfl, fun _ hk => hk, le_rfl, by simp⟩

theorem Observes.quiet {rf rf' : Raftserver} {term : Int} (h : Observes rf term rf') :
    Quiet rf rf' := by
  cases h with
  | kept => exact .refl rf
  | later newer calls => exact .later rfl rfl rfl rfl rfl rfl newer (by simp)

theorem startElection_quiet {rf : Raftserver} {result : Raftserver × RequestVoteArgs}
    (h : rf.startElection = some result) : Quiet rf result.1 := by
  obtain ⟨last, calls, -, rfl⟩ := startElection_outcome h
  exact .later rfl rfl rfl rfl rfl rfl (by simp) (by simp)

/-- A leader that has used its vote does not give it to another candidate. -/
theorem requestVote_quiet {rf : Raftserver} {args : RequestVoteArgs}
    {result : Raftserver × RequestVoteReply}
    (own : rf.role = .leader → rf.votedFor ≠ none ∧ rf.votedFor ≠ args.candidateId)
    (h : rf.requestVote args = some result) : Quiet rf result.1 := by
  obtain ⟨observed, observes, rfl | ⟨hterm, hvote, last, calls, -, -, rfl⟩⟩ := requestVote_outcome h
  · exact observes.quiet
  refine observes.quiet.trans ⟨rfl, rfl, rfl, rfl, rfl, fun _ hk => hk, hterm.le, ?_⟩
  refine ⟨fun leader => (by cases leader), fun same => ?_⟩
  cases observes with
  | kept => exact absurd hvote (not_or.mpr (own same.1))
  | later newer calls => cases same.1

theorem procVoteAnswer_quiet {rf : Raftserver} {args : RequestVoteArgs}
    {reply : RequestVoteReply} {result : Raftserver × Bool}
    (h : rf.procVoteAnswer args reply = some result) : Quiet rf result.1 :=
  (procVoteAnswer_observes h).quiet

/-- A counted vote that does not make a leader. -/
theorem collectVote_quiet {rf : Raftserver} {outTime : Bool}
    (same : (rf.collectVote outTime).role = rf.role) : Quiet rf (rf.collectVote outTime) := by
  have hspec : (rf.collectVote outTime) = rf ∨
      (rf.collectVote outTime) = { rf with voteCount := rf.voteCount + 1 } := by
    unfold collectVote at same ⊢
    split
    · exact .inl rfl
    split
    · rename_i hlow helected
      rw [if_neg hlow, if_pos helected, helected.2.1] at same
      cases same
    · exact .inr rfl
  rcases hspec with heq | heq <;> rw [heq]
  · exact .refl rf
  · exact ⟨rfl, rfl, rfl, rfl, rfl, fun _ hk => hk, le_rfl, by simp⟩

theorem observeLeader_quiet {rf rf' : Raftserver} {term : Int} (hle : rf.currentTerm ≤ term)
    (h : rf.observeLeader term = some rf') : Quiet rf rf' ∧ rf'.currentTerm = term :=
  ⟨(observeLeader_observes h).quiet, observeLeader_term hle h⟩

/-- The loop only goes down, and not below the placeholder. -/
theorem conflictIndex_range {rf : Raftserver} {xTerm : Int} {fuel : Nat} {k i : Int}
    (hk : rf.lastIncludedIndex ≤ k) (h : rf.conflictIndex xTerm fuel k = some i) :
    rf.lastIncludedIndex ≤ i ∧ i ≤ k := by
  induction fuel generalizing k with
  | zero =>
      cases h
      exact ⟨hk, le_rfl⟩
  | succ fuel ih =>
      rw [conflictIndex] at h
      split at h
      · obtain ⟨e, -, h⟩ := Option.bind_eq_some_iff.mp h
        split at h
        · have := ih (by omega) h
          omega
        · cases h
          exact ⟨hk, le_rfl⟩
      · cases h
        exact ⟨hk, le_rfl⟩

/-- The three ways to refuse a message: its previous entry is behind the end of the log, in
the snapshot, or of another term. -/
theorem checkPrev_refusal {rf : Raftserver} {args : AppendEntriesArgs}
    {reply : AppendEntriesReply} (h : rf.checkPrev args = some (some reply)) :
    reply.success = false ∧ reply.term = rf.currentTerm ∧
      ((rf.localToGlobal rf.log.length ≤ args.prevLogIndex ∧ reply.xIndex = 0 ∧
          reply.xLen = rf.localToGlobal rf.log.length) ∨
        (args.prevLogIndex < rf.lastIncludedIndex ∧ reply.xIndex = 0 ∧
          reply.xLen = rf.lastIncludedIndex + 1) ∨
        ∃ e, rf.entryAt args.prevLogIndex = some e ∧ reply.xTerm = e.term ∧
          rf.lastIncludedIndex < reply.xIndex ∧ reply.xIndex ≤ args.prevLogIndex + 1) := by
  rw [checkPrev] at h
  split at h
  · rename_i hlast
    cases h
    exact ⟨rfl, rfl, .inl ⟨hlast, rfl, rfl⟩⟩
  split at h
  · rename_i hfirst
    cases h
    exact ⟨rfl, rfl, .inr (.inl ⟨hfirst, rfl, rfl⟩)⟩
  rename_i hlast hfirst
  split at h
  · cases h
  obtain ⟨e, he, h⟩ := Option.bind_eq_some_iff.mp h
  split at h
  · obtain ⟨i, hi, h⟩ := Option.map_eq_some_iff.mp h
    cases h
    obtain ⟨hlower, hupper⟩ := conflictIndex_range (by omega) hi
    refine ⟨rfl, rfl, .inr (.inr ⟨e, he, rfl, ?_, ?_⟩)⟩ <;> dsimp only <;> omega
  · cases h

theorem checkPrev_refuses {rf : Raftserver} {args : AppendEntriesArgs}
    {reply : AppendEntriesReply} (h : rf.checkPrev args = some (some reply)) :
    reply.success = false :=
  (checkPrev_refusal h).1

/-- A previous entry that passes the check lies between the placeholder and the end. -/
theorem checkPrev_range {rf : Raftserver} {args : AppendEntriesArgs}
    (h : rf.checkPrev args = some none) :
    rf.lastIncludedIndex ≤ args.prevLogIndex ∧
      args.prevLogIndex < rf.log.length + rf.lastIncludedIndex := by
  obtain ⟨hfirst, hlast, -⟩ := checkPrev_passes_iff.mp h
  exact ⟨hfirst, hlast⟩

/-- A request of an older term, or one that fails the check, changes at most the
term; otherwise the rest of the handler runs in the leader's term. -/
theorem appendEntries_cases {rf : Raftserver} {args : AppendEntriesArgs}
    {result : Raftserver × AppendEntriesReply} (h : rf.appendEntries args = some result) :
    (Quiet rf result.1 ∧ result.2.success = false) ∨
      ∃ observed, Quiet rf observed ∧ rf.currentTerm ≤ args.term ∧
        observed.currentTerm = args.term ∧ observed.checkPrev args = some none ∧
        observed.acceptEntries args = some result := by
  obtain ⟨-, rfl⟩ | ⟨hle, observed, hobserved, ⟨reply, hcheck, rfl⟩ | ⟨hcheck, haccept⟩⟩ :=
    appendEntries_outcome h
  · exact .inl ⟨.refl rf, rfl⟩
  · exact .inl ⟨(observeLeader_observes hobserved).quiet, checkPrev_refuses hcheck⟩
  · obtain ⟨quiet, hcurrent⟩ := observeLeader_quiet hle hobserved
    exact .inr ⟨observed, quiet, hle, hcurrent, hcheck, haccept⟩

/-- A node that is not the leader of the sender's term may become a follower of it. -/
theorem observeSnapshot_quiet (rf : Raftserver) {term : Int} (hle : rf.currentTerm ≤ term)
    (other : rf.role = .leader → rf.currentTerm ≠ term) :
    Quiet rf (rf.observeSnapshot term) ∧ (rf.observeSnapshot term).currentTerm = term := by
  unfold observeSnapshot
  split
  · exact ⟨.later rfl rfl rfl rfl rfl rfl ‹_› (by simp), rfl⟩
  · have hsame : rf.currentTerm = term := by omega
    refine ⟨⟨rfl, rfl, rfl, rfl, rfl, fun _ hk => hk, le_rfl, ?_⟩, hsame⟩
    exact ⟨fun leader => (by cases leader), fun same => absurd hsame (other same.1)⟩

theorem sendInstallSnapshotToServer_quiet {rf rf' : Raftserver} {server : Nat}
    {reply : InstallSnapshotReply} (h : rf.sendInstallSnapshotToServer server reply = some rf') :
    Quiet rf rf' := by
  obtain ⟨-, observes⟩ | rfl := sendInstallSnapshotToServer_outcome h
  · exact observes.quiet
  · exact ⟨rfl, rfl, rfl, rfl, rfl, fun k hk => (AList.mem_insert _).mpr (.inr hk), le_rfl, by simp⟩

/-- A node that is not a leader may adopt the term of an answer. -/
theorem sendCommitIndex_quiet {rf : Raftserver} {r : GetCommitIndexReply}
    (kept : rf.role = .leader → rf.commitIndex ≤ r.term → rf.commitIndex ≤ r.commitIndex →
      r.term ≤ rf.currentTerm) :
    Quiet rf (rf.sendCommitIndex r).1 := by
  rw [sendCommitIndex]
  split
  · exact .refl rf
  rename_i taken
  obtain ⟨hterm, hcommit⟩ := not_or.mp taken
  split
  · rename_i newer
    refine .later rfl rfl rfl rfl rfl rfl newer fun role => ?_
    have := kept role (not_lt.mp hterm) (not_lt.mp hcommit)
    omega
  · exact .refl rf

end RaftKv.Raft.Raftserver
