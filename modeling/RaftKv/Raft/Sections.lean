import RaftKv.Raft.Handlers

/-!
# What the sections can do

For each section one lemma that lists the states it can end in. What the persister has
been given is left open. The frame conditions, and the invariants that most sections do
not touch, are read off these lists and do not look into the sections again.
-/

namespace RaftKv.Raft.Raftserver

variable {rf rf' : Raftserver}

/-- A node that sees a term keeps its state, or follows in the later term without a vote. -/
inductive Observes (rf : Raftserver) (term : Int) : Raftserver → Prop
  | kept : Observes rf term rf
  | later (newer : rf.currentTerm < term) (calls : List SaveArgs) :
      Observes rf term { rf with
        currentTerm := term, votedFor := none, role := .follower, persister := calls }

theorem observeLeader_observes {term : Int} (h : rf.observeLeader term = some rf') :
    Observes rf term rf' := by
  rw [observeLeader] at h
  split at h
  · rename_i newer
    obtain ⟨calls, rfl⟩ := persist_map_eq h
    exact .later newer calls
  · cases h
    exact .kept

/-- The node is in the leader's term afterwards. -/
theorem observeLeader_term {term : Int} (hle : rf.currentTerm ≤ term)
    (h : rf.observeLeader term = some rf') : rf'.currentTerm = term := by
  rw [observeLeader] at h
  split at h
  · obtain ⟨calls, rfl⟩ := persist_map_eq h
    rfl
  · cases h
    omega

/-- A vote is refused, or it is given in the candidate's term by a node that has not voted
for another candidate and whose log is not more up to date. -/
theorem requestVote_outcome {args : RequestVoteArgs} {result : Raftserver × RequestVoteReply}
    (h : rf.requestVote args = some result) :
    ∃ observed, Observes rf args.term observed ∧
      (result = (observed, { term := observed.currentTerm, voteGranted := false }) ∨
        (observed.currentTerm = args.term ∧
          (observed.votedFor = none ∨ observed.votedFor = args.candidateId) ∧
          ∃ last calls, observed.lastEntry = some last ∧
            (last.term < args.lastLogTerm ∨
              (observed.lastIndex ≤ args.lastLogIndex ∧ args.lastLogTerm = last.term)) ∧
            result = ({ observed with
                currentTerm := args.term, votedFor := args.candidateId, role := .follower
                persister := calls },
              { term := args.term, voteGranted := true }))) := by
  rw [requestVote] at h
  split at h
  · cases h
    exact ⟨rf, .kept, .inl rfl⟩
  rename_i current
  obtain ⟨observed, hobserved, h⟩ := Option.bind_eq_some_iff.mp h
  have seen : Observes rf args.term observed ∧ observed.currentTerm = args.term := by
    split at hobserved
    · rename_i newer
      obtain ⟨calls, rfl⟩ := persist_eq hobserved
      exact ⟨.later newer calls, rfl⟩
    · cases hobserved
      exact ⟨.kept, by omega⟩
  refine ⟨observed, seen.1, ?_⟩
  split at h
  · rename_i hvote
    obtain ⟨last, hlast, h⟩ := Option.bind_eq_some_iff.mp h
    split at h
    · rename_i hcheck
      obtain ⟨calls, rfl⟩ := persist_map_eq h
      exact .inr ⟨seen.2, hvote, last, calls, hlast, hcheck, rfl⟩
    · cases h
      exact .inl rfl
  · cases h
    exact .inl rfl

theorem startElection_outcome {result : Raftserver × RequestVoteArgs}
    (h : rf.startElection = some result) :
    ∃ last calls, rf.lastEntry = some last ∧
      result = ({ rf with
          currentTerm := rf.currentTerm + 1, role := .candidate, votedFor := some rf.me
          voteCount := 1, persister := calls },
        { term := rf.currentTerm + 1, candidateId := some rf.me, lastLogIndex := rf.lastIndex
          lastLogTerm := last.term }) := by
  obtain ⟨saved, hsaved, h⟩ := Option.bind_eq_some_iff.mp h
  obtain ⟨last, hlast, rfl⟩ := Option.map_eq_some_iff.mp h
  obtain ⟨calls, rfl⟩ := persist_eq hsaved
  exact ⟨last, calls, hlast, rfl⟩

theorem startElectionInt64_eq (fits : rf.CanCount) : rf.startElectionInt64 = rf.startElection := by
  obtain ⟨low, high⟩ := fits
  have counted : (rf.currentTerm + 1).bmod (2 ^ 64) - 1 = rf.currentTerm := by
    rw [Int.bmod_eq_of_le (by omega) (by omega)]
    omega
  rw [startElectionInt64, counted]

theorem procVoteAnswer_observes {args : RequestVoteArgs} {reply : RequestVoteReply}
    {result : Raftserver × Bool} (h : rf.procVoteAnswer args reply = some result) :
    Observes rf reply.term result.1 := by
  rw [procVoteAnswer] at h
  split at h
  · cases h
    exact .kept
  split at h
  · rename_i newer
    obtain ⟨calls, rfl⟩ := persist_map_eq h
    exact .later newer calls
  · cases h
    exact .kept

/-- Counting a vote touches the count, the role and what a leader knows about its peers. -/
theorem collectVote_outcome (rf : Raftserver) (outTime : Bool) :
    ∃ count role leaderIdx nextIndex matchIndex, rf.collectVote outTime = { rf with
      voteCount := count, role := role, leaderIdx := leaderIdx, nextIndex := nextIndex
      matchIndex := matchIndex } := by
  rw [collectVote]
  split
  · exact ⟨_, _, _, _, _, rfl⟩
  split <;> exact ⟨_, _, _, _, _, rfl⟩

theorem acceptEntries_outcome {args : AppendEntriesArgs} {result : Raftserver × AppendEntriesReply}
    (h : rf.acceptEntries args = some result) :
    ∃ log calls, rf.mergedLog args = some log ∧
      result = ({ rf with
          log := log, persister := calls, leaderIdx := args.leaderId
          commitIndex :=
            if rf.commitIndex < args.leaderCommit then
              max args.leaderCommit (lastIndex { rf with log := log })
            else rf.commitIndex },
        { term := rf.currentTerm, success := true, xIndex := rf.lastIncludedIndex }) := by
  obtain ⟨log, hlog, h⟩ := Option.bind_eq_some_iff.mp h
  obtain ⟨calls, rfl⟩ := persist_map_eq h
  exact ⟨log, calls, hlog, rfl⟩

/-- A message is turned down for its term or for its previous entry, or it is accepted. -/
theorem appendEntries_outcome {args : AppendEntriesArgs} {result : Raftserver × AppendEntriesReply}
    (h : rf.appendEntries args = some result) :
    (args.term < rf.currentTerm ∧ result = (rf, { term := rf.currentTerm, success := false })) ∨
      (rf.currentTerm ≤ args.term ∧ ∃ observed, rf.observeLeader args.term = some observed ∧
        ((∃ reply, observed.checkPrev args = some (some reply) ∧ result = (observed, reply)) ∨
          (observed.checkPrev args = some none ∧ observed.acceptEntries args = some result))) := by
  rw [appendEntries] at h
  split at h
  · rename_i older
    obtain ⟨last, -, rfl⟩ := Option.map_eq_some_iff.mp h
    exact .inl ⟨older, rfl⟩
  rename_i current
  obtain ⟨observed, hobserved, h⟩ := Option.bind_eq_some_iff.mp h
  obtain ⟨refusal, hcheck, h⟩ := Option.bind_eq_some_iff.mp h
  refine .inr ⟨Int.not_lt.mp current, observed, hobserved, ?_⟩
  cases refusal with
  | some reply =>
      cases h
      exact .inl ⟨reply, hcheck, rfl⟩
  | none => exact .inr ⟨hcheck, h⟩

/-- A reply in the term of the request is an acknowledgement, or a refusal that moves the
next index. Any other reply is at most a reason to step down. -/
theorem sendAppendEntriesToServer_outcome {server : Nat} {args : AppendEntriesArgs}
    {reply : AppendEntriesReply} {result : Raftserver × Bool}
    (h : rf.sendAppendEntriesToServer server args reply = some result) :
    (args.term = rf.currentTerm ∧ reply.success = true ∧
        ∃ c, (rf.acknowledge server args).commitScan (rf.lastIndex - rf.commitIndex).toNat
            rf.lastIndex = some c ∧
          result.1 = { rf.acknowledge server args with commitIndex := c }) ∨
      (args.term = rf.currentTerm ∧ reply.success = false ∧ reply.term = rf.currentTerm ∧
        rf.role = .leader ∧ ∃ next, rf.backtrack server reply = some next ∧
          result.1 = { rf with nextIndex := rf.nextIndex.insert server next }) ∨
      Observes rf reply.term result.1 := by
  rw [sendAppendEntriesToServer] at h
  split at h
  · cases h
    exact .inr (.inr .kept)
  rename_i hterm
  split at h
  · rename_i success
    obtain ⟨c, hc, rfl⟩ := Option.map_eq_some_iff.mp h
    exact .inl ⟨not_not.mp hterm, success, c, hc, rfl⟩
  rename_i refused
  split at h
  · rename_i newer
    obtain ⟨calls, rfl⟩ := persist_map_eq h
    exact .inr (.inr (.later newer calls))
  split at h
  · rename_i own
    obtain ⟨next, hnext, rfl⟩ := Option.map_eq_some_iff.mp h
    exact .inr (.inl ⟨not_not.mp hterm, Bool.eq_false_iff.mpr refused, own.1, own.2, next, hnext,
      rfl⟩)
  · cases h
    exact .inr (.inr .kept)

/-- The term does not go back, and the node follows. -/
theorem observeSnapshot_outcome (rf : Raftserver) (term : Int) :
    ∃ current voted, rf.currentTerm ≤ current ∧ rf.observeSnapshot term = { rf with
      currentTerm := current, votedFor := voted, role := .follower } := by
  rw [observeSnapshot]
  split
  · rename_i newer
    exact ⟨term, none, Int.le_of_lt newer, rfl⟩
  · exact ⟨rf.currentTerm, rf.votedFor, Int.le_refl _, rfl⟩

/-- A snapshot is taken from the commit index on, which is then its own index. -/
theorem takeSnapshot_outcome {args : InstallSnapshotArgs}
    {result : Raftserver × InstallSnapshotReply × Option ApplyMsg}
    (h : rf.takeSnapshot args = some result) :
    ((args.lastIncludedIndex < rf.lastIncludedIndex ∨ args.lastIncludedIndex < rf.commitIndex) ∧
        result = (rf, { term := rf.currentTerm }, none)) ∨
      (rf.lastIncludedIndex ≤ args.lastIncludedIndex ∧
        rf.commitIndex ≤ args.lastIncludedIndex ∧ ∃ log, rf.retainedLog args = some log ∧
          result = ({ rf with
              log := log
              snapShot := args.data
              lastIncludedIndex := args.lastIncludedIndex
              lastIncludedTerm := args.lastIncludedTerm
              commitIndex := args.lastIncludedIndex
              lastApplied := max rf.lastApplied args.lastIncludedIndex },
            { term := rf.currentTerm },
            some { snapshotValid := true, snapshot := args.data
                   snapshotIndex := args.lastIncludedIndex
                   snapshotTerm := args.lastIncludedTerm })) := by
  rw [takeSnapshot] at h
  split at h
  · rename_i old
    cases h
    exact .inl ⟨old, rfl⟩
  · rename_i new
    obtain ⟨log, hlog, rfl⟩ := Option.map_eq_some_iff.mp h
    have commit : (if rf.commitIndex < args.lastIncludedIndex then args.lastIncludedIndex
        else rf.commitIndex) = args.lastIncludedIndex := by
      split <;> omega
    rw [commit]
    exact .inr ⟨by omega, by omega, log, hlog, rfl⟩

theorem installSnapshot_outcome {args : InstallSnapshotArgs}
    {result : Raftserver × InstallSnapshotReply × Option ApplyMsg}
    (h : rf.installSnapshot args = some result) :
    (args.term < rf.currentTerm ∧ result = (rf, { term := rf.currentTerm }, none)) ∨
      (rf.currentTerm ≤ args.term ∧
        (rf.observeSnapshot args.term).takeSnapshot args = some result) := by
  rw [installSnapshot] at h
  split at h
  · rename_i older
    cases h
    exact .inl ⟨older, rfl⟩
  · rename_i current
    exact .inr ⟨Int.not_lt.mp current, h⟩

theorem sendInstallSnapshotToServer_outcome {server : Nat} {reply : InstallSnapshotReply}
    (h : rf.sendInstallSnapshotToServer server reply = some rf') :
    (rf.currentTerm < reply.term ∧ Observes rf reply.term rf') ∨
      rf' = { rf with
        nextIndex := rf.nextIndex.insert server
          (max (rf.localToGlobal 1) (rf.nextIndex.get server)) } := by
  rw [sendInstallSnapshotToServer] at h
  split at h
  · rename_i newer
    obtain ⟨calls, rfl⟩ := persist_eq h
    exact .inl ⟨newer, .later newer calls⟩
  · cases h
    exact .inr rfl

theorem sendCommitIndex_outcome (rf : Raftserver) (r : GetCommitIndexReply) :
    (rf.sendCommitIndex r).1 = rf ∨
      (rf.currentTerm < r.term ∧
        (rf.sendCommitIndex r).1 = { rf with currentTerm := r.term }) := by
  rw [sendCommitIndex]
  split
  · exact .inl rfl
  split
  · rename_i newer
    exact .inr ⟨newer, rfl⟩
  · exact .inl rfl

theorem start_outcome {command : Op} {result : Raftserver × Option (Int × Int)}
    (h : rf.start command = some result) :
    (rf.role ≠ .leader ∧ result = (rf, none)) ∨
      (rf.role = .leader ∧ ∃ calls,
        result.1 = { rf with
          log := rf.log ++ [some { term := rf.currentTerm, command := some command }]
          persister := calls } ∧
        result.2 = some (result.1.lastIndex, rf.currentTerm)) := by
  rw [start] at h
  split at h
  · rename_i role
    cases h
    exact .inl ⟨role, rfl⟩
  · rename_i role
    obtain ⟨calls, rfl⟩ := persist_map_eq h
    exact .inr ⟨not_not.mp role, calls, rfl, rfl⟩

theorem snapshot_outcome {index : Int} {data : Bytes} (h : rf.snapshot index data = some rf') :
    ((rf.commitIndex < index ∨ index ≤ rf.lastIncludedIndex) ∧ rf' = rf) ∨
      (rf.lastIncludedIndex < index ∧ index ≤ rf.commitIndex ∧
        ∃ e calls, rf.entryAt index = some e ∧ rf' = { rf with
          snapShot := data
          lastIncludedTerm := e.term
          log := rf.log.drop (rf.globalToLocal index).toNat
          lastIncludedIndex := index
          lastApplied := if rf.lastApplied < index then index else rf.lastApplied
          persister := calls }) := by
  rw [snapshot] at h
  split at h
  · rename_i rejected
    cases h
    exact .inl ⟨rejected, rfl⟩
  · rename_i accepted
    obtain ⟨e, he, h⟩ := Option.bind_eq_some_iff.mp h
    obtain ⟨calls, rfl⟩ := persist_eq h
    exact .inr ⟨by omega, by omega, e, calls, he, rfl⟩

end RaftKv.Raft.Raftserver
