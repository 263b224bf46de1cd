import RaftKv.Raft.Election

/-!
# One vote in a term

The votes of a node are kept here as a history: what `RequestVote` has granted, and what
the node has given itself in `StartElection`, each with the term of the node at that
moment. The other sections are free to raise the term, with or without a reset of the
vote. All that matters is that none of them changes the vote within a term: then the
votes of the current term all name `votedFor`, and those of earlier terms are settled.

The messages are whatever the network brings. Two of the values it can bring break the rule:
a vote for candidate `-1` looks like no vote, and behind the largest `int64` there is no
next term.
-/

namespace RaftKv.Raft

/-- A section of a running node, with what it gets from the network. -/
inductive Ballot where
  | requestVote (args : RequestVoteArgs)
  | appendEntries (args : AppendEntriesArgs)
  | installSnapshot (args : InstallSnapshotArgs)
  | startElection
  | sendCommitIndex (reply : GetCommitIndexReply)
  | procVoteAnswer (args : RequestVoteArgs) (reply : RequestVoteReply)
  | collectVote (outTime : Bool)
  | sendAppendEntriesToServer (server : Nat) (args : AppendEntriesArgs)
      (reply : AppendEntriesReply)
  | sendInstallSnapshotToServer (server : Nat) (reply : InstallSnapshotReply)
  | start (command : Op)
  | snapshot (index : Int) (data : Bytes)

/-- A node with the votes it has given, each a term and a candidate. -/
structure Voter where
  rf : Raftserver
  votes : List (Int × Option Nat) := []

namespace Voter

/-- One section, which may add a vote to the history. -/
def step (v : Voter) : Ballot → Option Voter
  | .requestVote args => (v.rf.requestVote args).map fun result =>
      { rf := result.1
        votes := if result.2.voteGranted then (result.1.currentTerm, args.candidateId) :: v.votes
          else v.votes }
  | .startElection => v.rf.startElectionInt64.map fun result =>
      { rf := result.1, votes := (result.1.currentTerm, some v.rf.me) :: v.votes }
  | .appendEntries args => (v.rf.appendEntries args).map fun result => { v with rf := result.1 }
  | .installSnapshot args =>
      (v.rf.installSnapshot args).map fun result => { v with rf := result.1 }
  | .sendCommitIndex reply => some { v with rf := (v.rf.sendCommitIndex reply).1 }
  | .procVoteAnswer args reply =>
      (v.rf.procVoteAnswer args reply).map fun result => { v with rf := result.1 }
  | .collectVote outTime => some { v with rf := v.rf.collectVote outTime }
  | .sendAppendEntriesToServer server args reply =>
      (v.rf.sendAppendEntriesToServer server args reply).map fun result => { v with rf := result.1 }
  | .sendInstallSnapshotToServer server reply =>
      (v.rf.sendInstallSnapshotToServer server reply).map fun rf => { v with rf := rf }
  | .start command => (v.rf.start command).map fun result => { v with rf := result.1 }
  | .snapshot index data => (v.rf.snapshot index data).map fun rf => { v with rf := rf }

/-- The candidates have ids other than `-1`, and the node can count its term up. -/
def Proper (v : Voter) : Ballot → Prop
  | .requestVote args => args.candidateId ≠ none
  | .startElection => v.rf.CanCount
  | .appendEntries _ | .installSnapshot _ | .sendCommitIndex _ | .procVoteAnswer _ _
  | .collectVote _ | .sendAppendEntriesToServer _ _ _ | .sendInstallSnapshotToServer _ _
  | .start _ | .snapshot _ _ => True

instance (v : Voter) : ∀ a, Decidable (v.Proper a)
  | .requestVote _ => inferInstanceAs (Decidable (_ ≠ _))
  | .startElection => inferInstanceAs (Decidable v.rf.CanCount)
  | .appendEntries _ | .installSnapshot _ | .sendCommitIndex _ | .procVoteAnswer _ _
  | .collectVote _ | .sendAppendEntriesToServer _ _ _ | .sendInstallSnapshotToServer _ _
  | .start _ | .snapshot _ _ => isTrue trivial

/-- No vote is of a later term, those of the current term name `votedFor`, and those of
one term name one candidate. -/
structure Settled (v : Voter) : Prop where
  named : ∀ b ∈ v.votes, b.2 ≠ none
  past : ∀ b ∈ v.votes, b.1 ≤ v.rf.currentTerm
  current : ∀ b ∈ v.votes, b.1 = v.rf.currentTerm → v.rf.votedFor = b.2
  unique : ∀ b ∈ v.votes, ∀ b' ∈ v.votes, b.1 = b'.1 → b.2 = b'.2

variable {v w : Voter}

/-- A section that gives no vote and does not change it within a term. -/
theorem Settled.keep (h : v.Settled) (votes : w.votes = v.votes)
    (term : v.rf.currentTerm ≤ w.rf.currentTerm)
    (vote : w.rf.currentTerm = v.rf.currentTerm → w.rf.votedFor = v.rf.votedFor) : w.Settled where
  named b hb := h.named b (votes ▸ hb)
  past b hb := le_trans (h.past b (votes ▸ hb)) term
  current b hb hterm := by
    have hb' : b ∈ v.votes := votes ▸ hb
    have same : w.rf.currentTerm = v.rf.currentTerm :=
      le_antisymm (hterm ▸ h.past b hb') term
    rw [vote same]
    exact h.current b hb' (hterm.trans same)
  unique b hb b' hb' := h.unique b (votes ▸ hb) b' (votes ▸ hb')

theorem Settled.frame (h : v.Settled) (votes : w.votes = v.votes)
    (frame : v.rf.ElectionFrame w.rf) : w.Settled :=
  h.keep votes frame.term frame.vote

/-- A vote in a term in which the node has not voted for anybody else. -/
theorem Settled.vote (h : v.Settled) {c : Option Nat} (named : c ≠ none)
    (votes : w.votes = (w.rf.currentTerm, c) :: v.votes) (voted : w.rf.votedFor = c)
    (term : v.rf.currentTerm ≤ w.rf.currentTerm)
    (free : v.rf.currentTerm = w.rf.currentTerm →
      v.rf.votedFor = none ∨ v.rf.votedFor = c) : w.Settled := by
  -- an earlier vote of the same term was for the same candidate
  have earlier : ∀ b ∈ v.votes, b.1 = w.rf.currentTerm → b.2 = c := by
    intro b hb hterm
    have same : v.rf.currentTerm = w.rf.currentTerm := le_antisymm term (hterm ▸ h.past b hb)
    have hvoted := h.current b hb (hterm.trans same.symm)
    rcases free same with hnone | hsome
    · exact absurd (hvoted.symm.trans hnone) (h.named b hb)
    · exact hvoted.symm.trans hsome
  refine ⟨?_, ?_, ?_, ?_⟩
  · rw [votes, List.forall_mem_cons]
    exact ⟨named, h.named⟩
  · rw [votes, List.forall_mem_cons]
    exact ⟨le_rfl, fun b hb => le_trans (h.past b hb) term⟩
  · rw [votes, List.forall_mem_cons]
    refine ⟨fun _ => voted, fun b hb hterm => ?_⟩
    rw [voted, earlier b hb hterm]
  · rw [votes]
    intro b hb b' hb' hterm
    rcases List.mem_cons.mp hb with rfl | hb <;> rcases List.mem_cons.mp hb' with rfl | hb'
    · rfl
    · exact (earlier b' hb' hterm.symm).symm
    · exact earlier b hb hterm
    · exact h.unique b hb b' hb' hterm

/-- One section keeps the votes settled and does not lower the term. -/
theorem Settled.step {a : Ballot} (h : v.Settled) (proper : v.Proper a)
    (hstep : v.step a = some w) :
    w.Settled ∧ v.rf.currentTerm ≤ w.rf.currentTerm := by
  have frame {w : Voter} (votes : w.votes = v.votes) (frame : v.rf.ElectionFrame w.rf) :
      w.Settled ∧ v.rf.currentTerm ≤ w.rf.currentTerm := ⟨h.frame votes frame, frame.term⟩
  cases a with
  | requestVote args =>
      obtain ⟨result, hresult, rfl⟩ := Option.map_eq_some_iff.mp hstep
      rcases Raftserver.requestVote_spec hresult with
        ⟨refused, hgranted⟩ | ⟨hgranted, hle, free, -, -, hterm, hvoted, -⟩
      · refine frame ?_ refused
        simp [hgranted]
      · have le : v.rf.currentTerm ≤ result.1.currentTerm := hterm ▸ hle
        refine ⟨h.vote proper ?_ hvoted le fun same => free (same.trans hterm), le⟩
        simp [hgranted]
  | startElection =>
      obtain ⟨result, hresult, rfl⟩ := Option.map_eq_some_iff.mp hstep
      rw [Raftserver.startElectionInt64_eq proper] at hresult
      obtain ⟨-, -, hterm, hvoted, -⟩ := Raftserver.startElection_spec hresult
      have lt : v.rf.currentTerm < result.1.currentTerm := by omega
      exact ⟨h.vote (Option.some_ne_none v.rf.me) rfl hvoted lt.le fun same => absurd same lt.ne, lt.le⟩
  | appendEntries args =>
      obtain ⟨result, hresult, rfl⟩ := Option.map_eq_some_iff.mp hstep
      exact frame rfl (Raftserver.appendEntries_frame hresult)
  | installSnapshot args =>
      obtain ⟨result, hresult, rfl⟩ := Option.map_eq_some_iff.mp hstep
      exact frame rfl (Raftserver.installSnapshot_frame hresult)
  | sendCommitIndex reply =>
      cases hstep
      exact frame rfl (Raftserver.sendCommitIndex_frame _ reply)
  | procVoteAnswer args reply =>
      obtain ⟨result, hresult, rfl⟩ := Option.map_eq_some_iff.mp hstep
      exact frame rfl (Raftserver.procVoteAnswer_frame hresult)
  | collectVote outTime =>
      cases hstep
      have counted : (v.rf.collectVote outTime).currentTerm = v.rf.currentTerm ∧
          (v.rf.collectVote outTime).votedFor = v.rf.votedFor := by
        rw [Raftserver.collectVote]
        split
        · exact ⟨rfl, rfl⟩
        · split <;> exact ⟨rfl, rfl⟩
      exact ⟨h.keep rfl counted.1.ge fun _ => counted.2, counted.1.ge⟩
  | sendAppendEntriesToServer server args reply =>
      obtain ⟨result, hresult, rfl⟩ := Option.map_eq_some_iff.mp hstep
      exact frame rfl (Raftserver.sendAppendEntriesToServer_frame hresult)
  | sendInstallSnapshotToServer server reply =>
      obtain ⟨rf, hrf, rfl⟩ := Option.map_eq_some_iff.mp hstep
      exact frame rfl (Raftserver.sendInstallSnapshotToServer_frame hrf)
  | start command =>
      obtain ⟨result, hresult, rfl⟩ := Option.map_eq_some_iff.mp hstep
      exact frame rfl (Raftserver.start_frame hresult)
  | snapshot index data =>
      obtain ⟨rf, hrf, rfl⟩ := Option.map_eq_some_iff.mp hstep
      exact frame rfl (Raftserver.snapshot_frame hrf)

theorem settled_of_reaches {rf : Raftserver}
    (reached : Library.Reaches Voter.step Proper { rf := rf } v) : v.Settled := by
  refine reached.invariant ⟨?_, ?_, ?_, ?_⟩
    fun s a t _ settled proper taken => (settled.step proper taken).1 <;>
    exact List.forall_mem_nil _

/-- **One vote in a term.** Whatever sections a node runs, in any order, its votes of one
term name one candidate, and its term never goes back, as long as no candidate has the id `-1`
and no election starts behind the largest term. -/
theorem one_vote_per_term {rf : Raftserver}
    (reached : Library.Reaches Voter.step Proper { rf := rf } v) :
    (∀ t c c', (t, c) ∈ v.votes → (t, c') ∈ v.votes → c = c') ∧
      ∀ w, Library.Reaches Voter.step Proper v w → v.rf.currentTerm ≤ w.rf.currentTerm := by
  have settled := settled_of_reaches reached
  refine ⟨fun t c c' hc hc' => settled.unique _ hc _ hc' rfl, ?_⟩
  intro w later
  refine (later.invariant (I := fun w => w.Settled ∧ v.rf.currentTerm ≤ w.rf.currentTerm)
    ⟨settled, le_rfl⟩ ?_).2
  intro s a t _ inv proper taken
  have next := inv.1.step proper taken
  exact ⟨next.1, le_trans inv.2 next.2⟩

/-- Node one votes for node zero in the first term, stands in the second, and gets a later
term from `SendCommitIndex`, in which it has its old vote and refuses node two. -/
theorem one_vote_per_term_raised :
    ∃ v, Library.Reaches Voter.step Proper { rf := Cluster.initServer 3 1 } v ∧
      v.votes = [(2, some 1), (1, some 0)] ∧ v.rf.currentTerm = 3 ∧ v.rf.votedFor = some 1 ∧
      ∀ t c c', (t, c) ∈ v.votes → (t, c') ∈ v.votes → c = c' := by
  obtain ⟨v, reached, votes, term, vote⟩ : ∃ v,
      Library.Reaches Voter.step Proper { rf := Cluster.initServer 3 1 } v ∧
        v.votes = [(2, some 1), (1, some 0)] ∧ v.rf.currentTerm = 3 ∧ v.rf.votedFor = some 1 :=
    Library.exists_reaches _
      [.requestVote { term := 1, candidateId := some 0, lastLogIndex := 0, lastLogTerm := 0 },
        .startElection, .sendCommitIndex { term := 3, commitIndex := 0 },
        .requestVote { term := 3, candidateId := some 2, lastLogIndex := 0, lastLogTerm := 0 }]
      (by decide +kernel) (by decide +kernel)
  exact ⟨v, reached, votes, term, vote, (one_vote_per_term reached).1⟩

/-- A vote for candidate `-1` leaves `VotedFor` at `-1`, and the next candidate of the term gets
a vote too. And an election behind the largest term starts in the smallest one. -/
theorem votes_not_counted :
    (∃ v, Library.Reachable Voter.step { rf := Cluster.initServer 3 1 } v ∧
      v.votes = [(1, some 2), (1, none)]) ∧
    ∃ v w, Library.Reachable Voter.step { rf := Cluster.initServer 3 1 } v ∧
      v.step .startElection = some w ∧
      v.rf.currentTerm = 2 ^ 63 - 1 ∧ w.rf.currentTerm = -2 ^ 63 := by
  constructor
  · exact Library.exists_reachable _
      [.requestVote { term := 1, candidateId := none, lastLogIndex := 0, lastLogTerm := 0 },
        .requestVote { term := 1, candidateId := some 2, lastLogIndex := 0, lastLogTerm := 0 }]
      (by decide +kernel)
  · obtain ⟨v, reached, term, next⟩ : ∃ v,
        Library.Reachable Voter.step { rf := Cluster.initServer 3 1 } v ∧
          v.rf.currentTerm = 2 ^ 63 - 1 ∧
          ((v.step .startElection).any fun w => decide (w.rf.currentTerm = -2 ^ 63)) = true :=
      Library.exists_reachable _
        [.requestVote
          { term := 2 ^ 63 - 1, candidateId := some 0, lastLogIndex := 0, lastLogTerm := 0 }]
        (by decide +kernel)
    obtain ⟨w, stood, lower⟩ := (Option.any_eq_true _ _).mp next
    exact ⟨v, w, reached, stood, term, of_decide_eq_true lower⟩

end Voter

end RaftKv.Raft
