import RaftKv.Raft.Simulation

/-!
# Agreement of the nodes

In a guarded run two nodes never hold different entries at an index that both have
committed, and never hand different commands to their services; and two logs that have
an entry of the same term in common agree below it. Both follow from the ledger that
the cluster implements.

Without the guard on the follower's commit index both fail in one run. A node that
was the leader of the first term keeps an entry nobody else has. A heartbeat of the
next leader, which carries no entries, makes it commit that entry, since the follower
takes the larger one of the leader's commit index and its own last index. Later the
shortcut for a previous index that is the commit index lets new entries be put on top.
-/

namespace RaftKv.Raft

open Library Library.Ledger

variable {n : Nat} {h : History n} {s : Cluster n}

/-- Two agreed prefixes have the same entry wherever both have one. -/
theorem Agreed.entry_eq (sound : SoundHistory h) {t u : Int} {x y : List Entry}
    (hx : Agreed h t x) (hy : Agreed h u y) {k : ℕ} {a b : Entry} (ha : x[k]? = some a)
    (hb : y[k]? = some b) : a = b := by
  rcases Committed.comparable sound Majority.intersect hx hy with hxy | hyx
  · exact Option.some.inj ((prefix_getElem? hxy ha).symm.trans hb)
  · exact Option.some.inj (ha.symm.trans (prefix_getElem? hyx hb))

/-- A committed index that is still in the window holds an agreed entry. -/
theorem NodeSim.committed_entry {i : Fin n} {rf : Raftserver} (node : NodeSim h i rf) {k : Int}
    (hincluded : rf.lastIncludedIndex ≤ k) (hcommit : k ≤ rf.commitIndex) :
    ∃ e, rf.entryAt k = some e ∧
      ((h.log i).take (rf.commitIndex.toNat + 1))[k.toNat]? = some e := by
  have hnonneg := node.window.nonneg
  have hlen := node.commit
  have hlt : k.toNat < (h.log i).length := by omega
  refine ⟨(h.log i)[k.toNat], ?_, ?_⟩
  · rw [node.window.entryAt_eq hincluded, List.getElem?_eq_getElem hlt]
  · rw [List.getElem?_take_of_lt (by omega), List.getElem?_eq_getElem hlt]

/-- **State-machine safety.** In every guarded run of an odd cluster, two nodes that have
both committed an index which both still hold have the same entry there, and no two
commands for one index are ever handed to the services. -/
theorem state_machine_safety (hn : Odd n)
    (reached : Reaches Cluster.step Guarded (Cluster.init n) s) :
    (∀ (i j : Fin n) (k : Int),
      (s.nodes i).rf.lastIncludedIndex < k → (s.nodes j).rf.lastIncludedIndex < k →
      k ≤ (s.nodes i).rf.commitIndex → k ≤ (s.nodes j).rf.commitIndex →
        ∃ e, (s.nodes i).rf.entryAt k = some e ∧ (s.nodes j).rf.entryAt k = some e) ∧
    ∀ (i j : Fin n), ∀ m ∈ (s.nodes i).delivered, ∀ m' ∈ (s.nodes j).delivered,
      m.commandValid = true → m'.commandValid = true → m.commandIndex = m'.commandIndex →
        m.command = m'.command := by
  obtain ⟨-, h, sim⟩ := sim_of_reaches hn reached
  constructor
  · intro i j k hi hj hki hkj
    obtain ⟨a, ha, hxa⟩ := (sim.nodes i).committed_entry hi.le hki
    obtain ⟨b, hb, hyb⟩ := (sim.nodes j).committed_entry hj.le hkj
    have hab := Agreed.entry_eq sim.sound (sim.nodes i).committed (sim.nodes j).committed hxa hyb
    exact ⟨a, ha, hab ▸ hb⟩
  · intro i j m hm m' hm' valid valid' hindex
    have sent {i : Fin n} {m : ApplyMsg} (hm : m ∈ (s.nodes i).delivered) : MsgAgreed h m :=
      sim.traffic.messages i m (List.mem_append_right _ hm)
    obtain ⟨t, x, a, hx, -, ha, hcommand⟩ := sent hm valid
    obtain ⟨u, y, b, hy, -, hb, hcommand'⟩ := sent hm' valid'
    rw [← hindex] at hb
    rw [← hcommand, ← hcommand', Agreed.entry_eq sim.sound hx hy ha hb]

/-- **Log matching.** In every guarded run of an odd cluster, two logs that have entries of
one term at one index agree below it, as far as both still hold it; and a request whose
previous index is the follower's commit index names the term the follower has there. -/
theorem log_matching (hn : Odd n)
    (reached : Reaches Cluster.step Guarded (Cluster.init n) s) :
    (∀ (i j : Fin n) (k k' : Int) (e e' : Entry),
      (s.nodes i).rf.entryAt k = some e → (s.nodes j).rf.entryAt k = some e' →
      e.term = e'.term → k' ≤ k →
      (s.nodes i).rf.lastIncludedIndex < k' → (s.nodes j).rf.lastIncludedIndex < k' →
        ∃ a, (s.nodes i).rf.entryAt k' = some a ∧ (s.nodes j).rf.entryAt k' = some a) ∧
    ∀ r, r ∈ s.appendReqs ∨ r ∈ s.beatReqs →
      (s.nodes r.server).rf.currentTerm ≤ r.args.term →
      (s.nodes r.server).rf.commitIndex = r.args.prevLogIndex →
        ∃ e, (s.nodes r.server).rf.entryAt r.args.prevLogIndex = some e ∧
          e.term = r.args.prevLogTerm := by
  obtain ⟨-, h, sim⟩ := sim_of_reaches hn reached
  constructor
  · intro i j k k' e e' he he' hterm hle hi hj
    have hnonneg := (sim.nodes i).window.nonneg
    have hx := ((sim.nodes i).window.entryAt.mp he).2
    have hy := ((sim.nodes j).window.entryAt.mp he').2
    have hsame := (sim.sound.log_origin i).matching (sim.sound.log_origin j) hx hy hterm
    have hlt : k'.toNat < (h.log i).length := by
      have := (List.getElem?_eq_some_iff.mp hx).1
      omega
    refine ⟨(h.log i)[k'.toNat], ?_, ?_⟩
    · rw [(sim.nodes i).window.entryAt_eq hi.le, List.getElem?_eq_getElem hlt]
    · rw [(sim.nodes j).window.entryAt_eq hj.le]
      exact getElem?_of_take_eq hsame (by omega) (List.getElem?_eq_getElem hlt)
  · intro r hr hterm hcommit
    have sent : AppendSent h r :=
      hr.elim (sim.traffic.appendReqs r) (sim.traffic.beatReqs r)
    obtain ⟨c, -, -, hleader⟩ := sent.leader
    obtain ⟨e, he, heterm⟩ := sent.prev
    have node := sim.nodes r.server
    obtain ⟨a, ha, hxa⟩ := node.committed_entry node.included le_rfl
    have hprefix := Committed.prefix_led sim.sound Majority.intersect node.committed hterm
      (by simp [hleader])
    have hled := prefix_getElem? hprefix hxa
    rw [hcommit] at ha hled
    rw [he] at hled
    cases hled
    exact ⟨e, ha, heterm⟩

/-! ## Runs of three nodes -/

instance (rf : Raftserver) (args : AppendEntriesArgs) : Decidable (rf.Accepts args) :=
  inferInstanceAs (Decidable (_ ∧ _ ∧ _ ∧ (_ ∨ _)))

instance (rf : Raftserver) (args : AppendEntriesArgs) (k : Nat) : Decidable (rf.Conflict args k) :=
  decidable_of_iff
    ((rf.entryAt (args.prevLogIndex + 1 + k)).any (fun old =>
      args.entries[k]?.any fun new => old.term != new.term) = true)
    (by simp [Raftserver.Conflict, Option.any_eq_true])

instance (rf : Raftserver) (args : AppendEntriesArgs) : Decidable (CommitsWithin rf args) :=
  inferInstanceAs (Decidable (_ → _ → _ ∧ (_ ∨ _)))

instance (rf : Raftserver) (args : InstallSnapshotArgs) : Decidable (HoldsSnapshot rf args) :=
  inferInstanceAs (Decidable (_ → _ → _ → _))

instance (s : Cluster n) : ∀ a, Decidable (Guarded s a)
  | .collectVote i r outTime =>
      inferInstanceAs (Decidable (Cluster.CountsOwnTerm s (.collectVote i r outTime)))
  | .commitIndexReply _ _ => inferInstanceAs (Decidable (_ → _ → _ → _))
  | .appendEntries r => inferInstanceAs (Decidable (CommitsWithin (s.nodes r.server).rf r.args))
  | .heartBeat r => inferInstanceAs (Decidable (CommitsWithin (s.nodes r.server).rf r.args))
  | .installSnapshot r => inferInstanceAs (Decidable (HoldsSnapshot (s.nodes r.server).rf r.args))
  | .ticker _ | .startElection _ | .requestVote _ | .procVoteAnswer _ _ _
  | .startSendAppendEntries _ | .sendAppendEntries _ _ | .appendEntriesReply _ _ _
  | .sendInstallSnapshot _ _ | .installSnapshotSend _ _ | .installSnapshotDone _ _
  | .installSnapshotReply _ _ _ | .singleHeartBeat _ | .sendCommitIndex _ | .start _ _
  | .snapshot _ _ _ | .commitCheck _ | .applyHandler _ => isTrue trivial

/-- A command of clerk `clerk`. -/
def command (clerk : Int32) (id : UInt64) : Op := { optype := 1, incrId := id, clerkId := clerk }

/-- Node `c` stands for election and wins with the vote of node `v`. -/
def win (c v : Fin 3) (args : RequestVoteArgs) : List (Action 3) :=
  [.ticker c, .startElection c, .requestVote ⟨v, args⟩,
    .procVoteAnswer c ⟨v, args⟩ ⟨args.term, true⟩, .collectVote c ⟨v, args⟩ false]

/-- The snapshot of index zero, which a leader sends to a peer it knows nothing about. -/
def emptySnapshot (term : Int) (leader : Nat) : InstallSnapshotArgs :=
  { term := term, leaderId := leader, lastIncludedIndex := 0, lastIncludedTerm := 0
    lastIncludedCommand := none, data := [] }

/-- Node `c` learns where to start with node `v`. -/
def introduce (c v : Fin 3) (term : Int) : List (Action 3) :=
  [.sendInstallSnapshot c v, .installSnapshot ⟨v, emptySnapshot term c⟩,
    .installSnapshotSend v (emptySnapshot term c, ⟨term⟩, { snapshotValid := true }),
    .installSnapshotDone v (emptySnapshot term c, ⟨term⟩),
    .installSnapshotReply c ⟨v, emptySnapshot term c⟩ ⟨term⟩]

/-- The message that replicates the command of index one. -/
def firstEntry (term : Int) (op : Op) : AppendEntriesArgs :=
  { term := term, leaderId := 0, prevLogIndex := 0, prevLogTerm := 0, leaderCommit := 0
    entries := [{ term := term, command := some op }] }

/-- Node zero, which leads `term`, replicates a command to node two and commits it. -/
def replicate (term : Int) (op : Op) : List (Action 3) :=
  [.start 0 op, .startSendAppendEntries 0, .sendAppendEntries 0 ⟨2, firstEntry term op⟩,
    .appendEntries ⟨2, firstEntry term op⟩,
    .appendEntriesReply 0 ⟨2, firstEntry term op⟩ { term := term, success := true }]

/-- What node zero sends to a peer that has everything. -/
def upToDateBeat : AppendEntriesArgs :=
  { term := 1, leaderId := 0, prevLogIndex := 1, prevLogTerm := 1, leaderCommit := 1, entries := [] }

/-- Node zero commits a command with node two, and tells it so. -/
def commitTogether : List (Action 3) :=
  win 0 2 (Cluster.firstBallot 1 0) ++ [.startSendAppendEntries 0] ++ introduce 0 2 1 ++
    replicate 1 (command 1 1) ++
    [.startSendAppendEntries 0, .sendAppendEntries 0 ⟨2, upToDateBeat⟩,
      .appendEntries ⟨2, upToDateBeat⟩]

/-- Two nodes have committed the first index and agree on it. -/
theorem state_machine_safety_together :
    ∃ s : Cluster 3, Reaches Cluster.step Guarded (Cluster.init 3) s ∧
      ∃ e, (s.nodes 0).rf.entryAt 1 = some e ∧ (s.nodes 2).rf.entryAt 1 = some e := by
  have ended : ∃ s : Cluster 3, Reaches Cluster.step Guarded (Cluster.init 3) s ∧
      (s.nodes 0).rf.lastIncludedIndex < 1 ∧ (s.nodes 2).rf.lastIncludedIndex < 1 ∧
      1 ≤ (s.nodes 0).rf.commitIndex ∧ 1 ≤ (s.nodes 2).rf.commitIndex :=
    exists_reaches (fun s : Cluster 3 =>
      (s.nodes 0).rf.lastIncludedIndex < 1 ∧ (s.nodes 2).rf.lastIncludedIndex < 1 ∧
        1 ≤ (s.nodes 0).rf.commitIndex ∧ 1 ≤ (s.nodes 2).rf.commitIndex) commitTogether
      (by decide +kernel) (by decide +kernel)
  obtain ⟨s, reached, h0, h2, hc0, hc2⟩ := ended
  exact ⟨s, reached, (state_machine_safety (by decide) reached).1 0 2 1 h0 h2 hc0 hc2⟩

/-- The heartbeat of `SingleHeartBeat` for a peer whose next index is one. -/
def bareBeat : AppendEntriesArgs :=
  { term := 2, leaderId := 0, prevLogIndex := 0, prevLogTerm := 0, leaderCommit := 1, entries := [] }

/-- Node one has an entry of its own when node zero commits another one with node two. -/
def commitApart : List (Action 3) :=
  win 1 0 (Cluster.firstBallot 1 1) ++ [.start 1 (command 1 1)] ++
    win 0 2 (Cluster.firstBallot 2 0) ++ [.startSendAppendEntries 0] ++ introduce 0 1 2 ++
    introduce 0 2 2 ++ replicate 2 (command 2 1) ++
    [.singleHeartBeat 0, .heartBeat ⟨1, bareBeat⟩, .applyHandler 1] ++
    List.replicate 3 (.commitCheck 0) ++ List.replicate 3 (.commitCheck 1)

/-- The command that a message hands to the service at index one. -/
def handsOver (op : Op) (msg : ApplyMsg) : Prop :=
  msg.commandValid = true ∧ msg.commandIndex = 1 ∧ msg.command = some op

instance (op : Op) (msg : ApplyMsg) : Decidable (handsOver op msg) :=
  inferInstanceAs (Decidable (_ ∧ _ ∧ _))

/-- Two nodes commit, and hand over, different commands at index one. -/
theorem commits_differ :
    ∃ s : Cluster 3, Reachable Cluster.step (Cluster.init 3) s ∧
      (s.nodes 0).rf.lastIncludedIndex < 1 ∧ (s.nodes 1).rf.lastIncludedIndex < 1 ∧
      1 ≤ (s.nodes 0).rf.commitIndex ∧ 1 ≤ (s.nodes 1).rf.commitIndex ∧
      (s.nodes 0).rf.entryAt 1 ≠ (s.nodes 1).rf.entryAt 1 ∧
      (∃ m ∈ (s.nodes 0).delivered, handsOver (command 2 1) m) ∧
      ∃ m ∈ (s.nodes 1).delivered, handsOver (command 1 1) m :=
  exists_reachable (fun s : Cluster 3 =>
    (s.nodes 0).rf.lastIncludedIndex < 1 ∧ (s.nodes 1).rf.lastIncludedIndex < 1 ∧
      1 ≤ (s.nodes 0).rf.commitIndex ∧ 1 ≤ (s.nodes 1).rf.commitIndex ∧
      (s.nodes 0).rf.entryAt 1 ≠ (s.nodes 1).rf.entryAt 1 ∧
      (∃ m ∈ (s.nodes 0).delivered, handsOver (command 2 1) m) ∧
      ∃ m ∈ (s.nodes 1).delivered, handsOver (command 1 1) m) commitApart (by decide +kernel)

/-- The message that replicates a command of index two, whose previous entry is of
term `prev`. -/
def secondEntry (term prev : Int) (op : Op) : AppendEntriesArgs :=
  { term := term, leaderId := 0, prevLogIndex := 1, prevLogTerm := prev, leaderCommit := 1
    entries := [{ term := term, command := some op }] }

/-- Node zero sends a second command to node `v`, which has the first one. -/
def extend (v : Fin 3) (term prev : Int) (op : Op) : List (Action 3) :=
  [.start 0 op, .startSendAppendEntries 0, .sendAppendEntries 0 ⟨v, secondEntry term prev op⟩,
    .appendEntries ⟨v, secondEntry term prev op⟩]

/-- Two nodes that share the entry at index two share the one at index one. -/
theorem log_matching_together :
    ∃ s : Cluster 3, Reaches Cluster.step Guarded (Cluster.init 3) s ∧
      ∃ a, (s.nodes 0).rf.entryAt 1 = some a ∧ (s.nodes 2).rf.entryAt 1 = some a := by
  have ended : ∃ s : Cluster 3, Reaches Cluster.step Guarded (Cluster.init 3) s ∧
      (s.nodes 0).rf.entryAt 2 = some { term := 1, command := some (command 1 2) } ∧
      (s.nodes 2).rf.entryAt 2 = some { term := 1, command := some (command 1 2) } ∧
      (s.nodes 0).rf.lastIncludedIndex < 1 ∧ (s.nodes 2).rf.lastIncludedIndex < 1 :=
    exists_reaches (fun s : Cluster 3 =>
      (s.nodes 0).rf.entryAt 2 = some { term := 1, command := some (command 1 2) } ∧
        (s.nodes 2).rf.entryAt 2 = some { term := 1, command := some (command 1 2) } ∧
        (s.nodes 0).rf.lastIncludedIndex < 1 ∧ (s.nodes 2).rf.lastIncludedIndex < 1)
      (commitTogether ++ extend 2 1 1 (command 1 2)) (by decide +kernel) (by decide +kernel)
  obtain ⟨s, reached, he, he', h0, h2⟩ := ended
  exact ⟨s, reached, (log_matching (by decide) reached).1 0 2 2 1 _ _ he he' rfl
    (by decide) h0 h2⟩

/-- Node zero loses its leadership to a candidacy of node two and wins it back. -/
def leadAgain : List (Action 3) :=
  [.ticker 2, .startElection 2,
    .requestVote ⟨0, { term := 3, candidateId := some 2, lastLogIndex := 1, lastLogTerm := 2 }⟩] ++
    win 0 2 { term := 4, candidateId := some 0, lastLogIndex := 1, lastLogTerm := 2 }

/-- Two nodes have an entry of one term at index two on top of different entries. The
request got there through the shortcut, although node one has an entry of another term
at its previous index. -/
theorem logs_differ_below :
    ∃ s : Cluster 3, Reachable Cluster.step (Cluster.init 3) s ∧
      (s.nodes 0).rf.entryAt 2 = some { term := 4, command := some (command 2 2) } ∧
      (s.nodes 1).rf.entryAt 2 = some { term := 4, command := some (command 2 2) } ∧
      (s.nodes 0).rf.lastIncludedIndex < 1 ∧ (s.nodes 1).rf.lastIncludedIndex < 1 ∧
      (s.nodes 0).rf.entryAt 1 ≠ (s.nodes 1).rf.entryAt 1 ∧
      ⟨1, secondEntry 4 2 (command 2 2)⟩ ∈ s.appendReqs ∧ (s.nodes 1).rf.commitIndex = 1 ∧
      (s.nodes 1).rf.currentTerm ≤ 4 ∧ ((s.nodes 1).rf.entryAt 1).map Entry.term = some 1 :=
  exists_reachable (fun s : Cluster 3 =>
    (s.nodes 0).rf.entryAt 2 = some { term := 4, command := some (command 2 2) } ∧
      (s.nodes 1).rf.entryAt 2 = some { term := 4, command := some (command 2 2) } ∧
      (s.nodes 0).rf.lastIncludedIndex < 1 ∧ (s.nodes 1).rf.lastIncludedIndex < 1 ∧
      (s.nodes 0).rf.entryAt 1 ≠ (s.nodes 1).rf.entryAt 1 ∧
      ⟨1, secondEntry 4 2 (command 2 2)⟩ ∈ s.appendReqs ∧ (s.nodes 1).rf.commitIndex = 1 ∧
      (s.nodes 1).rf.currentTerm ≤ 4 ∧ ((s.nodes 1).rf.entryAt 1).map Entry.term = some 1)
    (commitApart ++ leadAgain ++ extend 1 4 2 (command 2 2)) (by decide +kernel)

end RaftKv.Raft
