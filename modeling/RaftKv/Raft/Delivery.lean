import RaftKv.Raft.Election

/-!
# What a node has handed to its service

A node delivers commands and snapshots on `applyCh`, and remembers in `lastApplied` up
to where. Only five sections have to do with this: `InstallSnapshot` before and after
it releases the lock, `CommitCheck`, `Snapshot`, and the receiving end. All the others
stand aside, which is proved here once.
-/

namespace RaftKv.Raft

open Library (enabled_map enabled_some)

/-- A section that has nothing to do with the delivery to the service. -/
structure Raftserver.Aside (rf rf' : Raftserver) : Prop where
  applied : rf'.lastApplied = rf.lastApplied
  included : rf'.lastIncludedIndex = rf.lastIncludedIndex

namespace Raftserver

namespace Aside

theorem refl (rf : Raftserver) : Aside rf rf := ⟨rfl, rfl⟩

theorem trans {a b c : Raftserver} (hab : Aside a b) (hbc : Aside b c) : Aside a c :=
  ⟨hbc.applied.trans hab.applied, hbc.included.trans hab.included⟩

end Aside

theorem persist_aside {rf rf' : Raftserver} (h : rf.persist = some rf') : Aside rf rf' := by
  obtain ⟨calls, rfl⟩ := persist_eq h
  exact ⟨rfl, rfl⟩

theorem Observes.aside {rf rf' : Raftserver} {term : Int} (h : Observes rf term rf') :
    Aside rf rf' := by
  cases h with
  | kept => exact .refl rf
  | later newer calls => exact ⟨rfl, rfl⟩

theorem requestVote_aside {rf : Raftserver} {args : RequestVoteArgs}
    {result : Raftserver × RequestVoteReply} (h : rf.requestVote args = some result) :
    Aside rf result.1 := by
  obtain ⟨observed, observes, rfl | ⟨-, -, last, calls, -, -, rfl⟩⟩ := requestVote_outcome h
  · exact observes.aside
  · exact observes.aside.trans ⟨rfl, rfl⟩

theorem startElection_aside {rf : Raftserver} {result : Raftserver × RequestVoteArgs}
    (h : rf.startElection = some result) : Aside rf result.1 := by
  obtain ⟨last, calls, -, rfl⟩ := startElection_outcome h
  exact ⟨rfl, rfl⟩

theorem procVoteAnswer_aside {rf : Raftserver} {args : RequestVoteArgs}
    {reply : RequestVoteReply} {result : Raftserver × Bool}
    (h : rf.procVoteAnswer args reply = some result) : Aside rf result.1 :=
  (procVoteAnswer_observes h).aside

theorem collectVote_aside (rf : Raftserver) (outTime : Bool) : Aside rf (rf.collectVote outTime) := by
  obtain ⟨count, role, leaderIdx, nextIndex, matchIndex, heq⟩ := collectVote_outcome rf outTime
  rw [heq]
  exact ⟨rfl, rfl⟩

theorem appendEntries_aside {rf : Raftserver} {args : AppendEntriesArgs}
    {result : Raftserver × AppendEntriesReply} (h : rf.appendEntries args = some result) :
    Aside rf result.1 := by
  obtain ⟨-, rfl⟩ | ⟨-, observed, hobserved, ⟨reply, -, rfl⟩ | ⟨-, haccept⟩⟩ :=
    appendEntries_outcome h
  · exact .refl rf
  · exact (observeLeader_observes hobserved).aside
  · obtain ⟨log, calls, -, rfl⟩ := acceptEntries_outcome haccept
    exact (observeLeader_observes hobserved).aside.trans ⟨rfl, rfl⟩

theorem sendAppendEntriesToServer_aside {rf : Raftserver} {server : Nat}
    {args : AppendEntriesArgs} {reply : AppendEntriesReply} {result : Raftserver × Bool}
    (h : rf.sendAppendEntriesToServer server args reply = some result) : Aside rf result.1 := by
  obtain ⟨-, -, c, -, hrf⟩ | ⟨-, -, -, -, next, -, hrf⟩ | observes :=
    sendAppendEntriesToServer_outcome h
  · rw [hrf]
    exact ⟨rfl, rfl⟩
  · rw [hrf]
    exact ⟨rfl, rfl⟩
  · exact observes.aside

theorem sendInstallSnapshotToServer_aside {rf rf' : Raftserver} {server : Nat}
    {reply : InstallSnapshotReply} (h : rf.sendInstallSnapshotToServer server reply = some rf') :
    Aside rf rf' := by
  obtain ⟨-, observes⟩ | rfl := sendInstallSnapshotToServer_outcome h
  · exact observes.aside
  · exact ⟨rfl, rfl⟩

theorem sendCommitIndex_aside (rf : Raftserver) (r : GetCommitIndexReply) :
    Aside rf (rf.sendCommitIndex r).1 := by
  obtain heq | ⟨-, heq⟩ := sendCommitIndex_outcome rf r <;> rw [heq] <;> exact ⟨rfl, rfl⟩

theorem start_aside {rf : Raftserver} {command : Op} {result : Raftserver × Option (Int × Int)}
    (h : rf.start command = some result) : Aside rf result.1 := by
  obtain ⟨-, rfl⟩ | ⟨-, calls, hrf, -⟩ := start_outcome h
  · exact .refl rf
  · rw [hrf]
    exact ⟨rfl, rfl⟩

end Raftserver

/-- The goroutines that deliver, and the channel, are as before. -/
structure Node.Aside (node node' : Node) : Prop extends node.rf.Aside node'.rf where
  checker : node'.checker = node.checker
  installing : node'.installing = node.installing
  applyCh : node'.applyCh = node.applyCh

namespace Cluster

variable {n : Nat} {s t : Cluster n}

/-- The sections of the delivery at node `i`. -/
def Delivers (i : Fin n) : Action n → Prop
  | .installSnapshot r => r.server = i
  | .installSnapshotSend j _ => j = i
  | .snapshot j _ _ => j = i
  | .commitCheck j => j = i
  | .applyHandler j => j = i
  | _ => False

theorem Delivers.unique {i j : Fin n} {a : Action n} (hj : Delivers j a) (hi : Delivers i a) :
    j = i := by
  cases a <;> first | exact hj.elim | exact hj.symm.trans hi

theorem aside_setNode (s : Cluster n) (i : Fin n) (node : Node)
    (h : (s.nodes i).Aside node) (j : Fin n) : (s.nodes j).Aside ((s.setNode i node).nodes j) :=
  setNode_cases j h fun _ => ⟨.refl _, rfl, rfl, rfl⟩

theorem aside_setRf (s : Cluster n) (i : Fin n) {rf : Raftserver}
    (h : (s.nodes i).rf.Aside rf) (j : Fin n) : (s.nodes j).Aside ((s.setRf i rf).nodes j) :=
  s.aside_setNode i { s.nodes i with rf := rf } ⟨h, rfl, rfl, rfl⟩ j

/-- Whatever a step does, it does not deliver at nodes where it is no such section. -/
theorem step_aside {a : Action n} (h : s.step a = some t) (i : Fin n) (other : ¬ Delivers i a) :
    (s.nodes i).Aside (t.nodes i) := by
  have elsewhere {j : Fin n} (hj : j ≠ i) (node : Node) :
      (s.nodes i).Aside ((s.setNode j node).nodes i) := by
    rw [setNode_ne s node hj.symm]
    exact ⟨.refl _, rfl, rfl, rfl⟩
  have still : (s.nodes i).Aside (s.nodes i) := ⟨.refl _, rfl, rfl, rfl⟩
  cases a with
  | ticker j =>
      obtain ⟨-, rfl⟩ := enabled_some.mp h
      apply s.aside_setNode j
      exact ⟨.refl _, rfl, rfl, rfl⟩
  | startElection j =>
      obtain ⟨-, result, hresult, rfl⟩ := enabled_map.mp h
      apply s.aside_setNode j
      exact ⟨Raftserver.startElection_aside hresult, rfl, rfl, rfl⟩
  | requestVote r =>
      obtain ⟨-, result, hresult, rfl⟩ := enabled_map.mp h
      exact s.aside_setRf r.server (Raftserver.requestVote_aside hresult) i
  | procVoteAnswer j r reply =>
      obtain ⟨-, result, hresult, rfl⟩ := enabled_map.mp h
      exact s.aside_setRf j (Raftserver.procVoteAnswer_aside hresult) i
  | collectVote j r outTime =>
      obtain ⟨-, rfl⟩ := enabled_some.mp h
      exact s.aside_setRf j (Raftserver.collectVote_aside _ outTime) i
  | startSendAppendEntries j =>
      obtain ⟨-, sends, -, rfl⟩ := enabled_map.mp h
      exact still
  | sendAppendEntries j r =>
      obtain ⟨-, rfl⟩ := enabled_some.mp h
      exact still
  | appendEntries r =>
      obtain ⟨-, result, hresult, rfl⟩ := enabled_map.mp h
      exact s.aside_setRf r.server (Raftserver.appendEntries_aside hresult) i
  | appendEntriesReply j r reply =>
      obtain ⟨-, result, hresult, rfl⟩ := enabled_map.mp h
      exact s.aside_setRf j (Raftserver.sendAppendEntriesToServer_aside hresult) i
  | sendInstallSnapshot j k =>
      obtain ⟨-, args, -, rfl⟩ := enabled_map.mp h
      exact still
  | installSnapshot r =>
      obtain ⟨-, ⟨rf, reply, msg⟩, -, rfl⟩ := enabled_map.mp h
      cases msg with
      | none => exact elsewhere other _
      | some msg => exact elsewhere other _
  | installSnapshotSend j task =>
      obtain ⟨-, node, -, rfl⟩ := enabled_map.mp h
      exact elsewhere other _
  | installSnapshotDone j task =>
      obtain ⟨-, rf, hsaved, rfl⟩ := enabled_map.mp h
      apply s.aside_setNode j
      exact ⟨Raftserver.persist_aside hsaved, rfl, rfl, rfl⟩
  | installSnapshotReply j r reply =>
      obtain ⟨-, rf, hresult, rfl⟩ := enabled_map.mp h
      exact s.aside_setRf j (Raftserver.sendInstallSnapshotToServer_aside hresult) i
  | singleHeartBeat j =>
      obtain ⟨-, beats, -, rfl⟩ := enabled_map.mp h
      exact still
  | heartBeat r =>
      obtain ⟨-, result, hresult, rfl⟩ := enabled_map.mp h
      exact s.aside_setRf r.server (Raftserver.appendEntries_aside hresult) i
  | sendCommitIndex j =>
      obtain ⟨r, rfl⟩ := step_sendCommitIndex h
      exact still
  | commitIndexReply j r =>
      obtain ⟨-, rfl⟩ := enabled_some.mp h
      exact s.aside_setRf j (Raftserver.sendCommitIndex_aside _ r) i
  | start j command =>
      obtain ⟨result, hresult, rfl⟩ := Option.map_eq_some_iff.mp h
      exact s.aside_setRf j (Raftserver.start_aside hresult) i
  | snapshot j index data =>
      obtain ⟨rf, -, rfl⟩ := Option.map_eq_some_iff.mp h
      exact elsewhere other _
  | commitCheck j =>
      obtain ⟨node, -, rfl⟩ := Option.map_eq_some_iff.mp h
      exact elsewhere other _
  | applyHandler j =>
      obtain ⟨msg, rest, -, rfl⟩ := step_applyHandler h
      exact elsewhere other _

end Cluster

end RaftKv.Raft
