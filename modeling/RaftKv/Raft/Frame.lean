import RaftKv.Raft.Cluster
import RaftKv.Raft.Sections

/-!
# What the sections leave alone

Apart from granting a vote, standing for election and counting a vote, no section
makes a node a candidate or a leader, touches its count, or changes its vote within
a term. Those three sections get their own specifications; all the others are
covered by one frame condition, which is proved here once for each of them.

`CommitCheck` runs in sections of a node and not of a server alone. What one of them finds
and leaves is listed here as well, and every other module reads it off the list.
-/

namespace RaftKv.Raft

open Library (enabled_map enabled_some)

namespace Raftserver

/-- What a section keeps that is not part of an election: terms never decrease,
and within a term the vote stands. -/
structure ElectionFrame (rf rf' : Raftserver) : Prop where
  me : rf'.me = rf.me
  peers : rf'.peers = rf.peers
  term : rf.currentTerm ≤ rf'.currentTerm
  vote : rf'.currentTerm = rf.currentTerm → rf'.votedFor = rf.votedFor
  candidate : rf'.role = .candidate → rf.role = .candidate
  leader : rf'.role = .leader → rf.role = .leader
  count : rf'.voteCount = rf.voteCount

namespace ElectionFrame

theorem refl (rf : Raftserver) : ElectionFrame rf rf :=
  ⟨rfl, rfl, le_rfl, fun _ => rfl, id, id, rfl⟩

theorem trans {a b c : Raftserver} (hab : ElectionFrame a b) (hbc : ElectionFrame b c) :
    ElectionFrame a c where
  me := hbc.me.trans hab.me
  peers := hbc.peers.trans hab.peers
  term := hab.term.trans hbc.term
  vote same := by
    have hb : b.currentTerm = a.currentTerm := le_antisymm (same ▸ hbc.term) hab.term
    exact (hbc.vote (same.trans hb.symm)).trans (hab.vote hb)
  candidate := hab.candidate ∘ hbc.candidate
  leader := hab.leader ∘ hbc.leader
  count := hbc.count.trans hab.count

/-- Moving to a later term, with any vote and the role of a follower or the old one. -/
theorem of_later {rf rf' : Raftserver} (me : rf'.me = rf.me) (peers : rf'.peers = rf.peers)
    (later : rf.currentTerm < rf'.currentTerm)
    (role : rf'.role = .follower ∨ rf'.role = rf.role) (count : rf'.voteCount = rf.voteCount) :
    ElectionFrame rf rf' where
  me := me
  peers := peers
  term := later.le
  vote same := absurd same later.ne'
  candidate hc := by
    rcases role with hrole | hrole
    · simp [hrole] at hc
    · exact hrole ▸ hc
  leader hl := by
    rcases role with hrole | hrole
    · simp [hrole] at hl
    · exact hrole ▸ hl
  count := count

end ElectionFrame

theorem persist_frame {rf rf' : Raftserver} (h : rf.persist = some rf') :
    ElectionFrame rf rf' := by
  obtain ⟨calls, rfl⟩ := persist_eq h
  exact ⟨rfl, rfl, le_rfl, fun _ => rfl, id, id, rfl⟩

theorem Observes.frame {rf rf' : Raftserver} {term : Int} (h : Observes rf term rf') :
    ElectionFrame rf rf' := by
  cases h with
  | kept => exact .refl rf
  | later newer calls => exact .of_later rfl rfl newer (.inl rfl) rfl

theorem acceptEntries_frame {rf : Raftserver} {args : AppendEntriesArgs}
    {result : Raftserver × AppendEntriesReply} (h : rf.acceptEntries args = some result) :
    ElectionFrame rf result.1 := by
  obtain ⟨log, calls, -, rfl⟩ := acceptEntries_outcome h
  exact ⟨rfl, rfl, le_rfl, fun _ => rfl, id, id, rfl⟩

theorem appendEntries_frame {rf : Raftserver} {args : AppendEntriesArgs}
    {result : Raftserver × AppendEntriesReply} (h : rf.appendEntries args = some result) :
    ElectionFrame rf result.1 := by
  obtain ⟨-, rfl⟩ | ⟨-, observed, hobserved, ⟨reply, -, rfl⟩ | ⟨-, haccept⟩⟩ :=
    appendEntries_outcome h
  · exact .refl rf
  · exact (observeLeader_observes hobserved).frame
  · exact (observeLeader_observes hobserved).frame.trans (acceptEntries_frame haccept)

theorem sendAppendEntriesToServer_frame {rf : Raftserver} {server : Nat}
    {args : AppendEntriesArgs} {reply : AppendEntriesReply} {result : Raftserver × Bool}
    (h : rf.sendAppendEntriesToServer server args reply = some result) :
    ElectionFrame rf result.1 := by
  obtain ⟨-, -, c, -, hrf⟩ | ⟨-, -, -, -, next, -, hrf⟩ | observes :=
    sendAppendEntriesToServer_outcome h
  · rw [hrf]
    exact ⟨rfl, rfl, le_rfl, fun _ => rfl, id, id, rfl⟩
  · rw [hrf]
    exact ⟨rfl, rfl, le_rfl, fun _ => rfl, id, id, rfl⟩
  · exact observes.frame

theorem observeSnapshot_frame (rf : Raftserver) (term : Int) :
    ElectionFrame rf (rf.observeSnapshot term) := by
  unfold observeSnapshot
  split
  · exact .of_later rfl rfl ‹_› (.inl rfl) rfl
  · exact ⟨rfl, rfl, le_rfl, fun _ => rfl, by simp, by simp, rfl⟩

theorem installSnapshot_frame {rf : Raftserver} {args : InstallSnapshotArgs}
    {result : Raftserver × InstallSnapshotReply × Option ApplyMsg}
    (h : rf.installSnapshot args = some result) : ElectionFrame rf result.1 := by
  obtain ⟨-, rfl⟩ | ⟨-, taken⟩ := installSnapshot_outcome h
  · exact .refl rf
  refine (observeSnapshot_frame rf args.term).trans ?_
  obtain ⟨-, rfl⟩ | ⟨-, -, log, -, rfl⟩ := takeSnapshot_outcome taken
  · exact .refl _
  · exact ⟨rfl, rfl, le_rfl, fun _ => rfl, id, id, rfl⟩

theorem sendInstallSnapshotToServer_frame {rf rf' : Raftserver} {server : Nat}
    {reply : InstallSnapshotReply} (h : rf.sendInstallSnapshotToServer server reply = some rf') :
    ElectionFrame rf rf' := by
  obtain ⟨-, observes⟩ | rfl := sendInstallSnapshotToServer_outcome h
  · exact observes.frame
  · exact ⟨rfl, rfl, le_rfl, fun _ => rfl, id, id, rfl⟩

/-- The role is kept as well, so this section does not end a leadership. -/
theorem sendCommitIndex_frame (rf : Raftserver) (r : GetCommitIndexReply) :
    ElectionFrame rf (rf.sendCommitIndex r).1 := by
  obtain heq | ⟨newer, heq⟩ := sendCommitIndex_outcome rf r
  · rw [heq]
    exact .refl rf
  · rw [heq]
    exact .of_later rfl rfl newer (.inr rfl) rfl

theorem start_frame {rf : Raftserver} {command : Op} {result : Raftserver × Option (Int × Int)}
    (h : rf.start command = some result) : ElectionFrame rf result.1 := by
  obtain ⟨-, rfl⟩ | ⟨-, calls, hrf, -⟩ := start_outcome h
  · exact .refl rf
  · rw [hrf]
    exact ⟨rfl, rfl, le_rfl, fun _ => rfl, id, id, rfl⟩

theorem snapshot_frame {rf rf' : Raftserver} {index : Int} {data : Bytes}
    (h : rf.snapshot index data = some rf') : ElectionFrame rf rf' := by
  obtain ⟨-, rfl⟩ | ⟨-, -, e, calls, -, rfl⟩ := snapshot_outcome h
  · exact .refl rf'
  · exact ⟨rfl, rfl, le_rfl, fun _ => rfl, id, id, rfl⟩

theorem procVoteAnswer_frame {rf : Raftserver} {args : RequestVoteArgs}
    {reply : RequestVoteReply} {result : Raftserver × Bool}
    (h : rf.procVoteAnswer args reply = some result) : ElectionFrame rf result.1 :=
  (procVoteAnswer_observes h).frame

end Raftserver

namespace Node

/-- What a section of `CommitCheck` finds, and what it leaves. -/
inductive Checks (node : Node) : Node → Prop
  | collect {buffer : List ApplyMsg} (waiting : node.checker = .waiting)
      (behind : node.rf.lastApplied < node.rf.commitIndex)
      (collected : node.rf.commitBuffer (node.rf.commitIndex - node.rf.lastApplied).toNat
        node.rf.lastApplied = some buffer) :
      Checks node { node with checker := .checking buffer }
  | finish (empty : node.checker = .checking []) : Checks node { node with checker := .waiting }
  | skip {msg : ApplyMsg} {rest : List ApplyMsg} (first : node.checker = .checking (msg :: rest))
      (other : msg.commandIndex ≠ node.rf.lastApplied + 1) :
      Checks node { node with checker := .checking rest }
  | pick {msg : ApplyMsg} {rest : List ApplyMsg} (first : node.checker = .checking (msg :: rest))
      (next : msg.commandIndex = node.rf.lastApplied + 1) :
      Checks node { node with checker := .sending msg node.rf.lastApplied rest }
  | send {msg : ApplyMsg} {applied : Int} {rest : List ApplyMsg}
      (first : node.checker = .sending msg applied rest) (room : node.applyCh = []) :
      Checks node { node with
        applyCh := [msg], delivered := msg :: node.delivered, checker := .sent msg applied rest }
  | leave {msg : ApplyMsg} {applied : Int} {rest : List ApplyMsg}
      (first : node.checker = .sent msg applied rest) (other : msg.commandIndex ≠ applied + 1) :
      Checks node { node with checker := .checking rest }
  | advance {msg : ApplyMsg} {applied : Int} {rest : List ApplyMsg}
      (first : node.checker = .sent msg applied rest) (next : msg.commandIndex = applied + 1) :
      Checks node { node with
        checker := .checking rest
        rf := { node.rf with lastApplied := max node.rf.lastApplied msg.commandIndex } }

variable {node node' : Node}

theorem checks_of_commitCheck (h : node.commitCheck = some node') : node.Checks node' := by
  unfold commitCheck at h
  split at h
  next waiting =>
    obtain ⟨behind, buffer, collected, rfl⟩ := enabled_map.mp h
    exact .collect waiting behind collected
  next empty =>
    cases h
    exact .finish empty
  next msg rest first =>
    split at h
    next other =>
      cases h
      exact .skip first other
    next same =>
      cases h
      exact .pick first (not_not.mp same)
  next msg applied rest first =>
    obtain ⟨sent, hsent, rfl⟩ := Option.map_eq_some_iff.mp h
    obtain ⟨room, rfl⟩ := enabled_some.mp hsent
    exact .send first room
  next msg applied rest first =>
    split at h
    next other =>
      cases h
      exact .leave first other
    next same =>
      cases h
      exact .advance first (not_not.mp same)

/-- Of the server only `lastApplied` may change. -/
theorem Checks.rf_eq (h : node.Checks node') :
    ∃ applied, node'.rf = { node.rf with lastApplied := applied } := by
  cases h <;> exact ⟨_, rfl⟩

theorem commitCheck_frame (h : node.commitCheck = some node') :
    node.rf.ElectionFrame node'.rf := by
  obtain ⟨applied, hrf⟩ := (checks_of_commitCheck h).rf_eq
  rw [hrf]
  exact ⟨rfl, rfl, le_rfl, fun _ => rfl, id, id, rfl⟩

end Node

end RaftKv.Raft
