import RaftKv.Raft.Simulation

/-!
# Who knows what is committed

A node learns that an index is committed from a leader's message, from a snapshot, or by
counting acknowledgements itself. Whoever says so, the leader of the term in which the
index was chosen knows it at least as long as it stays in that term.

This is what a leader may conclude from its own commit index, once that has reached an
entry of its own term: nothing beyond it is committed, unless a majority has moved on to
a later term.
-/

namespace RaftKv.Raft

open Library Library.Ledger

variable {n : Nat} {h h' : History n} {s t : Cluster n}

/-- What the node is about to send on `applyCh`, or what is in there. -/
def Node.pending (node : Node) : List ApplyMsg :=
  node.checker.messages ++ node.installing.map (·.2.2) ++ node.applyCh

/-- Somebody acts on the assumption that the index is committed. -/
inductive Said (s : Cluster n) : Int → Prop where
  | commit (i : Fin n) : Said s (s.nodes i).rf.commitIndex
  | append {r : Rpc n AppendEntriesArgs} :
      r ∈ s.appendCalls ∨ r ∈ s.appendReqs ∨ r ∈ s.beatReqs → Said s r.args.leaderCommit
  | install {r : Rpc n InstallSnapshotArgs} :
      r ∈ s.installReqs → Said s r.args.lastIncludedIndex
  | delivery {i : Fin n} {msg : ApplyMsg} :
      msg ∈ (s.nodes i).pending → msg.commandValid = true → Said s msg.commandIndex

/-- Something at least as large was said. -/
def Covered (s : Cluster n) (v : Int) : Prop := ∃ w, Said s w ∧ v ≤ w

theorem Said.covered {v : Int} (said : Said s v) : Covered s v := ⟨v, said, le_rfl⟩

theorem Covered.le {v w : Int} (covered : Covered s w) (hle : v ≤ w) : Covered s v := by
  obtain ⟨x, said, hx⟩ := covered
  exact ⟨x, said, hle.trans hx⟩

/-- The leader of its current term has counted enough acknowledgements for the commit index
that it has set, and has the same log as before. -/
structure Found (h : History n) (s : Cluster n) (i : Fin n) (rf : Raftserver) : Prop where
  leader : h.leader (s.nodes i).rf.currentTerm = some i
  chosen : Chosen Entry.term (Majority n) h (s.nodes i).rf.currentTerm rf.commitIndex.toNat
  log : rf.log = (s.nodes i).rf.log
  included : rf.lastIncludedIndex = (s.nodes i).rf.lastIncludedIndex

/-- Where everything that is said after a step comes from. A heartbeat is confirmed in its
own term. -/
structure Spreads (h : History n) (s t : Cluster n) : Prop where
  mono : ∀ i, (s.nodes i).rf.commitIndex ≤ (t.nodes i).rf.commitIndex
  commit : ∀ i, Covered s (t.nodes i).rf.commitIndex ∨
    Found h s i (t.nodes i).rf
  append : ∀ r, r ∈ t.appendCalls ∨ r ∈ t.appendReqs ∨ r ∈ t.beatReqs →
    Covered s r.args.leaderCommit
  install : ∀ r ∈ t.installReqs, Covered s r.args.lastIncludedIndex
  delivery : ∀ i, ∀ msg ∈ (t.nodes i).pending, msg.commandValid = true →
    Covered s msg.commandIndex
  beats : t.beatReplies = s.beatReplies ∨ ∃ r reply, t.beatReplies = (r, reply) :: s.beatReplies ∧
    (reply.success = true → (t.nodes r.server).rf.currentTerm = r.args.term)

namespace Spreads

/-- Nothing new is said. -/
theorem refl (h : History n) (s : Cluster n) : Spreads h s s where
  mono _ := le_rfl
  commit i := .inl (Said.commit i).covered
  append _ hr := (Said.append hr).covered
  install _ hr := (Said.install hr).covered
  delivery _ _ hmsg valid := (Said.delivery hmsg valid).covered
  beats := .inl rfl

/-- One node moves, and the network is as before. -/
theorem node (i : Fin n) (node : Node)
    (mono : (s.nodes i).rf.commitIndex ≤ node.rf.commitIndex)
    (commit : Covered s node.rf.commitIndex ∨ Found h s i node.rf)
    (delivery : ∀ msg ∈ node.pending, msg.commandValid = true → Covered s msg.commandIndex) :
    Spreads h s (s.setNode i node) where
  mono j := Cluster.setNode_cases j mono fun _ => le_rfl
  commit j := Cluster.setNode_cases j commit fun _ => .inl (Said.commit j).covered
  append _ hr := (Said.append (s := s) hr).covered
  install _ hr := (Said.install (s := s) hr).covered
  delivery j := Cluster.setNode_cases j delivery fun _ _ hmsg valid =>
    (Said.delivery hmsg valid).covered
  beats := .inl rfl

/-- The commit index of one node stays, and nothing new is on its way to the service. -/
theorem still (i : Fin n) (node : Node) (commit : node.rf.commitIndex = (s.nodes i).rf.commitIndex)
    (pending : node.pending ⊆ (s.nodes i).pending) : Spreads h s (s.setNode i node) :=
  .node i node commit.ge (.inl (commit ▸ (Said.commit i).covered)) fun _ hmsg valid =>
    (Said.delivery (pending hmsg) valid).covered

/-- The peer of one node moves. -/
theorem rf (i : Fin n) (rf : Raftserver)
    (mono : (s.nodes i).rf.commitIndex ≤ rf.commitIndex)
    (commit : Covered s rf.commitIndex ∨ Found h s i rf) :
    Spreads h s (s.setRf i rf) :=
  .node i { s.nodes i with rf := rf } mono commit fun _ hmsg valid =>
    (Said.delivery hmsg valid).covered

/-- The same if its commit index does not change. -/
theorem same (i : Fin n) (rf : Raftserver) (commit : rf.commitIndex = (s.nodes i).rf.commitIndex) :
    Spreads h s (s.setRf i rf) :=
  .still i _ commit (List.Subset.refl _)

end Spreads

/-! ## The sections -/

namespace Raftserver

/-- A follower's commit index is raised to no more than what the leader has said. -/
theorem appendEntries_commit {rf : Raftserver} {args : AppendEntriesArgs}
    {result : Raftserver × AppendEntriesReply} (within : CommitsWithin rf args)
    (h : rf.appendEntries args = some result) :
    result.1.commitIndex = rf.commitIndex ∨
      (rf.commitIndex < result.1.commitIndex ∧ result.1.commitIndex ≤ args.leaderCommit) := by
  rcases appendEntries_cases h with ⟨quiet, -⟩ | ⟨observed, quiet, current, hterm, hcheck, haccept⟩
  · exact .inl quiet.commit
  have hsmaller := within.smaller quiet current hterm hcheck haccept
  obtain ⟨log, calls, -, rfl⟩ := acceptEntries_outcome haccept
  have hcommit := quiet.commit
  dsimp only at hsmaller ⊢
  split
  · have hmin : max args.leaderCommit _ = _ := hsmaller (by omega)
    right
    constructor
    · omega
    · exact hmin.le.trans (min_le_left _ _)
  · exact .inl hcommit

/-- A request is accepted in the term of its sender. -/
theorem appendEntries_term {rf : Raftserver} {args : AppendEntriesArgs}
    {result : Raftserver × AppendEntriesReply} (h : rf.appendEntries args = some result)
    (success : result.2.success = true) : result.1.currentTerm = args.term := by
  rcases appendEntries_cases h with ⟨-, refused⟩ | ⟨observed, -, -, hterm, -, haccept⟩
  · rw [refused] at success
    cases success
  obtain ⟨log, calls, -, rfl⟩ := acceptEntries_outcome haccept
  exact hterm

theorem installSnapshot_commit {rf : Raftserver} {args : InstallSnapshotArgs}
    {result : Raftserver × InstallSnapshotReply × Option ApplyMsg}
    (h : rf.installSnapshot args = some result) :
    (result.1.commitIndex = rf.commitIndex ∨
      (rf.commitIndex ≤ result.1.commitIndex ∧
        result.1.commitIndex = args.lastIncludedIndex)) ∧
      ∀ msg ∈ result.2.2, msg.commandValid = false := by
  obtain ⟨-, rfl⟩ | ⟨-, taken⟩ := installSnapshot_outcome h
  · exact ⟨.inl rfl, by simp⟩
  obtain ⟨current, voted, -, observed⟩ := rf.observeSnapshot_outcome args.term
  rw [observed] at taken
  obtain ⟨-, rfl⟩ | ⟨-, hcommit, log, -, rfl⟩ := takeSnapshot_outcome taken
  · exact ⟨.inl rfl, by simp⟩
  · exact ⟨.inr ⟨hcommit, rfl⟩, fun msg hmsg => by cases hmsg; rfl⟩

theorem snapshot_commit {rf rf' : Raftserver} {index : Int} {data : Bytes}
    (h : rf.snapshot index data = some rf') : rf'.commitIndex = rf.commitIndex := by
  obtain ⟨-, rfl⟩ | ⟨-, -, e, calls, -, rfl⟩ := snapshot_outcome h <;> rfl

theorem start_commit {rf : Raftserver} {command : Op} {result : Raftserver × Option (Int × Int)}
    (h : rf.start command = some result) : result.1.commitIndex = rf.commitIndex := by
  obtain ⟨-, rfl⟩ | ⟨-, calls, hrf, -⟩ := start_outcome h
  · rfl
  · rw [hrf]

theorem requestVote_commit {rf : Raftserver} {args : RequestVoteArgs}
    {result : Raftserver × RequestVoteReply} (h : rf.requestVote args = some result) :
    result.1.commitIndex = rf.commitIndex := by
  obtain ⟨observed, observes, rfl | ⟨-, -, last, calls, -, -, rfl⟩⟩ := requestVote_outcome h
  · exact observes.quiet.commit
  · exact observes.quiet.commit

theorem collectVote_commit (rf : Raftserver) (outTime : Bool) :
    (rf.collectVote outTime).commitIndex = rf.commitIndex := by
  obtain ⟨count, role, leaderIdx, nextIndex, matchIndex, heq⟩ := collectVote_outcome rf outTime
  rw [heq]

theorem startSendAppendEntries_commit {rf : Raftserver} {i : Nat} {args : AppendEntriesArgs}
    (h : rf.startSendAppendEntries i = some (some args)) : args.leaderCommit = rf.commitIndex := by
  unfold startSendAppendEntries at h
  dsimp only at h
  split at h
  · cases h
  · obtain ⟨prev, -, h⟩ := Option.map_eq_some_iff.mp h
    cases h
    rfl

theorem sendCommitIndex_commit (rf : Raftserver) (r : GetCommitIndexReply) :
    (rf.sendCommitIndex r).1.commitIndex = rf.commitIndex := by
  obtain heq | ⟨-, heq⟩ := sendCommitIndex_outcome rf r <;> rw [heq]

end Raftserver

namespace Node

variable {node node' : Node}

theorem Forwards.pending (h : node.Forwards node') {msg : ApplyMsg} (hmsg : msg ∈ node'.pending) :
    msg ∈ node.pending ∨ node.Collects msg := by
  simp only [Node.pending, List.mem_append] at hmsg ⊢
  rcases hmsg with (here | installing) | sent
  · exact (h.checker msg here).imp (fun old => .inl (.inl old)) id
  · rw [h.installing] at installing
    exact .inl (.inl (.inr installing))
  · exact .inl ((h.applyCh msg sent).imp .inl id)

/-- Nothing that `CommitCheck` sends is beyond the commit index it has read. -/
theorem commitCheck_pending (h : node.commitCheck = some node') :
    node'.rf.commitIndex = node.rf.commitIndex ∧
      ∀ msg ∈ node'.pending, msg ∈ node.pending ∨ msg.commandIndex ≤ node.rf.commitIndex := by
  have checks := checks_of_commitCheck h
  obtain ⟨applied, hrf⟩ := checks.rf_eq
  refine ⟨by rw [hrf], fun msg hmsg => (checks.forwards.pending hmsg).imp id ?_⟩
  rintro ⟨fuel, buffer, collected, here⟩
  exact (Raftserver.commitBuffer_mem collected here).2.1

end Node

namespace Sim

theorem spreads_append {r : Rpc n AppendEntriesArgs}
    (hr : r ∈ s.appendReqs ∨ r ∈ s.beatReqs)
    (within : CommitsWithin (s.nodes r.server).rf r.args)
    {result : Raftserver × AppendEntriesReply}
    (hresult : (s.nodes r.server).rf.appendEntries r.args = some result) :
    Spreads h s (s.setRf r.server result.1) := by
  rcases Raftserver.appendEntries_commit within hresult with same | ⟨hlt, hle⟩
  · exact .same r.server result.1 same
  · exact .rf r.server result.1 hlt.le (.inl ⟨_, .append (.inr hr), hle⟩)

theorem spreads_appendEntriesReply (hn : Odd n) (sim : Sim h s) (inv : s.VoteInv)
    {i : Fin n} {r : Rpc n AppendEntriesArgs} {reply : AppendEntriesReply}
    (hr : (r, reply) ∈ s.appendReplies) (hi : r.args.leaderId = i) {result : Raftserver × Bool}
    (hresult : (s.nodes i).rf.sendAppendEntriesToServer r.server r.args reply = some result) :
    Spreads h s (s.setRf i result.1) := by
  obtain ⟨sent, acked⟩ := sim.traffic.appendReplies _ hr
  obtain ⟨c, hc, hne, hleader⟩ := sent.leader
  have hci : c = i := Fin.ext (hc.symm.trans hi)
  subst hci
  have hlen := Cluster.peers_length inv c
  have hthree := three_le_of_ne hn hne
  have node := sim.nodes c
  rcases Raftserver.sendAppendEntriesToServer_spec node.window (by omega) node.commit hresult with
    ⟨next, hrf, -⟩ | ⟨hterm, success, k, hrf, hcommit⟩ | ⟨-, calls, hrf⟩
  · exact .same c result.1 (by rw [hrf])
  · have hk : result.1.commitIndex = k := by rw [hrf]
    rcases hcommit with rfl | ⟨hlt, -, quorum⟩
    · exact .same c result.1 hk
    · have role : (s.nodes c).rf.role = .leader := node.leads.mpr (hterm ▸ hleader)
      refine .rf c result.1 (by omega) (.inr ⟨hterm ▸ hleader, ?_, by rw [hrf]; rfl,
        by rw [hrf]; rfl⟩)
      rw [hk]
      exact (node.acknowledge hterm (acked success)).chosen_of_quorum hn role (inv.peers c) hlen
        hlt quorum
  · exact .same c result.1 (by rw [hrf])

theorem spreads_installSnapshot {r : Rpc n InstallSnapshotArgs} (hr : r ∈ s.installReqs)
    {rf : Raftserver} {reply : InstallSnapshotReply} {msg : Option ApplyMsg}
    (hresult : (s.nodes r.server).rf.installSnapshot r.args = some (rf, reply, msg)) :
    Spreads h s (s.setNode r.server
      { s.nodes r.server with
        rf := rf
        installing := (msg.map fun msg => (r.args, reply, msg)).toList ++
          (s.nodes r.server).installing }) := by
  obtain ⟨hcommit, hvalid⟩ := Raftserver.installSnapshot_commit hresult
  dsimp only at hcommit hvalid
  have delivery : ∀ m ∈ Node.pending { s.nodes r.server with
        rf := rf
        installing := (msg.map fun msg => (r.args, reply, msg)).toList ++
          (s.nodes r.server).installing }, m.commandValid = true → Covered s m.commandIndex := by
    intro m hm valid
    have hold : m ∈ (s.nodes r.server).pending := by
      simp only [Node.pending, List.map_append, List.append_assoc, List.mem_append] at hm ⊢
      rcases hm with hm | hm | hm
      · exact .inl hm
      · cases msg with
        | none => cases hm
        | some new =>
            have hnew : m = new := by simpa using hm
            rw [hnew, hvalid new rfl] at valid
            cases valid
      · exact .inr hm
    exact (Said.delivery hold valid).covered
  rcases hcommit with same | ⟨hle, hindex⟩
  · exact .node r.server _ same.ge (.inl (same ▸ (Said.commit r.server).covered)) delivery
  · exact .node r.server _ hle (.inl ⟨_, .install hr, hindex.le⟩) delivery

/-- Where everything that is said after a step of the cluster comes from. -/
theorem spreads (hn : Odd n) (sim : Sim h s) (inv : s.VoteInv) {a : Action n}
    (guarded : Guarded s a) (hstep : s.step a = some t) : Spreads h s t := by
  have said {r : Rpc n AppendEntriesArgs}
      (hr : r ∈ s.appendCalls ∨ r ∈ s.appendReqs ∨ r ∈ s.beatReqs) :
      Covered s r.args.leaderCommit := (Said.append hr).covered
  cases a with
  | ticker i =>
      obtain ⟨-, rfl⟩ := enabled_some.mp hstep
      exact .still i _ rfl (List.Subset.refl _)
  | startElection i =>
      obtain ⟨-, result, hresult, rfl⟩ := enabled_map.mp hstep
      have hcommit := (Raftserver.startElection_quiet hresult).commit
      have moved : Spreads h s (s.setNode i { s.nodes i with
          rf := result.1, elections := (s.nodes i).elections - 1 }) :=
        .still i _ hcommit (List.Subset.refl _)
      exact { moved with }
  | requestVote r =>
      obtain ⟨-, result, hresult, rfl⟩ := enabled_map.mp hstep
      exact { Spreads.same r.server result.1 (Raftserver.requestVote_commit hresult) with }
  | procVoteAnswer i r reply =>
      obtain ⟨-, result, hresult, rfl⟩ := enabled_map.mp hstep
      exact { Spreads.same i result.1 (Raftserver.procVoteAnswer_quiet hresult).commit with }
  | collectVote i r outTime =>
      obtain ⟨-, rfl⟩ := enabled_some.mp hstep
      exact { Spreads.same i _ (Raftserver.collectVote_commit (s.nodes i).rf outTime) with }
  | startSendAppendEntries i =>
      obtain ⟨-, sends, hsends, rfl⟩ := enabled_map.mp hstep
      refine { Spreads.refl h s with append := fun r hr => ?_ }
      rcases hr with hr | hr
      · rcases List.mem_append.mp hr with hr | hr
        · obtain ⟨⟨j, args⟩, hp, hargs⟩ := List.mem_filterMap.mp hr
          obtain ⟨args, rfl, rfl⟩ := Option.map_eq_some_iff.mp hargs
          obtain ⟨j', -, args', hbuilt, heq⟩ := collect_mem hsends hp
          cases heq
          exact Raftserver.startSendAppendEntries_commit hbuilt ▸ (Said.commit i).covered
        · exact said (.inl hr)
      · exact said (.inr hr)
  | sendAppendEntries i r =>
      obtain ⟨⟨hr, -⟩, rfl⟩ := enabled_some.mp hstep
      refine { Spreads.refl h s with append := fun r' hr' => ?_ }
      rcases hr' with hr' | hr' | hr'
      · exact said (.inl (List.mem_of_mem_erase hr'))
      · rcases List.mem_cons.mp hr' with rfl | hr'
        · exact said (.inl hr)
        · exact said (.inr (.inl hr'))
      · exact said (.inr (.inr hr'))
  | appendEntries r =>
      obtain ⟨hr, result, hresult, rfl⟩ := enabled_map.mp hstep
      exact { spreads_append (.inl hr) guarded hresult with }
  | appendEntriesReply i r reply =>
      obtain ⟨⟨hr, hi⟩, result, hresult, rfl⟩ := enabled_map.mp hstep
      exact { sim.spreads_appendEntriesReply hn inv hr hi hresult with }
  | sendInstallSnapshot i j =>
      obtain ⟨-, args, hargs, rfl⟩ := enabled_map.mp hstep
      refine { Spreads.refl h s with install := fun r hr => ?_ }
      rcases List.mem_cons.mp hr with rfl | hr
      · obtain ⟨e, -, rfl⟩ := Option.map_eq_some_iff.mp hargs
        exact (Said.commit i).covered.le (sim.nodes i).included
      · exact (Said.install hr).covered
  | installSnapshot r =>
      obtain ⟨hr, ⟨rf, reply, msg⟩, hresult, rfl⟩ := enabled_map.mp hstep
      have moved := spreads_installSnapshot (h := h) hr hresult
      cases msg with
      | none => exact { moved with }
      | some msg => exact moved
  | installSnapshotSend j task =>
      obtain ⟨htask, node, hsent, rfl⟩ := enabled_map.mp hstep
      obtain ⟨-, rfl⟩ := enabled_some.mp hsent
      refine .still j _ rfl fun m hm => ?_
      have htask' : task.2.2 ∈ (s.nodes j).installing.map (·.2.2) :=
        List.mem_map.mpr ⟨task, htask, rfl⟩
      simp only [Node.pending, List.append_assoc, List.mem_append, List.mem_singleton] at hm ⊢
      rcases hm with hm | hm | rfl
      · exact .inl hm
      · obtain ⟨other, hother, rfl⟩ := List.mem_map.mp hm
        exact .inr (.inl (List.mem_map.mpr ⟨other, List.mem_of_mem_erase hother, rfl⟩))
      · exact .inr (.inl htask')
  | installSnapshotDone j task =>
      obtain ⟨-, rf, hsaved, rfl⟩ := enabled_map.mp hstep
      have hcommit := (Raftserver.persist_quiet hsaved).commit
      have moved : Spreads h s (s.setNode j { s.nodes j with
          rf := rf, installed := (s.nodes j).installed.erase task }) :=
        .still j _ hcommit (List.Subset.refl _)
      exact { moved with }
  | installSnapshotReply i r reply =>
      obtain ⟨-, rf, hresult, rfl⟩ := enabled_map.mp hstep
      exact .same i rf (Raftserver.sendInstallSnapshotToServer_quiet hresult).commit
  | singleHeartBeat i =>
      obtain ⟨-, beats, hbeats, rfl⟩ := enabled_map.mp hstep
      refine { Spreads.refl h s with append := fun r hr => ?_ }
      rcases hr with hr | hr | hr
      · exact said (.inl hr)
      · exact said (.inr (.inl hr))
      · rcases List.mem_append.mp hr with hr | hr
        · obtain ⟨j, -, args, hargs, rfl⟩ := collect_mem hbeats hr
          obtain ⟨prev, -, rfl⟩ := Option.map_eq_some_iff.mp hargs
          exact (Said.commit i).covered
        · exact said (.inr (.inr hr))
  | heartBeat r =>
      obtain ⟨hr, result, hresult, rfl⟩ := enabled_map.mp hstep
      refine { spreads_append (h := h) (.inr hr) guarded hresult with
        beats := .inr ⟨r, result.2, rfl, fun success => ?_⟩ }
      change ((s.setRf r.server result.1).nodes r.server).rf.currentTerm = r.args.term
      rw [Cluster.setRf_same]
      exact Raftserver.appendEntries_term hresult success
  | sendCommitIndex i =>
      obtain ⟨r, rfl⟩ := Cluster.step_sendCommitIndex hstep
      exact { Spreads.refl h s with }
  | commitIndexReply i r =>
      obtain ⟨-, rfl⟩ := enabled_some.mp hstep
      exact .same i _ (Raftserver.sendCommitIndex_commit _ r)
  | start i command =>
      obtain ⟨result, hresult, rfl⟩ := Option.map_eq_some_iff.mp hstep
      exact .same i result.1 (Raftserver.start_commit hresult)
  | snapshot i index data =>
      obtain ⟨rf, hresult, rfl⟩ := Option.map_eq_some_iff.mp hstep
      exact .same i rf (Raftserver.snapshot_commit hresult)
  | commitCheck i =>
      obtain ⟨node, hnode, rfl⟩ := Option.map_eq_some_iff.mp hstep
      obtain ⟨hcommit, hpending⟩ := Node.commitCheck_pending hnode
      refine .node i node hcommit.ge (.inl (hcommit ▸ (Said.commit i).covered)) fun m hm valid => ?_
      rcases hpending m hm with hold | hle
      · exact (Said.delivery hold valid).covered
      · exact (Said.commit i).covered.le hle
  | applyHandler i =>
      obtain ⟨msg, rest, hch, rfl⟩ := Cluster.step_applyHandler hstep
      refine .still i _ rfl fun m hm => ?_
      simp only [Node.pending, hch, List.append_assoc, List.mem_append, List.mem_cons] at hm ⊢
      tauto

end Sim

/-! ## Claimed commit indices -/

/-- The index is chosen, or below one that is, and the leader of that term knows it while
it is in the term. Index zero needs no leader. -/
def Claimed (h : History n) (s : Cluster n) (v : Int) : Prop :=
  v ≤ 0 ∨ ∃ u k, Chosen Entry.term (Majority n) h u k ∧ v ≤ k ∧
    ∀ c, h.leader u = some c → (s.nodes c).rf.currentTerm = u → v ≤ (s.nodes c).rf.commitIndex

namespace Claimed

theorem le {v w : Int} (claimed : Claimed h s w) (hle : v ≤ w) : Claimed h s v := by
  rcases claimed with hzero | ⟨u, k, chosen, hk, knows⟩
  · exact .inl (hle.trans hzero)
  · exact .inr ⟨u, k, chosen, hle.trans hk, fun c hc hterm => hle.trans (knows c hc hterm)⟩

/-- A leader that leaves its term never comes back to it, and until then its commit index
only grows. -/
theorem grow {v : Int} (claimed : Claimed h s v) (sim : Sim h s) (inv : s.VoteInv)
    (sim' : Sim h' t) (grows : Extends h h') (spreads : Spreads h s t) : Claimed h' t v := by
  rcases claimed with hzero | ⟨u, k, chosen, hk, knows⟩
  · exact .inl hzero
  refine .inr ⟨u, k, grows.chosen chosen, hk, fun c hc hterm => ?_⟩
  obtain ⟨c', hc'⟩ := Option.ne_none_iff_exists'.mp chosen.1
  have hsame : c' = c := Option.some.inj ((grows.leader u c' hc').symm.trans hc)
  subst hsame
  have hpast := sim.leader_le inv hc'
  have hlater := grows.term c'
  rw [(sim'.nodes c').term] at hlater
  refine (knows c' hc' ?_).trans (spreads.mono c')
  rw [← (sim.nodes c').term]
  omega

end Claimed

/-- Everything that is said is true. -/
def Claims (h : History n) (s : Cluster n) : Prop := ∀ v, Said s v → Claimed h s v

theorem Claims.covered (claims : Claims h s) {v : Int} (covered : Covered s v) :
    Claimed h s v := by
  obtain ⟨w, said, hle⟩ := covered
  exact (claims w said).le hle

theorem claims_init (h : History n) : Claims h (Cluster.init n) := by
  intro v said
  cases said with
  | commit i => exact .inl le_rfl
  | append hr => simp [Cluster.init] at hr
  | install hr => simp [Cluster.init] at hr
  | delivery hmsg => simp [Cluster.init, Node.pending, Checker.messages] at hmsg

theorem Claims.step (claims : Claims h s) (sim : Sim h s) (inv : s.VoteInv) (sim' : Sim h' t)
    (grows : Extends h h') (spreads : Spreads h s t) : Claims h' t := by
  have old {v : Int} (covered : Covered s v) : Claimed h' t v :=
    (claims.covered covered).grow sim inv sim' grows spreads
  intro v said
  cases said with
  | commit i =>
      rcases spreads.commit i with covered | ⟨leader, chosen, -, -⟩
      · exact old covered
      · refine .inr ⟨_, _, grows.chosen chosen, Int.self_le_toNat _, fun c hc _ => ?_⟩
        have hci : i = c := Option.some.inj ((grows.leader _ i leader).symm.trans hc)
        rw [hci]
  | append hr => exact old (spreads.append _ hr)
  | install hr => exact old (spreads.install _ hr)
  | delivery hmsg valid => exact old (spreads.delivery _ _ hmsg valid)

/-- The node's commit index has reached an entry of its own term. -/
def CommittedOwn (rf : Raftserver) : Prop :=
  (rf.entryAt rf.commitIndex).map Entry.term = some rf.currentTerm

instance (rf : Raftserver) : Decidable (CommittedOwn rf) :=
  inferInstanceAs (Decidable (_ = _))

/-- A leader that has committed an entry of its own term knows everything that is
committed, unless a majority is in a later term. -/
theorem Claimed.le_commit {v : Int} (claimed : Claimed h s v) (sim : Sim h s) {i : Fin n}
    (role : (s.nodes i).rf.role = .leader) (own : CommittedOwn (s.nodes i).rf) :
    v ≤ (s.nodes i).rf.commitIndex ∨
      Majority n {v | (s.nodes i).rf.currentTerm < h.term v} := by
  have node := sim.nodes i
  have hleader := node.leads.mp role
  have hnonneg := node.commit_nonneg
  rcases claimed with hzero | ⟨u, k, chosen, hk, knows⟩
  · exact .inl (hzero.trans hnonneg)
  rcases lt_trichotomy u (s.nodes i).rf.currentTerm with hlt | heq | hgt
  · -- chosen before: the leader was elected with it, and has committed something after
    left
    obtain ⟨e, he, hterm⟩ := Option.map_eq_some_iff.mp own
    have hlog := (node.window.entryAt.mp he).2
    rw [← node.led role] at hlog
    have hne : h.leader (s.nodes i).rf.currentTerm ≠ none := by simp [hleader]
    have hstart := sim.sound.elected_length_le hne hlog hterm
    have hprefix := (sim.sound.completeness Majority.intersect chosen hlt hne).length_le
    obtain ⟨-, -, a, ha, -⟩ := chosen
    have hin := (List.getElem?_eq_some_iff.mp ha).1
    rw [List.length_take] at hprefix
    omega
  · subst heq
    exact .inl (knows i hleader rfl)
  · -- chosen later: that leader's voters have left the term
    right
    obtain ⟨Q, ⟨members, hmembers, hcard⟩, votes⟩ := sim.sound.votes u chosen.1
    refine ⟨members, fun v hv => ?_, hcard⟩
    obtain ⟨w, hvoted, -⟩ := votes v (hmembers v hv)
    exact hgt.trans_le (sim.sound.voted_term v u w hvoted)

end RaftKv.Raft
