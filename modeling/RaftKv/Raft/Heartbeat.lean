import RaftKv.Raft.Compaction
import RaftKv.Raft.Safety

/-!
# Where `SingleHeartBeat` reads the log

For every peer `SingleHeartBeat` reads the entry before the peer's next index. No next
index of a leader is beyond the end of its log: an acknowledged message was a piece of
it, and a refusal names an index of the message, the end of a shorter log, or the snapshot
of a follower, all of which is committed and therefore in the leader's log.

Nothing keeps a next index behind the leader's snapshot. It is zero for a peer without an
entry, it is set to the last included index when the leader is to send its snapshot, and
the snapshot may move past it. `StartSendAppendEntries` looks at this first, but
`SingleHeartBeat` does not. `Covers` names the elections, replies and snapshots that are
harmless for a peer.
-/

namespace RaftKv.Raft

open Library Library.Ledger

namespace Raftserver

variable {rf rf' : Raftserver}

/-- No next index of a leader is beyond the end of its log. -/
def Aimed (rf : Raftserver) : Prop :=
  rf.role = .leader → ∀ k, rf.nextIndex.get k ≤ rf.lastIndex + 1

/-- A leader after the section was one before, with the same next indices, the same snapshot
and a log that was not longer. -/
def Steady (rf rf' : Raftserver) : Prop :=
  rf'.role = .leader → rf.role = .leader ∧ rf'.nextIndex = rf.nextIndex ∧
    rf'.lastIncludedIndex = rf.lastIncludedIndex ∧ rf.lastIndex ≤ rf'.lastIndex

theorem Steady.refl (rf : Raftserver) : Steady rf rf := fun role => ⟨role, rfl, rfl, le_rfl⟩

theorem Steady.trans {mid : Raftserver} (h : Steady rf mid) (h' : Steady mid rf') :
    Steady rf rf' := by
  intro role
  obtain ⟨midRole, next, included, last⟩ := h' role
  obtain ⟨role, next', included', last'⟩ := h midRole
  exact ⟨role, next.trans next', included.trans included', le_trans last' last⟩

theorem Aimed.steady (aimed : rf.Aimed) (steady : Steady rf rf') : rf'.Aimed := by
  intro role k
  obtain ⟨role, next, -, last⟩ := steady role
  have := aimed role k
  rw [next]
  omega

theorem persist_steady (h : rf.persist = some rf') : Steady rf rf' := by
  obtain ⟨calls, rfl⟩ := persist_eq h
  exact fun role => ⟨role, rfl, rfl, le_rfl⟩

theorem startElection_steady {result : Raftserver × RequestVoteArgs}
    (h : rf.startElection = some result) : Steady rf result.1 := by
  obtain ⟨last, calls, -, rfl⟩ := startElection_outcome h
  exact nofun

theorem Observes.steady {term : Int} (h : Observes rf term rf') : Steady rf rf' := by
  cases h with
  | kept => exact .refl rf
  | later newer calls => exact nofun

theorem requestVote_steady {args : RequestVoteArgs} {result : Raftserver × RequestVoteReply}
    (h : rf.requestVote args = some result) : Steady rf result.1 := by
  obtain ⟨observed, observes, rfl | ⟨-, -, last, calls, -, -, rfl⟩⟩ := requestVote_outcome h
  · exact observes.steady
  · exact nofun

theorem procVoteAnswer_steady {args : RequestVoteArgs} {reply : RequestVoteReply}
    {result : Raftserver × Bool} (h : rf.procVoteAnswer args reply = some result) :
    Steady rf result.1 :=
  (procVoteAnswer_observes h).steady

/-- A leader keeps its own log. -/
theorem appendEntries_steady {args : AppendEntriesArgs} {result : Raftserver × AppendEntriesReply}
    (h : rf.appendEntries args = some result) : Steady rf result.1 := by
  obtain ⟨-, rfl⟩ | ⟨-, observed, hobserved, ⟨reply, -, rfl⟩ | ⟨-, haccept⟩⟩ :=
    appendEntries_outcome h
  · exact .refl rf
  · exact (observeLeader_observes hobserved).steady
  · obtain ⟨log, calls, hlog, rfl⟩ := acceptEntries_outcome haccept
    refine (observeLeader_observes hobserved).steady.trans fun role => ?_
    have own : observed.role = .leader := role
    rw [mergedLog, if_neg fun hentries => hentries.2 own] at hlog
    cases hlog
    exact ⟨own, rfl, rfl, le_rfl⟩

theorem installSnapshot_steady {args : InstallSnapshotArgs}
    {result : Raftserver × InstallSnapshotReply × Option ApplyMsg}
    (h : rf.installSnapshot args = some result) : Steady rf result.1 := by
  obtain ⟨-, rfl⟩ | ⟨-, taken⟩ := installSnapshot_outcome h
  · exact .refl rf
  obtain ⟨current, voted, -, observed⟩ := rf.observeSnapshot_outcome args.term
  rw [observed] at taken
  have after : result.1.role = .follower := by
    obtain ⟨-, rfl⟩ | ⟨-, -, log, -, rfl⟩ := takeSnapshot_outcome taken
    · rfl
    · rfl
  intro role
  cases after.symm.trans role

theorem sendCommitIndex_steady (rf : Raftserver) (r : GetCommitIndexReply) :
    Steady rf (rf.sendCommitIndex r).1 := by
  obtain heq | ⟨-, heq⟩ := sendCommitIndex_outcome rf r <;> rw [heq] <;>
    exact fun role => ⟨role, rfl, rfl, le_rfl⟩

theorem start_steady {command : Op} {result : Raftserver × Option (Int × Int)}
    (h : rf.start command = some result) : Steady rf result.1 := by
  obtain ⟨-, rfl⟩ | ⟨-, calls, hrf, -⟩ := start_outcome h
  · exact .refl rf
  · rw [hrf]
    refine fun role => ⟨role, rfl, rfl, ?_⟩
    rw [lastIndex, lastIndex, localToGlobal, localToGlobal, List.length_append]
    simp

end Raftserver

theorem Node.commitCheck_steady {node node' : Node} (h : node.commitCheck = some node') :
    node.rf.Steady node'.rf := by
  obtain ⟨applied, hrf⟩ := (Node.checks_of_commitCheck h).rf_eq
  rw [hrf]
  exact fun role => ⟨role, rfl, rfl, le_rfl⟩

namespace Raftserver

variable {rf rf' : Raftserver}

/-! ### The sections that move a next index -/

theorem Aimed.insert (aimed : rf.Aimed) {server : Nat} {next : Int} (hrole : rf'.role = rf.role)
    (hlast : rf'.lastIndex = rf.lastIndex)
    (hindex : rf'.nextIndex = rf.nextIndex.insert server next)
    (hnext : rf.role = .leader → next ≤ rf.lastIndex + 1) : rf'.Aimed := by
  intro role k
  rw [hrole] at role
  rw [hlast, hindex]
  by_cases hk : k = server
  · subst hk
    rw [IndexMap.get_insert_self]
    exact hnext role
  · rw [IndexMap.get_insert_ne _ _ hk]
    exact aimed role k

/-- A new leader starts at the end of its log, or at zero. -/
theorem collectVote_aimed (aimed : rf.Aimed) (hlast : -1 ≤ rf.lastIndex) (outTime : Bool) :
    (rf.collectVote outTime).Aimed := by
  rw [collectVote]
  split
  · exact aimed
  split
  · intro _ k
    obtain ⟨within, beyond⟩ := becomeLeader_lookup { rf with voteCount := rf.voteCount + 1 } k
    change IndexMap.get (becomeLeader { rf with voteCount := rf.voteCount + 1 }).nextIndex k ≤
      rf.lastIndex + 1
    rw [IndexMap.get]
    by_cases hk : k < keyBound rf.nextIndex
    · rw [(within hk).1]
      change rf.localToGlobal rf.log.length ≤ rf.lastIndex + 1
      rw [lastIndex, localToGlobal, localToGlobal]
      omega
    · rw [(beyond (not_lt.mp hk)).1]
      change 0 ≤ rf.lastIndex + 1
      omega
  · exact aimed

theorem snapshot_aimed {index : Int} {data : Bytes} (aimed : rf.Aimed)
    (h : rf.snapshot index data = some rf') : rf'.Aimed := by
  obtain ⟨-, rfl⟩ | ⟨hfirst, hlast, e, calls, -, heq⟩ := snapshot_outcome h
  · exact aimed
  · have cut := snapshot_cutAt hfirst hlast h
    intro role k
    subst heq
    change rf.nextIndex.get k ≤ _
    have := aimed role k
    have := cut.last.ge
    omega

theorem sendInstallSnapshotToServer_aimed {server : Nat} {reply : InstallSnapshotReply}
    (aimed : rf.Aimed) (hlast : rf.lastIncludedIndex ≤ rf.lastIndex)
    (h : rf.sendInstallSnapshotToServer server reply = some rf') : rf'.Aimed := by
  obtain ⟨-, observes⟩ | rfl := sendInstallSnapshotToServer_outcome h
  · exact aimed.steady observes.steady
  · refine aimed.insert rfl rfl rfl fun role => ?_
    have := aimed role server
    rw [localToGlobal]
    omega

theorem skipNewer_le {term : Int} {fuel : Nat} {k i : Int} (h : rf.skipNewer term fuel k = some i) :
    i ≤ k := by
  induction fuel generalizing k with
  | zero =>
      cases h
      exact le_rfl
  | succ fuel ih =>
      rw [skipNewer] at h
      split at h
      · obtain ⟨e, -, h⟩ := Option.bind_eq_some_iff.mp h
        split at h
        · have := ih h
          omega
        · cases h
          exact le_rfl
      · cases h
        exact le_rfl

/-- A refusal that stays within the leader's log. -/
theorem backtrack_le {server : Nat} {reply : AppendEntriesReply} {next : Int}
    (hnext : rf.nextIndex.get server ≤ rf.lastIndex + 1)
    (hlast : rf.lastIncludedIndex ≤ rf.lastIndex)
    (hlen : reply.xTerm = -1 → reply.xLen ≤ rf.lastIndex + 1)
    (hindex : reply.xIndex ≤ rf.lastIndex + 1) (h : rf.backtrack server reply = some next) :
    next ≤ rf.lastIndex + 1 := by
  rw [backtrack] at h
  split at h
  · rename_i hterm
    have := hlen hterm
    cases h
    split <;> omega
  · obtain ⟨i, hi, h⟩ := Option.bind_eq_some_iff.mp h
    have := skipNewer_le hi
    obtain ⟨e, -, rfl⟩ := Option.map_eq_some_iff.mp h
    split
    · omega
    split
    · omega
    split <;> omega

theorem sendAppendEntriesToServer_aimed {server : Nat} {args : AppendEntriesArgs}
    {reply : AppendEntriesReply} {result : Raftserver × Bool} (aimed : rf.Aimed)
    (hlast : rf.lastIncludedIndex ≤ rf.lastIndex)
    (success : rf.role = .leader → args.term = rf.currentTerm → reply.success = true →
      max (rf.matchIndex.get server) (args.prevLogIndex + args.entries.length) ≤ rf.lastIndex)
    (refused : rf.role = .leader → args.term = rf.currentTerm → reply.success = false →
      reply.term = rf.currentTerm →
        (reply.xTerm = -1 → reply.xLen ≤ rf.lastIndex + 1) ∧ reply.xIndex ≤ rf.lastIndex + 1)
    (h : rf.sendAppendEntriesToServer server args reply = some result) : result.1.Aimed := by
  obtain ⟨hterm, hsuccess, c, -, hrf⟩ | ⟨hterm, hfailed, hown, -, next, hnext, hrf⟩ | observes :=
    sendAppendEntriesToServer_outcome h
  · rw [hrf]
    refine aimed.insert rfl rfl rfl fun role => ?_
    have := success role hterm hsuccess
    omega
  · rw [hrf]
    refine aimed.insert rfl rfl rfl fun role => ?_
    obtain ⟨hlen, hindex⟩ := refused role hterm hfailed hown
    exact backtrack_le (aimed role server) hlast hlen hindex hnext
  · exact aimed.steady observes.steady

end Raftserver

/-! ### The steps after which a peer is in range -/

namespace Raftserver

variable (rf : Raftserver) (p : Nat)

/-- `SingleHeartBeat` reads an entry of the log for peer `p`. -/
def BeatInRange : Prop :=
  0 ≤ rf.globalToLocal (rf.nextIndex.get p - 1) ∧
    rf.globalToLocal (rf.nextIndex.get p - 1) ≤ rf.log.length - 1

instance : Decidable (rf.BeatInRange p) := inferInstanceAs (Decidable (_ ∧ _))

/-- The vote makes the node a leader. -/
def Wins (outTime : Bool) : Prop :=
  rf.voteCount ≤ (rf.peers.length / 2 : Nat) ∧ rf.electedBy outTime

instance (outTime : Bool) : Decidable (rf.Wins outTime) := inferInstanceAs (Decidable (_ ∧ _))

/-- A refusal that does not send the leader back to its snapshot: the length or the index that
the peer names is behind the snapshot, or the leader finds an entry of its own term before
the next index. -/
def RefusedAhead (reply : AppendEntriesReply) : Prop :=
  if reply.xTerm = -1 then
    rf.lastIncludedIndex < reply.xLen ∧ rf.lastIncludedTerm < reply.xLen
  else rf.lastIncludedIndex < reply.xIndex ∨
    (rf.entryAt (max (rf.nextIndex.get p - 1) rf.lastIncludedIndex)).map Entry.term =
      some rf.currentTerm

variable {rf p} {rf' : Raftserver}

theorem Aimed.beatInRange_iff (aimed : rf.Aimed) (role : rf.role = .leader) :
    rf.BeatInRange p ↔ rf.lastIncludedIndex < rf.nextIndex.get p := by
  have upper := aimed role p
  rw [lastIndex, localToGlobal] at upper
  rw [BeatInRange, globalToLocal]
  omega

theorem skipNewer_eq {term : Int} {fuel : Nat} {k i : Int}
    (older : ∀ e, rf.entryAt k = some e → e.term ≤ term)
    (h : rf.skipNewer term fuel k = some i) : i = k := by
  cases fuel with
  | zero =>
      cases h
      rfl
  | succ fuel =>
      rw [skipNewer] at h
      split at h
      · obtain ⟨e, he, h⟩ := Option.bind_eq_some_iff.mp h
        rw [if_neg (not_lt.mpr (older e he))] at h
        cases h
        rfl
      · cases h
        rfl

theorem collectVote_of_wins {outTime : Bool} (wins : rf.Wins outTime) :
    rf.collectVote outTime = becomeLeader { rf with voteCount := rf.voteCount + 1 } := by
  obtain ⟨few, elected⟩ := wins
  rw [collectVote, if_neg (not_lt.mpr few), if_pos elected]

theorem collectVote_of_not_wins {outTime : Bool} (lost : ¬ rf.Wins outTime) :
    ∃ count, rf.collectVote outTime = { rf with voteCount := count } := by
  rw [collectVote]
  split
  · exact ⟨rf.voteCount, rfl⟩
  · rename_i few
    rw [if_neg fun elected => lost ⟨not_lt.mp few, elected⟩]
    exact ⟨_, rfl⟩

/-- A new leader has a next index for the keys of its map, and zero for the others. -/
theorem becomeLeader_ahead_iff (filled : rf.lastIncludedIndex ≤ rf.lastIndex)
    (nonneg : 0 ≤ rf.lastIncludedIndex) :
    rf.becomeLeader.lastIncludedIndex < rf.becomeLeader.nextIndex.get p ↔
      p < keyBound rf.nextIndex := by
  obtain ⟨within, beyond⟩ := becomeLeader_lookup rf p
  change rf.lastIncludedIndex < IndexMap.get rf.becomeLeader.nextIndex p ↔ _
  rw [IndexMap.get]
  by_cases hp : p < keyBound rf.nextIndex
  · rw [(within hp).1]
    refine iff_of_true ?_ hp
    change _ < rf.localToGlobal rf.log.length
    rw [lastIndex, localToGlobal] at filled
    rw [localToGlobal]
    omega
  · rw [(beyond (not_lt.mp hp)).1]
    refine iff_of_false ?_ hp
    change ¬ _ < (0 : Int)
    omega

/-- What a node that still leads does with the reply to a message: it notes an acknowledgement,
goes back after a refusal, or ignores it. -/
theorem sendAppendEntriesToServer_next {server : Nat} {args : AppendEntriesArgs}
    {reply : AppendEntriesReply} {result : Raftserver × Bool}
    (h : rf.sendAppendEntriesToServer server args reply = some result)
    (role : result.1.role = .leader) :
    rf.role = .leader ∧ result.1.lastIncludedIndex = rf.lastIncludedIndex ∧
      ((args.term = rf.currentTerm ∧ reply.success = true ∧
          result.1.nextIndex = rf.nextIndex.insert server
            (max (rf.matchIndex.get server) (args.prevLogIndex + args.entries.length) + 1)) ∨
        (args.term = rf.currentTerm ∧ reply.success = false ∧ reply.term = rf.currentTerm ∧
          ∃ next, rf.backtrack server reply = some next ∧
            result.1.nextIndex = rf.nextIndex.insert server next) ∨
        ((args.term = rf.currentTerm → reply.success = false ∧ reply.term ≠ rf.currentTerm) ∧
          result.1.nextIndex = rf.nextIndex)) := by
  rw [sendAppendEntriesToServer] at h
  split at h
  · rename_i other
    cases h
    exact ⟨role, rfl, .inr (.inr ⟨fun same => absurd same other, rfl⟩)⟩
  rename_i hterm
  replace hterm := not_not.mp hterm
  split at h
  · rename_i success
    obtain ⟨c, -, rfl⟩ := Option.map_eq_some_iff.mp h
    exact ⟨role, rfl, .inl ⟨hterm, success, rfl⟩⟩
  rename_i refused
  replace refused := Bool.eq_false_iff.mpr refused
  split at h
  · obtain ⟨saved, -, rfl⟩ := Option.map_eq_some_iff.mp h
    cases role
  split at h
  · rename_i own
    obtain ⟨next, hnext, rfl⟩ := Option.map_eq_some_iff.mp h
    exact ⟨role, rfl, .inr (.inl ⟨hterm, refused, own.1, next, hnext, rfl⟩)⟩
  · rename_i other
    cases h
    exact ⟨role, rfl, .inr (.inr ⟨fun _ => ⟨refused, fun own => other ⟨own, role⟩⟩, rfl⟩)⟩

theorem sendInstallSnapshotToServer_next {server : Nat} {reply : InstallSnapshotReply}
    (h : rf.sendInstallSnapshotToServer server reply = some rf') (role : rf'.role = .leader) :
    rf' = { rf with
      nextIndex := rf.nextIndex.insert server
        (max (rf.localToGlobal 1) (rf.nextIndex.get server)) } := by
  rw [sendInstallSnapshotToServer] at h
  split at h
  · obtain ⟨calls, rfl⟩ := persist_eq h
    cases role
  · cases h
    rfl

/-- The loop finds nothing to skip, because no entry is newer than the leader. -/
theorem backtrack_ahead_iff {reply : AppendEntriesReply} {next : Int}
    (older : ∀ k e, rf.entryAt k = some e → e.term ≤ rf.currentTerm)
    (own : reply.term = rf.currentTerm) (h : rf.backtrack p reply = some next) :
    rf.lastIncludedIndex < next ↔ rf.RefusedAhead p reply := by
  rw [backtrack] at h
  rw [RefusedAhead]
  by_cases missing : reply.xTerm = -1
  · rw [if_pos missing] at h ⊢
    cases h
    split <;> omega
  rw [if_neg missing] at h ⊢
  obtain ⟨i, hi, h⟩ := Option.bind_eq_some_iff.mp h
  obtain ⟨e, he, rfl⟩ := Option.map_eq_some_iff.mp h
  cases skipNewer_eq (fun e he => own ▸ older _ e he) hi
  have old := older _ e he
  rw [he, Option.map_some, Option.some.injEq, if_neg (by omega), own]
  split
  · omega
  · split <;> omega

end Raftserver

namespace Cluster

variable {n : Nat} (s : Cluster n) (i : Fin n) (p : Nat)

/-- The steps of node `i` that set the next index of peer `p`. -/
def Resets : Action n → Prop
  | .collectVote j _ outTime => j = i ∧ (s.nodes i).rf.Wins outTime
  | .appendEntriesReply j r reply => j = i ∧ (r.server : Nat) = p ∧
      r.args.term = (s.nodes i).rf.currentTerm ∧
      (reply.success = true ∨ reply.term = (s.nodes i).rf.currentTerm)
  | .installSnapshotReply j r _ => j = i ∧ (r.server : Nat) = p
  | _ => False

/-- The steps that leave the next index of peer `p` behind the snapshot of node `i`: it is elected
with a key up to `p` in the map, an acknowledgement reaches the snapshot, a refusal does not
send the leader back to it, and a new snapshot stays below the next index. -/
def Covers : Action n → Prop
  | .collectVote j _ outTime => j = i → (s.nodes i).rf.Wins outTime →
      p < Raftserver.keyBound (s.nodes i).rf.nextIndex
  | .appendEntriesReply j r reply => j = i → (r.server : Nat) = p →
      (s.nodes i).rf.role = .leader → r.args.term = (s.nodes i).rf.currentTerm →
      if reply.success then (s.nodes i).rf.lastIncludedIndex ≤
        max ((s.nodes i).rf.matchIndex.get p) (r.args.prevLogIndex + r.args.entries.length)
      else reply.term = (s.nodes i).rf.currentTerm → (s.nodes i).rf.RefusedAhead p reply
  | .snapshot j index _ => j = i → (s.nodes i).rf.role = .leader →
      (s.nodes i).rf.lastIncludedIndex < index → index ≤ (s.nodes i).rf.commitIndex →
      index < (s.nodes i).rf.nextIndex.get p
  | _ => True

end Cluster

variable {n : Nat} {h h' : History n} {s t : Cluster n}

/-- What a step does to a node, as far as next indices go. -/
inductive Shifts (s : Cluster n) (i : Fin n) : Action n → Raftserver → Prop
  | steady {a : Action n} {rf : Raftserver} (calm : ∀ p, s.Covers i p a ∧ ¬ s.Resets i p a)
      (same : (s.nodes i).rf.Steady rf) : Shifts s i a rf
  | collectVote (r : Rpc n RequestVoteArgs) (outTime : Bool) :
      Shifts s i (.collectVote i r outTime) ((s.nodes i).rf.collectVote outTime)
  | appendEntriesReply {r : Rpc n AppendEntriesArgs} {reply : AppendEntriesReply}
      {result : Raftserver × Bool} (hr : (r, reply) ∈ s.appendReplies)
      (hresult : (s.nodes i).rf.sendAppendEntriesToServer r.server r.args reply = some result) :
      Shifts s i (.appendEntriesReply i r reply) result.1
  | installSnapshotReply {r : Rpc n InstallSnapshotArgs} {reply : InstallSnapshotReply}
      {rf : Raftserver}
      (hresult : (s.nodes i).rf.sendInstallSnapshotToServer r.server reply = some rf) :
      Shifts s i (.installSnapshotReply i r reply) rf
  | snapshot {index : Int} {data : Bytes} {rf : Raftserver}
      (hresult : (s.nodes i).rf.snapshot index data = some rf) :
      Shifts s i (.snapshot i index data) rf

/-- A refusal in the term of a leader names indices of the leader's log. -/
def Refusal (h : History n) (p : Rpc n AppendEntriesArgs × AppendEntriesReply) : Prop :=
  p.2.success = false → p.2.term = p.1.args.term →
    (p.2.xTerm = -1 → p.2.xLen ≤ (h.led p.1.args.term).length) ∧
      p.2.xIndex ≤ (h.led p.1.args.term).length

theorem Refusal.grow {p : Rpc n AppendEntriesArgs × AppendEntriesReply} (refusal : Refusal h p)
    (grows : Extends h h') : Refusal h' p := by
  intro refused hterm
  obtain ⟨hlen, hindex⟩ := refusal refused hterm
  have hle := (grows.led p.1.args.term).length_le
  exact ⟨fun hx => le_trans (hlen hx) (by omega), by omega⟩

/-- Every leader is aimed, and every refusal that is under way names indices that a leader
has. -/
structure Sends (h : History n) (s : Cluster n) : Prop where
  aimed : ∀ i, (s.nodes i).rf.Aimed
  replies : ∀ p ∈ s.appendReplies, Refusal h p

namespace NodeSim

variable {i : Fin n} {rf : Raftserver}

theorem included_le (node : NodeSim h i rf) : rf.lastIncludedIndex ≤ rf.lastIndex := by
  have hinside := node.window.inside
  rw [node.window.lastIndex]
  omega

/-- No entry is newer than the term of the node. -/
theorem older (sound : SoundHistory h) (node : NodeSim h i rf) (k : Int) (e : Entry)
    (he : rf.entryAt k = some e) : e.term ≤ rf.currentTerm := by
  rw [← node.term]
  exact sound.log_stamp i e (List.mem_of_getElem? (node.window.entryAt.mp he).2)

/-- What a follower has committed is in the log of the leader that sent the message. -/
theorem commit_lt_led (sound : SoundHistory h) (node : NodeSim h i rf) {t : Int}
    (hterm : rf.currentTerm ≤ t) (hleader : h.leader t ≠ none) :
    rf.commitIndex < (h.led t).length := by
  have hprefix := (Committed.prefix_led sound Majority.intersect node.committed hterm
    hleader).length_le
  have hcommit := node.commit
  have hnonneg := node.commit_nonneg
  rw [List.length_take] at hprefix
  omega

end NodeSim

namespace Sends

/-- The refusals that a follower sends. -/
theorem refusal (sim : Sim h s) {r : Rpc n AppendEntriesArgs} (sent : AppendSent h r)
    {result : Raftserver × AppendEntriesReply}
    (hresult : (s.nodes r.server).rf.appendEntries r.args = some result) :
    Refusal h (r, result.2) := by
  intro refused hterm
  dsimp only at refused hterm ⊢
  have node := sim.nodes r.server
  obtain ⟨c, -, -, hleader⟩ := sent.leader
  obtain ⟨e, he, -⟩ := sent.prev
  have hnonneg := sent.nonneg
  have hprev := (List.getElem?_eq_some_iff.mp he).1
  obtain ⟨hold, hsame⟩ | ⟨hcurrent, observed, hobserved, outcome⟩ :=
    Raftserver.appendEntries_outcome hresult
  · rw [hsame] at hterm
    dsimp only at hterm
    omega
  obtain ⟨reply, hrefusal, rfl⟩ | ⟨-, haccept⟩ := outcome
  swap
  · cases refused.symm.trans (Raftserver.acceptEntries_success haccept)
  have quiet := (Raftserver.observeLeader_observes hobserved).quiet
  have window := node.window.congr quiet.log quiet.includedIndex
  have hcommit := node.commit_lt_led sim.sound hcurrent (by simp [hleader])
  have hincluded := node.included
  obtain ⟨-, -, ⟨hend, hindex, hlen⟩ | ⟨hbehind, hindex, hlen⟩ | ⟨a, ha, hxTerm, -, hindex⟩⟩ :=
    Raftserver.checkPrev_refusal hrefusal
  · rw [window.localToGlobal_length] at hend hlen
    dsimp only
    omega
  · rw [quiet.includedIndex] at hlen
    dsimp only
    omega
  · -- the term of an entry is the term of a leader, or zero
    have hentry := (window.entryAt.mp ha).2
    have horigin := sim.sound.log_origin r.server _ a hentry
    have hlt := (List.getElem?_eq_some_iff.mp hentry).1
    have hfirst : 0 ≤ a.term := by
      refine sim.sound.led_first fun hnil => ?_
      rw [hnil, List.take_nil, List.take_eq_nil_iff] at horigin
      rcases horigin with hzero | hempty
      · omega
      · rw [hempty] at hlt
        exact absurd hlt (Nat.not_lt_zero _)
    refine ⟨fun hminus => ?_, ?_⟩
    · dsimp only at hminus
      omega
    · dsimp only
      omega

/-- What a leader learns from a reply to a message of its own term. -/
theorem appendEntriesReply (sends : Sends h s) (sim : Sim h s) {i : Fin n}
    {r : Rpc n AppendEntriesArgs} {reply : AppendEntriesReply} {result : Raftserver × Bool}
    (hr : (r, reply) ∈ s.appendReplies)
    (hresult : (s.nodes i).rf.sendAppendEntriesToServer r.server r.args reply = some result) :
    result.1.Aimed := by
  have node := sim.nodes i
  have hlast := node.window.lastIndex
  obtain ⟨sent, acked⟩ := sim.traffic.appendReplies _ hr
  refine Raftserver.sendAppendEntriesToServer_aimed (sends.aimed i) node.included_le ?_ ?_ hresult
  · intro role hterm success
    have hled := node.led role
    have hcommit := node.commit
    have hmatch := node.matched role r.server
    have hacked := sim.sound.acked_le r.server (s.nodes i).rf.currentTerm
    have hnew := acked success
    dsimp only at hnew
    rw [hterm] at hnew
    rw [hled] at hacked
    omega
  · intro role hterm refused hreply
    obtain ⟨hlen, hindex⟩ := sends.replies _ hr refused (hreply.trans hterm.symm)
    dsimp only at hlen hindex
    rw [hterm, node.led role] at hlen hindex
    exact ⟨fun hx => by have := hlen hx; omega, by omega⟩

end Sends

namespace Shifts

theorem setNode {a : Action n} {j : Fin n} {node : Node}
    (calm : ∀ i, i ≠ j → ∀ p, s.Covers i p a ∧ ¬ s.Resets i p a) (moved : Shifts s j a node.rf)
    (i : Fin n) : Shifts s i a ((s.setNode j node).nodes i).rf :=
  Cluster.setNode_cases i moved fun hi => .steady (calm i hi) (.refl _)

theorem of_step {a : Action n} (hstep : s.step a = some t) :
    (∀ i, Shifts s i a (t.nodes i).rf) ∧
      ∀ p ∈ t.appendReplies, p ∈ s.appendReplies ∨ (p.1 ∈ s.appendReqs ∧
        ∃ rf, (s.nodes p.1.server).rf.appendEntries p.1.args = some (rf, p.2)) := by
  have free {a : Action n} {j : Fin n} {node : Node} (same : (s.nodes j).rf.Steady node.rf)
      (calm : ∀ i p, s.Covers i p a ∧ ¬ s.Resets i p a := by exact fun _ _ => ⟨trivial, id⟩) :
      ∀ i, Shifts s i a ((s.setNode j node).nodes i).rf :=
    setNode (fun i _ => calm i) (.steady (calm j) same)
  have idle {a : Action n}
      (calm : ∀ i p, s.Covers i p a ∧ ¬ s.Resets i p a := by exact fun _ _ => ⟨trivial, id⟩)
      (i : Fin n) : Shifts s i a (s.nodes i).rf := .steady (calm i) (.refl _)
  have kept : ∀ p ∈ s.appendReplies, p ∈ s.appendReplies ∨ (p.1 ∈ s.appendReqs ∧
      ∃ rf, (s.nodes p.1.server).rf.appendEntries p.1.args = some (rf, p.2)) := fun _ => .inl
  cases a with
  | ticker j =>
      obtain ⟨-, rfl⟩ := enabled_some.mp hstep
      exact ⟨free (.refl _), kept⟩
  | startElection j =>
      obtain ⟨-, result, hresult, rfl⟩ := enabled_map.mp hstep
      exact ⟨free (Raftserver.startElection_steady hresult), kept⟩
  | requestVote r =>
      obtain ⟨-, result, hresult, rfl⟩ := enabled_map.mp hstep
      exact ⟨free (Raftserver.requestVote_steady hresult), kept⟩
  | procVoteAnswer j r reply =>
      obtain ⟨-, result, hresult, rfl⟩ := enabled_map.mp hstep
      exact ⟨free (Raftserver.procVoteAnswer_steady hresult), kept⟩
  | collectVote j r outTime =>
      obtain ⟨-, rfl⟩ := enabled_some.mp hstep
      exact ⟨setNode (fun i hi _ => ⟨fun same => absurd same.symm hi, fun own => hi own.1.symm⟩)
        (.collectVote r outTime), kept⟩
  | startSendAppendEntries j =>
      obtain ⟨-, calls, -, rfl⟩ := enabled_map.mp hstep
      exact ⟨idle, kept⟩
  | sendAppendEntries j r =>
      obtain ⟨-, rfl⟩ := enabled_some.mp hstep
      exact ⟨idle, kept⟩
  | appendEntries r =>
      obtain ⟨hr, result, hresult, rfl⟩ := enabled_map.mp hstep
      exact ⟨free (Raftserver.appendEntries_steady hresult),
        List.forall_mem_cons.mpr ⟨.inr ⟨hr, result.1, hresult⟩, kept⟩⟩
  | appendEntriesReply j r reply =>
      obtain ⟨⟨hr, -⟩, result, hresult, rfl⟩ := enabled_map.mp hstep
      exact ⟨setNode (fun i hi _ => ⟨fun same => absurd same.symm hi, fun own => hi own.1.symm⟩)
        (.appendEntriesReply hr hresult), kept⟩
  | sendInstallSnapshot j k =>
      obtain ⟨-, args, -, rfl⟩ := enabled_map.mp hstep
      exact ⟨idle, kept⟩
  | installSnapshot r =>
      obtain ⟨-, ⟨rf, reply, msg⟩, hresult, rfl⟩ := enabled_map.mp hstep
      have moved := Raftserver.installSnapshot_steady hresult
      cases msg with
      | none => exact ⟨free moved, kept⟩
      | some msg => exact ⟨free moved, kept⟩
  | installSnapshotSend j task =>
      obtain ⟨-, node, hsent, rfl⟩ := enabled_map.mp hstep
      obtain ⟨-, rfl⟩ := enabled_some.mp hsent
      exact ⟨free (.refl _), kept⟩
  | installSnapshotDone j task =>
      obtain ⟨-, rf, hsaved, rfl⟩ := enabled_map.mp hstep
      exact ⟨free (Raftserver.persist_steady hsaved), kept⟩
  | installSnapshotReply j r reply =>
      obtain ⟨-, rf, hresult, rfl⟩ := enabled_map.mp hstep
      exact ⟨setNode (fun i hi _ => ⟨trivial, fun own => hi own.1.symm⟩)
        (.installSnapshotReply hresult), kept⟩
  | singleHeartBeat j =>
      obtain ⟨-, beats, -, rfl⟩ := enabled_map.mp hstep
      exact ⟨idle, kept⟩
  | heartBeat r =>
      obtain ⟨-, result, hresult, rfl⟩ := enabled_map.mp hstep
      exact ⟨free (Raftserver.appendEntries_steady hresult), kept⟩
  | sendCommitIndex j =>
      obtain ⟨r, rfl⟩ := Cluster.step_sendCommitIndex hstep
      exact ⟨idle, kept⟩
  | commitIndexReply j r =>
      obtain ⟨-, rfl⟩ := enabled_some.mp hstep
      exact ⟨free (Raftserver.sendCommitIndex_steady _ r), kept⟩
  | start j command =>
      obtain ⟨result, hresult, rfl⟩ := Option.map_eq_some_iff.mp hstep
      exact ⟨free (Raftserver.start_steady hresult), kept⟩
  | snapshot j index data =>
      obtain ⟨rf, hresult, rfl⟩ := Option.map_eq_some_iff.mp hstep
      exact ⟨setNode (fun i hi _ => ⟨fun same => absurd same.symm hi, id⟩) (.snapshot hresult), kept⟩
  | commitCheck j =>
      obtain ⟨node, hnext, rfl⟩ := Option.map_eq_some_iff.mp hstep
      exact ⟨free (Node.commitCheck_steady hnext), kept⟩
  | applyHandler j =>
      obtain ⟨msg, rest, -, rfl⟩ := Cluster.step_applyHandler hstep
      exact ⟨free (.refl _), kept⟩

variable {i : Fin n} {a : Action n} {rf : Raftserver}

theorem aimed (shifts : Shifts s i a rf) (sends : Sends h s) (sim : Sim h s) : rf.Aimed := by
  have before := sends.aimed i
  have hlast := (sim.nodes i).included_le
  cases shifts with
  | steady _ same => exact before.steady same
  | collectVote r outTime =>
      have hnonneg := (sim.nodes i).window.nonneg
      exact Raftserver.collectVote_aimed before (by omega) outTime
  | appendEntriesReply hr hresult => exact sends.appendEntriesReply sim hr hresult
  | installSnapshotReply hresult =>
      exact Raftserver.sendInstallSnapshotToServer_aimed before hlast hresult
  | snapshot hresult => exact Raftserver.snapshot_aimed before hresult

/-- A node that was no leader has won an election. -/
theorem resets (shifts : Shifts s i a rf) (role : rf.role = .leader)
    (before : (s.nodes i).rf.role ≠ .leader) (p : Nat) : s.Resets i p a := by
  cases shifts with
  | steady _ same => exact absurd (same role).1 before
  | collectVote r outTime =>
      by_cases wins : (s.nodes i).rf.Wins outTime
      · exact ⟨rfl, wins⟩
      · obtain ⟨count, same⟩ := Raftserver.collectVote_of_not_wins wins
        rw [same] at role
        exact absurd role before
  | appendEntriesReply hr hresult =>
      exact absurd (Raftserver.sendAppendEntriesToServer_next hresult role).1 before
  | installSnapshotReply hresult =>
      cases Raftserver.sendInstallSnapshotToServer_next hresult role
      exact absurd role before
  | snapshot hresult =>
      obtain ⟨-, rfl⟩ | ⟨-, -, e, calls, -, rfl⟩ := Raftserver.snapshot_outcome hresult <;>
        exact absurd role before

/-- After the step the next index is behind the snapshot exactly if the step covers the peer. -/
theorem ahead_iff (shifts : Shifts s i a rf) (sim : Sim h s) (role : rf.role = .leader) {p : Nat}
    (known : ((s.nodes i).rf.role = .leader ∧
      (s.nodes i).rf.lastIncludedIndex < (s.nodes i).rf.nextIndex.get p) ∨ s.Resets i p a) :
    rf.lastIncludedIndex < rf.nextIndex.get p ↔ s.Covers i p a := by
  have node := sim.nodes i
  cases shifts with
  | steady calm same =>
      obtain ⟨-, next, included, -⟩ := same role
      have ahead := (known.resolve_right (calm p).2).2
      rw [next, included]
      exact iff_of_true ahead (calm p).1
  | collectVote r outTime =>
      by_cases wins : (s.nodes i).rf.Wins outTime
      · rw [Raftserver.collectVote_of_wins wins]
        refine (Raftserver.becomeLeader_ahead_iff (by exact node.included_le)
          (by exact node.window.nonneg)).trans ?_
        exact ⟨fun key _ _ => key, fun covers => covers rfl wins⟩
      · obtain ⟨count, same⟩ := Raftserver.collectVote_of_not_wins wins
        rw [same]
        have ahead := (known.resolve_right fun own => wins own.2).2
        exact iff_of_true ahead fun _ won => absurd won wins
  | @appendEntriesReply r reply result hr hresult =>
      obtain ⟨before, included, moved⟩ := Raftserver.sendAppendEntriesToServer_next hresult role
      rw [included]
      by_cases other : (r.server : Nat) = p
      swap
      · -- the reply of another peer
        have ahead := (known.resolve_right fun own => other own.2.1).2
        refine iff_of_true ?_ fun _ same => absurd same other
        obtain ⟨-, -, next⟩ | ⟨-, -, -, k, -, next⟩ | ⟨-, next⟩ := moved <;> rw [next]
        · rwa [IndexMap.get_insert_ne _ _ (Ne.symm other)]
        · rwa [IndexMap.get_insert_ne _ _ (Ne.symm other)]
        · exact ahead
      subst other
      obtain ⟨hterm, success, next⟩ | ⟨hterm, refused, own, k, hk, next⟩ | ⟨ignored, next⟩ := moved
      · rw [next, IndexMap.get_insert_self, Cluster.Covers]
        simp only [success, if_true, hterm, before, forall_const]
        omega
      · rw [next, IndexMap.get_insert_self, Raftserver.backtrack_ahead_iff (node.older sim.sound) own hk,
          Cluster.Covers]
        simp [refused, own, hterm, before]
      · rw [next]
        refine iff_of_true (known.resolve_right ?_).2 ?_
        · rintro ⟨-, -, hterm, answered⟩
          obtain ⟨refused, other⟩ := ignored hterm
          rcases answered with success | own
          · cases refused.symm.trans success
          · exact other own
        · intro _ _ _ hterm
          obtain ⟨refused, other⟩ := ignored hterm
          rw [if_neg (by rw [refused]; decide)]
          exact fun own => absurd own other
  | @installSnapshotReply r reply rf' hresult =>
      cases Raftserver.sendInstallSnapshotToServer_next hresult role
      refine iff_of_true ?_ trivial
      dsimp only
      by_cases other : (r.server : Nat) = p
      · subst other
        rw [IndexMap.get_insert_self, Raftserver.localToGlobal]
        omega
      · rw [IndexMap.get_insert_ne _ _ (Ne.symm other)]
        exact (known.resolve_right fun own => other own.2).2
  | snapshot hresult =>
      obtain ⟨-, ahead⟩ := known.resolve_right id
      obtain ⟨refused, rfl⟩ | ⟨hfirst, hlast, e, calls, -, rfl⟩ :=
        Raftserver.snapshot_outcome hresult
      · refine iff_of_true ahead fun _ _ hfirst hlast => ?_
        omega
      · exact ⟨fun below _ _ _ _ => below, fun covers => covers rfl role hfirst hlast⟩

end Shifts

namespace Sends

/-- One step, seen with the history before it. -/
theorem before_step (sends : Sends h s) (sim : Sim h s) {a : Action n}
    (hstep : s.step a = some t) : Sends h t := by
  obtain ⟨shifts, replies⟩ := Shifts.of_step hstep
  refine ⟨fun i => (shifts i).aimed sends sim, fun p hp => ?_⟩
  obtain old | ⟨hr, rf, hresult⟩ := replies p hp
  · exact sends.replies p old
  · exact refusal sim (sim.traffic.appendReqs p.1 hr) hresult

theorem grow (sends : Sends h s) (grows : Extends h h') : Sends h' s :=
  ⟨sends.aimed, fun p hp => (sends.replies p hp).grow grows⟩

theorem of_reaches (hn : Odd n)
    (reached : Library.Reaches Cluster.step Guarded (Cluster.init n) s) :
    ∃ h, Sim h s ∧ Sends h s := by
  have first : Sends (History.first n) (Cluster.init n) := by
    refine ⟨fun i role => ?_, fun p hp => absurd hp List.not_mem_nil⟩
    have follower : ((Cluster.init n).nodes i).rf.role = .follower := rfl
    rw [follower] at role
    cases role
  refine (reached.invariant (I := fun s => s.VoteInv ∧ ∃ h, Sim h s ∧ Sends h s)
    ⟨Cluster.voteInv_init n, _, sim_init n, first⟩ ?_).2
  rintro s a t - ⟨inv, h, sim, sends⟩ guarded taken
  obtain ⟨h', grows, sim'⟩ := sim.step hn inv guarded taken
  have sends' := (sends.before_step sim taken).grow grows
  exact ⟨inv.step hn guarded.countsOwnTerm taken, h', sim', sends'⟩

end Sends

theorem Raftserver.BeatInRange.singleHeartBeat {rf : Raftserver} {x : List Entry} {p : Nat}
    (range : rf.BeatInRange p) (window : rf.Window x) : (rf.singleHeartBeat p).isSome := by
  obtain ⟨lower, upper⟩ := range
  have length : rf.log.length = (x.drop rf.lastIncludedIndex.toNat).length := by
    rw [window.log, List.length_map]
  rw [Raftserver.singleHeartBeat, Option.isSome_map, entryAt, window.log, deref_map_some, if_pos lower,
    List.getElem?_eq_getElem (by omega)]
  rfl

/-- **Where `SingleHeartBeat` reads.** From any state of a guarded run in which node `i` does not
lead, or reads an entry for peer `p`, it reads an entry for `p` whenever it leads, as long as
every step covers the peer. A step that does not cover it puts the peer out of range, and a
step that sets its next index puts it in range exactly if it covers it. -/
theorem heartbeat_in_range (hn : Odd n)
    (reached : Library.Reaches Cluster.step Guarded (Cluster.init n) s) (i : Fin n) (p : Nat) :
    (((s.nodes i).rf.role = .leader → (s.nodes i).rf.BeatInRange p) →
      ∀ t, Library.Reaches Cluster.step (fun s a => Guarded s a ∧ s.Covers i p a) s t →
        (t.nodes i).rf.role = .leader →
        (t.nodes i).rf.BeatInRange p ∧ ((t.nodes i).rf.singleHeartBeat p).isSome) ∧
    ∀ a t, Guarded s a → s.step a = some t → (t.nodes i).rf.role = .leader →
      (((s.nodes i).rf.role = .leader ∧ (s.nodes i).rf.BeatInRange p) ∨ s.Resets i p a) →
      ((t.nodes i).rf.BeatInRange p ↔ s.Covers i p a) := by
  have one {s : Cluster n} (reached : Library.Reaches Cluster.step Guarded (Cluster.init n) s)
      {a : Action n} {t : Cluster n} (guarded : Guarded s a) (hstep : s.step a = some t)
      (role : (t.nodes i).rf.role = .leader)
      (known : ((s.nodes i).rf.role = .leader ∧ (s.nodes i).rf.BeatInRange p) ∨ s.Resets i p a) :
      (t.nodes i).rf.BeatInRange p ↔ s.Covers i p a := by
    obtain ⟨h, sim, sends⟩ := Sends.of_reaches hn reached
    obtain ⟨h', -, sends'⟩ := Sends.of_reaches hn (reached.tail guarded hstep)
    rw [(sends'.aimed i).beatInRange_iff role]
    refine ((Shifts.of_step hstep).1 i).ahead_iff sim role (known.imp_left ?_)
    rintro ⟨before, range⟩
    exact ⟨before, ((sends.aimed i).beatInRange_iff before).mp range⟩
  refine ⟨?_, fun a t guarded hstep => one reached guarded hstep⟩
  intro start t later role
  have guardedRun {t : Cluster n}
      (later : Library.Reaches Cluster.step (fun s a => Guarded s a ∧ s.Covers i p a) s t) :
      Library.Reaches Cluster.step Guarded (Cluster.init n) t :=
    reached.trans (later.mono fun _ _ both => both.1)
  have range := later.invariant (I := fun t => (t.nodes i).rf.role = .leader →
    (t.nodes i).rf.BeatInRange p) start ?_ role
  · obtain ⟨h, sim, -⟩ := Sends.of_reaches hn (guardedRun later)
    exact ⟨range, range.singleHeartBeat (sim.nodes i).window⟩
  · rintro s' a t' run range ⟨guarded, covers⟩ hstep role
    refine (one (guardedRun run) guarded hstep role ?_).mpr covers
    by_cases before : (s'.nodes i).rf.role = .leader
    · exact .inl ⟨before, range before⟩
    · exact .inr (((Shifts.of_step hstep).1 i).resets role before p)

/-- Node zero has an acknowledgement of node two and takes one more command. -/
theorem heartbeat_in_range_together :
    ∃ s t : Cluster 3, Library.Reaches Cluster.step Guarded (Cluster.init 3) s ∧
      s.step (.start 0 (command 1 2)) = some t ∧ (t.nodes 0).rf.role = .leader ∧
      (t.nodes 0).rf.BeatInRange 2 ∧ ¬ (t.nodes 0).rf.BeatInRange 1 := by
  obtain ⟨s, reached, range, next⟩ : ∃ s : Cluster 3,
      Library.Reaches Cluster.step Guarded (Cluster.init 3) s ∧ (s.nodes 0).rf.BeatInRange 2 ∧
        ((s.step (.start 0 (command 1 2))).any fun t =>
          decide ((t.nodes 0).rf.role = .leader ∧ ¬ (t.nodes 0).rf.BeatInRange 1)) = true :=
    Library.exists_reaches _ commitTogether (by decide +kernel) (by decide +kernel)
  obtain ⟨t, taken, facts⟩ := (Option.any_eq_true _ _).mp next
  obtain ⟨role, missing⟩ := of_decide_eq_true facts
  have kept := (heartbeat_in_range (by decide) reached 0 2).1 (fun _ => range) t
    (.tail .refl (by exact ⟨trivial, trivial⟩) taken) role
  exact ⟨s, t, reached, taken, role, kept.1, missing⟩

/-- The first leader answers a read: for each of its peers it reads position `-1`. -/
theorem heartbeat_before_the_log :
    ∃ s : Cluster 3, Library.Reachable Cluster.step (Cluster.init 3) s ∧
      (s.nodes 0).rf.role = .leader ∧ (s.nodes 0).rf.peers = [1, 2] ∧
      ∀ p ∈ (s.nodes 0).rf.peers,
        (s.nodes 0).rf.globalToLocal ((s.nodes 0).rf.nextIndex.get p - 1) = -1 ∧
        ((s.nodes 0).rf.singleHeartBeat p).isNone :=
  Library.exists_reachable (fun s : Cluster 3 =>
    (s.nodes 0).rf.role = .leader ∧ (s.nodes 0).rf.peers = [1, 2] ∧
      ∀ p ∈ (s.nodes 0).rf.peers,
        (s.nodes 0).rf.globalToLocal ((s.nodes 0).rf.nextIndex.get p - 1) = -1 ∧
        ((s.nodes 0).rf.singleHeartBeat p).isNone)
    (win 0 2 (Cluster.firstBallot 1 0)) (by decide +kernel)

end RaftKv.Raft
