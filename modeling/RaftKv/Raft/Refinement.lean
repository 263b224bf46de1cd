import RaftKv.Library.LedgerSteps
import RaftKv.Raft.Election
import RaftKv.Raft.Leader

/-!
# The cluster as a replicated ledger

The ledger of a cluster is what the protocol is about: terms, full logs, leaders and
acknowledgements. `Sim` says that a cluster state is an implementation of one: every
node holds a window of its full log, its commit index is within an agreed prefix,
a leader's match indices are acknowledgements, and every message on the wire tells
the truth about the log of the leader that sent it.

Nothing that was sent becomes false when the ledger grows, so each section of the
code only has to be looked at where it runs.
-/

namespace RaftKv.Raft

open Library Library.Ledger

variable {n : Nat}

abbrev History (n : Nat) := Ledger (Fin n) Int Entry

/-- More than half of the cluster. -/
def Majority (n : Nat) (A : Set (Fin n)) : Prop :=
  ∃ Q : Finset (Fin n), (∀ v ∈ Q, v ∈ A) ∧ n < 2 * Q.card

theorem Majority.intersect (A B : Set (Fin n)) (hA : Majority n A) (hB : Majority n B) :
    ∃ v, v ∈ A ∧ v ∈ B := by
  obtain ⟨Q, hQA, hQ⟩ := hA
  obtain ⟨R, hRB, hR⟩ := hB
  have hcard : (Finset.univ : Finset (Fin n)).card < Q.card + R.card := by
    rw [Finset.card_univ, Fintype.card_fin]
    omega
  obtain ⟨v, hv⟩ := Finset.inter_nonempty_of_card_lt_card_add_card (Finset.subset_univ Q)
    (Finset.subset_univ R) hcard
  obtain ⟨hvQ, hvR⟩ := Finset.mem_inter.mp hv
  exact ⟨v, hQA v hvQ, hRB v hvR⟩

/-- Every log starts with the placeholder of index zero. -/
def root : List Entry := [{}]

abbrev SoundHistory (h : History n) : Prop := Sound Entry.term (Majority n) 0 root h

/-- `x` is committed, as far as terms up to `t` can tell. -/
abbrev Agreed (h : History n) (t : Int) (x : List Entry) : Prop :=
  Committed Entry.term (Majority n) root h t x

structure NodeSim (h : History n) (i : Fin n) (rf : Raftserver) : Prop where
  term : h.term i = rf.currentTerm
  window : rf.Window (h.log i)
  included : rf.lastIncludedIndex ≤ rf.commitIndex
  commit : rf.commitIndex < (h.log i).length
  committed : Agreed h rf.currentTerm ((h.log i).take (rf.commitIndex.toNat + 1))
  includedTerm : ((h.log i)[rf.lastIncludedIndex.toNat]?).map Entry.term = some rf.lastIncludedTerm
  leads : rf.role = .leader ↔ h.leader rf.currentTerm = some i
  led : rf.role = .leader → h.led rf.currentTerm = h.log i
  self : rf.role = .leader → (h.log i).length ≤ h.acked i rf.currentTerm
  matched : rf.role = .leader → ∀ p : Fin n, rf.matchIndex.get p ≤ rf.commitIndex ∨
    rf.matchIndex.get p + 1 ≤ h.acked p rf.currentTerm
  keys : ∀ k ∈ rf.matchIndex, k ∈ rf.nextIndex

/-- An `AppendEntries` message is a piece of its sender's log. -/
structure AppendSent (h : History n) (r : Rpc n AppendEntriesArgs) : Prop where
  leader : ∃ c : Fin n, r.args.leaderId = c ∧ c ≠ r.server ∧ h.leader r.args.term = some c
  nonneg : 0 ≤ r.args.prevLogIndex
  prev : ∃ e, (h.led r.args.term)[r.args.prevLogIndex.toNat]? = some e ∧
    e.term = r.args.prevLogTerm
  entries : r.args.entries <+: (h.led r.args.term).drop (r.args.prevLogIndex.toNat + 1)
  inside : r.args.leaderCommit < (h.led r.args.term).length
  commit : Agreed h r.args.term ((h.led r.args.term).take (r.args.leaderCommit.toNat + 1))

/-- An `InstallSnapshot` message names a committed entry of its sender's log. -/
structure InstallSent (h : History n) (r : Rpc n InstallSnapshotArgs) : Prop where
  leader : ∃ c : Fin n, r.args.leaderId = c ∧ c ≠ r.server ∧ h.leader r.args.term = some c
  nonneg : 0 ≤ r.args.lastIncludedIndex
  entry : ∃ e, (h.led r.args.term)[r.args.lastIncludedIndex.toNat]? = some e ∧
    e.term = r.args.lastIncludedTerm
  commit : Agreed h r.args.term ((h.led r.args.term).take (r.args.lastIncludedIndex.toNat + 1))

/-- A positive reply: the server holds the log up to the last entry sent. -/
def Acknowledged (h : History n) (r : Rpc n AppendEntriesArgs) (reply : AppendEntriesReply) :
    Prop :=
  reply.success = true →
    r.args.prevLogIndex + r.args.entries.length + 1 ≤ h.acked r.server r.args.term

/-- A command handed to the service is the one at its index in an agreed prefix. -/
def MsgAgreed (h : History n) (msg : ApplyMsg) : Prop :=
  msg.commandValid = true → ∃ t x e, Agreed h t x ∧ 0 ≤ msg.commandIndex ∧
    x[msg.commandIndex.toNat]? = some e ∧ e.command = msg.command

def Checker.messages : Checker → List ApplyMsg
  | .waiting => []
  | .checking buffer => buffer
  | .sending msg _ rest => msg :: rest
  | .sent msg _ rest => msg :: rest

/-- Everything the node has sent on `applyCh`, or is about to send. -/
def Node.messages (node : Node) : List ApplyMsg :=
  node.checker.messages ++ node.installing.map (·.2.2) ++ node.delivered

structure Traffic (h : History n) (s : Cluster n) : Prop where
  appendCalls : ∀ r ∈ s.appendCalls, AppendSent h r
  appendReqs : ∀ r ∈ s.appendReqs, AppendSent h r
  appendReplies : ∀ p ∈ s.appendReplies, AppendSent h p.1 ∧ Acknowledged h p.1 p.2
  beatReqs : ∀ r ∈ s.beatReqs, AppendSent h r
  installCalls : ∀ p ∈ s.installCalls, p.1 ≠ p.2
  installReqs : ∀ r ∈ s.installReqs, InstallSent h r
  messages : ∀ i, ∀ msg ∈ (s.nodes i).messages, MsgAgreed h msg
  promoted : ∀ t c, h.leader t = some c → (c, t) ∈ s.promoted

/-- The vote request describes log `w`. -/
def Describes (args : RequestVoteArgs) (w : List Entry) : Prop :=
  args.lastLogIndex + 1 = w.length ∧ w.getLast?.map Entry.term = some args.lastLogTerm

/-- A voter with log `w` finds the request up to date. -/
def Passes (args : RequestVoteArgs) (w : List Entry) : Prop :=
  ∃ b, w.getLast? = some b ∧ (b.term < args.lastLogTerm ∨
    b.term = args.lastLogTerm ∧ (w.length : Int) ≤ args.lastLogIndex + 1)

/-- As long as a term has no leader, its votes are on record with the logs they
were given with, and the logs of its candidates have not changed. -/
structure Ballots (h : History n) (s : Cluster n) : Prop where
  ballot : ∀ r ∈ s.voteReqs, ∀ c : Fin n, r.args.candidateId = some (c : Nat) →
    h.leader r.args.term = none → ∃ w, h.voted c r.args.term = some w ∧
      Describes r.args w ∧ (∀ e ∈ w, e.term < r.args.term) ∧
      (h.term c = r.args.term → h.log c = w)
  grant : ∀ p ∈ s.voteReplies, p.2.voteGranted = true → h.leader p.1.args.term = none →
    ∃ w, h.voted p.1.server p.1.args.term = some w ∧ Passes p.1.args w

structure Sim (h : History n) (s : Cluster n) : Prop where
  sound : SoundHistory h
  nodes : ∀ i, NodeSim h i (s.nodes i).rf
  traffic : Traffic h s
  ballots : Ballots h s

/-! ## Growing the ledger -/

section Growth

variable {h h' : History n}

theorem AppendSent.grow {r : Rpc n AppendEntriesArgs} (sent : AppendSent h r)
    (grows : Extends h h') : AppendSent h' r := by
  obtain ⟨c, hc, hne, hleader⟩ := sent.leader
  obtain ⟨e, he, hterm⟩ := sent.prev
  have hled := grows.led r.args.term
  refine ⟨⟨c, hc, hne, grows.leader _ c hleader⟩, sent.nonneg,
    ⟨e, prefix_getElem? hled he, hterm⟩, sent.entries.trans (hled.drop _), ?_, ?_⟩
  · have hlen := hled.length_le
    have hin := sent.inside
    omega
  · have hin := sent.inside
    have hprev := (List.getElem?_eq_some_iff.mp he).1
    rw [grows.take_led (by omega)]
    exact grows.committed sent.commit le_rfl

theorem InstallSent.grow {r : Rpc n InstallSnapshotArgs} (sent : InstallSent h r)
    (grows : Extends h h') : InstallSent h' r := by
  obtain ⟨c, hc, hne, hleader⟩ := sent.leader
  obtain ⟨e, he, hterm⟩ := sent.entry
  refine ⟨⟨c, hc, hne, grows.leader _ c hleader⟩, sent.nonneg,
    ⟨e, prefix_getElem? (grows.led _) he, hterm⟩, ?_⟩
  have hin := (List.getElem?_eq_some_iff.mp he).1
  rw [grows.take_led (by omega)]
  exact grows.committed sent.commit le_rfl

theorem Acknowledged.grow {r : Rpc n AppendEntriesArgs} {reply : AppendEntriesReply}
    (acked : Acknowledged h r reply) (grows : Extends h h') : Acknowledged h' r reply := by
  intro success
  have hle := grows.acked r.server r.args.term
  have hold := acked success
  omega

theorem MsgAgreed.grow {msg : ApplyMsg} (agreed : MsgAgreed h msg) (grows : Extends h h') :
    MsgAgreed h' msg := by
  intro valid
  obtain ⟨t, x, e, hx, hrest⟩ := agreed valid
  exact ⟨t, x, e, grows.committed hx le_rfl, hrest⟩

theorem Traffic.grow {s : Cluster n} (traffic : Traffic h s) (grows : Extends h h')
    (leaders : ∀ t c, h'.leader t = some c → (c, t) ∈ s.promoted) : Traffic h' s where
  appendCalls r hr := (traffic.appendCalls r hr).grow grows
  appendReqs r hr := (traffic.appendReqs r hr).grow grows
  appendReplies p hp :=
    ⟨(traffic.appendReplies p hp).1.grow grows, (traffic.appendReplies p hp).2.grow grows⟩
  beatReqs r hr := (traffic.beatReqs r hr).grow grows
  installCalls := traffic.installCalls
  installReqs r hr := (traffic.installReqs r hr).grow grows
  messages i msg hmsg := (traffic.messages i msg hmsg).grow grows
  promoted := leaders

/-- A node that has not moved itself is not affected. -/
theorem NodeSim.grow {i j : Fin n} {rf : Raftserver} (sim : NodeSim h j rf)
    (moves : Moves i h h') (hj : j ≠ i) : NodeSim h' j rf where
  term := (moves.term_ne j hj).trans sim.term
  window := moves.log_ne j hj ▸ sim.window
  included := sim.included
  commit := moves.log_ne j hj ▸ sim.commit
  committed := moves.log_ne j hj ▸ moves.committed sim.committed le_rfl
  includedTerm := moves.log_ne j hj ▸ sim.includedTerm
  leads := by
    rw [sim.leads]
    exact ⟨moves.leader _ j, moves.leader_ne _ j hj⟩
  led role := by
    rw [moves.log_ne j hj, moves.led_ne _ j hj (sim.leads.mp role)]
    exact sim.led role
  self role := by
    rw [moves.log_ne j hj]
    exact (sim.self role).trans (moves.acked j _)
  matched role p := by
    refine (sim.matched role p).imp id fun hp => ?_
    have hle := moves.acked p rf.currentTerm
    omega
  keys := sim.keys

theorem nodes_setNode {s : Cluster n} (nodes : ∀ j, NodeSim h j (s.nodes j).rf) {i : Fin n}
    (moves : Moves i h h') {node : Node} (moved : NodeSim h' i node.rf) (j : Fin n) :
    NodeSim h' j ((s.setNode i node).nodes j).rf :=
  Cluster.setNode_cases j moved fun hj => (nodes j).grow moves hj

/-- Ballots only depend on the votes, and on the logs of candidates in open terms. -/
theorem Ballots.grow {s : Cluster n} {i : Fin n} (ballots : Ballots h s)
    (moves : Moves i h h') (voted : h'.voted = h.voted)
    (stood : ∀ c t, Cluster.Stood s.voteReqs c t → t ≤ h.term c) : Ballots h' s := by
  have still {t : Int} (hopen : h'.leader t = none) : h.leader t = none := by
    by_contra hleader
    exact moves.leader_ne_none hleader hopen
  refine ⟨fun r hr c hc hopen => ?_, fun p hp hgranted hopen => ?_⟩
  · obtain ⟨w, hw, describes, older, current⟩ := ballots.ballot r hr c hc (still hopen)
    refine ⟨w, voted ▸ hw, describes, older, fun hterm => ?_⟩
    have hle := stood c _ ⟨r, hr, hc, rfl⟩
    have hsame : h.term c = r.args.term := le_antisymm (hterm ▸ moves.term c) hle
    by_cases hci : c = i
    · subst hci
      rw [moves.log_open (hterm.trans hsame.symm) (hsame ▸ hopen)]
      exact current hsame
    · rw [moves.log_ne c hci]
      exact current hsame
  · rw [voted]
    exact ballots.grant p hp hgranted (still hopen)

end Growth

end RaftKv.Raft
