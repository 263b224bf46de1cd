import RaftKv.Raft.Frame
import Mathlib.Data.Finset.Card
import Mathlib.Data.Fintype.Card
import Mathlib.Algebra.Ring.Parity

/-!
# Elections

A vote is checked in one section and counted in a later one. Between the two the
candidate may have moved on to another term, and the counting section does not look
at the term again: it may then count a vote of an old election for the new one.

`CountsOwnTerm` says that this does not happen, and nothing else. In every run
whose steps meet it a term has at most one leader, whatever the other sections
(including the bare change of term in `SendCommitIndex`) do in between. The history
needed for that is already in the network: requests and replies stay on the wire.
-/

namespace RaftKv.Raft

open Library (enabled_map enabled_some)

namespace Raftserver

/-- A vote is either refused, and then nothing about elections changes, or it is
given to the candidate in the candidate's own term. -/
theorem requestVote_spec {rf : Raftserver} {args : RequestVoteArgs}
    {result : Raftserver × RequestVoteReply} (h : rf.requestVote args = some result) :
    (ElectionFrame rf result.1 ∧ result.2.voteGranted = false) ∨
      (result.2.voteGranted = true ∧ rf.currentTerm ≤ args.term ∧
        (rf.currentTerm = args.term → rf.votedFor = none ∨ rf.votedFor = args.candidateId) ∧
        result.1.me = rf.me ∧ result.1.peers = rf.peers ∧ result.1.currentTerm = args.term ∧
        result.1.votedFor = args.candidateId ∧ result.1.role = .follower) := by
  obtain ⟨observed, observes, rfl | ⟨hterm, hvote, last, calls, -, -, rfl⟩⟩ := requestVote_outcome h
  · exact .inl ⟨observes.frame, rfl⟩
  · have frame := observes.frame
    refine .inr ⟨rfl, hterm ▸ frame.term, fun same => ?_, frame.me, frame.peers, rfl, rfl, rfl⟩
    rwa [← frame.vote (hterm.trans same.symm)]

theorem startElection_spec {rf : Raftserver} {result : Raftserver × RequestVoteArgs}
    (h : rf.startElection = some result) :
    result.1.me = rf.me ∧ result.1.peers = rf.peers ∧
      result.1.currentTerm = rf.currentTerm + 1 ∧ result.1.votedFor = some rf.me ∧
      result.1.voteCount = 1 ∧ result.2.term = rf.currentTerm + 1 ∧
      result.2.candidateId = some rf.me := by
  obtain ⟨last, calls, -, rfl⟩ := startElection_outcome h
  exact ⟨rfl, rfl, rfl, rfl, rfl, rfl, rfl⟩

/-- A vote is passed on for counting only if it was given. -/
theorem procVoteAnswer_granted {rf : Raftserver} {args : RequestVoteArgs}
    {reply : RequestVoteReply} {result : Raftserver × Bool}
    (h : rf.procVoteAnswer args reply = some result) (counted : result.2 = true) :
    reply.voteGranted = true := by
  unfold procVoteAnswer at h
  split at h
  · cases h
    cases counted
  split at h
  · obtain ⟨saved, -, rfl⟩ := Option.map_eq_some_iff.mp h
    exact counted
  · cases h
    exact counted

/-- The counting section leaves terms and votes alone. The count goes up by one
unless it was already large enough, and only a candidate becomes a leader, with
more than half of the votes. -/
theorem collectVote_spec (rf : Raftserver) (outTime : Bool) :
    (rf.collectVote outTime).me = rf.me ∧ (rf.collectVote outTime).peers = rf.peers ∧
      (rf.collectVote outTime).currentTerm = rf.currentTerm ∧
      (rf.collectVote outTime).votedFor = rf.votedFor ∧
      ((rf.collectVote outTime).role = rf.role ∨
        ((rf.collectVote outTime).role = .leader ∧ rf.role = .candidate ∧
          ¬ (rf.peers.length / 2 : Nat) < rf.voteCount ∧
          (rf.peers.length / 2 : Nat) < rf.voteCount + 1)) ∧
      ((rf.peers.length / 2 : Nat) < rf.voteCount ∧
          (rf.collectVote outTime).voteCount = rf.voteCount ∨
        ¬ (rf.peers.length / 2 : Nat) < rf.voteCount ∧
          (rf.collectVote outTime).voteCount = rf.voteCount + 1) := by
  unfold collectVote
  split
  · exact ⟨rfl, rfl, rfl, rfl, .inl rfl, .inl ⟨‹_›, rfl⟩⟩
  split
  · rename_i hlow helected
    exact ⟨rfl, rfl, rfl, rfl, .inr ⟨rfl, helected.2.1, hlow, helected.1⟩, .inr ⟨hlow, rfl⟩⟩
  · exact ⟨rfl, rfl, rfl, rfl, .inl rfl, .inr ⟨‹_›, rfl⟩⟩

end Raftserver

namespace Cluster

variable {n : Nat}

@[simp] theorem setNode_same (s : Cluster n) (i : Fin n) (node : Node) :
    (s.setNode i node).nodes i = node := by
  simp [setNode]

@[simp] theorem setNode_ne (s : Cluster n) {i j : Fin n} (node : Node) (h : j ≠ i) :
    (s.setNode i node).nodes j = s.nodes j := by
  simp [setNode, h]

@[simp] theorem setRf_same (s : Cluster n) (i : Fin n) (rf : Raftserver) :
    ((s.setRf i rf).nodes i).rf = rf := by
  simp [setRf]

@[simp] theorem setRf_ne (s : Cluster n) {i j : Fin n} (rf : Raftserver) (h : j ≠ i) :
    (s.setRf i rf).nodes j = s.nodes j := by
  simp [setRf, h]

/-- After a step of one node: the node that moves, and the others. -/
@[elab_as_elim]
theorem setNode_cases {motive : Fin n → Node → Prop} {s : Cluster n} {i : Fin n} {node : Node}
    (j : Fin n) (same : motive i node) (other : j ≠ i → motive j (s.nodes j)) :
    motive j ((s.setNode i node).nodes j) := by
  by_cases hj : j = i
  · subst hj
    rwa [setNode_same]
  · rw [setNode_ne s node hj]
    exact other hj

/-- `c` has asked for votes in term `t`. -/
def Stood (reqs : List (Rpc n RequestVoteArgs)) (c : Fin n) (t : Int) : Prop :=
  ∃ r ∈ reqs, r.args.candidateId = some (c : Nat) ∧ r.args.term = t

/-- `v` has voted for `c` in term `t`. -/
def Granted (replies : List (Rpc n RequestVoteArgs × RequestVoteReply)) (v c : Fin n)
    (t : Int) : Prop :=
  ∃ r reply, (r, reply) ∈ replies ∧ reply.voteGranted = true ∧
    r.server = v ∧ r.args.candidateId = some (c : Nat) ∧ r.args.term = t

/-- A majority stands behind `c` in term `t`, `c` itself included. -/
def Elected (s : Cluster n) (c : Fin n) (t : Int) : Prop :=
  Stood s.voteReqs c t ∧
    ∃ Q : Finset (Fin n), n < 2 * Q.card ∧ ∀ v ∈ Q, v = c ∨ Granted s.voteReplies v c t

/-- The votes behind a candidate's count come from distinct nodes, none of which
is still to be counted. -/
def Counted (s : Cluster n) (c : Fin n) : Prop :=
  ∃ S : Finset (Fin n), c ∉ S ∧ (s.nodes c).rf.voteCount ≤ 1 + S.card ∧
    (∀ v ∈ S, Granted s.voteReplies v c (s.nodes c).rf.currentTerm) ∧
    ∀ r, r ∈ s.voteCalls ++ s.votesWon → r.args.candidateId = some (c : Nat) →
      r.args.term = (s.nodes c).rf.currentTerm → r.server ∉ S

structure VoteInv (s : Cluster n) : Prop where
  me : ∀ i, (s.nodes i).rf.me = i
  peers : ∀ i, (s.nodes i).rf.peers = (List.range n).filter (· ≠ i.val)
  sender : ∀ r ∈ s.voteReqs, ∃ c : Fin n, r.args.candidateId = some (c : Nat) ∧ c ≠ r.server
  stood : ∀ c t, Stood s.voteReqs c t → t ≤ (s.nodes c).rf.currentTerm ∧
    ((s.nodes c).rf.currentTerm = t → (s.nodes c).rf.votedFor = some c.val)
  request : ∀ r ∈ s.voteReqs, ∀ r' ∈ s.voteReqs, r.args.candidateId = r'.args.candidateId →
    r.args.term = r'.args.term → r.args = r'.args
  replied : ∀ p ∈ s.voteReplies, p.1 ∈ s.voteReqs
  granted : ∀ v c t, Granted s.voteReplies v c t → t ≤ (s.nodes v).rf.currentTerm ∧
    ((s.nodes v).rf.currentTerm = t → (s.nodes v).rf.votedFor = some c.val)
  unique : ∀ v c c' t, Granted s.voteReplies v c t → Granted s.voteReplies v c' t → c = c'
  foreign : ∀ v c t, Granted s.voteReplies v c t → ¬ Stood s.voteReqs v t
  pending : ∀ r ∈ s.voteCalls ++ s.votesWon, r ∈ s.voteReqs
  won : ∀ r ∈ s.votesWon, ∃ reply, (r, reply) ∈ s.voteReplies ∧ reply.voteGranted = true
  nodup : (s.voteCalls ++ s.votesWon).Nodup
  count : ∀ c, (s.nodes c).rf.role = .candidate → Stood s.voteReqs c (s.nodes c).rf.currentTerm → Counted s c
  promoted : ∀ p ∈ s.promoted, Elected s p.1 p.2

theorem Granted.of_won {s : Cluster n} (inv : VoteInv s) {r : Rpc n RequestVoteArgs}
    (hr : r ∈ s.votesWon) {c : Fin n} (hc : r.args.candidateId = some (c : Nat)) :
    Granted s.voteReplies r.server c r.args.term := by
  obtain ⟨reply, hreply, hgranted⟩ := inv.won r hr
  exact ⟨r, reply, hreply, hgranted, rfl, hc, rfl⟩

theorem voteInv_init (n : Nat) : VoteInv (init n) where
  me _ := rfl
  peers _ := rfl
  sender := by simp [init]
  stood := by simp [init, Stood]
  request := by simp [init]
  replied := by simp [init]
  granted := by simp [init, Granted]
  unique := by simp [init, Granted]
  foreign := by simp [init, Granted]
  pending := by simp [init]
  won := by simp [init]
  nodup := by simp [init]
  count := by simp [init, initServer]
  promoted := by simp [init]

/-- Two majorities meet in a voter, and a voter has one vote. -/
theorem Elected.unique {s : Cluster n} (inv : VoteInv s) {c c' : Fin n} {t : Int}
    (h : Elected s c t) (h' : Elected s c' t) : c = c' := by
  obtain ⟨stood, Q, hQ, votes⟩ := h
  obtain ⟨stood', Q', hQ', votes'⟩ := h'
  have hcard : (Finset.univ : Finset (Fin n)).card < Q.card + Q'.card := by
    rw [Finset.card_univ, Fintype.card_fin]
    omega
  obtain ⟨v, hv⟩ := Finset.inter_nonempty_of_card_lt_card_add_card (Finset.subset_univ Q)
    (Finset.subset_univ Q') hcard
  obtain ⟨hvQ, hvQ'⟩ := Finset.mem_inter.mp hv
  rcases votes v hvQ with rfl | hc
  · rcases votes' v hvQ' with rfl | hc'
    · rfl
    · exact absurd stood (inv.foreign _ _ _ hc')
  · rcases votes' v hvQ' with rfl | hc'
    · exact absurd stood' (inv.foreign _ _ _ hc)
    · exact inv.unique _ _ _ _ hc hc'

/-! ## Sections that are not part of an election -/

/-- The vote traffic and the record of promotions are the same. -/
structure SameVotes (s t : Cluster n) : Prop where
  reqs : t.voteReqs = s.voteReqs
  replies : t.voteReplies = s.voteReplies
  calls : t.voteCalls = s.voteCalls
  won : t.votesWon = s.votesWon
  promoted : t.promoted = s.promoted

theorem frame_setNode (s : Cluster n) (i : Fin n) {node : Node}
    (h : (s.nodes i).rf.ElectionFrame node.rf) (j : Fin n) :
    (s.nodes j).rf.ElectionFrame ((s.setNode i node).nodes j).rf :=
  setNode_cases j h fun _ => .refl _

/-- A run of the three sections that belong to an election, or of a section that
leaves votes alone. -/
theorem step_votes {s t : Cluster n} {a : Action n} (h : s.step a = some t) :
    (SameVotes s t ∧ ∀ i, (s.nodes i).rf.ElectionFrame (t.nodes i).rf) ∨
      (∃ i, a = .startElection i) ∨ (∃ r, a = .requestVote r) ∨
      (∃ i r reply, a = .procVoteAnswer i r reply) ∨ ∃ i r outTime, a = .collectVote i r outTime := by
  have quiet (i : Fin n) {node : Node} (nodes : t.nodes = (s.setNode i node).nodes)
      (hf : (s.nodes i).rf.ElectionFrame node.rf) (same : SameVotes s t) :
      SameVotes s t ∧ ∀ i, (s.nodes i).rf.ElectionFrame (t.nodes i).rf :=
    ⟨same, fun j => by rw [nodes]; exact frame_setNode s i hf j⟩
  have still (same : SameVotes s t) (nodes : t.nodes = s.nodes) :
      SameVotes s t ∧ ∀ i, (s.nodes i).rf.ElectionFrame (t.nodes i).rf :=
    ⟨same, fun j => by rw [nodes]; exact .refl _⟩
  cases a with
  | startElection i => exact .inr (.inl ⟨i, rfl⟩)
  | requestVote r => exact .inr (.inr (.inl ⟨r, rfl⟩))
  | procVoteAnswer i r reply => exact .inr (.inr (.inr (.inl ⟨i, r, reply, rfl⟩)))
  | collectVote i r outTime => exact .inr (.inr (.inr (.inr ⟨i, r, outTime, rfl⟩)))
  | ticker i =>
      obtain ⟨-, rfl⟩ := enabled_some.mp h
      exact .inl (quiet i rfl (.refl _) ⟨rfl, rfl, rfl, rfl, rfl⟩)
  | startSendAppendEntries i =>
      obtain ⟨-, sends, -, rfl⟩ := enabled_map.mp h
      exact .inl (still ⟨rfl, rfl, rfl, rfl, rfl⟩ rfl)
  | sendAppendEntries i r =>
      obtain ⟨-, rfl⟩ := enabled_some.mp h
      exact .inl (still ⟨rfl, rfl, rfl, rfl, rfl⟩ rfl)
  | appendEntries r =>
      obtain ⟨-, result, hresult, rfl⟩ := enabled_map.mp h
      exact .inl (quiet r.server rfl (Raftserver.appendEntries_frame hresult) ⟨rfl, rfl, rfl, rfl, rfl⟩)
  | appendEntriesReply i r reply =>
      obtain ⟨-, result, hresult, rfl⟩ := enabled_map.mp h
      exact .inl (quiet i rfl (Raftserver.sendAppendEntriesToServer_frame hresult) ⟨rfl, rfl, rfl, rfl, rfl⟩)
  | sendInstallSnapshot i j =>
      obtain ⟨-, args, -, rfl⟩ := enabled_map.mp h
      exact .inl (still ⟨rfl, rfl, rfl, rfl, rfl⟩ rfl)
  | installSnapshot r =>
      obtain ⟨-, ⟨rf, reply, msg⟩, hresult, rfl⟩ := enabled_map.mp h
      have hf := Raftserver.installSnapshot_frame hresult
      cases msg with
      | none =>
          exact .inl (quiet r.server rfl hf ⟨rfl, rfl, rfl, rfl, rfl⟩)
      | some msg => exact .inl (quiet r.server rfl hf ⟨rfl, rfl, rfl, rfl, rfl⟩)
  | installSnapshotSend j task =>
      obtain ⟨-, node, hsend, rfl⟩ := enabled_map.mp h
      obtain ⟨-, rfl⟩ := enabled_some.mp hsend
      exact .inl (quiet j rfl (.refl _) ⟨rfl, rfl, rfl, rfl, rfl⟩)
  | installSnapshotDone j task =>
      obtain ⟨-, rf, hsaved, rfl⟩ := enabled_map.mp h
      exact .inl (quiet j rfl (Raftserver.persist_frame hsaved) ⟨rfl, rfl, rfl, rfl, rfl⟩)
  | installSnapshotReply i r reply =>
      obtain ⟨-, rf, hresult, rfl⟩ := enabled_map.mp h
      exact .inl (quiet i rfl (Raftserver.sendInstallSnapshotToServer_frame hresult) ⟨rfl, rfl, rfl, rfl, rfl⟩)
  | singleHeartBeat i =>
      obtain ⟨-, beats, -, rfl⟩ := enabled_map.mp h
      exact .inl (still ⟨rfl, rfl, rfl, rfl, rfl⟩ rfl)
  | heartBeat r =>
      obtain ⟨-, result, hresult, rfl⟩ := enabled_map.mp h
      exact .inl (quiet r.server rfl (Raftserver.appendEntries_frame hresult) ⟨rfl, rfl, rfl, rfl, rfl⟩)
  | sendCommitIndex i =>
      obtain ⟨r, rfl⟩ := step_sendCommitIndex h
      exact .inl (still ⟨rfl, rfl, rfl, rfl, rfl⟩ rfl)
  | commitIndexReply i r =>
      obtain ⟨-, rfl⟩ := enabled_some.mp h
      exact .inl (quiet i rfl (Raftserver.sendCommitIndex_frame _ r) ⟨rfl, rfl, rfl, rfl, rfl⟩)
  | start i command =>
      obtain ⟨result, hresult, rfl⟩ := Option.map_eq_some_iff.mp h
      exact .inl (quiet i rfl (Raftserver.start_frame hresult) ⟨rfl, rfl, rfl, rfl, rfl⟩)
  | snapshot i index data =>
      obtain ⟨rf, hresult, rfl⟩ := Option.map_eq_some_iff.mp h
      exact .inl (quiet i rfl (Raftserver.snapshot_frame hresult) ⟨rfl, rfl, rfl, rfl, rfl⟩)
  | commitCheck i =>
      obtain ⟨node, hnode, rfl⟩ := Option.map_eq_some_iff.mp h
      exact .inl (quiet i rfl (Node.commitCheck_frame hnode) ⟨rfl, rfl, rfl, rfl, rfl⟩)
  | applyHandler i =>
      obtain ⟨msg, rest, -, rfl⟩ := step_applyHandler h
      exact .inl (quiet i rfl (.refl _) ⟨rfl, rfl, rfl, rfl, rfl⟩)

theorem VoteInv.frame {s t : Cluster n} (inv : VoteInv s) (same : SameVotes s t)
    (frame : ∀ i, (s.nodes i).rf.ElectionFrame (t.nodes i).rf) : VoteInv t := by
  constructor
  case me => exact fun i => (frame i).me.trans (inv.me i)
  case peers => exact fun i => (frame i).peers.trans (inv.peers i)
  case sender => simpa only [same.reqs] using inv.sender
  case request => simpa only [same.reqs] using inv.request
  case replied => simpa only [same.reqs, same.replies] using inv.replied
  case unique => simpa only [same.replies] using inv.unique
  case foreign => simpa only [same.replies, same.reqs] using inv.foreign
  case pending => simpa only [same.reqs, same.calls, same.won] using inv.pending
  case won => simpa only [same.replies, same.won] using inv.won
  case nodup => simpa only [same.calls, same.won] using inv.nodup
  case promoted => simpa only [same.promoted, Elected, same.replies, same.reqs] using inv.promoted
  case stood =>
    intro c term h
    obtain ⟨hle, hvote⟩ := inv.stood c term (same.reqs ▸ h)
    refine ⟨hle.trans (frame c).term, fun heq => ?_⟩
    have hterm : (s.nodes c).rf.currentTerm = term := le_antisymm (heq ▸ (frame c).term) hle
    exact ((frame c).vote (heq.trans hterm.symm)).trans (hvote hterm)
  case granted =>
    intro v c term h
    obtain ⟨hle, hvote⟩ := inv.granted v c term (same.replies ▸ h)
    refine ⟨hle.trans (frame v).term, fun heq => ?_⟩
    have hterm : (s.nodes v).rf.currentTerm = term := le_antisymm (heq ▸ (frame v).term) hle
    exact ((frame v).vote (heq.trans hterm.symm)).trans (hvote hterm)
  case count =>
    intro c hrole h
    have hle := (inv.stood c _ (same.reqs ▸ h)).1
    have hterm : (t.nodes c).rf.currentTerm = (s.nodes c).rf.currentTerm :=
      le_antisymm hle (frame c).term
    rw [same.reqs, hterm] at h
    have counted := inv.count c ((frame c).candidate hrole) h
    simpa only [Counted, (frame c).count, hterm, same.replies, same.calls, same.won] using counted

/-! ## The sections of an election -/

/-- A refused vote adds nothing that the invariant speaks about. -/
theorem VoteInv.refuse {s : Cluster n} (inv : VoteInv s) {r : Rpc n RequestVoteArgs}
    {reply : RequestVoteReply} (hr : r ∈ s.voteReqs) (refused : reply.voteGranted = false) :
    VoteInv { s with voteReplies := (r, reply) :: s.voteReplies } := by
  have granted : Granted ((r, reply) :: s.voteReplies) = Granted s.voteReplies := by
    funext v c term
    simp [Granted, or_and_right, exists_or, refused]
  exact
    { inv with
      replied := by
        intro p hp
        rcases List.mem_cons.mp hp with rfl | hp
        · exact hr
        · exact inv.replied p hp
      granted := by simpa only [granted] using inv.granted
      unique := by simpa only [granted] using inv.unique
      foreign := by simpa only [granted] using inv.foreign
      won := fun r hr => (inv.won r hr).imp fun reply h => ⟨List.mem_cons_of_mem _ h.1, h.2⟩
      count := by simpa only [Counted, granted] using inv.count
      promoted := by simpa only [Elected, granted] using inv.promoted }

theorem VoteInv.requestVote {s t : Cluster n} {r : Rpc n RequestVoteArgs} (inv : VoteInv s)
    (h : s.step (.requestVote r) = some t) : VoteInv t := by
  obtain ⟨hr, ⟨rf, reply⟩, hresult, rfl⟩ := enabled_map.mp h
  rcases Raftserver.requestVote_spec hresult with
    ⟨frame, refused⟩ | ⟨granted, hterm, hvoted, hme, hpeers, hterm', hvoted', hrole⟩
  · have framed : VoteInv (s.setRf r.server rf) :=
      inv.frame ⟨rfl, rfl, rfl, rfl, rfl⟩ (frame_setNode s r.server frame)
    exact framed.refuse hr refused
  dsimp only at granted hterm hvoted hme hpeers hterm' hvoted' hrole
  set v := r.server with hv
  obtain ⟨cand, hcand, hne⟩ := inv.sender r hr
  -- the only new vote is the one that was just given
  have old (v' c : Fin n) (term : Int) :
      Granted ((r, reply) :: s.voteReplies) v' c term →
        Granted s.voteReplies v' c term ∨ (v' = v ∧ c = cand ∧ term = r.args.term) := by
    rintro ⟨r', reply', hmem, hgranted, rfl, hc, rfl⟩
    rcases List.mem_cons.mp hmem with heq | hmem
    · cases heq
      exact .inr ⟨rfl, Fin.ext (Option.some.inj (hc.symm.trans hcand)), rfl⟩
    · exact .inl ⟨r', reply', hmem, hgranted, rfl, hc, rfl⟩
  have mono (v' c : Fin n) (term : Int) (hg : Granted s.voteReplies v' c term) :
      Granted ((r, reply) :: s.voteReplies) v' c term := by
    obtain ⟨r', reply', hmem, hrest⟩ := hg
    exact ⟨r', reply', List.mem_cons_of_mem _ hmem, hrest⟩
  -- a node that has voted in this term, or stood in it, has no second vote
  have first (c : Fin n) (hg : Granted s.voteReplies v c r.args.term) : c = cand := by
    obtain ⟨hle, hvote⟩ := inv.granted v c _ hg
    have heq := le_antisymm hterm hle
    rcases hvoted heq with hnone | hsame
    · rw [hvote heq] at hnone
      cases hnone
    · rw [hvote heq, hcand] at hsame
      exact Fin.ext (Option.some.inj hsame)
  have notStood : ¬ Stood s.voteReqs v r.args.term := by
    intro hs
    obtain ⟨hle, hvote⟩ := inv.stood v _ hs
    have heq := le_antisymm hterm hle
    rcases hvoted heq with hnone | hsame
    · rw [hvote heq] at hnone
      cases hnone
    · rw [hvote heq, hcand] at hsame
      exact hne (Fin.ext (Option.some.inj hsame)).symm
  constructor
  case me =>
    intro i
    by_cases hi : i = v
    · subst hi
      simpa using hme.trans (inv.me v)
    · simpa [hi] using inv.me i
  case peers =>
    intro i
    by_cases hi : i = v
    · subst hi
      simpa using hpeers.trans (inv.peers v)
    · simpa [hi] using inv.peers i
  case sender => exact inv.sender
  case request => exact inv.request
  case replied =>
    intro p hp
    rcases List.mem_cons.mp hp with rfl | hp
    · exact hr
    · exact inv.replied p hp
  case pending => exact inv.pending
  case nodup => exact inv.nodup
  case won => exact fun r hr => (inv.won r hr).imp fun reply h => ⟨List.mem_cons_of_mem _ h.1, h.2⟩
  case stood =>
    intro c term hs
    obtain ⟨hle, hvote⟩ := inv.stood c term hs
    by_cases hc : c = v
    · subst hc
      refine ⟨by simpa [hterm'] using hle.trans hterm, fun heq => ?_⟩
      have heq : r.args.term = term := by simpa [hterm'] using heq
      exact absurd (heq ▸ hs) notStood
    · simpa [hc] using ⟨hle, hvote⟩
  case granted =>
    intro v' c term hg
    rcases old v' c term hg with hg | ⟨rfl, rfl, rfl⟩
    · obtain ⟨hle, hvote⟩ := inv.granted v' c term hg
      by_cases hv' : v' = v
      · subst hv'
        refine ⟨by simpa [hterm'] using hle.trans hterm, fun heq => ?_⟩
        have heq : r.args.term = term := by simpa [hterm'] using heq
        rw [first c (heq ▸ hg)]
        simpa [hvoted'] using hcand
      · simpa [hv'] using ⟨hle, hvote⟩
    · simp [hterm', hvoted', hcand]
  case unique =>
    intro v' c c' term hg hg'
    rcases old v' c term hg with hold | ⟨hv', hc, ht⟩
    · rcases old v' c' term hg' with hold' | ⟨hv', hc', ht⟩
      · exact inv.unique v' c c' term hold hold'
      · rw [hv', ht] at hold
        exact (first c hold).trans hc'.symm
    · rcases old v' c' term hg' with hold' | ⟨-, hc', -⟩
      · rw [hv', ht] at hold'
        exact hc.trans (first c' hold').symm
      · exact hc.trans hc'.symm
  case foreign =>
    intro v' c term hg
    rcases old v' c term hg with hg | ⟨rfl, rfl, rfl⟩
    · exact inv.foreign v' c term hg
    · exact notStood
  case count =>
    intro c hc hs
    by_cases hcv : c = v
    · subst hcv
      simp [hrole] at hc
    · have hnode : (s.setRf v rf).nodes c = s.nodes c := setRf_ne s rf hcv
      dsimp only at hc hs
      rw [hnode] at hc hs
      obtain ⟨S, hS, hcount, hvotes, hpending⟩ := inv.count c hc hs
      refine ⟨S, hS, ?_, ?_, ?_⟩ <;> dsimp only <;> rw [hnode]
      · exact hcount
      · exact fun v' hv' => mono v' c _ (hvotes v' hv')
      · exact hpending
  case promoted =>
    intro p hp
    obtain ⟨hstood, Q, hQ, hvotes⟩ := inv.promoted p hp
    exact ⟨hstood, Q, hQ, fun v' hv' => (hvotes v' hv').imp id (mono v' p.1 p.2)⟩

theorem mem_peersOf {s : Cluster n} (inv : VoteInv s) {i j : Fin n} (h : j ∈ s.peersOf i) :
    j ≠ i := by
  rintro rfl
  simp [peersOf, inv.peers] at h

theorem VoteInv.startElection {s t : Cluster n} {i : Fin n} (inv : VoteInv s)
    (h : s.step (.startElection i) = some t) : VoteInv t := by
  obtain ⟨-, ⟨rf, args⟩, hresult, rfl⟩ := enabled_map.mp h
  obtain ⟨hme, hpeers, hterm, hvoted, hcount, hargs, hcand⟩ :=
    Raftserver.startElection_spec hresult
  dsimp only at hme hpeers hterm hvoted hcount hargs hcand ⊢
  rw [inv.me i] at hme hvoted hcand
  set calls : List (Rpc n RequestVoteArgs) := (s.peersOf i).map fun j => ⟨j, args⟩ with hcalls
  have called {r : Rpc n RequestVoteArgs} (hr : r ∈ calls) : r.args = args ∧ r.server ≠ i := by
    obtain ⟨j, hj, rfl⟩ := List.mem_map.mp hr
    exact ⟨rfl, mem_peersOf inv hj⟩
  -- nobody has heard of this candidacy before
  have fresh {r : Rpc n RequestVoteArgs} (hr : r ∈ s.voteReqs) (hc : r.args.candidateId = some (i : Nat)) :
      r.args.term < args.term := by
    have hle := (inv.stood i r.args.term ⟨r, hr, hc, rfl⟩).1
    omega
  have stood (c : Fin n) (term : Int) (hs : Stood (calls ++ s.voteReqs) c term) :
      Stood s.voteReqs c term ∨ (c = i ∧ term = args.term) := by
    obtain ⟨r, hr, hc, rfl⟩ := hs
    rcases List.mem_append.mp hr with hr | hr
    · rw [(called hr).1, hcand] at hc
      exact .inr ⟨(Fin.ext (Option.some.inj hc)).symm, by rw [(called hr).1]⟩
    · exact .inl ⟨r, hr, hc, rfl⟩
  constructor
  case me =>
    intro j
    by_cases hj : j = i
    · subst hj
      simpa using hme
    · simpa [hj] using inv.me j
  case peers =>
    intro j
    by_cases hj : j = i
    · subst hj
      simpa using hpeers.trans (inv.peers j)
    · simpa [hj] using inv.peers j
  case sender =>
    intro r hr
    rcases List.mem_append.mp hr with hr | hr
    · exact ⟨i, by rw [(called hr).1, hcand], (called hr).2.symm⟩
    · exact inv.sender r hr
  case stood =>
    intro c term hs
    by_cases hc : c = i
    · subst hc
      rcases stood c term hs with hs | ⟨-, rfl⟩
      · have hle := (inv.stood c term hs).1
        refine ⟨by simp [hterm]; omega, fun heq => ?_⟩
        simp [hterm] at heq
        omega
      · simp [hterm, hargs, hvoted]
    · rcases stood c term hs with hs | ⟨hci, -⟩
      · simpa [hc] using inv.stood c term hs
      · exact absurd hci hc
  case request =>
    intro r hr r' hr' hc ht
    rcases List.mem_append.mp hr with hr | hr <;> rcases List.mem_append.mp hr' with hr' | hr'
    · exact (called hr).1.trans (called hr').1.symm
    · rw [(called hr).1] at hc ht
      exact absurd ht.symm (fresh hr' (hc.symm.trans hcand)).ne
    · rw [(called hr').1] at hc ht
      exact absurd ht (fresh hr (hc.trans hcand)).ne
    · exact inv.request r hr r' hr' hc ht
  case replied => exact fun p hp => List.mem_append_right _ (inv.replied p hp)
  case granted =>
    intro v c term hg
    obtain ⟨hle, hvote⟩ := inv.granted v c term hg
    by_cases hv : v = i
    · subst hv
      refine ⟨by simp [hterm]; omega, fun heq => ?_⟩
      simp [hterm] at heq
      omega
    · simpa [hv] using ⟨hle, hvote⟩
  case unique => exact inv.unique
  case foreign =>
    intro v c term hg hs
    rcases stood v term hs with hs | ⟨rfl, rfl⟩
    · exact inv.foreign v c term hg hs
    · have hle := (inv.granted v c _ hg).1
      omega
  case pending =>
    intro r hr
    dsimp only at hr ⊢
    rw [List.append_assoc] at hr
    rcases List.mem_append.mp hr with hr | hr
    · exact List.mem_append_left _ hr
    · exact List.mem_append_right _ (inv.pending r hr)
  case won => exact inv.won
  case nodup =>
    dsimp only
    rw [List.append_assoc]
    refine List.Nodup.append ?_ inv.nodup ?_
    · refine List.Nodup.map (fun a b hab => ?_) ((List.nodup_finRange n).filter _)
      exact congrArg Rpc.server hab
    · intro r hr hr'
      have hlt := fresh (inv.pending r hr') (by rw [(called hr).1, hcand])
      rw [(called hr).1] at hlt
      exact lt_irrefl _ hlt
  case count =>
    intro c hrole hs
    by_cases hc : c = i
    · subst hc
      exact ⟨∅, by simp, by simp [hcount], by simp, by simp⟩
    · dsimp only at hrole hs
      rw [setNode_ne _ _ hc] at hrole hs
      rcases stood c _ hs with hs | ⟨hci, -⟩
      · obtain ⟨S, hS, hvotes, hgranted, hpending⟩ := inv.count c hrole hs
        refine ⟨S, hS, ?_, ?_, ?_⟩ <;> dsimp only <;> rw [setNode_ne _ _ hc]
        · exact hvotes
        · exact hgranted
        · intro r hr hrc hrt
          rw [List.append_assoc] at hr
          rcases List.mem_append.mp hr with hr | hr
          · rw [(called hr).1, hcand] at hrc
            exact absurd (Fin.ext (Option.some.inj hrc)).symm hc
          · exact hpending r hr hrc hrt
      · exact absurd hci hc
  case promoted =>
    intro p hp
    obtain ⟨⟨r, hr, hrest⟩, hquorum⟩ := inv.promoted p hp
    exact ⟨⟨r, List.mem_append_right _ hr, hrest⟩, hquorum⟩

/-- Votes may be dropped, and a granted one may go from one waiting list to the other. -/
theorem VoteInv.move {s : Cluster n} (inv : VoteInv s)
    {calls won : List (Rpc n RequestVoteArgs)}
    (sub : ∀ r ∈ calls ++ won, r ∈ s.voteCalls ++ s.votesWon) (nodup : (calls ++ won).Nodup)
    (granted : ∀ r ∈ won, ∃ reply, (r, reply) ∈ s.voteReplies ∧ reply.voteGranted = true) :
    VoteInv { s with voteCalls := calls, votesWon := won } :=
  { inv with
    pending := fun r hr => inv.pending r (sub r hr)
    won := granted
    nodup := nodup
    count := by
      intro c hrole hs
      obtain ⟨S, hS, hcount, hvotes, hpending⟩ := inv.count c hrole hs
      exact ⟨S, hS, hcount, hvotes, fun r hr => hpending r (sub r hr)⟩ }

theorem VoteInv.procVoteAnswer {s t : Cluster n} {i : Fin n} {r : Rpc n RequestVoteArgs}
    {reply : RequestVoteReply} (inv : VoteInv s)
    (h : s.step (.procVoteAnswer i r reply) = some t) : VoteInv t := by
  obtain ⟨⟨hr, -, hreply⟩, ⟨rf, counted⟩, hresult, rfl⟩ := enabled_map.mp h
  have framed : VoteInv (s.setRf i rf) :=
    inv.frame ⟨rfl, rfl, rfl, rfl, rfl⟩
      (frame_setNode s i (Raftserver.procVoteAnswer_frame hresult))
  have hgranted : counted = true → reply.voteGranted = true :=
    Raftserver.procVoteAnswer_granted hresult
  cases counted with
  | false =>
      refine framed.move ?_ ?_ inv.won
      · intro r' hr'
        exact (List.Sublist.append_right List.erase_sublist s.votesWon).subset hr'
      · exact inv.nodup.sublist (List.Sublist.append_right List.erase_sublist s.votesWon)
  | true =>
      -- the vote waits in the other list now
      have hperm : (s.voteCalls.erase r ++ r :: s.votesWon).Perm (s.voteCalls ++ s.votesWon) :=
        List.perm_middle.trans
          (List.Perm.append_right s.votesWon (List.perm_cons_erase hr).symm)
      refine framed.move (fun r' hr' => hperm.subset hr') (hperm.nodup_iff.mpr inv.nodup) ?_
      intro r' hr'
      rcases List.mem_cons.mp hr' with rfl | hr'
      · exact ⟨reply, hreply, hgranted rfl⟩
      · exact inv.won r' hr'

/-! ## Counting -/

/-- A vote that is counted by a candidate was given to it in its current term. -/
def CountsOwnTerm (s : Cluster n) : Action n → Prop
  | .collectVote i r _ =>
      (s.nodes i).rf.role = .candidate →
        ¬ ((s.nodes i).rf.peers.length / 2 : Nat) < (s.nodes i).rf.voteCount →
          r.args.term = (s.nodes i).rf.currentTerm
  | _ => True

theorem peers_length {s : Cluster n} (inv : VoteInv s) (i : Fin n) :
    (s.nodes i).rf.peers.length + 1 = n := by
  rw [inv.peers]
  exact initServer_peers_length i

/-- Counting one vote of the own term adds its voter to the ones behind the count. -/
theorem Counted.add {s : Cluster n} (inv : VoteInv s) {r : Rpc n RequestVoteArgs}
    (hr : r ∈ s.votesWon) {i : Fin n} (hi : r.args.candidateId = some (i : Nat))
    (hterm : r.args.term = (s.nodes i).rf.currentTerm) (hrole : (s.nodes i).rf.role = .candidate) :
    ∃ S : Finset (Fin n), i ∉ S ∧ (s.nodes i).rf.voteCount + 1 ≤ 1 + S.card ∧
      (∀ v ∈ S, Granted s.voteReplies v i (s.nodes i).rf.currentTerm) ∧
      ∀ r', r' ∈ s.voteCalls ++ s.votesWon.erase r → r'.args.candidateId = some (i : Nat) →
        r'.args.term = (s.nodes i).rf.currentTerm → r'.server ∉ S := by
  have hreq := inv.pending r (List.mem_append_right _ hr)
  obtain ⟨S, hS, hcount, hvotes, hpending⟩ := inv.count i hrole ⟨r, hreq, hi, hterm⟩
  have hnew : r.server ∉ S := hpending r (List.mem_append_right _ hr) hi hterm
  refine ⟨insert r.server S, ?_, ?_, ?_, ?_⟩
  · obtain ⟨c, hc, hne⟩ := inv.sender r hreq
    have hci : c = i := Fin.ext (Option.some.inj (hc.symm.trans hi))
    rw [Finset.mem_insert]
    rintro (heq | hmem)
    · exact hne (hci.trans heq)
    · exact hS hmem
  · rw [Finset.card_insert_of_notMem hnew]
    push_cast
    omega
  · intro v hv
    rcases Finset.mem_insert.mp hv with rfl | hv
    · rw [← hterm]
      exact Granted.of_won inv hr hi
    · exact hvotes v hv
  · intro r' hr' hc' ht'
    have hmem : r' ∈ s.voteCalls ++ s.votesWon :=
      (List.Sublist.append_left List.erase_sublist s.voteCalls).subset hr'
    rw [Finset.mem_insert]
    rintro (hserver | hold)
    · -- a candidate asks each peer once per term, so `r'` would be `r` itself
      have hargs := inv.request r' (inv.pending r' hmem) r hreq (hc'.trans hi.symm)
        (ht'.trans hterm.symm)
      have hsame : r' = r := by
        cases r'
        cases r
        simp_all
      subst hsame
      rcases List.mem_append.mp hr' with hcall | hwon
      · exact List.disjoint_of_nodup_append inv.nodup hcall hr
      · exact (List.nodup_append.mp inv.nodup).2.1.not_mem_erase hwon
    · exact hpending r' hmem hc' ht' hold

theorem VoteInv.collectVote (hn : Odd n) {s t : Cluster n} {i : Fin n}
    {r : Rpc n RequestVoteArgs} {outTime : Bool} (inv : VoteInv s)
    (own : CountsOwnTerm s (.collectVote i r outTime))
    (h : s.step (.collectVote i r outTime) = some t) : VoteInv t := by
  obtain ⟨⟨hr, hi⟩, rfl⟩ := enabled_some.mp h
  obtain ⟨hme, hpeers, hterm, hvoted, hrole, hcount⟩ :=
    Raftserver.collectVote_spec (s.nodes i).rf outTime
  set rf := (s.nodes i).rf.collectVote outTime with hrf
  have hsub : (s.voteCalls ++ s.votesWon.erase r).Sublist (s.voteCalls ++ s.votesWon) :=
    List.Sublist.append_left List.erase_sublist s.voteCalls
  constructor
  case me =>
    intro j
    by_cases hj : j = i
    · subst hj
      simpa using hme.trans (inv.me j)
    · simpa [hj] using inv.me j
  case peers =>
    intro j
    by_cases hj : j = i
    · subst hj
      simpa using hpeers.trans (inv.peers j)
    · simpa [hj] using inv.peers j
  case sender => exact inv.sender
  case request => exact inv.request
  case replied => exact inv.replied
  case unique => exact inv.unique
  case foreign => exact inv.foreign
  case pending => exact fun r' hr' => inv.pending r' (hsub.subset hr')
  case won => exact fun r' hr' => inv.won r' (List.mem_of_mem_erase hr')
  case nodup => exact inv.nodup.sublist hsub
  case stood =>
    intro c term hs
    by_cases hc : c = i
    · subst hc
      simpa [hterm, hvoted] using inv.stood c term hs
    · simpa [hc] using inv.stood c term hs
  case granted =>
    intro v c term hg
    by_cases hv : v = i
    · subst hv
      simpa [hterm, hvoted] using inv.granted v c term hg
    · simpa [hv] using inv.granted v c term hg
  case count =>
    intro c hcand hs
    dsimp only at hcand hs
    by_cases hc : c = i
    · subst hc
      rw [setRf_same] at hcand hs
      have hbefore : (s.nodes c).rf.role = .candidate := by
        rcases hrole with hrole | ⟨hleader, -, -⟩
        · exact hrole ▸ hcand
        · rw [hleader] at hcand
          cases hcand
      rw [hterm] at hs
      unfold Counted
      dsimp only
      rw [setRf_same, hterm]
      rcases hcount with ⟨-, hcount⟩ | ⟨hlow, hcount⟩
      · obtain ⟨S, hS, hle, hvotes, hpending⟩ := inv.count c hbefore hs
        rw [hcount]
        exact ⟨S, hS, hle, hvotes, fun r' hr' => hpending r' (hsub.subset hr')⟩
      · rw [hcount]
        exact Counted.add inv hr hi (own hbefore hlow) hbefore
    · rw [setRf_ne _ _ hc] at hcand hs
      obtain ⟨S, hS, hle, hvotes, hpending⟩ := inv.count c hcand hs
      refine ⟨S, hS, ?_, ?_, ?_⟩ <;> dsimp only <;> rw [setRf_ne _ _ hc]
      · exact hle
      · exact hvotes
      · exact fun r' hr' => hpending r' (hsub.subset hr')
  case promoted =>
    have old (p : Fin n × Int) (hp : p ∈ s.promoted) : Elected s p.1 p.2 := inv.promoted p hp
    dsimp only
    split
    · rename_i hpromoted
      intro p hp
      rcases List.mem_cons.mp hp with rfl | hp
      · rcases hrole with hrole | ⟨-, hcand, hlow, henough⟩
        · exact absurd (hrole ▸ hpromoted.2) hpromoted.1
        have hown := own hcand hlow
        obtain ⟨S, hS, hle, hvotes, -⟩ := Counted.add inv hr hi hown hcand
        refine ⟨⟨r, inv.pending r (List.mem_append_right _ hr), hi, hown.trans hterm.symm⟩,
          insert i S, ?_, ?_⟩
        · rw [Finset.card_insert_of_notMem hS]
          obtain ⟨k, hk⟩ := hn
          have hlen := peers_length inv i
          omega
        · intro v hv
          rw [hterm]
          exact (Finset.mem_insert.mp hv).imp id (hvotes v)
      · exact old p hp
    · exact old

theorem VoteInv.step (hn : Odd n) {s t : Cluster n} {a : Action n} (inv : VoteInv s)
    (own : CountsOwnTerm s a) (h : s.step a = some t) : VoteInv t := by
  rcases step_votes h with ⟨same, frame⟩ | ⟨i, rfl⟩ | ⟨r, rfl⟩ | ⟨i, r, reply, rfl⟩ |
    ⟨i, r, outTime, rfl⟩
  · exact inv.frame same frame
  · exact inv.startElection h
  · exact inv.requestVote h
  · exact inv.procVoteAnswer h
  · exact inv.collectVote hn own h

theorem voteInv_of_reaches (hn : Odd n) {s : Cluster n}
    (h : Library.Reaches Cluster.step CountsOwnTerm (init n) s) : VoteInv s :=
  h.invariant (voteInv_init n) fun _ _ _ _ inv own taken => inv.step hn own taken

/-- **Election safety.** In a cluster of odd size, a term has at most one leader
in every run that counts votes only for the term they were given in. -/
theorem election_safety (hn : Odd n) {s : Cluster n}
    (h : Library.Reaches Cluster.step CountsOwnTerm (init n) s) {i j : Fin n} {t : Int}
    (hi : (i, t) ∈ s.promoted) (hj : (j, t) ∈ s.promoted) : i = j :=
  Elected.unique (voteInv_of_reaches hn h) ((voteInv_of_reaches hn h).promoted _ hi)
    ((voteInv_of_reaches hn h).promoted _ hj)

instance (s : Cluster n) (a : Action n) : Decidable (CountsOwnTerm s a) := by
  cases a <;> unfold CountsOwnTerm <;> infer_instance

/-- What node `i` sends in term `t` while every log is still empty. -/
def firstBallot (t : Int) (i : Nat) : RequestVoteArgs :=
  { term := t, candidateId := some i, lastLogIndex := 0, lastLogTerm := 0 }

def firstElection : List (Action 3) :=
  [.ticker 0, .startElection 0, .requestVote ⟨1, firstBallot 1 0⟩,
    .procVoteAnswer 0 ⟨1, firstBallot 1 0⟩ ⟨1, true⟩, .collectVote 0 ⟨1, firstBallot 1 0⟩ false]

/-- Node zero wins the first election, and is then the only leader of its term. -/
theorem election_safety_first_term :
    ∃ s : Cluster 3, Library.Reaches Cluster.step CountsOwnTerm (init 3) s ∧
      (0, 1) ∈ s.promoted ∧ ∀ j, (j, 1) ∈ s.promoted → j = 0 := by
  have ended : ∃ s : Cluster 3, Library.Reaches Cluster.step CountsOwnTerm (init 3) s ∧
      (0, 1) ∈ s.promoted :=
    Library.exists_reaches (fun s : Cluster 3 => (0, 1) ∈ s.promoted) firstElection
      (by decide +kernel) (by decide +kernel)
  obtain ⟨s, reached, won⟩ := ended
  exact ⟨s, reached, won, fun j hj => election_safety (by decide) reached hj won⟩

def lateCount : List (Action 3) :=
  [.ticker 0, .startElection 0, .requestVote ⟨1, firstBallot 1 0⟩,
    .procVoteAnswer 0 ⟨1, firstBallot 1 0⟩ ⟨1, true⟩, .ticker 0, .startElection 0,
    .collectVote 0 ⟨1, firstBallot 1 0⟩ false, .ticker 1, .startElection 1,
    .requestVote ⟨2, firstBallot 2 1⟩, .procVoteAnswer 1 ⟨2, firstBallot 2 1⟩ ⟨2, true⟩,
    .collectVote 1 ⟨2, firstBallot 2 1⟩ false]

/-- Without the condition a term can have two leaders. Node zero is about to count
a vote of term one when its timer starts the election of term two; the vote makes it
the leader of term two, which nobody has voted for, and node one wins that term. -/
theorem two_leaders_in_one_term :
    ∃ s : Cluster 3, Library.Reachable Cluster.step (init 3) s ∧
      (0, 2) ∈ s.promoted ∧ (1, 2) ∈ s.promoted :=
  Library.exists_reachable (fun s : Cluster 3 => (0, 2) ∈ s.promoted ∧ (1, 2) ∈ s.promoted)
    lateCount (by decide +kernel)

end Cluster

end RaftKv.Raft
