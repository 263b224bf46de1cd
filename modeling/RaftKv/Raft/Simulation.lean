import RaftKv.Raft.Replication

/-!
# Every section keeps the cluster a ledger

One step of the cluster is a step of the ledger, or none. `Guarded` collects the four
places where the code lets through what the protocol does not allow; outside of them
nothing is assumed about the order, loss or repetition of messages.
-/

namespace RaftKv.Raft

open Library Library.Ledger

variable {n : Nat} {h h' : History n} {s t : Cluster n}

/-- The node has the last included entry of the snapshot that it takes. -/
def HoldsSnapshot (rf : Raftserver) (args : InstallSnapshotArgs) : Prop :=
  rf.currentTerm ≤ args.term → rf.lastIncludedIndex ≤ args.lastIncludedIndex →
    rf.commitIndex ≤ args.lastIncludedIndex →
      (rf.entryAt args.lastIncludedIndex).map Entry.term = some args.lastIncludedTerm

/-- What a step has to respect beyond the checks in the code. -/
def Guarded (s : Cluster n) : Action n → Prop
  | .collectVote i r outTime => Cluster.CountsOwnTerm s (.collectVote i r outTime)
  | .commitIndexReply i r => (s.nodes i).rf.role = .leader →
      (s.nodes i).rf.commitIndex ≤ r.term → (s.nodes i).rf.commitIndex ≤ r.commitIndex →
        r.term ≤ (s.nodes i).rf.currentTerm
  | .appendEntries r => CommitsWithin (s.nodes r.server).rf r.args
  | .heartBeat r => CommitsWithin (s.nodes r.server).rf r.args
  | .installSnapshot r => HoldsSnapshot (s.nodes r.server).rf r.args
  | _ => True

theorem pos_of_odd (hn : Odd n) : 0 < n := by
  obtain ⟨k, rfl⟩ := hn
  omega

/-- An odd number of nodes, two of them different. -/
theorem three_le_of_ne (hn : Odd n) {i j : Fin n} (hne : i ≠ j) : 3 ≤ n := by
  obtain ⟨k, rfl⟩ := hn
  have := Fin.val_ne_of_ne hne
  omega

theorem Guarded.countsOwnTerm {a : Action n} (guarded : Guarded s a) :
    Cluster.CountsOwnTerm s a := by
  cases a <;> first | exact guarded | trivial

namespace Sim

theorem stood_le (sim : Sim h s) (inv : s.VoteInv) (c : Fin n) (t : Int)
    (stood : Cluster.Stood s.voteReqs c t) : t ≤ h.term c := by
  rw [(sim.nodes c).term]
  exact (inv.stood c t stood).1

theorem leader_le (sim : Sim h s) (inv : s.VoteInv) {t : Int} {c : Fin n}
    (hleader : h.leader t = some c) : t ≤ h.term c :=
  sim.stood_le inv c t (inv.promoted _ (sim.traffic.promoted t c hleader)).1

/-- One node moves, and what it now has to send is agreed. -/
theorem move (sim : Sim h s) (inv : s.VoteInv) {i : Fin n} (node : Node)
    (moves : Moves i h h') (sound : SoundHistory h') (voted : h'.voted = h.voted)
    (leaders : h'.leader = h.leader) (moved : NodeSim h' i node.rf)
    (messages : ∀ msg ∈ node.messages, MsgAgreed h' msg) : Sim h' (s.setNode i node) := by
  have traffic := sim.traffic.grow moves.toExtends (leaders ▸ sim.traffic.promoted)
  refine ⟨sound, nodes_setNode sim.nodes moves moved, { traffic with messages := ?_ },
    ⟨(sim.ballots.grow moves voted (sim.stood_le inv)).ballot,
      (sim.ballots.grow moves voted (sim.stood_le inv)).grant⟩⟩
  exact fun j => Cluster.setNode_cases j messages fun _ => traffic.messages j

theorem quiet (sim : Sim h s) (inv : s.VoteInv) {i : Fin n} (node : Node)
    (quiet : (s.nodes i).rf.Quiet node.rf)
    (messages : ∀ msg ∈ node.messages, msg ∈ (s.nodes i).messages) :
    Sim (h.raise i node.rf.currentTerm) (s.setNode i node) := by
  have later : h.term i ≤ node.rf.currentTerm := by
    rw [(sim.nodes i).term]
    exact quiet.term
  refine sim.move inv node (raise_moves later) (sim.sound.raise later) rfl rfl
    ((sim.nodes i).quiet quiet fun t ht => sim.leader_le inv ht) ?_
  intro msg hmsg
  exact (sim.traffic.messages i msg (messages msg hmsg)).grow (raise_extends later)

/-- The same for a section that only changes the peer itself. -/
theorem quietRf (sim : Sim h s) (inv : s.VoteInv) {i : Fin n} {rf : Raftserver}
    (quiet : (s.nodes i).rf.Quiet rf) : Sim (h.raise i rf.currentTerm) (s.setRf i rf) :=
  sim.quiet inv { s.nodes i with rf := rf } quiet fun _ hmsg => hmsg

end Sim

/-! ## Votes -/

namespace Raftserver

/-- The requests of a candidate describe its log. -/
theorem startElection_describes {rf : Raftserver} {x : List Entry} (window : rf.Window x)
    {result : Raftserver × RequestVoteArgs} (hresult : rf.startElection = some result) :
    Describes result.2 x := by
  obtain ⟨last, calls, hlast, rfl⟩ := startElection_outcome hresult
  rw [window.lastEntry] at hlast
  refine ⟨?_, by rw [hlast, Option.map_some]⟩
  dsimp only
  rw [window.lastIndex]
  omega

/-- A vote is given only to a request that is up to date. -/
theorem requestVote_passes {rf : Raftserver} {x : List Entry} (window : rf.Window x)
    {args : RequestVoteArgs} {result : Raftserver × RequestVoteReply}
    (hresult : rf.requestVote args = some result) (granted : result.2.voteGranted = true) :
    result.1.currentTerm = args.term ∧ Raft.Passes args x := by
  obtain ⟨observed, observes, rfl | ⟨-, -, last, calls, hlast, hcheck, rfl⟩⟩ :=
    requestVote_outcome hresult
  · cases granted
  have hwindow := window.congr observes.quiet.log observes.quiet.includedIndex
  rw [hwindow.lastEntry] at hlast
  refine ⟨rfl, last, hlast, hcheck.imp id fun same => ⟨same.2.symm, ?_⟩⟩
  have := same.1
  rw [hwindow.lastIndex] at this
  omega

end Raftserver

theorem NodeSim.vote {i j : Fin n} {rf : Raftserver} (node : NodeSim h j rf) :
    NodeSim (h.vote i) j rf :=
  { node with committed := vote_extends.committed node.committed le_rfl }

namespace Sim

/-- A vote in a term that nobody leads yet is put on record. -/
theorem vote (sim : Sim h s) {v : Fin n} (hopen : h.leader (h.term v) = none)
    (ballots : Ballots (h.vote v) s) : Sim (h.vote v) s :=
  ⟨sim.sound.vote hopen, fun j => (sim.nodes j).vote,
    sim.traffic.grow vote_extends sim.traffic.promoted, ballots⟩

theorem startElection (sim : Sim h s) (inv : s.VoteInv) {i : Fin n}
    (hstep : s.step (.startElection i) = some t) : ∃ h', Extends h h' ∧ Sim h' t := by
  obtain ⟨-, ⟨rf, args⟩, hresult, rfl⟩ := enabled_map.mp hstep
  obtain ⟨-, -, hterm, -, -, hargs, hcand⟩ := Raftserver.startElection_spec hresult
  have quiet := Raftserver.startElection_quiet hresult
  dsimp only at hterm hargs hcand quiet ⊢
  rw [inv.me i] at hcand
  have hcurrent := (sim.nodes i).term
  have later : h.term i ≤ rf.currentTerm := by omega
  have raised := sim.quiet inv
    { s.nodes i with rf := rf, elections := (s.nodes i).elections - 1 } quiet fun _ hmsg => hmsg
  dsimp only at raised
  set node : Node := { s.nodes i with rf := rf, elections := (s.nodes i).elections - 1 }
  set calls : List (Rpc n RequestVoteArgs) := (s.peersOf i).map fun j => ⟨j, args⟩
  set h₁ := h.raise i rf.currentTerm with hh₁
  have hterm₁ : h₁.term i = args.term := by
    rw [hargs, ← hterm]
    simp [hh₁, Ledger.raise]
  have called {r : Rpc n RequestVoteArgs} (hr : r ∈ calls) : r.args = args := by
    obtain ⟨j, -, rfl⟩ := List.mem_map.mp hr
    rfl
  by_cases hopen : h₁.leader (h₁.term i) = none
  · -- the candidate votes for itself, with the log that its requests describe
    have hstood {r : Rpc n RequestVoteArgs} (hr : r ∈ s.voteReqs) (hc : r.args.candidateId = some (i : Nat)) :
        r.args.term ≠ h₁.term i := by
      have := sim.stood_le inv i _ ⟨r, hr, hc, rfl⟩
      omega
    have hgranted {p : Rpc n RequestVoteArgs × RequestVoteReply} (hp : p ∈ s.voteReplies)
        (hg : p.2.voteGranted = true) (hs : p.1.server = i) : p.1.args.term ≠ h₁.term i := by
      obtain ⟨c, hc, -⟩ := inv.sender p.1 (inv.replied p hp)
      have := (inv.granted i c p.1.args.term ⟨p.1, p.2, hp, hg, hs, hc, rfl⟩).1
      omega
    have voted : Sim (h₁.vote i) (s.setNode i node) := by
      refine raised.vote hopen ⟨fun r hr c hc ho => ?_, fun p hp hg ho => ?_⟩
      · obtain ⟨w, hw, hrest⟩ := raised.ballots.ballot r hr c hc ho
        refine ⟨w, ?_, hrest⟩
        by_cases hci : c = i
        · subst hci
          simpa [Ledger.vote, hstood hr hc] using hw
        · simpa [Ledger.vote, hci] using hw
      · obtain ⟨w, hw, hpasses⟩ := raised.ballots.grant p hp hg ho
        refine ⟨w, ?_, hpasses⟩
        by_cases hs : p.1.server = i
        · simpa [Ledger.vote, hs, hgranted hp hg hs] using hs ▸ hw
        · simpa [Ledger.vote, hs] using hw
    refine ⟨h₁.vote i, (raise_extends later).trans vote_extends, voted.sound, voted.nodes,
      { voted.traffic with }, ⟨fun r hr c hc ho => ?_, voted.ballots.grant⟩⟩
    rcases List.mem_append.mp hr with hr | hr
    · rw [called hr] at hc ho ⊢
      have hci : c = i := Fin.ext (Option.some.inj (hc.symm.trans hcand))
      subst hci
      refine ⟨h.log c, ?_, Raftserver.startElection_describes (sim.nodes c).window hresult, ?_, fun _ => rfl⟩
      · rw [← hterm₁]
        exact vote_voted_self
      · intro e he
        have := sim.sound.log_stamp c e he
        omega
    · exact voted.ballots.ballot r hr c hc ho
  · refine ⟨h₁, raise_extends later, raised.sound, raised.nodes, { raised.traffic with },
      ⟨fun r hr c hc ho => ?_, raised.ballots.grant⟩⟩
    rcases List.mem_append.mp hr with hr | hr
    · rw [called hr, ← hterm₁] at ho
      exact absurd ho hopen
    · exact raised.ballots.ballot r hr c hc ho

theorem requestVote (sim : Sim h s) (inv : s.VoteInv) {r : Rpc n RequestVoteArgs}
    (hstep : s.step (.requestVote r) = some t) : ∃ h', Extends h h' ∧ Sim h' t := by
  have inv' := inv.requestVote hstep
  obtain ⟨hr, ⟨rf, reply⟩, hresult, rfl⟩ := enabled_map.mp hstep
  dsimp only at inv' ⊢
  obtain ⟨cand, hcand, hne⟩ := inv.sender r hr
  have own : (s.nodes r.server).rf.role = .leader →
      (s.nodes r.server).rf.votedFor ≠ none ∧
        (s.nodes r.server).rf.votedFor ≠ r.args.candidateId := by
    intro role
    have hleads := (sim.nodes r.server).leads.mp role
    have hvote := (inv.stood r.server _ (inv.promoted _ (sim.traffic.promoted _ _ hleads)).1).2 rfl
    rw [hvote, hcand]
    exact ⟨by simp, fun heq => hne (Fin.ext (Option.some.inj heq)).symm⟩
  have quiet := Raftserver.requestVote_quiet own hresult
  have later : h.term r.server ≤ rf.currentTerm := by
    rw [(sim.nodes r.server).term]
    exact quiet.term
  have raised := sim.quietRf inv quiet
  dsimp only at raised
  set h₁ := h.raise r.server rf.currentTerm with hh₁
  have old (p : Rpc n RequestVoteArgs × RequestVoteReply) (hp : p ∈ (r, reply) :: s.voteReplies) :
      p = (r, reply) ∨ p ∈ s.voteReplies := List.mem_cons.mp hp
  cases hgrant : reply.voteGranted with
  | false =>
      refine ⟨h₁, raise_extends later, raised.sound, raised.nodes, { raised.traffic with },
        ⟨raised.ballots.ballot, fun p hp hg ho => ?_⟩⟩
      rcases old p hp with rfl | hp
      · rw [hgrant] at hg
        cases hg
      · exact raised.ballots.grant p hp hg ho
  | true =>
      obtain ⟨hterm, hpasses⟩ :=
        Raftserver.requestVote_passes (sim.nodes r.server).window hresult hgrant
      have hterm₁ : h₁.term r.server = r.args.term := by
        rw [← hterm]
        simp [hh₁, Ledger.raise]
      have granted : Cluster.Granted ((r, reply) :: s.voteReplies) r.server cand r.args.term :=
        ⟨r, reply, List.mem_cons_self, hgrant, rfl, hcand, rfl⟩
      by_cases hopen : h₁.leader (h₁.term r.server) = none
      · have voted : Sim (h₁.vote r.server) (s.setRf r.server rf) := by
          refine raised.vote hopen ⟨fun r' hr' c hc ho => ?_, fun p hp hg ho => ?_⟩
          · -- a node that votes for another one has not stood in that term
            obtain ⟨w, hw, hrest⟩ := raised.ballots.ballot r' hr' c hc ho
            refine ⟨w, ?_, hrest⟩
            by_cases hci : c = r.server
            · subst hci
              have hterms : r'.args.term ≠ h₁.term r.server := by
                intro heq
                exact inv'.foreign _ _ _ granted ⟨r', hr', hc, heq.trans hterm₁⟩
              simpa [Ledger.vote, hterms] using hw
            · simpa [Ledger.vote, hci] using hw
          · obtain ⟨w, hw, hold⟩ := raised.ballots.grant p hp hg ho
            by_cases hsame : p.1.server = r.server ∧ p.1.args.term = r.args.term
            · -- the same vote once more, for the same request
              obtain ⟨c, hc, -⟩ := inv.sender p.1 (inv.replied p hp)
              have hcc : c = cand := inv'.unique r.server c cand r.args.term
                ⟨p.1, p.2, List.mem_cons_of_mem _ hp, hg, hsame.1, hc, hsame.2⟩ granted
              have hargs := inv.request p.1 (inv.replied p hp) r hr
                (by rw [hc, hcand, hcc]) hsame.2
              refine ⟨h.log r.server, ?_, hargs ▸ hpasses⟩
              rw [hsame.1, hsame.2, ← hterm₁]
              exact vote_voted_self
            · refine ⟨w, ?_, hold⟩
              rw [← hterm₁] at hsame
              by_cases hserver : p.1.server = r.server
              · have hterms : p.1.args.term ≠ h₁.term r.server := fun heq => hsame ⟨hserver, heq⟩
                simpa [Ledger.vote, hserver, hterms] using hserver ▸ hw
              · simpa [Ledger.vote, hserver] using hw
        refine ⟨h₁.vote r.server, (raise_extends later).trans vote_extends, voted.sound,
          voted.nodes, { voted.traffic with }, ⟨voted.ballots.ballot, fun p hp hg ho => ?_⟩⟩
        rcases old p hp with rfl | hp
        · refine ⟨h.log r.server, ?_, hpasses⟩
          dsimp only
          rw [← hterm₁]
          exact vote_voted_self
        · exact voted.ballots.grant p hp hg ho
      · refine ⟨h₁, raise_extends later, raised.sound, raised.nodes, { raised.traffic with },
          ⟨raised.ballots.ballot, fun p hp hg ho => ?_⟩⟩
        rcases old p hp with rfl | hp
        · dsimp only at ho
          rw [← hterm₁] at ho
          exact absurd ho hopen
        · exact raised.ballots.grant p hp hg ho

theorem procVoteAnswer (sim : Sim h s) (inv : s.VoteInv) {i : Fin n}
    {r : Rpc n RequestVoteArgs} {reply : RequestVoteReply}
    (hstep : s.step (.procVoteAnswer i r reply) = some t) : ∃ h', Extends h h' ∧ Sim h' t := by
  obtain ⟨-, ⟨rf, counted⟩, hresult, rfl⟩ := enabled_map.mp hstep
  have quiet := Raftserver.procVoteAnswer_quiet hresult
  have raised := sim.quietRf inv quiet
  have later : h.term i ≤ rf.currentTerm := by
    rw [(sim.nodes i).term]
    exact quiet.term
  exact ⟨_, raise_extends later, raised.sound, raised.nodes, { raised.traffic with },
    ⟨raised.ballots.ballot, raised.ballots.grant⟩⟩

theorem upToDate_of_passes {args : RequestVoteArgs} {x w : List Entry} (describes : Describes args x)
    (passes : Passes args w) : UpToDate Entry.term x w := by
  obtain ⟨hlen, hlast⟩ := describes
  obtain ⟨a, ha, hterm⟩ := Option.map_eq_some_iff.mp hlast
  obtain ⟨b, hb, hcheck⟩ := passes
  refine ⟨a, b, ha, hb, ?_⟩
  rw [hterm]
  exact hcheck.imp id fun same => ⟨same.1, by omega⟩

/-- A majority of votes for a node whose term has no leader makes it one. -/
theorem elected (sim : Sim h s) (inv : s.VoteInv) {i : Fin n}
    (elected : s.Elected i (s.nodes i).rf.currentTerm)
    (hopen : h.leader (h.term i) = none) :
    0 < h.term i ∧ SoundHistory (h.elect i) := by
  obtain ⟨⟨r, hr, hcand, hterm⟩, Q, hQ, votes⟩ := elected
  rw [← (sim.nodes i).term] at hterm votes
  obtain ⟨w, hvoted, describes, older, current⟩ :=
    sim.ballots.ballot r hr i hcand (by rwa [hterm])
  have hlog := current hterm.symm
  rw [hterm] at hvoted older
  have fresh : 0 < h.term i := by
    refine older {} ?_
    rw [← hlog]
    exact (sim.sound.root_log i).subset (by simp [root])
  refine ⟨fresh, sim.sound.elect hopen fresh (hlog ▸ older) ⟨_, ⟨Q, fun v hv => hv, hQ⟩, ?_⟩⟩
  intro v hv
  rcases votes v hv with rfl | ⟨r', reply, hreply, hgranted, hserver, hcand', hterm'⟩
  · refine ⟨w, hvoted, ?_⟩
    obtain ⟨hlen, hlast⟩ := describes
    obtain ⟨a, ha, -⟩ := Option.map_eq_some_iff.mp hlast
    exact ⟨a, a, hlog ▸ ha, ha, .inr ⟨rfl, by rw [hlog]⟩⟩
  · obtain ⟨w', hvoted', passes⟩ :=
      sim.ballots.grant (r', reply) hreply hgranted (by dsimp only; rwa [hterm'])
    have hargs : r'.args = r.args := inv.request r' (inv.replied _ hreply) r hr
      (hcand'.trans hcand.symm) (hterm'.trans hterm.symm)
    dsimp only at hvoted' passes
    rw [hserver, hterm'] at hvoted'
    refine ⟨w', hvoted', ?_⟩
    rw [hlog]
    exact upToDate_of_passes describes (hargs ▸ passes)

theorem collectVote (hn : Odd n) (sim : Sim h s) (inv : s.VoteInv) {i : Fin n}
    {r : Rpc n RequestVoteArgs} {outTime : Bool}
    (own : Cluster.CountsOwnTerm s (.collectVote i r outTime))
    (hstep : s.step (.collectVote i r outTime) = some t) : ∃ h', Extends h h' ∧ Sim h' t := by
  have inv' := inv.collectVote hn own hstep
  obtain ⟨-, rfl⟩ := enabled_some.mp hstep
  obtain ⟨-, -, hterm, -, hrole, -⟩ := Raftserver.collectVote_spec (s.nodes i).rf outTime
  rcases hrole with hsame | ⟨hleader, hcand, hlow, henough⟩
  · have quiet := Raftserver.collectVote_quiet hsame
    have raised := sim.quietRf inv quiet
    have later : h.term i ≤ ((s.nodes i).rf.collectVote outTime).currentTerm := by
      rw [(sim.nodes i).term]
      exact quiet.term
    refine ⟨_, raise_extends later, raised.sound, raised.nodes,
      { raised.traffic with promoted := fun u c hc => ?_ },
      ⟨raised.ballots.ballot, raised.ballots.grant⟩⟩
    have hold := raised.traffic.promoted u c hc
    dsimp only
    split
    · exact List.mem_cons_of_mem _ hold
    · exact hold
  · -- nobody else can have won this term, and the node itself is not yet its leader
    have hpromoted : (s.nodes i).rf.role ≠ .leader ∧
        ((s.nodes i).rf.collectVote outTime).role = .leader := ⟨by simp [hcand], hleader⟩
    dsimp only at inv' ⊢
    rw [if_pos hpromoted] at inv' ⊢
    have won : s.Elected i (s.nodes i).rf.currentTerm := by
      rw [← hterm]
      exact inv'.promoted _ List.mem_cons_self
    have hopen : h.leader (h.term i) = none := by
      by_contra hsome
      obtain ⟨c, hc⟩ := Option.ne_none_iff_exists'.mp hsome
      rw [(sim.nodes i).term] at hc
      have hci : c = i := Cluster.Elected.unique inv
        (inv.promoted _ (sim.traffic.promoted _ c hc)) won
      subst hci
      have hlead := (sim.nodes c).leads.mpr hc
      rw [hcand] at hlead
      cases hlead
    obtain ⟨fresh, sound⟩ := sim.elected inv won hopen
    have moves := elect_moves sim.sound hopen fresh
    have hrf : (s.nodes i).rf.collectVote outTime =
        { (s.nodes i).rf with voteCount := (s.nodes i).rf.voteCount + 1 }.becomeLeader := by
      unfold Raftserver.collectVote
      rw [if_neg hlow]
      split
      · rfl
      · rename_i hnot
        unfold Raftserver.collectVote at hleader
        rw [if_neg hlow, if_neg hnot] at hleader
        dsimp only at hleader
        rw [hcand] at hleader
        cases hleader
    have node : NodeSim (h.elect i) i ((s.nodes i).rf.collectVote outTime) := by
      rw [hrf]
      have counted : NodeSim h i
          { (s.nodes i).rf with voteCount := (s.nodes i).rf.voteCount + 1 } :=
        { sim.nodes i with window := (sim.nodes i).window.congr rfl rfl }
      exact counted.becomeLeader sim.sound hopen fresh
    have traffic : Traffic (h.elect i) { s with promoted :=
        (i, ((s.nodes i).rf.collectVote outTime).currentTerm) :: s.promoted } := by
      refine Traffic.grow { sim.traffic with promoted := fun u c hc => ?_ } moves.toExtends ?_
      · exact List.mem_cons_of_mem _ (sim.traffic.promoted u c hc)
      · intro u c hc
        rw [hterm, ← (sim.nodes i).term]
        by_cases hu : u = h.term i
        · subst hu
          have hci : i = c := by simpa [Ledger.elect] using hc
          subst hci
          exact List.mem_cons_self
        · have hold : h.leader u = some c := by simpa [Ledger.elect, hu] using hc
          exact List.mem_cons_of_mem _ (sim.traffic.promoted u c hold)
    have ballots := sim.ballots.grow moves rfl (sim.stood_le inv)
    refine ⟨h.elect i, moves.toExtends, sound, nodes_setNode sim.nodes moves node,
      { traffic with messages := fun j msg hmsg => ?_ }, ⟨ballots.ballot, ballots.grant⟩⟩
    refine traffic.messages j msg ?_
    by_cases hj : j = i
    · subst hj
      simpa [Cluster.setRf, Node.messages] using hmsg
    · simpa [hj] using hmsg

/-! ## Replication -/

/-- A request that has been sent, handled by the server it was sent to. -/
theorem handleAppend (sim : Sim h s) (inv : s.VoteInv) {r : Rpc n AppendEntriesArgs}
    (sent : AppendSent h r) (within : CommitsWithin (s.nodes r.server).rf r.args)
    {result : Raftserver × AppendEntriesReply}
    (hresult : (s.nodes r.server).rf.appendEntries r.args = some result) :
    ∃ h', Extends h h' ∧ Sim h' (s.setRf r.server result.1) ∧
      Acknowledged h' r result.2 := by
  rcases Raftserver.appendEntries_cases hresult with ⟨quiet, refused⟩ |
    ⟨observed, quiet, current, hterm, hcheck, haccept⟩
  · refine ⟨_, raise_extends ?_, sim.quietRf inv quiet, fun success => ?_⟩
    · rw [(sim.nodes r.server).term]
      exact quiet.term
    · rw [refused] at success
      cases success
  have later : h.term r.server ≤ observed.currentTerm := by
    rw [(sim.nodes r.server).term]
    exact quiet.term
  have sound₁ := sim.sound.raise later
  have node₁ := (sim.nodes r.server).quiet quiet fun u hu => sim.leader_le inv hu
  obtain ⟨node₂, sound₂, moves₂, acked⟩ := node₁.accept sound₁ (sent.grow (raise_extends later))
    rfl hterm hcheck haccept (by
      rw [quiet.commit]
      exact within.smaller quiet current hterm hcheck haccept)
  have moves := (raise_moves later).trans moves₂
  exact ⟨_, moves.toExtends,
    sim.move inv { s.nodes r.server with rf := result.1 } moves sound₂ rfl rfl node₂
      fun msg hmsg => (sim.traffic.messages r.server msg hmsg).grow moves.toExtends, acked⟩

theorem appendEntries (sim : Sim h s) (inv : s.VoteInv) {r : Rpc n AppendEntriesArgs}
    (within : CommitsWithin (s.nodes r.server).rf r.args)
    (hstep : s.step (.appendEntries r) = some t) : ∃ h', Extends h h' ∧ Sim h' t := by
  obtain ⟨hr, result, hresult, rfl⟩ := enabled_map.mp hstep
  have sent := sim.traffic.appendReqs r hr
  obtain ⟨h', grows, after, acked⟩ := sim.handleAppend inv sent within hresult
  refine ⟨h', grows, after.sound, after.nodes,
    { after.traffic with appendReplies := fun p hp => ?_ },
    ⟨after.ballots.ballot, after.ballots.grant⟩⟩
  rcases List.mem_cons.mp hp with rfl | hp
  · exact ⟨sent.grow grows, acked⟩
  · exact after.traffic.appendReplies p hp

theorem heartBeat (sim : Sim h s) (inv : s.VoteInv) {r : Rpc n AppendEntriesArgs}
    (within : CommitsWithin (s.nodes r.server).rf r.args)
    (hstep : s.step (.heartBeat r) = some t) : ∃ h', Extends h h' ∧ Sim h' t := by
  obtain ⟨hr, result, hresult, rfl⟩ := enabled_map.mp hstep
  obtain ⟨h', grows, after, -⟩ := sim.handleAppend inv (sim.traffic.beatReqs r hr) within hresult
  exact ⟨h', grows, after.sound, after.nodes, { after.traffic with },
    ⟨after.ballots.ballot, after.ballots.grant⟩⟩

theorem appendEntriesReply (hn : Odd n) (sim : Sim h s) (inv : s.VoteInv)
    {i : Fin n} {r : Rpc n AppendEntriesArgs} {reply : AppendEntriesReply}
    (hstep : s.step (.appendEntriesReply i r reply) = some t) :
    ∃ h', Extends h h' ∧ Sim h' t := by
  obtain ⟨⟨hr, hi⟩, ⟨rf, install⟩, hresult, rfl⟩ := enabled_map.mp hstep
  obtain ⟨sent, acked⟩ := sim.traffic.appendReplies _ hr
  obtain ⟨c, hc, hne, hleader⟩ := sent.leader
  have hci : c = i := Fin.ext (hc.symm.trans hi)
  subst hci
  -- whatever the section does to the node, it may also ask for a snapshot
  have finish {h' : History n} (after : Sim h' (s.setRf c rf)) :
      Sim h' { s.setRf c rf with
        installCalls := if install then (c, r.server) :: s.installCalls else s.installCalls } := by
    refine ⟨after.sound, after.nodes, { after.traffic with installCalls := fun p hp => ?_ },
      ⟨after.ballots.ballot, after.ballots.grant⟩⟩
    dsimp only at hp
    split at hp
    · rcases List.mem_cons.mp hp with rfl | hp
      · exact hne
      · exact after.traffic.installCalls p hp
    · exact after.traffic.installCalls p hp
  have hlen := Cluster.peers_length inv c
  have hthree := three_le_of_ne hn hne
  have node := sim.nodes c
  rcases Raftserver.sendAppendEntriesToServer_spec node.window (by omega) node.commit hresult with
    ⟨next, hrf, hkeys⟩ | ⟨hterm, success, k, hrf, hcommit⟩ | ⟨hlater, calls, hrf⟩
  · have quiet : (s.nodes c).rf.Quiet rf := by
      dsimp only at hrf
      rw [hrf]
      exact ⟨rfl, rfl, rfl, rfl, rfl, hkeys, le_rfl, by simp⟩
    refine ⟨_, raise_extends ?_, finish (sim.quietRf inv quiet)⟩
    rw [node.term]
    exact quiet.term
  · -- an acknowledgement in the current term comes to the leader of that term
    have role : (s.nodes c).rf.role = .leader := node.leads.mpr (hterm ▸ hleader)
    have moved : NodeSim h c rf := by
      dsimp only at hrf
      rw [hrf]
      exact (node.acknowledge hterm (acked success)).commitTo hn role (inv.peers c) hlen hcommit
    refine ⟨h, .refl h, finish ?_⟩
    exact sim.move inv { s.nodes c with rf := rf } (.refl c h) sim.sound rfl rfl moved
      (sim.traffic.messages c)
  · have quiet : (s.nodes c).rf.Quiet rf := by
      dsimp only at hrf
      rw [hrf]
      exact .later rfl rfl rfl rfl rfl rfl hlater (by simp)
    refine ⟨_, raise_extends ?_, finish (sim.quietRf inv quiet)⟩
    rw [node.term]
    exact quiet.term

theorem start (sim : Sim h s) (inv : s.VoteInv) {i : Fin n} {command : Op}
    (hstep : s.step (.start i command) = some t) : ∃ h', Extends h h' ∧ Sim h' t := by
  obtain ⟨⟨rf, answer⟩, hresult, rfl⟩ := Option.map_eq_some_iff.mp hstep
  obtain ⟨-, hsame⟩ | ⟨role, calls, hrf, -⟩ := Raftserver.start_outcome hresult
  · cases hsame
    exact ⟨h, .refl h, sim.move inv { s.nodes i with rf := (s.nodes i).rf } (.refl i h) sim.sound
      rfl rfl (sim.nodes i) (sim.traffic.messages i)⟩
  · cases hrf
    obtain ⟨moved, sound, moves⟩ := (sim.nodes i).start sim.sound role rfl
    exact ⟨_, moves.toExtends, sim.move inv _ moves sound rfl rfl moved
      fun msg hmsg => (sim.traffic.messages i msg hmsg).grow moves.toExtends⟩

theorem snapshot (sim : Sim h s) (inv : s.VoteInv) {i : Fin n} {index : Int} {data : Bytes}
    (hstep : s.step (.snapshot i index data) = some t) : ∃ h', Extends h h' ∧ Sim h' t := by
  obtain ⟨rf, hresult, rfl⟩ := Option.map_eq_some_iff.mp hstep
  exact ⟨h, .refl h, sim.move inv { s.nodes i with rf := rf } (.refl i h) sim.sound rfl rfl
    ((sim.nodes i).snapshot hresult) (sim.traffic.messages i)⟩

theorem installSnapshot (sim : Sim h s) (inv : s.VoteInv) {r : Rpc n InstallSnapshotArgs}
    (holds : HoldsSnapshot (s.nodes r.server).rf r.args)
    (hstep : s.step (.installSnapshot r) = some t) : ∃ h', Extends h h' ∧ Sim h' t := by
  obtain ⟨hr, ⟨rf, reply, msg⟩, hresult, rfl⟩ := enabled_map.mp hstep
  have sent := sim.traffic.installReqs r hr
  have node := sim.nodes r.server
  obtain ⟨-, hresult⟩ | ⟨hterm, hresult⟩ := Raftserver.installSnapshot_outcome hresult
  · cases hresult
    have same := sim.quietRf inv (.refl (s.nodes r.server).rf)
    exact ⟨_, raise_extends node.term.le, same.sound, same.nodes, { same.traffic with },
      ⟨same.ballots.ballot, same.ballots.grant⟩⟩
  obtain ⟨c, -, hne, hleader⟩ := sent.leader
  obtain ⟨quiet, hcurrent⟩ := Raftserver.observeSnapshot_quiet (s.nodes r.server).rf
    hterm (fun role hsame => node.not_leader (hsame ▸ hleader) hne role)
  set observed := (s.nodes r.server).rf.observeSnapshot r.args.term with hobserved
  have later : h.term r.server ≤ observed.currentTerm := by
    rw [node.term]
    exact quiet.term
  have node₁ := node.quiet quiet fun u hu => sim.leader_le inv hu
  have hentry : observed.entryAt r.args.lastIncludedIndex =
      (s.nodes r.server).rf.entryAt r.args.lastIncludedIndex := by
    unfold Raftserver.entryAt Raftserver.globalToLocal
    rw [quiet.log, quiet.includedIndex]
  obtain ⟨node₂, hvalid⟩ := node₁.install (sim.sound.raise later) (sent.grow (raise_extends later))
    rfl hcurrent (fun hle hcommit => by
      rw [hentry]
      exact holds hterm (quiet.includedIndex ▸ hle) (quiet.commit ▸ hcommit)) hresult
  refine ⟨_, raise_extends later, ?_⟩
  have old (m : ApplyMsg) (hm : m ∈ (s.nodes r.server).messages) :=
    (sim.traffic.messages r.server m hm).grow (raise_extends later)
  cases msg with
  | none =>
      have after := sim.move inv { s.nodes r.server with rf := rf } (raise_moves later)
        (sim.sound.raise later) rfl rfl node₂ old
      exact ⟨after.sound, after.nodes, { after.traffic with },
        ⟨after.ballots.ballot, after.ballots.grant⟩⟩
  | some msg =>
      refine sim.move inv _ (raise_moves later) (sim.sound.raise later) rfl rfl node₂ ?_
      intro m hm
      by_cases hnew : m = msg
      · intro valid
        rw [hnew, hvalid msg rfl] at valid
        cases valid
      · refine old m ?_
        simpa [Node.messages, hnew] using hm

/-! ## Sending -/

theorem startSendAppendEntries (sim : Sim h s) (inv : s.VoteInv) {i : Fin n}
    (hstep : s.step (.startSendAppendEntries i) = some t) : ∃ h', Extends h h' ∧ Sim h' t := by
  obtain ⟨role, sends, hsends, rfl⟩ := enabled_map.mp hstep
  have built (p : Fin n × Option AppendEntriesArgs) (hp : p ∈ sends) :
      i ≠ p.1 ∧ (s.nodes i).rf.startSendAppendEntries p.1 = some p.2 := by
    obtain ⟨j, hj, args, hbuilt, rfl⟩ := collect_mem hsends hp
    exact ⟨(Cluster.mem_peersOf inv hj).symm, hbuilt⟩
  refine ⟨h, .refl h, sim.sound, sim.nodes,
    { sim.traffic with appendCalls := fun r hr => ?_, installCalls := fun p hp => ?_ },
    ⟨sim.ballots.ballot, sim.ballots.grant⟩⟩
  · rcases List.mem_append.mp hr with hr | hr
    · obtain ⟨⟨j, args⟩, hp, hargs⟩ := List.mem_filterMap.mp hr
      obtain ⟨args, rfl, rfl⟩ := Option.map_eq_some_iff.mp hargs
      obtain ⟨hj, hsend⟩ := built _ hp
      exact (sim.nodes i).startSendAppendEntries_sent role hj (inv.me i) hsend
    · exact sim.traffic.appendCalls r hr
  · rcases List.mem_append.mp hp with hp | hp
    · obtain ⟨q, hq, rfl⟩ := List.mem_map.mp hp
      exact (built q (List.mem_filter.mp hq).1).1
    · exact sim.traffic.installCalls p hp

theorem singleHeartBeat (sim : Sim h s) (inv : s.VoteInv) {i : Fin n}
    (hstep : s.step (.singleHeartBeat i) = some t) : ∃ h', Extends h h' ∧ Sim h' t := by
  obtain ⟨role, beats, hbeats, rfl⟩ := enabled_map.mp hstep
  refine ⟨h, .refl h, sim.sound, sim.nodes, { sim.traffic with beatReqs := fun r hr => ?_ },
    ⟨sim.ballots.ballot, sim.ballots.grant⟩⟩
  rcases List.mem_append.mp hr with hr | hr
  · obtain ⟨j, hj, args, hbuilt, rfl⟩ := collect_mem hbeats hr
    exact (sim.nodes i).singleHeartBeat_sent role (Cluster.mem_peersOf inv hj).symm (inv.me i) hbuilt
  · exact sim.traffic.beatReqs r hr

theorem sendAppendEntries (sim : Sim h s) {i : Fin n} {r : Rpc n AppendEntriesArgs}
    (hstep : s.step (.sendAppendEntries i r) = some t) : ∃ h', Extends h h' ∧ Sim h' t := by
  obtain ⟨⟨hr, -, -⟩, rfl⟩ := enabled_some.mp hstep
  refine ⟨h, .refl h, sim.sound, sim.nodes,
    { sim.traffic with
      appendCalls := fun r' hr' => sim.traffic.appendCalls r' (List.mem_of_mem_erase hr')
      appendReqs := fun r' hr' => ?_ }, ⟨sim.ballots.ballot, sim.ballots.grant⟩⟩
  rcases List.mem_cons.mp hr' with rfl | hr'
  · exact sim.traffic.appendCalls _ hr
  · exact sim.traffic.appendReqs r' hr'

theorem sendInstallSnapshot (sim : Sim h s) (inv : s.VoteInv) {i j : Fin n}
    (hstep : s.step (.sendInstallSnapshot i j) = some t) : ∃ h', Extends h h' ∧ Sim h' t := by
  obtain ⟨⟨hcall, role⟩, args, hargs, rfl⟩ := enabled_map.mp hstep
  refine ⟨h, .refl h, sim.sound, sim.nodes,
    { sim.traffic with
      installCalls := fun p hp => sim.traffic.installCalls p (List.mem_of_mem_erase hp)
      installReqs := fun r hr => ?_ }, ⟨sim.ballots.ballot, sim.ballots.grant⟩⟩
  rcases List.mem_cons.mp hr with rfl | hr
  · exact (sim.nodes i).installSnapshot_sent role (sim.traffic.installCalls _ hcall) (inv.me i) hargs
  · exact sim.traffic.installReqs r hr

end Sim

/-! ## Delivery -/

/-- Every command that `CommitCheck` puts into its buffer is at its index in the log. -/
theorem Raftserver.commitBuffer_mem {rf : Raftserver} {fuel : Nat} {applied : Int}
    {buffer : List ApplyMsg} (hbuffer : rf.commitBuffer fuel applied = some buffer)
    {msg : ApplyMsg} (hmsg : msg ∈ buffer) :
    applied < msg.commandIndex ∧ msg.commandIndex ≤ rf.commitIndex ∧
      (rf.lastIncludedIndex < msg.commandIndex → msg.commandValid = msg.command.isSome) ∧
      ∃ e, rf.entryAt msg.commandIndex = some e ∧ e.command = msg.command := by
  induction fuel generalizing applied buffer with
  | zero =>
      cases hbuffer
      cases hmsg
  | succ fuel ih =>
      unfold commitBuffer at hbuffer
      split at hbuffer
      · obtain ⟨e, he, hbuffer⟩ := Option.bind_eq_some_iff.mp hbuffer
        obtain ⟨rest, hrest, rfl⟩ := Option.map_eq_some_iff.mp hbuffer
        rcases List.mem_cons.mp hmsg with rfl | hmsg
        · exact ⟨by dsimp only; omega, by dsimp only; omega, fun hlt => by simp [hlt], e, he, rfl⟩
        · obtain ⟨hlt, hrest⟩ := ih hrest hmsg
          exact ⟨by omega, hrest⟩
      · cases hbuffer
        cases hmsg

namespace Node

variable {node node' : Node}

/-- `CommitCheck` has put the message into its buffer. -/
def Collects (node : Node) (msg : ApplyMsg) : Prop :=
  ∃ fuel buffer, node.rf.commitBuffer fuel node.rf.lastApplied = some buffer ∧ msg ∈ buffer

/-- The messages of a node move on, from `CommitCheck` to the channel, and new ones are
collected from the log. -/
structure Forwards (node node' : Node) : Prop where
  installing : node'.installing = node.installing
  checker : ∀ msg ∈ node'.checker.messages, msg ∈ node.checker.messages ∨ node.Collects msg
  applyCh : ∀ msg ∈ node'.applyCh, msg ∈ node.checker.messages ∨ msg ∈ node.applyCh
  delivered : ∀ msg ∈ node'.delivered, msg ∈ node.checker.messages ∨ msg ∈ node.delivered

theorem Checks.forwards (h : node.Checks node') : node.Forwards node' := by
  cases h with
  | collect waiting behind collected =>
      exact ⟨rfl, fun _ here => .inr ⟨_, _, collected, here⟩, fun _ => .inr, fun _ => .inr⟩
  | finish empty => exact ⟨rfl, nofun, fun _ => .inr, fun _ => .inr⟩
  | pick first next =>
      refine ⟨rfl, fun _ here => .inl ?_, fun _ => .inr, fun _ => .inr⟩
      rw [first]
      exact here
  | send first room =>
      have here {msg : ApplyMsg} {applied : Int} {rest : List ApplyMsg}
          (first : node.checker = .sending msg applied rest) : msg ∈ node.checker.messages := by
        rw [first]
        exact List.mem_cons_self
      refine ⟨rfl, fun _ old => .inl ?_, fun _ new => .inl ?_, fun _ sent => ?_⟩
      · rw [first]
        exact old
      · rw [List.mem_singleton.mp new]
        exact here first
      · rcases List.mem_cons.mp sent with rfl | old
        · exact .inl (here first)
        · exact .inr old
  | skip first | leave first | advance first =>
      refine ⟨rfl, fun _ here => .inl ?_, fun _ => .inr, fun _ => .inr⟩
      rw [first]
      exact List.mem_cons_of_mem _ here

theorem Forwards.messages (h : node.Forwards node') {msg : ApplyMsg} (hmsg : msg ∈ node'.messages) :
    msg ∈ node.messages ∨ node.Collects msg := by
  simp only [Node.messages, List.mem_append] at hmsg ⊢
  rcases hmsg with (here | installing) | sent
  · exact (h.checker msg here).imp (fun old => .inl (.inl old)) id
  · rw [h.installing] at installing
    exact .inl (.inl (.inr installing))
  · exact .inl ((h.delivered msg sent).imp .inl id)

end Node

/-- What a committed index holds is agreed. -/
theorem NodeSim.agreed {i : Fin n} {rf : Raftserver} (node : NodeSim h i rf) {msg : ApplyMsg}
    (hle : msg.commandIndex ≤ rf.commitIndex) {e : Entry}
    (he : rf.entryAt msg.commandIndex = some e) (hcommand : e.command = msg.command) :
    MsgAgreed h msg := by
  intro _
  obtain ⟨hindex, hx⟩ := node.window.entryAt.mp he
  have hnonneg := node.window.nonneg
  refine ⟨_, _, e, node.committed, by omega, ?_, hcommand⟩
  rw [List.getElem?_take_of_lt (by omega)]
  exact hx

namespace Sim

theorem commitCheck (sim : Sim h s) (inv : s.VoteInv) {i : Fin n}
    (hstep : s.step (.commitCheck i) = some t) : ∃ h', Extends h h' ∧ Sim h' t := by
  obtain ⟨node, hnode, rfl⟩ := Option.map_eq_some_iff.mp hstep
  have checks := Node.checks_of_commitCheck hnode
  obtain ⟨applied, hrf⟩ := checks.rf_eq
  have moved : NodeSim h i node.rf := by
    rw [hrf]
    exact { sim.nodes i with window := (sim.nodes i).window.congr rfl rfl }
  refine ⟨h, .refl h, sim.move inv node (.refl i h) sim.sound rfl rfl moved ?_⟩
  intro msg hmsg
  rcases checks.forwards.messages hmsg with old | ⟨fuel, buffer, collected, hnew⟩
  · exact sim.traffic.messages i msg old
  · obtain ⟨-, hle, -, e, he, hcommand⟩ := Raftserver.commitBuffer_mem collected hnew
    exact (sim.nodes i).agreed hle he hcommand

theorem installSnapshotSend (sim : Sim h s) (inv : s.VoteInv) {j : Fin n}
    {task : InstallSnapshotArgs × InstallSnapshotReply × ApplyMsg}
    (hstep : s.step (.installSnapshotSend j task) = some t) : ∃ h', Extends h h' ∧ Sim h' t := by
  obtain ⟨htask, node, hsent, rfl⟩ := enabled_map.mp hstep
  obtain ⟨-, rfl⟩ := enabled_some.mp hsent
  refine ⟨h, .refl h, sim.move inv _ (.refl j h) sim.sound rfl rfl (sim.nodes j) fun m hm => ?_⟩
  refine sim.traffic.messages j m ?_
  have hmsg : task.2.2 ∈ (s.nodes j).installing.map (·.2.2) := List.mem_map.mpr ⟨task, htask, rfl⟩
  simp only [Node.messages, List.append_assoc, List.mem_append, List.mem_cons] at hm ⊢
  rcases hm with hm | hm | rfl | hm
  · exact .inl hm
  · obtain ⟨other, hother, rfl⟩ := List.mem_map.mp hm
    exact .inr (.inl (List.mem_map.mpr ⟨other, List.mem_of_mem_erase hother, rfl⟩))
  · exact .inr (.inl hmsg)
  · exact .inr (.inr hm)

/-- One step of the cluster, whatever it is. -/
theorem step (hn : Odd n) (sim : Sim h s) (inv : s.VoteInv) {a : Action n}
    (guarded : Guarded s a) (hstep : s.step a = some t) : ∃ h', Extends h h' ∧ Sim h' t := by
  cases a with
  | ticker i =>
      obtain ⟨-, rfl⟩ := enabled_some.mp hstep
      exact ⟨h, .refl h, sim.move inv _ (.refl i h) sim.sound rfl rfl (sim.nodes i)
        (sim.traffic.messages i)⟩
  | startElection i => exact sim.startElection inv hstep
  | requestVote r => exact sim.requestVote inv hstep
  | procVoteAnswer i r reply => exact sim.procVoteAnswer inv hstep
  | collectVote i r outTime => exact sim.collectVote hn inv guarded hstep
  | startSendAppendEntries i => exact sim.startSendAppendEntries inv hstep
  | sendAppendEntries i r => exact sim.sendAppendEntries hstep
  | appendEntries r => exact sim.appendEntries inv guarded hstep
  | appendEntriesReply i r reply => exact sim.appendEntriesReply hn inv hstep
  | sendInstallSnapshot i j => exact sim.sendInstallSnapshot inv hstep
  | installSnapshot r => exact sim.installSnapshot inv guarded hstep
  | installSnapshotSend j task => exact sim.installSnapshotSend inv hstep
  | installSnapshotDone j task =>
      obtain ⟨-, rf, hsaved, rfl⟩ := enabled_map.mp hstep
      have quiet := Raftserver.persist_quiet hsaved
      have after := sim.quiet inv
        { s.nodes j with rf := rf, installed := (s.nodes j).installed.erase task } quiet
        fun _ hmsg => hmsg
      refine ⟨_, raise_extends ?_, after.sound, after.nodes, { after.traffic with },
        ⟨after.ballots.ballot, after.ballots.grant⟩⟩
      rw [(sim.nodes j).term]
      exact quiet.term
  | installSnapshotReply i r reply =>
      obtain ⟨-, rf, hresult, rfl⟩ := enabled_map.mp hstep
      have quiet := Raftserver.sendInstallSnapshotToServer_quiet hresult
      refine ⟨_, raise_extends ?_, sim.quietRf inv quiet⟩
      rw [(sim.nodes i).term]
      exact quiet.term
  | singleHeartBeat i => exact sim.singleHeartBeat inv hstep
  | heartBeat r => exact sim.heartBeat inv guarded hstep
  | sendCommitIndex i =>
      obtain ⟨r, rfl⟩ := Cluster.step_sendCommitIndex hstep
      exact ⟨h, .refl h, sim.sound, sim.nodes, { sim.traffic with },
        ⟨sim.ballots.ballot, sim.ballots.grant⟩⟩
  | commitIndexReply i r =>
      obtain ⟨-, rfl⟩ := enabled_some.mp hstep
      have quiet := Raftserver.sendCommitIndex_quiet guarded
      refine ⟨_, raise_extends ?_, sim.quietRf inv quiet⟩
      rw [(sim.nodes i).term]
      exact quiet.term
  | start i command => exact sim.start inv hstep
  | snapshot i index data => exact sim.snapshot inv hstep
  | commitCheck i => exact sim.commitCheck inv hstep
  | applyHandler i =>
      obtain ⟨msg, rest, -, rfl⟩ := Cluster.step_applyHandler hstep
      exact ⟨h, .refl h, sim.move inv _ (.refl i h) sim.sound rfl rfl (sim.nodes i)
        (sim.traffic.messages i)⟩

end Sim

/-! ## Runs -/

/-- Nobody has done anything yet. -/
def History.first (n : Nat) : History n where
  term _ := 0
  log _ := root
  leader _ := none
  elected _ := []
  led t := if t = 0 then root else []
  voted _ _ := none
  acked _ _ := 0

theorem sim_init (n : Nat) : Sim (History.first n) (Cluster.init n) := by
  have origin (x : List Entry) (hx : x <+: root) : Origin Entry.term (History.first n) x := by
    intro k e hk
    have hroot : root[k]? = some e := prefix_getElem? hx hk
    have hke : k = 0 ∧ e = {} := by
      cases k with
      | zero => exact ⟨rfl, (Option.some.inj hroot).symm⟩
      | succ k => simp [root] at hroot
    obtain ⟨rfl, rfl⟩ := hke
    have hlen : x.take 1 = root.take 1 :=
      (prefix_take hx (List.getElem?_eq_some_iff.mp hk).1).symm
    simpa [History.first] using hlen
  refine ⟨?_, fun i => ?_, ?_, ?_⟩
  · constructor <;> simp only [History.first, ne_eq, not_true_eq_false, false_implies, implies_true,
      reduceCtorEq, Nat.not_lt_zero, Nat.zero_le, List.prefix_rfl]
    case log_origin => exact fun _ => origin root List.prefix_rfl
    case led_origin =>
      intro u
      refine origin _ ?_
      split
      · exact List.prefix_rfl
      · exact List.nil_prefix
    case led_stamp =>
      intro u e he
      split at he
      · have hroot : e = {} := by simpa [root] using he
        rw [hroot, ‹u = 0›]
      · cases he
    case log_stamp => simp [root]
    case led_nil =>
      intro u _ hu
      rw [if_neg hu]
    case kept_log =>
      intro v u m hm
      have hm0 : m = 0 := by omega
      subst hm0
      exact .inl (by simp)
  · constructor
    case committed => exact .inl (List.take_prefix _ _)
    case window =>
      constructor <;> simp [Cluster.init, Cluster.initServer, History.first, root]
    all_goals simp [Cluster.init, Cluster.initServer, History.first, root]
  · constructor <;> simp [Cluster.init, History.first, Node.messages, Checker.messages]
  · constructor <;> simp [Cluster.init]

/-- Every state of a guarded run implements a ledger, and its votes are in order. -/
theorem sim_of_reaches (hn : Odd n)
    (reached : Library.Reaches Cluster.step Guarded (Cluster.init n) s) :
    s.VoteInv ∧ ∃ h, Sim h s := by
  refine reached.invariant (I := fun s => s.VoteInv ∧ ∃ h, Sim h s)
    ⟨Cluster.voteInv_init n, _, sim_init n⟩ ?_
  rintro s a t - ⟨inv, h, sim⟩ guarded taken
  obtain ⟨h', -, sim'⟩ := sim.step hn inv guarded taken
  exact ⟨inv.step hn guarded.countsOwnTerm taken, h', sim'⟩

end RaftKv.Raft
