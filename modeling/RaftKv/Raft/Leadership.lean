import RaftKv.Raft.Compaction
import RaftKv.Raft.Leader

/-!
# Taking over and committing

`collectVote` resets `nextIndex` and `matchIndex` in a loop that runs up to the size of
`nextIndex`, a map with an entry for each peer that this node has heard from while it was
leading. The loop reaches the keys up to the largest that is there. A peer with a larger
number gets no entry, and with an empty map, as `Make` leaves it, nobody does.

From the replies a leader then learns what its peers have. It commits the last entry of
its own term that more than half of the cluster has.
-/

namespace RaftKv.Raft.Raftserver

variable {rf rf' : Raftserver}

/-! ### Taking over -/

theorem becomeLeader_of_collectVote {outTime : Bool} (before : rf.role ≠ .leader)
    (after : (rf.collectVote outTime).role = .leader) :
    rf.collectVote outTime = { rf with voteCount := rf.voteCount + 1 }.becomeLeader := by
  rw [collectVote] at after ⊢
  split at after
  · exact absurd after before
  split at after
  · rename_i few elected
    rw [if_neg few, if_pos elected]
  · exact absurd after before

/-- What a new leader should know about peer `p`. -/
def Initialised (rf : Raftserver) (p : Nat) : Prop :=
  p ∈ rf.nextIndex ∧ rf.nextIndex.get p = rf.lastIndex + 1 ∧
    rf.matchIndex.get p = rf.lastIncludedIndex

/-- **Taking over.** A new leader has reset its indices for the keys up to the largest of
`nextIndex`, and for no other. So all peers have their entries exactly if none of them has
a number beyond the largest key. -/
theorem leader_initialisation {outTime : Bool} (before : rf.role ≠ .leader)
    (after : (rf.collectVote outTime).role = .leader) :
    (∀ p, (∃ k ∈ rf.nextIndex, p ≤ k) → (rf.collectVote outTime).Initialised p) ∧
      (∀ p, (¬ ∃ k ∈ rf.nextIndex, p ≤ k) → p ∉ (rf.collectVote outTime).nextIndex ∧
        (rf.collectVote outTime).matchIndex.get p = rf.matchIndex.get p) ∧
      ((∀ p ∈ rf.peers, (rf.collectVote outTime).Initialised p) ↔
        ∀ p ∈ rf.peers, ∃ k ∈ rf.nextIndex, p ≤ k) := by
  rw [becomeLeader_of_collectVote before after]
  have within : ∀ p, (∃ k ∈ rf.nextIndex, p ≤ k) →
      ({ rf with voteCount := rf.voteCount + 1 }.becomeLeader).Initialised p := by
    intro p covered
    obtain ⟨hnext, hmatch⟩ := (becomeLeader_lookup { rf with voteCount := rf.voteCount + 1 } p).1
      (lt_keyBound_iff.mpr covered)
    refine ⟨?_, ?_, ?_⟩
    · by_contra hmem
      rw [AList.lookup_eq_none.mpr hmem] at hnext
      cases hnext
    · rw [IndexMap.get, hnext]
      change rf.localToGlobal rf.log.length = rf.lastIndex + 1
      rw [lastIndex, localToGlobal, localToGlobal]
      omega
    · rw [IndexMap.get, hmatch]
      rfl
  have beyond : ∀ p, (¬ ∃ k ∈ rf.nextIndex, p ≤ k) →
      p ∉ ({ rf with voteCount := rf.voteCount + 1 }.becomeLeader).nextIndex ∧
        ({ rf with voteCount := rf.voteCount + 1 }.becomeLeader).matchIndex.get p =
          rf.matchIndex.get p := by
    intro p uncovered
    rw [← lt_keyBound_iff, not_lt] at uncovered
    obtain ⟨hnext, hmatch⟩ :=
      (becomeLeader_lookup { rf with voteCount := rf.voteCount + 1 } p).2 uncovered
    exact ⟨AList.lookup_eq_none.mp hnext, by rw [IndexMap.get, hmatch]; rfl⟩
  refine ⟨within, beyond, fun all p hp => ?_, fun covered p hp => within p (covered p hp)⟩
  by_contra uncovered
  exact (beyond p uncovered).1 (all p hp).1

/-- A candidate that has led before and has a next index for both of its peers. -/
theorem leader_initialisation_again :
    let rf : Raftserver :=
      { me := 0, peers := [1, 2], log := [some {}, some { term := 1 }], currentTerm := 2
        role := .candidate, voteCount := 1
        nextIndex := (∅ : IndexMap).insert 2 1, matchIndex := (∅ : IndexMap).insert 2 0 }
    ∀ p ∈ rf.peers, (rf.collectVote false).Initialised p := by
  intro rf
  refine (@leader_initialisation rf false (by decide) (by decide)).2.2.mpr ?_
  have bound : ∀ p ∈ rf.peers, p ≤ 2 := by decide
  exact fun p hp => ⟨2, by decide, bound p hp⟩

/-- The first leader after `Make` has no next index for anybody. -/
theorem first_leader_has_no_entries :
    let rf : Raftserver :=
      { me := 0, peers := [1, 2], log := [some {}], currentTerm := 1, role := .candidate
        voteCount := 1 }
    (rf.collectVote false).role = .leader ∧
      ∀ p ∈ rf.peers, p ∉ (rf.collectVote false).nextIndex ∧
        p ∉ (rf.collectVote false).matchIndex ∧ (rf.collectVote false).nextIndex.get p = 0 := by
  decide

/-! ### Committing -/

theorem commitCount_isSome (filled : rf.Filled) {n : Int} (hfirst : rf.lastIncludedIndex < n)
    (hlast : n ≤ rf.lastIndex) : (rf.commitCount n).isSome := by
  rw [commitCount]
  split
  · rfl
  · rw [Option.isSome_map]
    exact filled.entryAt hfirst hlast

theorem commitScan_isSome (filled : rf.Filled) (included : rf.lastIncludedIndex ≤ rf.commitIndex)
    {fuel : Nat} {n : Int} (hlast : n ≤ rf.lastIndex) : (rf.commitScan fuel n).isSome := by
  induction fuel generalizing n with
  | zero => rfl
  | succ fuel ih =>
      rw [commitScan]
      split
      · obtain ⟨count, hcount⟩ := Option.isSome_iff_exists.mp
          (commitCount_isSome filled (n := n) (by omega) hlast)
        rw [hcount, Option.bind_some]
        split
        · rfl
        · exact ih (by omega)
      · rfl

/-- A reply to `sendAppendEntriesToServer`: the peer, what was sent to it, and its answer. -/
abbrev Answer := Nat × AppendEntriesArgs × AppendEntriesReply

/-- The section of `sendAppendEntriesToServer` that handles a reply, as a step. -/
def hear (rf : Raftserver) (a : Answer) : Option Raftserver :=
  (rf.sendAppendEntriesToServer a.1 a.2.1 a.2.2).map (·.1)

/-- No reply lowers a match index. -/
theorem hear_matchIndex {a : Answer} (h : rf.hear a = some rf') (p : Nat) :
    rf.matchIndex.get p ≤ rf'.matchIndex.get p := by
  obtain ⟨server, args, reply⟩ := a
  obtain ⟨⟨_, install⟩, hresult, rfl⟩ := Option.map_eq_some_iff.mp h
  obtain ⟨-, -, c, -, rfl⟩ | ⟨-, -, -, -, next, -, rfl⟩ | observes :=
    sendAppendEntriesToServer_outcome hresult
  · dsimp only [acknowledge]
    by_cases hp : p = server
    · subst hp
      rw [IndexMap.get_insert_self]
      exact le_max_left _ _
    · rw [IndexMap.get_insert_ne _ _ hp]
  · exact le_rfl
  · cases observes <;> exact le_rfl

theorem matchIndex_run (h : Library.Reachable hear rf rf') (p : Nat) :
    rf.matchIndex.get p ≤ rf'.matchIndex.get p := by
  refine h.invariant (I := fun rf' => rf.matchIndex.get p ≤ rf'.matchIndex.get p) le_rfl ?_
  intro s a t _ le _ taken
  exact le_trans le (hear_matchIndex taken p)

/-- **Committing.** After a success of the leader's term the commit index is the last
index with an entry of this term that more than half of the cluster has, or the old one
if there is none behind it. The next index of the peer is behind its match index, and no
match index goes back, in whatever order replies come in. -/
theorem leader_commit_rule {server : Nat} {args : AppendEntriesArgs} {reply : AppendEntriesReply}
    (hpeers : 2 ≤ rf.peers.length) (hcommit : rf.commitIndex ≤ rf.lastIndex)
    (hterm : args.term = rf.currentTerm) (success : reply.success = true) :
    (rf.Filled → rf.lastIncludedIndex ≤ rf.commitIndex →
      (rf.sendAppendEntriesToServer server args reply).isSome) ∧
    ∀ rf' install, rf.sendAppendEntriesToServer server args reply = some (rf', install) →
      (rf'.commitIndex = rf.commitIndex ∨ (rf.commitIndex < rf'.commitIndex ∧
        rf'.commitIndex ≤ rf.lastIndex ∧ rf'.CommitQuorum rf'.commitIndex)) ∧
      (∀ n, rf'.commitIndex < n → n ≤ rf.lastIndex → ¬ rf'.CommitQuorum n) ∧
      rf'.log = rf.log ∧ rf'.currentTerm = rf.currentTerm ∧ rf'.peers = rf.peers ∧
      rf'.matchIndex.get server =
        max (rf.matchIndex.get server) (args.prevLogIndex + args.entries.length) ∧
      rf'.nextIndex.get server = rf'.matchIndex.get server + 1 ∧
      (∀ p, p ≠ server → rf'.matchIndex.get p = rf.matchIndex.get p ∧
        rf'.nextIndex.get p = rf.nextIndex.get p) ∧
      ∀ later, Library.Reachable hear rf' later →
        ∀ p, rf'.matchIndex.get p ≤ later.matchIndex.get p := by
  rw [sendAppendEntriesToServer, if_neg (not_not.mpr hterm), if_pos success]
  constructor
  · intro filled included
    rw [Option.isSome_map]
    exact @commitScan_isSome (rf.acknowledge server args) filled included _ _ le_rfl
  · intro rf' install h
    obtain ⟨c, hscan, h⟩ := Option.map_eq_some_iff.mp h
    cases h
    have hfuel : (rf.acknowledge server args).lastIndex =
        (rf.acknowledge server args).commitIndex +
          ((rf.lastIndex - rf.commitIndex).toNat : Int) := by
      change rf.lastIndex = rf.commitIndex + _
      omega
    obtain ⟨found, above⟩ :=
      @commitScan_spec (rf.acknowledge server args) hpeers _ _ _ hfuel hscan
    refine ⟨found, above, rfl, rfl, rfl, ?_, ?_, ?_, fun later reached => matchIndex_run reached⟩
    · exact IndexMap.get_insert_self _ _ _
    · dsimp only [acknowledge]
      rw [IndexMap.get_insert_self, IndexMap.get_insert_self]
    · intro p hp
      exact ⟨IndexMap.get_insert_ne _ _ hp, IndexMap.get_insert_ne _ _ hp⟩

/-- Of three nodes, the leader and one peer have two entries of the current term. -/
theorem leader_commit_rule_two_of_three :
    let rf : Raftserver :=
      { me := 0, peers := [1, 2], currentTerm := 2, role := .leader
        log := [some {}, some { term := 1 }, some { term := 2 }, some { term := 2 }] }
    let args : AppendEntriesArgs :=
      { term := 2, leaderId := 0, prevLogIndex := 1, prevLogTerm := 1, leaderCommit := 0
        entries := [{ term := 2 }] }
    ∃ rf' install, rf.sendAppendEntriesToServer 1 args { term := 2, success := true } =
        some (rf', install) ∧ rf'.commitIndex = 2 ∧
      ∀ n, rf'.commitIndex < n → n ≤ rf.lastIndex → ¬ rf'.CommitQuorum n := by
  intro rf args
  have rule := @leader_commit_rule rf 1 args { term := 2, success := true } (by decide) (by decide)
    rfl rfl
  obtain ⟨⟨rf', install⟩, h⟩ := Option.isSome_iff_exists.mp
    (rule.1 ⟨some {}, [{ term := 1 }, { term := 2 }, { term := 2 }], rfl⟩ (by decide))
  have commit : (rf.sendAppendEntriesToServer 1 args { term := 2, success := true }).map
      (·.1.commitIndex) = some 2 := by decide
  rw [h] at commit
  exact ⟨rf', install, h, Option.some.inj commit, (rule.2 rf' install h).2.1⟩

end RaftKv.Raft.Raftserver
