import RaftKv.Raft.FullLog
import RaftKv.Raft.Frame

/-!
# What a leader knows about its peers

`nextIndex` and `matchIndex` are maps that start empty and are never cleared. A new
leader resets them in a loop whose bound is the size of a map that the loop itself
extends, so it runs until every key has been overwritten. After it no match index
exceeds the snapshot, and whatever is larger later was acknowledged in this term.

The commit loop moves `commitIndex` only to an entry of the leader's own term that
more than half of the cluster holds.
-/

namespace RaftKv.Raft

namespace IndexMap

/-- A map that has every key below `i` and one more has more than `i` keys. -/
theorem lt_len {m : IndexMap} {i k : Nat} (below : ∀ j < i, j ∈ m) (hk : k ∈ m) (hik : i ≤ k) :
    i < len m := by
  have hnodup : (k :: List.range i).Nodup := by
    refine List.nodup_cons.mpr ⟨?_, List.nodup_range⟩
    rw [List.mem_range]
    omega
  have hsub : (k :: List.range i) ⊆ m.keys := by
    intro j hj
    rcases List.mem_cons.mp hj with rfl | hj
    · exact hk
    · exact below j (List.mem_range.mp hj)
  have hlen := (hnodup.subperm hsub).length_le
  rw [List.length_cons, List.length_range] at hlen
  exact hlen

end IndexMap

namespace Raftserver

/-- The keys of a map are below the bound, and one of them is right below it. -/
theorem lt_keyBound_iff {m : IndexMap} {p : Nat} : p < keyBound m ↔ ∃ k ∈ m, p ≤ k := by
  have bound : ∀ l : List Nat,
      p < l.foldr (fun k b => max (k + 1) b) 0 ↔ ∃ k ∈ l, p ≤ k := by
    intro l
    induction l with
    | nil => simp
    | cons j l ih => rw [List.foldr_cons, lt_max_iff, ih, Nat.lt_succ_iff, List.exists_mem_cons_iff]
  exact bound m.keys

theorem lt_keyBound {m : IndexMap} {k : Nat} (hk : k ∈ m) : k < keyBound m :=
  lt_keyBound_iff.mpr ⟨k, hk, le_rfl⟩

/-- The reset loop from key `i` on. The keys below `i` are done, and there is a key right
below the end of the fuel, so that `len` stays ahead of the loop until then. -/
theorem resetIndexes_lookup {next matched : Int} {fuel i : Nat} {nextIndex matchIndex : IndexMap}
    (below : ∀ k < i, k ∈ nextIndex) (top : fuel ≠ 0 → i + fuel - 1 ∈ nextIndex) (k : Nat) :
    let indexes := resetIndexes next matched fuel i nextIndex matchIndex
    (i ≤ k ∧ k < i + fuel → indexes.1.lookup k = some next ∧ indexes.2.lookup k = some matched) ∧
      (¬ (i ≤ k ∧ k < i + fuel) → indexes.1.lookup k = nextIndex.lookup k ∧
        indexes.2.lookup k = matchIndex.lookup k) := by
  induction fuel generalizing i nextIndex matchIndex with
  | zero => exact ⟨fun hk => by omega, fun _ => ⟨rfl, rfl⟩⟩
  | succ fuel ih =>
      have hin : i < nextIndex.len :=
        IndexMap.lt_len below (top (Nat.succ_ne_zero fuel)) (by omega)
      rw [resetIndexes, if_pos hin]
      have next' := @ih (i + 1) (nextIndex.insert i next) (matchIndex.insert i matched) ?_ ?_
      · dsimp only at next' ⊢
        by_cases hk : k = i
        · subst hk
          rw [(next'.2 (by omega)).1, (next'.2 (by omega)).2, AList.lookup_insert,
            AList.lookup_insert]
          exact ⟨fun _ => ⟨rfl, rfl⟩, fun hout => absurd ⟨le_rfl, by omega⟩ hout⟩
        · refine ⟨fun hin => next'.1 (by omega), fun hout => ?_⟩
          rw [(next'.2 (by omega)).1, (next'.2 (by omega)).2, AList.lookup_insert_ne hk,
            AList.lookup_insert_ne hk]
          exact ⟨rfl, rfl⟩
      · intro j hj
        rw [AList.mem_insert]
        by_cases hji : j = i
        · exact .inl hji
        · exact .inr (below j (by omega))
      · intro hfuel
        rw [AList.mem_insert]
        have := top (Nat.succ_ne_zero fuel)
        rw [show i + (fuel + 1) - 1 = i + 1 + fuel - 1 by omega] at this
        exact .inr this

/-- A new leader has an entry for every key up to the largest of `nextIndex`, and leaves
the other keys alone. -/
theorem becomeLeader_lookup (rf : Raftserver) (k : Nat) :
    (k < keyBound rf.nextIndex →
        rf.becomeLeader.nextIndex.lookup k = some (rf.localToGlobal rf.log.length) ∧
        rf.becomeLeader.matchIndex.lookup k = some rf.lastIncludedIndex) ∧
      (keyBound rf.nextIndex ≤ k →
        rf.becomeLeader.nextIndex.lookup k = none ∧
        rf.becomeLeader.matchIndex.lookup k = rf.matchIndex.lookup k) := by
  have top : keyBound rf.nextIndex ≠ 0 → 0 + keyBound rf.nextIndex - 1 ∈ rf.nextIndex := by
    intro hpos
    obtain ⟨j, hj, hle⟩ := lt_keyBound_iff.mp (Nat.sub_one_lt hpos)
    have hlt := lt_keyBound hj
    rwa [show 0 + keyBound rf.nextIndex - 1 = j by omega]
  have spec := @resetIndexes_lookup (rf.localToGlobal rf.log.length) rf.lastIncludedIndex _ 0
    rf.nextIndex rf.matchIndex (fun k hk => absurd hk (Nat.not_lt_zero k)) top k
  refine ⟨fun hk => spec.1 ⟨Nat.zero_le k, by omega⟩, fun hk => ?_⟩
  have kept := spec.2 (by omega)
  refine ⟨kept.1.trans ?_, kept.2⟩
  rw [AList.lookup_eq_none]
  intro hmem
  have := lt_keyBound hmem
  omega

/-- A new leader believes nothing beyond its snapshot about anybody. -/
theorem becomeLeader_indexes {rf : Raftserver} (keys : ∀ k ∈ rf.matchIndex, k ∈ rf.nextIndex)
    (nonneg : 0 ≤ rf.lastIncludedIndex) :
    (∀ k, rf.becomeLeader.matchIndex.get k ≤ rf.lastIncludedIndex) ∧
      ∀ k ∈ rf.becomeLeader.matchIndex, k ∈ rf.becomeLeader.nextIndex := by
  -- beyond the largest key there is no match index either
  have spec : ∀ k, (rf.becomeLeader.nextIndex.lookup k ≠ none ∧
        rf.becomeLeader.matchIndex.lookup k = some rf.lastIncludedIndex) ∨
      rf.becomeLeader.matchIndex.lookup k = none := by
    intro k
    obtain ⟨within, beyond⟩ := rf.becomeLeader_lookup k
    by_cases hk : k < keyBound rf.nextIndex
    · left
      rw [(within hk).1]
      exact ⟨nofun, (within hk).2⟩
    · right
      rw [(beyond (by omega)).2, AList.lookup_eq_none]
      exact fun hmem => hk (lt_keyBound (keys k hmem))
  constructor
  · intro k
    rw [IndexMap.get]
    rcases spec k with ⟨-, hmatch⟩ | hnone
    · rw [hmatch]
      exact le_rfl
    · rw [hnone]
      exact nonneg
  · intro k hk
    rcases spec k with ⟨hnext, -⟩ | hnone
    · by_contra hmem
      exact hnext (AList.lookup_eq_none.mpr hmem)
    · exact absurd hk (AList.lookup_eq_none.mp hnone)

/-- More than half of the cluster has the entry at `c`, the leader included, and the
entry is of the leader's term. -/
def CommitQuorum (rf : Raftserver) (c : Int) : Prop :=
  (∃ e, rf.entryAt c = some e ∧ e.term = rf.currentTerm) ∧
    rf.peers.length / 2 < 1 + rf.peers.countP (fun p => c ≤ rf.matchIndex.get p)

/-- With two peers or more, the leader alone is not more than half. -/
theorem commitCount_iff {rf : Raftserver} (hpeers : 2 ≤ rf.peers.length) {c : Int} {count : Nat}
    (h : rf.commitCount c = some count) : rf.peers.length / 2 < count ↔ rf.CommitQuorum c := by
  unfold commitCount at h
  dsimp only at h
  split at h
  · rename_i hnone
    cases h
    rw [CommitQuorum, hnone]
    constructor
    · intro enough
      omega
    · rintro ⟨-, enough⟩
      omega
  · obtain ⟨e, he, rfl⟩ := Option.map_eq_some_iff.mp h
    split
    · rename_i hterm
      exact ⟨fun enough => ⟨⟨e, he, hterm⟩, enough⟩, fun quorum => quorum.2⟩
    · rename_i hterm
      constructor
      · intro enough
        omega
      · rintro ⟨⟨e', he', hterm'⟩, -⟩
        cases he.symm.trans he'
        exact absurd hterm' hterm

/-- The scan stops at the first index from the end that more than half have. -/
theorem commitScan_spec {rf : Raftserver} (hpeers : 2 ≤ rf.peers.length) {fuel : Nat} {k c : Int}
    (hk : k = rf.commitIndex + fuel) (h : rf.commitScan fuel k = some c) :
    (c = rf.commitIndex ∨ (rf.commitIndex < c ∧ c ≤ k ∧ rf.CommitQuorum c)) ∧
      ∀ n, c < n → n ≤ k → ¬ rf.CommitQuorum n := by
  induction fuel generalizing k with
  | zero =>
      cases h
      exact ⟨.inl (by omega), fun n hn hle => by omega⟩
  | succ fuel ih =>
      unfold commitScan at h
      split at h
      · obtain ⟨count, hcount, h⟩ := Option.bind_eq_some_iff.mp h
        split at h
        · rename_i enough
          cases h
          exact ⟨.inr ⟨‹_›, le_rfl, (commitCount_iff hpeers hcount).mp enough⟩,
            fun n hn hle => by omega⟩
        · rename_i enough
          obtain ⟨found, above⟩ := ih (by omega) h
          refine ⟨found.imp id fun ⟨hlt, hle, quorum⟩ => ⟨hlt, by omega, quorum⟩, ?_⟩
          intro n hn hle quorum
          by_cases hnk : n = k
          · subst hnk
            exact enough ((commitCount_iff hpeers hcount).mpr quorum)
          · exact above n hn (by omega) quorum
      · omega

/-- A reply in the leader's term either changes nothing but a next index, or is an
acknowledgement, which may move the commit index. -/
theorem sendAppendEntriesToServer_spec {rf : Raftserver} {x : List Entry} (window : rf.Window x)
    (hpeers : 2 ≤ rf.peers.length) (hcommit : rf.commitIndex < x.length) {server : Nat}
    {args : AppendEntriesArgs} {reply : AppendEntriesReply} {result : Raftserver × Bool}
    (h : rf.sendAppendEntriesToServer server args reply = some result) :
    (∃ nextIndex, result.1 = { rf with nextIndex := nextIndex } ∧
        ∀ k ∈ rf.nextIndex, k ∈ nextIndex) ∨
      (args.term = rf.currentTerm ∧ reply.success = true ∧
        ∃ c, result.1 = { rf.acknowledge server args with commitIndex := c } ∧
          (c = rf.commitIndex ∨ (rf.commitIndex < c ∧ c < x.length ∧
            (rf.acknowledge server args).CommitQuorum c))) ∨
      (rf.currentTerm < reply.term ∧ ∃ calls, result.1 =
        { rf with
          currentTerm := reply.term, votedFor := none, role := .follower
          persister := calls }) := by
  obtain ⟨hterm, hsuccess, c, hc, hrf⟩ | ⟨-, -, -, -, next, -, hrf⟩ | observes :=
    sendAppendEntriesToServer_outcome h
  · refine .inr (.inl ⟨hterm, hsuccess, c, hrf, ?_⟩)
    have hstart : (rf.acknowledge server args).commitIndex = rf.commitIndex := rfl
    have hpeers' : 2 ≤ (rf.acknowledge server args).peers.length := hpeers
    rw [window.lastIndex] at hc
    rcases (commitScan_spec hpeers' (by omega) hc).1 with hsame | ⟨hlt, hle, hquorum⟩
    · exact .inl hsame
    · exact .inr ⟨hlt, by omega, hquorum⟩
  · exact .inl ⟨_, hrf, fun k hk => (AList.mem_insert _).mpr (.inr hk)⟩
  · obtain ⟨rf', install⟩ := result
    cases observes with
    | kept => exact .inl ⟨_, rfl, fun _ hk => hk⟩
    | later newer calls => exact .inr (.inr ⟨newer, calls, rfl⟩)

end Raftserver

end RaftKv.Raft
