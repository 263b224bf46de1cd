import RaftKv.Raft.Refinement
import RaftKv.Raft.Merge
import Mathlib.Data.Int.Interval

/-!
# Replication in terms of the ledger

What the sections of one node do to the ledger, given that the node and the message
it handles agree with it. Nothing here looks at other nodes or at the network.

A leader's messages are pieces of its log, a follower that accepts them adopts a
prefix of that log, and a leader that counts enough acknowledgements has found a
chosen entry. The one place where the code does less than the protocol is the commit
index of a follower; `CommitsWithin` says when it is right.
-/

namespace RaftKv.Raft

open Library Library.Ledger

variable {n : Nat} {h : History n} {i : Fin n} {rf : Raftserver}

/-- The node takes the entries of a message: its term is not a later one, and the previous
entry is in its log, as the last committed one or with the term of the message. -/
def Raftserver.Accepts (rf : Raftserver) (args : AppendEntriesArgs) : Prop :=
  rf.currentTerm ≤ args.term ∧ rf.lastIncludedIndex ≤ args.prevLogIndex ∧
    args.prevLogIndex ≤ rf.lastIndex ∧
    (rf.commitIndex = args.prevLogIndex ∨
      (rf.entryAt args.prevLogIndex).map Entry.term = some args.prevLogTerm)

/-- A message that is taken and raises the commit index has the leader's commit index as
its last entry, and the log of the node ends there too: it reaches no further, or the
message cuts it. -/
def CommitsWithin (rf : Raftserver) (args : AppendEntriesArgs) : Prop :=
  rf.Accepts args → rf.commitIndex < args.leaderCommit →
    args.leaderCommit = args.prevLogIndex + args.entries.length ∧
      (rf.lastIndex ≤ args.leaderCommit ∨
        ((rf.role = .leader → rf.currentTerm < args.term) ∧
          ∃ k < args.entries.length, rf.Conflict args k))

theorem Raftserver.accepts_of_check {observed : Raftserver} {args : AppendEntriesArgs}
    (quiet : rf.Quiet observed) (current : rf.currentTerm ≤ args.term)
    (hcheck : observed.checkPrev args = some none) : rf.Accepts args := by
  obtain ⟨hfirst, hlast, passed⟩ := Raftserver.checkPrev_passes_iff.mp hcheck
  rw [quiet.includedIndex] at hfirst hlast
  rw [quiet.log] at hlast
  refine ⟨current, hfirst, ?_, ?_⟩
  · rw [Raftserver.lastIndex, Raftserver.localToGlobal]
    omega
  · refine passed.imp (fun committed => quiet.commit ▸ committed) ?_
    rintro ⟨e, he, hterm⟩
    rw [Raftserver.entryAt, Raftserver.globalToLocal, quiet.log, quiet.includedIndex] at he
    rw [Raftserver.entryAt, Raftserver.globalToLocal, he, Option.map_some, hterm]

/-- Then the commit index that `AppendEntries` sets is the smaller one of the leader's
commit index and the last new entry. -/
theorem CommitsWithin.smaller {observed : Raftserver} {args : AppendEntriesArgs}
    {result : Raftserver × AppendEntriesReply} (within : CommitsWithin rf args)
    (quiet : rf.Quiet observed) (current : rf.currentTerm ≤ args.term)
    (hterm : observed.currentTerm = args.term) (hcheck : observed.checkPrev args = some none)
    (haccept : observed.acceptEntries args = some result)
    (raises : rf.commitIndex < args.leaderCommit) :
    max args.leaderCommit result.1.lastIndex =
      min args.leaderCommit (args.prevLogIndex + args.entries.length) := by
  obtain ⟨exact, ends⟩ := within (Raftserver.accepts_of_check quiet current hcheck) raises
  obtain ⟨log, calls, hlog, rfl⟩ := Raftserver.acceptEntries_outcome haccept
  have hlast : observed.lastIndex = rf.lastIndex := by
    simp only [Raftserver.lastIndex, Raftserver.localToGlobal, quiet.log, quiet.includedIndex]
  have length := Raftserver.mergedLog_length hcheck hlog
  change max args.leaderCommit (observed.localToGlobal (log.length - 1)) = _
  rcases length with ⟨-, hend⟩ | ⟨kept, role, hend⟩ | ⟨kept, role, hend⟩
  · omega
  · rcases ends with reaches | ⟨-, k, hk, conflict⟩
    · omega
    · refine absurd ⟨role, k, hk, ?_⟩ kept
      simpa only [Raftserver.Conflict, Raftserver.entryAt, Raftserver.globalToLocal, quiet.log,
        quiet.includedIndex] using conflict
  · rcases ends with reaches | ⟨leads, -⟩
    · omega
    · obtain ⟨led, same⟩ := quiet.role.mp role
      have := leads led
      omega

namespace NodeSim

/-- A quiet section is at most a move to a later term. -/
theorem quiet {rf' : Raftserver} (node : NodeSim h i rf) (quiet : rf.Quiet rf')
    (past : ∀ t, h.leader t = some i → t ≤ h.term i) :
    NodeSim (h.raise i rf'.currentTerm) i rf' where
  term := by simp [Ledger.raise]
  window := node.window.congr quiet.log quiet.includedIndex
  included := by
    rw [quiet.includedIndex, quiet.commit]
    exact node.included
  commit := quiet.commit ▸ node.commit
  committed := by
    rw [quiet.commit]
    refine (raise_extends ?_).committed node.committed quiet.term
    rw [node.term]
    exact quiet.term
  includedTerm := by
    rw [quiet.includedIndex, quiet.includedTerm]
    exact node.includedTerm
  leads := by
    rw [quiet.role, node.leads]
    have hle := quiet.term
    constructor
    · rintro ⟨hleader, hsame⟩
      rw [hsame]
      exact hleader
    · intro hleader
      have hpast := past _ hleader
      rw [node.term] at hpast
      have hsame : rf'.currentTerm = rf.currentTerm := by omega
      rw [hsame] at hleader
      exact ⟨hleader, hsame⟩
  led role := by
    obtain ⟨hrole, hsame⟩ := quiet.role.mp role
    rw [hsame]
    exact node.led hrole
  self role := by
    obtain ⟨hrole, hsame⟩ := quiet.role.mp role
    rw [hsame]
    exact node.self hrole
  matched role p := by
    obtain ⟨hrole, hsame⟩ := quiet.role.mp role
    rw [hsame, quiet.matchIndex, quiet.commit]
    exact node.matched hrole p
  keys k hk := by
    rw [quiet.matchIndex] at hk
    exact quiet.nextIndex k (node.keys k hk)

theorem commit_nonneg (node : NodeSim h i rf) : 0 ≤ rf.commitIndex :=
  node.window.nonneg.trans node.included

/-! ## Messages of a leader -/

/-- A message built from the log at `prev` is a piece of the leader's log. -/
theorem appendSent (node : NodeSim h i rf) (role : rf.role = .leader) {j : Fin n} (hj : i ≠ j)
    (hme : rf.me = i) {prev : Int} {e : Entry} (he : rf.entryAt prev = some e)
    {entries : List Entry} (hentries : entries <+: (h.log i).drop (prev.toNat + 1)) :
    AppendSent h ⟨j,
      { term := rf.currentTerm, leaderId := rf.me, prevLogIndex := prev, prevLogTerm := e.term
        leaderCommit := rf.commitIndex, entries := entries }⟩ := by
  obtain ⟨hprev, hx⟩ := node.window.entryAt.mp he
  refine ⟨⟨i, hme, hj, node.leads.mp role⟩, node.window.nonneg.trans hprev, ?_, ?_, ?_, ?_⟩ <;>
    dsimp only <;> rw [node.led role]
  · exact ⟨e, hx, rfl⟩
  · exact hentries
  · exact node.commit
  · exact node.committed

theorem startSendAppendEntries_sent (node : NodeSim h i rf) (role : rf.role = .leader)
    {j : Fin n} (hj : i ≠ j) (hme : rf.me = i) {args : AppendEntriesArgs}
    (hsend : rf.startSendAppendEntries j = some (some args)) : AppendSent h ⟨j, args⟩ := by
  unfold Raftserver.startSendAppendEntries at hsend
  dsimp only at hsend
  split at hsend
  · cases hsend
  obtain ⟨e, he, hargs⟩ := Option.map_eq_some_iff.mp hsend
  cases hargs
  refine node.appendSent role hj hme he ?_
  have hnonneg := node.window.nonneg
  have hprev := (node.window.entryAt.mp he).1
  split
  · rw [node.window.log, ← List.map_drop, List.drop_drop, List.map_map]
    have hindex : rf.lastIncludedIndex.toNat + (rf.globalToLocal (rf.nextIndex.get j)).toNat =
        (rf.nextIndex.get j - 1).toNat + 1 := by
      unfold Raftserver.globalToLocal
      omega
    rw [hindex]
    exact (List.map_id _).symm ▸ List.prefix_rfl
  · exact List.nil_prefix

theorem singleHeartBeat_sent (node : NodeSim h i rf) (role : rf.role = .leader)
    {j : Fin n} (hj : i ≠ j) (hme : rf.me = i) {args : AppendEntriesArgs}
    (hsend : rf.singleHeartBeat j = some args) : AppendSent h ⟨j, args⟩ := by
  obtain ⟨e, he, rfl⟩ := Option.map_eq_some_iff.mp hsend
  exact node.appendSent role hj hme he List.nil_prefix

theorem installSnapshot_sent (node : NodeSim h i rf) (role : rf.role = .leader) {j : Fin n}
    (hj : i ≠ j) (hme : rf.me = i) {args : InstallSnapshotArgs}
    (hsend : rf.installSnapshotArgs = some args) : InstallSent h ⟨j, args⟩ := by
  obtain ⟨e, he, rfl⟩ := Option.map_eq_some_iff.mp hsend
  obtain ⟨a, ha, hterm⟩ := Option.map_eq_some_iff.mp node.includedTerm
  have hin := node.included
  have hnonneg := node.window.nonneg
  refine ⟨⟨i, hme, hj, node.leads.mp role⟩, node.window.nonneg, ?_, ?_⟩ <;>
    dsimp only <;> rw [node.led role]
  · exact ⟨a, ha, hterm⟩
  · exact node.committed.initial (List.take_prefix_take_left (by omega))

/-! ## A leader's own log -/

/-- `Start` on a leader. -/
theorem start (sound : SoundHistory h) (node : NodeSim h i rf) {command : Op} {rf' : Raftserver}
    {calls : List SaveArgs} (role : rf.role = .leader)
    (hrf : rf' = { rf with
      log := rf.log ++ [some { term := rf.currentTerm, command := some command }]
      persister := calls }) :
    let e : Entry := { term := rf.currentTerm, command := some command }
    NodeSim (h.append i e) i rf' ∧ SoundHistory (h.append i e) ∧ Moves i h (h.append i e) := by
  intro e
  subst hrf
  have leads : h.leader (h.term i) = some i := node.term ▸ node.leads.mp role
  have same : h.led (h.term i) = h.log i := node.term ▸ node.led role
  have hlog : (h.append i e).log i = h.log i ++ [e] := by simp [Ledger.append]
  have grows : Extends h (h.append i e) := append_extends sound same
  have hnonneg := node.window.nonneg
  have hinside := node.window.inside
  have hcommit := node.commit
  have hcommit' := node.commit_nonneg
  have hincluded := node.included
  refine ⟨?_, sound.append (by simp [leads]) same node.term.symm, append_moves sound same leads⟩
  constructor
  case term => exact node.term
  case window =>
    rw [hlog]
    refine ⟨hnonneg, ?_, ?_⟩
    · rw [List.length_append]
      dsimp only
      omega
    · rw [List.drop_append_of_le_length (by dsimp only; omega), List.map_append,
        ← node.window.log]
      rfl
  case included => exact hincluded
  case commit =>
    rw [hlog, List.length_append]
    dsimp only
    omega
  case committed =>
    rw [hlog, List.take_append_of_le_length (by dsimp only; omega)]
    exact grows.committed node.committed le_rfl
  case includedTerm =>
    rw [hlog, List.getElem?_append_left (by dsimp only; omega)]
    exact node.includedTerm
  case leads => exact node.leads
  case led =>
    intro _
    rw [hlog, ← node.term]
    simp [Ledger.append]
  case self =>
    intro _
    rw [hlog, ← node.term]
    simp [Ledger.append, Ledger.acknowledge]
  case matched =>
    intro _ p
    refine (node.matched role p).imp id fun hp => ?_
    have hle := grows.acked p rf.currentTerm
    dsimp only
    omega
  case keys => exact node.keys

/-! ## Acknowledgements and commitment -/

/-- The peers counted by the commit loop, as a set of nodes. -/
theorem countP_peers {p : Nat → Bool} :
    ((List.range n).filter (· ≠ i.val)).countP p =
      ((List.finRange n).filter fun j : Fin n => p j && decide (j ≠ i)).toFinset.card := by
  rw [List.toFinset_card_of_nodup ((List.nodup_finRange n).filter _), List.countP_filter,
    ← List.map_coe_finRange_eq_range, List.countP_map, List.countP_eq_length_filter]
  congr 1
  refine List.filter_congr fun j _ => ?_
  simp [Fin.ext_iff]

theorem chosen_of_quorum (hn : Odd n) (node : NodeSim h i rf) (role : rf.role = .leader)
    (hpeers : rf.peers = (List.range n).filter (· ≠ i.val)) (hlen : rf.peers.length + 1 = n)
    {c : Int} (hc : rf.commitIndex < c) (quorum : rf.CommitQuorum c) :
    Chosen Entry.term (Majority n) h rf.currentTerm c.toNat := by
  obtain ⟨⟨e, he, hterm⟩, hcount⟩ := quorum
  obtain ⟨hle, hx⟩ := node.window.entryAt.mp he
  have hin := (List.getElem?_eq_some_iff.mp hx).1
  have hcommit := node.commit_nonneg
  have hself := node.self role
  refine ⟨by simp [node.leads.mp role], ⟨{v | c.toNat + 1 ≤ h.acked v rf.currentTerm}, ?_,
    fun v hv => hv⟩, e, by rwa [node.led role], hterm⟩
  rw [hpeers, countP_peers, ← hpeers] at hcount
  set Q : Finset (Fin n) := ((List.finRange n).filter fun j : Fin n =>
    decide (c ≤ rf.matchIndex.get j) && decide (j ≠ i)).toFinset with hQ
  have hi : i ∉ Q := by simp [hQ]
  refine ⟨insert i Q, ?_, ?_⟩
  · intro v hv
    rcases Finset.mem_insert.mp hv with rfl | hv
    · change c.toNat + 1 ≤ h.acked v rf.currentTerm
      omega
    · have hmatch : c ≤ rf.matchIndex.get v := by
        have := List.mem_filter.mp (List.mem_toFinset.mp hv)
        simp only [Bool.and_eq_true, decide_eq_true_eq] at this
        exact this.2.1
      change c.toNat + 1 ≤ h.acked v rf.currentTerm
      rcases node.matched role v with hlow | hacked
      · omega
      · omega
  · rw [Finset.card_insert_of_notMem hi]
    obtain ⟨k, hk⟩ := hn
    omega

/-- Raising a match index to what the server has acknowledged. -/
theorem acknowledge (node : NodeSim h i rf) {r : Rpc n AppendEntriesArgs}
    (hterm : r.args.term = rf.currentTerm)
    (acked : r.args.prevLogIndex + r.args.entries.length + 1 ≤ h.acked r.server r.args.term) :
    NodeSim h i (rf.acknowledge r.server r.args) where
  term := node.term
  window := node.window.congr rfl rfl
  included := node.included
  commit := node.commit
  committed := node.committed
  includedTerm := node.includedTerm
  leads := node.leads
  led := node.led
  self := node.self
  matched role p := by
    have hold := node.matched role p
    by_cases hp : p = r.server
    · subst hp
      rw [hterm] at acked
      simp only [Raftserver.acknowledge, IndexMap.get_insert_self]
      rcases le_total (rf.matchIndex.get r.server)
        (r.args.prevLogIndex + r.args.entries.length) with hle | hle
      · exact .inr (by rw [max_eq_right hle]; exact acked)
      · rw [max_eq_left hle]
        exact hold
    · have hne : p.val ≠ r.server.val := fun heq => hp (Fin.ext heq)
      simpa only [Raftserver.acknowledge, IndexMap.get_insert_ne _ _ hne] using hold
  keys k hk := by
    rcases (AList.mem_insert _).mp hk with rfl | hk
    · exact (AList.mem_insert _).mpr (.inl rfl)
    · exact (AList.mem_insert _).mpr (.inr (node.keys k hk))

/-- Moving the commit index to an entry found by the commit loop. -/
theorem commitTo (hn : Odd n) (node : NodeSim h i rf) (role : rf.role = .leader)
    (hpeers : rf.peers = (List.range n).filter (· ≠ i.val)) (hlen : rf.peers.length + 1 = n)
    {c : Int} (hc : c = rf.commitIndex ∨
      (rf.commitIndex < c ∧ c < (h.log i).length ∧ rf.CommitQuorum c)) :
    NodeSim h i { rf with commitIndex := c } := by
  rcases hc with rfl | ⟨hlt, hin, quorum⟩
  · exact node
  have hincluded := node.included
  refine
    { node with
      window := node.window.congr rfl rfl
      included := by dsimp only; omega
      commit := hin
      committed := ?_
      matched := fun _ p => (node.matched role p).imp (fun hp => by dsimp only; omega) id }
  refine .inr ⟨rf.currentTerm, c.toNat, le_rfl,
    node.chosen_of_quorum hn role hpeers hlen hlt quorum, ?_⟩
  rw [node.led role]

/-! ## A follower -/

/-- A follower's log agrees with its leader's up to an index that passes the check. -/
theorem agree_prev (sound : SoundHistory h) (node : NodeSim h i rf) {args : AppendEntriesArgs}
    (leads : h.leader rf.currentTerm ≠ none) {e : Entry}
    (he : (h.led rf.currentTerm)[args.prevLogIndex.toNat]? = some e)
    (hterm : e.term = args.prevLogTerm) (hcheck : rf.checkPrev args = some none) :
    (h.led rf.currentTerm).take (args.prevLogIndex.toNat + 1) <+: h.log i := by
  obtain ⟨hle, hlt, hprev⟩ := Raftserver.checkPrev_spec node.window hcheck
  have hnonneg := node.window.nonneg
  rcases hprev with hcommit | ⟨a, ha, haterm⟩
  · -- what the follower has committed is in the log of the leader it listens to
    have hprefix := Committed.prefix_led sound Majority.intersect node.committed le_rfl leads
    rw [hcommit] at hprefix
    have hsame := prefix_take hprefix (m := args.prevLogIndex.toNat + 1)
      (by rw [List.length_take]; omega)
    rw [hsame, List.take_take, min_self]
    exact List.take_prefix _ _
  · have hmatch := (sound.log_origin i).matching (sound.led_origin rf.currentTerm) ha he
      (haterm.trans hterm.symm)
    rw [← hmatch]
    exact List.take_prefix _ _

/-- Another node leads the term. -/
theorem not_leader {c : Fin n} (node : NodeSim h i rf)
    (hleader : h.leader rf.currentTerm = some c) (hne : c ≠ i) : rf.role ≠ .leader :=
  fun role => hne (Option.some.inj (hleader.symm.trans (node.leads.mp role)))

theorem accept (sound : SoundHistory h) (node : NodeSim h i rf) {r : Rpc n AppendEntriesArgs}
    (sent : AppendSent h r) (hserver : r.server = i) (hterm : rf.currentTerm = r.args.term)
    {result : Raftserver × AppendEntriesReply} (hcheck : rf.checkPrev r.args = some none)
    (haccept : rf.acceptEntries r.args = some result)
    (within : rf.commitIndex < r.args.leaderCommit →
      max r.args.leaderCommit result.1.lastIndex =
        min r.args.leaderCommit (r.args.prevLogIndex + r.args.entries.length)) :
    let m := r.args.prevLogIndex.toNat + 1 + r.args.entries.length
    NodeSim (h.adopt i m) i result.1 ∧ SoundHistory (h.adopt i m) ∧ Moves i h (h.adopt i m) ∧
      Acknowledged (h.adopt i m) r result.2 := by
  intro m
  obtain ⟨c, -, hne, hleader⟩ := sent.leader
  obtain ⟨e, he, heterm⟩ := sent.prev
  have hentries := sent.entries
  have hnonneg := sent.nonneg
  have hsentCommit := sent.commit
  rw [← hterm] at hleader he hentries hsentCommit
  have leads : h.leader (h.term i) ≠ none := by simp [node.term, hleader]
  have notLeader := node.not_leader hleader (hserver ▸ hne)
  have hprev := Raftserver.checkPrev_spec node.window hcheck
  have agree := node.agree_prev sound (by simp [hleader]) he heterm hcheck
  have hy : r.args.prevLogIndex < (h.led rf.currentTerm).length := by
    have := (List.getElem?_eq_some_iff.mp he).1
    omega
  obtain ⟨accepted, hlog⟩ := Raftserver.acceptEntries_spec node.window
    (fun k a b ha hb hab =>
      (sound.log_origin i).matching (sound.led_origin rf.currentTerm) ha hb hab)
    notLeader hprev.1 hprev.2.1 hy agree hentries haccept
  have hm : m ≤ (h.led rf.currentTerm).length := by
    have hle := hentries.length_le
    rw [List.length_drop] at hle
    omega
  have grows : Extends h (h.adopt i m) := adopt_extends
  have hwindow : result.1.Window ((h.adopt i m).log i) := by
    have adopted := adopt_log_self (h := h) (v := i) (m := m)
    rw [node.term] at adopted
    rcases adopted with ⟨heq, held⟩ | ⟨heq, differs⟩
    · rw [heq]
      exact (hlog.resolve_right fun new => new.2 held).1
    · rw [heq]
      exact (hlog.resolve_left fun old => differs old.2).1
  -- the committed part of the log is part of the leader's log, and stays
  have hcommit := node.commit
  have hcommit0 := node.commit_nonneg
  have hkept : (h.log i).take (rf.commitIndex.toNat + 1) <+: (h.adopt i m).log i := by
    refine prefix_adopt (List.take_prefix _ _) ?_
    rw [node.term]
    exact Committed.prefix_led sound Majority.intersect node.committed le_rfl (by simp [hleader])
  have hkeptLen : ((h.log i).take (rf.commitIndex.toNat + 1)).length = rf.commitIndex.toNat + 1 := by
    rw [List.length_take]
    omega
  have hsame : ((h.adopt i m).log i).take (rf.commitIndex.toNat + 1) =
      (h.log i).take (rf.commitIndex.toNat + 1) := by
    rw [prefix_take hkept (by rw [hkeptLen]), List.take_take, min_self]
  have hlonger := hkept.length_le
  have hnew : (h.led rf.currentTerm).take m <+: (h.adopt i m).log i := by
    have := take_prefix_adopt (h := h) (v := i) (m := m)
    rwa [node.term] at this
  have hnewLen := hnew.length_le
  rw [List.length_take, min_eq_left hm] at hnewLen
  have hlast := hwindow.lastIndex
  refine ⟨?_, sound.adopt leads (by rwa [node.term]), adopt_moves leads, ?_⟩
  · constructor
    case term => exact node.term.trans accepted.term.symm
    case window => exact hwindow
    case included =>
      rw [accepted.includedIndex, accepted.commit]
      have hincluded := node.included
      split <;> omega
    case commit =>
      rw [accepted.commit]
      split
      · have := within ‹_›
        omega
      · omega
    case committed =>
      rw [accepted.commit, accepted.term]
      split
      · have hwithin := within ‹_›
        have hindex : (max r.args.leaderCommit result.1.lastIndex).toNat + 1 = m := by omega
        have hfull : ((h.adopt i m).log i).take m = (h.led rf.currentTerm).take m := by
          rw [prefix_take hnew (by rw [List.length_take]; omega), List.take_take, min_self]
        have hagreed := grows.committed hsentCommit le_rfl
        rw [show r.args.leaderCommit.toNat + 1 = m by omega] at hagreed
        rw [hindex, hfull]
        exact hagreed
      · rw [hsame]
        exact grows.committed node.committed le_rfl
    case includedTerm =>
      have hincluded := node.included
      have hwin := node.window.nonneg
      rw [accepted.includedIndex, accepted.includedTerm, ← node.includedTerm]
      congr 1
      rw [← List.getElem?_take_of_lt (show rf.lastIncludedIndex.toNat < rf.commitIndex.toNat + 1 by
        omega), hsame, List.getElem?_take_of_lt (by omega)]
    case leads =>
      rw [accepted.role, accepted.term]
      exact node.leads
    case led => exact fun role => absurd (accepted.role ▸ role) notLeader
    case self => exact fun role => absurd (accepted.role ▸ role) notLeader
    case matched => exact fun role => absurd (accepted.role ▸ role) notLeader
    case keys =>
      rw [accepted.matchIndex, accepted.nextIndex]
      exact node.keys
  · intro _
    have hacked := adopt_acked_self (h := h) (v := i) (m := m)
    rw [hserver, ← hterm, ← node.term]
    omega

/-! ## Snapshots -/

/-- Cutting the log at a committed index changes nothing about it. -/
theorem snapshot (node : NodeSim h i rf) {index : Int} {data : Bytes} {rf' : Raftserver}
    (hsnapshot : rf.snapshot index data = some rf') : NodeSim h i rf' := by
  obtain ⟨-, rfl⟩ | ⟨hfirst, hlast, e, calls, he, rfl⟩ := Raftserver.snapshot_outcome hsnapshot
  · exact node
  have hx := (node.window.entryAt.mp he).2
  have hcommit := node.commit
  refine
    { node with
      window := node.window.cut hfirst.le (by omega) rfl rfl
      included := hlast
      includedTerm := ?_ }
  dsimp only
  rw [hx, Option.map_some]

/-- A snapshot that the follower's log already contains. -/
theorem install (sound : SoundHistory h) (node : NodeSim h i rf) {r : Rpc n InstallSnapshotArgs}
    (sent : InstallSent h r) (hserver : r.server = i) (hterm : rf.currentTerm = r.args.term)
    {result : Raftserver × InstallSnapshotReply × Option ApplyMsg}
    (holds : rf.lastIncludedIndex ≤ r.args.lastIncludedIndex →
      rf.commitIndex ≤ r.args.lastIncludedIndex →
        (rf.entryAt r.args.lastIncludedIndex).map Entry.term = some r.args.lastIncludedTerm)
    (htake : rf.takeSnapshot r.args = some result) :
    NodeSim h i result.1 ∧ ∀ msg, result.2.2 = some msg → msg.commandValid = false := by
  obtain ⟨c, -, hne, hleader⟩ := sent.leader
  obtain ⟨a, ha, haterm⟩ := sent.entry
  have hagreed := sent.commit
  rw [← hterm] at hleader ha hagreed
  have notLeader := node.not_leader hleader (hserver ▸ hne)
  rcases Raftserver.takeSnapshot_spec node.window holds htake with ⟨hsame, hnone⟩ |
    ⟨hle, hcommit, ⟨e, he, heterm⟩, hwindow, hindex, hincludedTerm, hcommit', hrole, hcurrent,
      hnext, hmatch, msg, hmsg, hvalid⟩
  · refine ⟨hsame ▸ node, fun msg hmsg => ?_⟩
    rw [hnone] at hmsg
    cases hmsg
  have hin := (List.getElem?_eq_some_iff.mp he).1
  have hnonneg := sent.nonneg
  have hmatching := (sound.log_origin i).matching (sound.led_origin rf.currentTerm) he ha
    (heterm.trans haterm.symm)
  refine ⟨?_, fun msg' hmsg' => ?_⟩
  · constructor
    case term => exact node.term.trans hcurrent.symm
    case window => exact hwindow
    case included => rw [hindex, hcommit']
    case commit =>
      rw [hcommit']
      omega
    case committed =>
      rw [hcommit', hcurrent, hmatching]
      exact hagreed
    case includedTerm => rw [hindex, hincludedTerm, he, Option.map_some, heterm]
    case leads =>
      rw [hrole, hcurrent]
      exact node.leads
    case led => exact fun role => absurd (hrole ▸ role) notLeader
    case self => exact fun role => absurd (hrole ▸ role) notLeader
    case matched => exact fun role => absurd (hrole ▸ role) notLeader
    case keys =>
      rw [hmatch, hnext]
      exact node.keys
  · rw [hmsg] at hmsg'
    cases hmsg'
    exact hvalid

/-! ## Becoming a leader -/

theorem becomeLeader (node : NodeSim h i rf) (sound : SoundHistory h)
    (hopen : h.leader (h.term i) = none) (fresh : 0 < h.term i) :
    NodeSim (h.elect i) i rf.becomeLeader := by
  have indexes := Raftserver.becomeLeader_indexes node.keys node.window.nonneg
  have grows := elect_extends sound hopen fresh
  have hterm : rf.becomeLeader.currentTerm = h.term i := node.term.symm
  refine
    { node with
      window := node.window.congr rfl rfl
      committed := grows.committed node.committed le_rfl
      leads := ?_
      led := fun _ => ?_
      self := fun _ => ?_
      matched := fun _ p => .inl ((indexes.1 p).trans node.included)
      keys := indexes.2 }
  · rw [hterm]
    simp [Ledger.elect, Raftserver.becomeLeader]
  · rw [hterm]
    simp [Ledger.elect]
  · rw [hterm]
    simp [Ledger.elect, Ledger.acknowledge]

end NodeSim

end RaftKv.Raft
