import RaftKv.Raft.Commit
import RaftKv.Raft.Safety

/-!
# The committed log

No node knows what is committed in a cluster, but in a guarded run it is always one list
of entries: every commit index that a node has, sends or acts on is inside of it, and it
only grows. What a node has committed is a prefix of the list, and so is what any leader
of the same or a later term holds.

This says more than agreement at one moment. An entry that was committed somewhere is found
at its index in every later state, by every node that has committed as far and by every
leader from then on. And a leader that was replaced without noticing may accept a
command at an index that is already taken; that command will never be committed there.
-/

namespace RaftKv.Raft

open Library Library.Ledger

variable {n : Nat} {h h' : History n} {s t : Cluster n} {x : List Entry}

/-- `x` is agreed on, and reaches as far as anybody takes the log to be committed. Some node
has committed all of it. -/
structure CommittedLog (h : History n) (s : Cluster n) (x : List Entry) : Prop where
  agreed : ∃ u, Agreed h u x
  reaches : ∀ v, Said s v → v < x.length
  attained : ∃ i, x.length ≤ (s.nodes i).rf.commitIndex + 1

/-- The node has committed the entry, and still has it in its log. -/
structure Raftserver.HasCommitted (rf : Raftserver) (k : Int) (e : Entry) : Prop where
  included : rf.lastIncludedIndex < k
  commit : k ≤ rf.commitIndex
  entry : rf.entryAt k = some e

namespace CommittedLog

theorem covered (log : CommittedLog h s x) {v : Int} (covered : Covered s v) : v < x.length := by
  obtain ⟨w, said, hle⟩ := covered
  exact hle.trans_lt (log.reaches w said)

/-- What a node has committed is the beginning of the committed log. -/
theorem node (log : CommittedLog h s x) (sim : Sim h s) (i : Fin n) :
    (h.log i).take ((s.nodes i).rf.commitIndex.toNat + 1) <+: x := by
  obtain ⟨u, agreed⟩ := log.agreed
  have node := sim.nodes i
  have hreach := log.reaches _ (.commit i)
  have hlen := node.commit
  have hnonneg := node.commit_nonneg
  rcases Committed.comparable sim.sound Majority.intersect node.committed agreed with
    shorter | longer
  · exact shorter
  · -- the other way round the two have the same length
    have hle := longer.length_le
    rw [List.length_take] at hle
    rw [← longer.eq_of_length (by rw [List.length_take]; omega)]

/-- A committed entry that a node still holds is the one of the committed log. -/
theorem entry (log : CommittedLog h s x) (sim : Sim h s) {i : Fin n} {k : Int}
    (hincluded : (s.nodes i).rf.lastIncludedIndex ≤ k)
    (hcommit : k ≤ (s.nodes i).rf.commitIndex) :
    ∃ e, (s.nodes i).rf.entryAt k = some e ∧ x[k.toNat]? = some e := by
  obtain ⟨e, he, htaken⟩ := (sim.nodes i).committed_entry hincluded hcommit
  exact ⟨e, he, prefix_getElem? (log.node sim i) htaken⟩

/-- The log reaches far enough for some of the nodes after the step, and no further than all
of them. An entry that was not there before has been committed by one of them. -/
theorem extend (log : CommittedLog h s x) (sim : Sim h s) (spreads : Spreads h s t)
    (nodes : List (Fin n)) :
    ∃ y, x <+: y ∧ (∃ u, Agreed h u y) ∧
      (∀ i ∈ nodes, (t.nodes i).rf.commitIndex < y.length) ∧
      (∃ i, y.length ≤ (t.nodes i).rf.commitIndex + 1) ∧
      ∀ k e, x.length ≤ k → y[k]? = some e → ∃ i, (t.nodes i).rf.HasCommitted k e := by
  induction nodes with
  | nil =>
      obtain ⟨i, hi⟩ := log.attained
      have := spreads.mono i
      refine ⟨x, List.prefix_rfl, log.agreed, by simp, ⟨i, by omega⟩, fun k e hk he => ?_⟩
      have := (List.getElem?_eq_some_iff.mp he).1
      omega
  | cons i nodes ih =>
      obtain ⟨y, hxy, ⟨u, agreed⟩, hnodes, attained, held⟩ := ih
      by_cases hshort : (t.nodes i).rf.commitIndex < y.length
      · refine ⟨y, hxy, ⟨u, agreed⟩, fun j hj => ?_, attained, held⟩
        rcases List.mem_cons.mp hj with rfl | hj
        · exact hshort
        · exact hnodes j hj
      have hxlen := hxy.length_le
      -- nobody has said so: the node has counted the acknowledgements itself
      obtain ⟨leader, chosen, hlog, hfirst⟩ := (spreads.commit i).resolve_left fun covered => by
        have := log.covered covered
        omega
      have node := sim.nodes i
      have role := node.leads.mpr leader
      obtain ⟨e, he, -⟩ := chosen.2.2
      have hin := (List.getElem?_eq_some_iff.mp he).1
      have found : Agreed h (s.nodes i).rf.currentTerm
          ((h.led (s.nodes i).rf.currentTerm).take ((t.nodes i).rf.commitIndex.toNat + 1)) :=
        .inr ⟨_, _, le_rfl, chosen, List.prefix_rfl⟩
      have hlen : ((h.led (s.nodes i).rf.currentTerm).take
          ((t.nodes i).rf.commitIndex.toNat + 1)).length =
            (t.nodes i).rf.commitIndex.toNat + 1 := by
        rw [List.length_take]
        omega
      have longer : y <+: (h.led (s.nodes i).rf.currentTerm).take
          ((t.nodes i).rf.commitIndex.toNat + 1) := by
        refine (Committed.comparable sim.sound Majority.intersect agreed found).resolve_right
          fun shorter => ?_
        have := shorter.length_le
        omega
      refine ⟨_, hxy.trans longer, ⟨_, found⟩, fun j hj => ?_, ⟨i, by omega⟩, fun k a hk ha => ?_⟩
      · rw [hlen]
        rcases List.mem_cons.mp hj with rfl | hj
        · omega
        · have := hnodes j hj
          omega
      · have hbehind := log.reaches _ (.commit i)
        have hincluded := node.included
        have hled := prefix_getElem? (List.take_prefix _ _) ha
        rw [node.led role] at hled
        have hk' := (List.getElem?_eq_some_iff.mp ha).1
        refine ⟨i, by omega, by omega, ?_⟩
        have here := node.window.entryAt_eq (k := k) (by omega)
        rw [Raftserver.entryAt, Raftserver.globalToLocal] at here ⊢
        rw [hlog, hfirst, here]
        exact hled

/-- A step of the cluster adds to the committed log what a node commits. -/
theorem step (log : CommittedLog h s x) (sim : Sim h s) (grows : Extends h h')
    (spreads : Spreads h s t) :
    ∃ y, x <+: y ∧ CommittedLog h' t y ∧
      ∀ k e, x.length ≤ k → y[k]? = some e → ∃ i, (t.nodes i).rf.HasCommitted k e := by
  obtain ⟨y, hxy, ⟨u, agreed⟩, hnodes, attained, held⟩ := log.extend sim spreads (List.finRange n)
  refine ⟨y, hxy, ⟨⟨u, grows.committed agreed le_rfl⟩, fun v said => ?_, attained⟩, held⟩
  have hlen := hxy.length_le
  have old {v : Int} (covered : Covered s v) : v < y.length := by
    have := log.covered covered
    omega
  cases said with
  | commit i => exact hnodes i (List.mem_finRange i)
  | append hr => exact old (spreads.append _ hr)
  | install hr => exact old (spreads.install _ hr)
  | delivery hmsg valid => exact old (spreads.delivery _ _ hmsg valid)

end CommittedLog

theorem committedLog_init (hn : Odd n) :
    CommittedLog (History.first n) (Cluster.init n) root where
  agreed := ⟨0, .inl List.prefix_rfl⟩
  attained := ⟨⟨0, pos_of_odd hn⟩, le_rfl⟩
  reaches v said := by
    cases said with
    | commit i => exact Int.zero_lt_one
    | append hr => simp [Cluster.init] at hr
    | install hr => simp [Cluster.init] at hr
    | delivery hmsg => simp [Cluster.init, Node.pending, Checker.messages] at hmsg

/-! ## Runs -/

/-- A guarded run that goes on: the ledger grows, and so does the committed log. -/
theorem Sim.onward (hn : Odd n) (inv : s.VoteInv) (sim : Sim h s)
    (log : CommittedLog h s x) (later : Reaches Cluster.step Guarded s t) :
    t.VoteInv ∧ ∃ h' y, Extends h h' ∧ Sim h' t ∧ x <+: y ∧ CommittedLog h' t y := by
  refine later.invariant (I := fun t => t.VoteInv ∧ ∃ h' y, Extends h h' ∧ Sim h' t ∧ x <+: y ∧
    CommittedLog h' t y) ⟨inv, h, x, .refl h, sim, List.prefix_rfl, log⟩ ?_
  rintro s' a t' - ⟨inv, h', y, grows, sim, hxy, log⟩ guarded taken
  obtain ⟨h'', grows', sim'⟩ := sim.step hn inv guarded taken
  obtain ⟨z, hyz, log', -⟩ := log.step sim grows' (sim.spreads hn inv guarded taken)
  exact ⟨inv.step hn guarded.countsOwnTerm taken, h'', z, grows.trans grows', sim', hxy.trans hyz,
    log'⟩

/-- Every state of a guarded run has a committed log. -/
theorem exists_committedLog (hn : Odd n)
    (reached : Reaches Cluster.step Guarded (Cluster.init n) s) :
    s.VoteInv ∧ ∃ h x, Sim h s ∧ CommittedLog h s x := by
  obtain ⟨inv, h, x, -, sim, -, log⟩ :=
    (sim_init n).onward hn (Cluster.voteInv_init n) (committedLog_init hn) reached
  exact ⟨inv, h, x, sim, log⟩

/-- **Committed entries stay.** What a node has committed in a guarded run is found at its
index from then on: in the log of every node that has committed as far, and in the log of
every leader of the same or a later term, unless the index has gone into its snapshot. -/
theorem committed_for_good (hn : Odd n)
    (reached : Reaches Cluster.step Guarded (Cluster.init n) s)
    (later : Reaches Cluster.step Guarded s t) {i j : Fin n} {k : Int} {e : Entry}
    (held : (s.nodes i).rf.entryAt k = some e) (committed : k ≤ (s.nodes i).rf.commitIndex)
    (present : (t.nodes j).rf.lastIncludedIndex ≤ k)
    (knows : k ≤ (t.nodes j).rf.commitIndex ∨
      ((t.nodes j).rf.role = .leader ∧
        (s.nodes i).rf.currentTerm ≤ (t.nodes j).rf.currentTerm)) :
    (t.nodes j).rf.entryAt k = some e := by
  obtain ⟨inv, h, x, sim, log⟩ := exists_committedLog hn reached
  obtain ⟨-, h', y, grows, sim', hxy, log'⟩ := sim.onward hn inv log later
  have hincluded := ((sim.nodes i).window.entryAt.mp held).1
  rcases knows with hcommit | ⟨role, hterm⟩
  · obtain ⟨a, ha, hxa⟩ := log.entry sim hincluded committed
    obtain ⟨b, hb, hyb⟩ := log'.entry sim' present hcommit
    rw [held] at ha
    cases ha
    rw [hb]
    exact hyb.symm.trans (prefix_getElem? hxy hxa)
  · -- the leader holds all that is agreed on in terms up to its own
    obtain ⟨a, ha, htaken⟩ := (sim.nodes i).committed_entry hincluded committed
    rw [held] at ha
    cases ha
    have node := sim'.nodes j
    have leads : h'.leader (t.nodes j).rf.currentTerm ≠ none := by simp [node.leads.mp role]
    have hled := ((grows.committed (sim.nodes i).committed le_rfl).prefix_led sim'.sound
      Majority.intersect hterm leads)
    rw [node.led role] at hled
    rw [node.window.entryAt_eq present]
    exact prefix_getElem? hled htaken

/-- What is agreed on goes back to the leaders that have created it. -/
theorem Agreed.origin {u : Int} (sound : SoundHistory h) (i : Fin n) (agreed : Agreed h u x) :
    Origin Entry.term h x := by
  rcases agreed with first | ⟨v, k, -, -, led⟩
  · exact (sound.log_origin i).initial (first.trans (sound.root_log i))
  · exact (sound.led_origin v).initial (led.trans (List.take_prefix _ _))

/-- **A late command is lost.** If a node that takes itself for the leader accepts a command
at an index that another node has already committed, then no node ever commits the
accepted entry: what it has at that index when it has committed so far is of another term. -/
theorem late_start_never_commits (hn : Odd n)
    (reached : Reaches Cluster.step Guarded (Cluster.init n) s) {i j : Fin n} {command : Op}
    {rf : Raftserver} {index term : Int}
    (started : (s.nodes i).rf.start command = some (rf, some (index, term)))
    (taken : index ≤ (s.nodes j).rf.commitIndex)
    (later : Reaches Cluster.step Guarded s t) {v : Fin n} {e : Entry}
    (held : (t.nodes v).rf.entryAt index = some e)
    (committed : index ≤ (t.nodes v).rf.commitIndex) : e.term ≠ term := by
  obtain ⟨inv, h, x, sim, log⟩ := exists_committedLog hn reached
  obtain ⟨-, h', y, -, sim', hxy, log'⟩ := sim.onward hn inv log later
  have node := sim.nodes i
  -- the new entry comes right behind the log that the node leads in its term
  obtain ⟨-, hnone⟩ | ⟨role, calls, hrf, hresult⟩ := Raftserver.start_outcome started
  · cases hnone
  obtain ⟨rfl, rfl⟩ : index = rf.lastIndex ∧ term = (s.nodes i).rf.currentTerm := by
    simpa using hresult
  have hindex : rf.lastIndex = (h.led (s.nodes i).rf.currentTerm).length := by
    change rf = _ at hrf
    have hlen := node.window.length
    rw [node.led role, hrf, Raftserver.lastIndex, Raftserver.localToGlobal]
    simp only [List.length_append, List.length_singleton]
    omega
  have hreach := log.reaches _ (.commit j)
  have hlt : rf.lastIndex.toNat < x.length := by omega
  obtain ⟨u, agreed⟩ := log.agreed
  have horigin := agreed.origin sim.sound i rf.lastIndex.toNat _ (List.getElem?_eq_getElem hlt)
  -- the committed log has an entry there already, which cannot be of that term
  have hincluded := ((sim'.nodes v).window.entryAt.mp held).1
  obtain ⟨b, hb, hyb⟩ := log'.entry sim' hincluded committed
  rw [held] at hb
  cases hb
  have hxe := prefix_getElem? hxy (List.getElem?_eq_getElem hlt)
  rw [hyb] at hxe
  cases hxe
  intro same
  rw [same] at horigin
  have hcount := congrArg List.length horigin
  rw [List.length_take, List.length_take] at hcount
  omega

/-! ## Runs of three nodes -/

/-- Node two, which has committed with node zero, is elected for the next term. -/
def succeed : List (Action 3) :=
  win 2 1 { term := 2, candidateId := some 2, lastLogIndex := 1, lastLogTerm := 1 }

/-- The next leader has the entry that the first one has committed. -/
theorem committed_for_good_successor :
    ∃ s t : Cluster 3, Reaches Cluster.step Guarded (Cluster.init 3) s ∧
      Reaches Cluster.step Guarded s t ∧ 1 ≤ (s.nodes 0).rf.commitIndex ∧
      (t.nodes 2).rf.role = .leader ∧ (t.nodes 2).rf.currentTerm = 2 ∧
      ∃ e, (s.nodes 0).rf.entryAt 1 = some e ∧ (t.nodes 2).rf.entryAt 1 = some e := by
  have ended : ∃ s : Cluster 3, Reaches Cluster.step Guarded (Cluster.init 3) s ∧
      1 ≤ (s.nodes 0).rf.commitIndex ∧ (s.nodes 0).rf.currentTerm = 1 ∧
      ((s.nodes 0).rf.entryAt 1).isSome ∧ Allowed Cluster.step Guarded s succeed ∧
      (run Cluster.step s succeed).any (fun t => decide ((t.nodes 2).rf.role = .leader ∧
        (t.nodes 2).rf.currentTerm = 2 ∧ (t.nodes 2).rf.lastIncludedIndex ≤ 1)) = true :=
    exists_reaches (fun s : Cluster 3 => 1 ≤ (s.nodes 0).rf.commitIndex ∧
      (s.nodes 0).rf.currentTerm = 1 ∧ ((s.nodes 0).rf.entryAt 1).isSome ∧
      Allowed Cluster.step Guarded s succeed ∧
      (run Cluster.step s succeed).any (fun t => decide ((t.nodes 2).rf.role = .leader ∧
        (t.nodes 2).rf.currentTerm = 2 ∧ (t.nodes 2).rf.lastIncludedIndex ≤ 1)) = true)
      commitTogether (by decide +kernel) (by decide +kernel)
  obtain ⟨s, reached, hcommit, hterm, hsome, allowed, hrun⟩ := ended
  obtain ⟨e, he⟩ := Option.isSome_iff_exists.mp hsome
  obtain ⟨t, later, role, hterm', hincluded⟩ := exists_reaches _ succeed allowed hrun
  exact ⟨s, t, reached, later, hcommit, role, hterm', e, he,
    committed_for_good (by decide) reached later he hcommit hincluded
      (.inr ⟨role, by omega⟩)⟩

/-- Node one leads the first term. Node zero then leads the second one and commits a command
with node two, of which node one hears nothing. -/
def overtaken : List (Action 3) :=
  win 1 0 (Cluster.firstBallot 1 1) ++ win 0 2 (Cluster.firstBallot 2 0) ++
    [.startSendAppendEntries 0] ++ introduce 0 2 2 ++ replicate 2 (command 2 1)

/-- The first leader accepts a command for the index that the second one has committed, and
no entry of its term is committed there. -/
theorem late_start_never_commits_overtaken :
    ∃ s : Cluster 3, Reaches Cluster.step Guarded (Cluster.init 3) s ∧
      (∃ rf, (s.nodes 1).rf.start (command 1 1) = some (rf, some (1, 1))) ∧
      ∃ e, (s.nodes 0).rf.entryAt 1 = some e ∧ e.term ≠ 1 := by
  have ended : ∃ s : Cluster 3, Reaches Cluster.step Guarded (Cluster.init 3) s ∧
      ((s.nodes 1).rf.start (command 1 1)).bind (·.2) = some (1, 1) ∧
      1 ≤ (s.nodes 0).rf.commitIndex ∧ ((s.nodes 0).rf.entryAt 1).isSome :=
    exists_reaches (fun s : Cluster 3 =>
      ((s.nodes 1).rf.start (command 1 1)).bind (·.2) = some (1, 1) ∧
      1 ≤ (s.nodes 0).rf.commitIndex ∧ ((s.nodes 0).rf.entryAt 1).isSome)
      overtaken (by decide +kernel) (by decide +kernel)
  obtain ⟨s, reached, hstart, hcommit, hsome⟩ := ended
  obtain ⟨⟨rf, answer⟩, started, rfl⟩ := Option.bind_eq_some_iff.mp hstart
  obtain ⟨e, he⟩ := Option.isSome_iff_exists.mp hsome
  exact ⟨s, reached, ⟨rf, started⟩, e, he,
    late_start_never_commits (by decide) reached started hcommit .refl he hcommit⟩

end RaftKv.Raft
