import RaftKv.Raft.Delivery
import RaftKv.Raft.Merge
import RaftKv.Raft.Safety

/-!
# The indices of a node

A node keeps four indices: where its snapshot ends, what it has applied, what is
committed, and where its log ends. They should be in this order, so that every position
between the snapshot and the commit index is in the log. All sections keep the order
except for `AppendEntries`: a message may replace entries that the node has committed,
and its `LeaderCommit` is taken over without a look at how far the log reaches.
-/

namespace RaftKv.Raft

open Library (enabled_map enabled_some)

namespace Raftserver

variable {rf rf' : Raftserver}

/-- The four indices are in order. -/
structure Ordered (rf : Raftserver) : Prop where
  included : rf.lastIncludedIndex ≤ rf.lastApplied
  applied : rf.lastApplied ≤ rf.commitIndex
  commit : rf.commitIndex ≤ rf.lastIndex

/-- What is committed or applied stays so. -/
structure Onward (rf rf' : Raftserver) : Prop where
  applied : rf.lastApplied ≤ rf'.lastApplied
  commit : rf.commitIndex ≤ rf'.commitIndex

theorem Onward.refl (rf : Raftserver) : Onward rf rf := ⟨le_rfl, le_rfl⟩

/-- A section that has nothing to do with the four indices. -/
structure Still (rf rf' : Raftserver) : Prop extends Aside rf rf' where
  log : rf'.log = rf.log
  commit : rf'.commitIndex = rf.commitIndex

namespace Still

theorem refl (rf : Raftserver) : Still rf rf := ⟨.refl rf, rfl, rfl⟩

theorem of_quiet (quiet : Quiet rf rf') (aside : Aside rf rf') : Still rf rf' :=
  ⟨aside, quiet.log, quiet.commit⟩

theorem onward (h : Still rf rf') : Onward rf rf' := ⟨h.applied.ge, h.commit.ge⟩

theorem lastIndex (h : Still rf rf') : rf'.lastIndex = rf.lastIndex := by
  rw [Raftserver.lastIndex, Raftserver.lastIndex, localToGlobal, localToGlobal, h.log, h.included]

theorem ordered_iff (h : Still rf rf') : rf'.Ordered ↔ rf.Ordered := by
  have last := h.lastIndex
  have included := h.included
  have applied := h.applied
  have commit := h.commit
  constructor
  · rintro ⟨h₁, h₂, h₃⟩
    exact ⟨by omega, by omega, by omega⟩
  · rintro ⟨h₁, h₂, h₃⟩
    exact ⟨by omega, by omega, by omega⟩

end Still

theorem Observes.still {term : Int} (h : Observes rf term rf') : Still rf rf' :=
  .of_quiet h.quiet h.aside

theorem requestVote_still {args : RequestVoteArgs} {result : Raftserver × RequestVoteReply}
    (h : rf.requestVote args = some result) : Still rf result.1 := by
  obtain ⟨observed, observes, rfl | ⟨-, -, last, calls, -, -, rfl⟩⟩ := requestVote_outcome h
  · exact observes.still
  · exact ⟨requestVote_aside h, observes.still.log, observes.still.commit⟩

theorem collectVote_still (rf : Raftserver) (outTime : Bool) :
    Still rf (rf.collectVote outTime) := by
  obtain ⟨count, role, leaderIdx, nextIndex, matchIndex, heq⟩ := collectVote_outcome rf outTime
  rw [heq]
  exact ⟨⟨rfl, rfl⟩, rfl, rfl⟩

theorem sendCommitIndex_still (rf : Raftserver) (r : GetCommitIndexReply) :
    Still rf (rf.sendCommitIndex r).1 := by
  obtain heq | ⟨-, heq⟩ := sendCommitIndex_outcome rf r <;> rw [heq] <;>
    exact ⟨⟨rfl, rfl⟩, rfl, rfl⟩

/-! ### `AppendEntries` -/

/-- A message that replaces entries reaches up to the commit index, and `LeaderCommit` is
in the log, or among the entries that the node takes. -/
def Carries (rf : Raftserver) (args : AppendEntriesArgs) : Prop :=
  (rf.Replaces args →
    max rf.commitIndex args.leaderCommit ≤ args.prevLogIndex + args.entries.length) ∧
  (args.leaderCommit ≤ max rf.commitIndex rf.lastIndex ∨
    (rf.role ≠ .leader ∧ args.leaderCommit ≤ args.prevLogIndex + args.entries.length))

/-- The same for a message that is accepted, with the role that its term leaves. -/
def Keeps (rf : Raftserver) (args : AppendEntriesArgs) : Prop :=
  rf.currentTerm ≤ args.term → ∀ observed ∈ rf.observeLeader args.term,
    observed.checkPrev args = some none → observed.Carries args

/-- The commit index follows `LeaderCommit`, or runs ahead of it to the end of the log. -/
theorem acceptEntries_indices {args : AppendEntriesArgs}
    {result : Raftserver × AppendEntriesReply} (h : rf.acceptEntries args = some result) :
    ∃ log, rf.mergedLog args = some log ∧ Aside rf result.1 ∧
      result.1.lastIndex = rf.localToGlobal (log.length - 1) ∧
      result.1.commitIndex = if rf.commitIndex < args.leaderCommit then
        max args.leaderCommit result.1.lastIndex else rf.commitIndex := by
  obtain ⟨log, calls, hlog, rfl⟩ := acceptEntries_outcome h
  exact ⟨log, hlog, ⟨rfl, rfl⟩, rfl, rfl⟩

theorem acceptEntries_ordered {args : AppendEntriesArgs}
    {result : Raftserver × AppendEntriesReply} (h : rf.Ordered)
    (hcheck : rf.checkPrev args = some none) (hresult : rf.acceptEntries args = some result) :
    Onward rf result.1 ∧ (result.1.Ordered ↔ rf.Carries args) := by
  obtain ⟨included, applied, commit⟩ := h
  obtain ⟨log, hlog, ⟨happlied, hincluded⟩, hlast, hcommit⟩ := acceptEntries_indices hresult
  have length := mergedLog_length hcheck hlog
  rw [← hlast] at length
  have ends : result.1.Ordered ↔ max rf.commitIndex args.leaderCommit ≤ result.1.lastIndex := by
    constructor
    · rintro ⟨-, -, h⟩
      split at hcommit <;> omega
    · intro h
      split at hcommit <;> exact ⟨by omega, by omega, by omega⟩
  refine ⟨⟨happlied.ge, by split at hcommit <;> omega⟩, ?_⟩
  rw [ends, Carries]
  rcases length with ⟨replaced, hend⟩ | ⟨kept, role, hend⟩ | ⟨kept, role, hend⟩
  · simp only [replaced, replaced.1, hend, forall_const, ne_eq, not_false_eq_true, true_and]
    omega
  · simp only [kept, role, false_implies, ne_eq, not_false_eq_true, true_and]
    omega
  · simp only [kept, role, false_implies, ne_eq, not_true_eq_false, false_and, or_false, true_and]
    omega

/-- `AppendEntries` goes on, and keeps the order exactly for the messages that do. -/
theorem appendEntries_ordered {args : AppendEntriesArgs}
    {result : Raftserver × AppendEntriesReply} (h : rf.Ordered)
    (hresult : rf.appendEntries args = some result) :
    Onward rf result.1 ∧ (result.1.Ordered ↔ rf.Keeps args) := by
  obtain ⟨older, rfl⟩ | ⟨hle, observed, hobserved, outcome⟩ := appendEntries_outcome hresult
  · exact ⟨.refl rf, iff_of_true h fun hle => absurd older (not_lt.mpr hle)⟩
  have still := (observeLeader_observes hobserved).still
  have keeps : rf.Keeps args ↔ (observed.checkPrev args = some none → observed.Carries args) := by
    constructor
    · intro keeps
      exact keeps hle observed hobserved
    · intro carries _ other hother
      cases hobserved.symm.trans hother
      exact carries
  rw [keeps]
  obtain ⟨reply, hcheck, rfl⟩ | ⟨hcheck, haccept⟩ := outcome
  · refine ⟨still.onward, iff_of_true (still.ordered_iff.mpr h) fun passed => ?_⟩
    cases hcheck.symm.trans passed
  · obtain ⟨onward, ordered⟩ :=
      acceptEntries_ordered (still.ordered_iff.mpr h) hcheck haccept
    refine ⟨⟨?_, ?_⟩, ordered.trans (by simp [hcheck])⟩
    · exact still.onward.applied.trans onward.applied
    · exact still.onward.commit.trans onward.commit

/-! ### The other sections that move an index -/

theorem commitScan_bounds {fuel : Nat} {k c : Int} (hk : k = rf.commitIndex + fuel)
    (h : rf.commitScan fuel k = some c) : rf.commitIndex ≤ c ∧ c ≤ k := by
  induction fuel generalizing k with
  | zero =>
      cases h
      omega
  | succ fuel ih =>
      rw [commitScan] at h
      split at h
      · obtain ⟨count, -, h⟩ := Option.bind_eq_some_iff.mp h
        split at h
        · cases h
          omega
        · have := ih (by omega) h
          omega
      · omega

theorem sendAppendEntriesToServer_ordered {server : Nat} {args : AppendEntriesArgs}
    {reply : AppendEntriesReply} {result : Raftserver × Bool} (h : rf.Ordered)
    (hresult : rf.sendAppendEntriesToServer server args reply = some result) :
    Onward rf result.1 ∧ result.1.Ordered := by
  obtain ⟨-, -, c, hscan, hrf⟩ | ⟨-, -, -, -, next, -, hrf⟩ | observes :=
    sendAppendEntriesToServer_outcome hresult
  · -- the scan starts at the end of the log and stops at the commit index
    obtain ⟨included, applied, commit⟩ := h
    have hfuel : rf.lastIndex = rf.commitIndex + ((rf.lastIndex - rf.commitIndex).toNat : Int) := by
      omega
    have bounds : rf.commitIndex ≤ c ∧ c ≤ rf.lastIndex :=
      @commitScan_bounds (rf.acknowledge server args) _ _ _ hfuel hscan
    rw [hrf]
    exact ⟨⟨le_rfl, bounds.1⟩, included, le_trans applied bounds.1, bounds.2⟩
  · have still : Still rf result.1 := by
      rw [hrf]
      exact ⟨⟨rfl, rfl⟩, rfl, rfl⟩
    exact ⟨still.onward, still.ordered_iff.mpr h⟩
  · exact ⟨observes.still.onward, observes.still.ordered_iff.mpr h⟩

/-- The log that is kept has at least a placeholder. -/
theorem retainedLog_length {args : InstallSnapshotArgs} {log : List (Option Entry)}
    (hincluded : rf.lastIncludedIndex ≤ args.lastIncludedIndex)
    (h : rf.retainedLog args = some log) : 0 < log.length := by
  rw [retainedLog] at h
  split at h
  · rename_i hin
    obtain ⟨e, -, rfl⟩ := Option.map_eq_some_iff.mp h
    rw [globalToLocal] at hin ⊢
    split
    · rw [List.length_drop]
      omega
    · exact Nat.succ_pos _
  · cases h
    exact Nat.succ_pos _

/-- `InstallSnapshot` takes a snapshot only from the commit index on, and leaves at least
its placeholder. -/
theorem takeSnapshot_ordered {args : InstallSnapshotArgs}
    {result : Raftserver × InstallSnapshotReply × Option ApplyMsg} (h : rf.Ordered)
    (hresult : rf.takeSnapshot args = some result) : Onward rf result.1 ∧ result.1.Ordered := by
  obtain ⟨included, applied, commit⟩ := h
  obtain ⟨-, rfl⟩ | ⟨hincluded, hcommit, log, hlog, rfl⟩ := takeSnapshot_outcome hresult
  · exact ⟨.refl rf, included, applied, commit⟩
  · have length := retainedLog_length hincluded hlog
    refine ⟨⟨le_max_left _ _, hcommit⟩, le_max_right _ _,
      max_le (applied.trans hcommit) le_rfl, ?_⟩
    change args.lastIncludedIndex ≤ (log.length - 1 : Int) + args.lastIncludedIndex
    omega

theorem installSnapshot_ordered {args : InstallSnapshotArgs}
    {result : Raftserver × InstallSnapshotReply × Option ApplyMsg} (h : rf.Ordered)
    (hresult : rf.installSnapshot args = some result) :
    Onward rf result.1 ∧ result.1.Ordered := by
  obtain ⟨-, rfl⟩ | ⟨-, taken⟩ := installSnapshot_outcome hresult
  · exact ⟨.refl rf, h⟩
  · have still : Still rf (rf.observeSnapshot args.term) := by
      obtain ⟨current, voted, -, observed⟩ := rf.observeSnapshot_outcome args.term
      rw [observed]
      exact ⟨⟨rfl, rfl⟩, rfl, rfl⟩
    obtain ⟨⟨applied, commit⟩, ordered⟩ :=
      takeSnapshot_ordered (still.ordered_iff.mpr h) taken
    exact ⟨⟨still.onward.applied.trans applied, still.onward.commit.trans commit⟩, ordered⟩

theorem snapshot_ordered {index : Int} {data : Bytes} (h : rf.Ordered)
    (hresult : rf.snapshot index data = some rf') : Onward rf rf' ∧ rf'.Ordered := by
  obtain ⟨-, rfl⟩ | ⟨hfirst, hlast, e, calls, -, rfl⟩ := snapshot_outcome hresult
  · exact ⟨.refl _, h⟩
  · obtain ⟨included, applied, commit⟩ := h
    rw [lastIndex, localToGlobal] at commit
    refine ⟨⟨?_, le_rfl⟩, ?_, ?_, ?_⟩
    · dsimp only
      split <;> omega
    · dsimp only
      split <;> omega
    · dsimp only
      split <;> omega
    · change rf.commitIndex ≤ ((rf.log.drop (rf.globalToLocal index).toNat).length - 1 : Int) + index
      rw [List.length_drop, globalToLocal]
      omega

theorem start_ordered {command : Op} {result : Raftserver × Option (Int × Int)} (h : rf.Ordered)
    (hresult : rf.start command = some result) : Onward rf result.1 ∧ result.1.Ordered := by
  obtain ⟨-, rfl⟩ | ⟨-, calls, hrf, -⟩ := start_outcome hresult
  · exact ⟨.refl rf, h⟩
  · obtain ⟨included, applied, commit⟩ := h
    rw [hrf]
    refine ⟨⟨le_rfl, le_rfl⟩, included, applied, ?_⟩
    rw [lastIndex, localToGlobal] at commit ⊢
    simp
    omega

end Raftserver

/-! ### No access is out of range

Dereferencing fails for a position out of range and for a nil pointer. With all pointers
set, whatever they point to, only the first is left. -/

namespace Raftserver

variable {rf : Raftserver} {es : List Entry}

/-- The same log positions with other entries, and no nil pointer. -/
def refill (rf : Raftserver) (es : List Entry) : Raftserver := { rf with log := es.map some }

theorem entryAt_isSome (hlog : rf.log = es.map some) {i : Int} (hfirst : rf.lastIncludedIndex ≤ i)
    (hlast : i ≤ rf.lastIndex) : (rf.entryAt i).isSome := by
  rw [lastIndex, localToGlobal, hlog, List.length_map] at hlast
  rw [entryAt, hlog, deref_map_some, globalToLocal, if_pos (by omega),
    List.getElem?_eq_getElem (by omega)]
  rfl

theorem persist_isSome (hlog : rf.log = es.map some) : rf.persist.isSome := by
  rw [persist, hlog]
  cases es with
  | nil => rfl
  | cons e es => simp

theorem commitBuffer_isSome (hlog : rf.log = es.map some) {fuel : Nat} {applied : Int}
    (included : rf.lastIncludedIndex ≤ applied) (commit : rf.commitIndex ≤ rf.lastIndex) :
    (rf.commitBuffer fuel applied).isSome := by
  induction fuel generalizing applied with
  | zero => rfl
  | succ fuel ih =>
      rw [commitBuffer]
      split
      · obtain ⟨e, he⟩ := Option.isSome_iff_exists.mp
          (entryAt_isSome hlog (i := applied + 1) (by omega) (by omega))
        rw [he, Option.bind_some, Option.isSome_map]
        exact ih (by omega)
      · rfl

theorem snapshot_isSome (hlog : rf.log = es.map some) (commit : rf.commitIndex ≤ rf.lastIndex)
    (index : Int) (data : Bytes) : (rf.snapshot index data).isSome := by
  rw [snapshot]
  split
  · rfl
  · obtain ⟨e, he⟩ := Option.isSome_iff_exists.mp
      (entryAt_isSome hlog (i := index) (by omega) (by omega))
    rw [he, Option.bind_some]
    apply persist_isSome
    dsimp only
    rw [hlog, ← List.map_drop]

theorem conflictIndex_isSome (hlog : rf.log = es.map some) (xTerm : Int) {fuel : Nat} {i : Int}
    (hlast : i ≤ rf.lastIndex) : (rf.conflictIndex xTerm fuel i).isSome := by
  induction fuel generalizing i with
  | zero => rfl
  | succ fuel ih =>
      rw [conflictIndex]
      split
      · obtain ⟨e, he⟩ := Option.isSome_iff_exists.mp
          (entryAt_isSome hlog (i := i) (by omega) hlast)
        rw [he, Option.bind_some]
        split
        · exact ih (by omega)
        · rfl
      · rfl

theorem checkPrev_isSome (hlog : rf.log = es.map some) (args : AppendEntriesArgs) :
    (rf.checkPrev args).isSome := by
  rw [checkPrev]
  split
  · rfl
  split
  · rfl
  split
  · rfl
  rename_i hlast hfirst _
  have hin : args.prevLogIndex ≤ rf.lastIndex := by
    rw [lastIndex]
    rw [localToGlobal] at hlast ⊢
    omega
  obtain ⟨e, he⟩ := Option.isSome_iff_exists.mp
    (entryAt_isSome hlog (i := args.prevLogIndex) (by omega) hin)
  rw [he, Option.bind_some]
  split
  · rw [Option.isSome_map]
    exact conflictIndex_isSome hlog _ hin
  · rfl

theorem mergeEntries_map_some (old : List Entry) (m : Nat) (new : List Entry) :
    ∃ merged : List Entry, mergeEntries (old.map some) m new = some (merged.map some) := by
  induction new generalizing m with
  | nil => exact ⟨old, rfl⟩
  | cons e new ih =>
      rw [mergeEntries]
      split
      · rename_i hlt
        rw [List.length_map] at hlt
        rw [deref_map_some, if_pos (by omega), Int.toNat_natCast, List.getElem?_eq_getElem hlt,
          Option.bind_some]
        split
        · exact ⟨old.take m ++ e :: new, by simp⟩
        · exact ih (m + 1)
      · split
        · exact ⟨old ++ e :: new, by simp⟩
        · exact ih (m + 1)

theorem acceptEntries_isSome (hlog : rf.log = es.map some) (args : AppendEntriesArgs) :
    (rf.acceptEntries args).isSome := by
  have merged : ∃ new : List Entry, rf.mergedLog args = some (new.map some) := by
    rw [mergedLog, hlog]
    split
    · exact mergeEntries_map_some es _ args.entries
    · exact ⟨es, rfl⟩
  obtain ⟨new, hnew⟩ := merged
  rw [acceptEntries, hnew, Option.bind_some, Option.isSome_map]
  apply persist_isSome
  rfl

theorem appendEntries_isSome (hlog : rf.log = es.map some) (filled : 0 < es.length)
    (args : AppendEntriesArgs) : (rf.appendEntries args).isSome := by
  rw [appendEntries]
  split
  · rw [Option.isSome_map, lastEntry, hlog, deref_map_some, List.length_map, if_pos (by omega),
      List.getElem?_eq_getElem (by omega)]
    rfl
  obtain ⟨observed, hobserved, hlog'⟩ : ∃ observed, rf.observeLeader args.term = some observed ∧
      observed.log = es.map some := by
    rw [observeLeader]
    split
    · obtain ⟨saved, hsaved⟩ := Option.isSome_iff_exists.mp
        (@persist_isSome { rf with currentTerm := args.term, votedFor := none } _ hlog)
      refine ⟨_, by rw [hsaved]; rfl, ?_⟩
      obtain ⟨calls, rfl⟩ := persist_eq hsaved
      exact hlog
    · exact ⟨rf, rfl, hlog⟩
  obtain ⟨refusal, hrefusal⟩ := Option.isSome_iff_exists.mp (checkPrev_isSome hlog' args)
  rw [hobserved, Option.bind_some, hrefusal, Option.bind_some]
  cases refusal with
  | some reply => rfl
  | none => exact acceptEntries_isSome hlog' args

/-- `CommitCheck`, `Snapshot` and `AppendEntries` stay within the log. -/
def InRange (rf : Raftserver) : Prop :=
  ∀ es : List Entry, es.length = rf.log.length →
    ((rf.refill es).commitBuffer (rf.commitIndex - rf.lastApplied).toNat rf.lastApplied).isSome ∧
    (∀ index data, ((rf.refill es).snapshot index data).isSome) ∧
    ∀ args, ((rf.refill es).appendEntries args).isSome

theorem Ordered.inRange (h : rf.Ordered) : rf.InRange := by
  intro es length
  have hlast : (rf.refill es).lastIndex = rf.lastIndex := by
    simp [lastIndex, localToGlobal, refill, length]
  have commit : (rf.refill es).commitIndex ≤ (rf.refill es).lastIndex := hlast ▸ h.commit
  have filled : rf.lastIncludedIndex ≤ rf.lastIndex := (h.included.trans h.applied).trans h.commit
  rw [lastIndex, localToGlobal] at filled
  exact ⟨commitBuffer_isSome rfl h.included commit, snapshot_isSome rfl commit,
    appendEntries_isSome rfl (by omega)⟩

end Raftserver

/-- Everything that `CommitCheck` still has to deliver is at most at index `c`. -/
def Checker.Below (c : Int) : Checker → Prop
  | .waiting => True
  | .checking buffer => ∀ msg ∈ buffer, msg.commandIndex ≤ c
  | .sending msg _ rest | .sent msg _ rest =>
      msg.commandIndex ≤ c ∧ ∀ msg ∈ rest, msg.commandIndex ≤ c

theorem Checker.Below.mono {c c' : Int} (hle : c ≤ c') {checker : Checker}
    (h : checker.Below c) : checker.Below c' := by
  cases checker with
  | waiting => trivial
  | checking buffer => exact fun msg hmsg => (h msg hmsg).trans hle
  | sending | sent => exact ⟨h.1.trans hle, fun msg hmsg => (h.2 msg hmsg).trans hle⟩

namespace Node

variable {node node' : Node}

/-- The indices are in order, and what `CommitCheck` has collected is committed. -/
structure Fine (node : Node) : Prop where
  ordered : node.rf.Ordered
  checker : node.checker.Below node.rf.commitIndex

theorem Fine.of_ordered (h : node.Fine) (hchecker : node'.checker = node.checker)
    (next : node.rf.Onward node'.rf ∧ node'.rf.Ordered) : node'.Fine :=
  ⟨next.2, hchecker ▸ h.checker.mono next.1.commit⟩

theorem Fine.commitCheck (h : node.Fine) (hnext : node.commitCheck = some node') :
    node.rf.Onward node'.rf ∧ node'.Fine := by
  obtain ⟨ordered, checker⟩ := h
  cases checks_of_commitCheck hnext with
  | collect waiting behind collected =>
      exact ⟨.refl _, ordered, fun _ hmsg => (Raftserver.commitBuffer_mem collected hmsg).2.1⟩
  | finish empty => exact ⟨.refl _, ordered, trivial⟩
  | skip first other =>
      rw [first] at checker
      exact ⟨.refl _, ordered, fun m hm => checker m (List.mem_cons_of_mem _ hm)⟩
  | pick first next =>
      rw [first] at checker
      exact ⟨.refl _, ordered, checker _ List.mem_cons_self,
        fun m hm => checker m (List.mem_cons_of_mem _ hm)⟩
  | send first room =>
      rw [first] at checker
      exact ⟨.refl _, ordered, checker⟩
  | leave first other =>
      rw [first] at checker
      exact ⟨.refl _, ordered, checker.2⟩
  | advance first next =>
      rw [first] at checker
      refine ⟨⟨le_max_left _ _, le_rfl⟩, ⟨?_, ?_, ordered.commit⟩, checker.2⟩
      · exact le_trans ordered.included (le_max_left _ _)
      · exact max_le ordered.applied checker.1

/-- The node goes on in order. -/
structure Advances (node node' : Node) : Prop extends node.rf.Onward node'.rf, node'.Fine

theorem Fine.advances (h : node.Fine) : node.Advances node := ⟨.refl _, h⟩

theorem Fine.advances_of_still (h : node.Fine) (hchecker : node'.checker = node.checker)
    (still : node.rf.Still node'.rf) : node.Advances node' :=
  ⟨still.onward, h.of_ordered hchecker ⟨still.onward, still.ordered_iff.mpr h.ordered⟩⟩

end Node

namespace Cluster

variable {n : Nat} {s t : Cluster n}

/-- Every accepted `AppendEntries` message keeps the order. -/
def KeepsOrder (s : Cluster n) : Action n → Prop
  | .appendEntries r | .heartBeat r => (s.nodes r.server).rf.Keeps r.args
  | _ => True

theorem advances_setNode (fine : ∀ i, (s.nodes i).Fine) {i : Fin n} {node : Node}
    (h : (s.nodes i).Advances node) (j : Fin n) :
    (s.nodes j).Advances ((s.setNode i node).nodes j) :=
  setNode_cases j h fun _ => (fine j).advances

theorem advances_setRf (fine : ∀ i, (s.nodes i).Fine) {i : Fin n} {rf : Raftserver}
    (h : (s.nodes i).rf.Onward rf ∧ rf.Ordered) (j : Fin n) :
    (s.nodes j).Advances ((s.setRf i rf).nodes j) := by
  refine advances_setNode fine ?_ j
  exact ⟨h.1, (fine i).of_ordered rfl h⟩

theorem advances_still (fine : ∀ i, (s.nodes i).Fine) {i : Fin n} {rf : Raftserver}
    (still : (s.nodes i).rf.Still rf) (j : Fin n) :
    (s.nodes j).Advances ((s.setRf i rf).nodes j) := by
  refine advances_setNode fine ?_ j
  exact (fine i).advances_of_still rfl still

theorem step_advances {a : Action n} (fine : ∀ i, (s.nodes i).Fine) (keeps : s.KeepsOrder a)
    (h : s.step a = some t) (i : Fin n) : (s.nodes i).Advances (t.nodes i) := by
  cases a with
  | ticker j =>
      obtain ⟨-, rfl⟩ := enabled_some.mp h
      refine advances_setNode fine ?_ i
      exact (fine j).advances_of_still rfl (.refl _)
  | startElection j =>
      obtain ⟨-, result, hresult, rfl⟩ := enabled_map.mp h
      have still := Raftserver.Still.of_quiet (Raftserver.startElection_quiet hresult)
        (Raftserver.startElection_aside hresult)
      refine advances_setNode fine ?_ i
      exact (fine j).advances_of_still rfl still
  | requestVote r =>
      obtain ⟨-, result, hresult, rfl⟩ := enabled_map.mp h
      exact advances_still fine (Raftserver.requestVote_still hresult) i
  | procVoteAnswer j r reply =>
      obtain ⟨-, result, hresult, rfl⟩ := enabled_map.mp h
      exact advances_still fine (.of_quiet (Raftserver.procVoteAnswer_quiet hresult)
        (Raftserver.procVoteAnswer_aside hresult)) i
  | collectVote j r outTime =>
      obtain ⟨-, rfl⟩ := enabled_some.mp h
      exact advances_still fine (Raftserver.collectVote_still _ outTime) i
  | startSendAppendEntries j =>
      obtain ⟨-, sends, -, rfl⟩ := enabled_map.mp h
      exact (fine i).advances
  | sendAppendEntries j r =>
      obtain ⟨-, rfl⟩ := enabled_some.mp h
      exact (fine i).advances
  | appendEntries r =>
      obtain ⟨-, result, hresult, rfl⟩ := enabled_map.mp h
      have next := Raftserver.appendEntries_ordered (fine r.server).ordered hresult
      exact advances_setRf fine ⟨next.1, next.2.mpr keeps⟩ i
  | appendEntriesReply j r reply =>
      obtain ⟨-, result, hresult, rfl⟩ := enabled_map.mp h
      exact advances_setRf fine
        (Raftserver.sendAppendEntriesToServer_ordered (fine j).ordered hresult) i
  | sendInstallSnapshot j k =>
      obtain ⟨-, args, -, rfl⟩ := enabled_map.mp h
      exact (fine i).advances
  | installSnapshot r =>
      obtain ⟨-, ⟨rf, reply, msg⟩, hresult, rfl⟩ := enabled_map.mp h
      have next := Raftserver.installSnapshot_ordered (fine r.server).ordered hresult
      cases msg with
      | none => exact advances_setRf fine next i
      | some msg =>
          refine advances_setNode fine ?_ i
          exact ⟨next.1, (fine r.server).of_ordered rfl next⟩
  | installSnapshotSend j task =>
      obtain ⟨-, node, hsent, rfl⟩ := enabled_map.mp h
      obtain ⟨-, rfl⟩ := enabled_some.mp hsent
      refine advances_setNode fine ?_ i
      exact (fine j).advances_of_still rfl (.refl _)
  | installSnapshotDone j task =>
      obtain ⟨-, rf, hsaved, rfl⟩ := enabled_map.mp h
      have still := Raftserver.Still.of_quiet (Raftserver.persist_quiet hsaved)
        (Raftserver.persist_aside hsaved)
      refine advances_setNode fine ?_ i
      exact (fine j).advances_of_still rfl still
  | installSnapshotReply j r reply =>
      obtain ⟨-, rf, hresult, rfl⟩ := enabled_map.mp h
      exact advances_still fine (.of_quiet (Raftserver.sendInstallSnapshotToServer_quiet hresult)
        (Raftserver.sendInstallSnapshotToServer_aside hresult)) i
  | singleHeartBeat j =>
      obtain ⟨-, beats, -, rfl⟩ := enabled_map.mp h
      exact (fine i).advances
  | heartBeat r =>
      obtain ⟨-, result, hresult, rfl⟩ := enabled_map.mp h
      have next := Raftserver.appendEntries_ordered (fine r.server).ordered hresult
      exact advances_setRf fine ⟨next.1, next.2.mpr keeps⟩ i
  | sendCommitIndex j =>
      obtain ⟨r, rfl⟩ := step_sendCommitIndex h
      exact (fine i).advances
  | commitIndexReply j r =>
      obtain ⟨-, rfl⟩ := enabled_some.mp h
      exact advances_still fine (Raftserver.sendCommitIndex_still _ r) i
  | start j command =>
      obtain ⟨result, hresult, rfl⟩ := Option.map_eq_some_iff.mp h
      exact advances_setRf fine (Raftserver.start_ordered (fine j).ordered hresult) i
  | snapshot j index data =>
      obtain ⟨rf, hresult, rfl⟩ := Option.map_eq_some_iff.mp h
      exact advances_setRf fine (Raftserver.snapshot_ordered (fine j).ordered hresult) i
  | commitCheck j =>
      obtain ⟨node, hnext, rfl⟩ := Option.map_eq_some_iff.mp h
      obtain ⟨onward, next⟩ := (fine j).commitCheck hnext
      exact advances_setNode fine ⟨onward, next⟩ i
  | applyHandler j =>
      obtain ⟨msg, rest, -, rfl⟩ := step_applyHandler h
      refine advances_setNode fine ?_ i
      exact (fine j).advances_of_still rfl (.refl _)

/-- Whatever a message does, nothing that was committed or applied is taken back, and the
order is lost by the messages that do not keep it. -/
theorem step_appendEntries {a : Action n} {r : Rpc n AppendEntriesArgs}
    (ha : a = .appendEntries r ∨ a = .heartBeat r) (fine : ∀ i, (s.nodes i).Fine)
    (h : s.step a = some t) :
    (∀ i, (s.nodes i).rf.Onward (t.nodes i).rf) ∧
      ((t.nodes r.server).rf.Ordered ↔ (s.nodes r.server).rf.Keeps r.args) := by
  obtain ⟨rf, next, hnodes⟩ : ∃ rf, ((s.nodes r.server).rf.Onward rf ∧
      (rf.Ordered ↔ (s.nodes r.server).rf.Keeps r.args)) ∧
        t.nodes = (s.setRf r.server rf).nodes := by
    rcases ha with rfl | rfl <;>
    · obtain ⟨-, h⟩ := Option.ite_none_right_eq_some.mp h
      obtain ⟨result, hresult, rfl⟩ := Option.map_eq_some_iff.mp h
      exact ⟨result.1, Raftserver.appendEntries_ordered (fine r.server).ordered hresult, rfl⟩
  rw [hnodes]
  constructor
  · intro i
    rw [setRf]
    exact setNode_cases i next.1 fun _ => .refl _
  · rw [setRf_same]
    exact next.2

/-- The indices of every node are in order and no `CommitCheck` is on its way, as they
are when `startWork` has applied a log that reaches up to its commit index. -/
def Ready (s : Cluster n) : Prop :=
  ∀ i, (s.nodes i).rf.Ordered ∧ (s.nodes i).checker = .waiting

theorem ready_init (n : Nat) : (init n).Ready := fun _ => ⟨⟨le_rfl, le_rfl, le_rfl⟩, rfl⟩

/-- **Order of the indices.** In every run in which accepted messages keep it, the four
indices of every node are in order, so that no section leaves the log. No step takes
back what is committed or applied, and a step leaves some node out of order exactly if
it is a message that does not keep it. -/
theorem index_invariant {s₀ : Cluster n} (ready : s₀.Ready)
    (reached : Library.Reaches Cluster.step KeepsOrder s₀ s) :
    (∀ i, (s.nodes i).rf.Ordered ∧ (s.nodes i).rf.InRange) ∧
      ∀ a t, s.step a = some t → (∀ i, (s.nodes i).rf.Onward (t.nodes i).rf) ∧
        ((∀ i, (t.nodes i).rf.Ordered) ↔ s.KeepsOrder a) := by
  have fine : ∀ i, (s.nodes i).Fine := by
    refine reached.invariant (I := fun s => ∀ i, (s.nodes i).Fine) ?_ ?_
    · intro i
      obtain ⟨ordered, waiting⟩ := ready i
      exact ⟨ordered, by rw [waiting]; trivial⟩
    · intro s a t _ fine keeps h i
      exact (step_advances fine keeps h i).toFine
  refine ⟨fun i => ⟨(fine i).ordered, (fine i).ordered.inRange⟩, ?_⟩
  intro a t h
  by_cases message : ∃ r, a = .appendEntries r ∨ a = .heartBeat r
  · obtain ⟨r, ha⟩ := message
    obtain ⟨onward, ordered⟩ := step_appendEntries ha fine h
    refine ⟨onward, ?_, fun keeps i => (step_advances fine keeps h i).ordered⟩
    intro every
    have keeps := ordered.mp (every r.server)
    rcases ha with rfl | rfl <;> exact keeps
  · have keeps : s.KeepsOrder a := by
      cases a with
      | appendEntries r => exact absurd ⟨r, .inl rfl⟩ message
      | heartBeat r => exact absurd ⟨r, .inr rfl⟩ message
      | _ => trivial
    exact ⟨fun i => (step_advances fine keeps h i).toOnward,
      iff_of_true (fun i => (step_advances fine keeps h i).ordered) keeps⟩

instance (rf : Raftserver) (args : AppendEntriesArgs) : Decidable (rf.Replaces args) :=
  inferInstanceAs (Decidable (_ ∧ ∃ k < args.entries.length, _))

instance (rf : Raftserver) (args : AppendEntriesArgs) : Decidable (rf.Carries args) :=
  inferInstanceAs (Decidable ((_ → _) ∧ (_ ∨ _)))

instance (rf : Raftserver) (args : AppendEntriesArgs) : Decidable (rf.Keeps args) :=
  inferInstanceAs (Decidable (_ → ∀ observed ∈ rf.observeLeader args.term, _))

instance (s : Cluster n) : ∀ a, Decidable (s.KeepsOrder a)
  | .appendEntries r | .heartBeat r => inferInstanceAs (Decidable ((s.nodes r.server).rf.Keeps r.args))
  | .ticker _ | .startElection _ | .requestVote _ | .procVoteAnswer .. | .collectVote ..
  | .startSendAppendEntries _ | .sendAppendEntries .. | .appendEntriesReply ..
  | .sendInstallSnapshot .. | .installSnapshot _ | .installSnapshotSend ..
  | .installSnapshotDone .. | .installSnapshotReply .. | .singleHeartBeat _
  | .sendCommitIndex _ | .commitIndexReply .. | .start .. | .snapshot .. | .commitCheck _
  | .applyHandler _ => isTrue trivial

/-- Node two has committed what node zero replicated to it. -/
theorem index_invariant_together :
    ∃ s : Cluster 3, Library.Reaches Cluster.step KeepsOrder (init 3) s ∧
      (s.nodes 2).rf.commitIndex = 1 ∧ ∀ i, (s.nodes i).rf.Ordered := by
  obtain ⟨s, reached, commit⟩ : ∃ s : Cluster 3,
      Library.Reaches Cluster.step KeepsOrder (init 3) s ∧ (s.nodes 2).rf.commitIndex = 1 :=
    Library.exists_reaches _ commitTogether (by decide +kernel) (by decide +kernel)
  exact ⟨s, reached, commit, fun i => ((index_invariant (ready_init 3) reached).1 i).1⟩

/-- Node one, which has no entry yet, gets a heartbeat with the commit index of its
leader. `CommitCheck` then reads behind the end of the log. -/
theorem commit_behind_the_log :
    ∃ s : Cluster 3, Library.Reachable Cluster.step (init 3) s ∧
      (s.nodes 1).rf.commitIndex = 1 ∧ (s.nodes 1).rf.lastIndex = 0 ∧
      (s.nodes 1).rf.lastApplied = 0 ∧ (s.nodes 1).rf.commitBuffer 1 0 = none := by
  refine Library.exists_reachable (fun s : Cluster 3 =>
    (s.nodes 1).rf.commitIndex = 1 ∧ (s.nodes 1).rf.lastIndex = 0 ∧
      (s.nodes 1).rf.lastApplied = 0 ∧ (s.nodes 1).rf.commitBuffer 1 0 = none)
    (win 0 2 (firstBallot 1 0) ++ [Action.startSendAppendEntries 0] ++ introduce 0 1 1 ++
      introduce 0 2 1 ++ replicate 1 (command 1 1) ++
      [Action.singleHeartBeat 0, Action.heartBeat ⟨1, { bareBeat with term := 1 }⟩])
    (by decide +kernel)

end Cluster

end RaftKv.Raft
