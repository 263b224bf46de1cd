import RaftKv.Library.Iterate
import RaftKv.Raft.Merge
import RaftKv.Raft.Indices

/-!
# How a leader finds out where a follower's log agrees with its own

The leader sends `AppendEntries` behind `nextIndex`, or its snapshot if the previous entry
is no longer in its log, and moves `nextIndex` as the answer tells it. Refusals move it
down, first to the end of the follower's log and then term by term. A snapshot of the
follower moves it up, behind the snapshot, where the two logs agree.

This comes to an end, with one exception. Before it moves up, the leader compares its own
`lastIncludedTerm` with the index in the answer. If the term is not smaller, it starts
again from its own snapshot. The follower turns the snapshot down, and refuses what comes
behind it in the same way as before. `Converges` says from where the leader does not get
there.
-/

namespace RaftKv.Raft

open Library (Outcome Finishes)

/-- A leader and one of its followers. -/
structure Pair where
  leader : Raftserver
  follower : Raftserver

namespace Pair

/-- One round of `StartSendAppendEntries` for the follower, up to the end of the handling
of the answer. It is the last one if `AppendEntries` succeeds. -/
def round (s : Pair) : Option (Outcome Pair) :=
  (s.leader.startSendAppendEntries s.follower.me).bind fun
    | none =>
        s.leader.installSnapshotArgs.bind fun args =>
          (s.follower.installSnapshot args).bind fun result =>
            -- a snapshot that is taken goes to `applyCh`, and then the state is saved
            (match result.2.2 with
              | none => some result.1
              | some _ => result.1.persist).bind fun follower =>
              (s.leader.sendInstallSnapshotToServer s.follower.me result.2.1).map fun leader =>
                .again ⟨leader, follower⟩
    | some args =>
        (s.follower.appendEntries args).bind fun result =>
          if result.2.success then some .done
          else
            (s.leader.sendAppendEntriesToServer s.follower.me args result.2).map fun leader =>
              .again ⟨leader.1, result.1⟩

end Pair

namespace Raftserver

variable {rf : Raftserver} {x : List Entry}

theorem Window.first (window : rf.Window x) :
    ∃ (first : Entry) (rest : List Entry), rf.log = some first :: rest.map some := by
  have hnonneg := window.nonneg
  have hinside := window.inside
  refine ⟨x[rf.lastIncludedIndex.toNat], x.drop (rf.lastIncludedIndex.toNat + 1), ?_⟩
  rw [window.log, List.drop_eq_getElem_cons (by omega), List.map_cons]

theorem Window.filled (window : rf.Window x) : rf.Filled := by
  obtain ⟨first, rest, hlog⟩ := window.first
  exact ⟨some first, rest, hlog⟩

/-- What `InstallSnapshot` keeps of a log. -/
theorem Filled.retainedLog (filled : rf.Filled) {args : InstallSnapshotArgs}
    {log : List (Option Entry)} (h : rf.retainedLog args = some log) :
    ∃ (first : Option Entry) (rest : List Entry), log = first :: rest.map some := by
  by_cases has : rf.Has args
  · rw [retainedLog_of_has has, Option.some.injEq] at h
    have hlt : (rf.globalToLocal args.lastIncludedIndex).toNat < rf.log.length := by
      obtain ⟨e, he, -⟩ := Option.map_eq_some_iff.mp has
      rw [Raftserver.entryAt, deref, Option.ite_none_right_eq_some] at he
      exact (List.getElem?_eq_some_iff.mp (Option.join_eq_some_iff.mp he.2)).1
    exact @Filled.drop rf { rf with log := log } filled _ hlt h.symm
  · exact ⟨none, [_], retainedLog_of_not_has has h⟩

/-- The first index of the follower's term, going down from an index of this term. -/
theorem conflictIndex_bounds {e : Entry} {prev i : Int} (he : rf.entryAt prev = some e)
    (hprev : rf.lastIncludedIndex < prev)
    (h : rf.conflictIndex e.term (prev - rf.lastIncludedIndex).toNat prev = some i) :
    rf.lastIncludedIndex ≤ i ∧ i < prev := by
  have hfuel : (prev - rf.lastIncludedIndex).toNat = (prev - 1 - rf.lastIncludedIndex).toNat + 1 := by
    omega
  rw [hfuel, conflictIndex, if_pos hprev, he, Option.bind_some, if_pos rfl] at h
  have := conflictIndex_range (by omega) h
  omega

/-- An entry whose term is not newer is not skipped. -/
theorem skipNewer_stay {e : Entry} {term i : Int} (he : rf.entryAt i = some e)
    (hterm : e.term ≤ term) (fuel : Nat) : rf.skipNewer term fuel i = some i := by
  cases fuel with
  | zero => rfl
  | succ fuel =>
      rw [skipNewer]
      split
      · rw [he, Option.bind_some, if_neg (by omega)]
      · rfl

/-! ### The refusals -/

variable {args : AppendEntriesArgs}

theorem checkPrev_beyond (window : rf.Window x) (h : x.length ≤ args.prevLogIndex) :
    rf.checkPrev args =
      some (some { term := rf.currentTerm, xTerm := -1, xLen := x.length }) := by
  rw [checkPrev, window.localToGlobal_length, if_pos h]

theorem checkPrev_behind (h : args.prevLogIndex < rf.lastIncludedIndex) :
    rf.checkPrev args =
      some (some { term := rf.currentTerm, xTerm := -1, xLen := rf.lastIncludedIndex + 1 }) := by
  rw [checkPrev, localToGlobal, if_neg (by omega), if_pos h]

theorem checkPrev_conflict (window : rf.Window x) {prev : Int} {a : Entry}
    (hfirst : rf.lastIncludedIndex < prev) (ha : x[prev.toNat]? = some a)
    (hcommit : rf.commitIndex ≠ prev) :
    ∃ i, rf.lastIncludedIndex ≤ i ∧ i < prev ∧
      ∀ args : AppendEntriesArgs, args.prevLogIndex = prev → args.prevLogTerm ≠ a.term →
        rf.checkPrev args = some (some
          { term := rf.currentTerm, xTerm := a.term, xIndex := i + 1, xLen := x.length }) := by
  have hnonneg := window.nonneg
  have hlt := (List.getElem?_eq_some_iff.mp ha).1
  have hentry : rf.entryAt prev = some a := window.entryAt.mpr ⟨by omega, ha⟩
  obtain ⟨i, hi⟩ := Option.isSome_iff_exists.mp
    (@conflictIndex_isSome rf _ window.log a.term (prev - rf.lastIncludedIndex).toNat prev
      (by rw [window.lastIndex]; omega))
  obtain ⟨hle, hlower⟩ := conflictIndex_bounds hentry hfirst hi
  refine ⟨i, hle, hlower, fun args hprev hterm => ?_⟩
  rw [checkPrev, window.localToGlobal_length, hprev, if_neg (by omega), if_neg (by omega),
    if_neg hcommit, hentry, Option.bind_some, if_pos (Ne.symm hterm), hi]
  rfl

/-- A conflict at an entry from before the election. -/
theorem backtrack_conflict (window : rf.Window x) {server : Nat} {prev : Int} {e : Entry}
    (hnext : rf.nextIndex.get server = prev + 1) (hfirst : rf.lastIncludedIndex ≤ prev)
    (he : x[prev.toNat]? = some e) (reply : AppendEntriesReply) (hterm : e.term < reply.term)
    (hconflict : reply.xTerm ≠ -1) :
    rf.backtrack server reply =
      some (if reply.xIndex ≤ rf.lastIncludedIndex then rf.lastIncludedIndex
        else reply.xIndex) := by
  have hentry : rf.entryAt prev = some e := window.entryAt.mpr ⟨hfirst, he⟩
  rw [backtrack, if_neg hconflict, hnext, Int.add_sub_cancel]
  dsimp only
  rw [max_eq_left hfirst, skipNewer_stay hentry hterm.le, Option.bind_some, hentry,
    Option.map_some, if_neg (by omega), if_neg (by omega)]

end Raftserver

namespace Pair

variable {s : Pair} {y : List Entry} {prev : Int} {e : Entry}

/-- The leader with another next index for the follower. -/
def aim (s : Pair) (n : Int) : Pair :=
  { s with leader :=
      { s.leader with nextIndex := s.leader.nextIndex.insert s.follower.me n } }

theorem append_args (leaderLog : s.leader.Window y)
    (hnext : s.leader.nextIndex.get s.follower.me = prev + 1)
    (hfirst : s.leader.lastIncludedIndex ≤ prev) (he : y[prev.toNat]? = some e) :
    ∃ args, s.leader.startSendAppendEntries s.follower.me = some (some args) ∧
      args.term = s.leader.currentTerm ∧ args.prevLogIndex = prev ∧ args.prevLogTerm = e.term := by
  have hentry : s.leader.entryAt prev = some e := leaderLog.entryAt.mpr ⟨hfirst, he⟩
  rw [Raftserver.startSendAppendEntries, hnext, Int.add_sub_cancel, if_neg (by omega), hentry]
  exact ⟨_, rfl, rfl, rfl, rfl⟩

/-- A round in which the previous entry passes the check is the last one. -/
theorem round_done (leaderLog : s.leader.Window y) (filled : s.follower.Filled)
    (term : s.follower.currentTerm = s.leader.currentTerm)
    (hnext : s.leader.nextIndex.get s.follower.me = prev + 1)
    (hfirst : s.leader.lastIncludedIndex ≤ prev) (he : y[prev.toNat]? = some e)
    (hincluded : s.follower.lastIncludedIndex ≤ prev)
    (hlast : prev < s.follower.log.length + s.follower.lastIncludedIndex)
    (passes : s.follower.commitIndex = prev ∨
      ∃ a, s.follower.entryAt prev = some a ∧ a.term = e.term) : s.round = some .done := by
  obtain ⟨args, hargs, hterm, hprev, hprevTerm⟩ := append_args leaderLog hnext hfirst he
  have hcheck : s.follower.checkPrev args = some none := by
    rw [Raftserver.checkPrev_passes_iff, hprev, hprevTerm]
    exact ⟨hincluded, hlast, passes⟩
  obtain ⟨follower, reply, happend, success⟩ :=
    filled.appendEntries (by rw [hterm, term]) hcheck
  rw [round, hargs, Option.bind_some]
  dsimp only
  rw [happend, Option.bind_some, if_pos success]

/-- A round in which the previous entry is refused moves the next index. -/
theorem round_refused (leading : s.leader.role = .leader) (leaderLog : s.leader.Window y)
    (term : s.follower.currentTerm = s.leader.currentTerm)
    (hnext : s.leader.nextIndex.get s.follower.me = prev + 1)
    (hfirst : s.leader.lastIncludedIndex ≤ prev) (he : y[prev.toNat]? = some e)
    {reply : AppendEntriesReply} {n : Int}
    (refused : ∀ args : AppendEntriesArgs, args.prevLogIndex = prev → args.prevLogTerm = e.term →
      s.follower.checkPrev args = some (some reply))
    (replyTerm : reply.term = s.leader.currentTerm)
    (back : s.leader.backtrack s.follower.me reply = some n) :
    s.round = some (.again (s.aim n)) := by
  obtain ⟨args, hargs, hterm, hprev, hprevTerm⟩ := append_args leaderLog hnext hfirst he
  have hcheck := refused args hprev hprevTerm
  have failed := Raftserver.checkPrev_refuses hcheck
  have happend : s.follower.appendEntries args = some (s.follower, reply) := by
    rw [Raftserver.appendEntries, if_neg (by omega), Raftserver.observeLeader,
      if_neg (by omega), Option.bind_some, hcheck, Option.bind_some]
  have hsend : s.leader.sendAppendEntriesToServer s.follower.me args reply =
      some ((s.aim n).leader, false) := by
    rw [Raftserver.sendAppendEntriesToServer, if_neg (not_not.mpr hterm),
      if_neg (by rw [failed]; exact Bool.false_ne_true), if_neg (by omega),
      if_pos ⟨replyTerm, leading⟩, back]
    rfl
  rw [round, hargs, Option.bind_some]
  dsimp only
  rw [happend, Option.bind_some, if_neg (by rw [failed]; exact Bool.false_ne_true), hsend]
  rfl

/-- Without the previous entry the leader sends its snapshot. -/
theorem install_args (leaderLog : s.leader.Window y)
    (hnext : s.leader.nextIndex.get s.follower.me ≤ s.leader.lastIncludedIndex) :
    s.leader.startSendAppendEntries s.follower.me = some none ∧
      ∃ args, s.leader.installSnapshotArgs = some args ∧ args.term = s.leader.currentTerm ∧
        args.lastIncludedIndex = s.leader.lastIncludedIndex := by
  constructor
  · rw [Raftserver.startSendAppendEntries, if_pos (by omega)]
  · obtain ⟨first, rest, hlog⟩ := leaderLog.first
    rw [Raftserver.installSnapshotArgs, hlog]
    exact ⟨_, rfl, rfl, rfl⟩

/-- The next index after a snapshot, whether it was taken or not. -/
theorem send_snapshot (term : s.follower.currentTerm = s.leader.currentTerm)
    (hnext : s.leader.nextIndex.get s.follower.me ≤ s.leader.lastIncludedIndex) :
    s.leader.sendInstallSnapshotToServer s.follower.me { term := s.follower.currentTerm } =
      some (s.aim (s.leader.lastIncludedIndex + 1)).leader := by
  rw [Raftserver.sendInstallSnapshotToServer, if_neg (by simp [term]), Raftserver.localToGlobal,
    max_eq_left (by omega), add_comm]
  rfl

/-- A follower that has a later snapshot or has committed more does not take it. -/
theorem round_rejected (leaderLog : s.leader.Window y)
    (term : s.follower.currentTerm = s.leader.currentTerm)
    (hnext : s.leader.nextIndex.get s.follower.me ≤ s.leader.lastIncludedIndex)
    (rejected : s.leader.lastIncludedIndex < s.follower.lastIncludedIndex ∨
      s.leader.lastIncludedIndex < s.follower.commitIndex) :
    s.round = some (.again { s.aim (s.leader.lastIncludedIndex + 1) with
      follower := { s.follower with role := .follower } }) := by
  obtain ⟨hsnapshot, args, hargs, hterm, hindex⟩ := install_args leaderLog hnext
  have hinstall : s.follower.installSnapshot args =
      some ({ s.follower with role := .follower }, { term := s.follower.currentTerm }, none) := by
    rw [Raftserver.installSnapshot, if_neg (by omega), Raftserver.observeSnapshot,
      if_neg (by omega), Raftserver.takeSnapshot, hindex, if_pos rejected]
  rw [round, hsnapshot, Option.bind_some]
  dsimp only
  rw [hargs, Option.bind_some, hinstall, Option.bind_some, Option.bind_some,
    send_snapshot term hnext]
  rfl

/-- A follower that takes it ends up with the same snapshot. -/
theorem round_taken (leaderLog : s.leader.Window y) {x : List Entry}
    (followerLog : s.follower.Window x) (term : s.follower.currentTerm = s.leader.currentTerm)
    (hnext : s.leader.nextIndex.get s.follower.me ≤ s.leader.lastIncludedIndex)
    (hincluded : s.follower.lastIncludedIndex ≤ s.leader.lastIncludedIndex)
    (hcommit : s.follower.commitIndex ≤ s.leader.lastIncludedIndex) :
    ∃ follower : Raftserver, s.round =
        some (.again { s.aim (s.leader.lastIncludedIndex + 1) with follower := follower }) ∧
      follower.me = s.follower.me ∧ follower.currentTerm = s.follower.currentTerm ∧
      follower.lastIncludedIndex = s.leader.lastIncludedIndex ∧
      follower.commitIndex = s.leader.lastIncludedIndex ∧ follower.Filled := by
  obtain ⟨hsnapshot, args, hargs, hterm, hindex⟩ := install_args leaderLog hnext
  obtain ⟨first, rest, hlog⟩ := followerLog.first
  have hfirst : deref s.follower.log 0 ≠ none := by
    rw [hlog]
    exact nofun
  obtain ⟨⟨taken, reply, msg⟩, hinstall⟩ := Option.isSome_iff_exists.mp
    (followerLog.filled.installSnapshot args (.inr hfirst))
  have hresult := hinstall
  rw [Raftserver.installSnapshot, if_neg (by omega), Raftserver.observeSnapshot,
    if_neg (by omega), Raftserver.takeSnapshot, hindex,
    if_neg (not_or.mpr ⟨not_lt.mpr hincluded, not_lt.mpr hcommit⟩)] at hresult
  obtain ⟨log, hretained, hresult⟩ := Option.map_eq_some_iff.mp hresult
  have spec : taken.Filled ∧ taken.me = s.follower.me ∧
      taken.currentTerm = s.follower.currentTerm ∧
      taken.lastIncludedIndex = s.leader.lastIncludedIndex ∧
      taken.commitIndex = s.leader.lastIncludedIndex ∧
      reply = { term := s.follower.currentTerm } ∧ ∃ sent, msg = some sent := by
    cases hresult
    refine ⟨?_, rfl, rfl, rfl, ?_, rfl, _, rfl⟩
    · exact @Raftserver.Filled.retainedLog { s.follower with role := .follower }
        followerLog.filled args log hretained
    · dsimp only
      split <;> omega
  obtain ⟨filled, hme, hcurrent, hlastIncluded, hlastCommit, rfl, sent, rfl⟩ := spec
  obtain ⟨saved, hsaved⟩ := Option.isSome_iff_exists.mp filled.persist
  refine ⟨saved, ?_, ?_⟩
  · rw [round, hsnapshot, Option.bind_some]
    dsimp only
    rw [hargs, Option.bind_some, hinstall, Option.bind_some]
    dsimp only
    rw [hsaved, Option.bind_some, send_snapshot term hnext]
    rfl
  · obtain ⟨calls, rfl⟩ := Raftserver.persist_eq hsaved
    exact ⟨hme, hcurrent, hlastIncluded, hlastCommit, filled⟩

end Pair

/-- A leader with the full log `y`, and a follower with the full log `x`, in the same
term. The leader has everything that the follower has committed. Index `last` was its last
one at the election, so that the entries up to it are older. -/
structure Facing (y x : List Entry) (last : Int) (s : Pair) : Prop where
  leading : s.leader.role = .leader
  following : s.follower.role ≠ .leader
  term : s.follower.currentTerm = s.leader.currentTerm
  leaderLog : s.leader.Window y
  followerLog : s.follower.Window x
  included : s.follower.lastIncludedIndex ≤ s.follower.commitIndex
  commit : s.follower.commitIndex < x.length
  agree : ∀ k : Nat, k ≤ s.follower.commitIndex →
    ∃ a b, x[k]? = some a ∧ y[k]? = some b ∧ a.term = b.term
  elected : last < y.length
  older : ∀ k : Nat, k ≤ last → ∀ e ∈ y[k]?, e.term < s.leader.currentTerm
  terms : ∀ e ∈ x, e.term ≠ -1

/-- The leader's last included term is not taken for an index beyond the snapshot of a
follower that has the later one. -/
def Comparable (s : Pair) : Prop :=
  s.leader.lastIncludedIndex < s.follower.lastIncludedIndex →
    s.leader.lastIncludedTerm ≤ s.follower.lastIncludedIndex

namespace Facing

variable {y x : List Entry} {last prev : Int} {s : Pair}

theorem aim (facing : Facing y x last s) (n : Int) : Facing y x last (s.aim n) :=
  { facing with leaderLog := facing.leaderLog.congr rfl rfl }

theorem follow (facing : Facing y x last s) :
    Facing y x last { s with follower := { s.follower with role := .follower } } :=
  { facing with following := nofun, followerLog := facing.followerLog.congr rfl rfl }

/-- The two logs agree up to the commit index. -/
theorem done_of_committed (facing : Facing y x last s)
    (hnext : s.leader.nextIndex.get s.follower.me = prev + 1)
    (hfirst : s.leader.lastIncludedIndex ≤ prev)
    (hincluded : s.follower.lastIncludedIndex ≤ prev) (hcommit : prev ≤ s.follower.commitIndex) :
    s.round = some .done := by
  have hnonneg := facing.followerLog.nonneg
  have hlength := facing.followerLog.length
  have hlast := facing.commit
  obtain ⟨a, b, ha, hb, hterm⟩ := facing.agree prev.toNat (by omega)
  exact Pair.round_done facing.leaderLog facing.followerLog.filled facing.term hnext hfirst hb
    hincluded (by omega) (.inr ⟨a, facing.followerLog.entryAt.mpr ⟨hincluded, ha⟩, hterm⟩)

/-- The follower has a snapshot behind the previous entry. -/
theorem finishes_behind (facing : Facing y x last s) (comparable : Comparable s)
    (hnext : s.leader.nextIndex.get s.follower.me = prev + 1)
    (hfirst : s.leader.lastIncludedIndex ≤ prev)
    (hbehind : prev < s.follower.lastIncludedIndex) : Finishes Pair.round s := by
  have hnonneg := facing.leaderLog.nonneg
  have hincluded := facing.included
  obtain ⟨a, b, -, hb, -⟩ := facing.agree prev.toNat (by omega)
  have hsmaller := comparable (by omega)
  have moved : s.round = some (.again (s.aim (s.follower.lastIncludedIndex + 1))) := by
    refine Pair.round_refused facing.leading facing.leaderLog facing.term hnext hfirst hb
      (fun args hprev _ => Raftserver.checkPrev_behind (hprev ▸ hbehind)) facing.term ?_
    rw [Raftserver.backtrack, if_pos rfl, if_neg (by dsimp only; omega)]
  refine .of_again moved (.of_done ?_)
  exact (facing.aim _).done_of_committed (IndexMap.get_insert_self _ _ _)
    (by change s.leader.lastIncludedIndex ≤ s.follower.lastIncludedIndex; omega) le_rfl hincluded

/-- The leader has to send its snapshot. -/
theorem finishes_install (facing : Facing y x last s) (comparable : Comparable s)
    (hnext : s.leader.nextIndex.get s.follower.me ≤ s.leader.lastIncludedIndex) :
    Finishes Pair.round s := by
  by_cases rejected : s.leader.lastIncludedIndex < s.follower.lastIncludedIndex ∨
      s.leader.lastIncludedIndex < s.follower.commitIndex
  · refine .of_again (Pair.round_rejected facing.leaderLog facing.term hnext rejected) ?_
    have facing' := (facing.aim (s.leader.lastIncludedIndex + 1)).follow
    by_cases hbehind : s.leader.lastIncludedIndex < s.follower.lastIncludedIndex
    · exact facing'.finishes_behind comparable (IndexMap.get_insert_self _ _ _) le_rfl hbehind
    · exact .of_done (facing'.done_of_committed (IndexMap.get_insert_self _ _ _) le_rfl
        (not_lt.mp hbehind) (rejected.resolve_left hbehind).le)
  · push Not at rejected
    obtain ⟨follower, moved, hme, hterm, hincluded, hcommit, filled⟩ :=
      Pair.round_taken facing.leaderLog facing.followerLog facing.term hnext rejected.1 rejected.2
    refine .of_again moved (.of_done ?_)
    have hinside := facing.leaderLog.inside
    have hnonneg := facing.leaderLog.nonneg
    have hlength : 0 < follower.log.length := by
      obtain ⟨first, rest, hlog⟩ := filled
      rw [hlog]
      exact Nat.succ_pos _
    have hplaceholder : y[s.leader.lastIncludedIndex.toNat]? =
        some y[s.leader.lastIncludedIndex.toNat] := List.getElem?_eq_getElem (by omega)
    refine Pair.round_done (facing.leaderLog.congr rfl rfl) filled (hterm.trans facing.term)
      ?_ le_rfl hplaceholder hincluded.le ?_ (.inl hcommit)
    · dsimp only [Pair.aim]
      rw [hme]
      exact IndexMap.get_insert_self _ _ _
    · change s.leader.lastIncludedIndex < follower.log.length + follower.lastIncludedIndex
      omega

/-- The follower has the index of the previous entry in its log. -/
theorem finishes_inside (facing : Facing y x last s)
    (hnext : s.leader.nextIndex.get s.follower.me = prev + 1)
    (hfirst : s.leader.lastIncludedIndex ≤ prev)
    (hincluded : s.follower.lastIncludedIndex ≤ prev) (hx : prev < x.length)
    (hlast : prev ≤ last) : Finishes Pair.round s := by
  -- every conflict moves the next index further down in the follower's log
  refine Finishes.of_variant (P := fun s => ∃ prev, Facing y x last s ∧
      s.leader.nextIndex.get s.follower.me = prev + 1 ∧ s.leader.lastIncludedIndex ≤ prev ∧
      s.follower.lastIncludedIndex ≤ prev ∧ prev < x.length ∧ prev ≤ last)
    (fun s => (s.leader.nextIndex.get s.follower.me).toNat) ?_
    ⟨prev, facing, hnext, hfirst, hincluded, hx, hlast⟩
  clear facing hnext hfirst hincluded hx hlast
  rintro s ⟨prev, facing, hnext, hfirst, hincluded, hx, hlast⟩
  have hnonneg := facing.followerLog.nonneg
  have helected := facing.elected
  have ha : x[prev.toNat]? = some x[prev.toNat] := List.getElem?_eq_getElem (by omega)
  have hb : y[prev.toNat]? = some y[prev.toNat] := List.getElem?_eq_getElem (by omega)
  have hlength := facing.followerLog.length
  by_cases passes : s.follower.commitIndex = prev ∨ x[prev.toNat].term = y[prev.toNat].term
  · left
    refine Pair.round_done facing.leaderLog facing.followerLog.filled facing.term hnext hfirst hb
      hincluded (by omega) (passes.imp id fun same => ⟨_, ?_, same⟩)
    exact facing.followerLog.entryAt.mpr ⟨hincluded, ha⟩
  · right
    push Not at passes
    have hafter : s.follower.commitIndex < prev := by
      by_contra hbefore
      obtain ⟨a, b, ha', hb', hterm⟩ := facing.agree prev.toNat (by omega)
      cases ha.symm.trans ha'
      cases hb.symm.trans hb'
      exact passes.2 hterm
    obtain ⟨i, hlower, hupper, refused⟩ := Raftserver.checkPrev_conflict facing.followerLog
      (lt_of_le_of_lt facing.included hafter) ha passes.1
    have holder := facing.older prev.toNat (by omega) _ hb
    have back := Raftserver.backtrack_conflict facing.leaderLog hnext hfirst hb
      { term := s.follower.currentTerm, xTerm := x[prev.toNat].term, xIndex := i + 1
        xLen := x.length }
      (facing.term ▸ holder) (facing.terms _ (List.getElem_mem _))
    have moved := Pair.round_refused facing.leading facing.leaderLog facing.term hnext hfirst hb
      (fun args hprev hterm => refused args hprev (hterm ▸ Ne.symm passes.2)) facing.term back
    refine ⟨_, moved, ?_⟩
    split
    · -- the leader's snapshot is the later one
      rename_i hbefore
      dsimp only at hbefore
      left
      refine (facing.aim _).finishes_install ?_ (IndexMap.get_insert_self _ _ _).le
      intro hlater
      change s.leader.lastIncludedIndex < s.follower.lastIncludedIndex at hlater
      omega
    · rename_i hbehind
      refine .inr ⟨⟨i, facing.aim _, IndexMap.get_insert_self _ _ _, ?_, hlower,
        by omega, by omega⟩, ?_⟩
      · change s.leader.lastIncludedIndex ≤ i
        dsimp only at hbehind
        omega
      · dsimp only [Pair.aim]
        rw [IndexMap.get_insert_self, hnext]
        omega

theorem round_beyond (facing : Facing y x last s)
    (hnext : s.leader.nextIndex.get s.follower.me = prev + 1)
    (hfirst : s.leader.lastIncludedIndex ≤ prev) (hx : x.length ≤ prev) (hlast : prev ≤ last) :
    s.round = some (.again (s.aim (if x.length ≤ s.leader.lastIncludedTerm then
      s.leader.lastIncludedIndex else x.length))) := by
  have helected := facing.elected
  have hb : y[prev.toNat]? = some y[prev.toNat] := List.getElem?_eq_getElem (by omega)
  refine Pair.round_refused facing.leading facing.leaderLog facing.term hnext hfirst hb
    (fun args hprev _ => Raftserver.checkPrev_beyond facing.followerLog (hprev ▸ hx))
    facing.term ?_
  rw [Raftserver.backtrack, if_pos rfl]

/-- The follower's log ends before the previous entry. -/
theorem finishes_beyond (facing : Facing y x last s)
    (enough : Comparable s ∨ s.leader.lastIncludedTerm < x.length)
    (hnext : s.leader.nextIndex.get s.follower.me = prev + 1)
    (hfirst : s.leader.lastIncludedIndex ≤ prev) (hx : x.length ≤ prev) (hlast : prev ≤ last) :
    Finishes Pair.round s := by
  have helected := facing.elected
  have hinside := facing.followerLog.inside
  have hb : y[prev.toNat]? = some y[prev.toNat] := List.getElem?_eq_getElem (by omega)
  refine .of_again (facing.round_beyond hnext hfirst hx hlast) ?_
  by_cases hsnapshot : (if x.length ≤ s.leader.lastIncludedTerm then s.leader.lastIncludedIndex
      else x.length) ≤ s.leader.lastIncludedIndex
  · refine (facing.aim _).finishes_install ?_ ?_
    · rcases enough with comparable | hlarge
      · exact comparable
      · rw [if_neg (not_le.mpr hlarge)] at hsnapshot
        intro hlater
        change s.leader.lastIncludedIndex < s.follower.lastIncludedIndex at hlater
        omega
    · rw [Pair.aim, IndexMap.get_insert_self]
      exact hsnapshot
  · have hlarge : ¬ x.length ≤ s.leader.lastIncludedTerm :=
      fun hterm => hsnapshot (by rw [if_pos hterm])
    rw [if_neg hlarge] at hsnapshot ⊢
    have hend : (s.aim x.length).leader.nextIndex.get s.follower.me = (x.length - 1 : Int) + 1 := by
      rw [Pair.aim, IndexMap.get_insert_self]
      omega
    refine (facing.aim _).finishes_inside hend ?_ ?_ ?_ ?_
    · change s.leader.lastIncludedIndex ≤ x.length - 1
      omega
    · change s.follower.lastIncludedIndex ≤ x.length - 1
      omega
    · omega
    · omega

end Facing

/-! ### Going round in circles -/

/-- The follower has the later snapshot, at an index below the term of the leader's, and
the leader has not got past it. -/
structure Stuck (y : List Entry) (s : Pair) : Prop where
  leading : s.leader.role = .leader
  term : s.follower.currentTerm = s.leader.currentTerm
  leaderLog : s.leader.Window y
  behind : s.leader.lastIncludedIndex < s.follower.lastIncludedIndex
  larger : s.follower.lastIncludedIndex < s.leader.lastIncludedTerm
  filled : s.follower.lastIncludedIndex ≤ y.length
  next : s.leader.nextIndex.get s.follower.me ≤ s.follower.lastIncludedIndex

theorem Stuck.round {y : List Entry} {s : Pair} (stuck : Stuck y s) :
    ∃ t, s.round = some (.again t) ∧ Stuck y t := by
  have hnonneg := stuck.leaderLog.nonneg
  have hfilled := stuck.filled
  have hnext := stuck.next
  have hbehind := stuck.behind
  have hlarger := stuck.larger
  by_cases hinstall : s.leader.nextIndex.get s.follower.me ≤ s.leader.lastIncludedIndex
  · -- the snapshot is turned down, and the next index goes behind it
    refine ⟨_, Pair.round_rejected stuck.leaderLog stuck.term hinstall (.inl hbehind), ?_⟩
    refine { stuck with leaderLog := stuck.leaderLog.congr rfl rfl, next := ?_ }
    dsimp only [Pair.aim]
    rw [IndexMap.get_insert_self]
    omega
  · -- the entries behind it are refused, and the next index goes back
    obtain ⟨prev, hprev⟩ : ∃ prev, s.leader.nextIndex.get s.follower.me = prev + 1 :=
      ⟨s.leader.nextIndex.get s.follower.me - 1, by omega⟩
    have hentry : y[prev.toNat]? = some y[prev.toNat] := List.getElem?_eq_getElem (by omega)
    refine ⟨s.aim s.leader.lastIncludedIndex, ?_, ?_⟩
    · refine Pair.round_refused stuck.leading stuck.leaderLog stuck.term hprev (by omega) hentry
        (fun args same _ => Raftserver.checkPrev_behind (by omega)) stuck.term ?_
      rw [Raftserver.backtrack, if_pos rfl, if_pos (by dsimp only; omega)]
    · refine { stuck with leaderLog := stuck.leaderLog.congr rfl rfl, next := ?_ }
      dsimp only [Pair.aim]
      rw [IndexMap.get_insert_self]
      omega

theorem Stuck.forever {y : List Entry} {s : Pair} (stuck : Stuck y s) :
    ¬ Finishes Pair.round s :=
  Finishes.not_of_invariant (fun _ stuck => stuck.round) stuck

theorem Facing.stuck {y x : List Entry} {last : Int} {s : Pair} (facing : Facing y x last s)
    (behind : s.leader.lastIncludedIndex < s.follower.lastIncludedIndex)
    (larger : s.follower.lastIncludedIndex < s.leader.lastIncludedTerm)
    (next : s.leader.nextIndex.get s.follower.me ≤ s.follower.lastIncludedIndex) : Stuck y s := by
  refine ⟨facing.leading, facing.term, facing.leaderLog, behind, larger, ?_, next⟩
  have hnonneg := facing.followerLog.nonneg
  have hincluded := facing.included
  obtain ⟨-, b, -, hb, -⟩ := facing.agree s.follower.lastIncludedIndex.toNat (by omega)
  have := (List.getElem?_eq_some_iff.mp hb).1
  omega

/-! ### The condition -/

/-- If the follower has the later snapshot, at an index below the term of the leader's, then the
leader starts behind that snapshot, and the follower's log reaches the index where it starts
or that term. -/
def Converges (last : Int) (s : Pair) : Prop :=
  s.leader.lastIncludedIndex < s.follower.lastIncludedIndex →
    s.follower.lastIncludedIndex < s.leader.lastIncludedTerm →
    s.leader.nextIndex.get s.follower.me = last + 1 ∧ s.follower.lastIncludedIndex ≤ last ∧
      (last ≤ s.follower.lastIndex ∨ s.leader.lastIncludedTerm ≤ s.follower.lastIndex)

/-- **Backtracking comes to an end** exactly if the pair converges. -/
theorem backtracking_finishes {y x : List Entry} {last : Int} {s : Pair}
    (facing : Facing y x last s)
    (start : s.leader.nextIndex.get s.follower.me = last + 1 ∨
      s.follower.me ∉ s.leader.nextIndex) : Finishes Pair.round s ↔ Converges last s := by
  have hnonneg := facing.leaderLog.nonneg
  have hlength := facing.followerLog.lastIndex
  constructor
  · intro finishes behind larger
    have present : s.leader.nextIndex.get s.follower.me = last + 1 := by
      refine start.resolve_right fun absent => ?_
      refine (facing.stuck behind larger ?_).forever finishes
      rw [IndexMap.get_of_notMem absent]
      omega
    have past : s.follower.lastIncludedIndex ≤ last := by
      by_contra before
      exact (facing.stuck behind larger (by omega)).forever finishes
    refine ⟨present, past, ?_⟩
    by_contra short
    push Not at short
    -- the refusal of an entry beyond the follower's log leads to the leader's snapshot
    have moved := facing.round_beyond present (by omega) (by omega) le_rfl
    rw [if_pos (by omega)] at moved
    have next : (s.aim s.leader.lastIncludedIndex).leader.nextIndex.get s.follower.me ≤
        s.follower.lastIncludedIndex := by
      rw [Pair.aim, IndexMap.get_insert_self]
      exact behind.le
    exact ((facing.aim _).stuck behind larger next).forever (finishes.next moved)
  · intro converges
    have comparable (before : s.leader.nextIndex.get s.follower.me = last + 1 →
        last < s.follower.lastIncludedIndex) : Comparable s := by
      intro behind
      by_contra larger
      obtain ⟨present, past, -⟩ := converges behind (not_le.mp larger)
      have := before present
      omega
    by_cases hinstall : s.leader.nextIndex.get s.follower.me ≤ s.leader.lastIncludedIndex
    · refine facing.finishes_install (fun behind => ?_) hinstall
      exact comparable (fun present => by omega) behind
    have hnext : s.leader.nextIndex.get s.follower.me = last + 1 := by
      refine start.resolve_right fun absent => hinstall ?_
      rw [IndexMap.get_of_notMem absent]
      exact hnonneg
    by_cases hbehind : last < s.follower.lastIncludedIndex
    · exact facing.finishes_behind (comparable fun _ => hbehind) hnext (by omega) hbehind
    by_cases hbeyond : x.length ≤ last
    · refine facing.finishes_beyond ?_ hnext (by omega) hbeyond le_rfl
      by_cases large : s.leader.lastIncludedTerm < x.length
      · exact .inr large
      · refine .inl fun behind => ?_
        by_contra larger
        obtain ⟨-, -, reached⟩ := converges behind (not_le.mp larger)
        omega
    · exact facing.finishes_inside hnext (by omega) (not_lt.mp hbehind) (not_le.mp hbeyond) le_rfl

/-- Three committed entries of one term. -/
def threeOf (term : Int) : List Entry := {} :: List.replicate 3 { term := term }

/-- A new leader with a snapshot of the first of them, which has not heard from a follower
with a snapshot of all three. -/
def apart (term : Int) : Pair where
  leader :=
    { me := 0, peers := [1, 2], log := List.replicate 3 (some { term := term })
      lastIncludedIndex := 1, lastIncludedTerm := term, lastApplied := 3, commitIndex := 3
      currentTerm := term + 1, role := .leader }
  follower :=
    { me := 1, peers := [0, 2], log := [some { term := term }], lastIncludedIndex := 3
      lastIncludedTerm := term, lastApplied := 3, commitIndex := 3, currentTerm := term + 1 }

theorem facing_apart {term : Int} (h : 0 ≤ term) :
    Facing (threeOf term) (threeOf term) 3 (apart term) where
  leading := rfl
  following := nofun
  term := rfl
  leaderLog := ⟨by simp [apart], by simp [apart, threeOf], rfl⟩
  followerLog := ⟨by simp [apart], by simp [apart, threeOf], rfl⟩
  included := by simp [apart]
  commit := by simp [apart, threeOf]
  agree k hk := by
    have hlt : k < (threeOf term).length := by
      change (k : Int) ≤ 3 at hk
      change k < 4
      omega
    exact ⟨_, _, List.getElem?_eq_getElem hlt, List.getElem?_eq_getElem hlt, rfl⟩
  elected := by simp [threeOf]
  older k _ e he := by
    have hmem := List.mem_of_getElem? he
    rw [threeOf, List.mem_cons, List.mem_replicate] at hmem
    change e.term < term + 1
    rcases hmem with rfl | ⟨-, rfl⟩ <;> dsimp only <;> omega
  terms e he := by
    rw [threeOf, List.mem_cons, List.mem_replicate] at he
    rcases he with rfl | ⟨-, rfl⟩ <;> dsimp only <;> omega

/-- With entries of term two the leader gets behind the follower's snapshot. -/
theorem backtracking_finishes_second_term :
    Facing (threeOf 2) (threeOf 2) 3 (apart 2) ∧ Converges 3 (apart 2) ∧
      Finishes Pair.round (apart 2) := by
  have converges : Converges 3 (apart 2) := fun _ larger => absurd larger (by decide)
  exact ⟨facing_apart (by decide), converges,
    (backtracking_finishes (facing_apart (by decide)) (.inr nofun)).mpr converges⟩

/-- With entries of term five it never does. -/
theorem backtracking_in_circles :
    Facing (threeOf 5) (threeOf 5) 3 (apart 5) ∧
      (apart 5).follower.me ∉ (apart 5).leader.nextIndex ∧ ¬ Finishes Pair.round (apart 5) := by
  have facing := @facing_apart 5 (by decide)
  exact ⟨facing, nofun, (facing.stuck (by decide) (by decide) (by decide)).forever⟩

end RaftKv.Raft
