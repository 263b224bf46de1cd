import RaftKv.Raft.Sections
import RaftKv.Library.Ledger

/-!
# The log a node would hold without snapshots

`rf.log` starts at `lastIncludedIndex`, so two nodes may hold different windows of
the same log. Here the window is related to the full log it was cut from, and the
sections that read or write `rf.log` are described in terms of the full log, where
an index means the same at every node.

A follower's merge is the interesting one: if the logs of leader and follower agree
below every index where their terms agree, then the loop of `AppendEntries` either
keeps the follower's log, which already has everything that was sent, or replaces
it by what the leader had up to the last entry sent.
-/

namespace RaftKv.Raft

/-- `rf.log` is the part of `x` from the last included index on. -/
structure Raftserver.Window (rf : Raftserver) (x : List Entry) : Prop where
  nonneg : 0 ≤ rf.lastIncludedIndex
  inside : rf.lastIncludedIndex < x.length
  log : rf.log = (x.drop rf.lastIncludedIndex.toNat).map some

namespace Raftserver.Window

variable {rf : Raftserver} {x : List Entry} (window : rf.Window x)

include window

theorem length : (rf.log.length : Int) = x.length - rf.lastIncludedIndex := by
  have hnonneg := window.nonneg
  have hinside := window.inside
  rw [window.log, List.length_map, List.length_drop]
  omega

theorem lastIndex : rf.lastIndex = x.length - 1 := by
  rw [Raftserver.lastIndex, localToGlobal, window.length]
  omega

theorem localToGlobal_length : rf.localToGlobal rf.log.length = x.length := by
  rw [localToGlobal, window.length]
  omega

theorem entryAt {k : Int} {e : Entry} :
    rf.entryAt k = some e ↔ rf.lastIncludedIndex ≤ k ∧ x[k.toNat]? = some e := by
  have hnonneg := window.nonneg
  rw [Raftserver.entryAt, globalToLocal, window.log, deref_map_some, List.getElem?_drop,
    Option.ite_none_right_eq_some]
  constructor
  · rintro ⟨hle, h⟩
    rw [show rf.lastIncludedIndex.toNat + (k - rf.lastIncludedIndex).toNat = k.toNat by omega] at h
    exact ⟨by omega, h⟩
  · rintro ⟨hle, h⟩
    rw [show rf.lastIncludedIndex.toNat + (k - rf.lastIncludedIndex).toNat = k.toNat by omega]
    exact ⟨by omega, h⟩

/-- At and above the window, reading `rf.log` is reading the full log. -/
theorem entryAt_eq {k : Int} (hk : rf.lastIncludedIndex ≤ k) : rf.entryAt k = x[k.toNat]? := by
  refine Option.ext fun e => ?_
  rw [window.entryAt]
  exact and_iff_right hk

theorem lastEntry : rf.lastEntry = x.getLast? := by
  have hlen := window.length
  have hnonneg := window.nonneg
  have hinside := window.inside
  have hentry : rf.lastEntry = rf.entryAt ((x.length : Int) - 1) := by
    unfold Raftserver.lastEntry Raftserver.entryAt globalToLocal
    congr 1
    omega
  rw [hentry, window.entryAt_eq (by omega), List.getLast?_eq_getElem?]
  congr 1
  omega

/-- Only the log and the last included index matter. -/
theorem congr {rf' : Raftserver} (log : rf'.log = rf.log)
    (index : rf'.lastIncludedIndex = rf.lastIncludedIndex) : rf'.Window x :=
  ⟨index ▸ window.nonneg, index ▸ window.inside, by rw [log, index, window.log]⟩

/-- Cutting the log at an index that it holds. -/
theorem cut {rf' : Raftserver} {index : Int} (hle : rf.lastIncludedIndex ≤ index)
    (hlt : index < x.length) (log : rf'.log = rf.log.drop (rf.globalToLocal index).toNat)
    (hindex : rf'.lastIncludedIndex = index) : rf'.Window x := by
  have hnonneg := window.nonneg
  refine ⟨by omega, by omega, ?_⟩
  rw [log, window.log, ← List.map_drop, List.drop_drop, hindex]
  congr 2
  unfold globalToLocal
  omega

end Raftserver.Window

open Library.Ledger (prefix_take)

theorem prefix_of_take_eq {x y : List Entry} {m : ℕ} (h : x.take m = y.take m) : y.take m <+: x :=
  h ▸ List.take_prefix m x

/-- The loop over the received entries, from position `m` of the full log `x` on.
The entries are what `y` has from `m` on, and `x` and `y` agree below `m`. -/
theorem Raftserver.mergeEntries_spec {x y : List Entry} {start : ℕ}
    (matching : ∀ k a b, x[k]? = some a → y[k]? = some b → a.term = b.term →
      x.take (k + 1) = y.take (k + 1))
    {entries : List Entry} {m : ℕ} {log : List (Option Entry)} (hstart : start ≤ m)
    (hm : m ≤ x.length) (agree : y.take m <+: x) (sent : entries <+: y.drop m)
    (h : mergeEntries ((x.drop start).map some) (m - start) entries = some log) :
    (log = (x.drop start).map some ∧ y.take (m + entries.length) <+: x) ∨
      (log = ((y.take (m + entries.length)).drop start).map some ∧
        ¬ y.take (m + entries.length) <+: x) := by
  induction entries generalizing m with
  | nil =>
      cases h
      exact .inl ⟨rfl, agree⟩
  | cons e es ih =>
      obtain ⟨rest, hrest⟩ := sent
      have hy : y[m]? = some e := by
        have hhead := congrArg (·[0]?) hrest
        simpa using hhead.symm
      have hylen : m < y.length := (List.getElem?_eq_some_iff.mp hy).1
      have hagree : x.take m = y.take m := by
        rw [prefix_take agree (by rw [List.length_take]; omega), List.take_take, min_self]
      have hsent : y.take (m + (e :: es).length) = y.take m ++ e :: es := by
        rw [List.take_add, ← hrest, List.take_append_of_le_length le_rfl, List.take_length]
      have hlocal : ((x.drop start).map some).length = x.length - start := by simp
      -- replacing the rest of the window is replacing the rest of the full log
      have replaced : (((x.drop start).map some).take (m - start) ++ (e :: es).map some) =
          ((y.take (m + (e :: es).length)).drop start).map some := by
        rw [hsent, ← hagree, List.drop_append_of_le_length (by rw [List.length_take]; omega),
          List.map_append, List.drop_take, List.map_take]
      have differs (hx : x[m]? ≠ some e) : ¬ y.take (m + (e :: es).length) <+: x := by
        intro hprefix
        refine hx (Library.Ledger.prefix_getElem? hprefix ?_)
        rw [List.getElem?_take_of_lt (by simp)]
        exact hy
      unfold mergeEntries at h
      split at h
      · rename_i hlt
        obtain ⟨old, hold, h⟩ := Option.bind_eq_some_iff.mp h
        have hx : x[m]? = some old := by
          rw [deref_map_some, if_pos (Int.natCast_nonneg _), List.getElem?_drop] at hold
          rwa [show start + (((m - start : ℕ) : Int)).toNat = m by omega] at hold
        split at h
        · rename_i hterm
          cases h
          refine .inr ⟨replaced, differs ?_⟩
          rw [hx]
          rintro ⟨rfl⟩
          exact hterm rfl
        · rename_i hterm
          have hnext := matching m old e hx hy (not_not.mp hterm)
          have hlt' : m < x.length := (List.getElem?_eq_some_iff.mp hx).1
          have htail : es <+: y.drop (m + 1) := by
            refine ⟨rest, ?_⟩
            rw [← List.drop_drop, ← hrest]
            rfl
          rw [show m - start + 1 = m + 1 - start by omega] at h
          have hdone := ih (by omega) (by omega) (prefix_of_take_eq hnext) htail h
          rwa [show m + 1 + es.length = m + (e :: es).length by simp; omega] at hdone
      · rename_i hge
        split at h
        · cases h
          have hend : m = x.length := by omega
          refine .inr ⟨?_, differs (by simp [hend])⟩
          rw [← replaced, List.take_of_length_le (by omega)]
        · omega

namespace Raftserver

/-- The previous entry has to be in the log, and either committed or of the right term. -/
theorem checkPrev_passes_iff {rf : Raftserver} {args : AppendEntriesArgs} :
    rf.checkPrev args = some none ↔
      rf.lastIncludedIndex ≤ args.prevLogIndex ∧
        args.prevLogIndex < rf.log.length + rf.lastIncludedIndex ∧
        (rf.commitIndex = args.prevLogIndex ∨
          ∃ e, rf.entryAt args.prevLogIndex = some e ∧ e.term = args.prevLogTerm) := by
  rw [checkPrev, localToGlobal]
  constructor
  · intro h
    split at h
    · cases h
    split at h
    · cases h
    rename_i hlast hfirst
    refine ⟨by omega, by omega, ?_⟩
    split at h
    · exact .inl ‹_›
    right
    obtain ⟨e, he, h⟩ := Option.bind_eq_some_iff.mp h
    split at h
    · obtain ⟨i, -, h⟩ := Option.map_eq_some_iff.mp h
      cases h
    · rename_i hterm
      exact ⟨e, he, not_not.mp hterm⟩
  · rintro ⟨hfirst, hlast, passed⟩
    rw [if_neg (by omega), if_neg (by omega)]
    split
    · rfl
    · obtain ⟨e, he, hterm⟩ := passed.resolve_left ‹_›
      rw [he, Option.bind_some, if_neg (not_not.mpr hterm)]

/-- The same in terms of the full log. -/
theorem checkPrev_spec {rf : Raftserver} {x : List Entry} (window : rf.Window x)
    {args : AppendEntriesArgs} (h : rf.checkPrev args = some none) :
    rf.lastIncludedIndex ≤ args.prevLogIndex ∧ args.prevLogIndex < x.length ∧
      (rf.commitIndex = args.prevLogIndex ∨
        ∃ e, x[args.prevLogIndex.toNat]? = some e ∧ e.term = args.prevLogTerm) := by
  obtain ⟨hfirst, hlast, passed⟩ := checkPrev_passes_iff.mp h
  have hlength := window.length
  refine ⟨hfirst, by omega, passed.imp id ?_⟩
  rintro ⟨e, he, hterm⟩
  exact ⟨e, (window.entryAt.mp he).2, hterm⟩

/-- What `AppendEntries` changes once the check has passed. -/
structure Accepted (rf : Raftserver) (args : AppendEntriesArgs) (rf' : Raftserver)
    (reply : AppendEntriesReply) : Prop where
  role : rf'.role = rf.role
  term : rf'.currentTerm = rf.currentTerm
  nextIndex : rf'.nextIndex = rf.nextIndex
  matchIndex : rf'.matchIndex = rf.matchIndex
  includedIndex : rf'.lastIncludedIndex = rf.lastIncludedIndex
  includedTerm : rf'.lastIncludedTerm = rf.lastIncludedTerm
  commit : rf'.commitIndex =
    if rf.commitIndex < args.leaderCommit then max args.leaderCommit rf'.lastIndex
    else rf.commitIndex
  success : reply.success = true

theorem acceptEntries_success {rf : Raftserver} {args : AppendEntriesArgs}
    {result : Raftserver × AppendEntriesReply} (h : rf.acceptEntries args = some result) :
    result.2.success = true := by
  obtain ⟨log, calls, -, rfl⟩ := acceptEntries_outcome h
  rfl

/-- The follower's log afterwards, if it agrees with the log `y` that the entries
were taken from up to the previous index. -/
theorem acceptEntries_spec {rf : Raftserver} {x y : List Entry} (window : rf.Window x)
    {args : AppendEntriesArgs} {result : Raftserver × AppendEntriesReply}
    (matching : ∀ k a b, x[k]? = some a → y[k]? = some b → a.term = b.term →
      x.take (k + 1) = y.take (k + 1))
    (notLeader : rf.role ≠ .leader) (hprev : rf.lastIncludedIndex ≤ args.prevLogIndex)
    (hx : args.prevLogIndex < x.length) (hy : args.prevLogIndex < y.length)
    (agree : y.take (args.prevLogIndex.toNat + 1) <+: x)
    (sent : args.entries <+: y.drop (args.prevLogIndex.toNat + 1))
    (h : rf.acceptEntries args = some result) :
    Accepted rf args result.1 result.2 ∧
      let m := args.prevLogIndex.toNat + 1 + args.entries.length
      ((result.1.Window x ∧ y.take m <+: x) ∨
        (result.1.Window (y.take m) ∧ ¬ y.take m <+: x)) := by
  obtain ⟨log, calls, hlog, rfl⟩ := acceptEntries_outcome h
  refine ⟨⟨rfl, rfl, rfl, rfl, rfl, rfl, rfl, rfl⟩, ?_⟩
  have hnonneg := window.nonneg
  intro m
  have merged : (log = rf.log ∧ y.take m <+: x) ∨
      (log = ((y.take m).drop rf.lastIncludedIndex.toNat).map some ∧ ¬ y.take m <+: x) := by
    unfold mergedLog at hlog
    split at hlog
    · rw [window.log, show (rf.globalToLocal args.prevLogIndex + 1).toNat =
        args.prevLogIndex.toNat + 1 - rf.lastIncludedIndex.toNat by
          unfold globalToLocal; omega] at hlog
      rw [window.log]
      exact mergeEntries_spec matching (by omega) (by omega) agree sent hlog
    · rename_i hentries
      have hnil : args.entries = [] := by
        by_contra hne
        exact hentries ⟨hne, notLeader⟩
      cases hlog
      exact .inl ⟨rfl, by simpa [m, hnil] using agree⟩
  have hlen : (y.take m).length = m := by
    obtain ⟨rest, hrest⟩ := sent
    have hdrop := congrArg List.length hrest
    rw [List.length_append, List.length_drop] at hdrop
    rw [List.length_take]
    omega
  refine merged.imp (fun kept => ⟨window.congr kept.1 rfl, kept.2⟩)
    (fun replaced => ⟨⟨hnonneg, ?_, replaced.1⟩, replaced.2⟩)
  rw [hlen]
  dsimp only
  omega

/-- `InstallSnapshot` on a node that holds the last included entry. -/
theorem takeSnapshot_spec {rf : Raftserver} {x : List Entry} (window : rf.Window x)
    {args : InstallSnapshotArgs} {result : Raftserver × InstallSnapshotReply × Option ApplyMsg}
    (holds : rf.lastIncludedIndex ≤ args.lastIncludedIndex →
      rf.commitIndex ≤ args.lastIncludedIndex →
        (rf.entryAt args.lastIncludedIndex).map Entry.term = some args.lastIncludedTerm)
    (h : rf.takeSnapshot args = some result) :
    (result.1 = rf ∧ result.2.2 = none) ∨
      (rf.lastIncludedIndex ≤ args.lastIncludedIndex ∧ rf.commitIndex ≤ args.lastIncludedIndex ∧
        (∃ e, x[args.lastIncludedIndex.toNat]? = some e ∧ e.term = args.lastIncludedTerm) ∧
        result.1.Window x ∧ result.1.lastIncludedIndex = args.lastIncludedIndex ∧
        result.1.lastIncludedTerm = args.lastIncludedTerm ∧
        result.1.commitIndex = args.lastIncludedIndex ∧ result.1.role = rf.role ∧
        result.1.currentTerm = rf.currentTerm ∧ result.1.nextIndex = rf.nextIndex ∧
        result.1.matchIndex = rf.matchIndex ∧
        ∃ msg, result.2.2 = some msg ∧ msg.commandValid = false) := by
  obtain ⟨-, rfl⟩ | ⟨hle, hcommit, log, hlog, rfl⟩ := takeSnapshot_outcome h
  · exact .inl ⟨rfl, rfl⟩
  · obtain ⟨e, he, hterm⟩ := Option.map_eq_some_iff.mp (holds hle hcommit)
    have hx := (window.entryAt.mp he).2
    have hnonneg := window.nonneg
    have hlt : args.lastIncludedIndex < x.length := by
      have := (List.getElem?_eq_some_iff.mp hx).1
      omega
    have hcut : log = rf.log.drop (rf.globalToLocal args.lastIncludedIndex).toNat := by
      have hlocal : rf.globalToLocal args.lastIncludedIndex < rf.log.length := by
        rw [window.length, globalToLocal]
        omega
      have hderef : deref rf.log (rf.globalToLocal args.lastIncludedIndex) = some e := he
      unfold retainedLog at hlog
      rw [if_pos hlocal, hderef, Option.map_some, if_pos hterm] at hlog
      exact (Option.some.inj hlog).symm
    exact .inr ⟨hle, hcommit, ⟨e, hx, hterm⟩, window.cut hle hlt hcut rfl, rfl, rfl, rfl,
      rfl, rfl, rfl, rfl, _, rfl, rfl⟩

end Raftserver

end RaftKv.Raft
