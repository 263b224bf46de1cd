import RaftKv.Raft.Compaction
import RaftKv.Raft.Quiet

/-!
# Merging the entries of a message into the log

The loop of `AppendEntries` goes through the entries of a message side by side with the
log behind the previous entry. It stops at the first pair with different terms, where the
rest of the message replaces the rest of the log, or at the end of the log, where the
rest of the message is appended. Otherwise the log has all the terms of the message.

A message that was merged once finds its own terms, as long as the log keeps them. It may
then arrive again, in part or as a whole, without changing anything.
-/

namespace RaftKv.Raft.Raftserver

variable {rf rf' later : Raftserver} {args : AppendEntriesArgs}

/-- The result of the loop over the received entries, from position `m` on. -/
theorem mergeEntries_eq {log log' : List (Option Entry)} {m : Nat} {es : List Entry}
    (hm : m ≤ log.length) (h : mergeEntries log m es = some log') :
    (∃ k, (∃ old ∈ deref log (m + k : Nat), ∃ new ∈ es[k]?, old.term ≠ new.term) ∧
        (∀ j < k, (deref log (m + j : Nat)).map Entry.term = es[j]?.map Entry.term) ∧
        log' = log.take (m + k) ++ (es.drop k).map some) ∨
      ((∀ j < es.length, m + j < log.length →
          (deref log (m + j : Nat)).map Entry.term = es[j]?.map Entry.term) ∧
        log' = log ++ (es.drop (log.length - m)).map some) := by
  induction es generalizing m with
  | nil =>
      cases h
      right
      simp
  | cons e es ih =>
      rw [mergeEntries] at h
      split at h
      · rename_i hlt
        obtain ⟨old, hold, h⟩ := Option.bind_eq_some_iff.mp h
        split at h
        · rename_i hterm
          cases h
          exact .inl ⟨0, ⟨old, hold, e, rfl, hterm⟩, fun j hj => absurd hj (Nat.not_lt_zero j), rfl⟩
        · rename_i hterm
          -- the first terms agree, so position `j` of the rest is position `j + 1` here
          have first : (deref log (m + 0 : Nat)).map Entry.term = (e :: es)[0]?.map Entry.term := by
            rw [Nat.add_zero, hold]
            simpa using hterm
          have shift (j : Nat) : m + 1 + j = m + (j + 1) := by omega
          rcases ih hlt h with ⟨k, conflict, before, rfl⟩ | ⟨agree, rfl⟩
          · rw [shift] at conflict
            refine .inl ⟨k + 1, conflict, ?_, by rw [shift, List.drop_succ_cons]⟩
            rintro (_ | j) hj
            · exact first
            · rw [← shift]
              exact before j (by omega)
          · refine .inr ⟨?_, ?_⟩
            · rintro (_ | j) hj hin
              · exact first
              · rw [← shift] at hin ⊢
                exact agree j (by simpa using hj) hin
            · rw [show log.length - m = (log.length - (m + 1)) + 1 by omega, List.drop_succ_cons]
      · rename_i hge
        have hend : m = log.length := by omega
        rw [if_pos hend] at h
        cases h
        refine .inr ⟨fun j _ hin => by omega, ?_⟩
        rw [hend, Nat.sub_self, List.drop_zero]

/-- Nothing before the position of the loop changes. -/
theorem mergeEntries_below {log log' : List (Option Entry)} {m : Nat} {es : List Entry}
    (hm : m ≤ log.length) (h : mergeEntries log m es = some log') {i : Nat} (hi : i < m) :
    log'[i]? = log[i]? := by
  rcases mergeEntries_eq hm h with ⟨k, -, -, rfl⟩ | ⟨-, rfl⟩
  · by_cases hk : i < (log.take (m + k)).length
    · rw [List.getElem?_append_left hk, List.getElem?_take_of_lt (by omega)]
    · rw [List.length_take] at hk
      omega
  · rw [List.getElem?_append_left (by omega)]

/-- Each received entry is in the log afterwards, unless one of its term was there. -/
theorem mergeEntries_at {log log' : List (Option Entry)} {m : Nat} {es : List Entry}
    (hm : m ≤ log.length) (h : mergeEntries log m es = some log') {j : Nat} (hj : j < es.length) :
    log'[m + j]? = some (some es[j]) ∨
      (log'[m + j]? = log[m + j]? ∧
        (deref log (m + j : Nat)).map Entry.term = some es[j].term) := by
  have received : es[j]?.map Entry.term = some es[j].term := by
    rw [List.getElem?_eq_getElem hj, Option.map_some]
  rcases mergeEntries_eq hm h with ⟨k, ⟨old, hold, -⟩, before, rfl⟩ | ⟨agree, rfl⟩
  · have hk : m + k < log.length := by
      rw [deref_natCast] at hold
      exact (List.getElem?_eq_some_iff.mp (Option.join_eq_some_iff.mp hold)).1
    have hlen : (log.take (m + k)).length = m + k := by
      rw [List.length_take]
      omega
    by_cases hjk : j < k
    · refine .inr ⟨?_, (before j hjk).trans received⟩
      rw [List.getElem?_append_left (by omega), List.getElem?_take_of_lt (by omega)]
    · left
      rw [List.getElem?_append_right (by omega), hlen, List.getElem?_map, List.getElem?_drop,
        show k + (m + j - (m + k)) = j by omega, List.getElem?_eq_getElem hj, Option.map_some]
  · by_cases hin : m + j < log.length
    · refine .inr ⟨?_, (agree j hj hin).trans received⟩
      rw [List.getElem?_append_left hin]
    · left
      rw [List.getElem?_append_right (by omega), List.getElem?_map, List.getElem?_drop,
        show log.length - m + (m + j - log.length) = j by omega, List.getElem?_eq_getElem hj,
        Option.map_some]

theorem mergeEntries_terms {log log' : List (Option Entry)} {m : Nat} {es : List Entry}
    (hm : m ≤ log.length) (h : mergeEntries log m es = some log') {j : Nat} (hj : j < es.length) :
    (deref log' (m + j : Nat)).map Entry.term = es[j]?.map Entry.term := by
  rw [List.getElem?_eq_getElem hj, Option.map_some]
  rcases mergeEntries_at hm h hj with here | ⟨kept, term⟩
  · rw [deref_natCast, here]
    rfl
  · rw [deref_natCast, kept, ← deref_natCast]
    exact term

/-- Entry `k` of a message meets an entry of another term. -/
def Conflict (rf : Raftserver) (args : AppendEntriesArgs) (k : Nat) : Prop :=
  ∃ old ∈ rf.entryAt (args.prevLogIndex + 1 + k), ∃ new ∈ args.entries[k]?, old.term ≠ new.term

structure FirstConflict (rf : Raftserver) (args : AppendEntriesArgs) (k : Nat) : Prop where
  conflict : rf.Conflict args k
  before : ∀ j < k, ¬ rf.Conflict args j

/-- The position of the log that entry `k` of a message is compared with. -/
theorem deref_behind (hprev : rf.lastIncludedIndex ≤ args.prevLogIndex) (k : Nat) :
    deref rf.log ((rf.globalToLocal args.prevLogIndex + 1).toNat + k : Nat) =
      rf.entryAt (args.prevLogIndex + 1 + k) := by
  rw [entryAt, globalToLocal, globalToLocal]
  congr 1
  omega

/-- What has become of the log of `rf` after it has accepted a message. -/
structure Merged (rf : Raftserver) (args : AppendEntriesArgs) (rf' : Raftserver) : Prop where
  included : rf'.lastIncludedIndex = rf.lastIncludedIndex
  below : ∀ g ≤ args.prevLogIndex, rf'.entryAt g = rf.entryAt g
  terms : ∀ j < args.entries.length, (rf'.entryAt (args.prevLogIndex + 1 + j)).map Entry.term =
    args.entries[j]?.map Entry.term
  kept : (∀ k, ¬ rf.Conflict args k) →
    rf'.log = rf.log ++ (args.entries.drop (rf.lastIndex - args.prevLogIndex).toNat).map some
  replaced : ∀ k, rf.FirstConflict args k →
    rf'.log = rf.log.take (rf.globalToLocal (args.prevLogIndex + 1 + k)).toNat ++
      (args.entries.drop k).map some

/-- The loop on a node, whose previous entry has passed the check. -/
theorem merged_of_mergeEntries (included : rf'.lastIncludedIndex = rf.lastIncludedIndex)
    (hfirst : rf.lastIncludedIndex ≤ args.prevLogIndex)
    (hlast : args.prevLogIndex < rf.log.length + rf.lastIncludedIndex)
    (h : mergeEntries rf.log (rf.globalToLocal args.prevLogIndex + 1).toNat args.entries =
      some rf'.log) : rf.Merged args rf' := by
  have hm : (rf.globalToLocal args.prevLogIndex + 1).toNat ≤ rf.log.length := by
    rw [globalToLocal]
    omega
  have position := deref_behind hfirst
  have position' : ∀ k : Nat,
      deref rf'.log ((rf.globalToLocal args.prevLogIndex + 1).toNat + k : Nat) =
        rf'.entryAt (args.prevLogIndex + 1 + k) := by
    intro k
    have here := @deref_behind rf' args (by omega) k
    rwa [globalToLocal, included] at here
  have result := mergeEntries_eq hm h
  simp only [position] at result
  refine ⟨included, ?_, ?_, ?_, ?_⟩
  · intro g hg
    rw [entryAt, entryAt, globalToLocal, globalToLocal, included, deref, deref]
    split
    · rw [mergeEntries_below hm h (by rw [globalToLocal]; omega)]
    · rfl
  · intro j hj
    rw [← position']
    exact mergeEntries_terms hm h hj
  · intro harmless
    rcases result with ⟨k, conflict, -⟩ | ⟨-, hlog⟩
    · exact absurd conflict (harmless k)
    · rw [hlog, lastIndex, localToGlobal, globalToLocal]
      congr 3
      omega
  · intro k first
    rcases result with ⟨k', conflict, before, hlog⟩ | ⟨agree, -⟩
    · -- both `k` and `k'` are the first conflict
      have same : k = k' := by
        rcases Nat.lt_trichotomy k k' with hlt | heq | hgt
        · obtain ⟨old, hold, new, hnew, hne⟩ := first.conflict
          have agree := before k hlt
          rw [hold, hnew] at agree
          exact absurd (Option.some.inj agree) hne
        · exact heq
        · exact absurd conflict (first.before k' hgt)
      rw [hlog, same, globalToLocal, globalToLocal]
      congr 2
      omega
    · obtain ⟨old, hold, new, hnew, hne⟩ := first.conflict
      have hin : (rf.globalToLocal args.prevLogIndex + 1).toNat + k < rf.log.length := by
        rw [← position, deref_natCast] at hold
        exact (List.getElem?_eq_some_iff.mp (Option.join_eq_some_iff.mp hold)).1
      have agree := agree k (List.getElem?_eq_some_iff.mp hnew).1 hin
      rw [hold, hnew] at agree
      exact absurd (Option.some.inj agree) hne

/-- Some entry of the message differs in term from the one that the log has at its index.
A leader does not look. -/
def Replaces (rf : Raftserver) (args : AppendEntriesArgs) : Prop :=
  rf.role ≠ .leader ∧ ∃ k < args.entries.length,
    ∃ old ∈ rf.entryAt (args.prevLogIndex + 1 + k), ∃ new ∈ args.entries[k]?, old.term ≠ new.term

/-- The log after the loop ends with the message if something was replaced, and reaches
at least as far as before if not. -/
theorem mergeEntries_length {log log' : List (Option Entry)} {m : Nat} {es : List Entry}
    (hm : m ≤ log.length) (h : mergeEntries log m es = some log') :
    ((∃ k < es.length, ∃ old ∈ deref log (m + k : Nat), ∃ new ∈ es[k]?, old.term ≠ new.term) ∧
        log'.length = m + es.length) ∨
      ((¬ ∃ k < es.length, ∃ old ∈ deref log (m + k : Nat), ∃ new ∈ es[k]?, old.term ≠ new.term) ∧
        log'.length = max log.length (m + es.length)) := by
  rcases mergeEntries_eq hm h with ⟨k, ⟨old, hold, new, hnew, hne⟩, -, rfl⟩ | ⟨agree, rfl⟩
  · left
    have hlt := (List.getElem?_eq_some_iff.mp hnew).1
    refine ⟨⟨k, hlt, old, hold, new, hnew, hne⟩, ?_⟩
    rw [deref_natCast] at hold
    have hin := (List.getElem?_eq_some_iff.mp (Option.join_eq_some_iff.mp hold)).1
    simp
    omega
  · right
    constructor
    · rintro ⟨k, hk, old, hold, new, hnew, hne⟩
      rw [deref_natCast] at hold
      have same := agree k hk
        (List.getElem?_eq_some_iff.mp (Option.join_eq_some_iff.mp hold)).1
      rw [deref_natCast, hold, hnew] at same
      exact hne (Option.some.inj same)
    · simp
      omega

/-- Where the log ends after step 4. -/
theorem mergedLog_length {log : List (Option Entry)}
    (hcheck : rf.checkPrev args = some none) (h : rf.mergedLog args = some log) :
    (rf.Replaces args ∧ rf.localToGlobal (log.length - 1) =
        args.prevLogIndex + args.entries.length) ∨
      (¬ rf.Replaces args ∧ rf.role ≠ .leader ∧ rf.localToGlobal (log.length - 1) =
        max rf.lastIndex (args.prevLogIndex + args.entries.length)) ∨
      (¬ rf.Replaces args ∧ rf.role = .leader ∧ rf.localToGlobal (log.length - 1) = rf.lastIndex) := by
  obtain ⟨hfirst, hlast⟩ := checkPrev_range hcheck
  rw [mergedLog] at h
  split at h
  · rename_i hentries
    have hm : (rf.globalToLocal args.prevLogIndex + 1).toNat ≤ rf.log.length := by
      rw [globalToLocal]
      omega
    have length := mergeEntries_length hm h
    simp only [deref_behind hfirst] at length
    rw [globalToLocal] at length
    simp only [lastIndex, localToGlobal]
    rcases length with ⟨hreplaced, hlength⟩ | ⟨hkept, hlength⟩
    · exact .inl ⟨⟨hentries.2, hreplaced⟩, by omega⟩
    · exact .inr (.inl ⟨fun replaced => hkept replaced.2, hentries.2, by omega⟩)
  · rename_i hentries
    cases h
    by_cases hrole : rf.role = .leader
    · exact .inr (.inr ⟨fun replaced => replaced.1 hrole, hrole, rfl⟩)
    · have empty : args.entries = [] := by
        by_contra hne
        exact hentries ⟨hne, hrole⟩
      refine .inr (.inl ⟨?_, hrole, ?_⟩)
      · rintro ⟨-, k, hk, -⟩
        rw [empty] at hk
        exact absurd hk (Nat.not_lt_zero k)
      · rw [empty, lastIndex, localToGlobal]
        simp
        omega

/-- A follower looks at the entries, also if there are none. -/
theorem mergedLog_of_follower (notLeader : rf.role ≠ .leader) :
    rf.mergedLog args =
      mergeEntries rf.log (rf.globalToLocal args.prevLogIndex + 1).toNat args.entries := by
  rw [mergedLog]
  split
  · rfl
  · rename_i hentries
    have empty : args.entries = [] := by
      by_contra hne
      exact hentries ⟨hne, notLeader⟩
    rw [empty]
    rfl

theorem acceptEntries_log {reply : AppendEntriesReply}
    (h : rf.acceptEntries args = some (rf', reply)) :
    rf.mergedLog args = some rf'.log ∧ rf'.lastIncludedIndex = rf.lastIncludedIndex := by
  obtain ⟨log, calls, hlog, hresult⟩ := acceptEntries_outcome h
  cases hresult
  exact ⟨hlog, rfl⟩

/-- A node that accepts a message as a follower merges its entries. -/
theorem acceptEntries_merged {observed : Raftserver} {reply : AppendEntriesReply}
    (quiet : Quiet rf observed) (notLeader : observed.role ≠ .leader)
    (hcheck : observed.checkPrev args = some none)
    (h : observed.acceptEntries args = some (rf', reply)) : rf.Merged args rf' := by
  obtain ⟨hfirst, hlast⟩ := checkPrev_range hcheck
  obtain ⟨hlog, hincluded⟩ := acceptEntries_log h
  rw [mergedLog_of_follower notLeader, globalToLocal, quiet.log, quiet.includedIndex] at hlog
  rw [quiet.includedIndex] at hfirst hincluded
  rw [quiet.log, quiet.includedIndex] at hlast
  exact merged_of_mergeEntries hincluded hfirst hlast hlog

theorem appendEntries_merged (notLeader : rf.role ≠ .leader) {reply : AppendEntriesReply}
    (h : rf.appendEntries args = some (rf', reply)) (success : reply.success = true) :
    rf.Merged args rf' := by
  rcases appendEntries_cases h with ⟨-, refused⟩ | ⟨observed, quiet, -, -, hcheck, h⟩
  · cases success.symm.trans refused
  · exact acceptEntries_merged quiet (fun leader => notLeader (quiet.role.mp leader).1) hcheck h

/-! ### Messages that are refused -/

/-- The fields that a refused message must not touch. -/
structure Untouched (rf rf' : Raftserver) : Prop where
  log : rf'.log = rf.log
  commit : rf'.commitIndex = rf.commitIndex
  applied : rf'.lastApplied = rf.lastApplied
  snapshot : rf'.snapShot = rf.snapShot
  includedIndex : rf'.lastIncludedIndex = rf.lastIncludedIndex
  includedTerm : rf'.lastIncludedTerm = rf.lastIncludedTerm

theorem observeLeader_untouched {term : Int} (h : rf.observeLeader term = some rf') :
    Untouched rf rf' := by
  cases observeLeader_observes h <;> exact ⟨rfl, rfl, rfl, rfl, rfl, rfl⟩

theorem appendEntries_refused {reply : AppendEntriesReply}
    (h : rf.appendEntries args = some (rf', reply)) (refused : reply.success = false) :
    Untouched rf rf' := by
  obtain ⟨-, hresult⟩ | ⟨-, observed, hobserved, ⟨other, -, hresult⟩ | ⟨-, haccept⟩⟩ :=
    appendEntries_outcome h
  · cases hresult
    exact ⟨rfl, rfl, rfl, rfl, rfl, rfl⟩
  · cases hresult
    exact observeLeader_untouched hobserved
  · cases refused.symm.trans (acceptEntries_success haccept)

/-! ### Messages that arrive again -/

/-- `later` has all entries of `rf` that are behind its own placeholder. -/
structure Retains (rf later : Raftserver) : Prop where
  included : rf.lastIncludedIndex ≤ later.lastIncludedIndex
  entries : ∀ g, later.lastIncludedIndex < g → ∀ e ∈ rf.entryAt g, later.entryAt g = some e

theorem Retains.refl (rf : Raftserver) : rf.Retains rf := ⟨le_rfl, fun _ _ _ he => he⟩

theorem Retains.trans {mid : Raftserver} (h : rf.Retains mid) (h' : mid.Retains later) :
    rf.Retains later where
  included := le_trans h.included h'.included
  entries g hg e he := h'.entries g hg e (h.entries g (lt_of_le_of_lt h'.included hg) e he)

/-- Extending the log. -/
theorem Retains.of_append {more : List (Option Entry)}
    (included : later.lastIncludedIndex = rf.lastIncludedIndex)
    (log : later.log = rf.log ++ more) : rf.Retains later where
  included := included.ge
  entries g hg e he := by
    rw [entryAt, globalToLocal, deref, Option.mem_def, Option.ite_none_right_eq_some] at he
    obtain ⟨hnonneg, he⟩ := he
    have hlt := (List.getElem?_eq_some_iff.mp (Option.join_eq_some_iff.mp he)).1
    rw [entryAt, globalToLocal, included, deref, if_pos hnonneg, log,
      List.getElem?_append_left hlt]
    exact he

/-- What may happen to the log of a follower between two messages. -/
inductive Meanwhile where
  | appendEntries (args : AppendEntriesArgs)
  | snapshot (index : Int) (data : Bytes)

def meanwhile (rf : Raftserver) : Meanwhile → Option Raftserver
  | .appendEntries args => (rf.appendEntries args).map (·.1)
  | .snapshot index data => rf.snapshot index data

/-- A message that finds no entry of another term. -/
def Harmless (rf : Raftserver) : Meanwhile → Prop
  | .appendEntries args => ∀ k, ¬ rf.Conflict args k
  | .snapshot _ _ => True

theorem retains_step {a : Meanwhile} (harmless : rf.Harmless a)
    (h : rf.meanwhile a = some rf') : rf.Retains rf' := by
  cases a with
  | appendEntries args =>
      obtain ⟨⟨_, reply⟩, hresult, rfl⟩ := Option.map_eq_some_iff.mp h
      have same {rf' : Raftserver} (included : rf'.lastIncludedIndex = rf.lastIncludedIndex)
          (log : rf'.log = rf.log) : rf.Retains rf' :=
        .of_append included (by rw [log, List.append_nil])
      rcases appendEntries_cases hresult with
        ⟨quiet, -⟩ | ⟨observed, quiet, -, -, hcheck, haccept⟩
      · exact same quiet.includedIndex quiet.log
      by_cases leader : observed.role = .leader
      · obtain ⟨hlog, hincluded⟩ := acceptEntries_log haccept
        rw [mergedLog, if_neg fun hentries => hentries.2 leader, Option.some.injEq] at hlog
        exact same (hincluded.trans quiet.includedIndex) (hlog.symm.trans quiet.log)
      · have merged := acceptEntries_merged quiet leader hcheck haccept
        exact .of_append merged.included (merged.kept harmless)
  | snapshot index data =>
      by_cases accepted : rf.commitIndex < index ∨ index ≤ rf.lastIncludedIndex
      · rw [meanwhile, snapshot, if_pos accepted] at h
        cases h
        exact .refl rf
      · have cut := snapshot_cutAt (by omega) (by omega) h
        refine ⟨by rw [cut.included]; omega, fun g hg e he => ?_⟩
        rw [cut.entries g (cut.included ▸ hg)]
        exact he

/-- Any number of harmless messages and snapshots. -/
theorem retains_run (h : Library.Reaches meanwhile Harmless rf later) : rf.Retains later := by
  refine h.invariant (.refl rf) ?_
  intro s a t _ retains harmless taken
  exact retains.trans (retains_step harmless taken)

/-- A message for the same place with the same entries, or the first of them, finds the
terms that the first message has left. -/
theorem Merged.again (merged : rf.Merged args rf') (retains : rf'.Retains later)
    {args' : AppendEntriesArgs} (place : args'.prevLogIndex = args.prevLogIndex)
    (part : args'.entries <+: args.entries) {again : Raftserver} {reply : AppendEntriesReply}
    (h : later.appendEntries args' = some (again, reply)) : again.log = later.log := by
  rcases appendEntries_cases h with ⟨quiet, -⟩ | ⟨observed, quiet, -, -, hcheck, haccept⟩
  · exact quiet.log
  by_cases leader : observed.role = .leader
  · obtain ⟨hlog, -⟩ := acceptEntries_log haccept
    rw [mergedLog, if_neg fun hentries => hentries.2 leader, Option.some.injEq] at hlog
    exact hlog.symm.trans quiet.log
  obtain ⟨hfirst, hlast⟩ := checkPrev_range hcheck
  rw [quiet.includedIndex] at hfirst
  -- what the first message has put behind the previous entry is still there
  have held : ∀ k : Nat, ∀ new ∈ args'.entries[k]?,
      ∃ e ∈ later.entryAt (args'.prevLogIndex + 1 + k), e.term = new.term := by
    intro k new hnew
    have hnew' : args.entries[k]? = some new := Library.Ledger.prefix_getElem? part hnew
    have terms := merged.terms k (List.getElem?_eq_some_iff.mp hnew').1
    rw [hnew', Option.map_some] at terms
    obtain ⟨e, he, hterm⟩ := Option.map_eq_some_iff.mp terms
    refine ⟨e, ?_, hterm⟩
    rw [place]
    exact retains.entries _ (by omega) e he
  have merged' := acceptEntries_merged quiet leader hcheck haccept
  have harmless : ∀ k, ¬ later.Conflict args' k := by
    rintro k ⟨old, hold, new, hnew, hne⟩
    obtain ⟨e, he, hterm⟩ := held k new hnew
    cases hold.symm.trans he
    exact hne hterm
  rw [merged'.kept harmless, List.drop_of_length_le, List.map_nil, List.append_nil]
  -- the last entry of the message is inside the log
  rcases Nat.eq_zero_or_pos args'.entries.length with hzero | hpos
  · omega
  · obtain ⟨e, he, -⟩ := held (args'.entries.length - 1) _ (List.getElem?_eq_getElem (by omega))
    rw [entryAt, deref, Option.mem_def, Option.ite_none_right_eq_some] at he
    have hin := (List.getElem?_eq_some_iff.mp (Option.join_eq_some_iff.mp he.2)).1
    rw [globalToLocal] at hin
    rw [lastIndex, localToGlobal]
    omega

/-! ### Every message gets its answer -/

/-- The loop does not look at the placeholder. -/
theorem mergeEntries_filled (first : Option Entry) (rest : List Entry) (m : Nat)
    (es : List Entry) :
    ∃ merged : List Entry,
      mergeEntries (first :: rest.map some) (m + 1) es = some (first :: merged.map some) := by
  induction es generalizing m with
  | nil => exact ⟨rest, rfl⟩
  | cons e es ih =>
      rw [mergeEntries]
      split
      · rename_i hlt
        rw [List.length_cons, List.length_map] at hlt
        rw [deref_natCast, List.getElem?_cons_succ, List.getElem?_map,
          List.getElem?_eq_getElem (by omega)]
        simp only [Option.map_some, Option.join_some, Option.bind_some]
        split
        · exact ⟨rest.take m ++ e :: es, by simp⟩
        · exact ih (m + 1)
      · split
        · exact ⟨rest ++ e :: es, by simp⟩
        · exact ih (m + 1)

/-- A message that passes the check is accepted. -/
theorem Filled.appendEntries (filled : rf.Filled) (current : rf.currentTerm ≤ args.term)
    (hcheck : rf.checkPrev args = some none) :
    ∃ rf' reply, rf.appendEntries args = some (rf', reply) ∧ reply.success = true := by
  obtain ⟨observed, hobserved⟩ : ∃ observed, rf.observeLeader args.term = some observed := by
    rw [observeLeader]
    split
    · obtain ⟨saved, hsaved⟩ := Option.isSome_iff_exists.mp
        (@Filled.persist { rf with currentTerm := args.term, votedFor := none } filled)
      exact ⟨_, by rw [hsaved]; rfl⟩
    · exact ⟨rf, rfl⟩
  have same := observeLeader_untouched hobserved
  have hcheck' : observed.checkPrev args = some none := by
    rw [checkPrev_passes_iff] at hcheck ⊢
    rwa [Raftserver.entryAt, globalToLocal, same.log, same.includedIndex, same.commit]
  obtain ⟨hfirst, -⟩ := checkPrev_range hcheck'
  obtain ⟨first, rest, hlog⟩ := filled
  rw [← same.log] at hlog
  obtain ⟨merged, hmerged⟩ : ∃ merged : List Entry,
      observed.mergedLog args = some (first :: merged.map some) := by
    rw [mergedLog, hlog]
    split
    · rw [show (observed.globalToLocal args.prevLogIndex + 1).toNat =
        (observed.globalToLocal args.prevLogIndex).toNat + 1 by rw [globalToLocal]; omega]
      exact mergeEntries_filled first rest _ _
    · exact ⟨rest, rfl⟩
  obtain ⟨result, hresult⟩ : ∃ result, observed.acceptEntries args = some result := by
    rw [acceptEntries, hmerged, Option.bind_some]
    refine Option.isSome_iff_exists.mp ?_
    rw [Option.isSome_map]
    exact Filled.persist ⟨first, merged, rfl⟩
  refine ⟨result.1, result.2, ?_, acceptEntries_success hresult⟩
  rw [Raftserver.appendEntries, if_neg (by omega), hobserved, Option.bind_some, hcheck']
  exact hresult

/-- **Merging a message.** A follower whose log has a message's previous entry accepts it
and merges its entries. The same message, or a part of it from its start, leaves the log
alone as long as the entries are there. A message that is refused touches nothing. -/
theorem appendEntries_merge (notLeader : rf.role ≠ .leader) :
    (rf.Filled → rf.currentTerm ≤ args.term → rf.checkPrev args = some none →
      ∃ rf' reply, rf.appendEntries args = some (rf', reply) ∧ reply.success = true) ∧
    ∀ rf' reply, rf.appendEntries args = some (rf', reply) →
      (reply.success = true →
        rf.Merged args rf' ∧
        ∀ later, rf'.Retains later → ∀ args', args'.prevLogIndex = args.prevLogIndex →
          args'.entries <+: args.entries → ∀ again reply',
            later.appendEntries args' = some (again, reply') → again.log = later.log) ∧
      (reply.success = false → rf.Untouched rf') := by
  refine ⟨fun filled current hcheck => filled.appendEntries current hcheck, ?_⟩
  intro rf' reply h
  refine ⟨fun success => ?_, fun refused => appendEntries_refused h refused⟩
  have merged := appendEntries_merged notLeader h success
  refine ⟨merged, fun later retains args' place part again reply' hagain => ?_⟩
  exact merged.again retains place part hagain

/-- The second entry of the message replaces what the follower has behind index two. -/
theorem appendEntries_merge_conflict :
    let rf : Raftserver :=
      { me := 1, peers := [0, 2], currentTerm := 3
        log := [some {}, some { term := 1 }, some { term := 1 }, some { term := 2 }] }
    let args : AppendEntriesArgs :=
      { term := 3, leaderId := 0, prevLogIndex := 1, prevLogTerm := 1, leaderCommit := 0
        entries := [{ term := 1 }, { term := 3 }] }
    ∃ rf' reply, rf.appendEntries args = some (rf', reply) ∧ rf.Merged args rf' ∧
      rf'.log = [some {}, some { term := 1 }, some { term := 1 }, some { term := 3 }] := by
  intro rf args
  refine ⟨_, _, rfl, ?_, rfl⟩
  exact (((@appendEntries_merge rf args (by decide)).2 _ _ rfl).1 rfl).1

end RaftKv.Raft.Raftserver
