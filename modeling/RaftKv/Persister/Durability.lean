import RaftKv.Raft.Merge
import RaftKv.Persister.Crash

/-!
# What an acknowledged entry survives

A peer with its persister, in an environment that may send it anything. A handler
holds `rf.mu` until it returns, and its calls of `Save` run one after another in
between; the writer and the clock of the snapshots go on at any time. `persist` comes
before the reply of `AppendEntries`, but it only queues the entries: if the node
crashes right after the reply, what it recovers depends on how far the writer got, and
in the middle of a round that has cut the log it recovers nothing.
-/

namespace RaftKv

open Library (IndexedLog Reaches enabled_map enabled_some)
open Raft

/-! ### What `AppendEntries` hands to the persister -/

namespace Raft.Raftserver

/-- Everything but `AppendEntries` that a peer does while it holds `rf.mu`. -/
inductive Call where
  | requestVote (args : RequestVoteArgs)
  | installSnapshot (args : InstallSnapshotArgs)
  | installSnapshotDone
  | startElection
  | procVoteAnswer (args : RequestVoteArgs) (reply : RequestVoteReply)
  | collectVote (outTime : Bool)
  | sendAppendEntriesToServer (server : Nat) (args : AppendEntriesArgs)
      (reply : AppendEntriesReply)
  | sendInstallSnapshotToServer (server : Nat) (reply : InstallSnapshotReply)
  | sendCommitIndex (reply : GetCommitIndexReply)
  | start (command : Op)
  | snapshot (index : Int) (data : Bytes)
  | commitCheck (commandIndex : Int)

/-- The peer after a section. -/
def serve (rf : Raftserver) : Call → Option Raftserver
  | .requestVote args => (rf.requestVote args).map (·.1)
  | .installSnapshot args => (rf.installSnapshot args).map (·.1)
  | .installSnapshotDone => rf.persist
  | .startElection => rf.startElectionInt64.map (·.1)
  | .procVoteAnswer args reply => (rf.procVoteAnswer args reply).map (·.1)
  | .collectVote outTime => some (rf.collectVote outTime)
  | .sendAppendEntriesToServer server args reply =>
      (rf.sendAppendEntriesToServer server args reply).map (·.1)
  | .sendInstallSnapshotToServer server reply => rf.sendInstallSnapshotToServer server reply
  | .sendCommitIndex reply => some (rf.sendCommitIndex reply).1
  | .start command => (rf.start command).map (·.1)
  | .snapshot index data => rf.snapshot index data
  | .commitCheck commandIndex => some { rf with lastApplied := max rf.lastApplied commandIndex }

/-- Afterwards the log has the received entries at their positions, if an entry that
was there with the term of a received one was the same entry. -/
theorem mergeEntries_holds {log log' : List (Option Entry)} {m : Nat} {es : List Entry}
    (hm : m ≤ log.length)
    (same : ∀ k (hk : k < es.length), ∀ old ∈ log[m + k]?.join, old.term = es[k].term → old = es[k])
    (h : mergeEntries log m es = some log') {k : Nat} (hk : k < es.length) :
    log'[m + k]? = some (some es[k]) := by
  rcases mergeEntries_at hm h hk with here | ⟨kept, term⟩
  · exact here
  · obtain ⟨old, hold, hterm⟩ := Option.map_eq_some_iff.mp term
    rw [deref_natCast] at hold
    rw [kept, ← same k hk old hold hterm]
    exact Option.join_eq_some_iff.mp hold

/-- The messages that a peer takes over as they are: it does not lead the sender's
term, the entries have commands, and an entry that it already has with the term of a
received one is the same entry. -/
structure Takes (rf : Raftserver) (args : AppendEntriesArgs) : Prop where
  role : rf.role = .leader → rf.currentTerm < args.term
  command : ∀ e ∈ args.entries, e.command ≠ none
  same : ∀ k (hk : k < args.entries.length), ∀ old ∈ rf.entryAt (args.prevLogIndex + 1 + k),
    old.term = args.entries[k].term → old = args.entries[k]

instance (rf : Raftserver) (args : AppendEntriesArgs) : Decidable (rf.Takes args) :=
  decidable_of_iff (_ ∧ _ ∧ _)
    ⟨fun ⟨role, command, same⟩ => ⟨role, command, same⟩,
      fun ⟨role, command, same⟩ => ⟨role, command, same⟩⟩

/-- The saved log has the received entries at their indices. -/
def Holds (call : SaveArgs) (args : AppendEntriesArgs) : Prop :=
  call.lastIncludeIndex ≤ args.prevLogIndex ∧ ∀ k (_ : k < args.entries.length),
    call.logs[(args.prevLogIndex - call.lastIncludeIndex).toNat + k]? = some args.entries[k]

theorem persist_saves {rf rf' : Raftserver} (h : rf.persist = some rf') (hlog : rf.log ≠ []) :
    ∃ call, rf'.persister = rf.persister ++ [call] := by
  obtain ⟨placeholder, rest, hcons⟩ := List.exists_cons_of_ne_nil hlog
  rw [persist, hcons] at h
  obtain ⟨entries, -, rfl⟩ := Option.map_eq_some_iff.mp h
  exact ⟨_, rfl⟩

theorem persist_grows {rf rf' : Raftserver} (h : rf.persist = some rf') :
    rf.persister.length ≤ rf'.persister.length := by
  by_cases hlog : rf.log = []
  · rw [persist, hlog] at h
    cases h
    exact le_rfl
  · obtain ⟨call, hcall⟩ := persist_saves h hlog
    simp [hcall]

theorem observeLeader_grows {rf rf' : Raftserver} {term : Int}
    (h : rf.observeLeader term = some rf') : rf.persister.length ≤ rf'.persister.length := by
  rw [observeLeader] at h
  split at h
  · obtain ⟨saved, hsaved, rfl⟩ := Option.map_eq_some_iff.mp h
    have grows := persist_grows hsaved
    exact grows
  · cases h
    exact le_rfl

theorem persistedEntry_eq {e : Entry} (h : e.command ≠ none) : persistedEntry e = e := by
  obtain ⟨op, hop⟩ := Option.ne_none_iff_exists'.mp h
  cases e
  cases hop
  rfl

/-- The log after step 4 of `AppendEntries` has the received entries, and still a
placeholder. -/
theorem mergedLog_holds {rf : Raftserver} {args : AppendEntriesArgs} {log : List (Option Entry)}
    (check : rf.checkPrev args = some none) (role : rf.role ≠ .leader)
    (same : ∀ k (hk : k < args.entries.length), ∀ old ∈ rf.entryAt (args.prevLogIndex + 1 + k),
      old.term = args.entries[k].term → old = args.entries[k])
    (h : rf.mergedLog args = some log) :
    log ≠ [] ∧ ∀ k (_ : k < args.entries.length),
      log[(args.prevLogIndex - rf.lastIncludedIndex).toNat + 1 + k]? =
        some (some args.entries[k]) := by
  obtain ⟨hfirst, hlast⟩ := checkPrev_range check
  have hlog : rf.log ≠ [] := by
    intro hnil
    rw [hnil] at hlast
    dsimp at hlast
    omega
  by_cases hentries : args.entries = []
  · rw [mergedLog, if_neg (fun merging => merging.1 hentries)] at h
    cases h
    refine ⟨hlog, ?_⟩
    intro k hk
    rw [hentries] at hk
    cases hk
  rw [mergedLog, if_pos ⟨hentries, role⟩, globalToLocal] at h
  have position : (args.prevLogIndex - rf.lastIncludedIndex + 1).toNat =
      (args.prevLogIndex - rf.lastIncludedIndex).toNat + 1 := by omega
  rw [position] at h
  constructor
  · intro hnil
    have first := mergeEntries_below (by omega) h (Nat.zero_lt_succ _)
    rw [hnil, List.getElem?_eq_getElem (List.length_pos_iff.mpr hlog)] at first
    cases first
  · intro k hk
    apply mergeEntries_holds (by omega) _ h hk
    intro k hk old hold
    apply same k hk old
    have index : args.prevLogIndex + 1 + k - rf.lastIncludedIndex =
        (((args.prevLogIndex - rf.lastIncludedIndex).toNat + 1 + k : Nat) : Int) := by omega
    rw [entryAt, globalToLocal, index, deref_natCast]
    exact hold

/-- A successful `AppendEntries` ends with a call of `Save` that has the entries. -/
theorem appendEntries_saves {rf : Raftserver} {args : AppendEntriesArgs}
    {result : Raftserver × AppendEntriesReply} (h : rf.appendEntries args = some result)
    (success : result.2.success = true) (takes : rf.Takes args) :
    ∃ calls call, result.1.persister = calls ++ [call] ∧ rf.persister.length ≤ calls.length ∧
      Holds call args := by
  obtain ⟨-, rfl⟩ | ⟨hterm, observed, hobserved, ⟨reply, check, rfl⟩ | ⟨check, h⟩⟩ :=
    appendEntries_outcome h
  · cases success
  · cases (checkPrev_refuses check).symm.trans success
  obtain ⟨quiet, hcurrent⟩ := observeLeader_quiet hterm hobserved
  obtain ⟨log, hlog, h⟩ := Option.bind_eq_some_iff.mp h
  obtain ⟨saved, hsaved, rfl⟩ := Option.map_eq_some_iff.mp h
  have role : observed.role ≠ .leader := by
    intro leader
    obtain ⟨hrole, hsame⟩ := quiet.role.mp leader
    have := takes.role hrole
    omega
  have same := takes.same
  simp only [entryAt, globalToLocal, ← quiet.log, ← quiet.includedIndex] at same
  obtain ⟨hne, holds⟩ := mergedLog_holds check role same hlog
  obtain ⟨call, hcall⟩ := persist_saves hsaved hne
  refine ⟨observed.persister, call, hcall, observeLeader_grows hobserved, ?_⟩
  obtain ⟨placeholder, entries, hentries, rfl⟩ := persist_call hsaved hcall
  refine ⟨(checkPrev_range check).1, ?_⟩
  intro k hk
  have here := holds k hk
  dsimp only at hentries
  have index : (args.prevLogIndex - observed.lastIncludedIndex).toNat + 1 + k =
      (args.prevLogIndex - observed.lastIncludedIndex).toNat + k + 1 := by omega
  rw [hentries, index, List.getElem?_cons_succ, List.getElem?_map] at here
  obtain ⟨e, he, heq⟩ := Option.map_eq_some_iff.mp here
  cases heq
  rw [List.getElem?_map, he, Option.map_some,
    persistedEntry_eq (takes.command _ (List.getElem_mem hk))]

end Raft.Raftserver

/-! ### What is on disk before the queue is empty -/

theorem accept_take {β : Type} {ys ys' : List β} {i : Int} {b : β} {m : Nat} (hm : m < i)
    (h : accept ys i b = some ys') : ys'.take m = ys.take m := by
  rw [accept] at h
  split at h
  · obtain ⟨-, h⟩ := Option.ite_none_right_eq_some.mp h
    cases h
    rw [List.take_append_of_le_length (by rw [List.length_take]; omega), List.take_take,
      Nat.min_eq_left (by omega)]
  · split at h
    · cases h
      rw [List.take_append_of_le_length (by omega)]
    · cases h
      rfl

/-- Entries in the queue do not reach below their own index. -/
theorem acceptAll_take {β : Type} {ys ys' : List β} {queue : List (Int × β)} {m : Nat}
    (hm : ∀ p ∈ queue, (m : Int) < p.1) (h : acceptAll ys queue = some ys') :
    ys'.take m = ys.take m := by
  induction queue generalizing ys with
  | nil =>
      cases h
      rfl
  | cons p rest ih =>
      obtain ⟨i, b⟩ := p
      rw [acceptAll] at h
      obtain ⟨mid, accepted, h⟩ := Option.bind_eq_some_iff.mp h
      rw [ih (fun q hq => hm q (List.mem_cons_of_mem _ hq)) h,
        accept_take (hm _ List.mem_cons_self) accepted]

namespace Saving

variable {β : Type} {codec : Codec β} {s t u : Saving β} {args : SaveArgs}

/-- The stat file is up to date and has what was saved last. -/
structure Stamped (s : Saving β) : Prop where
  stat : s.ps.disk.stat = some (some s.ps.state)
  lastCommitIndex : s.ps.state.lastCommitIndex = s.last.commitIndex
  votedFor : s.ps.state.votedFor = s.last.votedFor
  currentTerm : s.ps.state.currentTerm = s.last.currentTerm

theorem stamped_save (h : s.step codec (.save args) = some u) :
    u.Stamped ∧ u.last = args ∧ u.ps.disk.snap = s.ps.disk.snap := by
  obtain ⟨ps', hsave, rfl⟩ := Option.map_eq_some_iff.mp h
  obtain ⟨entries, -, hsave⟩ := Option.bind_eq_some_iff.mp hsave
  obtain ⟨-, rfl⟩ := enabled_some.mp hsave
  exact ⟨⟨rfl, rfl, rfl, rfl⟩, rfl, rfl⟩

theorem Stamped.round (h : s.Stamped) (advances : Persister.Advances s.ps t.ps)
    (last : t.last = s.last) : t.Stamped := by
  refine ⟨advances.stat h.stat, ?_, ?_, ?_⟩
  · rw [advances.state, last]
    exact h.lastCommitIndex
  · rw [advances.state, last]
    exact h.votedFor
  · rw [advances.state, last]
    exact h.currentTerm

/-- The disk always holds some log completely, and up to the first index that is still
in the queue it is the log saved last. -/
theorem Inv.onDisk (h : s.Inv codec) (stamped : s.Stamped) (snap : s.ps.disk.snap = []) :
    ∃ zs, OnDisk codec { s.last with logs := zs } s.ps.disk ∧
      ∀ m : Nat, (∀ p ∈ s.ps.entryCh, (m : Int) < p.1) → zs.take m = s.last.logs.take m := by
  obtain ⟨index, logs, -, zs, coded, tracks, done⟩ := h
  refine ⟨zs, ⟨?_, ?_, coded, ?_, ?_⟩, ?_⟩
  · exact index.ge
  · rw [stamped.stat]
    congr 2
    apply IndexState.ext
    · rw [tracks.firstIndex, index]
      rfl
    · change s.ps.state.lastIndex = s.last.lastIncludeIndex + zs.length
      rw [tracks.lastIndex, index, List.length_map, Int.zero_add]
    · exact stamped.lastCommitIndex
    · exact stamped.votedFor
    · exact stamped.currentTerm
  · intro k hk
    dsimp only at hk ⊢
    rw [index]
    have read := tracks.read k
    rw [List.getElem?_map, List.getElem?_eq_getElem hk] at read
    exact read
  · rw [snap, index]
    rfl
  · intro m hm
    have kept := acceptAll_take hm done
    rw [← List.map_take, ← List.map_take] at kept
    exact Codec.marshal_inj (fun e he => coded e (List.mem_of_mem_take he))
      (fun e he => logs e (List.mem_of_mem_take he)) kept.symm

/-- The same holds at every point of the section that comes next, if the writer does not have
to cut the log. -/
theorem Inv.diskAfter (h : s.Inv codec) (stamped : s.Stamped) (snap : s.ps.disk.snap = [])
    (uncut : ∀ p ∈ s.ps.entryCh.head?, s.ps.state.lastIndex ≤ p.1) {w : Persister.Window}
    {disk : Disk β} (crash : Persister.diskAfter codec s.ps w = some disk) :
    ∃ zs, OnDisk codec { s.last with logs := zs } disk ∧
      ∀ m : Nat, (∀ p ∈ s.ps.entryCh, (m : Int) < p.1) → zs.take m = s.last.logs.take m := by
  obtain ⟨zs, stores, kept⟩ := h.onDisk stamped snap
  obtain ⟨ys, -, tracks, -⟩ := h.disk
  have noSnap : ¬ s.ps.snapshot.lastIndex ≠ s.ps.lastIdx := by
    rw [tracks.snapshot, tracks.lastIdx]
    exact fun other => other rfl
  cases w with
  | idle =>
      cases crash
      exact ⟨zs, stores, kept⟩
  | truncatedBack =>
      rw [Persister.diskAfter] at crash
      split at crash
      · cases crash
      · rename_i i b rest queue
        obtain ⟨⟨-, inside⟩, -⟩ := Option.ite_none_right_eq_some.mp crash
        have := uncut (i, b) (by rw [queue]; rfl)
        dsimp only at this
        omega
  | written =>
      rw [Persister.diskAfter] at crash
      split at crash
      · cases crash
      · rename_i i b rest queue
        have behind := uncut (i, b) (by rw [queue]; rfl)
        rw [tracks.lastIndex] at behind
        rw [(tracks.pop rest).makeRoom_eq, if_neg (Int.not_lt.mpr behind), Option.bind_some] at crash
        obtain ⟨ps', taken, rfl⟩ := Option.map_eq_some_iff.mp crash
        obtain ⟨log, wrote, rfl⟩ := Option.map_eq_some_iff.mp taken
        refine ⟨zs, { stores with log := ?_ }, kept⟩
        -- the range of the stat file does not reach the new entry
        intro k hk
        rw [← stores.log k hk]
        apply IndexedLog.read_of_write_lt wrote
        have inside := IndexedLog.read_isSome_iff.mp (Option.isSome_of_mem (stores.log k hk))
        rw [IndexedLog.index_of_write wrote]
        exact Nat.lt_succ_of_le inside.2
  | lastSaved =>
      obtain ⟨ps', taken, rfl⟩ := Option.map_eq_some_iff.mp crash
      obtain ⟨inv, last, queue, advances⟩ := h.round (t := ⟨ps', s.last⟩)
        (by rw [Saving.step, taken, Option.map_some])
      obtain ⟨zs', stores', kept'⟩ := inv.onDisk (stamped.round advances rfl)
        (advances.snap.trans snap)
      refine ⟨zs', stores', ?_⟩
      intro m hm
      exact kept' m fun p hp => hm p (List.mem_of_mem_tail (queue ▸ hp))
  | snapSaved | truncatedFront | firstSaved =>
      rw [Persister.diskAfter, if_neg noSnap] at crash
      cases crash

end Saving

/-! ### Runs of a peer with its persister -/

/-- A peer. `todo` are the calls of `Save` that the running section still has to make,
`pending` is the reply that `AppendEntries` will give when they are done, and `replied`
the reply that has just been given. -/
structure Peer (β : Type) where
  rf : Raftserver
  saving : Saving β
  todo : List SaveArgs := []
  pending : Option (AppendEntriesArgs × AppendEntriesReply) := none
  replied : Option (AppendEntriesArgs × AppendEntriesReply) := none

inductive Event where
  | appendEntries (args : AppendEntriesArgs)
  | serve (call : Raftserver.Call)
  | save
  | saveLogToDisk
  | saveSnapClock
  | reply

namespace Peer

variable {β : Type} (codec : Codec β)

/-- A section starts when no other one holds `rf.mu`; its calls of `Save` follow. -/
def step (s : Peer β) : Event → Option (Peer β)
  | .appendEntries args =>
      if s.todo = [] ∧ s.pending = none then
        (s.rf.appendEntries args).map fun result =>
          { s with
            rf := result.1, todo := result.1.persister.drop s.rf.persister.length
            pending := some (args, result.2), replied := none }
      else none
  | .serve call =>
      if s.todo = [] ∧ s.pending = none then
        (s.rf.serve call).map fun rf =>
          { s with rf := rf, todo := rf.persister.drop s.rf.persister.length, replied := none }
      else none
  | .save =>
      match s.todo with
      | [] => none
      | call :: rest => (s.saving.step codec (.save call)).map fun saving =>
          { s with saving := saving, todo := rest, replied := none }
  | .saveLogToDisk => (s.saving.step codec .saveLogToDisk).map fun saving =>
      { s with saving := saving, replied := none }
  | .saveSnapClock => (s.saving.step codec .saveSnapClock).map fun saving =>
      { s with saving := saving, replied := none }
  | .reply =>
      if s.todo = [] then
        s.pending.map fun r => { s with pending := none, replied := some r }
      else none

/-- A peer on an empty disk after `startWork`. -/
def start (me : Nat) (peers : List Nat) : Peer β :=
  { rf := { me := me, peers := peers, log := [some {}] }, saving := Saving.start codec }

/-- A restart recovers every entry of the message that is not covered by the recovered
snapshot. -/
def Recovers (s : Peer β) (disk : Disk β) (args : AppendEntriesArgs) : Prop :=
  ∃ rf', Persister.restart codec s.rf.me s.rf.peers disk = some rf' ∧
    ∀ k (_ : k < args.entries.length),
      args.prevLogIndex + 1 + k ≤ rf'.lastIncludedIndex ∨
        rf'.entryAt (args.prevLogIndex + 1 + k) = some args.entries[k]

/-- So it does right after a positive reply, at whatever point of the section that the writer or
the clock is in. -/
def Durable (s : Peer β) : Prop :=
  ∀ args reply, s.replied = some (args, reply) → reply.success = true →
    ∀ w disk, Persister.diskAfter codec s.saving.ps w = some disk → s.Recovers codec disk args

/-- A message is taken over as it is, every call of `Save` fits, and no reply is given
while an entry up to the last one of the message is still in the queue, or one for which
the writer has to cut the log is the next. -/
def Careful (s : Peer β) : Event → Prop
  | .appendEntries args => s.rf.Takes args
  | .save => ∀ call ∈ s.todo.head?, s.saving.Fits codec call
  | .reply =>
      (∀ r ∈ s.pending, r.1.entries = [] ∨
        ∀ p ∈ s.saving.ps.entryCh, r.1.prevLogIndex + r.1.entries.length < p.1) ∧
      ∀ p ∈ s.saving.ps.entryCh.head?, s.saving.ps.state.lastIndex ≤ p.1
  | .serve _ | .saveLogToDisk | .saveSnapClock => True

/-- The last call of the section that acknowledges a message has its entries. -/
structure Inv (s : Peer β) : Prop where
  saving : s.saving.Inv codec
  snap : s.saving.ps.disk.snap = []
  pending : ∀ args reply, s.pending = some (args, reply) → reply.success = true →
    ∃ call, Raftserver.Holds call args ∧ (s.todo.getLast? = some call ∨
      (s.todo = [] ∧ s.saving.last = call ∧ s.saving.Stamped))
  replied : ∀ args reply, s.replied = some (args, reply) → reply.success = true →
    ∀ w disk, Persister.diskAfter codec s.saving.ps w = some disk → s.Recovers codec disk args ∧
      (args.entries ≠ [] → ¬ s.Recovers codec { disk with stat := some none } args)

variable {codec} {s t : Peer β}

theorem inv_start (me : Nat) (peers : List Nat) : (start codec me peers).Inv codec where
  saving := Saving.inv_start
  snap := rfl
  pending := by
    intro args reply h
    cases h
  replied := by
    intro args reply h
    cases h

/-- An empty stat file leaves nothing but the placeholder. -/
theorem not_recovers_of_empty {disk : Disk β} {args : AppendEntriesArgs}
    (snap : disk.snap.load = none) (hprev : 0 ≤ args.prevLogIndex) (entries : args.entries ≠ []) :
    ¬ s.Recovers codec { disk with stat := some none } args := by
  rintro ⟨rf', restarted, all⟩
  simp only [Persister.restart, Persister.initFromDisk, Disk.loadState, snap] at restarted
  cases restarted
  rcases all 0 (List.length_pos_iff.mpr entries) with covered | read
  · exact absurd (show args.prevLogIndex + 1 + 0 ≤ 0 from covered) (by omega)
  · obtain ⟨k, hk⟩ := Int.eq_ofNat_of_zero_le hprev
    rw [hk] at read
    cases read

/-- A reply is given when the entries of the message are on disk. -/
theorem Inv.durable (h : s.Inv codec) {args : AppendEntriesArgs} {reply : AppendEntriesReply}
    (todo : s.todo = []) (pending : s.pending = some (args, reply))
    (written : args.entries = [] ∨
      ∀ p ∈ s.saving.ps.entryCh, args.prevLogIndex + args.entries.length < p.1)
    (uncut : ∀ p ∈ s.saving.ps.entryCh.head?, s.saving.ps.state.lastIndex ≤ p.1)
    (success : reply.success = true) {w : Persister.Window} {disk : Disk β}
    (crash : Persister.diskAfter codec s.saving.ps w = some disk) : s.Recovers codec disk args ∧
      (args.entries ≠ [] → ¬ s.Recovers codec { disk with stat := some none } args) := by
  obtain ⟨call, holds, last⟩ := h.pending args reply pending success
  rw [todo] at last
  obtain ⟨rfl, stamped⟩ : s.saving.last = call ∧ s.saving.Stamped := by
    rcases last with last | ⟨-, last, stamped⟩
    · cases last
    · exact ⟨last, stamped⟩
  have index := h.saving.index
  obtain ⟨zs, stores, kept⟩ := h.saving.diskAfter stamped h.snap uncut crash
  obtain ⟨hprev, here⟩ := holds
  rw [index] at hprev here
  have snap := stores.snap
  rw [if_pos index] at snap
  refine ⟨⟨_, stores.restart_eq _ _, ?_⟩, not_recovers_of_empty snap hprev⟩
  intro k hk
  right
  generalize hrf : Raftserver.readSnapshot _ _ _ _ = rf'
  have hlog : rf'.log = some { term := s.saving.last.lastIncludeIndex } :: zs.map some := by
    rw [← hrf, Raftserver.readSnapshot_log]
    simp [Raftserver.readPersist]
  have hindex : rf'.lastIncludedIndex = 0 := by
    rw [← hrf, Raftserver.readSnapshot_lastIncludedIndex]
    simp [index, Raftserver.readPersist, Raftserver.make]
  have here := here k hk
  have waiting := written.resolve_left (List.ne_nil_of_length_pos (by omega))
  have same := kept (args.prevLogIndex + args.entries.length).toNat
    (fun p hp => by have := waiting p hp; omega)
  have value := congrArg (·[(args.prevLogIndex - 0).toNat + k]?) same
  rw [List.getElem?_take_of_lt (by omega), List.getElem?_take_of_lt (by omega), here] at value
  have read := Raftserver.entryAt_succ hlog ((args.prevLogIndex - 0).toNat + k)
  rw [hindex, value] at read
  rw [← read]
  congr 1
  omega

theorem Inv.appendEntries (h : s.Inv codec) {args : AppendEntriesArgs} (takes : s.rf.Takes args)
    (hstep : s.step codec (.appendEntries args) = some t) : t.Inv codec := by
  obtain ⟨-, result, hresult, rfl⟩ := enabled_map.mp hstep
  refine { h with pending := ?_, replied := fun _ _ hreplied => by cases hreplied }
  rintro args reply ⟨⟩ success
  obtain ⟨calls, call, hcalls, grows, holds⟩ :=
    Raftserver.appendEntries_saves hresult success takes
  refine ⟨call, holds, .inl ?_⟩
  dsimp only
  rw [hcalls, List.drop_append_of_le_length grows, List.getLast?_concat]

theorem Inv.save (h : s.Inv codec) (fits : ∀ call ∈ s.todo.head?, s.saving.Fits codec call)
    (hstep : s.step codec .save = some t) : t.Inv codec := by
  rw [step] at hstep
  split at hstep
  · cases hstep
  · rename_i call rest htodo
    obtain ⟨saving, hsaving, rfl⟩ := Option.map_eq_some_iff.mp hstep
    obtain ⟨stamped, last, snap⟩ := Saving.stamped_save hsaving
    have fits := fits call (by rw [htodo]; rfl)
    refine ⟨h.saving.save fits hsaving, snap.trans h.snap, ?_,
      fun _ _ hreplied => by cases hreplied⟩
    intro args reply pending success
    obtain ⟨final, holds, hfinal⟩ := h.pending args reply pending success
    rw [htodo] at hfinal
    obtain hfinal | ⟨habsurd, -⟩ := hfinal
    · refine ⟨final, holds, ?_⟩
      cases rest with
      | nil =>
          cases hfinal
          exact .inr ⟨rfl, last, stamped⟩
      | cons next rest => exact .inl (by simpa using hfinal)
    · cases habsurd

theorem Inv.saveLogToDisk (h : s.Inv codec) (hstep : s.step codec .saveLogToDisk = some t) :
    t.Inv codec := by
  obtain ⟨saving, hsaving, rfl⟩ := Option.map_eq_some_iff.mp hstep
  obtain ⟨inv, last, -, advances⟩ := h.saving.round hsaving
  refine ⟨inv, advances.snap.trans h.snap, ?_,
    fun _ _ hreplied => by cases hreplied⟩
  intro args reply pending success
  obtain ⟨call, holds, hcall⟩ := h.pending args reply pending success
  refine ⟨call, holds, hcall.imp_right ?_⟩
  rintro ⟨todo, hlast, stamped⟩
  exact ⟨todo, last.trans hlast, stamped.round advances last⟩

theorem Inv.step {e : Event} (h : s.Inv codec) (careful : s.Careful codec e)
    (hstep : s.step codec e = some t) : t.Inv codec := by
  cases e with
  | appendEntries args => exact h.appendEntries careful hstep
  | serve call =>
      obtain ⟨idle, rf, -, rfl⟩ := enabled_map.mp hstep
      refine { h with pending := ?_, replied := fun _ _ hreplied => by cases hreplied }
      intro args reply pending
      rw [idle.2] at pending
      cases pending
  | save => exact h.save careful hstep
  | saveLogToDisk => exact h.saveLogToDisk hstep
  | saveSnapClock =>
      obtain ⟨saving, hsaving, rfl⟩ := Option.map_eq_some_iff.mp hstep
      cases h.saving.saveSnapClock hsaving
      exact { h with replied := fun _ _ hreplied => by cases hreplied }
  | reply =>
      obtain ⟨todo, r, pending, rfl⟩ := enabled_map.mp hstep
      refine { h with pending := ?_, replied := ?_ }
      · rintro args reply ⟨⟩
      · rintro args reply ⟨⟩ success w disk crash
        exact h.durable todo pending (careful.1 _ pending) careful.2 success crash

instance [DecidableEq β] (s : Peer β) : ∀ e, Decidable (s.Careful codec e)
  | .appendEntries args => inferInstanceAs (Decidable (s.rf.Takes args))
  | .save => inferInstanceAs (Decidable (∀ call ∈ s.todo.head?, s.saving.Fits codec call))
  | .reply => inferInstanceAs (Decidable ((∀ r ∈ s.pending, r.1.entries = [] ∨
      ∀ p ∈ s.saving.ps.entryCh, r.1.prevLogIndex + r.1.entries.length < p.1) ∧ _))
  | .serve _ | .saveLogToDisk | .saveSnapClock => isTrue trivial

/-- The first message of a leader of term one. -/
def firstMessage : AppendEntriesArgs :=
  { term := 1, leaderId := 1, prevLogIndex := 0, prevLogTerm := 0, leaderCommit := 0
    entries := [Saving.entryOf 1 1] }

end Peer

end RaftKv
