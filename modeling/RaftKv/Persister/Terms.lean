import RaftKv.Persister.Durability

/-!
# The terms in memory, in the calls of `Save` and in the stat file

No section of a peer makes its term go back, and the calls of `Save` on the way carry
terms in between. The stat file has the term of the last call at any point of a crash.

A reply carries the term that the peer has when its handler lets go of the lock.
`RequestVote` and `AppendEntries` save a newer term before they answer, but
`InstallSnapshot` and `SendCommitIndex` adopt one without saving it, and `persist` itself
does nothing as long as there is no log.
-/

namespace RaftKv

open Library (enabled_map enabled_some)
open Raft
open Raft.Raftserver (Call)

/-! ### The terms of the calls of `Save` in a section -/

/-- The terms of some calls of `Save` rise from `low` to `high`. -/
def Ascends : Int → List SaveArgs → Int → Prop
  | low, [], high => low ≤ high
  | low, call :: calls, high => low ≤ call.currentTerm ∧ Ascends call.currentTerm calls high

namespace Ascends

variable {low mid high : Int} {calls more : List SaveArgs}

theorem le (h : Ascends low calls high) : low ≤ high := by
  induction calls generalizing low with
  | nil => exact h
  | cons call calls ih => exact Int.le_trans h.1 (ih h.2)

theorem append (h : Ascends low calls mid) (h' : Ascends mid more high) :
    Ascends low (calls ++ more) high := by
  induction calls generalizing low with
  | nil =>
      cases more with
      | nil => exact Int.le_trans h h'
      | cons call more => exact ⟨Int.le_trans h h'.1, h'.2⟩
  | cons call calls ih => exact ⟨h.1, ih h.2⟩

end Ascends

namespace Raft.Raftserver

/-- Neither the term nor the terms that are saved on the way go back. -/
def Climbs (rf rf' : Raftserver) : Prop :=
  ∃ calls, rf'.persister = rf.persister ++ calls ∧ Ascends rf.currentTerm calls rf'.currentTerm

namespace Climbs

variable {rf mid rf' : Raftserver}

/-- Nothing is saved. -/
theorem of_le (same : rf'.persister = rf.persister) (h : rf.currentTerm ≤ rf'.currentTerm) :
    Climbs rf rf' :=
  ⟨[], by rw [same, List.append_nil], h⟩

theorem refl (rf : Raftserver) : Climbs rf rf := .of_le rfl (Int.le_refl _)

theorem trans (h : Climbs rf mid) (h' : Climbs mid rf') : Climbs rf rf' := by
  obtain ⟨calls, grown, ascends⟩ := h
  obtain ⟨more, grown', ascends'⟩ := h'
  exact ⟨calls ++ more, by rw [grown', grown, List.append_assoc], ascends.append ascends'⟩

theorem persist (h : rf.persist = some rf') : Climbs rf rf' := by
  rw [Raftserver.persist] at h
  split at h
  · cases h
    exact .refl rf
  · obtain ⟨entries, -, rfl⟩ := Option.map_eq_some_iff.mp h
    exact ⟨_, rfl, Int.le_refl _, Int.le_refl _⟩

/-- A term is adopted, with other fields, and saved at once. -/
theorem adopt (saved : mid.persist = some rf') (same : mid.persister = rf.persister)
    (h : rf.currentTerm ≤ mid.currentTerm) : Climbs rf rf' :=
  (Climbs.of_le same h).trans (.persist saved)

/-- After the call of `Save` the term stays. -/
theorem settle {rest : Raftserver} (h : Climbs rf rf') (same : rest.persister = rf'.persister)
    (term : rest.currentTerm = rf'.currentTerm) : Climbs rf rest :=
  h.trans (.of_le same term.ge)

theorem drop (h : Climbs rf rf') :
    Ascends rf.currentTerm (rf'.persister.drop rf.persister.length) rf'.currentTerm := by
  obtain ⟨calls, grown, ascends⟩ := h
  rw [grown, List.drop_left]
  exact ascends

end Climbs

theorem persist_currentTerm {rf rf' : Raftserver} (h : rf.persist = some rf') :
    rf'.currentTerm = rf.currentTerm := by
  obtain ⟨calls, rfl⟩ := persist_eq h
  rfl

/-! ### The handlers and their replies -/

/-- A call of one of the procedures whose replies carry the term. -/
inductive Request where
  | requestVote (args : RequestVoteArgs)
  | appendEntries (args : AppendEntriesArgs)
  | installSnapshot (args : InstallSnapshotArgs)

/-- A handler until it returns or releases the lock: the term of its reply, and whether
the reply has to wait for `applyCh`. -/
def handle (rf : Raftserver) : Request → Option (Raftserver × Int × Bool)
  | .requestVote args => (rf.requestVote args).map fun result => (result.1, result.2.term, false)
  | .appendEntries args =>
      (rf.appendEntries args).map fun result => (result.1, result.2.term, false)
  | .installSnapshot args =>
      (rf.installSnapshot args).map fun result => (result.1, result.2.1.term, result.2.2.isSome)

/-- A handler that panics after a call of `Save`: the newer term has been saved. The
other sections do not panic between a call of `Save` and their end. -/
def panicking (rf : Raftserver) : Request → Option Raftserver
  | .requestVote args =>
      if rf.currentTerm < args.term ∧ rf.requestVote args = none then
        persist { rf with votedFor := none, currentTerm := args.term, role := .follower }
      else none
  | .appendEntries args =>
      if rf.currentTerm < args.term ∧ rf.appendEntries args = none then
        persist { rf with currentTerm := args.term, votedFor := none }
      else none
  | .installSnapshot _ => none

theorem requestVote_climbs {rf : Raftserver} {args : RequestVoteArgs}
    {result : Raftserver × RequestVoteReply} (h : rf.requestVote args = some result) :
    Climbs rf result.1 ∧ result.2.term = result.1.currentTerm := by
  rw [requestVote] at h
  split at h
  · cases h
    exact ⟨.refl rf, rfl⟩
  rename_i current
  obtain ⟨observed, hobserved, h⟩ := Option.bind_eq_some_iff.mp h
  have climbs : Climbs rf observed ∧ observed.currentTerm = args.term := by
    split at hobserved
    · rename_i newer
      have term : observed.currentTerm = args.term := persist_currentTerm hobserved
      exact ⟨.adopt hobserved rfl (Int.le_of_lt newer), term⟩
    · cases hobserved
      exact ⟨.refl rf, by omega⟩
  split at h
  · obtain ⟨last, -, h⟩ := Option.bind_eq_some_iff.mp h
    split at h
    · obtain ⟨saved, hsaved, rfl⟩ := Option.map_eq_some_iff.mp h
      have term : saved.currentTerm = args.term := persist_currentTerm hsaved
      have voted : Climbs observed saved := .adopt hsaved rfl (Int.le_of_eq climbs.2)
      exact ⟨(climbs.1.trans voted).settle rfl rfl, term.symm⟩
    · cases h
      exact ⟨climbs.1, rfl⟩
  · cases h
    exact ⟨climbs.1, rfl⟩

theorem observeLeader_climbs {rf rf' : Raftserver} {term : Int}
    (h : rf.observeLeader term = some rf') : Climbs rf rf' := by
  rw [observeLeader] at h
  split at h
  · rename_i newer
    obtain ⟨saved, hsaved, rfl⟩ := Option.map_eq_some_iff.mp h
    exact .settle (.adopt hsaved rfl (Int.le_of_lt newer)) rfl rfl
  · cases h
    exact .refl rf

theorem appendEntries_climbs {rf : Raftserver} {args : AppendEntriesArgs}
    {result : Raftserver × AppendEntriesReply} (h : rf.appendEntries args = some result) :
    Climbs rf result.1 ∧ result.2.term = result.1.currentTerm := by
  obtain ⟨-, rfl⟩ | ⟨-, observed, hobserved, ⟨reply, hrefusal, rfl⟩ | ⟨-, haccept⟩⟩ :=
    appendEntries_outcome h
  · exact ⟨.refl rf, rfl⟩
  · exact ⟨observeLeader_climbs hobserved, (checkPrev_refusal hrefusal).2.1⟩
  · -- the calls of `persist` matter here, so the last part is opened again
    obtain ⟨log, -, h⟩ := Option.bind_eq_some_iff.mp haccept
    obtain ⟨saved, hsaved, rfl⟩ := Option.map_eq_some_iff.mp h
    have merged : Climbs observed saved := .adopt hsaved rfl (Int.le_refl _)
    exact ⟨((observeLeader_climbs hobserved).trans merged).settle rfl rfl, rfl⟩

theorem installSnapshot_climbs {rf : Raftserver} {args : InstallSnapshotArgs}
    {result : Raftserver × InstallSnapshotReply × Option ApplyMsg}
    (h : rf.installSnapshot args = some result) :
    Climbs rf result.1 ∧ result.2.1.term = result.1.currentTerm := by
  obtain ⟨-, rfl⟩ | ⟨-, taken⟩ := installSnapshot_outcome h
  · exact ⟨.refl rf, rfl⟩
  obtain ⟨current, voted, later, observed⟩ := rf.observeSnapshot_outcome args.term
  rw [observed] at taken
  obtain ⟨-, rfl⟩ | ⟨-, -, log, -, rfl⟩ := takeSnapshot_outcome taken
  · exact ⟨.of_le rfl later, rfl⟩
  · exact ⟨.of_le rfl later, rfl⟩

/-- A reply carries the term that the node has when the handler lets go of the lock. -/
theorem handle_climbs {rf rf' : Raftserver} {request : Request} {term : Int} {later : Bool}
    (h : rf.handle request = some (rf', term, later)) :
    Climbs rf rf' ∧ term = rf'.currentTerm := by
  cases request with
  | requestVote args =>
      obtain ⟨result, hresult, h⟩ := Option.map_eq_some_iff.mp h
      cases h
      exact requestVote_climbs hresult
  | appendEntries args =>
      obtain ⟨result, hresult, h⟩ := Option.map_eq_some_iff.mp h
      cases h
      exact appendEntries_climbs hresult
  | installSnapshot args =>
      obtain ⟨result, hresult, h⟩ := Option.map_eq_some_iff.mp h
      cases h
      exact installSnapshot_climbs hresult

theorem panicking_climbs {rf rf' : Raftserver} {request : Request}
    (h : rf.panicking request = some rf') : Climbs rf rf' := by
  cases request with
  | requestVote args =>
      obtain ⟨⟨newer, -⟩, h⟩ := Option.ite_none_right_eq_some.mp h
      exact .adopt h rfl (Int.le_of_lt newer)
  | appendEntries args =>
      obtain ⟨⟨newer, -⟩, h⟩ := Option.ite_none_right_eq_some.mp h
      exact .adopt h rfl (Int.le_of_lt newer)
  | installSnapshot args => cases h

theorem sendAppendEntriesToServer_climbs {rf : Raftserver} {server : Nat}
    {args : AppendEntriesArgs} {reply : AppendEntriesReply} {result : Raftserver × Bool}
    (h : rf.sendAppendEntriesToServer server args reply = some result) : Climbs rf result.1 := by
  rw [sendAppendEntriesToServer] at h
  split at h
  · cases h
    exact .refl rf
  split at h
  · obtain ⟨commit, -, rfl⟩ := Option.map_eq_some_iff.mp h
    exact .of_le rfl (Int.le_refl _)
  split at h
  · rename_i newer
    obtain ⟨saved, hsaved, rfl⟩ := Option.map_eq_some_iff.mp h
    exact .settle (.adopt hsaved rfl (Int.le_of_lt newer)) rfl rfl
  split at h
  · obtain ⟨next, -, rfl⟩ := Option.map_eq_some_iff.mp h
    exact .of_le rfl (Int.le_refl _)
  · cases h
    exact .refl rf

theorem procVoteAnswer_climbs {rf : Raftserver} {args : RequestVoteArgs}
    {reply : RequestVoteReply} {result : Raftserver × Bool}
    (h : rf.procVoteAnswer args reply = some result) : Climbs rf result.1 := by
  rw [procVoteAnswer] at h
  split at h
  · cases h
    exact .refl rf
  split at h
  · rename_i newer
    obtain ⟨saved, hsaved, rfl⟩ := Option.map_eq_some_iff.mp h
    exact .settle (.adopt hsaved rfl (Int.le_of_lt newer)) rfl rfl
  · cases h
    exact .refl rf

theorem sendCommitIndex_climbs (rf : Raftserver) (reply : GetCommitIndexReply) :
    Climbs rf (rf.sendCommitIndex reply).1 := by
  obtain heq | ⟨newer, heq⟩ := sendCommitIndex_outcome rf reply
  · rw [heq]
    exact .refl rf
  · rw [heq]
    exact .of_le rfl (Int.le_of_lt newer)

theorem collectVote_climbs (rf : Raftserver) (outTime : Bool) :
    Climbs rf (rf.collectVote outTime) := by
  obtain ⟨count, role, leaderIdx, nextIndex, matchIndex, heq⟩ := collectVote_outcome rf outTime
  rw [heq]
  exact .of_le rfl (Int.le_refl _)

/-- No section makes a term go back, if an election can count it up. -/
theorem serve_climbs {rf rf' : Raftserver} {call : Call} (h : rf.serve call = some rf')
    (counts : call = .startElection → rf.CanCount) : Climbs rf rf' := by
  cases call with
  | requestVote args =>
      obtain ⟨result, hresult, rfl⟩ := Option.map_eq_some_iff.mp h
      exact (requestVote_climbs hresult).1
  | installSnapshot args =>
      obtain ⟨result, hresult, rfl⟩ := Option.map_eq_some_iff.mp h
      exact (installSnapshot_climbs hresult).1
  | installSnapshotDone => exact .persist h
  | startElection =>
      obtain ⟨result, hresult, rfl⟩ := Option.map_eq_some_iff.mp h
      rw [startElectionInt64_eq (counts rfl)] at hresult
      obtain ⟨saved, hsaved, hresult⟩ := Option.bind_eq_some_iff.mp hresult
      obtain ⟨last, -, rfl⟩ := Option.map_eq_some_iff.mp hresult
      exact .settle (.adopt hsaved rfl (by dsimp only; omega)) rfl rfl
  | procVoteAnswer args reply =>
      obtain ⟨result, hresult, rfl⟩ := Option.map_eq_some_iff.mp h
      exact procVoteAnswer_climbs hresult
  | collectVote outTime =>
      cases h
      exact collectVote_climbs rf outTime
  | sendAppendEntriesToServer server args reply =>
      obtain ⟨result, hresult, rfl⟩ := Option.map_eq_some_iff.mp h
      exact sendAppendEntriesToServer_climbs hresult
  | sendInstallSnapshotToServer server reply =>
      rw [serve, sendInstallSnapshotToServer] at h
      split at h
      · rename_i newer
        exact .adopt h rfl (Int.le_of_lt newer)
      · cases h
        exact .of_le rfl (Int.le_refl _)
  | sendCommitIndex reply =>
      cases h
      exact sendCommitIndex_climbs rf reply
  | start command =>
      obtain ⟨result, hresult, rfl⟩ := Option.map_eq_some_iff.mp h
      rw [start] at hresult
      split at hresult
      · cases hresult
        exact .refl rf
      · obtain ⟨saved, hsaved, rfl⟩ := Option.map_eq_some_iff.mp hresult
        exact .adopt hsaved rfl (Int.le_refl _)
  | snapshot index data =>
      rw [serve, snapshot] at h
      split at h
      · cases h
        exact .refl rf
      · obtain ⟨e, -, h⟩ := Option.bind_eq_some_iff.mp h
        exact .adopt h rfl (Int.le_refl _)
  | commitCheck commandIndex =>
      cases h
      exact .of_le rfl (Int.le_refl _)

end Raft.Raftserver

/-! ### The term in the stat file -/

/-- The term that a new process finds; without a state it starts from zero. -/
def Disk.term {β : Type} (disk : Disk β) : Int :=
  match disk.stat with
  | none | some none => 0
  | some (some state) => state.currentTerm

theorem Disk.loadState_term {β : Type} (disk : Disk β) :
    disk.loadState.2.currentTerm = disk.term ∧ disk.loadState.1.term = disk.term := by
  obtain ⟨stat, log, snap⟩ := disk
  rcases stat with _ | _ | state <;> exact ⟨rfl, rfl⟩

namespace Persister

variable {β : Type} {codec : Codec β} {ps ps' : Persister β} {disk : Disk β}

/-- The stat file has the term of the persister's state. -/
def Mirrors (ps : Persister β) : Prop := ps.disk.term = ps.state.currentTerm

theorem readRaftState_term {saved : List Entry × Option Nat × Int × Int}
    (h : ps.readRaftState codec = some saved) : saved.2.2.1 = ps.state.currentTerm := by
  obtain ⟨-, h⟩ := Option.ite_none_left_eq_some.mp h
  obtain ⟨bs, -, h⟩ := Option.bind_eq_some_iff.mp h
  obtain ⟨entries, -, rfl⟩ := Option.map_eq_some_iff.mp h
  rfl

theorem mirrors_initFromDisk (h : initFromDisk codec disk = some ps) :
    ps.Mirrors ∧ ps.state.currentTerm = disk.term := by
  obtain ⟨term, same⟩ := disk.loadState_term
  rw [initFromDisk] at h
  split at h
  · cases h
    exact ⟨same.trans term.symm, term⟩
  · obtain ⟨bs, -, rfl⟩ := Option.map_eq_some_iff.mp h
    exact ⟨same.trans term.symm, term⟩

theorem mirrors_save {args : SaveArgs} (h : ps.save codec args = some ps') :
    ps'.Mirrors ∧ ps'.state.currentTerm = args.currentTerm := by
  obtain ⟨entries, -, h⟩ := Option.bind_eq_some_iff.mp h
  obtain ⟨-, rfl⟩ := enabled_some.mp h
  exact ⟨rfl, rfl⟩

namespace Mirrors

theorem saveSnapToDisk (h : ps.Mirrors) (hsave : ps.saveSnapToDisk = some ps') :
    ps'.Mirrors ∧ ps'.state.currentTerm = ps.state.currentTerm := by
  obtain ⟨-, rfl⟩ | ⟨-, log, sums, -, -, rfl⟩ := saveSnapToDisk_outcome hsave
  · exact ⟨h, rfl⟩
  · exact ⟨rfl, rfl⟩

theorem makeRoom {i : Int} (h : ps.Mirrors) (hroom : ps.makeRoom i = some ps') :
    ps'.Mirrors ∧ ps'.state.currentTerm = ps.state.currentTerm := by
  obtain ⟨-, saved⟩ | ⟨-, ⟨-, cut⟩ | ⟨-, rfl⟩⟩ := makeRoom_outcome hroom
  · exact h.saveSnapToDisk saved
  · obtain ⟨log, -, cut⟩ := Option.bind_eq_some_iff.mp cut
    obtain ⟨sums, -, rfl⟩ := Option.map_eq_some_iff.mp cut
    exact ⟨h, rfl⟩
  · exact ⟨h, rfl⟩

theorem write {i : Int} {b : β} (h : ps.Mirrors) (hwrite : ps.write codec i b = some ps') :
    ps'.Mirrors ∧ ps'.state.currentTerm = ps.state.currentTerm := by
  obtain ⟨log, -, rfl⟩ := Option.map_eq_some_iff.mp hwrite
  exact ⟨h, rfl⟩

theorem saveLogToDisk (h : ps.Mirrors) (hround : ps.saveLogToDisk codec = some ps') :
    ps'.Mirrors ∧ ps'.state.currentTerm = ps.state.currentTerm := by
  obtain ⟨i, b, rest, room, -, hroom, rfl⟩ := saveLogToDisk_outcome hround
  have popped : Mirrors { ps with entryCh := rest } := h
  obtain ⟨mirrors, term⟩ := popped.makeRoom hroom
  rw [writeOrDrop]
  split
  · exact ⟨mirrors, term⟩
  · rename_i written
    exact ⟨rfl, (mirrors.write written).2.trans term⟩

/-- The sections of the writer do not touch the term, wherever they stop. -/
theorem diskAfter {w : Window} (h : ps.Mirrors) (hdisk : ps.diskAfter codec w = some disk) :
    disk.term = ps.state.currentTerm := by
  cases w with
  | idle =>
      cases hdisk
      exact h
  | truncatedBack =>
      rw [Persister.diskAfter] at hdisk
      split at hdisk
      · cases hdisk
      obtain ⟨-, log, -, rfl⟩ := enabled_map.mp hdisk
      exact h
  | written =>
      rw [Persister.diskAfter] at hdisk
      split at hdisk
      · cases hdisk
      rename_i i b rest _
      obtain ⟨room, hroom, hdisk⟩ := Option.bind_eq_some_iff.mp hdisk
      obtain ⟨written, hwritten, rfl⟩ := Option.map_eq_some_iff.mp hdisk
      have popped : Mirrors { ps with entryCh := rest } := h
      obtain ⟨mirrors, term⟩ := popped.makeRoom hroom
      obtain ⟨mirrors, same⟩ := mirrors.write hwritten
      exact mirrors.trans (same.trans term)
  | lastSaved =>
      obtain ⟨saved, hsaved, rfl⟩ := Option.map_eq_some_iff.mp hdisk
      obtain ⟨mirrors, term⟩ := h.saveLogToDisk hsaved
      exact mirrors.trans term
  | snapSaved =>
      obtain ⟨-, rfl⟩ := enabled_some.mp hdisk
      exact h
  | truncatedFront =>
      obtain ⟨-, cut, hcut, rfl⟩ := enabled_map.mp hdisk
      obtain ⟨log, -, rfl⟩ := Option.map_eq_some_iff.mp hcut
      exact h
  | firstSaved =>
      obtain ⟨-, saved, hsaved, rfl⟩ := enabled_map.mp hdisk
      obtain ⟨mirrors, term⟩ := h.saveSnapToDisk hsaved
      exact mirrors.trans term

end Mirrors

end Persister

end RaftKv
