import RaftKv.Raft.Basic
import Mathlib.Algebra.Group.Int.Defs
import Mathlib.Algebra.Group.Nat.Defs

/-!
# The critical sections of a Raft peer

Each definition is one section of the code that runs while `rf.mu` is held. A
function that releases the lock in between is split where it does so, and the
cluster model interleaves the parts. The result is `none` where the section
panics.

Loops run on a fuel argument that is exactly the number of iterations their own
conditions allow; no loop is cut short by it.
-/

namespace RaftKv.Raft.Raftserver

/-- `RequestVote`. -/
def requestVote (rf : Raftserver) (args : RequestVoteArgs) :
    Option (Raftserver × RequestVoteReply) :=
  if args.term < rf.currentTerm then
    some (rf, { term := rf.currentTerm, voteGranted := false })
  else
    (if rf.currentTerm < args.term then
      persist { rf with votedFor := none, currentTerm := args.term, role := .follower }
    else some rf).bind fun rf =>
    if rf.votedFor = none ∨ rf.votedFor = args.candidateId then
      rf.lastEntry.bind fun last =>
        -- the candidate's log has to be at least as up to date
        if last.term < args.lastLogTerm ∨
            (rf.lastIndex ≤ args.lastLogIndex ∧ args.lastLogTerm = last.term) then
          (persist { rf with currentTerm := args.term, votedFor := args.candidateId }).map
            fun rf => ({ rf with role := .follower }, { term := args.term, voteGranted := true })
        else some (rf, { term := rf.currentTerm, voteGranted := false })
    else some (rf, { term := rf.currentTerm, voteGranted := false })

/-- `GetCommitIndex`, which answers whatever the node's role is. -/
def getCommitIndex (rf : Raftserver) : GetCommitIndexReply :=
  { term := rf.currentTerm, commitIndex := rf.commitIndex }

/-- The section of `SendCommitIndex` that handles an answer: the index to wait
for, or `none` for `ErrorWrongLeader`. A larger term is adopted as it is, with
neither the vote nor the role reset. -/
def sendCommitIndex (rf : Raftserver) (r : GetCommitIndexReply) : Raftserver × Option Int :=
  if r.term < rf.commitIndex ∨ r.commitIndex < rf.commitIndex then (rf, none)
  else if rf.currentTerm < r.term then ({ rf with currentTerm := r.term }, some r.commitIndex)
  else (rf, some r.commitIndex)

/-- The loop of `AppendEntries` that looks for the first entry of `xTerm`. -/
def conflictIndex (rf : Raftserver) (xTerm : Int) : Nat → Int → Option Int
  | 0, i => some i
  | fuel + 1, i =>
      if rf.lastIncludedIndex < i then
        (rf.entryAt i).bind fun e =>
          if e.term = xTerm then conflictIndex rf xTerm fuel (i - 1) else some i
      else some i

/-- The previous-entry check of `AppendEntries`: the refusing reply, or `none`
if the check passes. At the commit index the term is not compared. -/
def checkPrev (rf : Raftserver) (args : AppendEntriesArgs) : Option (Option AppendEntriesReply) :=
  if rf.localToGlobal rf.log.length ≤ args.prevLogIndex then
    some (some { term := rf.currentTerm, xTerm := -1, xLen := rf.localToGlobal rf.log.length })
  else if args.prevLogIndex < rf.lastIncludedIndex then
    some (some { term := rf.currentTerm, xTerm := -1, xLen := rf.lastIncludedIndex + 1 })
  else if rf.commitIndex = args.prevLogIndex then some none
  else
    (rf.entryAt args.prevLogIndex).bind fun e =>
      if e.term ≠ args.prevLogTerm then
        (rf.conflictIndex e.term (args.prevLogIndex - rf.lastIncludedIndex).toNat
          args.prevLogIndex).map fun i =>
          some { term := rf.currentTerm, xTerm := e.term, xIndex := i + 1,
                 xLen := rf.localToGlobal rf.log.length }
      else some none

/-- The loop of `AppendEntries` over the received entries, from local position
`ridx` on: the first difference in term, or the end of the log, is where the
rest of the entries replaces the rest of the log. -/
def mergeEntries (log : List (Option Entry)) : Nat → List Entry → Option (List (Option Entry))
  | _, [] => some log
  | ridx, e :: es =>
      if ridx < log.length then
        (deref log ridx).bind fun old =>
          if old.term ≠ e.term then some (log.take ridx ++ (e :: es).map some)
          else mergeEntries log (ridx + 1) es
      else if ridx = log.length then some (log ++ (e :: es).map some)
      else mergeEntries log (ridx + 1) es

/-- The log of `AppendEntries` after its step 4. A leader keeps its own. -/
def mergedLog (rf : Raftserver) (args : AppendEntriesArgs) : Option (List (Option Entry)) :=
  if args.entries ≠ [] ∧ rf.role ≠ .leader then
    mergeEntries rf.log (rf.globalToLocal args.prevLogIndex + 1).toNat args.entries
  else some rf.log

/-- `AppendEntries` from step 4 on, after the previous-entry check has passed. -/
def acceptEntries (rf : Raftserver) (args : AppendEntriesArgs) :
    Option (Raftserver × AppendEntriesReply) :=
  (rf.mergedLog args).bind fun log =>
    (persist { rf with log := log }).map fun rf =>
      ({ rf with
          leaderIdx := args.leaderId
          commitIndex :=
            if rf.commitIndex < args.leaderCommit then max args.leaderCommit rf.lastIndex
            else rf.commitIndex },
        { term := rf.currentTerm, success := true, xIndex := rf.lastIncludedIndex })

/-- What `AppendEntries` does with a term that is not older than its own. -/
def observeLeader (rf : Raftserver) (term : Int) : Option Raftserver :=
  if rf.currentTerm < term then
    (persist { rf with currentTerm := term, votedFor := none }).map ({ · with role := .follower })
  else some rf

/-- `AppendEntries`. -/
def appendEntries (rf : Raftserver) (args : AppendEntriesArgs) :
    Option (Raftserver × AppendEntriesReply) :=
  if args.term < rf.currentTerm then
    -- the debug output takes the term of the last entry
    rf.lastEntry.map fun _ => (rf, { term := rf.currentTerm, success := false })
  else
    (rf.observeLeader args.term).bind fun rf =>
      (rf.checkPrev args).bind fun refusal =>
        match refusal with
        | some reply => some (rf, reply)
        | none => rf.acceptEntries args

/-- `count` of the commit loop for index `n`. The entry is only looked at when
some peer has acknowledged it. -/
def commitCount (rf : Raftserver) (n : Int) : Option Nat :=
  let acked := rf.peers.countP (fun p => n ≤ rf.matchIndex.get p)
  if acked = 0 then some 1
  else (rf.entryAt n).map fun e => if e.term = rf.currentTerm then 1 + acked else 1

/-- The commit loop of `sendAppendEntriesToServer`, downwards from `n`. -/
def commitScan (rf : Raftserver) : Nat → Int → Option Int
  | 0, n => some n
  | fuel + 1, n =>
      if rf.commitIndex < n then
        (rf.commitCount n).bind fun count =>
          if rf.peers.length / 2 < count then some n else commitScan rf fuel (n - 1)
      else some n

/-- The loop of `sendAppendEntriesToServer` that skips entries of newer terms. -/
def skipNewer (rf : Raftserver) (term : Int) : Nat → Int → Option Int
  | 0, i => some i
  | fuel + 1, i =>
      if rf.lastIncludedIndex < i then
        (rf.entryAt i).bind fun e =>
          if term < e.term then skipNewer rf term fuel (i - 1) else some i
      else some i

/-- The new `nextIndex[server]` after a refusal in the leader's own term. -/
def backtrack (rf : Raftserver) (server : Nat) (reply : AppendEntriesReply) : Option Int :=
  if reply.xTerm = -1 then
    some (if reply.xLen ≤ rf.lastIncludedTerm then rf.lastIncludedIndex else reply.xLen)
  else
    let start := max (rf.nextIndex.get server - 1) rf.lastIncludedIndex
    (rf.skipNewer reply.term (start - rf.lastIncludedIndex).toNat start).bind fun i =>
      (rf.entryAt i).map fun e =>
        if i = rf.lastIncludedIndex ∧ reply.term < e.term then rf.lastIncludedIndex
        else if e.term = reply.term then i + 1
        else if reply.xIndex ≤ rf.lastIncludedIndex then rf.lastIncludedIndex
        else reply.xIndex

/-- Raise `matchIndex` for a successful reply and move `nextIndex` behind it. -/
def acknowledge (rf : Raftserver) (server : Nat) (args : AppendEntriesArgs) : Raftserver :=
  let matched := max (rf.matchIndex.get server) (args.prevLogIndex + args.entries.length)
  { rf with
    matchIndex := rf.matchIndex.insert server matched
    nextIndex := rf.nextIndex.insert server (matched + 1) }

/-- The section of `sendAppendEntriesToServer` that handles a reply. The flag
says that it starts `sendInstallSnapshotToServer`. -/
def sendAppendEntriesToServer (rf : Raftserver) (server : Nat) (args : AppendEntriesArgs)
    (reply : AppendEntriesReply) : Option (Raftserver × Bool) :=
  if args.term ≠ rf.currentTerm then some (rf, false)
  else if reply.success then
    let rf := rf.acknowledge server args
    (rf.commitScan (rf.lastIndex - rf.commitIndex).toNat rf.lastIndex).map fun commitLastLog =>
      ({ rf with commitIndex := commitLastLog }, decide (reply.xIndex < rf.lastIncludedIndex))
  else if rf.currentTerm < reply.term then
    (persist { rf with currentTerm := reply.term, votedFor := none }).map
      fun rf => ({ rf with role := .follower }, false)
  else if reply.term = rf.currentTerm ∧ rf.role = .leader then
    (rf.backtrack server reply).map fun next =>
      ({ rf with nextIndex := rf.nextIndex.insert server next }, false)
  else some (rf, false)

/-- The log that `InstallSnapshot` keeps: the part from the last included entry
on, if the log has that entry, and otherwise a new slice. `make` has already put
one nil pointer into the new slice when the entry is appended to it. -/
def retainedLog (rf : Raftserver) (args : InstallSnapshotArgs) : Option (List (Option Entry)) :=
  let rIdx := rf.globalToLocal args.lastIncludedIndex
  let cleared := [none, some { term := args.lastIncludedTerm, command := args.lastIncludedCommand }]
  if rIdx < rf.log.length then
    (deref rf.log rIdx).map fun e =>
      if e.term = args.lastIncludedTerm then rf.log.drop rIdx.toNat else cleared
  else some cleared

/-- What `InstallSnapshot` does with a term that is not older than its own. -/
def observeSnapshot (rf : Raftserver) (term : Int) : Raftserver :=
  if rf.currentTerm < term then
    { rf with currentTerm := term, votedFor := none, role := .follower }
  else { rf with role := .follower }

/-- `InstallSnapshot` from the comparison of the indices on, with the message for
`applyCh` if the snapshot is taken. -/
def takeSnapshot (rf : Raftserver) (args : InstallSnapshotArgs) :
    Option (Raftserver × InstallSnapshotReply × Option ApplyMsg) :=
  if args.lastIncludedIndex < rf.lastIncludedIndex ∨ args.lastIncludedIndex < rf.commitIndex then
    some (rf, { term := rf.currentTerm }, none)
  else
    (rf.retainedLog args).map fun log =>
      ({ rf with
          log := log
          snapShot := args.data
          lastIncludedIndex := args.lastIncludedIndex
          lastIncludedTerm := args.lastIncludedTerm
          commitIndex :=
            if rf.commitIndex < args.lastIncludedIndex then args.lastIncludedIndex
            else rf.commitIndex
          lastApplied := max rf.lastApplied args.lastIncludedIndex },
        { term := rf.currentTerm },
        some { snapshotValid := true, snapshot := args.data
               snapshotIndex := args.lastIncludedIndex
               snapshotTerm := args.lastIncludedTerm })

/-- `InstallSnapshot` up to the point where it releases the lock. -/
def installSnapshot (rf : Raftserver) (args : InstallSnapshotArgs) :
    Option (Raftserver × InstallSnapshotReply × Option ApplyMsg) :=
  if args.term < rf.currentTerm then some (rf, { term := rf.currentTerm }, none)
  else (rf.observeSnapshot args.term).takeSnapshot args

/-- The message built by `sendInstallSnapshotToServer`. -/
def installSnapshotArgs (rf : Raftserver) : Option InstallSnapshotArgs :=
  (deref rf.log 0).map fun e =>
    { term := rf.currentTerm, leaderId := rf.me, lastIncludedIndex := rf.lastIncludedIndex
      lastIncludedTerm := rf.lastIncludedTerm, data := rf.snapShot
      lastIncludedCommand := e.command }

/-- The section of `sendInstallSnapshotToServer` that handles a reply. -/
def sendInstallSnapshotToServer (rf : Raftserver) (server : Nat) (reply : InstallSnapshotReply) :
    Option Raftserver :=
  if rf.currentTerm < reply.term then
    persist { rf with currentTerm := reply.term, role := .follower, votedFor := none }
  else
    some { rf with
      nextIndex := rf.nextIndex.insert server
        (max (rf.localToGlobal 1) (rf.nextIndex.get server)) }

/-- The message of `SingleHeartBeat` for peer `i`. -/
def singleHeartBeat (rf : Raftserver) (i : Nat) : Option AppendEntriesArgs :=
  (rf.entryAt (rf.nextIndex.get i - 1)).map fun prev =>
    { term := rf.currentTerm, leaderId := rf.me, prevLogIndex := rf.nextIndex.get i - 1
      prevLogTerm := prev.term, leaderCommit := rf.commitIndex, entries := [] }

/-- One round of `StartSendAppendEntries` for peer `i`: the message to send, or
`none` for a snapshot. Nil pointers are marshalled as empty messages. -/
def startSendAppendEntries (rf : Raftserver) (i : Nat) : Option (Option AppendEntriesArgs) :=
  let next := rf.nextIndex.get i
  if next - 1 < rf.lastIncludedIndex then some none
  else
    (rf.entryAt (next - 1)).map fun prev =>
      some { term := rf.currentTerm, leaderId := rf.me, prevLogIndex := next - 1
             prevLogTerm := prev.term, leaderCommit := rf.commitIndex
             entries :=
               if next - 1 < rf.lastIndex then
                 (rf.log.drop (rf.globalToLocal next).toNat).map (·.getD {})
               else [] }

/-- `Start`: the index and term of the new entry, if this peer is the leader. -/
def start (rf : Raftserver) (command : Op) : Option (Raftserver × Option (Int × Int)) :=
  if rf.role ≠ .leader then some (rf, none)
  else
    (persist { rf with log := rf.log ++ [some { term := rf.currentTerm, command := some command }] }).map
      fun rf => (rf, some (rf.lastIndex, rf.currentTerm))

/-- `Snapshot`. -/
def snapshot (rf : Raftserver) (index : Int) (data : Bytes) : Option Raftserver :=
  if rf.commitIndex < index ∨ index ≤ rf.lastIncludedIndex then some rf
  else
    (rf.entryAt index).bind fun e =>
      (persist { rf with
        snapShot := data
        lastIncludedTerm := e.term
        log := rf.log.drop (rf.globalToLocal index).toNat
        lastIncludedIndex := index
        lastApplied := if rf.lastApplied < index then index else rf.lastApplied })

/-- `StartElection`, with the message it sends to every peer. -/
def startElection (rf : Raftserver) : Option (Raftserver × RequestVoteArgs) :=
  (persist { rf with
    currentTerm := rf.currentTerm + 1, role := .candidate, votedFor := some rf.me }).bind
    fun rf =>
      rf.lastEntry.map fun last =>
        ({ rf with voteCount := 1 },
          { term := rf.currentTerm, candidateId := some rf.me, lastLogIndex := rf.lastIndex
            lastLogTerm := last.term })

/-- `StartElection` of a node that may have got its term from anywhere. The term is an
`int64`, which `currentTerm++` makes negative behind its largest value. -/
def startElectionInt64 (rf : Raftserver) : Option (Raftserver × RequestVoteArgs) :=
  startElection { rf with currentTerm := (rf.currentTerm + 1).bmod (2 ^ 64) - 1 }

/-- The term and the one after it are values of an `int64`. -/
def CanCount (rf : Raftserver) : Prop := -2 ^ 63 ≤ rf.currentTerm ∧ rf.currentTerm < 2 ^ 63 - 1

instance (rf : Raftserver) : Decidable rf.CanCount := inferInstanceAs (Decidable (_ ∧ _))

/-- `procVoteAnswer` after the call has returned: whether a vote is counted. -/
def procVoteAnswer (rf : Raftserver) (args : RequestVoteArgs) (reply : RequestVoteReply) :
    Option (Raftserver × Bool) :=
  if rf.role ≠ .candidate ∨ args.term ≠ rf.currentTerm then some (rf, false)
  else if rf.currentTerm < reply.term then
    (persist { rf with currentTerm := reply.term, votedFor := none }).map
      fun rf => ({ rf with role := .follower }, reply.voteGranted)
  else some (rf, reply.voteGranted)

/-- The loop of `collectVote` that sets `nextIndex` and `matchIndex`. Its bound
`len(rf.nextIndex)` is read again before every iteration. -/
def resetIndexes (next matched : Int) :
    Nat → Nat → IndexMap → IndexMap → IndexMap × IndexMap
  | 0, _, nextIndex, matchIndex => (nextIndex, matchIndex)
  | fuel + 1, i, nextIndex, matchIndex =>
      if i < nextIndex.len then
        resetIndexes next matched fuel (i + 1) (nextIndex.insert i next) (matchIndex.insert i matched)
      else (nextIndex, matchIndex)

/-- One more than the largest key. -/
def keyBound (m : IndexMap) : Nat := m.keys.foldr (fun k b => max (k + 1) b) 0

/-- The branch of `collectVote` that makes the candidate a leader. -/
def becomeLeader (rf : Raftserver) : Raftserver :=
  let indexes := resetIndexes (rf.localToGlobal rf.log.length) rf.lastIncludedIndex
    (keyBound rf.nextIndex) 0 rf.nextIndex rf.matchIndex
  { rf with
    role := .leader, leaderIdx := rf.me
    nextIndex := indexes.1, matchIndex := indexes.2 }

/-- Whether `collectVote` makes the node a leader after counting one more vote. -/
def electedBy (rf : Raftserver) (outTime : Bool) : Prop :=
  (rf.peers.length / 2 : Nat) < rf.voteCount + 1 ∧ rf.role = .candidate ∧ outTime = false

instance (rf : Raftserver) (outTime : Bool) : Decidable (rf.electedBy outTime) :=
  inferInstanceAs (Decidable (_ ∧ _ ∧ _))

/-- The counting section of `collectVote`. The candidate's term is not compared
with the term of the vote again. -/
def collectVote (rf : Raftserver) (outTime : Bool) : Raftserver :=
  if (rf.peers.length / 2 : Nat) < rf.voteCount then rf
  else if rf.electedBy outTime then { rf with voteCount := rf.voteCount + 1 }.becomeLeader
  else { rf with voteCount := rf.voteCount + 1 }

/-- The buffer that `CommitCheck` fills from `tmpApplied` on. -/
def commitBuffer (rf : Raftserver) : Nat → Int → Option (List ApplyMsg)
  | 0, _ => some []
  | fuel + 1, tmpApplied =>
      if tmpApplied < rf.commitIndex then
        (rf.entryAt (tmpApplied + 1)).bind fun e =>
          (commitBuffer rf fuel (tmpApplied + 1)).map
            ({ commandValid := decide (rf.lastIncludedIndex < tmpApplied + 1) && e.command.isSome
               command := e.command, commandIndex := tmpApplied + 1
               snapshotTerm := e.term } :: ·)
      else some []

end RaftKv.Raft.Raftserver
