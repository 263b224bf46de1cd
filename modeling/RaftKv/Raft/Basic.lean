import Mathlib.Data.List.AList

/-!
# The data of one Raft peer

Messages, log entries and the fields of `Raftserver` that the protocol reads or
writes. Pointers that may be nil are options, and `int64` terms and indices are
integers. A log is the slice `rf.log`: position zero is the placeholder of the
last snapshotted index, not an entry of the replicated log.

A Go panic (a nil dereference or an index out of range) ends the process. Every
operation that can panic therefore returns an option, and `none` is the crash.
Debug output, timers and time stamps are left out: where the code compares times
the outcome is an argument of the modelled step.
-/

namespace RaftKv.Raft

/-- Go byte slices and strings. -/
abbrev Bytes := List UInt8

/-- `rrpc.Op`; the default value is the zero message `&rrpc.Op{}`. -/
structure Op where
  optype : UInt32 := 0
  incrId : UInt64 := 0
  clerkId : Int32 := 0
  key : Bytes := []
  value : Bytes := []
  deriving DecidableEq, Repr

/-- `rrpc.Entry`, with a command pointer that may be nil. -/
structure Entry where
  term : Int := 0
  command : Option Op := none
  deriving DecidableEq, Repr

inductive Role where
  | leader
  | follower
  | candidate
  deriving DecidableEq, Repr

/-- A candidate `-1`, which stands for no vote, is `none`. -/
structure RequestVoteArgs where
  term : Int
  candidateId : Option Nat
  lastLogIndex : Int
  lastLogTerm : Int
  deriving DecidableEq, Repr

structure RequestVoteReply where
  term : Int
  voteGranted : Bool
  deriving DecidableEq, Repr

structure AppendEntriesArgs where
  term : Int
  leaderId : Nat
  prevLogIndex : Int
  prevLogTerm : Int
  leaderCommit : Int
  entries : List Entry
  deriving DecidableEq, Repr

structure AppendEntriesReply where
  term : Int := 0
  success : Bool := false
  xTerm : Int := 0
  xIndex : Int := 0
  xLen : Int := 0
  deriving DecidableEq, Repr

structure InstallSnapshotArgs where
  term : Int
  lastIncludedIndex : Int
  lastIncludedTerm : Int
  leaderId : Nat
  lastIncludedCommand : Option Op
  data : Bytes
  deriving DecidableEq, Repr

structure InstallSnapshotReply where
  term : Int
  deriving DecidableEq, Repr

structure GetCommitIndexReply where
  term : Int
  commitIndex : Int
  deriving DecidableEq, Repr

/-- A message on `applyCh`: a committed command or a snapshot. -/
structure ApplyMsg where
  commandValid : Bool := false
  command : Option Op := none
  commandIndex : Int := 0
  snapshotValid : Bool := false
  snapshot : Bytes := []
  snapshotTerm : Int := 0
  snapshotIndex : Int := 0
  deriving DecidableEq, Repr

/-- The arguments of one call of `persister.Save`. -/
structure SaveArgs where
  snapshot : Bytes
  votedFor : Option Nat
  currentTerm : Int
  logs : List Entry
  lastIncludeIndex : Int
  lastTerm : Int
  commitIndex : Int
  deriving DecidableEq, Repr

/-- `map[int32]int64` with its keys; `nextIndex` and `matchIndex` are read by
key, where an absent key gives zero, and measured by `len`. -/
abbrev IndexMap := AList (fun _ : Nat => Int)

namespace IndexMap

def get (m : IndexMap) (k : Nat) : Int := (m.lookup k).getD 0

def len (m : IndexMap) : Nat := m.keys.length

@[simp] theorem get_insert_self (m : IndexMap) (k : Nat) (v : Int) :
    get (m.insert k v) k = v := by
  simp [get]

@[simp] theorem get_insert_ne (m : IndexMap) {k k' : Nat} (v : Int) (h : k' ≠ k) :
    get (m.insert k v) k' = get m k' := by
  simp [get, h]

theorem get_of_notMem {m : IndexMap} {k : Nat} (h : k ∉ m) : get m k = 0 := by
  simp [get, AList.lookup_eq_none.mpr h]

end IndexMap

/-- The state of a peer, as far as the protocol depends on it. `votedFor` is
`none` where the code has `-1`. `persister` lists the calls of `Save` made so
far; the persister itself gives them their meaning. -/
structure Raftserver where
  me : Nat
  peers : List Nat
  leaderIdx : Nat := 0
  log : List (Option Entry)
  currentTerm : Int := 0
  votedFor : Option Nat := none
  commitIndex : Int := 0
  lastApplied : Int := 0
  nextIndex : IndexMap := ∅
  matchIndex : IndexMap := ∅
  role : Role := .follower
  voteCount : Int := 0
  snapShot : Bytes := []
  lastIncludedIndex : Int := 0
  lastIncludedTerm : Int := 0
  persister : List SaveArgs := []

/-- Dereference position `i` of a slice of pointers. -/
def deref (log : List (Option Entry)) (i : Int) : Option Entry :=
  if 0 ≤ i then (log[i.toNat]?).join else none

/-- Dereference every pointer of a slice. -/
def derefAll : List (Option Entry) → Option (List Entry)
  | [] => some []
  | none :: _ => none
  | some e :: rest => (derefAll rest).map (e :: ·)

@[simp] theorem derefAll_map_some (es : List Entry) : derefAll (es.map some) = some es := by
  induction es with
  | nil => rfl
  | cons e es ih => simp [derefAll, ih]

/-- A slice without nil pointers is read like a list. -/
theorem deref_map_some (es : List Entry) (i : Int) :
    deref (es.map some) i = if 0 ≤ i then es[i.toNat]? else none := by
  unfold deref
  rw [List.getElem?_map]
  cases es[i.toNat]? <;> rfl

theorem deref_natCast (log : List (Option Entry)) (m : Nat) : deref log m = log[m]?.join := by
  rw [deref, if_pos (by omega), Int.toNat_natCast]

namespace Raftserver

def globalToLocal (rf : Raftserver) (globalIndex : Int) : Int :=
  globalIndex - rf.lastIncludedIndex

def localToGlobal (rf : Raftserver) (localIndex : Int) : Int :=
  localIndex + rf.lastIncludedIndex

/-- `rf.LocalToGlobal(len(rf.log)-1)`. -/
def lastIndex (rf : Raftserver) : Int := rf.localToGlobal (rf.log.length - 1)

/-- `rf.log[rf.GlobalToLocal(i)]`, dereferenced. -/
def entryAt (rf : Raftserver) (globalIndex : Int) : Option Entry :=
  deref rf.log (rf.globalToLocal globalIndex)

/-- `rf.log[len(rf.log)-1]`, dereferenced. -/
def lastEntry (rf : Raftserver) : Option Entry := deref rf.log (rf.log.length - 1)

end Raftserver

/-- What `persist` saves for an entry: a nil command becomes `&rrpc.Op{}`. -/
def persistedEntry (e : Entry) : Entry :=
  { term := e.term, command := some (e.command.getD {}) }

namespace Raftserver

/-- Nothing is saved before the log has its placeholder. The entries behind the
placeholder are copied and handed to the persister with the indices. -/
def persist (rf : Raftserver) : Option Raftserver :=
  match rf.log with
  | [] => some rf
  | _ :: rest => (derefAll rest).map fun entries =>
      { rf with persister := rf.persister ++
          [{ snapshot := rf.snapShot, votedFor := rf.votedFor, currentTerm := rf.currentTerm
             logs := entries.map persistedEntry, lastIncludeIndex := rf.lastIncludedIndex
             lastTerm := rf.lastIncludedTerm, commitIndex := rf.commitIndex }] }

/-- Only the list of calls changes, whatever is saved. -/
theorem persist_eq {rf rf' : Raftserver} (h : rf.persist = some rf') :
    ∃ calls, rf' = { rf with persister := calls } := by
  unfold persist at h
  split at h
  · exact ⟨rf.persister, by simpa using h.symm⟩
  · obtain ⟨entries, -, rfl⟩ := Option.map_eq_some_iff.mp h
    exact ⟨_, rfl⟩

/-- What follows a call of `persist` starts from a peer with other calls of `Save`. -/
theorem persist_map_eq {α : Type} {rf : Raftserver} {f : Raftserver → α} {result : α}
    (h : rf.persist.map f = some result) : ∃ calls, result = f { rf with persister := calls } := by
  obtain ⟨saved, hsaved, rfl⟩ := Option.map_eq_some_iff.mp h
  obtain ⟨calls, rfl⟩ := persist_eq hsaved
  exact ⟨calls, rfl⟩

end Raftserver

end RaftKv.Raft
