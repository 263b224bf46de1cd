import RaftKv.Library.IndexedLog
import RaftKv.Raft.Basic

/-!
# The persister

A node keeps its state in three stores: the stat file with the term, the vote and
the index range, the write-ahead log with one marshalled entry per index, and a
directory of snapshot files. `Save` writes the stat file at once, while the
entries go through the channel `entryCh` to the goroutine `saveLogToDisk`, and the
snapshot waits for `saveSnapToDisk`. Each definition below is one section that
holds `ps.mu`.

The write-ahead log is an indexed log, every operation of which is one atomic
change of the disk; its segment files belong to a model of their own. Indices are
not negative where the code converts them to `uint64`. A section that panics or
calls `log.Fatal` gives `none`.
-/

namespace RaftKv

open Library (IndexedLog)
open Raft (Bytes Entry SaveArgs)

/-- `proto.Marshal` and `proto.Unmarshal` for log entries and
`crc32.ChecksumIEEE`, over the byte strings `β` that the log stores. `Marshal` reports an
error for a string that is not valid UTF-8, so it is `marshal` on the `encodable` entries
only. Checksums may collide. -/
structure Codec (β : Type) where
  encodable : Entry → Bool
  marshal : Entry → β
  unmarshal : β → Option Entry
  checksumIEEE : β → UInt32
  unmarshal_marshal : ∀ e, encodable e = true → unmarshal (marshal e) = some e

/-- `IndexState` with its `RaftSate`; `votedFor` is `none` where the code has `-1`. -/
@[ext]
structure IndexState where
  firstIndex : Int := 0
  lastIndex : Int
  lastCommitIndex : Int := 0
  votedFor : Option Nat := none
  currentTerm : Int := 0
  deriving DecidableEq, Repr

structure Snapshot where
  rowData : Bytes := []
  lastIndex : Int := 0
  lastTerm : Int := 0
  deriving DecidableEq, Repr

/-- The snapshot files, newest first. A file is named by its term and index, and a
later file of the same name replaces the earlier one. -/
abbrev SnapDir := List Snapshot

/-- The order of the file names: `%016x` of the term, then of the index. -/
def Snapshot.NamedBefore (s t : Snapshot) : Prop :=
  s.lastTerm < t.lastTerm ∨ (s.lastTerm = t.lastTerm ∧ s.lastIndex < t.lastIndex)

instance (s t : Snapshot) : Decidable (s.NamedBefore t) :=
  inferInstanceAs (Decidable (_ ∨ _ ∧ _))

/-- `Snapshotter.Load`: the file whose name comes last. -/
def SnapDir.load : SnapDir → Option Snapshot
  | [] => none
  | s :: rest =>
      match load rest with
      | none => some s
      | some t => some (if s.NamedBefore t then t else s)

/-- What survives a crash. The stat file may be missing (`none`) or, between its
creation and the first `saveState`, empty (`some none`). -/
structure Disk (β : Type) where
  stat : Option (Option IndexState) := none
  log : IndexedLog β := .empty
  snap : SnapDir := []
  deriving DecidableEq

/-- The fields of `Persister` over the disk it writes. `lastIdx` is
`snapshotter.LastIdx`. An entry that the writer has taken from the channel but not
processed yet still counts as queued. -/
structure Persister (β : Type) where
  disk : Disk β
  state : IndexState
  snapshot : Snapshot
  lastIdx : Int := 0
  entryCh : List (Int × β) := []
  capacity : Nat
  checkSum : List UInt32
  deriving DecidableEq

/-- `s[i]`. -/
def indexSlice {α : Type} (s : List α) (i : Int) : Option α :=
  if 0 ≤ i then s[i.toNat]? else none

/-- `s[low:]`. -/
def sliceFrom {α : Type} (s : List α) (low : Int) : Option (List α) :=
  if 0 ≤ low ∧ low ≤ s.length then some (s.drop low.toNat) else none

/-- `s[:high]`. -/
def sliceTo {α : Type} (s : List α) (high : Int) : Option (List α) :=
  if 0 ≤ high ∧ high ≤ s.length then some (s.take high.toNat) else none

variable {β : Type}

/-- `loadState` on the state that `MakePersister` starts from. A missing stat file
is created empty; an empty one leaves `FirstIndex` at zero. -/
def Disk.loadState (disk : Disk β) : Disk β × IndexState :=
  match disk.stat with
  | none => ({ disk with stat := some none }, { firstIndex := 1, lastIndex := -1 })
  | some none => (disk, { lastIndex := -1 })
  | some (some state) => (disk, state)

namespace Persister

variable (codec : Codec β)

/-- The loop of `initFromDisk` that stores the checksums of what it has read, from
position `k` on. -/
def fillCheckSum (checkSum : List UInt32) : Nat → List β → List UInt32
  | _, [] => checkSum
  | k, b :: bs => fillCheckSum (checkSum.set k (codec.checksumIEEE b)) (k + 1) bs

/-- `MakePersister`, with the loading done by `initFromDisk`. -/
def initFromDisk (disk : Disk β) : Option (Persister β) :=
  let state := disk.loadState.2
  let size := state.lastIndex - state.firstIndex + 1
  let persister : Persister β :=
    { disk := disk.loadState.1, state := state, snapshot := disk.snap.load.getD {}
      capacity := (max 100 size).toNat, checkSum := List.replicate (max 16 size).toNat 0 }
  if state.lastIndex = -1 then
    some { persister with
      state := { state with lastIndex := 0 }
      checkSum := persister.checkSum.set 0 (codec.checksumIEEE (codec.marshal { term := 0 })) }
  else
    let start := max state.firstIndex 1
    (disk.log.readFrom (state.lastIndex + 1 - start).toNat start.toNat).map fun bs =>
      { persister with
        checkSum := fillCheckSum codec persister.checkSum (start - state.firstIndex).toNat bs }

/-- `ReadRaftState`: the log behind a placeholder, the vote, the term and the commit
index. The slice for the entries is made with the size of the range as its capacity, which
panics if that is negative. -/
def readRaftState (ps : Persister β) : Option (List Entry × Option Nat × Int × Int) :=
  if ps.state.lastIndex - ps.state.firstIndex + 1 < 0 then none
  else
    let count := if 0 < ps.state.lastIndex then ps.state.lastIndex + 1 - ps.state.firstIndex else 0
    (ps.disk.log.readFrom count.toNat ps.state.firstIndex.toNat).bind fun bs =>
      (bs.mapM codec.unmarshal).map fun entries =>
        ({ term := max (ps.state.firstIndex - 1) 0 } :: entries,
          ps.state.votedFor, ps.state.currentTerm, ps.state.lastCommitIndex)

/-- `ReadSnapshot`. -/
def readSnapshot (ps : Persister β) : Bytes × Int × Int :=
  (ps.snapshot.rowData, ps.snapshot.lastIndex, ps.snapshot.lastTerm)

/-- `saveState` replaces the stat file. -/
def saveState (ps : Persister β) : Persister β :=
  { ps with disk := { ps.disk with stat := some (some ps.state) } }

/-- Marshalled entries with their indices, from `i` on. -/
def numbered : Int → List β → List (Int × β)
  | _, [] => []
  | i, b :: rest => (i, b) :: numbered (i + 1) rest

/-- The condition under which `filter` queues an entry: it lies behind the log on disk, or
the slot of its index has another checksum. -/
def isNew (ps : Persister β) (index : Int) (b : β) : Option Bool :=
  if ps.state.lastIndex < index then some true
  else (indexSlice ps.checkSum (index - ps.state.firstIndex)).map
    fun sum => decide (codec.checksumIEEE b ≠ sum)

/-- The second loop of `filter`, at position `i` of the logs. -/
def filterFrom (ps : Persister β) (lastIndex : Int) : Int → List Entry → Option (List (Int × β))
  | _, [] => some []
  | i, e :: rest =>
      let index := i + lastIndex + 1
      let b := codec.marshal e
      if codec.encodable e then
        (isNew codec ps index b).bind fun changed =>
          (filterFrom ps lastIndex (i + 1) rest).map fun more =>
            if changed then (index, b) :: more else more
      else none

/-- The entries that `filter` sends to the writer. If the log on disk reaches
beyond the snapshot these are the uncommitted ones whose checksum is not the one
remembered for their index. An entry that cannot be marshalled is fatal. -/
def filter (ps : Persister β) (lastIndex : Int) (logs : List Entry) :
    Option (List (Int × β)) :=
  if ps.state.lastIndex ≤ lastIndex then
    if logs.all codec.encodable then some (numbered (lastIndex + 1) (logs.map codec.marshal))
    else none
  else
    let i := max 0 (ps.state.lastCommitIndex - lastIndex)
    filterFrom codec ps lastIndex i (logs.drop i.toNat)

/-- `Save` up to the call of `filter`. -/
def remember (ps : Persister β) (args : SaveArgs) : Persister β :=
  { saveState { ps with
      state := { ps.state with
        votedFor := args.votedFor, currentTerm := args.currentTerm
        lastCommitIndex := args.commitIndex } } with
    snapshot := { rowData := args.snapshot, lastIndex := args.lastIncludeIndex
                  lastTerm := args.lastTerm } }

/-- `Save`. The channel is filled while the lock is held, so a call that finds no
room never returns: the writer can have taken one entry and needs the lock next. -/
def save (ps : Persister β) (args : SaveArgs) : Option (Persister β) :=
  let ps := ps.remember args
  (filter codec ps args.lastIncludeIndex args.logs).bind fun entries =>
    if ps.entryCh.length + entries.length ≤ ps.capacity + 1 then
      some { ps with entryCh := ps.entryCh ++ entries }
    else none

/-- `SaveSnap` and the note of its index. A snapshot at index zero is empty and not
written. -/
def saveSnap (ps : Persister β) : Persister β :=
  { ps with
    lastIdx := ps.snapshot.lastIndex
    disk := { ps.disk with
      snap := if ps.snapshot.lastIndex = 0 then ps.disk.snap else ps.snapshot :: ps.disk.snap } }

/-- The cut of `saveSnapToDisk`; the entry at the snapshot's index stays. -/
def truncateFront (ps : Persister β) : Option (Persister β) :=
  (ps.disk.log.truncateFront (min ps.snapshot.lastIndex.toNat ps.disk.log.lastIndex)).map
    fun log => { ps with disk := { ps.disk with log := log } }

/-- `saveSnapToDisk`, which the writer calls and `saveSnapClock` from time to time. -/
def saveSnapToDisk (ps : Persister β) : Option (Persister β) :=
  if ps.snapshot.lastIndex = ps.lastIdx then some ps
  else
    ps.saveSnap.truncateFront.bind fun ps =>
      (sliceFrom ps.checkSum (ps.snapshot.lastIndex - ps.state.firstIndex + 1)).map fun sums =>
        saveState { ps with
          checkSum := sums
          state := { ps.state with firstIndex := ps.snapshot.lastIndex + 1 } }

/-- The cut of `saveLogToDisk` before an entry that replaces others. -/
def truncateBack (ps : Persister β) (index : Int) : Option (Persister β) :=
  (ps.disk.log.truncateBack (index - 1).toNat).bind fun log =>
    (sliceTo ps.checkSum (index - ps.state.firstIndex)).map fun sums =>
      { ps with
        disk := { ps.disk with log := log }, checkSum := sums
        state := { ps.state with lastIndex := log.lastIndex } }

/-- What `saveLogToDisk` does before it writes the entry of `index`. -/
def makeRoom (ps : Persister β) (index : Int) : Option (Persister β) :=
  if ps.state.lastIndex < ps.snapshot.lastIndex then ps.saveSnapToDisk
  else if index < ps.state.lastIndex then ps.truncateBack index
  else some ps

/-- `Write`, with the fields that follow it; `none` if the log refuses the index. -/
def write (ps : Persister β) (index : Int) (b : β) : Option (Persister β) :=
  (ps.disk.log.write index.toNat b).map fun log =>
    { ps with
      disk := { ps.disk with log := log }
      checkSum := ps.checkSum ++ [codec.checksumIEEE b]
      state := { ps.state with lastIndex := log.lastIndex } }

/-- The end of a round of `saveLogToDisk`. An entry that the log refuses is dropped. -/
def writeOrDrop (index : Int) (b : β) (ps : Persister β) : Persister β :=
  match ps.write codec index b with
  | none => ps
  | some ps => ps.saveState

/-- One round of `saveLogToDisk`. -/
def saveLogToDisk (ps : Persister β) : Option (Persister β) :=
  match ps.entryCh with
  | [] => none
  | (index, b) :: rest =>
      (makeRoom { ps with entryCh := rest } index).map (writeOrDrop codec index b)

/-! What the sections of the writer can do. -/

variable {codec} {ps ps' : Persister β} {index : Int}

theorem saveSnapToDisk_outcome (h : ps.saveSnapToDisk = some ps') :
    (ps.snapshot.lastIndex = ps.lastIdx ∧ ps' = ps) ∨
      (ps.snapshot.lastIndex ≠ ps.lastIdx ∧ ∃ log sums,
        ps.disk.log.truncateFront (min ps.snapshot.lastIndex.toNat ps.disk.log.lastIndex) =
          some log ∧
        sliceFrom ps.checkSum (ps.snapshot.lastIndex - ps.state.firstIndex + 1) = some sums ∧
        ps' = saveState { ps.saveSnap with
          disk := { ps.saveSnap.disk with log := log }
          checkSum := sums
          state := { ps.state with firstIndex := ps.snapshot.lastIndex + 1 } }) := by
  rw [saveSnapToDisk] at h
  split at h
  · rename_i same
    cases h
    exact .inl ⟨same, rfl⟩
  · rename_i other
    obtain ⟨cut, hcut, h⟩ := Option.bind_eq_some_iff.mp h
    obtain ⟨log, hlog, rfl⟩ := Option.map_eq_some_iff.mp hcut
    obtain ⟨sums, hsums, rfl⟩ := Option.map_eq_some_iff.mp h
    exact .inr ⟨other, log, sums, hlog, hsums, rfl⟩

theorem makeRoom_outcome (h : ps.makeRoom index = some ps') :
    (ps.state.lastIndex < ps.snapshot.lastIndex ∧ ps.saveSnapToDisk = some ps') ∨
      (ps.snapshot.lastIndex ≤ ps.state.lastIndex ∧
        ((index < ps.state.lastIndex ∧ ps.truncateBack index = some ps') ∨
          (ps.state.lastIndex ≤ index ∧ ps' = ps))) := by
  rw [makeRoom] at h
  split at h
  · rename_i ahead
    exact .inl ⟨ahead, h⟩
  rename_i reached
  refine .inr ⟨Int.not_lt.mp reached, ?_⟩
  split at h
  · rename_i inside
    exact .inl ⟨inside, h⟩
  · rename_i behind
    cases h
    exact .inr ⟨Int.not_lt.mp behind, rfl⟩

theorem saveLogToDisk_outcome (h : ps.saveLogToDisk codec = some ps') :
    ∃ index b rest room, ps.entryCh = (index, b) :: rest ∧
      makeRoom { ps with entryCh := rest } index = some room ∧
      ps' = writeOrDrop codec index b room := by
  rw [saveLogToDisk] at h
  split at h
  · cases h
  · rename_i index b rest queue
    obtain ⟨room, hroom, rfl⟩ := Option.map_eq_some_iff.mp h
    exact ⟨index, b, rest, room, queue, hroom, rfl⟩

end Persister

/-- Entries that stand for their own marshalling, with a checksum that tells small
terms and command numbers apart. Runs that are evaluated use it. -/
def entryCodec : Codec Entry where
  encodable _ := true
  marshal e := e
  unmarshal b := some b
  checksumIEEE b := UInt32.ofNat
    (1 + b.term.toNat + 1000 * (b.command.map fun op => op.incrId.toNat).getD 0)
  unmarshal_marshal _ _ := rfl

end RaftKv
