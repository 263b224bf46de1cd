import RaftKv.Persister.Basic

/-!
# Restarting a node from its disk

`restart` is a new process on an old disk: `MakePersister`, `Make` and the two reads
of `startWork`. `OnDisk` says that the three stores hold what one call of `Save`
handed over, with the entries behind the snapshot and the snapshot at its index.

The log comes back behind a placeholder that `ReadRaftState` makes up. Its term is
`FirstIndex-1`, which is the index of the snapshot and not its term, so that a node
with a snapshot comes back as it was only if the two numbers happen to agree.
-/

namespace RaftKv

open Library (IndexedLog)
open Raft (Bytes Entry SaveArgs Raftserver persistedEntry derefAll deref)

namespace Raft

/-- A slice that can be dereferenced everywhere has no nil pointer. -/
theorem derefAll_eq_some_iff {log : List (Option Entry)} {es : List Entry} :
    derefAll log = some es ↔ log = es.map some := by
  constructor
  · intro h
    induction log generalizing es with
    | nil =>
        cases h
        rfl
    | cons x log ih =>
        cases x with
        | none => cases h
        | some e =>
            obtain ⟨es, hes, rfl⟩ := Option.map_eq_some_iff.mp h
            rw [ih hes, List.map_cons]
  · rintro rfl
    exact derefAll_map_some es

namespace Raftserver

/-- A server as `Make` builds it. -/
def make (me : Nat) (peers : List Nat) : Raftserver := { me := me, peers := peers, log := [] }

/-- `readPersist`. -/
def readPersist (rf : Raftserver) (logs : List Entry) (voteFor : Option Nat)
    (currentTerm commitIndex : Int) : Raftserver :=
  { rf with
    votedFor := voteFor, currentTerm := currentTerm, commitIndex := commitIndex
    log := if logs.length < 1 then rf.log else logs.map some }

/-- `readSnapshot`. The maps that it goes through are still empty. -/
def readSnapshot (rf : Raftserver) (data : Bytes) (lastIndex lastTerm : Int) : Raftserver :=
  if data.length < 1 then rf
  else
    { rf with
      snapShot := data, lastIncludedIndex := lastIndex, lastIncludedTerm := lastTerm
      lastApplied := lastIndex }

/-- Reading a snapshot changes neither the log nor what `readPersist` has set. -/
@[simp] theorem readSnapshot_log (rf : Raftserver) (data : Bytes) (i t : Int) :
    (rf.readSnapshot data i t).log = rf.log := by
  rw [readSnapshot]
  split <;> rfl

@[simp] theorem readSnapshot_votedFor (rf : Raftserver) (data : Bytes) (i t : Int) :
    (rf.readSnapshot data i t).votedFor = rf.votedFor := by
  rw [readSnapshot]
  split <;> rfl

@[simp] theorem readSnapshot_currentTerm (rf : Raftserver) (data : Bytes) (i t : Int) :
    (rf.readSnapshot data i t).currentTerm = rf.currentTerm := by
  rw [readSnapshot]
  split <;> rfl

@[simp] theorem readSnapshot_commitIndex (rf : Raftserver) (data : Bytes) (i t : Int) :
    (rf.readSnapshot data i t).commitIndex = rf.commitIndex := by
  rw [readSnapshot]
  split <;> rfl

/-- Without data the indices of the snapshot are not taken over. -/
@[simp] theorem readSnapshot_lastIncludedIndex (rf : Raftserver) (data : Bytes) (i t : Int) :
    (rf.readSnapshot data i t).lastIncludedIndex =
      if data = [] then rf.lastIncludedIndex else i := by
  cases data <;> rfl

@[simp] theorem readSnapshot_lastIncludedTerm (rf : Raftserver) (data : Bytes) (i t : Int) :
    (rf.readSnapshot data i t).lastIncludedTerm =
      if data = [] then rf.lastIncludedTerm else t := by
  cases data <;> rfl

@[simp] theorem readSnapshot_lastApplied (rf : Raftserver) (data : Bytes) (i t : Int) :
    (rf.readSnapshot data i t).lastApplied = if data = [] then rf.lastApplied else i := by
  cases data <;> rfl

/-- What `persist` hands to `Save`, given the entries behind the placeholder. -/
theorem persist_call {rf rf' : Raftserver} {args : SaveArgs} (h : rf.persist = some rf')
    (call : rf'.persister = rf.persister ++ [args]) :
    ∃ (placeholder : Option Entry) (entries : List Entry),
      rf.log = placeholder :: entries.map some ∧
      args = { snapshot := rf.snapShot, votedFor := rf.votedFor, currentTerm := rf.currentTerm
               logs := entries.map persistedEntry, lastIncludeIndex := rf.lastIncludedIndex
               lastTerm := rf.lastIncludedTerm, commitIndex := rf.commitIndex } := by
  rw [persist] at h
  split at h
  · cases h
    simp at call
  · rename_i placeholder rest hlog
    obtain ⟨entries, hentries, rfl⟩ := Option.map_eq_some_iff.mp h
    rw [derefAll_eq_some_iff.mp hentries] at hlog
    exact ⟨placeholder, entries, hlog, by simpa using call.symm⟩

end Raftserver

end Raft

/-- The three stores hold what `Save` was called with. The log may still have an
entry before `FirstIndex`, which the cut of `saveSnapToDisk` leaves, and one behind
`LastIndex`, if the stat file does not name it yet. -/
structure OnDisk {β : Type} (codec : Codec β) (args : SaveArgs) (disk : Disk β) : Prop where
  nonneg : 0 ≤ args.lastIncludeIndex
  stat : disk.stat = some (some
    { firstIndex := args.lastIncludeIndex + 1
      lastIndex := args.lastIncludeIndex + args.logs.length
      lastCommitIndex := args.commitIndex
      votedFor := args.votedFor, currentTerm := args.currentTerm })
  encodable : ∀ e ∈ args.logs, codec.encodable e = true
  log : ∀ k (hk : k < args.logs.length),
    disk.log.read (args.lastIncludeIndex.toNat + 1 + k) = some (codec.marshal args.logs[k])
  snap : disk.snap.load =
    if args.lastIncludeIndex = 0 then none
    else some { rowData := args.snapshot, lastIndex := args.lastIncludeIndex
                lastTerm := args.lastTerm }

instance {β : Type} [DecidableEq β] (codec : Codec β) (args : SaveArgs) (disk : Disk β) :
    Decidable (OnDisk codec args disk) :=
  decidable_of_iff (_ ∧ _ ∧ _ ∧ _ ∧ _)
    ⟨fun ⟨nonneg, stat, coded, log, snap⟩ => ⟨nonneg, stat, coded, log, snap⟩,
      fun ⟨nonneg, stat, coded, log, snap⟩ => ⟨nonneg, stat, coded, log, snap⟩⟩

namespace Persister

variable {β : Type} {codec : Codec β} {disk : Disk β} {args : SaveArgs}

/-- `MakePersister`, `Make` and `startWork` up to the point where the node starts
to take part again. -/
def restart (codec : Codec β) (me : Nat) (peers : List Nat) (disk : Disk β) :
    Option Raftserver :=
  (initFromDisk codec disk).bind fun ps =>
    (ps.readRaftState codec).map fun saved =>
      let rf := (Raftserver.make me peers).readPersist saved.1 saved.2.1 saved.2.2.1 saved.2.2.2
      rf.readSnapshot ps.readSnapshot.1 ps.readSnapshot.2.1 ps.readSnapshot.2.2

/-- With a stat file, loading comes down to reading the log over the range that the
file names. -/
theorem initFromDisk_eq (codec : Codec β) {state : IndexState} (stat : disk.stat = some (some state))
    (hlast : state.lastIndex ≠ -1) :
    initFromDisk codec disk =
      (disk.log.readFrom (state.lastIndex + 1 - max state.firstIndex 1).toNat
        (max state.firstIndex 1).toNat).map fun bs =>
          { disk := disk, state := state, snapshot := disk.snap.load.getD {}
            capacity := (max 100 (state.lastIndex - state.firstIndex + 1)).toNat
            checkSum := fillCheckSum codec
              (List.replicate (max 16 (state.lastIndex - state.firstIndex + 1)).toNat 0)
              (max state.firstIndex 1 - state.firstIndex).toNat bs } := by
  simp only [initFromDisk, Disk.loadState, stat]
  rw [if_neg hlast]

theorem mapM_unmarshal {es : List Entry} (coded : ∀ e ∈ es, codec.encodable e = true) :
    (es.map codec.marshal).mapM codec.unmarshal = some es := by
  induction es with
  | nil => rfl
  | cons e es ih =>
      obtain ⟨here, rest⟩ := List.forall_mem_cons.mp coded
      simp [List.mapM_cons, codec.unmarshal_marshal e here, ih rest]

end Persister

namespace OnDisk

open Persister

variable {β : Type} {codec : Codec β} {disk : Disk β} {args : SaveArgs}
variable (h : OnDisk codec args disk)

include h

/-- The loop that reads the saved range gets the saved entries. -/
theorem readFrom :
    disk.log.readFrom args.logs.length (args.lastIncludeIndex + 1).toNat =
      some (args.logs.map codec.marshal) := by
  have nonneg := h.nonneg
  rw [IndexedLog.readFrom_eq_some_iff]
  refine ⟨List.length_map _, ?_⟩
  intro k hk
  have here := h.log k (by simpa using hk)
  rw [List.getElem_map, ← here]
  congr 1
  omega

/-- Loading gives back the saved indices and the snapshot of the disk. -/
theorem initFromDisk_isSome : ∃ ps, initFromDisk codec disk = some ps ∧ ps.disk = disk ∧
    ps.snapshot = disk.snap.load.getD {} ∧
    ps.state =
      { firstIndex := args.lastIncludeIndex + 1
        lastIndex := args.lastIncludeIndex + args.logs.length
        lastCommitIndex := args.commitIndex
        votedFor := args.votedFor, currentTerm := args.currentTerm } := by
  have nonneg := h.nonneg
  have loaded := initFromDisk_eq codec h.stat
    (by change args.lastIncludeIndex + args.logs.length ≠ -1; omega)
  have start : max (args.lastIncludeIndex + 1) 1 = args.lastIncludeIndex + 1 := by omega
  have count : (args.lastIncludeIndex + args.logs.length + 1 -
      (args.lastIncludeIndex + 1)).toNat = args.logs.length := by omega
  dsimp only at loaded
  rw [start, count, h.readFrom] at loaded
  exact ⟨_, loaded, rfl, rfl, rfl⟩

/-- What a restart recovers. A node without a snapshot, or with an empty one, starts
from index zero. -/
theorem restart_eq (me : Nat) (peers : List Nat) : restart codec me peers disk =
    some (((Raftserver.make me peers).readPersist
      ({ term := args.lastIncludeIndex } :: args.logs)
      args.votedFor args.currentTerm args.commitIndex).readSnapshot
        (if args.lastIncludeIndex = 0 then [] else args.snapshot)
        args.lastIncludeIndex args.lastTerm) := by
  have nonneg := h.nonneg
  obtain ⟨ps, loaded, hdisk, hsnap, hstate⟩ := h.initFromDisk_isSome
  have count : (if 0 < args.lastIncludeIndex + args.logs.length then
      args.lastIncludeIndex + args.logs.length + 1 - (args.lastIncludeIndex + 1)
      else 0).toNat = args.logs.length := by
    split <;> omega
  have first : max (args.lastIncludeIndex + 1 - 1) 0 = args.lastIncludeIndex := by omega
  have read : ps.readRaftState codec =
      some ({ term := args.lastIncludeIndex } :: args.logs,
        args.votedFor, args.currentTerm, args.commitIndex) := by
    simp only [readRaftState, hstate, hdisk, count, h.readFrom, first]
    rw [if_neg (by omega), Option.bind_some, mapM_unmarshal h.encodable, Option.map_some]
  rw [restart, loaded, Option.bind_some, read, Option.map_some]
  simp only [readSnapshot, hsnap, h.snap]
  by_cases hzero : args.lastIncludeIndex = 0
  · simp [hzero, Raftserver.readSnapshot]
  · simp [hzero]

end OnDisk

namespace Raft.Raftserver

/-- `rf'` is a node that came back as `rf`: the same term wherever `rf` has a log
entry or its placeholder, and the same command behind the placeholder. -/
structure Restored (rf rf' : Raftserver) : Prop where
  votedFor : rf'.votedFor = rf.votedFor
  currentTerm : rf'.currentTerm = rf.currentTerm
  commitIndex : rf'.commitIndex = rf.commitIndex
  lastIncludedIndex : rf'.lastIncludedIndex = rf.lastIncludedIndex
  lastIncludedTerm : rf'.lastIncludedTerm = rf.lastIncludedTerm
  term : ∀ i, rf.lastIncludedIndex ≤ i → i ≤ rf.lastIndex →
    (rf'.entryAt i).map Entry.term = (rf.entryAt i).map Entry.term
  command : ∀ i, rf.lastIncludedIndex < i → i ≤ rf.lastIndex →
    (rf'.entryAt i).map Entry.command = (rf.entryAt i).map Entry.command

/-- The states that survive a restart. The placeholder's term has to be the
snapshot's index, every entry needs a command, and a snapshot needs data. -/
structure Restorable (rf : Raftserver) : Prop where
  placeholder : (rf.entryAt rf.lastIncludedIndex).map Entry.term = some rf.lastIncludedIndex
  command : ∀ i e, rf.lastIncludedIndex < i → rf.entryAt i = some e → e.command ≠ none
  term : rf.lastIncludedIndex = 0 → rf.lastIncludedTerm = 0
  snapShot : rf.lastIncludedIndex ≠ 0 → rf.snapShot ≠ []

section Log

variable {rf : Raftserver} {placeholder : Option Entry} {entries : List Entry}
variable (hlog : rf.log = placeholder :: entries.map some)

include hlog

theorem entryAt_placeholder : rf.entryAt rf.lastIncludedIndex = placeholder := by
  simp [entryAt, globalToLocal, deref, hlog]

theorem entryAt_succ (k : Nat) : rf.entryAt (rf.lastIncludedIndex + (k + 1 : Nat)) = entries[k]? := by
  have position : rf.globalToLocal (rf.lastIncludedIndex + (k + 1 : Nat)) = (k + 1 : Nat) := by
    unfold globalToLocal
    omega
  rw [entryAt, position, hlog, deref, if_pos (by omega), Int.toNat_natCast, List.getElem?_cons_succ,
    List.getElem?_map]
  cases entries[k]? <;> rfl

theorem lastIndex_eq : rf.lastIndex = rf.lastIncludedIndex + entries.length := by
  simp [lastIndex, localToGlobal, hlog]
  omega

end Log

/-- The log behind a made-up placeholder of term `lastIncludedIndex`, with the
commands as `persist` saves them, compared with the original. -/
theorem sameLog_iff {rf rf' : Raftserver} {placeholder : Option Entry} {entries : List Entry}
    (hlog : rf.log = placeholder :: entries.map some)
    (hlog' : rf'.log =
      some { term := rf.lastIncludedIndex } :: (entries.map persistedEntry).map some)
    (same : rf'.lastIncludedIndex = rf.lastIncludedIndex) :
    ((∀ i, rf.lastIncludedIndex ≤ i → i ≤ rf.lastIndex →
        (rf'.entryAt i).map Entry.term = (rf.entryAt i).map Entry.term) ∧
      ∀ i, rf.lastIncludedIndex < i → i ≤ rf.lastIndex →
        (rf'.entryAt i).map Entry.command = (rf.entryAt i).map Entry.command) ↔
    (rf.entryAt rf.lastIncludedIndex).map Entry.term = some rf.lastIncludedIndex ∧
      ∀ i e, rf.lastIncludedIndex < i → rf.entryAt i = some e → e.command ≠ none := by
  have first := entryAt_placeholder hlog'
  have later := entryAt_succ hlog'
  rw [same] at first later
  have last := lastIndex_eq hlog
  constructor
  · rintro ⟨terms, commands⟩
    constructor
    · rw [← terms _ (Int.le_refl _) (by omega), first]
      rfl
    · intro i e hi he
      obtain ⟨k, rfl⟩ : ∃ k : Nat, i = rf.lastIncludedIndex + (k + 1 : Nat) :=
        ⟨(i - rf.lastIncludedIndex - 1).toNat, by omega⟩
      have here := he
      rw [entryAt_succ hlog] at here
      obtain ⟨hk, -⟩ := List.getElem?_eq_some_iff.mp here
      have saved := commands _ hi (by omega)
      rw [later, List.getElem?_map, here, he] at saved
      intro absent
      simp [persistedEntry, absent] at saved
  · rintro ⟨term, commands⟩
    -- behind the placeholder both logs are read at the same position
    have behind : ∀ i, rf.lastIncludedIndex < i →
        rf'.entryAt i = (rf.entryAt i).map persistedEntry := by
      intro i hi
      obtain ⟨k, rfl⟩ : ∃ k : Nat, i = rf.lastIncludedIndex + (k + 1 : Nat) :=
        ⟨(i - rf.lastIncludedIndex - 1).toNat, by omega⟩
      rw [later, entryAt_succ hlog, List.getElem?_map]
    constructor
    · intro i hi _
      rcases Int.lt_or_eq_of_le hi with hlt | rfl
      · rw [behind i hlt]
        cases rf.entryAt i <;> rfl
      · rw [first, term]
        rfl
    · intro i hi _
      rw [behind i hi]
      cases he : rf.entryAt i with
      | none => rfl
      | some e =>
          obtain ⟨op, hop⟩ := Option.ne_none_iff_exists'.mp (commands i e hi he)
          simp [persistedEntry, hop]

end Raft.Raftserver

/-- A node whose stores hold what `persist` saved comes back as it was exactly if its
state is one of those that the made-up placeholder and the saved commands describe. -/
theorem Persister.restart_equivalence {β : Type} (codec : Codec β) (me : Nat) (peers : List Nat)
    {rf rf₁ : Raftserver} {args : SaveArgs} {disk : Disk β} (saved : rf.persist = some rf₁)
    (call : rf₁.persister = rf.persister ++ [args]) (stores : OnDisk codec args disk) :
    (∃ rf', restart codec me peers disk = some rf' ∧ rf.Restored rf') ↔ rf.Restorable := by
  obtain ⟨placeholder, entries, hlog, rfl⟩ := Raftserver.persist_call saved call
  rw [stores.restart_eq me peers]
  simp only [Option.some.injEq, exists_eq_left']
  generalize hdata : (if rf.lastIncludedIndex = 0 then [] else rf.snapShot) = data
  generalize hrf : ((Raftserver.make me peers).readPersist
    ({ term := rf.lastIncludedIndex } :: entries.map persistedEntry) rf.votedFor
    rf.currentTerm rf.commitIndex).readSnapshot data rf.lastIncludedIndex
    rf.lastIncludedTerm = rf'
  have hlog' : rf'.log =
      some { term := rf.lastIncludedIndex } :: (entries.map persistedEntry).map some := by
    rw [← hrf]
    simp [Raftserver.readPersist]
  have hindex : rf'.lastIncludedIndex = if data = [] then 0 else rf.lastIncludedIndex := by
    rw [← hrf, Raftserver.readSnapshot_lastIncludedIndex]
    rfl
  have hterm : rf'.lastIncludedTerm = if data = [] then 0 else rf.lastIncludedTerm := by
    rw [← hrf, Raftserver.readSnapshot_lastIncludedTerm]
    rfl
  constructor
  · intro h
    have hlogs := (Raftserver.sameLog_iff hlog hlog' h.lastIncludedIndex).mp ⟨h.term, h.command⟩
    refine ⟨hlogs.1, hlogs.2, ?_, ?_⟩
    · intro hzero
      rw [if_pos hzero] at hdata
      rw [← h.lastIncludedTerm, hterm, if_pos hdata.symm]
    · intro hne hempty
      rw [if_neg hne, hempty] at hdata
      rw [if_pos hdata.symm] at hindex
      exact hne (h.lastIncludedIndex.symm.trans hindex)
  · intro h
    have same : rf'.lastIncludedIndex = rf.lastIncludedIndex ∧
        rf'.lastIncludedTerm = rf.lastIncludedTerm := by
      rw [hindex, hterm, ← hdata]
      by_cases hzero : rf.lastIncludedIndex = 0
      · simp [hzero, h.term hzero]
      · simp [hzero, h.snapShot hzero]
    have hlogs := (Raftserver.sameLog_iff hlog hlog' same.1).mpr ⟨h.placeholder, h.command⟩
    refine ⟨?_, ?_, ?_, same.1, same.2, hlogs.1, hlogs.2⟩ <;>
      simp [← hrf, Raftserver.readPersist]

/-- A leader of term two that has appended one entry. -/
def writer : Raftserver :=
  { me := 0, peers := [1, 2], role := .leader, currentTerm := 2, votedFor := some 0
    log := [some {}, some { term := 2, command := some { incrId := 1 } }] }

/-- The same leader after it has committed the entry and taken a snapshot of it. -/
def compacted : Raftserver :=
  { writer with
    commitIndex := 1, lastApplied := 1, snapShot := [7], lastIncludedIndex := 1
    lastIncludedTerm := 2, log := [some { term := 2, command := some { incrId := 1 } }] }

/-- What a server hands to `Save` next. -/
def nextSave (rf : Raftserver) : Option SaveArgs :=
  rf.persist.bind fun rf => rf.persister.getLast?

/-- A fresh persister that is given the writer's log and writes its one entry. -/
def persistedEntries : Option (Persister Entry) :=
  (Persister.initFromDisk entryCodec {}).bind fun ps =>
    ((nextSave writer).bind (ps.save entryCodec)).bind (Persister.saveLogToDisk entryCodec)

/-- The same persister when the snapshot has been handed over and stored as well. -/
def persistedSnapshot : Option (Persister Entry) :=
  persistedEntries.bind fun ps =>
    ((nextSave compacted).bind (ps.save entryCodec)).bind Persister.saveSnapToDisk

theorem Persister.restart_equivalence_first_entry :
    ∃ ps, persistedEntries = some ps ∧ writer.Restorable ∧
      ∃ rf', restart entryCodec 0 [1, 2] ps.disk = some rf' ∧ writer.Restored rf' := by
  obtain ⟨ps, hps, hstores⟩ := (Option.any_eq_true _ _).mp
    (by decide +kernel : (persistedEntries.any fun ps =>
      (nextSave writer).any fun args => decide (OnDisk entryCodec args ps.disk)) = true)
  obtain ⟨args, hargs, stores⟩ := (Option.any_eq_true _ _).mp hstores
  cases hargs
  have restorable : writer.Restorable := by
    refine ⟨rfl, ?_, fun _ => rfl, fun h => absurd rfl h⟩
    intro i e hi he
    obtain ⟨k, rfl⟩ : ∃ k : Nat, i = writer.lastIncludedIndex + (k + 1 : Nat) :=
      ⟨(i - writer.lastIncludedIndex - 1).toNat, by omega⟩
    have log : writer.log =
        some {} :: [({ term := 2, command := some { incrId := 1 } } : Entry)].map some := rfl
    rw [Raftserver.entryAt_succ log] at he
    rw [List.mem_singleton.mp (List.mem_of_getElem? he)]
    exact Option.some_ne_none _
  exact ⟨ps, hps, restorable,
    (restart_equivalence entryCodec 0 [1, 2] rfl rfl (of_decide_eq_true stores)).mpr restorable⟩

/-- The snapshot's index is one and its term is two: the placeholder of the restarted
node has term one. -/
theorem Persister.placeholder_loses_term :
    ∃ ps args, persistedSnapshot = some ps ∧ nextSave compacted = some args ∧
      OnDisk entryCodec args ps.disk ∧
      ∃ rf', restart entryCodec 0 [1, 2] ps.disk = some rf' ∧
        (compacted.entryAt 1).map Entry.term = some 2 ∧
        (rf'.entryAt 1).map Entry.term = some 1 ∧ ¬ compacted.Restored rf' := by
  obtain ⟨ps, hps, h⟩ := (Option.any_eq_true _ _).mp
    (by decide +kernel : (persistedSnapshot.any fun ps =>
      (nextSave compacted).any fun args => decide (OnDisk entryCodec args ps.disk) &&
        (restart entryCodec 0 [1, 2] ps.disk).any fun rf' =>
          decide ((rf'.entryAt 1).map Entry.term = some 1)) = true)
  obtain ⟨args, hargs, h⟩ := (Option.any_eq_true _ _).mp h
  obtain ⟨stores, h⟩ := Bool.and_eq_true_iff.mp h
  obtain ⟨rf', hrf, hterm⟩ := (Option.any_eq_true _ _).mp h
  refine ⟨ps, args, hps, hargs, of_decide_eq_true stores, rf', hrf, rfl,
    of_decide_eq_true hterm, ?_⟩
  intro restored
  have same := restored.term 1 (by decide) (by decide)
  rw [of_decide_eq_true hterm] at same
  exact absurd same (by decide)

end RaftKv
