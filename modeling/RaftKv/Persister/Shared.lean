import RaftKv.Library.Unwinding
import RaftKv.Persister.Crash

/-!
# Persisters in one working directory

`StartServer` makes the persisters of all nodes in one process. The directory of the log
and the name of the stat file contain the id of the node; the directory of the snapshots
is `./snap` for all of them. What a node writes to its log and its stat file is therefore
its own, while `Load` takes the newest snapshot of any node.

The sections of different persisters interleave freely. Two runs in which a node does the
same are the same to it, in the sense of `Library.Unwinding`: always as far as its log, its
vote and its term are concerned, and with the snapshot if the others never put a newer one
into the directory.
-/

namespace RaftKv

open Library (IndexedLog enabled_some)
open Raft (Bytes Entry SaveArgs)

/-! ### The files -/

/-- The argument of `wal.Open`. -/
def logDir (id : Nat) : String := "./log/" ++ id.repr

/-- `path.Join(STATNAME, strconv.Itoa(id)+STATSUFFIX)`. -/
def statName (id : Nat) : String := "stat/" ++ (id.repr ++ "state")

/-- The argument of `NewSnapshotter`. -/
def snapDir : String := "./snap"

/-- The stores of the working directory by their paths. -/
structure Files (β : Type) where
  stat : String → Option (Option IndexState) := fun _ => none
  log : String → IndexedLog β := fun _ => .empty
  snap : String → SnapDir := fun _ => []

variable {β : Type}

namespace Files

/-- What the persister of a node finds. -/
def disk (files : Files β) (id : Nat) : Disk β :=
  { stat := files.stat (statName id), log := files.log (logDir id), snap := files.snap snapDir }

/-- What it leaves. -/
def store (files : Files β) (id : Nat) (disk : Disk β) : Files β :=
  { stat := Function.update files.stat (statName id) disk.stat
    log := Function.update files.log (logDir id) disk.log
    snap := Function.update files.snap snapDir disk.snap }

end Files

/-- All persisters of a process. The files are shared, and what each of them has in memory
is its own. -/
structure Shared (β : Type) where
  files : Files β
  memory : Nat → Persister β

namespace Shared

variable (codec : Codec β)

/-- A persister over the files. -/
def persister (s : Shared β) (id : Nat) : Persister β :=
  { s.memory id with disk := s.files.disk id }

/-- One section of the persister of a node. -/
def step (s : Shared β) (a : Nat × Section) : Option (Shared β) :=
  ((s.persister a.1).turn codec (.run a.2)).map fun ps =>
    { files := s.files.store a.1 ps.disk, memory := Function.update s.memory a.1 ps }

/-- What `MakePersister` recovers for a node: the snapshot with its index and term, and the
log with the vote, the term and the commit index. -/
def recovered (s : Shared β) (id : Nat) :
    Option ((Bytes × Int × Int) × List Entry × Option Nat × Int × Int) :=
  (Persister.initFromDisk codec (s.files.disk id)).bind fun ps =>
    (ps.readRaftState codec).map fun saved => (ps.readSnapshot, saved)

end Shared

/-! ### One section and the snapshots -/

namespace Persister

/-- The persister with the given files in its snapshot directory. -/
def withSnap (ps : Persister β) (snap : SnapDir) : Persister β :=
  { ps with disk := { ps.disk with snap := snap } }

/-- The persister with more files behind those that it knows of. -/
def extend (snap : SnapDir) (ps : Persister β) : Persister β :=
  ps.withSnap (ps.disk.snap ++ snap)

variable (codec : Codec β) (snap : SnapDir) (ps : Persister β)

@[simp] theorem extend_state : (ps.extend snap).state = ps.state := rfl

@[simp] theorem extend_snapshot : (ps.extend snap).snapshot = ps.snapshot := rfl

@[simp] theorem extend_lastIdx : (ps.extend snap).lastIdx = ps.lastIdx := rfl

@[simp] theorem extend_entryCh : (ps.extend snap).entryCh = ps.entryCh := rfl

theorem saveSnap_extend : (ps.extend snap).saveSnap = ps.saveSnap.extend snap := by
  rw [saveSnap, saveSnap, extend_snapshot]
  split <;> rfl

theorem truncateFront_extend :
    (ps.extend snap).truncateFront = ps.truncateFront.map (extend snap) := by
  rw [truncateFront, truncateFront, Option.map_map]
  rfl

theorem saveSnapToDisk_extend :
    (ps.extend snap).saveSnapToDisk = ps.saveSnapToDisk.map (extend snap) := by
  rw [saveSnapToDisk, saveSnapToDisk, extend_snapshot, extend_lastIdx]
  split
  · rfl
  · rw [saveSnap_extend, truncateFront_extend, Option.bind_map, Option.map_bind]
    congr 1
    funext q
    simp only [Function.comp_apply, Option.map_map]
    rfl

theorem truncateBack_extend (index : Int) :
    (ps.extend snap).truncateBack index = (ps.truncateBack index).map (extend snap) := by
  rw [truncateBack, truncateBack, Option.map_bind]
  congr 1
  funext log
  rw [Function.comp_apply, Option.map_map]
  rfl

theorem makeRoom_extend (index : Int) :
    (ps.extend snap).makeRoom index = (ps.makeRoom index).map (extend snap) := by
  rw [makeRoom, makeRoom, extend_state, extend_snapshot, saveSnapToDisk_extend,
    truncateBack_extend]
  split
  · rfl
  · split <;> rfl

theorem writeOrDrop_extend (index : Int) (b : β) :
    writeOrDrop codec index b (ps.extend snap) = (writeOrDrop codec index b ps).extend snap := by
  have write : (ps.extend snap).write codec index b =
      (ps.write codec index b).map (extend snap) := by
    rw [Persister.write, Persister.write, Option.map_map]
    rfl
  rw [writeOrDrop, writeOrDrop, write]
  cases ps.write codec index b <;> rfl

theorem saveLogToDisk_extend :
    (ps.extend snap).saveLogToDisk codec = (ps.saveLogToDisk codec).map (extend snap) := by
  rw [saveLogToDisk, saveLogToDisk, extend_entryCh]
  cases hqueue : ps.entryCh with
  | nil => rfl
  | cons p rest =>
      have room := makeRoom_extend snap { ps with entryCh := rest } p.1
      change (makeRoom (extend snap { ps with entryCh := rest }) p.1).map _ = _
      rw [room, Option.map_map, Option.map_map]
      congr 1
      funext q
      exact writeOrDrop_extend codec snap q p.1 p.2

theorem save_extend (args : SaveArgs) :
    (ps.extend snap).save codec args = (ps.save codec args).map (extend snap) := by
  rw [save, save, Option.map_bind]
  congr 1
  · refine filter_congr ?_ ?_ _ _ <;> rfl
  funext entries
  dsimp only [Function.comp_apply]
  rw [apply_ite (Option.map (extend snap))]
  rfl

/-- A section puts at most files in front of those that are there, and does not look at
them. -/
theorem turn_extend (a : Section) :
    (ps.extend snap).turn codec (.run a) = (ps.turn codec (.run a)).map (extend snap) := by
  cases a with
  | save args => exact save_extend codec snap ps args
  | saveLogToDisk => exact saveLogToDisk_extend codec snap ps
  | saveSnapClock => exact saveSnapToDisk_extend snap ps

/-- What is loaded besides the snapshot does not depend on the snapshot files. -/
theorem initFromDisk_snap (disk : Disk β) :
    initFromDisk codec { disk with snap := snap } =
      (initFromDisk codec { disk with snap := [] }).map fun ps =>
        { ps.withSnap snap with snapshot := snap.load.getD {} } := by
  obtain ⟨stat, log, -⟩ := disk
  rcases stat with _ | _ | state
  · rfl
  · rfl
  · rw [initFromDisk, initFromDisk, Disk.loadState, Disk.loadState]
    dsimp only
    split
    · rfl
    · rw [Option.map_map]
      rfl

/-- The section is about to write the snapshot that the persister has in memory. -/
def WritesSnap : Section → Prop
  | .save _ => False
  | .saveLogToDisk => ps.entryCh ≠ [] ∧ ps.state.lastIndex < ps.snapshot.lastIndex ∧
      ps.snapshot.lastIndex ≠ ps.lastIdx ∧ ps.snapshot.lastIndex ≠ 0
  | .saveSnapClock => ps.snapshot.lastIndex ≠ ps.lastIdx ∧ ps.snapshot.lastIndex ≠ 0

instance (a : Section) : Decidable (ps.WritesSnap a) :=
  match a with
  | .save _ => isFalse id
  | .saveLogToDisk => inferInstanceAs (Decidable (_ ∧ _ ∧ _ ∧ _))
  | .saveSnapClock => inferInstanceAs (Decidable (_ ∧ _))

variable {codec ps} {ps' : Persister β}

theorem saveSnapToDisk_snap (h : ps.saveSnapToDisk = some ps') :
    ps'.disk.snap = ps.disk.snap ∨
      ((ps.snapshot.lastIndex ≠ ps.lastIdx ∧ ps.snapshot.lastIndex ≠ 0) ∧
        ps'.disk.snap = ps.snapshot :: ps.disk.snap) := by
  obtain ⟨-, rfl⟩ | ⟨other, log, sums, -, -, rfl⟩ := saveSnapToDisk_outcome h
  · exact .inl rfl
  · by_cases zero : ps.snapshot.lastIndex = 0
    · exact .inl (if_pos zero)
    · exact .inr ⟨⟨other, zero⟩, if_neg zero⟩

/-- No other file gets into the directory. -/
theorem turn_snap {a : Section} (h : ps.turn codec (.run a) = some ps') :
    ps'.disk.snap = ps.disk.snap ∨
      (ps.WritesSnap a ∧ ps'.disk.snap = ps.snapshot :: ps.disk.snap) := by
  cases a with
  | save args =>
      obtain ⟨entries, -, h⟩ := Option.bind_eq_some_iff.mp h
      obtain ⟨-, rfl⟩ := enabled_some.mp h
      exact .inl rfl
  | saveSnapClock => exact saveSnapToDisk_snap h
  | saveLogToDisk =>
      obtain ⟨index, b, rest, q, queue, room, rfl⟩ := saveLogToDisk_outcome h
      have written : (writeOrDrop codec index b q).disk.snap = q.disk.snap := by
        rw [writeOrDrop]
        cases wrote : q.write codec index b with
        | none => rfl
        | some r =>
            obtain ⟨log, -, rfl⟩ := Option.map_eq_some_iff.mp wrote
            rfl
      rw [written]
      obtain ⟨ahead, saved⟩ | ⟨-, ⟨-, cut⟩ | ⟨-, rfl⟩⟩ := makeRoom_outcome room
      · refine (saveSnapToDisk_snap saved).imp id fun wrote => ⟨⟨?_, ahead, wrote.1⟩, wrote.2⟩
        rw [queue]
        exact List.cons_ne_nil _ _
      · obtain ⟨log, -, cut⟩ := Option.bind_eq_some_iff.mp cut
        obtain ⟨sums, -, rfl⟩ := Option.map_eq_some_iff.mp cut
        exact .inl rfl
      · exact .inl rfl

end Persister

/-- A file that comes before the newest one, or is the same, leaves it the newest. -/
theorem SnapDir.load_cons {snap : SnapDir} {s t : Snapshot} (newest : snap.load = some t)
    (before : s.NamedBefore t ∨ s = t) : SnapDir.load (s :: snap) = some t := by
  rw [load, newest]
  rcases before with before | rfl
  · exact congrArg some (if_pos before)
  · exact congrArg some (ite_self s)

/-- The newest snapshot depends on the newest one of the older files. -/
theorem SnapDir.load_append {snap snap' : SnapDir} (h : snap.load = snap'.load) (new : SnapDir) :
    SnapDir.load (new ++ snap) = SnapDir.load (new ++ snap') := by
  induction new with
  | nil => exact h
  | cons s new ih => rw [List.cons_append, List.cons_append, load, load, ih]

/-- `strconv.Itoa` tells the nodes apart. -/
theorem repr_injective {a b : Nat} (h : a.repr = b.repr) : a = b := by
  rw [Nat.repr_eq_ofList_toDigits, Nat.repr_eq_ofList_toDigits, String.ofList_inj] at h
  rw [← @Nat.ofDigitChars_ten_toDigits a, h, Nat.ofDigitChars_ten_toDigits]

theorem logDir_injective {a b : Nat} (h : logDir a = logDir b) : a = b :=
  repr_injective ((String.append_right_inj _).mp h)

theorem statName_injective {a b : Nat} (h : statName a = statName b) : a = b :=
  repr_injective ((String.append_left_inj _).mp ((String.append_right_inj _).mp h))

/-! ### What is a node's own -/

namespace Shared

variable {codec : Codec β} {s t : Shared β} {a : Nat}

/-- Everything that the persister of a node works on, without the snapshot files. -/
def own (a : Nat) (s : Shared β) : Persister β := (s.persister a).withSnap []

/-- The snapshot that any node would load. -/
def newest (s : Shared β) : Option Snapshot := (s.files.snap snapDir).load

/-- A step of the node itself. -/
theorem step_self {x : Section} (hstep : s.step codec (a, x) = some t) :
    ∃ ps, (s.own a).turn codec (.run x) = some ps ∧ t.own a = ps.withSnap [] ∧
      t.files.snap snapDir = ps.disk.snap ++ s.files.snap snapDir := by
  have view : s.persister a = (s.own a).extend (s.files.snap snapDir) := rfl
  rw [step, view, Persister.turn_extend, Option.map_map] at hstep
  obtain ⟨ps, hturn, rfl⟩ := Option.map_eq_some_iff.mp hstep
  refine ⟨ps, hturn, ?_, ?_⟩
  · simp only [own, persister, Files.disk, Files.store, Function.comp_apply, Function.update_self]
    rfl
  · change Function.update s.files.snap snapDir _ snapDir = _
    rw [Function.update_self]
    rfl

/-- A step of another node. -/
theorem step_other {b : Nat} {x : Section} (hne : b ≠ a) (hstep : s.step codec (b, x) = some t) :
    t.own a = s.own a := by
  have hlog : logDir a ≠ logDir b := fun h => hne (logDir_injective h).symm
  have hstat : statName a ≠ statName b := fun h => hne (statName_injective h).symm
  obtain ⟨ps, -, rfl⟩ := Option.map_eq_some_iff.mp hstep
  simp only [own, persister, Files.disk, Files.store, Function.update_of_ne hlog,
    Function.update_of_ne hstat, Function.update_of_ne hne.symm]
  rfl

/-- What is recovered is the node's own, but for the newest snapshot. -/
theorem recovered_eq (codec : Codec β) (s : Shared β) (a : Nat) :
    s.recovered codec a =
      (Persister.initFromDisk codec (s.own a).disk).bind fun ps =>
        (ps.readRaftState codec).map fun saved =>
          (({ ps with snapshot := s.newest.getD {} } : Persister β).readSnapshot, saved) := by
  have disk : s.files.disk a = { (s.own a).disk with snap := s.files.snap snapDir } := rfl
  rw [recovered, disk, Persister.initFromDisk_snap, Option.bind_map]
  rfl

/-- If another node is about to write its snapshot, there is one with a later name in the
directory already, or the same one. -/
def Quiet (a : Nat) (s : Shared β) (x : Nat × Section) : Prop :=
  x.1 ≠ a → (s.persister x.1).WritesSnap x.2 →
    ∃ newest ∈ s.newest, (s.memory x.1).snapshot.NamedBefore newest ∨
      (s.memory x.1).snapshot = newest

/-- Then the newest snapshot is not changed. -/
theorem Quiet.newest_eq {x : Nat × Section} (quiet : Quiet a s x) (hne : x.1 ≠ a)
    (hstep : s.step codec x = some t) : t.newest = s.newest := by
  obtain ⟨ps, hturn, rfl⟩ := Option.map_eq_some_iff.mp hstep
  have files : (s.files.store x.1 ps.disk).snap snapDir = ps.disk.snap := by
    change Function.update s.files.snap snapDir ps.disk.snap snapDir = _
    rw [Function.update_self]
  rw [newest, files]
  rcases Persister.turn_snap hturn with same | ⟨writes, new⟩
  · exact congrArg SnapDir.load same
  · obtain ⟨newest, hnewest, before⟩ := quiet hne writes
    rw [new, Option.mem_def.mp hnewest]
    exact SnapDir.load_cons hnewest before

theorem unwinding_own (codec : Codec β) (a : Nat) :
    Library.Unwinding (step codec) (fun _ _ => True) (fun x => decide (x.1 = a))
      (fun s t => s.own a = t.own a) where
  equivalence := ⟨fun _ => rfl, Eq.symm, Eq.trans⟩
  others hother _ hstep := (step_other (of_decide_eq_false hother) hstep).symm
  consistent := by
    rintro s s' t t' ⟨b, x⟩ howner same hstep hstep'
    cases of_decide_eq_true howner
    obtain ⟨ps, hturn, hown, -⟩ := step_self hstep
    obtain ⟨ps', hturn', hown', -⟩ := step_self hstep'
    rw [same, hturn'] at hturn
    cases hturn
    rw [hown, hown']

theorem unwinding_newest (codec : Codec β) (a : Nat) :
    Library.Unwinding (step codec) (Quiet a) (fun x => decide (x.1 = a))
      (fun s t => s.own a = t.own a ∧ s.newest = t.newest) where
  equivalence := ⟨fun _ => ⟨rfl, rfl⟩, fun h => ⟨h.1.symm, h.2.symm⟩,
    fun h h' => ⟨h.1.trans h'.1, h.2.trans h'.2⟩⟩
  others := by
    rintro s t ⟨b, x⟩ hother quiet hstep
    have hne := of_decide_eq_false hother
    exact ⟨(step_other hne hstep).symm, (quiet.newest_eq hne hstep).symm⟩
  consistent := by
    rintro s s' t t' ⟨b, x⟩ howner ⟨same, newest⟩ hstep hstep'
    cases of_decide_eq_true howner
    obtain ⟨ps, hturn, hown, hfiles⟩ := step_self hstep
    obtain ⟨ps', hturn', hown', hfiles'⟩ := step_self hstep'
    rw [same, hturn'] at hturn
    cases hturn
    refine ⟨by rw [hown, hown'], ?_⟩
    rw [Shared.newest, Shared.newest, hfiles, hfiles']
    exact SnapDir.load_append newest _

/-- **Persisters of different nodes.** Two runs from the same state in which a node does the
same recover the same log, vote, term and commit index for it. If the steps of the others
never write a snapshot that comes behind the newest one, they recover the same snapshot as
well. -/
theorem persisters_independent {xs ys : List (Nat × Section)} {s t u : Shared β}
    (same : xs.filter (fun x => decide (x.1 = a)) = ys.filter fun y => decide (y.1 = a))
    (hxs : Library.run (step codec) s xs = some t) (hys : Library.run (step codec) s ys = some u) :
    (t.recovered codec a).map Prod.snd = (u.recovered codec a).map Prod.snd ∧
      (Library.Allowed (step codec) (Quiet a) s xs → Library.Allowed (step codec) (Quiet a) s ys →
        t.recovered codec a = u.recovered codec a) := by
  constructor
  · have free := @Library.Allowed.of_forall _ _ (step codec) _ (fun _ _ => trivial) s
    have own := (unwinding_own codec a).run rfl same (free xs) (free ys) hxs hys
    rw [recovered_eq, recovered_eq, own, Option.map_bind, Option.map_bind]
    congr 1
    funext ps
    rw [Function.comp_apply, Function.comp_apply, Option.map_map, Option.map_map]
    rfl
  · intro quiet quiet'
    obtain ⟨own, newest⟩ := (unwinding_newest codec a).run ⟨rfl, rfl⟩ same quiet quiet' hxs hys
    rw [recovered_eq, recovered_eq, own, newest]

instance (a : Nat) (s : Shared β) (x : Nat × Section) : Decidable (Quiet a s x) :=
  inferInstanceAs (Decidable (_ → _ → ∃ newest ∈ s.newest, _))

/-- Nodes zero and one, made by `MakePersister` in an empty directory. -/
def twoNodes : Shared Entry :=
  { files :=
      { stat := Function.update (Function.update (fun _ => none) (statName 0) (some none))
          (statName 1) (some none) }
    memory := fun _ => (Saving.start entryCodec).ps }

/-- Both nodes save an entry, and the writer of node zero stores it. -/
theorem persisters_independent_entry :
    ∃ t u, Library.run (step entryCodec) twoNodes
        [(0, Saving.saveLogs [Saving.entryOf 1 1] 0), (0, .saveLogToDisk)] = some t ∧
      Library.run (step entryCodec) twoNodes
        [(1, Saving.saveLogs [Saving.entryOf 2 5] 0), (0, Saving.saveLogs [Saving.entryOf 1 1] 0),
          (1, .saveLogToDisk), (0, .saveLogToDisk), (1, .saveSnapClock)] = some u ∧
      t.recovered entryCodec 0 = u.recovered entryCodec 0 := by
  obtain ⟨t, ht⟩ : ∃ t, Library.run (step entryCodec) twoNodes
      [(0, Saving.saveLogs [Saving.entryOf 1 1] 0), (0, .saveLogToDisk)] = some t :=
    Option.isSome_iff_exists.mp (by decide +kernel)
  obtain ⟨u, hu⟩ : ∃ u, Library.run (step entryCodec) twoNodes
      [(1, Saving.saveLogs [Saving.entryOf 2 5] 0), (0, Saving.saveLogs [Saving.entryOf 1 1] 0),
        (1, .saveLogToDisk), (0, .saveLogToDisk), (1, .saveSnapClock)] = some u :=
    Option.isSome_iff_exists.mp (by decide +kernel)
  exact ⟨t, u, ht, hu,
    (persisters_independent (a := 0) (by rfl) ht hu).2 (by decide +kernel) (by decide +kernel)⟩

/-- A snapshot at index one. -/
def saveSnapshot : Section :=
  .save { snapshot := [7], votedFor := none, currentTerm := 1, logs := [], lastIncludeIndex := 1
          lastTerm := 1, commitIndex := 1 }

/-- Node zero does nothing at all, and recovers the snapshot of node one. -/
theorem snapshot_of_another_node :
    let ys := [(1, Saving.saveLogs [Saving.entryOf 1 1] 0), (1, .saveLogToDisk), (1, saveSnapshot),
      (1, .saveSnapClock)]
    ys.filter (fun y => decide (y.1 = 0)) = [] ∧
      (Library.run (step entryCodec) twoNodes []).bind (·.recovered entryCodec 0) =
        some (([], 0, 0), [{ term := 0 }], none, 0, 0) ∧
      (Library.run (step entryCodec) twoNodes ys).bind (·.recovered entryCodec 0) =
        some (([7], 1, 1), [{ term := 0 }], none, 0, 0) := by
  refine ⟨rfl, ?_, ?_⟩
  · decide +kernel
  · decide +kernel

end Shared

end RaftKv
