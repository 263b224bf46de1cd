import RaftKv.Persister.Writer

/-!
# Crashes between two writes to the disk

The stat file, the log and the snapshot files are changed one after another. A crash
can come after each single change, and the stores are then read by a new process as
they are. `diskAfter` lists these points, `Recovers` says what a restart should find,
and `Safe` is the exact condition under which it does.

Between two sections the stores agree with each other and with the fields (`Sound`,
`Aligned`, `Settled`). This is kept by whole sections, and by crashes at safe points
with the restart that follows, as long as the snapshots handed to `Save` never go back.
-/

namespace RaftKv

open Library (IndexedLog Reaches enabled_map enabled_some)
open Raft (Bytes Entry SaveArgs Raftserver)

namespace Persister

variable {β : Type}

/-- A restart does not abort, the snapshot ends where the log starts, and every
recovered entry has the index under which it is in the log on disk. -/
def Recovers (codec : Codec β) (me : Nat) (peers : List Nat) (disk : Disk β) : Prop :=
  ∃ ps rf, initFromDisk codec disk = some ps ∧ restart codec me peers disk = some rf ∧
    ps.snapshot.lastIndex = ps.state.firstIndex - 1 ∧
    ∀ (k : Nat) (e : Entry), rf.log[k + 1]? = some (some e) →
      (disk.log.read (rf.lastIncludedIndex + (k + 1 : Nat)).toNat).bind codec.unmarshal = some e

variable {codec : Codec β} {me : Nat} {peers : List Nat} {disk : Disk β} {ps ps' : Persister β}

theorem mapM_of_coded {bs : List β} (coded : ∀ b ∈ bs, (codec.unmarshal b).isSome) :
    ∃ es, bs.mapM codec.unmarshal = some es ∧ es.length = bs.length ∧
      ∀ k : Nat, es[k]? = bs[k]?.bind codec.unmarshal := by
  induction bs with
  | nil => exact ⟨[], rfl, rfl, fun _ => rfl⟩
  | cons b bs ih =>
      obtain ⟨es, hes, length, values⟩ := ih fun b hb => coded b (List.mem_cons_of_mem _ hb)
      obtain ⟨e, he⟩ := Option.isSome_iff_exists.mp (coded b List.mem_cons_self)
      refine ⟨e :: es, by simp [List.mapM_cons, he, hes], by simpa using length, ?_⟩
      rintro (_ | k)
      · simp [he]
      · simpa using values k

/-- What is read from a log of marshalled entries can be unmarshalled, and each entry is
the one of its index. -/
theorem mapM_of_readFrom {log : IndexedLog β} {count i : Nat} {bs : List β}
    (coded : ∀ b ∈ log.entries, (codec.unmarshal b).isSome)
    (hbs : log.readFrom count i = some bs) :
    ∃ es, bs.mapM codec.unmarshal = some es ∧ es.length = count ∧
      ∀ (k : Nat) (e : Entry), es[k]? = some e →
        (log.read (i + k)).bind codec.unmarshal = some e := by
  obtain ⟨count, reads⟩ := IndexedLog.readFrom_eq_some_iff.mp hbs
  have members : ∀ b ∈ bs, (codec.unmarshal b).isSome := by
    intro b hb
    obtain ⟨k, hk, rfl⟩ := List.getElem_of_mem hb
    exact coded _ (IndexedLog.mem_of_read (reads k hk))
  obtain ⟨es, hes, length, values⟩ := mapM_of_coded members
  refine ⟨es, hes, length.trans count, ?_⟩
  intro k e value
  rw [values k] at value
  obtain ⟨b, hb, hunmarshal⟩ := Option.bind_eq_some_iff.mp value
  obtain ⟨hk, rfl⟩ := List.getElem?_eq_some_iff.mp hb
  rw [reads k hk, Option.bind_some, hunmarshal]

variable {state : IndexState}

/-- The range does not have a negative size, which `ReadRaftState` could not make a slice
of. -/
def Dense (state : IndexState) : Prop := state.firstIndex ≤ state.lastIndex + 1

/-- A restart that can read the log has it behind the placeholder, from the index of
the snapshot on, and everything up to that index counts as applied. -/
theorem restart_of_readFrom (me : Nat) (peers : List Nat) (stat : disk.stat = some (some state))
    (first : 1 ≤ state.firstIndex) (last : 0 ≤ state.lastIndex) (dense : Dense state)
    (data : (disk.snap.load.getD {}).lastIndex ≠ 0 → (disk.snap.load.getD {}).rowData ≠ [])
    {bs : List β} {es : List Entry}
    (hbs : disk.log.readFrom (state.lastIndex + 1 - state.firstIndex).toNat
      state.firstIndex.toNat = some bs) (hes : bs.mapM codec.unmarshal = some es) :
    ∃ rf, restart codec me peers disk = some rf ∧
      rf.log = some { term := max (state.firstIndex - 1) 0 } :: es.map some ∧
      rf.lastIncludedIndex = (disk.snap.load.getD {}).lastIndex ∧
      rf.lastApplied = rf.lastIncludedIndex ∧ rf.commitIndex = state.lastCommitIndex := by
  have start : max state.firstIndex 1 = state.firstIndex := by omega
  -- `ReadRaftState` goes through the range that `initFromDisk` has read
  have count : (if 0 < state.lastIndex then state.lastIndex + 1 - state.firstIndex
      else 0).toNat = (state.lastIndex + 1 - state.firstIndex).toNat := by
    split <;> omega
  refine ⟨_, by
    rw [restart, initFromDisk_eq codec stat (by omega), start, hbs, Option.map_some,
      Option.bind_some]
    rw [Dense] at dense
    simp only [readRaftState, count, hbs]
    rw [if_neg (by omega), Option.bind_some, hes, Option.map_some, Option.map_some], ?_, ?_, ?_, ?_⟩
  · simp [Raftserver.readPersist]
  · rw [Raftserver.readSnapshot_lastIncludedIndex]
    split
    · rename_i hempty
      exact (not_not.mp fun hne => data hne hempty).symm
    · rfl
  · rw [Raftserver.readSnapshot_lastIncludedIndex, Raftserver.readSnapshot_lastApplied]
    split <;> rfl
  · rw [Raftserver.readSnapshot_commitIndex]
    rfl

/-- A range of negative size makes `ReadRaftState` panic. -/
theorem restart_of_not_dense (me : Nat) (peers : List Nat) (stat : disk.stat = some (some state))
    (last : 0 ≤ state.lastIndex) (gap : ¬ Dense state) : restart codec me peers disk = none := by
  rw [Dense] at gap
  rw [restart, initFromDisk_eq codec stat (by omega), Option.bind_map]
  refine Option.bind_eq_none_iff.mpr fun bs _ => ?_
  dsimp only [Function.comp_apply]
  rw [readRaftState, if_pos (by dsimp only; omega), Option.map_none]

/-- With a stat file, recovery depends on three things: the range it names must not have a
negative size, it has to be in the log, and it has to start behind the snapshot. -/
theorem recovers_iff (stat : disk.stat = some (some state))
    (first : 1 ≤ state.firstIndex) (last : 0 ≤ state.lastIndex)
    (coded : ∀ b ∈ disk.log.entries, (codec.unmarshal b).isSome)
    (data : (disk.snap.load.getD {}).lastIndex ≠ 0 → (disk.snap.load.getD {}).rowData ≠ []) :
    Recovers codec me peers disk ↔
      Dense state ∧
      (state.lastIndex < state.firstIndex ∨
        ((disk.log.firstIndex : Int) ≤ state.firstIndex ∧
          state.lastIndex ≤ disk.log.lastIndex)) ∧
      (disk.snap.load.getD {}).lastIndex = state.firstIndex - 1 := by
  have loaded := initFromDisk_eq codec stat (by omega)
  have start : max state.firstIndex 1 = state.firstIndex := by omega
  rw [start] at loaded
  have readable : (disk.log.readFrom (state.lastIndex + 1 - state.firstIndex).toNat
      state.firstIndex.toNat).isSome ↔ _ := IndexedLog.readFrom_isSome_iff
  constructor
  · rintro ⟨ps, rf, hps, restarted, snapshot, -⟩
    have dense : Dense state := by
      by_contra gap
      rw [restart_of_not_dense me peers stat last gap] at restarted
      cases restarted
    rw [loaded] at hps
    obtain ⟨bs, hbs, rfl⟩ := Option.map_eq_some_iff.mp hps
    rw [hbs] at readable
    have range := readable.mp rfl
    exact ⟨dense, by omega, snapshot⟩
  · rintro ⟨dense, range, snapshot⟩
    obtain ⟨bs, hbs⟩ := Option.isSome_iff_exists.mp (readable.mpr (by omega))
    rw [hbs, Option.map_some] at loaded
    obtain ⟨es, hes, -, values⟩ := mapM_of_readFrom coded hbs
    obtain ⟨rf, restarted, hlog, hindex, -⟩ :=
      restart_of_readFrom me peers stat first last dense data hbs hes
    refine ⟨_, rf, loaded, restarted, snapshot, ?_⟩
    intro k e he
    rw [hlog, List.getElem?_cons_succ, List.getElem?_map] at he
    obtain ⟨e, value, ⟨⟩⟩ := Option.map_eq_some_iff.mp he
    have index : (rf.lastIncludedIndex + (k + 1 : Nat)).toNat = state.firstIndex.toNat + k := by
      omega
    rw [index]
    exact values k e value

/-- An empty stat file leaves `FirstIndex` at zero, before every snapshot. -/
theorem not_recovers_of_empty (stat : disk.stat = some none)
    (index : 0 ≤ (disk.snap.load.getD {}).lastIndex) : ¬ Recovers codec me peers disk := by
  rintro ⟨ps, -, hps, -, snapshot, -⟩
  simp only [initFromDisk, Disk.loadState, stat] at hps
  cases hps
  dsimp only at snapshot
  omega

/-! ### The points of a crash -/

/-- Before a section, or just after one change of the disk: the cut, the write and the
new stat file of `saveLogToDisk`, and the new file, the cut and the new stat file of
`saveSnapToDisk`. -/
inductive Window where
  | idle
  | truncatedBack
  | written
  | lastSaved
  | snapSaved
  | truncatedFront
  | firstSaved

/-- The disk at such a point of the section that starts now, or `none` if the section
does not get there. -/
def diskAfter (codec : Codec β) (ps : Persister β) : Window → Option (Disk β)
  | .idle => some ps.disk
  | .truncatedBack =>
      match ps.entryCh with
      | [] => none
      | (i, _) :: _ =>
          if ps.snapshot.lastIndex ≤ ps.state.lastIndex ∧ i < ps.state.lastIndex then
            (ps.disk.log.truncateBack (i - 1).toNat).map fun log => { ps.disk with log := log }
          else none
  | .written =>
      match ps.entryCh with
      | [] => none
      | (i, b) :: rest =>
          (makeRoom { ps with entryCh := rest } i).bind fun ps =>
            (ps.write codec i b).map (·.disk)
  | .lastSaved => (ps.saveLogToDisk codec).map (·.disk)
  | .snapSaved => if ps.snapshot.lastIndex ≠ ps.lastIdx then some ps.saveSnap.disk else none
  | .truncatedFront =>
      if ps.snapshot.lastIndex ≠ ps.lastIdx then ps.saveSnap.truncateFront.map (·.disk) else none
  | .firstSaved =>
      if ps.snapshot.lastIndex ≠ ps.lastIdx then ps.saveSnapToDisk.map (·.disk) else none

/-- A round of the writer that finds the snapshot ahead of the log leaves a range that is not
negative: it starts behind the snapshot, if that is a new one, and ends with the entry, if
that is the next one of the log. -/
def ClosesGap (ps : Persister β) : Prop :=
  ∀ p ∈ ps.entryCh.head?, ps.state.lastIndex < ps.snapshot.lastIndex →
    (if ps.snapshot.lastIndex = ps.lastIdx then ps.state.firstIndex
      else ps.snapshot.lastIndex + 1) ≤
    (if p.1 = ps.disk.log.lastIndex + 1 then p.1 else ps.state.lastIndex) + 1

/-- The points from which a restart recovers. The stat file must have been written, and its
range must not be negative, as it is behind a snapshot that was ahead of the log. After a
cut at the back the file still names the old range, so nothing may be in it; and a
new snapshot may be on disk before the file names its index only if that index is
the old one. -/
def Safe (ps : Persister β) : Window → Prop
  | .idle => ps.disk.stat ≠ some none ∧ Dense ps.state
  | .truncatedBack => ps.state.lastIndex < ps.state.firstIndex
  | .written => ∀ p ∈ ps.entryCh.head?,
      if ps.state.lastIndex < ps.snapshot.lastIndex then
        ps.snapshot.lastIndex = ps.lastIdx ∧ Dense ps.state
      else ps.state.lastIndex ≤ p.1 ∨ ps.state.lastIndex < ps.state.firstIndex
  | .lastSaved => ps.ClosesGap
  | .snapSaved | .truncatedFront =>
      ps.snapshot.lastIndex = ps.state.firstIndex - 1 ∧ Dense ps.state
  | .firstSaved => ps.snapshot.lastIndex ≤ ps.state.lastIndex

/-- The stores agree with the index range of `state`: the log holds it, and the snapshot
ends before it. -/
structure Sound (codec : Codec β) (disk : Disk β) (state : IndexState) : Prop where
  first : 1 ≤ state.firstIndex
  last : 0 ≤ state.lastIndex
  log : (disk.log.firstIndex : Int) ≤ state.firstIndex
  range : state.lastIndex < state.firstIndex ∨ state.lastIndex ≤ disk.log.lastIndex
  coded : ∀ b ∈ disk.log.entries, (codec.unmarshal b).isSome
  stored : (disk.snap.load.getD {}).lastIndex = state.firstIndex - 1
  storedData : (disk.snap.load.getD {}).lastIndex ≠ 0 → (disk.snap.load.getD {}).rowData ≠ []

/-- The fields agree with sound stores: what is queued can be written, and the snapshot
in memory is not older than the one on disk. -/
structure Aligned (codec : Codec β) (ps : Persister β) : Prop
    extends Sound codec ps.disk ps.state where
  queued : ∀ p ∈ ps.entryCh, 0 < p.1 ∧ (codec.unmarshal p.2).isSome
  index : ps.state.firstIndex - 1 ≤ ps.snapshot.lastIndex
  term : (ps.disk.snap.load.getD {}).lastTerm ≤ ps.snapshot.lastTerm
  data : ps.snapshot.lastIndex ≠ 0 → ps.snapshot.rowData ≠ []

/-- The stat file is up to date. -/
def Settled (ps : Persister β) : Prop := ps.disk.stat = some (some ps.state)

namespace Sound

variable {log : IndexedLog β} {i : Nat} {b : β}

theorem recovers_iff_dense (h : Sound codec disk state) (stat : disk.stat = some (some state)) :
    Recovers codec me peers disk ↔ Dense state := by
  rw [recovers_iff stat h.first h.last h.coded h.storedData]
  exact and_iff_left ⟨h.range.imp_right (⟨h.log, ·⟩), h.stored⟩

/-- What a restart loads from sound stores agrees with them. -/
theorem initFromDisk (h : Sound codec disk state) (stat : disk.stat = some (some state))
    (loaded : initFromDisk codec disk = some ps) : Aligned codec ps ∧ ps.Settled := by
  have last := h.last
  rw [initFromDisk_eq codec stat (by omega)] at loaded
  obtain ⟨bs, -, rfl⟩ := Option.map_eq_some_iff.mp loaded
  exact ⟨⟨h, fun _ hp => absurd hp List.not_mem_nil, Int.le_of_eq h.stored.symm, Int.le_refl _,
    h.storedData⟩, stat⟩

theorem write (h : Sound codec disk state) (coded : (codec.unmarshal b).isSome)
    (hwrite : disk.log.write i b = some log) :
    Sound codec { disk with log := log } state := by
  have next := IndexedLog.index_of_write hwrite
  have last := IndexedLog.lastIndex_of_write hwrite
  have first := IndexedLog.firstIndex_of_write hwrite
  refine { h with log := ?_, range := ?_, coded := ?_ }
  · dsimp only
    rw [first]
    exact h.log
  · dsimp only
    exact h.range.imp_right fun range => by omega
  · intro x hx
    dsimp only at hx
    rw [IndexedLog.entries_of_write hwrite] at hx
    rcases List.mem_append.mp hx with hx | hx
    · exact h.coded x hx
    · rw [List.mem_singleton.mp hx]
      exact coded

/-- Entries may be cut off behind a range that is empty. -/
theorem truncateBack (h : Sound codec disk state) (hcut : disk.log.truncateBack i = some log)
    (state' : IndexState) (first : state'.firstIndex = state.firstIndex)
    (last : 0 ≤ state'.lastIndex)
    (range : state'.lastIndex < state'.firstIndex ∨ state'.lastIndex ≤ i) :
    Sound codec { disk with log := log } state' := by
  refine ⟨first ▸ h.first, last, ?_, ?_, ?_, first ▸ h.stored, h.storedData⟩
  · dsimp only
    rw [IndexedLog.firstIndex_of_truncateBack hcut, first]
    exact h.log
  · dsimp only
    rwa [IndexedLog.lastIndex_of_truncateBack hcut]
  · intro x hx
    dsimp only at hx
    rw [IndexedLog.entries_of_truncateBack hcut] at hx
    exact h.coded x (List.mem_of_mem_take hx)

/-- The front may be cut up to the first index of the range. -/
theorem truncateFront (h : Sound codec disk state) (hcut : disk.log.truncateFront i = some log)
    (hi : (i : Int) ≤ state.firstIndex) : Sound codec { disk with log := log } state := by
  refine { h with log := ?_, range := ?_, coded := ?_ }
  · dsimp only
    rwa [IndexedLog.firstIndex_of_truncateFront hcut]
  · dsimp only
    rw [IndexedLog.lastIndex_of_truncateFront hcut]
    exact h.range
  · intro x hx
    dsimp only at hx
    rw [IndexedLog.entries_of_truncateFront hcut] at hx
    exact h.coded x (List.mem_of_mem_drop hx)

theorem saveState (h : Sound codec disk state) (stat : Option (Option IndexState)) :
    Sound codec { disk with stat := stat } state :=
  { h with }

end Sound

namespace Aligned

variable {i : Int} {b : β}

theorem saveState (h : Aligned codec ps) : Aligned codec ps.saveState ∧ ps.saveState.Settled :=
  ⟨⟨h.toSound.saveState _, h.queued, h.index, h.term, h.data⟩, rfl⟩

theorem pop {p : Int × β} {rest : List (Int × β)} (h : Aligned codec ps)
    (hq : ps.entryCh = p :: rest) : Aligned codec { ps with entryCh := rest } :=
  { h with queued := fun q hq' => h.queued q (by rw [hq]; exact List.mem_cons_of_mem _ hq') }

theorem write (h : Aligned codec ps) (coded : (codec.unmarshal b).isSome)
    (hwrite : ps.write codec i b = some ps') : Aligned codec ps' := by
  obtain ⟨log, hlog, rfl⟩ := Option.map_eq_some_iff.mp hwrite
  have sound := h.toSound.write coded hlog
  exact ⟨{ sound with last := Int.natCast_nonneg _, range := .inr (Int.le_refl _) },
    h.queued, h.index, h.term, h.data⟩

theorem truncateBack (h : Aligned codec ps) (hcut : ps.truncateBack i = some ps') :
    Aligned codec ps' ∧ ∃ log, ps.disk.log.truncateBack (i - 1).toNat = some log ∧
      ps'.disk = { ps.disk with log := log } := by
  obtain ⟨log, hlog, hcut⟩ := Option.bind_eq_some_iff.mp hcut
  obtain ⟨sums, -, rfl⟩ := Option.map_eq_some_iff.mp hcut
  refine ⟨⟨h.toSound.truncateBack hlog _ rfl (Int.natCast_nonneg _) (.inr ?_), h.queued, h.index,
    h.term, h.data⟩, log, hlog, rfl⟩
  exact Int.le_of_eq (congrArg _ (IndexedLog.lastIndex_of_truncateBack hlog))

/-- The snapshot in memory is the one that is loaded once it is on disk. -/
theorem load_saveSnap (h : Aligned codec ps) :
    (ps.saveSnap.disk.snap.load.getD {}).lastIndex = ps.snapshot.lastIndex ∧
      ((ps.saveSnap.disk.snap.load.getD {}).lastIndex ≠ 0 →
        (ps.saveSnap.disk.snap.load.getD {}).rowData ≠ []) ∧
      (ps.saveSnap.disk.snap.load.getD {}).lastTerm ≤ ps.snapshot.lastTerm := by
  have first := h.first
  have index := h.index
  have stored := h.stored
  by_cases hzero : ps.snapshot.lastIndex = 0
  · -- an empty snapshot is not written, and there was none before
    have same : ps.saveSnap.disk.snap = ps.disk.snap := by
      simp [saveSnap, hzero]
    rw [same]
    exact ⟨by omega, h.storedData, h.term⟩
  · have loaded : ps.saveSnap.disk.snap.load = some ps.snapshot := by
      have files : ps.saveSnap.disk.snap = ps.snapshot :: ps.disk.snap := by
        simp [saveSnap, hzero]
      rw [files, SnapDir.load]
      cases old : ps.disk.snap.load with
      | none => rfl
      | some t =>
          have term := h.term
          rw [old, Option.getD_some] at stored term
          have order : ¬ ps.snapshot.NamedBefore t := by
            rintro (hterm | ⟨-, hindex⟩) <;> omega
          dsimp only
          rw [if_neg order]
    rw [loaded, Option.getD_some]
    exact ⟨rfl, h.data, Int.le_refl _⟩

/-- The new snapshot is sound with the range that starts behind it. -/
theorem saveSnap (h : Aligned codec ps) (state : IndexState)
    (first : state.firstIndex = ps.snapshot.lastIndex + 1)
    (last : state.lastIndex = ps.state.lastIndex) : Sound codec ps.saveSnap.disk state := by
  obtain ⟨index, data, -⟩ := h.load_saveSnap
  have newer := h.index
  have start := h.first
  have log := h.log
  refine ⟨by omega, last ▸ h.last, ?_, ?_, h.coded, by omega, data⟩
  · change (ps.disk.log.firstIndex : Int) ≤ _
    omega
  · change _ ∨ _ ≤ (ps.disk.log.lastIndex : Int)
    exact h.range.imp (fun _ => by omega) fun _ => by omega

theorem saveSnapToDisk (h : Aligned codec ps) (settled : ps.Settled)
    (hsave : ps.saveSnapToDisk = some ps') : Aligned codec ps' ∧ ps'.Settled := by
  obtain ⟨-, rfl⟩ | ⟨-, log, sums, hlog, -, rfl⟩ := saveSnapToDisk_outcome hsave
  · exact ⟨h, settled⟩
  · have start := h.first
    have newer := h.index
    have sound := h.saveSnap { ps.state with firstIndex := ps.snapshot.lastIndex + 1 } rfl rfl
    refine ⟨⟨(sound.truncateFront hlog ?_).saveState _, h.queued, ?_, h.load_saveSnap.2.2,
      h.data⟩, rfl⟩
    · change ((min ps.snapshot.lastIndex.toNat _ : Nat) : Int) ≤ ps.snapshot.lastIndex + 1
      omega
    · change ps.snapshot.lastIndex + 1 - 1 ≤ ps.snapshot.lastIndex
      omega

/-- Making room leaves the stores in agreement, or it has cut the log behind a stat
file that still names the old range. -/
theorem makeRoom (h : Aligned codec ps) (settled : ps.Settled)
    (hroom : ps.makeRoom i = some ps') :
    Aligned codec ps' ∧
      ((ps'.Settled ∧ (ps.state.lastIndex < ps.snapshot.lastIndex ∨ ps.state.lastIndex ≤ i)) ∨
        (ps.snapshot.lastIndex ≤ ps.state.lastIndex ∧ i < ps.state.lastIndex ∧
          ∃ log, ps.disk.log.truncateBack (i - 1).toNat = some log ∧
            ps'.disk = { ps.disk with log := log })) := by
  obtain ⟨hsnap, saved⟩ | ⟨hsnap, ⟨hi, cut⟩ | ⟨hi, rfl⟩⟩ := makeRoom_outcome hroom
  · obtain ⟨aligned, settled⟩ := h.saveSnapToDisk settled saved
    exact ⟨aligned, .inl ⟨settled, .inl hsnap⟩⟩
  · obtain ⟨aligned, cut⟩ := h.truncateBack cut
    exact ⟨aligned, .inr ⟨hsnap, hi, cut⟩⟩
  · exact ⟨h, .inl ⟨settled, .inr hi⟩⟩

/-- What a round leaves as the range. -/
theorem writeOrDrop_range (codec : Codec β) (ps : Persister β) (hpos : 0 < i) (b : β) :
    (ps.writeOrDrop codec i b).state.firstIndex = ps.state.firstIndex ∧
      (ps.writeOrDrop codec i b).state.lastIndex =
        if i = ps.disk.log.lastIndex + 1 then i else ps.state.lastIndex := by
  rw [writeOrDrop]
  split
  · rename_i refused
    rw [Persister.write, Option.map_eq_none_iff, IndexedLog.write_eq_none_iff] at refused
    rw [if_neg (by omega)]
    exact ⟨rfl, rfl⟩
  · rename_i written
    obtain ⟨log, hlog, rfl⟩ := Option.map_eq_some_iff.mp written
    have next := IndexedLog.index_of_write hlog
    have last := IndexedLog.lastIndex_of_write hlog
    rw [if_pos (by omega)]
    exact ⟨rfl, by change (log.lastIndex : Int) = i; omega⟩

/-- The range is not negative after a round, unless the snapshot is ahead of the log. -/
theorem dense_saveLogToDisk (h : Aligned codec ps) (hround : ps.saveLogToDisk codec = some ps') :
    Dense ps'.state ↔ ps.ClosesGap := by
  obtain ⟨i, b, rest, q, hq, hroom, rfl⟩ := saveLogToDisk_outcome hround
  obtain ⟨hpos, -⟩ := h.queued (i, b) (by rw [hq]; exact List.mem_cons_self)
  obtain ⟨first, last⟩ := writeOrDrop_range codec q hpos b
  have index := h.index
  simp only [ClosesGap, hq, List.head?_cons, Option.mem_some_iff, forall_eq']
  rw [Dense, first, last]
  obtain ⟨ahead, saved⟩ | ⟨reached, ⟨inside, cut⟩ | ⟨behind, rfl⟩⟩ := makeRoom_outcome hroom
  · rw [forall_prop_of_true ahead]
    obtain ⟨same, rfl⟩ | ⟨other, log, sums, front, -, rfl⟩ := saveSnapToDisk_outcome saved
    · rw [if_pos same]
    · rw [if_neg other]
      change _ ≤ (if i = (log.lastIndex : Int) + 1 then _ else _) + 1 ↔ _
      rw [IndexedLog.lastIndex_of_truncateFront front]
      rfl
  · obtain ⟨log, hlog, cut⟩ := Option.bind_eq_some_iff.mp cut
    obtain ⟨sums, sliced, rfl⟩ := Option.map_eq_some_iff.mp cut
    obtain ⟨⟨low, -⟩, -⟩ := Option.ite_none_right_eq_some.mp sliced
    have hlast := IndexedLog.lastIndex_of_truncateBack hlog
    dsimp only at hpos low reached inside ⊢
    rw [if_pos (by omega)]
    exact iff_of_true (by omega) fun ahead => by omega
  · dsimp only at reached behind ⊢
    refine iff_of_true ?_ fun ahead => by omega
    split <;> omega

theorem saveLogToDisk (h : Aligned codec ps) (settled : ps.Settled)
    (hround : ps.saveLogToDisk codec = some ps') : Aligned codec ps' ∧ ps'.Settled := by
  obtain ⟨i, b, rest, q, hq, hroom, rfl⟩ := saveLogToDisk_outcome hround
  obtain ⟨hpos, coded⟩ := h.queued (i, b) (by rw [hq]; exact List.mem_cons_self)
  obtain ⟨aligned, outcome⟩ := (h.pop hq).makeRoom settled hroom
  rw [writeOrDrop]
  split
  · -- a refused write comes without a cut: the cut makes room for this index
    rename_i refused
    refine ⟨aligned, ?_⟩
    rcases outcome with ⟨settled, -⟩ | ⟨-, -, log, hlog, hdisk⟩
    · exact settled
    · have last := IndexedLog.lastIndex_of_truncateBack hlog
      rw [Persister.write, Option.map_eq_none_iff, IndexedLog.write_eq_none_iff, hdisk]
        at refused
      dsimp only at refused hpos
      omega
  · rename_i written
    exact (aligned.write coded written).saveState

/-! ### Which points are safe -/

/-- After a change of the log alone, a restart needs the old range in the new log. -/
theorem range_of_recovers (h : Aligned codec ps) (settled : ps.Settled) {log : IndexedLog β}
    (coded : ∀ b ∈ log.entries, (codec.unmarshal b).isSome)
    (recovers : Recovers codec me peers { ps.disk with log := log }) :
    ps.state.lastIndex < ps.state.firstIndex ∨ ps.state.lastIndex ≤ log.lastIndex := by
  have stat : ({ ps.disk with log := log } : Disk β).stat = some (some ps.state) := settled
  rw [recovers_iff stat h.first h.last coded h.storedData] at recovers
  exact recovers.2.1.imp_right And.right

theorem crash_truncatedBack (h : Aligned codec ps) (settled : ps.Settled)
    (hdisk : ps.diskAfter codec .truncatedBack = some disk) :
    (ps.Safe .truncatedBack → disk.stat = some (some ps.state) ∧ Sound codec disk ps.state ∧
        Dense ps.state) ∧
      (Recovers codec me peers disk → ps.Safe .truncatedBack) := by
  rw [diskAfter] at hdisk
  split at hdisk
  · cases hdisk
  · rename_i i b rest hq
    obtain ⟨hpos, -⟩ := h.queued (i, b) (by rw [hq]; exact List.mem_cons_self)
    obtain ⟨⟨hsnap, hi⟩, log, hlog, rfl⟩ := enabled_map.mp hdisk
    have last := h.last
    have index := h.index
    refine ⟨fun safe => ⟨settled, h.toSound.truncateBack hlog _ rfl last (.inl safe), ?_⟩, ?_⟩
    · rw [Dense]
      omega
    intro recovers
    have cut := h.toSound.truncateBack hlog { ps.state with lastIndex := (i - 1).toNat } rfl
      (Int.natCast_nonneg _) (.inr (Int.le_refl _))
    have range := h.range_of_recovers settled cut.coded recovers
    rw [IndexedLog.lastIndex_of_truncateBack hlog] at range
    change ps.state.lastIndex < ps.state.firstIndex
    dsimp only at hpos
    omega

/-- What the write finds after a new or an old snapshot, or nothing at all. -/
theorem crash_write (me : Nat) (peers : List Nat) {b : β} (h : Aligned codec ps) (settled : ps.Settled)
    (coded : (codec.unmarshal b).isSome) {log : IndexedLog β} {k : Nat}
    (hlog : ps.disk.log.write k b = some log) :
    (Dense ps.state → ∃ state, ({ ps.disk with log := log } : Disk β).stat = some (some state) ∧
        Sound codec { ps.disk with log := log } state ∧ Dense state) ∧
      (Recovers codec me peers { ps.disk with log := log } → Dense ps.state) := by
  have sound := h.toSound.write coded hlog
  exact ⟨fun dense => ⟨_, settled, sound, dense⟩, (sound.recovers_iff_dense settled).mp⟩

theorem crash_written (h : Aligned codec ps) (settled : ps.Settled)
    (hdisk : ps.diskAfter codec .written = some disk) :
    (ps.Safe .written →
        ∃ state, disk.stat = some (some state) ∧ Sound codec disk state ∧ Dense state) ∧
      (Recovers codec me peers disk → ps.Safe .written) := by
  rw [diskAfter] at hdisk
  split at hdisk
  · cases hdisk
  rename_i i b rest hq
  obtain ⟨hpos, coded⟩ := h.queued (i, b) (by rw [hq]; exact List.mem_cons_self)
  obtain ⟨q, hroom, hdisk⟩ := Option.bind_eq_some_iff.mp hdisk
  obtain ⟨r, hwrite, rfl⟩ := Option.map_eq_some_iff.mp hdisk
  have popped := h.pop hq
  have index := h.index
  simp only [Safe, hq, List.head?_cons, Option.mem_some_iff, forall_eq']
  obtain ⟨ahead, saved⟩ | ⟨reached, ⟨inside, cut⟩ | ⟨behind, rfl⟩⟩ := makeRoom_outcome hroom
  · obtain ⟨aligned, settled'⟩ := popped.saveSnapToDisk settled saved
    obtain ⟨log, hlog, rfl⟩ := Option.map_eq_some_iff.mp hwrite
    have outcome := aligned.crash_write me peers settled' coded hlog
    rw [if_pos ahead]
    obtain ⟨same, rfl⟩ | ⟨other, front, sums, hfront, hsums, rfl⟩ := saveSnapToDisk_outcome saved
    · exact ⟨fun safe => outcome.1 safe.2, fun recovers => ⟨same, outcome.2 recovers⟩⟩
    · refine ⟨fun safe => absurd safe.1 other, fun recovers => ?_⟩
      have dense : ps.snapshot.lastIndex + 1 ≤ ps.state.lastIndex + 1 := outcome.2 recovers
      dsimp only at ahead
      omega
  · -- the log ends with the new entry, before the index that the stat file names
    obtain ⟨aligned, cut, hcut, hq⟩ := popped.truncateBack cut
    have written := aligned.write coded hwrite
    obtain ⟨log, hlog, rfl⟩ := Option.map_eq_some_iff.mp hwrite
    dsimp only at written reached inside hcut hlog ⊢
    rw [hq] at written hlog ⊢
    have last := IndexedLog.lastIndex_of_write hlog
    rw [if_neg (by omega)]
    constructor
    · intro safe
      have sound := h.toSound.truncateBack hcut ps.state rfl h.last (.inl (by omega))
      exact ⟨_, settled, sound.write coded hlog, by rw [Dense]; omega⟩
    · intro recovers
      have range := h.range_of_recovers settled written.coded recovers
      rw [last] at range
      dsimp only at hpos
      omega
  · obtain ⟨log, hlog, rfl⟩ := Option.map_eq_some_iff.mp hwrite
    dsimp only at reached behind
    have outcome := popped.crash_write me peers settled coded hlog
    rw [if_neg (by omega)]
    exact ⟨fun _ => outcome.1 (by rw [Dense]; dsimp only; omega), fun _ => .inl behind⟩

/-- With the new snapshot on disk, a restart needs it to end where the old one did. -/
theorem index_of_recovers (h : Aligned codec ps) (settled : ps.Settled) {log : IndexedLog β}
    (coded : ∀ b ∈ log.entries, (codec.unmarshal b).isSome)
    (recovers : Recovers codec me peers { ps.saveSnap.disk with log := log }) :
    ps.snapshot.lastIndex = ps.state.firstIndex - 1 ∧ Dense ps.state := by
  obtain ⟨index, data, -⟩ := h.load_saveSnap
  have stat : ({ ps.saveSnap.disk with log := log } : Disk β).stat = some (some ps.state) := settled
  rw [recovers_iff stat h.first h.last coded data] at recovers
  exact ⟨index.symm.trans recovers.2.2, recovers.1⟩

theorem crash_truncatedFront (h : Aligned codec ps) (settled : ps.Settled)
    (hdisk : ps.diskAfter codec .truncatedFront = some disk) :
    (ps.Safe .truncatedFront → disk.stat = some (some ps.state) ∧ Sound codec disk ps.state) ∧
      (Recovers codec me peers disk → ps.Safe .truncatedFront) := by
  obtain ⟨-, cut, hcut, rfl⟩ := enabled_map.mp hdisk
  obtain ⟨log, hlog, rfl⟩ := Option.map_eq_some_iff.mp hcut
  constructor
  · rintro ⟨safe, -⟩
    refine ⟨settled, (h.saveSnap ps.state (by omega) rfl).truncateFront hlog ?_⟩
    have start := h.first
    change ((min ps.snapshot.lastIndex.toNat _ : Nat) : Int) ≤ ps.state.firstIndex
    omega
  · intro recovers
    refine h.index_of_recovers settled ?_ recovers
    intro x hx
    rw [IndexedLog.entries_of_truncateFront hlog] at hx
    exact h.coded x (List.mem_of_mem_drop hx)

/-- A crash after a whole section. -/
theorem crash_settled (h : Aligned codec ps) (settled : ps.Settled) {safe : Prop}
    (dense : Dense ps.state ↔ safe) :
    (safe → ∃ state, ps.disk.stat = some (some state) ∧ Sound codec ps.disk state ∧ Dense state) ∧
      (Recovers codec me peers ps.disk → safe) :=
  ⟨fun hsafe => ⟨_, settled, h.toSound, dense.mpr hsafe⟩,
    fun recovers => dense.mp ((h.toSound.recovers_iff_dense settled).mp recovers)⟩

/-- A crash at a safe point leaves sound stores, and from any other point a restart does
not recover. -/
theorem crash (h : Aligned codec ps) (settled : ps.Settled) {w : Window}
    (hdisk : ps.diskAfter codec w = some disk) :
    (ps.Safe w → ∃ state, disk.stat = some (some state) ∧ Sound codec disk state ∧ Dense state) ∧
      (Recovers codec me peers disk → ps.Safe w) := by
  cases w with
  | idle =>
      cases hdisk
      refine h.crash_settled settled ?_
      refine ⟨fun dense => ⟨fun empty => ?_, dense⟩, And.right⟩
      cases settled.symm.trans empty
  | truncatedBack =>
      exact (h.crash_truncatedBack settled hdisk).imp_left fun sound safe => ⟨_, sound safe⟩
  | written => exact h.crash_written settled hdisk
  | lastSaved =>
      obtain ⟨q, hq, rfl⟩ := Option.map_eq_some_iff.mp hdisk
      obtain ⟨aligned, settled⟩ := h.saveLogToDisk settled hq
      exact aligned.crash_settled settled (h.dense_saveLogToDisk hq)
  | snapSaved =>
      obtain ⟨-, rfl⟩ := enabled_some.mp hdisk
      refine ⟨fun safe => ⟨ps.state, settled, h.saveSnap _ ?_ rfl, safe.2⟩,
        fun recovers => h.index_of_recovers settled h.coded recovers⟩
      have same := safe.1
      omega
  | truncatedFront =>
      exact (h.crash_truncatedFront settled hdisk).imp_left fun sound safe =>
        ⟨_, (sound safe).1, (sound safe).2, safe.2⟩
  | firstSaved =>
      obtain ⟨new, q, hq, rfl⟩ := enabled_map.mp hdisk
      obtain ⟨aligned, settled⟩ := h.saveSnapToDisk settled hq
      refine aligned.crash_settled settled ?_
      obtain ⟨same, -⟩ | ⟨-, log, sums, -, -, rfl⟩ := saveSnapToDisk_outcome hq
      · exact absurd same new
      · change ps.snapshot.lastIndex + 1 ≤ ps.state.lastIndex + 1 ↔ _
        exact Int.add_le_add_iff_right 1

end Aligned

/-! ### Runs with crashes -/

/-- A section of a running persister, or a crash followed by a restart. -/
inductive Turn where
  | run (a : Section)
  | crash (w : Window)

def turn (codec : Codec β) (ps : Persister β) : Turn → Option (Persister β)
  | .run (.save args) => ps.save codec args
  | .run .saveLogToDisk => ps.saveLogToDisk codec
  | .run .saveSnapClock => ps.saveSnapToDisk
  | .crash w => (ps.diskAfter codec w).bind (initFromDisk codec)

/-- The snapshots handed to `Save` do not go back and are not empty, and a crash falls
on a safe point. -/
def Orderly (ps : Persister β) : Turn → Prop
  | .run (.save args) =>
      ps.snapshot.lastIndex ≤ args.lastIncludeIndex ∧ ps.snapshot.lastTerm ≤ args.lastTerm ∧
        (args.lastIncludeIndex ≠ 0 → args.snapshot ≠ [])
  | .run .saveLogToDisk | .run .saveSnapClock => True
  | .crash w => ps.Safe w

/-- The fields agree with the disk, but for a persister that has not saved anything: its
stat file is still empty. -/
def Consistent (codec : Codec β) (ps : Persister β) : Prop :=
  Aligned codec ps ∧ (ps.Settled ∨
    (ps.disk.stat = some none ∧ ps.entryCh = [] ∧ ps.snapshot.lastIndex = ps.lastIdx))

theorem Aligned.save {args : SaveArgs} (h : Aligned codec ps)
    (orderly : ps.Orderly (.run (.save args))) (hsave : ps.save codec args = some ps') :
    Aligned codec ps' ∧ ps'.Settled := by
  obtain ⟨index, term, data⟩ := orderly
  obtain ⟨entries, selected, hsave⟩ := Option.bind_eq_some_iff.mp hsave
  obtain ⟨-, rfl⟩ := enabled_some.mp hsave
  obtain ⟨start, sublist⟩ := filter_sublist selected
  have first := h.first
  have older := h.index
  have sound : Sound codec ps.disk { ps.state with
      votedFor := args.votedFor, currentTerm := args.currentTerm
      lastCommitIndex := args.commitIndex } := { h.toSound with }
  refine ⟨⟨sound.saveState _, ?_, Int.le_trans older index, Int.le_trans h.term term, data⟩, rfl⟩
  intro p hp
  rcases List.mem_append.mp hp with hp | hp
  · exact h.queued p hp
  · obtain ⟨k, hk, -⟩ := mem_numbered (sublist.subset hp)
    obtain ⟨e, encodable, he⟩ := filter_coded selected hp
    refine ⟨by omega, ?_⟩
    rw [he, codec.unmarshal_marshal e encodable]
    rfl

theorem consistent_start : Consistent codec (Saving.start codec).ps := by
  refine ⟨⟨⟨?_, ?_, ?_, ?_, ?_, ?_, ?_⟩, ?_, ?_, ?_, ?_⟩, .inr ⟨rfl, rfl, rfl⟩⟩
  all_goals simp [Saving.start, IndexedLog.empty, SnapDir.load]

/-- As long as nothing has been saved there is no section to crash in. -/
theorem diskAfter_of_empty (idle : ps.entryCh = []) (saved : ps.snapshot.lastIndex = ps.lastIdx)
    {w : Window} (hdisk : ps.diskAfter codec w = some disk) : w = .idle := by
  cases w with
  | idle => rfl
  | truncatedBack | written | lastSaved =>
      simp [diskAfter, saveLogToDisk, idle] at hdisk
  | snapSaved | truncatedFront | firstSaved =>
      simp [diskAfter, saved] at hdisk

namespace Consistent

theorem turn {a : Turn} (h : Consistent codec ps) (orderly : ps.Orderly a)
    (hturn : ps.turn codec a = some ps') : Consistent codec ps' := by
  obtain ⟨aligned, settled | ⟨empty, idle, saved⟩⟩ := h
  · cases a with
    | run a =>
        cases a with
        | save args => exact (aligned.save orderly hturn).imp_right .inl
        | saveLogToDisk => exact (aligned.saveLogToDisk settled hturn).imp_right .inl
        | saveSnapClock => exact (aligned.saveSnapToDisk settled hturn).imp_right .inl
    | crash w =>
        obtain ⟨disk, hdisk, loaded⟩ := Option.bind_eq_some_iff.mp hturn
        have outcome : _ ∧ (Recovers codec 0 [] disk → _) := aligned.crash settled hdisk
        obtain ⟨state, stat, sound, -⟩ := outcome.1 orderly
        exact (sound.initFromDisk stat loaded).imp_right .inl
  · cases a with
    | run a =>
        cases a with
        | save args => exact (aligned.save orderly hturn).imp_right .inl
        | saveLogToDisk => simp [Persister.turn, saveLogToDisk, idle] at hturn
        | saveSnapClock =>
            simp [Persister.turn, saveSnapToDisk, saved] at hturn
            cases hturn
            exact ⟨aligned, .inr ⟨empty, idle, saved⟩⟩
    | crash w =>
        obtain ⟨disk, hdisk, -⟩ := Option.bind_eq_some_iff.mp hturn
        cases diskAfter_of_empty idle saved hdisk
        exact absurd empty orderly.1

/-- The points from which a restart recovers are the safe ones. -/
theorem recovers_iff_safe (h : Consistent codec ps) {w : Window}
    (hdisk : ps.diskAfter codec w = some disk) :
    Recovers codec me peers disk ↔ ps.Safe w := by
  obtain ⟨aligned, settled | ⟨empty, idle, saved⟩⟩ := h
  · obtain ⟨sound, safe⟩ := aligned.crash settled hdisk
    refine ⟨safe, fun hw => ?_⟩
    obtain ⟨state, stat, sound, dense⟩ := sound hw
    exact (sound.recovers_iff_dense stat).mpr dense
  · cases diskAfter_of_empty idle saved hdisk
    cases hdisk
    have first := aligned.first
    have stored := aligned.stored
    exact iff_of_false (not_recovers_of_empty empty (by omega)) fun safe => safe.1 empty

end Consistent

/-- In a run whose crashes all fall on safe points, a crash at any point of the section
that comes next is recovered from exactly if that point is safe. -/
theorem crash_consistency (me : Nat) (peers : List Nat)
    (reached : Reaches (turn codec) Orderly (Saving.start codec).ps ps) (w : Window)
    (hdisk : ps.diskAfter codec w = some disk) :
    Recovers codec me peers disk ↔ ps.Safe w := by
  have consistent : Consistent codec ps :=
    reached.invariant consistent_start fun _ _ _ _ h => h.turn
  exact consistent.recovers_iff_safe hdisk

instance (state : IndexState) : Decidable (Dense state) := inferInstanceAs (Decidable (_ ≤ _))

instance (ps : Persister β) : Decidable ps.ClosesGap :=
  inferInstanceAs (Decidable (∀ p ∈ ps.entryCh.head?, _ → _))

instance (ps : Persister β) : ∀ w, Decidable (ps.Safe w)
  | .idle => inferInstanceAs (Decidable (_ ≠ _ ∧ Dense _))
  | .truncatedBack => inferInstanceAs (Decidable (_ < _))
  | .written => inferInstanceAs (Decidable (∀ p ∈ ps.entryCh.head?,
      if ps.state.lastIndex < ps.snapshot.lastIndex then _ ∧ Dense _ else _ ∨ _))
  | .lastSaved => inferInstanceAs (Decidable ps.ClosesGap)
  | .snapSaved | .truncatedFront => inferInstanceAs (Decidable (_ = _ ∧ Dense _))
  | .firstSaved => inferInstanceAs (Decidable (_ ≤ _))

instance (ps : Persister β) : ∀ a, Decidable (ps.Orderly a)
  | .run (.save _) => inferInstanceAs (Decidable (_ ∧ _))
  | .run .saveLogToDisk | .run .saveSnapClock => isTrue trivial
  | .crash w => inferInstanceAs (Decidable (ps.Safe w))

/-- The first entry is written, but its index is not in the stat file yet. -/
theorem crash_consistency_written :
    ∃ ps disk, Reaches (turn entryCodec) Orderly (Saving.start entryCodec).ps ps ∧
      ps.diskAfter entryCodec .written = some disk ∧ Recovers entryCodec 0 [1, 2] disk := by
  obtain ⟨ps, reached, queued, safe⟩ : ∃ ps,
      Reaches (turn entryCodec) Orderly (Saving.start entryCodec).ps ps ∧
        (ps.diskAfter entryCodec .written).isSome ∧ ps.Safe .written :=
    Library.exists_reaches _ [.run (Saving.saveLogs [Saving.entryOf 1 1] 0)]
      (by decide +kernel) (by decide +kernel)
  obtain ⟨disk, hdisk⟩ := Option.isSome_iff_exists.mp queued
  exact ⟨ps, disk, reached, hdisk, (crash_consistency 0 [1, 2] reached .written hdisk).mpr safe⟩

/-- After the cut before a replaced entry a restart aborts; after a new snapshot file the
snapshot covers the first index; and after the creation of the stat file the first index
is zero. -/
theorem crash_windows_lost :
    (∃ ps disk, Reaches (turn entryCodec) Orderly (Saving.start entryCodec).ps ps ∧
      ps.diskAfter entryCodec .truncatedBack = some disk ∧
      initFromDisk entryCodec disk = none) ∧
    (∃ ps disk recovered, Reaches (turn entryCodec) Orderly (Saving.start entryCodec).ps ps ∧
      ps.diskAfter entryCodec .snapSaved = some disk ∧
      initFromDisk entryCodec disk = some recovered ∧
      recovered.snapshot.lastIndex = 1 ∧ recovered.state.firstIndex = 1) ∧
    ∃ disk recovered, (Saving.start entryCodec).ps.diskAfter entryCodec .idle = some disk ∧
      initFromDisk entryCodec disk = some recovered ∧
      recovered.snapshot.lastIndex = 0 ∧ recovered.state.firstIndex = 0 := by
  refine ⟨?_, ?_, ⟨_, _, rfl, rfl, rfl, rfl⟩⟩
  · obtain ⟨ps, reached, lost⟩ : ∃ ps,
        Reaches (turn entryCodec) Orderly (Saving.start entryCodec).ps ps ∧
          (ps.diskAfter entryCodec .truncatedBack).any
            (fun disk => decide (initFromDisk entryCodec disk = none)) = true :=
      Library.exists_reaches _
        [.run (Saving.saveLogs [Saving.entryOf 1 1, Saving.entryOf 1 2, Saving.entryOf 1 3] 0),
          .run .saveLogToDisk, .run .saveLogToDisk, .run .saveLogToDisk,
          .run (Saving.saveLogs [Saving.entryOf 1 1, Saving.entryOf 2 4] 1)]
        (by decide +kernel) (by decide +kernel)
    obtain ⟨disk, hdisk, aborts⟩ := (Option.any_eq_true _ _).mp lost
    exact ⟨ps, disk, reached, hdisk, of_decide_eq_true aborts⟩
  · obtain ⟨ps, reached, lost⟩ : ∃ ps,
        Reaches (turn entryCodec) Orderly (Saving.start entryCodec).ps ps ∧
          (ps.diskAfter entryCodec .snapSaved).any (fun disk =>
            (initFromDisk entryCodec disk).any fun recovered =>
              decide (recovered.snapshot.lastIndex = 1 ∧ recovered.state.firstIndex = 1)) = true :=
      Library.exists_reaches _
        [.run (Saving.saveLogs [Saving.entryOf 1 1] 0), .run .saveLogToDisk,
          .run (.save { snapshot := [7], votedFor := none, currentTerm := 1, logs := []
                        lastIncludeIndex := 1, lastTerm := 1, commitIndex := 1 })]
        (by decide +kernel) (by decide +kernel)
    obtain ⟨disk, hdisk, lost⟩ := (Option.any_eq_true _ _).mp lost
    obtain ⟨recovered, loaded, indices⟩ := (Option.any_eq_true _ _).mp lost
    exact ⟨ps, disk, recovered, reached, hdisk, loaded, of_decide_eq_true indices⟩

end Persister

end RaftKv
