import RaftKv.Persister.Crash

/-!
# The table of checksums

`filter` compares an entry with the checksum in the slot of its index, which is counted from
`FirstIndex`. `initFromDisk` fills the slots of what it has read and makes the table at least
sixteen slots long; the writer appends the checksum of what it has written. That is the slot
of the entry only if the table has no spare slots, which `Tight` says.
-/

namespace RaftKv.Persister

open Library (IndexedLog Reaches Reachable enabled_some)
open Raft (Entry SaveArgs)

variable {β : Type} {codec : Codec β} {ps ps' : Persister β}

/-- One of the sections that hold the lock. -/
def proceed (codec : Codec β) (ps : Persister β) (a : Section) : Option (Persister β) :=
  ps.turn codec (.run a)

/-- The checksum in the slot of an index. -/
def slot (ps : Persister β) (k : Int) : Option UInt32 :=
  indexSlice ps.checkSum (k - ps.state.firstIndex)

/-- The slot of every index in the range has the checksum of its entry. There is no entry of
index zero. -/
def Checked (codec : Codec β) (ps : Persister β) : Prop :=
  ∀ k, 0 < k → ps.state.firstIndex ≤ k → k ≤ ps.state.lastIndex →
    ∃ b, ps.disk.log.read k.toNat = some b ∧ ps.slot k = some (codec.checksumIEEE b)

/-- The fields and the log on disk end with the same index. -/
def InStep (ps : Persister β) : Prop := ps.state.lastIndex = ps.disk.log.lastIndex

/-- The table has as many slots as there are indices. -/
def Tight (ps : Persister β) : Prop :=
  (ps.checkSum.length : Int) = ps.state.lastIndex - ps.state.firstIndex + 1

/-! ### Slices -/

section Slices

variable {α : Type} {s t : List α} {i low : Int} {x : α}

theorem indexSlice_append (more : List α) (h : indexSlice s i = some x) :
    indexSlice (s ++ more) i = some x := by
  obtain ⟨pos, h⟩ := Option.ite_none_right_eq_some.mp h
  obtain ⟨inside, -⟩ := List.getElem?_eq_some_iff.mp h
  rw [indexSlice, if_pos pos, List.getElem?_append_left inside, h]

theorem indexSlice_sliceTo (h : sliceTo s low = some t) (hi : i < low) :
    indexSlice t i = indexSlice s i := by
  obtain ⟨⟨pos, inside⟩, rfl⟩ := enabled_some.mp h
  rw [indexSlice, indexSlice]
  split
  · rw [List.getElem?_take_of_lt (by omega)]
  · rfl

theorem indexSlice_sliceFrom (h : sliceFrom s low = some t) (hi : 0 ≤ i) :
    indexSlice t i = indexSlice s (i + low) := by
  obtain ⟨⟨pos, inside⟩, rfl⟩ := enabled_some.mp h
  rw [indexSlice, indexSlice, if_pos hi, if_pos (by omega), List.getElem?_drop,
    show low.toNat + i.toNat = (i + low).toNat by omega]

end Slices

/-! ### What a section does to the table -/

theorem Checked.save {args : SaveArgs} (h : ps.Checked codec) (saved : ps.save codec args = some ps') :
    ps'.Checked codec ∧ (ps.InStep → ps'.InStep) ∧ (ps.Tight → ps'.Tight) := by
  obtain ⟨entries, -, saved⟩ := Option.bind_eq_some_iff.mp saved
  obtain ⟨-, rfl⟩ := enabled_some.mp saved
  exact ⟨h, id, id⟩

/-- The snapshot takes the slots before its index with it. -/
theorem Checked.saveSnapToDisk (h : ps.Checked codec) (saved : ps.saveSnapToDisk = some ps') :
    ps'.Checked codec ∧ (ps.InStep → ps'.InStep) ∧ (ps.Tight → ps'.Tight) := by
  obtain ⟨-, rfl⟩ | ⟨-, log, sums, front, sliced, rfl⟩ := saveSnapToDisk_outcome saved
  · exact ⟨h, id, id⟩
  obtain ⟨⟨low, inside⟩, dropped⟩ := Option.ite_none_right_eq_some.mp sliced
  refine ⟨?_, ?_, ?_⟩
  · intro k pos first last
    change ps.snapshot.lastIndex + 1 ≤ k at first
    change k ≤ ps.state.lastIndex at last
    obtain ⟨b, read, slot⟩ := h k pos (by omega) last
    refine ⟨b, ?_, ?_⟩
    · rw [← read]
      exact IndexedLog.read_of_truncateFront front (by omega)
    · change indexSlice sums (k - (ps.snapshot.lastIndex + 1)) = _
      rw [indexSlice_sliceFrom sliced (by omega), ← slot, Persister.slot]
      exact congrArg _ (by omega)
  · intro inStep
    rw [InStep]
    change ps.state.lastIndex = log.lastIndex
    rw [IndexedLog.lastIndex_of_truncateFront front]
    exact inStep
  · intro tight
    rw [Tight] at tight ⊢
    change (sums.length : Int) = ps.state.lastIndex - (ps.snapshot.lastIndex + 1) + 1
    cases dropped
    rw [List.length_drop]
    omega

/-- The slots behind the cut go with their entries, and so do the spare ones. -/
theorem Checked.truncateBack {index : Int} (h : ps.Checked codec) (inStep : ps.InStep)
    (cut : ps.truncateBack index = some ps') : ps'.Checked codec ∧ ps'.InStep ∧ ps'.Tight := by
  obtain ⟨log, back, cut⟩ := Option.bind_eq_some_iff.mp cut
  obtain ⟨sums, sliced, rfl⟩ := Option.map_eq_some_iff.mp cut
  obtain ⟨⟨low, inside⟩, taken⟩ := Option.ite_none_right_eq_some.mp sliced
  obtain ⟨first, last⟩ := IndexedLog.truncateBack_eq_some_iff.mp ⟨log, back⟩
  have pos := ps.disk.log.pos
  have cutAt := IndexedLog.lastIndex_of_truncateBack back
  rw [InStep] at inStep
  refine ⟨?_, rfl, ?_⟩
  · intro k pos first last
    change ps.state.firstIndex ≤ k at first
    change k ≤ (log.lastIndex : Int) at last
    obtain ⟨b, read, slot⟩ := h k pos first (by omega)
    refine ⟨b, ?_, ?_⟩
    · rw [← read]
      exact IndexedLog.read_of_truncateBack back (by omega)
    · change indexSlice sums (k - ps.state.firstIndex) = _
      rw [indexSlice_sliceTo sliced (by omega)]
      exact slot
  · rw [Tight]
    change (sums.length : Int) = (log.lastIndex : Int) - ps.state.firstIndex + 1
    cases taken
    rw [List.length_take]
    omega

theorem Checked.makeRoom {index : Int} (h : ps.Checked codec) (inStep : ps.InStep)
    (room : ps.makeRoom index = some ps') :
    ps'.Checked codec ∧ ps'.InStep ∧ (ps.Tight → ps'.Tight) := by
  obtain ⟨-, saved⟩ | ⟨-, ⟨-, cut⟩ | ⟨-, rfl⟩⟩ := makeRoom_outcome room
  · obtain ⟨checked, step, tight⟩ := h.saveSnapToDisk saved
    exact ⟨checked, step inStep, tight⟩
  · obtain ⟨checked, step, tight⟩ := h.truncateBack inStep cut
    exact ⟨checked, step, fun _ => tight⟩
  · exact ⟨h, inStep, id⟩

/-- The table stays right if the slot of the new entry has its checksum. -/
theorem Checked.write {index : Int} {b : β} (h : ps.Checked codec) (inStep : ps.InStep)
    (wrote : ps.write codec index b = some ps') :
    (ps'.Checked codec ↔ (ps.state.firstIndex ≤ index → ps'.slot index = some (codec.checksumIEEE b))) ∧
      ps'.InStep ∧ (ps.Tight → ps'.Tight ∧ (ps.state.firstIndex ≤ index →
        ps'.slot index = some (codec.checksumIEEE b))) := by
  obtain ⟨log, hlog, rfl⟩ := Option.map_eq_some_iff.mp wrote
  have next := IndexedLog.index_of_write hlog
  have last := IndexedLog.lastIndex_of_write hlog
  rw [InStep] at inStep
  refine ⟨⟨?_, ?_⟩, rfl, ?_⟩
  · intro checked first
    obtain ⟨b', read, slot⟩ := checked index (by omega) first (by dsimp only; omega)
    have same : some b' = some b := read.symm.trans (IndexedLog.read_of_write_self hlog)
    cases same
    exact slot
  · intro placed k pos first last'
    change ps.state.firstIndex ≤ k at first
    change k ≤ (log.lastIndex : Int) at last'
    by_cases new : k = index
    · subst new
      exact ⟨b, IndexedLog.read_of_write_self hlog, placed first⟩
    · obtain ⟨b', read, slot⟩ := h k pos first (by omega)
      refine ⟨b', ?_, indexSlice_append _ slot⟩
      rw [← read]
      exact IndexedLog.read_of_write_lt hlog (by omega)
  · intro tight
    rw [Tight] at tight
    constructor
    · rw [Tight]
      change ((ps.checkSum ++ [codec.checksumIEEE b]).length : Int) =
        (log.lastIndex : Int) - ps.state.firstIndex + 1
      rw [List.length_append, List.length_singleton]
      omega
    · intro first
      change indexSlice (ps.checkSum ++ [codec.checksumIEEE b]) (index - ps.state.firstIndex) = _
      rw [indexSlice, if_pos (by omega), show (index - ps.state.firstIndex).toNat =
        ps.checkSum.length by omega, List.getElem?_concat_length]

/-! ### What `initFromDisk` fills in -/

theorem length_fillCheckSum (sums : List UInt32) (i : Nat) (bs : List β) :
    (fillCheckSum codec sums i bs).length = sums.length := by
  induction bs generalizing sums i with
  | nil => rfl
  | cons b bs ih => rw [fillCheckSum, ih, List.length_set]

/-- The slots before position `i` are left alone. -/
theorem getElem?_fillCheckSum_lt (codec : Codec β) (sums : List UInt32) {i j : Nat} (bs : List β)
    (hj : j < i) :
    (fillCheckSum codec sums i bs)[j]? = sums[j]? := by
  induction bs generalizing sums i with
  | nil => rfl
  | cons b bs ih =>
      rw [fillCheckSum, ih _ (Nat.lt_succ_of_lt hj), List.getElem?_set_ne (Nat.ne_of_gt hj)]

theorem getElem?_fillCheckSum (codec : Codec β) (sums : List UInt32) (i : Nat) {j : Nat}
    {bs : List β} {b : β} (hb : bs[j]? = some b) (hj : i + j < sums.length) :
    (fillCheckSum codec sums i bs)[i + j]? = some (codec.checksumIEEE b) := by
  induction bs generalizing sums i j with
  | nil => cases hb
  | cons b' bs ih =>
      rw [fillCheckSum]
      cases j with
      | zero =>
          cases hb
          exact (getElem?_fillCheckSum_lt codec _ bs (Nat.lt_succ_self i)).trans
            (List.getElem?_set_self hj)
      | succ j =>
          have slot := ih (sums.set i (codec.checksumIEEE b')) (i + 1) hb
            (by rw [List.length_set]; omega)
          rw [← slot]
          exact congrArg _ (by omega)

theorem loadState_log (disk : Disk β) : disk.loadState.1.log = disk.log := by
  rw [Disk.loadState]
  split <;> rfl

/-- What `initFromDisk` has read is in its slots. The table is as long as it has to be if
there are sixteen indices at least. -/
theorem checked_initFromDisk {disk : Disk β} (init : initFromDisk codec disk = some ps) :
    ps.Checked codec ∧ (disk.loadState.2.lastIndex ≠ -1 →
      16 ≤ disk.loadState.2.lastIndex - disk.loadState.2.firstIndex + 1 → ps.Tight) := by
  rw [initFromDisk] at init
  dsimp only at init
  split at init
  · rename_i nothing
    cases init
    refine ⟨?_, fun some_index => absurd nothing some_index⟩
    intro k pos first last
    change k ≤ 0 at last
    omega
  · rename_i some_index
    generalize disk.loadState.2 = state at init some_index
    obtain ⟨bs, read, rfl⟩ := Option.map_eq_some_iff.mp init
    obtain ⟨count, entries⟩ := IndexedLog.readFrom_eq_some_iff.mp read
    refine ⟨?_, fun _ many => ?_⟩
    · intro k pos first last
      change state.firstIndex ≤ k at first
      change k ≤ state.lastIndex at last
      have inside : (k - max state.firstIndex 1).toNat < bs.length := by omega
      refine ⟨bs[(k - max state.firstIndex 1).toNat], ?_, ?_⟩
      · have here := entries (k - max state.firstIndex 1).toNat inside
        change disk.loadState.1.log.read k.toNat = _
        rw [← here, loadState_log]
        exact congrArg _ (by omega)
      · change indexSlice (fillCheckSum codec (List.replicate _ 0) _ bs) (k - state.firstIndex) = _
        have slot := getElem?_fillCheckSum codec
          (List.replicate (max 16 (state.lastIndex - state.firstIndex + 1)).toNat 0)
          (max state.firstIndex 1 - state.firstIndex).toNat
          (List.getElem?_eq_getElem inside) (by rw [List.length_replicate]; omega)
        rw [indexSlice, if_pos (by omega), ← slot]
        exact congrArg _ (by omega)
    · rw [Tight]
      change ((fillCheckSum codec (List.replicate _ 0) _ bs).length : Int) =
        state.lastIndex - state.firstIndex + 1
      rw [length_fillCheckSum, List.length_replicate]
      omega

/-! ### Runs -/

/-- The end of a round of the writer, which may find that the log refuses the entry. -/
theorem Checked.writeOrDrop {index : Int} {b : β} (h : ps.Checked codec) (inStep : ps.InStep) :
    ((ps.writeOrDrop codec index b).Checked codec ↔ ∀ r, ps.write codec index b = some r →
      ps.state.firstIndex ≤ index → r.slot index = some (codec.checksumIEEE b)) ∧
    (ps.writeOrDrop codec index b).InStep ∧
    (ps.Tight → (ps.writeOrDrop codec index b).Tight ∧ ∀ r, ps.write codec index b = some r →
      ps.state.firstIndex ≤ index → r.slot index = some (codec.checksumIEEE b)) := by
  cases wrote : ps.write codec index b with
  | none =>
      have dropped : ps.writeOrDrop codec index b = ps := by rw [Persister.writeOrDrop, wrote]
      rw [dropped]
      exact ⟨⟨fun _ => by rintro _ ⟨⟩, fun _ => h⟩, inStep, fun was => ⟨was, by rintro _ ⟨⟩⟩⟩
  | some r =>
      have saved : ps.writeOrDrop codec index b = r.saveState := by rw [Persister.writeOrDrop, wrote]
      obtain ⟨written, step, tight⟩ := h.write inStep wrote
      rw [saved]
      refine ⟨⟨?_, fun placed => written.mpr (placed r rfl)⟩, step, fun was => ⟨(tight was).1, ?_⟩⟩
      · rintro checked _ ⟨⟩
        exact written.mp checked
      · rintro _ ⟨⟩
        exact (tight was).2

/-- If the writer is about to append an entry of the range, the table ends right before its
slot, or the slot has its checksum already. -/
def Placed (codec : Codec β) (ps : Persister β) : Section → Prop
  | .saveLogToDisk => ∀ index b rest, ps.entryCh = (index, b) :: rest →
      index = ps.state.lastIndex + 1 → ps.state.firstIndex ≤ index →
      (ps.snapshot.lastIndex ≤ ps.state.lastIndex ∨ ps.snapshot.lastIndex = ps.lastIdx) →
      (ps.checkSum.length : Int) = index - ps.state.firstIndex ∨
        ps.slot index = some (codec.checksumIEEE b)
  | _ => True

/-- Where a new slot is behind the others. -/
theorem indexSlice_concat {α : Type} {s : List α} {i : Int} (x : α) (hi : 0 ≤ i) :
    indexSlice (s ++ [x]) i = some x ↔ (s.length : Int) = i ∨ indexSlice s i = some x := by
  rw [indexSlice, indexSlice, if_pos hi, if_pos hi]
  by_cases inside : i.toNat < s.length
  · rw [List.getElem?_append_left inside]
    exact ⟨.inr, fun here => here.resolve_left (by omega)⟩
  · rw [List.getElem?_append_right (Nat.not_lt.mp inside),
      List.getElem?_eq_none (Nat.not_lt.mp inside), List.getElem?_singleton]
    by_cases behind : i.toNat - s.length = 0
    · rw [if_pos behind]
      exact ⟨fun _ => .inl (by omega), fun _ => rfl⟩
    · rw [if_neg behind]
      constructor
      · intro none
        cases none
      · rintro (here | none)
        · omega
        · cases none

/-- A round that has nothing to cut appends the entry, if it is the next one. -/
theorem slot_write_iff {index : Int} {b : β} (inStep : ps.InStep) :
    (∀ r, ps.write codec index b = some r → ps.state.firstIndex ≤ index →
        r.slot index = some (codec.checksumIEEE b)) ↔
      (index = ps.state.lastIndex + 1 → ps.state.firstIndex ≤ index →
        (ps.checkSum.length : Int) = index - ps.state.firstIndex ∨
          ps.slot index = some (codec.checksumIEEE b)) := by
  rw [InStep] at inStep
  constructor
  · intro placed next first
    obtain ⟨log, hlog⟩ := (IndexedLog.write_eq_some_iff (l := ps.disk.log) (x := b)).mpr
      (show index.toNat = ps.disk.log.lastIndex + 1 by omega)
    have wrote := placed _ (by rw [write, hlog, Option.map_some]) first
    exact (indexSlice_concat _ (by omega)).mp wrote
  · intro placed r wrote first
    obtain ⟨log, hlog, rfl⟩ := Option.map_eq_some_iff.mp wrote
    have next := IndexedLog.index_of_write hlog
    exact (indexSlice_concat _ (Int.sub_nonneg_of_le first)).mpr (placed (by omega) first)

/-- The same for any round, in terms of what the round begins with. -/
theorem Checked.placed_iff {index : Int} {b : β} {rest : List (Int × β)} {q : Persister β}
    (h : ps.Checked codec) (inStep : ps.InStep) (queue : ps.entryCh = (index, b) :: rest)
    (room : Persister.makeRoom { ps with entryCh := rest } index = some q) :
    ps.Placed codec .saveLogToDisk ↔ ∀ r, q.write codec index b = some r →
      q.state.firstIndex ≤ index → r.slot index = some (codec.checksumIEEE b) := by
  have head : ps.Placed codec .saveLogToDisk ↔
      ((ps.snapshot.lastIndex ≤ ps.state.lastIndex ∨ ps.snapshot.lastIndex = ps.lastIdx) →
        index = ps.state.lastIndex + 1 → ps.state.firstIndex ≤ index →
        (ps.checkSum.length : Int) = index - ps.state.firstIndex ∨
          ps.slot index = some (codec.checksumIEEE b)) := by
    constructor
    · exact fun placed reached next first => placed index b rest queue next first reached
    · intro placed index' b' rest' queue' next first reached
      cases queue.symm.trans queue'
      exact placed reached next first
  have popped : ({ ps with entryCh := rest } : Persister β).Checked codec := h
  have inStep' : ({ ps with entryCh := rest } : Persister β).InStep := inStep
  rw [head]
  obtain ⟨ahead, saved⟩ | ⟨reached, ⟨inside, cut⟩ | ⟨-, rfl⟩⟩ := makeRoom_outcome room
  · obtain ⟨same, rfl⟩ | ⟨other, log, sums, front, -, rfl⟩ := saveSnapToDisk_outcome saved
    · rw [slot_write_iff inStep']
      exact ⟨fun placed => placed (.inr same), fun placed _ => placed⟩
    · -- the entry belongs before the snapshot, and is not of the range any more
      refine ⟨fun _ r wrote first => ?_, fun _ reached => ?_⟩
      · obtain ⟨log', hlog, -⟩ := Option.map_eq_some_iff.mp wrote
        have next := IndexedLog.index_of_write hlog
        have last := IndexedLog.lastIndex_of_truncateFront front
        change ps.snapshot.lastIndex + 1 ≤ index at first
        change index.toNat = log.lastIndex + 1 at next
        change ps.state.lastIndex < ps.snapshot.lastIndex at ahead
        dsimp only at last
        rw [InStep] at inStep
        omega
      · exact absurd reached (not_or.mpr ⟨Int.not_le.mpr ahead, other⟩)
  · obtain ⟨checked, step, tight⟩ := popped.truncateBack inStep' cut
    refine ⟨fun _ r wrote first => ((checked.write step wrote).2.2 tight).2 first,
      fun _ _ next => ?_⟩
    change index < ps.state.lastIndex at inside
    omega
  · rw [slot_write_iff inStep']
    exact ⟨fun placed => placed (.inl reached), fun placed _ => placed⟩

/-- What a section makes of a right table. -/
theorem Checked.proceed {a : Section} (h : ps.Checked codec) (inStep : ps.InStep)
    (taken : ps.proceed codec a = some ps') :
    (ps'.Checked codec ↔ ps.Placed codec a) ∧ ps'.InStep ∧
      (ps.Tight → ps'.Tight ∧ ps.Placed codec a) := by
  cases a with
  | save args =>
      obtain ⟨checked, step, tight⟩ := h.save taken
      exact ⟨⟨fun _ => trivial, fun _ => checked⟩, step inStep, fun was => ⟨tight was, trivial⟩⟩
  | saveSnapClock =>
      obtain ⟨checked, step, tight⟩ := h.saveSnapToDisk taken
      exact ⟨⟨fun _ => trivial, fun _ => checked⟩, step inStep, fun was => ⟨tight was, trivial⟩⟩
  | saveLogToDisk =>
      obtain ⟨index, b, rest, q, queue, room, rfl⟩ := saveLogToDisk_outcome taken
      have popped : ({ ps with entryCh := rest } : Persister β).Checked codec := h
      obtain ⟨checked, step, tight⟩ := popped.makeRoom inStep room
      obtain ⟨written, step', tight'⟩ := checked.writeOrDrop (b := b) step
      rw [h.placed_iff inStep queue room]
      exact ⟨written, step', fun was => tight' (tight was)⟩

/-- The entries of a call of `Save` are on disk, at indices of the range. -/
def Written (codec : Codec β) (ps : Persister β) (args : SaveArgs) : Prop :=
  ∀ (i : Nat) e, args.logs[i]? = some e →
    let k := args.lastIncludeIndex + 1 + i
    0 < k ∧ ps.state.firstIndex ≤ k ∧ k ≤ ps.state.lastIndex ∧ codec.encodable e = true ∧
      ps.disk.log.read k.toNat = some (codec.marshal e)

theorem Checked.filterFrom {lastIndex : Int} {logs : List Entry} {i : Int}
    (h : ps.Checked codec) (written : ∀ (j : Nat) e, logs[j]? = some e →
      0 < i + lastIndex + 1 + j ∧ ps.state.firstIndex ≤ i + lastIndex + 1 + j ∧
        i + lastIndex + 1 + j ≤ ps.state.lastIndex ∧ codec.encodable e = true ∧
        ps.disk.log.read (i + lastIndex + 1 + j).toNat = some (codec.marshal e)) :
    ps.filterFrom codec lastIndex i logs = some [] := by
  induction logs generalizing i with
  | nil => rfl
  | cons e logs ih =>
      have here := written 0 e rfl
      rw [Int.natCast_zero, Int.add_zero] at here
      obtain ⟨pos, first, last, encodable, read⟩ := here
      obtain ⟨b, read', slot⟩ := h (i + lastIndex + 1) pos first last
      cases read.symm.trans read'
      rw [Persister.slot] at slot
      have rest : ps.filterFrom codec lastIndex (i + 1) logs = some [] := by
        refine ih fun j e' hj => ?_
        have there := written (j + 1) e' hj
        have index : i + lastIndex + 1 + ((j + 1 : Nat) : Int) = i + 1 + lastIndex + 1 + j := by omega
        rw [index] at there
        exact there
      rw [Persister.filterFrom, if_pos encodable, rest, isNew, if_neg (by omega), slot]
      simp

/-- Nothing is selected from a log that is on disk. -/
theorem Checked.filter {args : SaveArgs} (h : ps.Checked codec) (written : ps.Written codec args) :
    (ps.remember args).filter codec args.lastIncludeIndex args.logs = some [] := by
  rw [Persister.filter]
  split
  · rename_i beyond
    change ps.state.lastIndex ≤ args.lastIncludeIndex at beyond
    cases logs : args.logs with
    | nil => rfl
    | cons e rest =>
        obtain ⟨-, -, last, -, -⟩ := written 0 e (by rw [logs]; rfl)
        omega
  · have remembered : (ps.remember args).Checked codec := h
    refine remembered.filterFrom ?_
    intro j e hj
    rw [List.getElem?_drop] at hj
    have here := written _ e hj
    have index : args.lastIncludeIndex + 1 + (((max 0 ((ps.remember args).state.lastCommitIndex -
        args.lastIncludeIndex)).toNat + j : Nat) : Int) =
        max 0 ((ps.remember args).state.lastCommitIndex - args.lastIncludeIndex) +
          args.lastIncludeIndex + 1 + j := by omega
    rw [index] at here
    exact here

/-- From `initFromDisk` on the table is right exactly as long as every entry that is written
gets its checksum into its slot, and then nothing is queued for a log that is on disk. A table
without spare slots, as it is made for sixteen indices or more, stays right in every run. -/
theorem checkSum_table {disk : Disk β} (init : initFromDisk codec disk = some ps)
    (inStep : ps.InStep) :
    (disk.loadState.2.lastIndex ≠ -1 →
      16 ≤ disk.loadState.2.lastIndex - disk.loadState.2.firstIndex + 1 →
      ∀ s, Reachable (proceed codec) ps s → s.Checked codec) ∧
    ∀ s, Reaches (proceed codec) (Placed codec) ps s →
      s.Checked codec ∧
      (∀ a t, s.proceed codec a = some t → (t.Checked codec ↔ s.Placed codec a)) ∧
      ∀ args, s.Written codec args →
        (s.remember args).filter codec args.lastIncludeIndex args.logs = some [] := by
  obtain ⟨checked, long⟩ := checked_initFromDisk init
  constructor
  · intro some_index many s reached
    have inv : s.Checked codec ∧ s.InStep ∧ s.Tight := by
      refine reached.invariant (I := fun s => s.Checked codec ∧ s.InStep ∧ s.Tight)
        ⟨checked, inStep, long some_index many⟩ ?_
      rintro s a t - ⟨checked, inStep, tight⟩ - taken
      obtain ⟨iff, step, still⟩ := checked.proceed inStep taken
      exact ⟨iff.mpr (still tight).2, step, (still tight).1⟩
    exact inv.1
  · intro s reached
    have inv : s.Checked codec ∧ s.InStep := by
      refine reached.invariant (I := fun s => s.Checked codec ∧ s.InStep) ⟨checked, inStep⟩ ?_
      rintro s a t - ⟨checked, inStep⟩ placed taken
      obtain ⟨iff, step, -⟩ := checked.proceed inStep taken
      exact ⟨iff.mpr placed, step⟩
    exact ⟨inv.1, fun a t taken => (inv.1.proceed inv.2 taken).1, fun args => inv.1.filter⟩

/-- A disk with sixteen entries of term one. -/
def sixteenEntries : Disk Entry where
  stat := some (some { firstIndex := 1, lastIndex := 16 })
  log := ⟨1, List.replicate 16 { term := 1 }, Nat.one_pos⟩

/-- A call of `Save` with so many entries of term one. -/
def saveEqual (n : Nat) : SaveArgs where
  snapshot := []
  votedFor := none
  currentTerm := 1
  logs := List.replicate n { term := 1 }
  lastIncludeIndex := 0
  lastTerm := 0
  commitIndex := 0

theorem checkSum_table_sixteen :
    ∃ ps s, initFromDisk entryCodec sixteenEntries = some ps ∧ ps.InStep ∧
      Reachable (proceed entryCodec) ps s ∧ s.state.lastIndex = 17 ∧ s.Checked entryCodec := by
  obtain ⟨ps, init, inStep, ran⟩ : ∃ ps, initFromDisk entryCodec sixteenEntries = some ps ∧
      ps.InStep ∧ (Library.run (proceed entryCodec) ps [.save (saveEqual 17), .saveLogToDisk]).any
        (fun s => decide (s.state.lastIndex = 17)) = true :=
    ⟨_, rfl, rfl, by decide +kernel⟩
  obtain ⟨s, reached, last⟩ := Library.exists_reachable _ _ ran
  exact ⟨ps, s, init, inStep, reached, last,
    (checkSum_table init inStep).1 (by decide) (by decide) s reached⟩

/-- The first entry of a new node is written, and its slot still has the checksum of the
placeholder. The same log is queued again. -/
theorem checkSum_table_shifted :
    ∃ s, Reachable (proceed entryCodec) (Saving.start entryCodec).ps s ∧
      s.entryCh = [] ∧ s.state.firstIndex = 1 ∧ s.state.lastIndex = 1 ∧ s.InStep ∧
      s.disk.log.read 1 = some { term := 1 } ∧
      (s.remember (saveEqual 1)).filter entryCodec 0 (saveEqual 1).logs = some [(1, { term := 1 })] ∧
      ¬ s.Checked entryCodec := by
  obtain ⟨s, reached, queue, first, last, inStep, read, slot, again⟩ :
      ∃ s, Reachable (proceed entryCodec) (Saving.start entryCodec).ps s ∧
        s.entryCh = [] ∧ s.state.firstIndex = 1 ∧ s.state.lastIndex = 1 ∧
        s.state.lastIndex = s.disk.log.lastIndex ∧ s.disk.log.read 1 = some { term := 1 } ∧
        s.slot 1 = some (entryCodec.checksumIEEE { term := 0 }) ∧
        (s.remember (saveEqual 1)).filter entryCodec 0 (saveEqual 1).logs =
          some [(1, { term := 1 })] :=
    Library.exists_reachable _ [.save (saveEqual 1), .saveLogToDisk] (by decide +kernel)
  refine ⟨s, reached, queue, first, last, inStep, read, again, ?_⟩
  intro checked
  obtain ⟨b, read', slot'⟩ := checked 1 (by decide) (by omega) (by omega)
  cases read.symm.trans read'
  rw [slot] at slot'
  exact absurd slot' (by decide)

end RaftKv.Persister
