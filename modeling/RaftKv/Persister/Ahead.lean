import RaftKv.Persister.CheckSums

/-!
# A snapshot ahead of the log

After `InstallSnapshot` the snapshot of a node may end behind the last index of its log on
disk. `saveSnapToDisk` then cuts the log to its last entry and names the index after the
snapshot as the first one, but the last index of the log stays where it was. The log takes the
entry after that index only, so it refuses every entry behind the snapshot, unless those in
between are still queued. With the gap open the range of the stat file has a negative size, and
a restart aborts.

For an empty log there is nothing to cut, and a table of checksums without spare slots has
none for the index of the snapshot. Both end the process.
-/

namespace RaftKv.Persister

open Library (IndexedLog Reaches Reachable enabled_some)
open Raft (Entry SaveArgs)

variable {β : Type} {codec : Codec β} {ps ps' : Persister β} {args : SaveArgs} {last : Nat}

theorem entries_ne_nil_iff (l : IndexedLog β) : l.entries ≠ [] ↔ l.firstIndex ≤ l.lastIndex := by
  have pos := l.pos
  rw [← List.length_pos_iff, l.length_entries]
  omega

/-! ### Saving the snapshot -/

/-- What `saveSnapToDisk` needs if the snapshot is ahead of the log. -/
theorem saveSnapToDisk_isSome_iff (ahead : (ps.disk.log.lastIndex : Int) < ps.snapshot.lastIndex) :
    (∃ q, ps.saveSnapToDisk = some q) ↔ ps.snapshot.lastIndex = ps.lastIdx ∨
      (ps.disk.log.entries ≠ [] ∧ 0 ≤ ps.snapshot.lastIndex - ps.state.firstIndex + 1 ∧
        ps.snapshot.lastIndex - ps.state.firstIndex + 1 ≤ ps.checkSum.length) := by
  have whole : min ps.snapshot.lastIndex.toNat ps.disk.log.lastIndex = ps.disk.log.lastIndex := by
    omega
  rw [saveSnapToDisk]
  split
  next same => exact ⟨fun _ => .inl same, fun _ => ⟨ps, rfl⟩⟩
  next other =>
    rw [or_iff_right other, entries_ne_nil_iff, truncateFront]
    change (∃ q, ((ps.disk.log.truncateFront
      (min ps.snapshot.lastIndex.toNat ps.disk.log.lastIndex)).map _).bind _ = some q) ↔ _
    rw [whole]
    constructor
    · rintro ⟨q, saved⟩
      obtain ⟨r, cut, saved⟩ := Option.bind_eq_some_iff.mp saved
      obtain ⟨log, front, rfl⟩ := Option.map_eq_some_iff.mp cut
      obtain ⟨sums, sliced, -⟩ := Option.map_eq_some_iff.mp saved
      obtain ⟨inside, -⟩ := Option.ite_none_right_eq_some.mp sliced
      exact ⟨(IndexedLog.truncateFront_eq_some_iff.mp ⟨log, front⟩).1, inside⟩
    · rintro ⟨filled, inside⟩
      obtain ⟨log, cut⟩ := IndexedLog.truncateFront_eq_some_iff.mpr ⟨filled, Nat.le_refl _⟩
      rw [cut, Option.map_some, Option.bind_some]
      change ∃ q, (sliceFrom ps.checkSum
        (ps.snapshot.lastIndex - ps.state.firstIndex + 1)).map _ = some q
      rw [sliceFrom, if_pos inside]
      exact ⟨_, rfl⟩

/-- What stays and what changes. -/
structure SnapSaved (ps ps' : Persister β) : Prop where
  snapshot : ps'.snapshot = ps.snapshot
  entryCh : ps'.entryCh = ps.entryCh
  lastIndex : ps'.state.lastIndex = ps.state.lastIndex
  log : ps'.disk.log.lastIndex = ps.disk.log.lastIndex
  lastIdx : ps'.lastIdx = ps.snapshot.lastIndex
  firstIndex : ps.snapshot.lastIndex ≠ ps.lastIdx →
    ps'.state.firstIndex = ps.snapshot.lastIndex + 1
  settled : ps.Settled → ps'.Settled

theorem snapSaved (saved : ps.saveSnapToDisk = some ps') : SnapSaved ps ps' := by
  obtain ⟨same, rfl⟩ | ⟨-, log, sums, front, -, rfl⟩ := saveSnapToDisk_outcome saved
  · exact ⟨rfl, rfl, rfl, rfl, same.symm, fun other => absurd same other, id⟩
  · exact ⟨rfl, rfl, rfl, IndexedLog.lastIndex_of_truncateFront front, rfl, fun _ => rfl,
      fun _ => rfl⟩

theorem entryCh_writeOrDrop (codec : Codec β) (i : Int) (b : β) (ps : Persister β) :
    (ps.writeOrDrop codec i b).entryCh = ps.entryCh := by
  rw [writeOrDrop, write]
  cases ps.disk.log.write i.toNat b <;> rfl

/-! ### A gap that stays -/

/-- What `Save` queues if the snapshot is ahead. -/
theorem save_ahead (lastIndex : ps.state.lastIndex ≤ args.lastIncludeIndex)
    (saved : ps.save codec args = some ps') :
    (∀ e ∈ args.logs, codec.encodable e = true) ∧ ps' = { ps.remember args with
      entryCh := ps.entryCh ++ numbered (args.lastIncludeIndex + 1) (args.logs.map codec.marshal) } := by
  obtain ⟨entries, selected, saved⟩ := Option.bind_eq_some_iff.mp saved
  obtain ⟨-, rfl⟩ := enabled_some.mp saved
  rw [filter, if_pos (show (ps.remember args).state.lastIndex ≤ _ from lastIndex)] at selected
  obtain ⟨coded, rfl⟩ := enabled_some.mp selected
  exact ⟨List.all_eq_true.mp coded, rfl⟩

/-- The log on disk ends with index `last`, the snapshot behind it, and what could carry on
is not queued. -/
structure Gap (last : Nat) (ps : Persister β) : Prop where
  log : ps.disk.log.lastIndex = last
  lastIndex : ps.state.lastIndex = last
  ahead : (last : Int) < ps.snapshot.lastIndex
  queue : ∀ p ∈ ps.entryCh, p.1 ≠ last + 1
  settled : ps.Settled

/-- Snapshots do not go back behind the log. -/
def Later (last : Nat) (_ : Persister β) : Section → Prop
  | .save args => (last : Int) < args.lastIncludeIndex
  | _ => True

namespace Gap

theorem saveSnapToDisk (h : Gap last ps) (saved : ps.saveSnapToDisk = some ps') : Gap last ps' := by
  have same := snapSaved saved
  refine ⟨same.log.trans h.log, same.lastIndex.trans h.lastIndex, ?_, ?_, same.settled h.settled⟩
  · rw [same.snapshot]
    exact h.ahead
  · rw [same.entryCh]
    exact h.queue

/-- A call of `Save` queues entries behind its snapshot. -/
theorem of_save (log : ps.disk.log.lastIndex = last) (lastIndex : ps.state.lastIndex = last)
    (queue : ∀ p ∈ ps.entryCh, p.1 ≠ last + 1) (ahead : (last : Int) < args.lastIncludeIndex)
    (saved : ps.save codec args = some ps') : Gap last ps' := by
  obtain ⟨-, rfl⟩ := save_ahead (by omega) saved
  refine ⟨log, lastIndex, ahead, ?_, rfl⟩
  intro p hp
  rcases List.mem_append.mp hp with hp | hp
  · exact queue p hp
  · obtain ⟨k, index, -⟩ := mem_numbered hp
    omega

/-- The writer drops what it takes from the queue. -/
theorem saveLogToDisk (h : Gap last ps) (taken : ps.saveLogToDisk codec = some ps') :
    Gap last ps' := by
  obtain ⟨index, b, rest, q, queue, room, rfl⟩ := saveLogToDisk_outcome taken
  have popped : Gap last { ps with entryCh := rest } :=
    { h with queue := fun p hp => h.queue p (by rw [queue]; exact List.mem_cons_of_mem _ hp) }
  have before : ps.state.lastIndex < ps.snapshot.lastIndex := by
    rw [h.lastIndex]
    exact h.ahead
  rw [Persister.makeRoom, if_pos before] at room
  have gap := popped.saveSnapToDisk room
  have other := h.queue (index, b) (by rw [queue]; exact List.mem_cons_self)
  have refused : q.write codec index b = none := by
    rw [write, Option.map_eq_none_iff, IndexedLog.write_eq_none_iff, gap.log]
    dsimp only at other
    omega
  rw [writeOrDrop, refused]
  exact gap

theorem proceed {a : Section} (h : Gap last ps) (later : Later last ps a)
    (taken : ps.proceed codec a = some ps') : Gap last ps' := by
  cases a with
  | save args => exact of_save h.log h.lastIndex h.queue later taken
  | saveLogToDisk => exact h.saveLogToDisk taken
  | saveSnapClock => exact h.saveSnapToDisk taken

end Gap

/-! ### After a restart -/

/-- After a restart `ReadRaftState` returns these entries, from `FirstIndex` on. -/
def Returns (codec : Codec β) (ps : Persister β) (logs : List Entry) : Prop :=
  ∃ r saved, initFromDisk codec ps.disk = some r ∧
    r.readRaftState codec = some ({ term := max (ps.state.firstIndex - 1) 0 } :: logs, saved)

theorem returns_iff {logs : List Entry} (settled : ps.Settled) (first : 1 ≤ ps.state.firstIndex)
    (nonneg : 0 ≤ ps.state.lastIndex) :
    ps.Returns codec logs ↔ ps.state.firstIndex ≤ ps.state.lastIndex + 1 ∧
      (ps.disk.log.readFrom (ps.state.lastIndex + 1 - ps.state.firstIndex).toNat
        ps.state.firstIndex.toNat).bind (List.mapM codec.unmarshal) = some logs := by
  have start : max ps.state.firstIndex 1 = ps.state.firstIndex := by omega
  have loaded := initFromDisk_eq codec settled (by omega)
  rw [start] at loaded
  have count : (if 0 < ps.state.lastIndex then ps.state.lastIndex + 1 - ps.state.firstIndex
      else 0).toNat = (ps.state.lastIndex + 1 - ps.state.firstIndex).toNat := by
    split <;> omega
  constructor
  · rintro ⟨r, saved, restarted, read⟩
    obtain ⟨bs, -, rfl⟩ := Option.map_eq_some_iff.mp (loaded.symm.trans restarted)
    rw [readRaftState] at read
    obtain ⟨dense, read⟩ := Option.ite_none_left_eq_some.mp read
    obtain ⟨cs, window, read⟩ := Option.bind_eq_some_iff.mp read
    obtain ⟨es, decoded, read⟩ := Option.map_eq_some_iff.mp read
    obtain ⟨same, -⟩ := Prod.mk.inj read
    cases List.tail_eq_of_cons_eq same
    dsimp only at dense window
    rw [count] at window
    exact ⟨by omega, by rw [window, Option.bind_some, decoded]⟩
  · rintro ⟨dense, read⟩
    obtain ⟨bs, window, decoded⟩ := Option.bind_eq_some_iff.mp read
    rw [window, Option.map_some] at loaded
    refine ⟨_, (ps.state.votedFor, ps.state.currentTerm, ps.state.lastCommitIndex), loaded, ?_⟩
    rw [readRaftState]
    dsimp only
    rw [if_neg (by omega), count, window, Option.bind_some, decoded, Option.map_some]

/-- Behind a gap the range that the stat file names has a negative size. -/
theorem Gap.not_returns (h : Gap last ps) (first : (last : Int) + 1 < ps.state.firstIndex)
    (logs : List Entry) : ¬ ps.Returns codec logs := by
  have lastIndex := h.lastIndex
  rw [returns_iff h.settled (by omega) (by omega)]
  rintro ⟨dense, -⟩
  omega

/-! ### A gap that is closed -/

/-- What the writer makes of the entries `zs` behind index `last` when it takes the entry of
index `i`, with a saved snapshot at index `l`. It appends the next index. Up to the snapshot
it drops everything else. Behind it the entry of an index before the last one replaces what
comes from there on, and for an index that the snapshot covers this is fatal. -/
def acceptBehind (last l : Int) (zs : List β) (p : Int × β) : Option (List β) :=
  if l ≤ last + zs.length ∧ p.1 < last + zs.length then
    if l < p.1 then some (zs.take (p.1 - 1 - last).toNat ++ [p.2]) else none
  else if p.1 = last + zs.length + 1 then some (zs ++ [p.2])
  else some zs

/-- The entries behind the snapshot that a restart finds are `logs`. -/
def Keeps (codec : Codec β) (last l : Int) (zs : List β) (logs : List Entry) : Prop :=
  l ≤ last + zs.length ∧ (zs.drop (l - last).toNat).mapM codec.unmarshal = some logs

/-- The entries `zs` stand on disk behind index `last`, the snapshot at index `l` is saved. -/
structure Bridging (last : Nat) (l : Int) (zs : List β) (ps : Persister β) : Prop where
  log : ∃ base, ps.disk.log.entries = base ++ zs ∧ ps.disk.log.firstIndex + base.length = last + 1
  lastIndex : ps.state.lastIndex = last + zs.length
  firstIndex : ps.state.firstIndex = l + 1
  snapshot : ps.snapshot.lastIndex = l
  lastIdx : ps.lastIdx = l
  checkSum : (last : Int) + zs.length ≤ l + ps.checkSum.length
  settled : ps.Settled

namespace Bridging

variable {l : Int} {zs : List β}

theorem last_log (h : Bridging last l zs ps) : ps.disk.log.lastIndex = last + zs.length := by
  obtain ⟨base, entries, first⟩ := h.log
  rw [IndexedLog.lastIndex, entries, List.length_append]
  omega

theorem popped (h : Bridging last l zs ps) (rest : List (Int × β)) :
    Bridging last l zs { ps with entryCh := rest } :=
  { h with }

/-- The entry with the next index. -/
theorem writeOrDrop_next (codec : Codec β) (h : Bridging last l zs ps) (b : β) :
    Bridging last l (zs ++ [b]) (ps.writeOrDrop codec (last + zs.length + 1) b) := by
  obtain ⟨log, wrote⟩ := (IndexedLog.write_eq_some_iff (l := ps.disk.log) (x := b)).mpr
    (show ((last : Int) + zs.length + 1).toNat = _ by rw [h.last_log]; omega)
  have lastIndex := IndexedLog.lastIndex_of_write wrote
  rw [writeOrDrop, write, wrote, Option.map_some]
  obtain ⟨base, entries, first⟩ := h.log
  have sums := h.checkSum
  refine ⟨⟨base, ?_, ?_⟩, ?_, h.firstIndex, h.snapshot, h.lastIdx, ?_, rfl⟩
  · change log.entries = _
    rw [IndexedLog.entries_of_write wrote, entries, List.append_assoc]
  · change log.firstIndex + _ = _
    rw [IndexedLog.firstIndex_of_write wrote, first]
  · change (log.lastIndex : Int) = _
    rw [lastIndex, List.length_append, List.length_singleton]
    omega
  · change _ ≤ l + ((ps.checkSum ++ [codec.checksumIEEE b]).length : Int)
    rw [List.length_append, List.length_append, List.length_singleton, List.length_singleton]
    omega

/-- Any other index is dropped. -/
theorem writeOrDrop_other (codec : Codec β) (h : Bridging last l zs ps) {i : Int} (b : β)
    (other : i ≠ last + zs.length + 1) : ps.writeOrDrop codec i b = ps := by
  have refused : ps.write codec i b = none := by
    rw [write, Option.map_eq_none_iff, IndexedLog.write_eq_none_iff, h.last_log]
    omega
  rw [writeOrDrop, refused]

/-- The cut before the entry of an index behind the snapshot, and that entry. -/
theorem truncateBack (codec : Codec β) (h : Bridging last l zs ps) {i : Int} (b : β)
    (ahead : (last : Int) < l) (behind : l < i) (inside : i < last + zs.length) :
    ∃ q, ps.truncateBack i = some q ∧ q.entryCh = ps.entryCh ∧
      Bridging last l (zs.take (i - 1 - last).toNat ++ [b]) (q.writeOrDrop codec i b) := by
  obtain ⟨base, entries, first⟩ := h.log
  have sums := h.checkSum
  have firstIndex := h.firstIndex
  obtain ⟨log, cut⟩ := IndexedLog.truncateBack_eq_some_iff.mpr
    (show ps.disk.log.firstIndex ≤ (i - 1).toNat ∧ (i - 1).toNat ≤ ps.disk.log.lastIndex by
      rw [h.last_log]; omega)
  have length : (zs.take (i - 1 - last).toNat).length = (i - 1 - last).toNat := by
    rw [List.length_take]
    omega
  have sliced : sliceTo ps.checkSum (i - ps.state.firstIndex) =
      some (ps.checkSum.take (i - ps.state.firstIndex).toNat) := if_pos (by omega)
  rw [Persister.truncateBack, cut, Option.bind_some, sliced, Option.map_some]
  refine ⟨_, rfl, rfl, ?_⟩
  -- what the cut leaves carries on with `i`, so the entry is written and the stat file with it
  obtain ⟨log', wrote⟩ := (IndexedLog.write_eq_some_iff (l := log) (x := b)).mpr
    (show i.toNat = _ by rw [IndexedLog.lastIndex_of_truncateBack cut]; omega)
  rw [writeOrDrop, write, wrote, Option.map_some]
  refine ⟨⟨base, ?_, ?_⟩, ?_, firstIndex, h.snapshot, h.lastIdx, ?_, rfl⟩
  · change log'.entries = _
    rw [IndexedLog.entries_of_write wrote, IndexedLog.entries_of_truncateBack cut, entries,
      List.take_append, List.take_of_length_le (by omega), List.append_assoc]
    congr 3
    omega
  · change log'.firstIndex + _ = _
    rw [IndexedLog.firstIndex_of_write wrote, IndexedLog.firstIndex_of_truncateBack cut, first]
  · change (log'.lastIndex : Int) = _
    rw [IndexedLog.lastIndex_of_write wrote, List.length_append, length, List.length_singleton]
    omega
  · change _ ≤ l + ((ps.checkSum.take (i - ps.state.firstIndex).toNat ++
      [codec.checksumIEEE b]).length : Int)
    rw [List.length_append, List.length_append, length, List.length_take, List.length_singleton,
      List.length_singleton]
    omega

/-- A cut at an index that the snapshot covers has no slot of the table to begin with. -/
theorem truncateBack_none (h : Bridging last l zs ps) {i : Int} (covered : i ≤ l) :
    ps.truncateBack i = none := by
  have sliced : sliceTo ps.checkSum (i - ps.state.firstIndex) = none :=
    if_neg (by rw [h.firstIndex]; omega)
  rw [Persister.truncateBack, sliced]
  exact Option.bind_eq_none_iff.mpr fun _ _ => rfl

/-- A round does to the entries behind `last` what `acceptBehind` says. -/
theorem saveLogToDisk (codec : Codec β) (h : Bridging last l zs ps) (ahead : (last : Int) < l)
    {p : Int × β} {rest : List (Int × β)} (queue : ps.entryCh = p :: rest) :
    (acceptBehind last l zs p = none ∧ ps.saveLogToDisk codec = none) ∨
      ∃ zs' q, acceptBehind last l zs p = some zs' ∧ ps.saveLogToDisk codec = some q ∧
        q.entryCh = rest ∧ Bridging last l zs' q := by
  have h' := h.popped rest
  have snap := h'.snapshot
  have lastIndex := h'.lastIndex
  have round : ps.saveLogToDisk codec =
      (makeRoom { ps with entryCh := rest } p.1).map (Persister.writeOrDrop codec p.1 p.2) := by
    rw [Persister.saveLogToDisk, queue]
  rw [round]
  by_cases cuts : l ≤ last + zs.length ∧ p.1 < last + zs.length
  · have room : makeRoom { ps with entryCh := rest } p.1 =
        Persister.truncateBack { ps with entryCh := rest } p.1 := by
      rw [makeRoom, if_neg (by rw [snap, lastIndex]; omega), if_pos (by rw [lastIndex]; omega)]
    rw [acceptBehind, if_pos cuts, room]
    by_cases covered : p.1 ≤ l
    · refine .inl ⟨if_neg (Int.not_lt.mpr covered), ?_⟩
      rw [h'.truncateBack_none covered, Option.map_none]
    · obtain ⟨q, cut, kept, written⟩ :=
        h'.truncateBack codec p.2 ahead (Int.not_le.mp covered) cuts.2
      refine .inr ⟨_, _, if_pos (Int.not_le.mp covered), by rw [cut, Option.map_some], ?_, written⟩
      rw [entryCh_writeOrDrop, kept]
  · have room : makeRoom { ps with entryCh := rest } p.1 = some { ps with entryCh := rest } := by
      rw [makeRoom]
      split
      · rw [saveSnapToDisk, if_pos (snap.trans h'.lastIdx.symm)]
      · rw [if_neg (by rw [lastIndex]; omega)]
    rw [acceptBehind, if_neg cuts, room]
    refine .inr ?_
    by_cases next : p.1 = last + zs.length + 1
    · refine ⟨_, _, if_pos next, rfl, entryCh_writeOrDrop .., ?_⟩
      rw [next]
      exact h'.writeOrDrop_next codec p.2
    · refine ⟨_, _, if_neg next, rfl, entryCh_writeOrDrop .., ?_⟩
      rw [h'.writeOrDrop_other codec p.2 next]
      exact h'

/-- The writer left to itself. -/
theorem drain (codec : Codec β) (h : Bridging last l zs ps) (ahead : (last : Int) < l) :
    (ps.entryCh.foldlM (acceptBehind last l) zs = none ∧
      Library.run (proceed codec) ps (List.replicate ps.entryCh.length .saveLogToDisk) = none) ∨
    ∃ zs' q, ps.entryCh.foldlM (acceptBehind last l) zs = some zs' ∧
      Library.run (proceed codec) ps (List.replicate ps.entryCh.length .saveLogToDisk) = some q ∧
      q.entryCh = [] ∧ Bridging last l zs' q := by
  generalize waiting : ps.entryCh = queue
  induction queue generalizing ps zs with
  | nil => exact .inr ⟨zs, ps, rfl, rfl, waiting, h⟩
  | cons p rest ih =>
      rw [List.foldlM_cons, List.length_cons, List.replicate_succ, Library.run_cons]
      change (_ ∧ (ps.saveLogToDisk codec).bind _ = none) ∨
        ∃ zs' q, _ ∧ (ps.saveLogToDisk codec).bind _ = some q ∧ _
      obtain ⟨refused, aborted⟩ | ⟨zs', q, accepted, taken, left, h'⟩ :=
        h.saveLogToDisk codec ahead waiting
      · rw [refused, aborted]
        exact .inl ⟨rfl, rfl⟩
      · rw [accepted, taken]
        exact ih h' left

/-- What a restart returns are the entries behind the snapshot. -/
theorem returns_iff (h : Bridging last l zs ps) (ahead : (last : Int) < l) {logs : List Entry} :
    ps.Returns codec logs ↔ Keeps codec last l zs logs := by
  have firstIndex := h.firstIndex
  have lastIndex := h.lastIndex
  rw [Persister.returns_iff h.settled (by omega) (by omega)]
  have range : ps.state.firstIndex ≤ ps.state.lastIndex + 1 ↔ l ≤ last + zs.length := by omega
  rw [range, Keeps]
  refine and_congr_right fun dense => ?_
  · obtain ⟨base, entries, first⟩ := h.log
    have read : ps.disk.log.readFrom (ps.state.lastIndex + 1 - ps.state.firstIndex).toNat
        ps.state.firstIndex.toNat = some (zs.drop (l - last).toNat) := by
      rw [IndexedLog.readFrom_eq_some_iff]
      refine ⟨by rw [List.length_drop]; omega, ?_⟩
      intro k hk
      have position : ps.state.firstIndex.toNat + k - ps.disk.log.firstIndex =
          base.length + ((l - last).toNat + k) := by
        omega
      rw [IndexedLog.read, if_pos (by omega), entries, position,
        List.getElem?_append_right (by omega), Nat.add_sub_cancel_left, ← List.getElem?_drop,
        List.getElem?_eq_getElem]
    rw [read, Option.bind_some]

theorem drain_returns_iff (h : Bridging last l zs ps) (ahead : (last : Int) < l)
    {logs : List Entry} :
    (∃ s, Library.run (proceed codec) ps (List.replicate ps.entryCh.length .saveLogToDisk) = some s ∧
      s.entryCh = [] ∧ s.state.firstIndex = l + 1 ∧ s.Returns codec logs) ↔
    ∃ zs', ps.entryCh.foldlM (acceptBehind last l) zs = some zs' ∧ Keeps codec last l zs' logs := by
  obtain ⟨refused, aborted⟩ | ⟨zs', q, folded, ran, empty, ended⟩ := h.drain codec ahead
  · rw [refused, aborted]
    simp
  · rw [folded, ran]
    constructor
    · rintro ⟨s, same, -, -, returns⟩
      cases same
      exact ⟨zs', rfl, (ended.returns_iff ahead).mp returns⟩
    · rintro ⟨zs'', same, keeps⟩
      cases same
      exact ⟨q, rfl, empty, ended.firstIndex, (ended.returns_iff ahead).mpr keeps⟩

end Bridging

/-! ### The entries of the call -/

/-- The entries `zs` behind `last` reach the snapshot at index `l`, and the writer puts `logs`
there from the next index on. It leaves an entry that is the last one of the log, so this has
to be the first of `logs` already. -/
def Meets (codec : Codec β) (last l : Int) (zs : List β) (logs : List Entry) : Prop :=
  last + zs.length = l ∨
    (last + zs.length = l + 1 ∧ ∃ b e rest, zs.getLast? = some b ∧ codec.unmarshal b = some e ∧
      logs = e :: rest) ∨
    (l + 1 < last + zs.length ∧ logs ≠ [])

/-- The queue fills the gap between the index `last` and the snapshot at index `l` and ends
with what `logs` can carry on. -/
def Bridged (codec : Codec β) (last l : Int) (queue : List (Int × β)) (logs : List Entry) : Prop :=
  ∃ zs, queue.foldlM (acceptBehind last l) [] = some zs ∧ Meets codec last l zs logs

section Behind

variable {last l : Int} {zs : List β}

theorem acceptBehind_next (last l : Int) (zs bs : List β) :
    (numbered (last + zs.length + 1) bs).foldlM (acceptBehind last l) zs = some (zs ++ bs) := by
  induction bs generalizing zs with
  | nil => rw [List.append_nil]; rfl
  | cons b bs ih =>
      have carried := ih (zs ++ [b])
      rw [List.length_append, List.length_singleton, List.append_assoc, Int.natCast_add,
        Int.natCast_one, ← Int.add_assoc] at carried
      rw [numbered, List.foldlM_cons, acceptBehind, if_neg (by omega), if_pos rfl]
      exact carried

theorem acceptBehind_gap {i : Int} (bs : List β) (short : last + zs.length < l)
    (far : last + zs.length + 1 < i) :
    (numbered i bs).foldlM (acceptBehind last l) zs = some zs := by
  induction bs generalizing i with
  | nil => rfl
  | cons b bs ih =>
      rw [numbered, List.foldlM_cons, acceptBehind, if_neg (by omega), if_neg (by omega)]
      exact ih (by omega)

/-- The last entry of the log stays. -/
theorem acceptBehind_last (b : β) (bs : List β) (one : last + zs.length = l + 1) :
    (numbered (l + 1) (b :: bs)).foldlM (acceptBehind last l) zs = some (zs ++ bs) := by
  rw [numbered, List.foldlM_cons, acceptBehind, if_neg (by omega), if_neg (by omega), ← one]
  exact acceptBehind_next last l zs bs

theorem acceptBehind_inside (b : β) (bs : List β) (ahead : last < l)
    (more : l + 1 < last + zs.length) :
    (numbered (l + 1) (b :: bs)).foldlM (acceptBehind last l) zs =
      some (zs.take (l - last).toNat ++ b :: bs) := by
  have carried := acceptBehind_next last l (zs.take (l - last).toNat ++ [b]) bs
  have next : last + ((zs.take (l - last).toNat ++ [b]).length : Int) + 1 = l + 1 + 1 := by
    rw [List.length_append, List.length_take, List.length_singleton]
    omega
  rw [next, List.append_assoc] at carried
  rw [numbered, List.foldlM_cons, acceptBehind, if_pos (by omega), if_pos (by omega),
    show l + 1 - 1 - last = l - last by omega]
  exact carried

theorem Keeps.length_of_nil {codec : Codec β} (h : Keeps codec last l zs []) (ahead : last < l) :
    last + zs.length = l := by
  obtain ⟨reached, decoded⟩ := h
  cases behind : zs.drop (l - last).toNat with
  | nil =>
      have length := List.length_drop (l := zs) (i := (l - last).toNat)
      rw [behind, List.length_nil] at length
      omega
  | cons b bs =>
      rw [behind, List.mapM_cons] at decoded
      simp [Option.bind_eq_some_iff] at decoded

/-- The log ends with one entry behind the snapshot, which the writer leaves. -/
theorem keeps_last_iff {codec : Codec β} {e : Entry} {rest : List Entry} (ahead : last < l)
    (one : last + zs.length = l + 1) (coded : ∀ e ∈ rest, codec.encodable e = true) :
    Keeps codec last l (zs ++ rest.map codec.marshal) (e :: rest) ↔
      ∃ b, zs.getLast? = some b ∧ codec.unmarshal b = some e := by
  obtain ⟨ys, b, rfl⟩ : ∃ ys b, zs = ys ++ [b] := by
    refine List.eq_nil_or_concat' zs |>.resolve_left ?_
    rintro rfl
    rw [List.length_nil] at one
    omega
  rw [List.length_append, List.length_singleton] at one
  have behind : ((ys ++ [b]) ++ rest.map codec.marshal).drop (l - last).toNat =
      b :: rest.map codec.marshal := by
    rw [List.append_assoc, List.drop_left' (by omega)]
    rfl
  have reached : l ≤ last + ((ys ++ [b]) ++ rest.map codec.marshal).length := by
    rw [List.length_append, List.length_append, List.length_singleton]
    omega
  rw [Keeps, behind, List.mapM_cons, mapM_unmarshal coded, List.getLast?_concat,
    and_iff_right reached]
  simp [Option.bind_eq_some_iff]

/-- What the writer leaves behind the snapshot are the entries of the call. -/
theorem meets_iff (codec : Codec β) {logs : List Entry} (ahead : last < l)
    (coded : ∀ e ∈ logs, codec.encodable e = true) :
    (∃ zs', (numbered (l + 1) (logs.map codec.marshal)).foldlM (acceptBehind last l) zs = some zs' ∧
      Keeps codec last l zs' logs) ↔ Meets codec last l zs logs := by
  obtain short | ends | one | more : last + zs.length < l ∨ last + zs.length = l ∨
      last + zs.length = l + 1 ∨ l + 1 < last + zs.length := by
    omega
  · -- the gap is open, everything is dropped
    rw [acceptBehind_gap _ short (by omega)]
    simp only [Option.some.injEq, exists_eq_left', Keeps, Meets]
    omega
  · have taken := acceptBehind_next last l zs (logs.map codec.marshal)
    rw [ends] at taken
    rw [taken]
    simp only [Option.some.injEq, exists_eq_left', Meets, ends, true_or, iff_true]
    refine ⟨?_, ?_⟩
    · rw [List.length_append]
      omega
    · rw [List.drop_left' (by omega), mapM_unmarshal coded]
  · cases logs with
    | nil =>
        refine ⟨?_, ?_⟩
        · rintro ⟨zs', same, kept⟩
          cases same
          exact .inl (kept.length_of_nil ahead)
        · rintro (ends | ⟨-, b, e, rest, -, -, empty⟩ | ⟨-, filled⟩)
          · omega
          · cases empty
          · exact absurd rfl filled
    | cons e rest =>
        rw [List.map_cons, acceptBehind_last _ _ one]
        simp only [Option.some.injEq, exists_eq_left']
        rw [keeps_last_iff ahead one (List.forall_mem_cons.mp coded).2]
        constructor
        · rintro ⟨b, final, decoded⟩
          exact .inr (.inl ⟨one, b, e, rest, final, decoded, rfl⟩)
        · rintro (ends | ⟨-, b, e', rest', final, decoded, same⟩ | ⟨more, -⟩)
          · omega
          · cases same
            exact ⟨b, final, decoded⟩
          · omega
  · cases logs with
    | nil =>
        refine ⟨?_, ?_⟩
        · rintro ⟨zs', same, kept⟩
          cases same
          exact .inl (kept.length_of_nil ahead)
        · rintro (ends | ⟨one, -⟩ | ⟨-, filled⟩)
          · omega
          · omega
          · exact absurd rfl filled
    | cons e rest =>
        rw [List.map_cons, acceptBehind_inside _ _ ahead more]
        simp only [Option.some.injEq, exists_eq_left']
        refine iff_of_true ⟨?_, ?_⟩ (.inr (.inr ⟨more, List.cons_ne_nil e rest⟩))
        · rw [List.length_append, List.length_take]
          omega
        · rw [List.drop_left' (by rw [List.length_take]; omega)]
          exact mapM_unmarshal coded

end Behind

/-- The queue of the call behind the one before. -/
theorem bridged_iff {queue : List (Int × β)} {logs : List Entry} {last l : Int} (ahead : last < l)
    (coded : ∀ e ∈ logs, codec.encodable e = true) :
    Bridged codec last l queue logs ↔
      ∃ zs, (queue ++ numbered (l + 1) (logs.map codec.marshal)).foldlM
        (acceptBehind last l) [] = some zs ∧ Keeps codec last l zs logs := by
  rw [Bridged, List.foldlM_append]
  constructor
  · rintro ⟨zs, taken, meets⟩
    obtain ⟨zs', more, keeps⟩ := (meets_iff codec ahead coded).mpr meets
    refine ⟨zs', ?_, keeps⟩
    rw [taken]
    exact more
  · rintro ⟨zs', both, keeps⟩
    obtain ⟨zs, taken, more⟩ := Option.bind_eq_some_iff.mp both
    exact ⟨zs, taken, (meets_iff codec ahead coded).mp ⟨zs', more, keeps⟩⟩

/-- The state in which `saveSnapToDisk` leaves the log has nothing behind its last index. -/
theorem Bridging.of_saved {ps₁ : Persister β} (saved : ps₁.saveSnapToDisk = some ps')
    (inStep : ps₁.InStep) (settled : ps₁.Settled)
    (ahead : (ps₁.disk.log.lastIndex : Int) < ps₁.snapshot.lastIndex)
    (first : ps'.state.firstIndex = ps₁.snapshot.lastIndex + 1) :
    Bridging ps₁.disk.log.lastIndex ps₁.snapshot.lastIndex [] ps' := by
  rw [InStep] at inStep
  have kept := snapSaved saved
  refine ⟨⟨ps'.disk.log.entries, (List.append_nil _).symm, ?_⟩, ?_, first, ?_, kept.lastIdx, ?_,
    kept.settled settled⟩
  · have pos := ps'.disk.log.pos
    rw [← kept.log, IndexedLog.lastIndex]
    omega
  · rw [kept.lastIndex, inStep, List.length_nil]
    omega
  · rw [kept.snapshot]
  · rw [List.length_nil]
    omega

/-- A snapshot at `index`, with so many entries of term one behind it. -/
def saveSnapshotAt (index : Int) (n : Nat) : SaveArgs :=
  { saveEqual n with snapshot := [1], lastIncludeIndex := index, lastTerm := 1, commitIndex := index }

end RaftKv.Persister
