import RaftKv.Raft.Sections

/-!
# Cutting the log at a snapshot

`Snapshot` and `InstallSnapshot` move `lastIncludedIndex` and rebuild the slice, so that a
global index has to lead to the same entry as before. Both cut the slice at the position
of the new index, which keeps every entry behind it.

`InstallSnapshot` does so only if the log has the last included entry. Otherwise it means
to start a log with this entry as its placeholder, but appends the entry to a slice that
has one nil pointer already. The log then has a nil placeholder and, one index too late,
the last included entry.
-/

namespace RaftKv.Raft

theorem deref_drop (log : List (Option Entry)) (k : Nat) {i : Int} (hi : 0 ≤ i) :
    deref (log.drop k) i = deref log (k + i) := by
  rw [deref, deref, if_pos hi, if_pos (by omega), List.getElem?_drop]
  congr 2
  omega

namespace Raftserver

variable {rf rf' : Raftserver}

/-- Only the placeholder of the log may be a nil pointer. -/
def Filled (rf : Raftserver) : Prop :=
  ∃ (first : Option Entry) (rest : List Entry), rf.log = first :: rest.map some

theorem Filled.persist (h : rf.Filled) : rf.persist.isSome := by
  obtain ⟨first, rest, hlog⟩ := h
  rw [Raftserver.persist, hlog]
  simp

theorem Filled.entryAt (h : rf.Filled) {i : Int} (hfirst : rf.lastIncludedIndex < i)
    (hlast : i ≤ rf.lastIndex) : (rf.entryAt i).isSome := by
  obtain ⟨first, rest, hlog⟩ := h
  rw [lastIndex, localToGlobal, hlog, List.length_cons, List.length_map] at hlast
  obtain ⟨k, hk⟩ : ∃ k : Nat, rf.globalToLocal i = (k + 1 : Nat) :=
    ⟨(rf.globalToLocal i).toNat - 1, by rw [globalToLocal]; omega⟩
  rw [Raftserver.entryAt, hk, hlog, deref_natCast, List.getElem?_cons_succ, List.getElem?_map,
    List.getElem?_eq_getElem (by rw [globalToLocal] at hk; omega)]
  rfl

theorem Filled.drop (h : rf.Filled) {k : Nat} (hk : k < rf.log.length)
    (hlog : rf'.log = rf.log.drop k) : rf'.Filled := by
  obtain ⟨first, rest, hrest⟩ := h
  rw [hrest] at hlog hk
  cases k with
  | zero => exact ⟨first, rest, hlog⟩
  | succ k =>
      rw [List.length_cons, List.length_map] at hk
      rw [List.drop_succ_cons, ← List.map_drop, List.drop_eq_getElem_cons (by omega)] at hlog
      exact ⟨_, _, hlog⟩

/-- `rf'` has the log of `rf` from `index` on, with the entry at `index` as its
placeholder. -/
structure CutAt (rf : Raftserver) (index : Int) (rf' : Raftserver) : Prop where
  included : rf'.lastIncludedIndex = index
  placeholder : ∃ e, rf'.log.head? = some (some e) ∧ e.term = rf'.lastIncludedTerm
  entries : ∀ g, index < g → rf'.entryAt g = rf.entryAt g
  last : rf'.lastIndex = rf.lastIndex

/-- Cutting at an index that the log has. -/
theorem CutAt.of_drop {index : Int} {e : Entry} (hle : rf.lastIncludedIndex ≤ index)
    (he : rf.entryAt index = some e) (term : rf'.lastIncludedTerm = e.term)
    (log : rf'.log = rf.log.drop (rf.globalToLocal index).toNat)
    (included : rf'.lastIncludedIndex = index) : rf.CutAt index rf' := by
  have hlocal : ((rf.globalToLocal index).toNat : Int) = rf.globalToLocal index := by
    rw [globalToLocal]
    omega
  rw [entryAt, ← hlocal, deref_natCast, Option.join_eq_some_iff] at he
  have hlt := (List.getElem?_eq_some_iff.mp he).1
  refine ⟨included, ⟨e, ?_, term.symm⟩, ?_, ?_⟩
  · rw [log, List.head?_drop, he]
  · intro g hg
    have hposition : 0 ≤ rf'.globalToLocal g := by
      rw [globalToLocal]
      omega
    rw [entryAt, entryAt, log, deref_drop _ _ hposition, hlocal]
    congr 1
    rw [globalToLocal, globalToLocal, globalToLocal]
    omega
  · rw [lastIndex, lastIndex, localToGlobal, localToGlobal, log, included, List.length_drop]
    rw [globalToLocal] at hlocal hlt ⊢
    omega

/-- `Snapshot` of an index that it accepts. -/
theorem snapshot_cutAt {index : Int} {data : Bytes} (hfirst : rf.lastIncludedIndex < index)
    (hcommit : index ≤ rf.commitIndex) (h : rf.snapshot index data = some rf') :
    rf.CutAt index rf' := by
  obtain ⟨rejected, -⟩ | ⟨-, -, e, calls, he, rfl⟩ := snapshot_outcome h
  · omega
  · exact .of_drop (Int.le_of_lt hfirst) he rfl rfl rfl

theorem Filled.snapshot (h : rf.Filled) {index : Int} (data : Bytes)
    (hfirst : rf.lastIncludedIndex < index) (hcommit : index ≤ rf.commitIndex)
    (hlast : rf.commitIndex ≤ rf.lastIndex) : (rf.snapshot index data).isSome := by
  obtain ⟨e, he⟩ := Option.isSome_iff_exists.mp (h.entryAt hfirst (by omega))
  rw [Raftserver.snapshot, if_neg (by omega), he, Option.bind_some]
  refine Filled.persist (h.drop ?_ rfl)
  rw [lastIndex, localToGlobal] at hlast
  rw [globalToLocal]
  omega

/-- The log has the last included entry of a snapshot. -/
def Has (rf : Raftserver) (args : InstallSnapshotArgs) : Prop :=
  (rf.entryAt args.lastIncludedIndex).map Entry.term = some args.lastIncludedTerm

instance (rf : Raftserver) (args : InstallSnapshotArgs) : Decidable (rf.Has args) :=
  inferInstanceAs (Decidable (_ = _))

theorem retainedLog_of_has {args : InstallSnapshotArgs} (has : rf.Has args) :
    rf.retainedLog args = some (rf.log.drop (rf.globalToLocal args.lastIncludedIndex).toNat) := by
  obtain ⟨e, he, hterm⟩ := Option.map_eq_some_iff.mp has
  have hlt : rf.globalToLocal args.lastIncludedIndex < rf.log.length := by
    rw [entryAt, deref] at he
    obtain ⟨hnonneg, he⟩ := Option.ite_none_right_eq_some.mp he
    have := (List.getElem?_eq_some_iff.mp (Option.join_eq_some_iff.mp he)).1
    omega
  rw [entryAt] at he
  rw [retainedLog, if_pos hlt, he, Option.map_some, if_pos hterm]

theorem retainedLog_of_not_has {args : InstallSnapshotArgs} {log : List (Option Entry)}
    (lacks : ¬ rf.Has args) (h : rf.retainedLog args = some log) :
    log = [none, some { term := args.lastIncludedTerm, command := args.lastIncludedCommand }] := by
  rw [retainedLog] at h
  split at h
  · obtain ⟨e, he, rfl⟩ := Option.map_eq_some_iff.mp h
    rw [if_neg]
    intro hterm
    exact lacks (Option.map_eq_some_iff.mpr ⟨e, he, hterm⟩)
  · exact (Option.some.inj h).symm

theorem observeSnapshot_log (rf : Raftserver) (term : Int) :
    (rf.observeSnapshot term).log = rf.log ∧
      (rf.observeSnapshot term).lastIncludedIndex = rf.lastIncludedIndex := by
  obtain ⟨current, voted, -, observed⟩ := rf.observeSnapshot_outcome term
  rw [observed]
  exact ⟨rfl, rfl⟩

/-- What `InstallSnapshot` does with a snapshot that it takes. -/
theorem installSnapshot_taken {args : InstallSnapshotArgs} {reply : InstallSnapshotReply}
    {msg : ApplyMsg} (h : rf.installSnapshot args = some (rf', reply, some msg)) :
    rf.lastIncludedIndex ≤ args.lastIncludedIndex ∧
      rf'.lastIncludedIndex = args.lastIncludedIndex ∧
      rf'.lastIncludedTerm = args.lastIncludedTerm ∧ rf.retainedLog args = some rf'.log := by
  obtain ⟨-, h⟩ | ⟨-, taken⟩ := installSnapshot_outcome h
  · cases h
  obtain ⟨current, voted, -, observed⟩ := rf.observeSnapshot_outcome args.term
  rw [observed] at taken
  obtain ⟨-, h⟩ | ⟨hincluded, -, log, hretained, h⟩ := takeSnapshot_outcome taken
  · cases h
  · cases h
    exact ⟨hincluded, rfl, rfl, hretained⟩

/-- A snapshot is taken without a panic unless its index is the one of a nil placeholder. -/
theorem Filled.installSnapshot (h : rf.Filled) (args : InstallSnapshotArgs)
    (hfirst : rf.lastIncludedIndex < args.lastIncludedIndex ∨ deref rf.log 0 ≠ none) :
    (rf.installSnapshot args).isSome := by
  rw [Raftserver.installSnapshot]
  split
  · rfl
  obtain ⟨hlog, hindex⟩ := observeSnapshot_log rf args.term
  rw [takeSnapshot]
  split
  · rfl
  rename_i hnew
  rw [Option.isSome_map, retainedLog, globalToLocal, hlog, hindex]
  split
  · rename_i hin
    rw [Option.isSome_map]
    by_cases hat : args.lastIncludedIndex = rf.lastIncludedIndex
    · rw [hat, Int.sub_self]
      exact Option.isSome_iff_ne_none.mpr (hfirst.resolve_left (by omega))
    · refine h.entryAt (i := args.lastIncludedIndex) (by omega) ?_
      rw [lastIndex, localToGlobal]
      omega
  · rfl

/-- **Compaction.** Every index behind an accepted `Snapshot` leads to the same entry as
before, and the placeholder has the term of the snapshot. The same holds for an accepted
`InstallSnapshot` if the log has its last included entry. If not, the log afterwards has
a nil placeholder and reaches one index too far. -/
theorem compaction (rf : Raftserver) :
    (∀ (index : Int) (data : Bytes), rf.lastIncludedIndex < index →
      index ≤ rf.commitIndex → rf.commitIndex ≤ rf.lastIndex →
        (rf.Filled → (rf.snapshot index data).isSome) ∧
          ∀ rf' ∈ rf.snapshot index data, rf.CutAt index rf') ∧
      ∀ args : InstallSnapshotArgs,
        (rf.Filled → rf.Has args → (rf.installSnapshot args).isSome) ∧
        ∀ rf' reply msg, rf.installSnapshot args = some (rf', reply, some msg) →
          rf'.lastIncludedIndex = args.lastIncludedIndex ∧
          (rf.Has args → rf.CutAt args.lastIncludedIndex rf') ∧
          (¬ rf.Has args →
            rf'.log.head? = some none ∧ rf'.lastIndex = args.lastIncludedIndex + 1) := by
  refine ⟨fun index data hfirst hcommit hlast => ⟨?_, ?_⟩, fun args => ⟨?_, ?_⟩⟩
  · intro filled
    exact filled.snapshot data hfirst hcommit hlast
  · intro rf' h
    exact snapshot_cutAt hfirst hcommit h
  · intro filled has
    refine filled.installSnapshot args ?_
    by_cases hlt : rf.lastIncludedIndex < args.lastIncludedIndex
    · exact .inl hlt
    · right
      intro hnil
      obtain ⟨e, he, -⟩ := Option.map_eq_some_iff.mp has
      have hzero : rf.globalToLocal args.lastIncludedIndex = 0 := by
        rw [entryAt, deref] at he
        obtain ⟨hnonneg, -⟩ := Option.ite_none_right_eq_some.mp he
        rw [globalToLocal] at hnonneg ⊢
        omega
      rw [entryAt, hzero, hnil] at he
      cases he
  · intro rf' reply msg h
    obtain ⟨hle, hindex, hterm, hlog⟩ := installSnapshot_taken h
    refine ⟨hindex, fun has => ?_, fun lacks => ?_⟩
    · obtain ⟨e, he, heterm⟩ := Option.map_eq_some_iff.mp has
      rw [retainedLog_of_has has] at hlog
      exact .of_drop hle he (hterm.trans heterm.symm) (Option.some.inj hlog).symm hindex
    · have cleared := retainedLog_of_not_has lacks hlog
      constructor
      · rw [cleared]
        rfl
      · rw [lastIndex, localToGlobal, cleared, hindex]
        simp
        omega

/-- The state machine after one command of the first term. -/
def firstSnapshot : InstallSnapshotArgs :=
  { term := 1, leaderId := 0, lastIncludedIndex := 1, lastIncludedTerm := 1
    lastIncludedCommand := none, data := [7] }

/-- A node that has committed one entry cuts its log there, on its own or on request. -/
theorem compaction_one :
    let rf : Raftserver :=
      { me := 1, peers := [0, 2], log := [some {}, some { term := 1 }, some { term := 1 }]
        currentTerm := 1, commitIndex := 1 }
    (∃ rf', rf.snapshot 1 [7] = some rf' ∧ rf.CutAt 1 rf') ∧
      ∃ rf' reply msg, rf.installSnapshot firstSnapshot = some (rf', reply, some msg) ∧
        rf.CutAt 1 rf' := by
  intro rf
  refine ⟨⟨_, rfl, ?_⟩, _, _, _, rfl, ?_⟩
  · exact ((compaction rf).1 1 [7] (by decide) (by decide) (by decide)).2 _ rfl
  · exact (((compaction rf).2 firstSnapshot).2 _ _ _ rfl).2.1 (by decide)

/-- A node without entries installs the same snapshot: its placeholder is nil, and its log
ends at index two. The snapshot once more makes it panic. -/
theorem installed_one_too_far :
    let rf : Raftserver := { me := 1, peers := [0, 2], log := [some {}] }
    ∃ rf' reply msg, rf.installSnapshot firstSnapshot = some (rf', reply, some msg) ∧
      rf'.lastIncludedIndex = 1 ∧ rf'.log.head? = some none ∧ rf'.lastIndex = 2 ∧
      rf'.installSnapshot firstSnapshot = none :=
  ⟨_, _, _, rfl, rfl, rfl, rfl, rfl⟩

end Raftserver

end RaftKv.Raft
