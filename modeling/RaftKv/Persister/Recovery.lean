import RaftKv.Persister.Crash

/-!
# The commit index after a restart

`Save` writes the commit index to the stat file at once, while the entries it counts
may still be in the queue. After a restart `QuickApply` runs from the snapshot up to the
recovered commit index, so this index has to be in the recovered log. `Bounded` says so
of a stat file, and `Covering` is what every section has to meet for it.
-/

namespace RaftKv

open Library (IndexedLog Reaches enabled_some)
open Raft (ApplyMsg Entry SaveArgs Raftserver)

namespace Raft.Raftserver

/-- The loop of `QuickApply`, with the messages it sends. -/
def quickApplyFrom : Nat → Raftserver → Option (Raftserver × List ApplyMsg)
  | 0, rf => some (rf, [])
  | fuel + 1, rf =>
      if rf.lastApplied < rf.commitIndex then
        (rf.entryAt (rf.lastApplied + 1)).bind fun e =>
          (quickApplyFrom fuel { rf with lastApplied := rf.lastApplied + 1 }).map fun result =>
            (result.1,
              { commandValid := decide (rf.lastIncludedIndex < rf.lastApplied + 1) &&
                  e.command.isSome
                command := e.command, commandIndex := rf.lastApplied + 1
                snapshotTerm := e.term } :: result.2)
      else some (rf, [])

/-- `QuickApply`. -/
def quickApply (rf : Raftserver) : Option (Raftserver × List ApplyMsg) :=
  quickApplyFrom (rf.commitIndex - rf.lastApplied).toNat rf

/-- The loop stays in range exactly if the log reaches up to the commit index. -/
theorem quickApplyFrom_isSome_iff {fuel : Nat} {rf : Raftserver} {placeholder : Option Entry}
    {es : List Entry} (hlog : rf.log = placeholder :: es.map some)
    (included : rf.lastIncludedIndex ≤ rf.lastApplied)
    (hfuel : fuel = (rf.commitIndex - rf.lastApplied).toNat) :
    (quickApplyFrom fuel rf).isSome ↔ rf.commitIndex ≤ max rf.lastApplied rf.lastIndex := by
  induction fuel generalizing rf with
  | zero => simp [quickApplyFrom]; omega
  | succ fuel ih =>
      have position : rf.entryAt (rf.lastApplied + 1) =
          es[(rf.lastApplied - rf.lastIncludedIndex).toNat]? := by
        rw [← entryAt_succ hlog]
        congr 1
        omega
      have last : rf.lastIndex = es.length + rf.lastIncludedIndex := by
        rw [lastIndex, localToGlobal, hlog]
        simp
      rw [quickApplyFrom, if_pos (by omega), position]
      cases hentry : es[(rf.lastApplied - rf.lastIncludedIndex).toNat]? with
      | none =>
          rw [List.getElem?_eq_none_iff] at hentry
          simp
          omega
      | some e =>
          obtain ⟨hlt, -⟩ := List.getElem?_eq_some_iff.mp hentry
          have rest : (quickApplyFrom fuel { rf with lastApplied := rf.lastApplied + 1 }).isSome ↔
              rf.commitIndex ≤ max (rf.lastApplied + 1) rf.lastIndex :=
            @ih { rf with lastApplied := rf.lastApplied + 1 } hlog
              (by dsimp only; omega) (by dsimp only; omega)
          rw [Option.bind_some, Option.isSome_map, rest]
          omega

end Raft.Raftserver

namespace Persister

variable {β : Type} {codec : Codec β} {me : Nat} {peers : List Nat} {disk : Disk β}
variable {ps ps' : Persister β} {state : IndexState}

/-- After a restart the commit index is at most the index of the last recovered entry, or
of the snapshot if there is none, and `QuickApply` stays in range. -/
def Covered (codec : Codec β) (me : Nat) (peers : List Nat) (disk : Disk β) : Prop :=
  ∃ rf, restart codec me peers disk = some rf ∧ rf.commitIndex ≤ rf.lastIndex ∧
    rf.quickApply.isSome

/-- The commit index is in the range of the stat file, or before it. -/
def Bounded (state : IndexState) : Prop :=
  state.lastCommitIndex ≤ max (state.firstIndex - 1) state.lastIndex

theorem Sound.covered_iff (h : Sound codec disk state) (stat : disk.stat = some (some state)) :
    Covered codec me peers disk ↔ Bounded state ∧ Dense state := by
  by_cases dense : Dense state
  swap
  · refine iff_of_false ?_ fun covered => dense covered.2
    rintro ⟨rf, restarted, -⟩
    rw [restart_of_not_dense me peers stat h.last dense] at restarted
    cases restarted
  rw [and_iff_left dense]
  have first := h.first
  have last := h.last
  have stored := h.stored
  have log := h.log
  have readable : (disk.log.readFrom (state.lastIndex + 1 - state.firstIndex).toNat
      state.firstIndex.toNat).isSome ↔ _ := IndexedLog.readFrom_isSome_iff
  have range := h.range
  obtain ⟨bs, hbs⟩ := Option.isSome_iff_exists.mp (readable.mpr (by omega))
  obtain ⟨es, hes, length, -⟩ := mapM_of_readFrom h.coded hbs
  obtain ⟨rf, restarted, hlog, hindex, happlied, hcommit⟩ :=
    restart_of_readFrom me peers stat first last dense h.storedData hbs hes
  have hlast : rf.lastIndex = max (state.firstIndex - 1) state.lastIndex := by
    rw [Raftserver.lastIndex, Raftserver.localToGlobal, hlog]
    simp
    omega
  have applies := Raftserver.quickApplyFrom_isSome_iff hlog (by omega) rfl
  rw [Covered, restarted]
  simp only [Option.some.injEq, exists_eq_left', Raftserver.quickApply, applies, Bounded]
  omega

/-- With an empty stat file there is nothing to apply. -/
theorem covered_of_empty (stat : disk.stat = some none)
    (index : 0 ≤ (disk.snap.load.getD {}).lastIndex) : Covered codec me peers disk := by
  obtain ⟨rf, restarted, hlog, hindex, hcommit⟩ : ∃ rf, restart codec me peers disk = some rf ∧
      rf.log = [some {}] ∧ 0 ≤ rf.lastIncludedIndex ∧
        (rf.lastApplied = rf.lastIncludedIndex ∧ rf.commitIndex = 0) := by
    refine ⟨_, by
      rw [restart, initFromDisk]
      simp only [Disk.loadState, stat]
      rfl, ?_, ?_, ?_, ?_⟩
    · rw [Raftserver.readSnapshot_log]
      rfl
    · rw [Raftserver.readSnapshot_lastIncludedIndex]
      split
      · exact Int.le_refl 0
      · exact index
    · rw [Raftserver.readSnapshot_lastIncludedIndex, Raftserver.readSnapshot_lastApplied]
      split <;> rfl
    · rw [Raftserver.readSnapshot_commitIndex]
      rfl
  have hlast : rf.lastIndex = rf.lastIncludedIndex := by
    simp [Raftserver.lastIndex, Raftserver.localToGlobal, hlog]
  have shape : rf.log = some {} :: ([] : List Entry).map some := hlog
  have applies : rf.quickApply.isSome ↔ _ :=
    Raftserver.quickApplyFrom_isSome_iff shape (by omega) rfl
  exact ⟨rf, restarted, by omega, applies.mpr (by omega)⟩

/-! ### What the sections do to the bound -/

/-- The sections that keep the recovered commit index in the log: `Save` may count an
entry only when the log on disk has it, the writer may not cut below the commit
index, and a snapshot may not leave the log behind. -/
def Covering (ps : Persister β) : Turn → Prop
  | .run (.save args) => ps.Orderly (.run (.save args)) ∧
      args.commitIndex ≤ max (ps.state.firstIndex - 1) ps.state.lastIndex
  | .run .saveLogToDisk => (∀ p ∈ ps.entryCh.head?, ps.state.lastIndex < ps.snapshot.lastIndex ∨
      ps.state.lastIndex ≤ p.1 ∨ ps.state.lastCommitIndex ≤ max (ps.state.firstIndex - 1) p.1) ∧
      ps.ClosesGap
  | .run .saveSnapClock =>
      ps.snapshot.lastIndex = ps.lastIdx ∨ ps.snapshot.lastIndex ≤ ps.state.lastIndex
  | .crash w => w = .idle ∧ ps.Safe .idle

/-- The range moves on while the commit index stays. -/
structure Advanced (state state' : IndexState) : Prop where
  first : state.firstIndex ≤ state'.firstIndex
  last : state.lastIndex ≤ max (state'.firstIndex - 1) state'.lastIndex
  commit : state'.lastCommitIndex = state.lastCommitIndex

namespace Advanced

theorem bounded {state' : IndexState} (h : Advanced state state') (bounded : Bounded state) :
    Bounded state' := by
  have first := h.first
  have last := h.last
  have commit := h.commit
  unfold Bounded at bounded ⊢
  omega

end Advanced

theorem Aligned.saveSnapToDisk_advanced (h : Aligned codec ps)
    (hsave : ps.saveSnapToDisk = some ps') :
    Advanced ps.state ps'.state ∧ ps'.state.lastIndex = ps.state.lastIndex := by
  obtain ⟨-, rfl⟩ | ⟨-, log, sums, -, -, rfl⟩ := saveSnapToDisk_outcome hsave
  · exact ⟨⟨Int.le_refl _, by omega, rfl⟩, rfl⟩
  · have index := h.index
    refine ⟨⟨?_, ?_, rfl⟩, rfl⟩
    · change ps.state.firstIndex ≤ ps.snapshot.lastIndex + 1
      omega
    · change ps.state.lastIndex ≤ max _ ps.state.lastIndex
      omega

theorem Aligned.write_advanced {i : Int} {b : β} (h : Aligned codec ps)
    (hwrite : ps.write codec i b = some ps') :
    Advanced ps.state ps'.state ∧ ps'.state.lastIndex = i.toNat := by
  obtain ⟨log, hlog, rfl⟩ := Option.map_eq_some_iff.mp hwrite
  have next := IndexedLog.index_of_write hlog
  have last := IndexedLog.lastIndex_of_write hlog
  have range := h.range
  refine ⟨⟨Int.le_refl _, ?_, rfl⟩, by rw [← last]⟩
  change ps.state.lastIndex ≤ max (ps.state.firstIndex - 1) log.lastIndex
  omega

/-- A round of the writer keeps the bound, unless it cuts the log below the commit
index. -/
theorem Aligned.saveLogToDisk_bounded (h : Aligned codec ps) (settled : ps.Settled)
    (bounded : Bounded ps.state) (hround : ps.saveLogToDisk codec = some ps') :
    Bounded ps'.state ∧ Dense ps'.state ↔ ps.Covering (.run .saveLogToDisk) := by
  rw [h.dense_saveLogToDisk hround]
  refine and_congr_left' ?_
  obtain ⟨i, b, rest, q, hq, hroom, rfl⟩ := saveLogToDisk_outcome hround
  obtain ⟨hpos, coded⟩ := h.queued (i, b) (by rw [hq]; exact List.mem_cons_self)
  obtain ⟨aligned, -⟩ := (h.pop hq).makeRoom settled hroom
  simp only [hq, List.head?_cons, Option.mem_some_iff, forall_eq']
  -- without a cut the state moves on, whether or not the log takes the entry
  have kept : Advanced ps.state q.state → Bounded (writeOrDrop codec i b q).state := by
    intro advanced
    rw [writeOrDrop]
    split
    · exact advanced.bounded bounded
    · rename_i written
      exact (aligned.write_advanced written).1.bounded (advanced.bounded bounded)
  obtain ⟨hsnap, saved⟩ | ⟨hsnap, ⟨hi, hcut⟩ | ⟨hi, rfl⟩⟩ := makeRoom_outcome hroom
  · exact iff_of_true (kept ((h.pop hq).saveSnapToDisk_advanced saved).1) (.inl hsnap)
  · obtain ⟨log, hlog, hcut⟩ := Option.bind_eq_some_iff.mp hcut
    obtain ⟨sums, -, rfl⟩ := Option.map_eq_some_iff.mp hcut
    have last := IndexedLog.lastIndex_of_truncateBack hlog
    rw [writeOrDrop]
    split
    · rename_i refused
      rw [Persister.write, Option.map_eq_none_iff, IndexedLog.write_eq_none_iff] at refused
      dsimp only at refused hpos
      omega
    · rename_i r written
      obtain ⟨advanced, hindex⟩ := aligned.write_advanced written
      have first : r.state.firstIndex = ps.state.firstIndex := by
        obtain ⟨log, -, rfl⟩ := Option.map_eq_some_iff.mp written
        rfl
      have commit : r.state.lastCommitIndex = ps.state.lastCommitIndex := advanced.commit
      change Bounded r.state ↔ _
      rw [Bounded, hindex, first, commit]
      dsimp only at hsnap hi hpos
      omega
  · exact iff_of_true (kept ⟨Int.le_refl _, by dsimp only; omega, rfl⟩) (.inr (.inl hi))

theorem Consistent.covered (h : Consistent codec ps) (bounded : Bounded ps.state ∧ Dense ps.state) :
    Covered codec me peers ps.disk := by
  rcases h.2 with settled | ⟨empty, -⟩
  · exact (h.1.toSound.covered_iff settled).mpr bounded
  · have first := h.1.first
    have stored := h.1.stored
    exact covered_of_empty empty (by omega)

/-- The clock keeps the range from becoming negative if the log has reached the snapshot. -/
theorem Consistent.dense_saveSnapToDisk (h : Consistent codec ps) (dense : Dense ps.state)
    (hsave : ps.saveSnapToDisk = some ps') :
    Dense ps'.state ↔ ps.Covering (.run .saveSnapClock) := by
  obtain ⟨same, rfl⟩ | ⟨other, log, sums, -, -, rfl⟩ := saveSnapToDisk_outcome hsave
  · exact iff_of_true dense (.inl same)
  · change ps.snapshot.lastIndex + 1 ≤ ps.state.lastIndex + 1 ↔ _ ∨ _
    rw [or_iff_right other]
    exact Int.add_le_add_iff_right 1

/-- A section that is in order ends with a covered commit index exactly if it is one of
those that keep the bound. -/
theorem Consistent.covered_iff {a : Section} (h : Consistent codec ps)
    (bounded : Bounded ps.state ∧ Dense ps.state) (orderly : ps.Orderly (.run a))
    (hturn : ps.turn codec (.run a) = some ps') :
    (Covered codec me peers ps'.disk ↔ ps.Covering (.run a)) ∧
      (ps.Covering (.run a) → Bounded ps'.state ∧ Dense ps'.state) := by
  cases a with
  | save args =>
      obtain ⟨aligned, settled⟩ := h.1.save orderly hturn
      have kept : Bounded ps'.state ∧ Dense ps'.state ↔ ps.Covering (.run (.save args)) := by
        obtain ⟨entries, -, hsave⟩ := Option.bind_eq_some_iff.mp hturn
        obtain ⟨-, rfl⟩ := enabled_some.mp hsave
        exact (and_iff_left bounded.2).trans (and_iff_right orderly).symm
      exact ⟨(aligned.toSound.covered_iff settled).trans kept, kept.mpr⟩
  | saveLogToDisk =>
      rcases h.2 with settled | ⟨-, idle, -⟩
      · have kept := h.1.saveLogToDisk_bounded settled bounded.1 hturn
        obtain ⟨aligned, settled⟩ := h.1.saveLogToDisk settled hturn
        exact ⟨(aligned.toSound.covered_iff settled).trans kept, kept.mpr⟩
      · simp [Persister.turn, saveLogToDisk, idle] at hturn
  | saveSnapClock =>
      have kept := (h.1.saveSnapToDisk_advanced hturn).1.bounded bounded.1
      have dense := h.dense_saveSnapToDisk bounded.2 hturn
      rcases h.2 with settled | ⟨empty, idle, saved⟩
      · obtain ⟨aligned, settled⟩ := h.1.saveSnapToDisk settled hturn
        exact ⟨(aligned.toSound.covered_iff settled).trans ((and_iff_right kept).trans dense),
          fun covering => ⟨kept, dense.mpr covering⟩⟩
      · have covering : ps.Covering (.run .saveSnapClock) := .inl saved
        have both := And.intro kept (dense.mpr covering)
        exact ⟨iff_of_true ((h.turn orderly hturn).covered both) covering, fun _ => both⟩

/-- Every section that keeps the bound is in order. -/
theorem Covering.orderly {a : Turn} (h : ps.Covering a) : ps.Orderly a := by
  cases a with
  | run a =>
      cases a with
      | save args => exact h.1
      | saveLogToDisk | saveSnapClock => trivial
  | crash w =>
      obtain ⟨rfl, safe⟩ := h
      exact safe

/-- A restart between two sections loads the state it finds. -/
theorem Consistent.bounded_crash (h : Consistent codec ps)
    (bounded : Bounded ps.state ∧ Dense ps.state)
    (safe : ps.Safe .idle) (hturn : ps.turn codec (.crash .idle) = some ps') :
    Bounded ps'.state ∧ Dense ps'.state := by
  rcases h.2 with settled | ⟨empty, -⟩
  · have last := h.1.last
    have loaded : initFromDisk codec ps.disk = some ps' := hturn
    rw [initFromDisk_eq codec settled (by omega)] at loaded
    obtain ⟨bs, -, rfl⟩ := Option.map_eq_some_iff.mp loaded
    exact bounded
  · exact absurd empty safe.1

/-- In every run in which `Save` counts only entries that are on disk, the writer does
not cut below the commit index and no snapshot leaves the log behind, a restart after any
section finds a log that reaches up to the commit index. After any other section it does
not. -/
theorem commit_covered (me : Nat) (peers : List Nat)
    (reached : Reaches (turn codec) Covering (Saving.start codec).ps ps) :
    Covered codec me peers ps.disk ∧
      ∀ a ps', ps.Orderly (.run a) → ps.turn codec (.run a) = some ps' →
        (Covered codec me peers ps'.disk ↔ ps.Covering (.run a)) := by
  have inv : Consistent codec ps ∧ Bounded ps.state ∧ Dense ps.state := by
    refine reached.invariant
      (I := fun ps => Consistent codec ps ∧ Bounded ps.state ∧ Dense ps.state)
      ⟨consistent_start, Int.le_refl 0, Int.le_refl 1⟩ ?_
    rintro s a t - ⟨consistent, bounded⟩ covering hturn
    refine ⟨consistent.turn covering.orderly hturn, ?_⟩
    cases a with
    | run a =>
        have outcome : (Covered codec 0 [] t.disk ↔ _) ∧ _ :=
          consistent.covered_iff bounded covering.orderly hturn
        exact outcome.2 covering
    | crash w =>
        obtain ⟨rfl, safe⟩ := covering
        exact consistent.bounded_crash bounded safe hturn
  refine ⟨inv.1.covered inv.2, ?_⟩
  intro a ps' orderly hturn
  exact (inv.1.covered_iff inv.2 orderly hturn).1

instance (ps : Persister β) : ∀ a, Decidable (ps.Covering a)
  | .run (.save args) => inferInstanceAs (Decidable (ps.Orderly (.run (.save args)) ∧ _))
  | .run .saveLogToDisk =>
      inferInstanceAs (Decidable ((∀ p ∈ ps.entryCh.head?, _) ∧ ps.ClosesGap))
  | .run .saveSnapClock => inferInstanceAs (Decidable (_ ∨ _))
  | .crash .idle => decidable_of_iff (ps.Safe .idle) (and_iff_right rfl).symm
  | .crash .truncatedBack | .crash .written | .crash .lastSaved | .crash .snapSaved
  | .crash .truncatedFront | .crash .firstSaved => isFalse (nomatch ·.1)

/-- An entry is saved, written, and counted as committed after that. -/
theorem commit_covered_written :
    ∃ ps, Reaches (turn entryCodec) Covering (Saving.start entryCodec).ps ps ∧
      ps.state.lastCommitIndex = 1 ∧ Covered entryCodec 0 [1, 2] ps.disk := by
  obtain ⟨ps, reached, commit⟩ : ∃ ps,
      Reaches (turn entryCodec) Covering (Saving.start entryCodec).ps ps ∧
        ps.state.lastCommitIndex = 1 :=
    Library.exists_reaches _
      [.run (Saving.saveLogs [Saving.entryOf 1 1] 0), .run .saveLogToDisk,
        .run (Saving.saveLogs [Saving.entryOf 1 1] 1)]
      (by decide +kernel) (by decide +kernel)
  exact ⟨ps, reached, commit, (commit_covered 0 [1, 2] reached).1⟩

/-- If the writer does not get its turn before the entry is committed, a restart finds
the commit index without the entry, and `QuickApply` runs out of range. -/
theorem commit_ahead_of_log :
    ∃ ps rf, Reaches (turn entryCodec) Orderly (Saving.start entryCodec).ps ps ∧
      restart entryCodec 0 [1, 2] ps.disk = some rf ∧
      rf.commitIndex = 1 ∧ rf.lastIndex = 0 ∧ rf.quickApply.isNone ∧
      ¬ Covered entryCodec 0 [1, 2] ps.disk := by
  obtain ⟨ps, reached, ahead⟩ : ∃ ps,
      Reaches (turn entryCodec) Orderly (Saving.start entryCodec).ps ps ∧
        ((restart entryCodec 0 [1, 2] ps.disk).any fun rf =>
          decide (rf.commitIndex = 1 ∧ rf.lastIndex = 0 ∧ rf.quickApply.isNone)) = true :=
    Library.exists_reaches _
      [.run (Saving.saveLogs [Saving.entryOf 1 1] 0), .run (Saving.saveLogs [Saving.entryOf 1 1] 1)]
      (by decide +kernel) (by decide +kernel)
  obtain ⟨rf, restarted, h⟩ := (Option.any_eq_true _ _).mp ahead
  obtain ⟨commit, last, fails⟩ := of_decide_eq_true h
  refine ⟨ps, rf, reached, restarted, commit, last, fails, ?_⟩
  rintro ⟨rf', restarted', covered, -⟩
  rw [restarted, Option.some.injEq] at restarted'
  subst restarted'
  omega

end Persister

end RaftKv
