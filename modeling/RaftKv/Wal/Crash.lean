import RaftKv.Wal.Refinement

/-!
# Cuts that are interrupted

A cut and the cleaning up of `load` are lists of operations on files, and the process may
stop between any two of them. `Started` and `Ended` are the directories that it can leave
behind: with the old segments, with a marked file, or with the new segments. Wherever
`load` itself is interrupted, it comes from one of them to another.
-/

namespace RaftKv.Wal

open Library Chunk

/-! ### Stopping -/

/-- `truncateFront` without what it does in memory. -/
def Log.truncateFrontOps (l : Log) (disk : Disk) (index : Nat) : List FileOp :=
  if index = 0 ∨ l.lastIndex = 0 ∨ index < l.firstIndex ∨ l.lastIndex < index then []
  else if index = l.firstIndex then []
  else
    match l.prepareFront disk index with
    | none => []
    | some (l, segIdx, _, ebuf) => l.frontOps segIdx index ebuf

/-- `truncateBack` without what it does in memory. -/
def Log.truncateBackOps (l : Log) (disk : Disk) (index : Nat) : List FileOp :=
  if index = 0 ∨ l.lastIndex = 0 ∨ index < l.firstIndex ∨ l.lastIndex < index then []
  else if index = l.lastIndex then []
  else
    match l.prepareBack disk index with
    | none => []
    | some (l, segIdx, p, ebuf) => l.backOps segIdx p ebuf

/-- The removes and renames of `load`. -/
def loadOps (disk : Disk) : List FileOp := ((recover disk.names).map Prod.fst).getD []

/-- The directories that are left if the process stops during the operations, and then any
number of times during `load`. -/
inductive Stopped (disk : Disk) (ops : List FileOp) : Disk → Prop
  | cut {done : List FileOp} {disk' : Disk} (part : done <+: ops)
      (ran : run Disk.apply disk done = some disk') : Stopped disk ops disk'
  | load {done : List FileOp} {disk₁ disk₂ : Disk} (earlier : Stopped disk ops disk₁)
      (part : done <+: loadOps disk₁) (ran : run Disk.apply disk₁ done = some disk₂) :
      Stopped disk ops disk₂

/-- A property that the operations and `load` keep all along. -/
theorem Stopped.invariant {I : Disk → Prop} {disk disk' : Disk} {ops : List FileOp}
    (h : Stopped disk ops disk') (cut : Along Disk.apply I disk ops)
    (load : ∀ disk, I disk → Along Disk.apply I disk (loadOps disk)) : I disk' := by
  induction h with
  | cut part ran =>
      obtain ⟨t, ran', here⟩ := cut.stopped part
      rw [ran] at ran'
      cases ran'
      exact here
  | load earlier part ran ih =>
      obtain ⟨t, ran', here⟩ := (load _ ih).stopped part
      rw [ran] at ran'
      cases ran'
      exact here

/-- The directory can be opened, with the entries of `a`. -/
def Opens (disk : Disk) (a : IndexedLog Data) : Prop :=
  ∀ opts, ∃ l disk', openLog opts disk = some (l, disk') ∧ Shows l disk' a

/-- No operation fails, and wherever the process stops, in the operations or in some `load`
after them, the directory opens with the entries before or with those after. -/
def CrashAtomic (disk : Disk) (ops : List FileOp) (old new : IndexedLog Data) : Prop :=
  (∀ done, done <+: ops → (run Disk.apply disk done).isSome) ∧
    ∀ disk', Stopped disk ops disk' →
      (∀ done, done <+: loadOps disk' → (run Disk.apply disk' done).isSome) ∧
        (Opens disk' old ∨ Opens disk' new)

theorem crashAtomic_of_along {I : Disk → Prop} {disk : Disk} {ops : List FileOp}
    {old new : IndexedLog Data} (cut : Along Disk.apply I disk ops)
    (load : ∀ disk, I disk → Along Disk.apply I disk (loadOps disk))
    (opens : ∀ disk, I disk → Opens disk old ∨ Opens disk new) :
    CrashAtomic disk ops old new := by
  refine ⟨fun done part => ?_, fun disk' stopped => ?_⟩
  · obtain ⟨t, ran, -⟩ := cut.stopped part
    rw [ran]
    rfl
  · have here := stopped.invariant cut load
    refine ⟨fun done part => ?_, opens disk' here⟩
    obtain ⟨t, ran, -⟩ := (load disk' here).stopped part
    rw [ran]
    rfl

/-! ### What `load` finds -/

section Marked

variable {s : Suffix} {before behind pre blocks kept : List Block} {c d : Block} {disk : Disk}

theorem names_ne (hs : s ≠ .none) (blocks : List Block) : ∀ n ∈ names blocks, n.suffix ≠ s := by
  intro n hn
  rw [names_plain blocks n hn]
  exact hs.symm

theorem names_marked_ne {t : Suffix} (i : Nat) (hs : s ≠ .none) (ht : t ≠ s) :
    ∀ n ∈ names before ++ ⟨i, t⟩ :: names behind, n.suffix ≠ s := by
  intro n hn
  rcases List.mem_append.mp hn with hn | hn
  · exact names_ne hs before n hn
  rcases List.mem_cons.mp hn with rfl | hn
  · exact ht
  · exact names_ne hs behind n hn

theorem map_remove_names (blocks : List Block) :
    (names blocks).map FileOp.remove = removes blocks :=
  List.map_map

theorem disk_names_marked {i : Nat} {content : Bytes}
    (files : disk.files = between before (⟨i, s⟩, content) behind) (hi : 0 < i)
    (hbefore : ∀ b ∈ before, 0 < b.index) (hbehind : ∀ b ∈ behind, 0 < b.index) :
    disk.names = names before ++ ⟨i, s⟩ :: names behind := by
  rw [Disk.names_eq, files, between, List.map_append, List.map_cons, map_fst_file, map_fst_file]
  intro f hf
  rw [files] at hf
  rcases List.mem_append.mp hf with hf | hf
  · obtain ⟨b, hb, rfl⟩ := List.mem_map.mp hf
    exact Nat.ne_of_gt (hbefore b hb)
  rcases List.mem_cons.mp hf with rfl | hf
  · exact Nat.ne_of_gt hi
  · obtain ⟨b, hb, rfl⟩ := List.mem_map.mp hf
    exact Nat.ne_of_gt (hbehind b hb)

/-- What is before `START` goes. -/
theorem recover_start (blocks behind : List Block) (c : Block) :
    recover (names blocks ++ ⟨c.index, .START⟩ :: names behind) =
      some (removes blocks ++ [FileOp.rename ⟨c.index, .START⟩ (segmentName c.index)],
        names (c :: behind)) := by
  have start : lastStart 0 (names blocks ++ ⟨c.index, .START⟩ :: names behind) =
      some (names blocks).length := by
    rw [lastStart_append (names_ne (by decide) behind), Nat.zero_add]
  rw [recover, start, firstEnd_plain (names_marked_ne _ (by decide) (by decide))]
  dsimp only
  rw [List.drop_left, List.take_left, map_remove_names]
  rfl

/-- What is behind `END` goes, and the segment that it replaces. -/
theorem recover_end (behind : List Block)
    (hkept : (if (names pre).getLast?.any (·.index = c.index) then (names pre).dropLast
      else names pre) = names kept) :
    recover (names pre ++ ⟨c.index, .END⟩ :: names behind) =
      some ((removes behind).reverse ++ [FileOp.rename ⟨c.index, .END⟩ (segmentName c.index)],
        names (kept ++ [c])) := by
  have taken : (names pre ++ ⟨c.index, .END⟩ :: names behind).take ((names pre).length + 1) =
      names pre ++ [⟨c.index, .END⟩] := by
    rw [List.append_cons, List.take_left' (by simp)]
  have dropped : (names pre ++ ⟨c.index, .END⟩ :: names behind).drop ((names pre).length + 1) =
      names behind := by
    rw [List.append_cons, List.drop_left' (by simp)]
  rw [recover, lastStart_plain (names_marked_ne _ (by decide) (by decide)),
    firstEnd_append (names_ne (by decide) pre)]
  dsimp only
  rw [taken, dropped, List.getLast?_concat, Option.map_some, List.dropLast_concat]
  dsimp only
  rw [hkept, List.map_reverse, map_remove_names, names, names, List.map_append]
  rfl

/-- If `END` replaces no segment, all that is before it stays. -/
theorem kept_before (hbefore : ∀ b ∈ before, b.index < c.index) :
    (if (names before).getLast?.any (·.index = c.index) then (names before).dropLast
      else names before) = names before := by
  rw [if_neg]
  intro last
  obtain ⟨n, hn, same⟩ := (Option.any_eq_true _ _).mp last
  obtain ⟨b, hb, rfl⟩ := List.mem_map.mp (List.mem_of_getLast? hn)
  have smaller := hbefore b hb
  have equal : b.index = c.index := of_decide_eq_true same
  omega

theorem kept_replaced (same : d.index = c.index) :
    (if (names (before ++ [d])).getLast?.any (·.index = c.index) then
        (names (before ++ [d])).dropLast
      else names (before ++ [d])) = names before := by
  have last : names (before ++ [d]) = names before ++ [segmentName d.index] := by
    rw [names, List.map_append]
    rfl
  rw [last, List.getLast?_concat, Option.any_some, List.dropLast_concat, if_pos]
  exact decide_eq_true same

end Marked

/-- Without a marked file there is nothing to do. -/
theorem loadOps_unmarked {disk : Disk} {blocks : List Block} (files : disk.files = blocks.map file)
    (pos : ∀ b ∈ blocks, 0 < b.index) : loadOps disk = [] := by
  rw [loadOps, disk_names files pos, recover_unmarked (names_plain _)]
  rfl

/-- The blocks make up a log with the entries of `a`. -/
def MakeUp (blocks : List Block) (a : IndexedLog Data) : Prop :=
  ∃ front tail, blocks = front ++ [tail] ∧ Laid a.firstIndex front tail ∧ a.entries = flatten blocks

namespace MakeUp

variable {blocks : List Block} {disk disk' : Disk} {ops : List FileOp} {a : IndexedLog Data}

theorem opens (h : MakeUp blocks a) (files : disk.files = blocks.map file) : Opens disk a := by
  intro opts
  obtain ⟨front, tail, rfl, laid, entries⟩ := h
  obtain ⟨l, opened, front', tail', holds, first, entries'⟩ := laid.openLog opts files
  exact ⟨l, disk, opened, front', tail', holds, first, entries.trans entries'⟩

/-- The directory is cleaned up first. -/
theorem opens_of_recover (h : MakeUp blocks a) (some_name : disk.names ≠ [])
    (known : recover disk.names = some (ops, names blocks))
    (cleaned : run Disk.apply disk ops = some disk') (files : disk'.files = blocks.map file) :
    Opens disk a := by
  intro opts
  obtain ⟨front, tail, rfl, laid, entries⟩ := h
  obtain ⟨l, opened, front', tail', holds, first, entries'⟩ :=
    openLog_of_recover opts laid some_name known cleaned files
  exact ⟨l, disk', opened, front', tail', holds, first, entries.trans entries'⟩

end MakeUp

theorem marked_ne_nil (before behind : List Block) (n : FileName) :
    names before ++ n :: names behind ≠ [] :=
  List.append_ne_nil_of_right_ne_nil _ (List.cons_ne_nil _ _)

/-! ### A cut of the front -/

/-- `blocks` are replaced by what is left of the last one. -/
structure FrontCut (blocks : List Block) (c : Block) (behind : List Block) : Prop where
  pos : ∀ b ∈ blocks, 0 < b.index
  index_pos : 0 < c.index
  before : ∀ b ∈ blocks, b.index ≤ c.index
  behind : ∀ b ∈ behind, c.index < b.index

/-- What is left of the files. -/
inductive Started (blocks : List Block) (c : Block) (behind : List Block) (disk : Disk) : Prop
  | before (files : disk.files = (blocks ++ behind).map file)
  | during (left : List Block) (part : left <:+ blocks)
      (files : disk.files = marked .START left c behind)
  | after (files : disk.files = (c :: behind).map file)

namespace FrontCut

variable {blocks left behind : List Block} {c : Block} {disk : Disk}
variable (h : FrontCut blocks c behind)

include h

theorem pos_old : ∀ b ∈ blocks ++ behind, 0 < b.index := by
  intro b hb
  rcases List.mem_append.mp hb with hb | hb
  · exact h.pos b hb
  · exact Nat.lt_trans h.index_pos (h.behind b hb)

theorem pos_new : ∀ b ∈ c :: behind, 0 < b.index := by
  intro b hb
  rcases List.mem_cons.mp hb with rfl | hb
  · exact h.index_pos
  · exact Nat.lt_trans h.index_pos (h.behind b hb)

/-- Removing what is left and renaming `START`, as the cut does and `load` again. -/
theorem along_finish (temp : Option Bytes) (part : left <:+ blocks) :
    Along Disk.apply (Started blocks c behind) { files := marked .START left c behind, temp := temp }
      (removes left ++ [FileOp.rename ⟨c.index, .START⟩ (segmentName c.index)]) := by
  induction left with
  | nil =>
      refine ⟨.during [] part rfl, { files := (c :: behind).map file, temp := temp }, ?_, .after rfl⟩
      exact apply_rename (by decide) (fun b hb => absurd hb List.not_mem_nil) h.behind
  | cons b left ih =>
      have removed : Disk.apply { files := [] ++ file b :: marked .START left c behind, temp := temp }
          (.remove (segmentName b.index)) = _ :=
        apply_remove fun f hf => absurd hf List.not_mem_nil
      exact ⟨.during (b :: left) part rfl, _, removed, ih ((List.suffix_cons b left).trans part)⟩

theorem along_cut (files : disk.files = (blocks ++ behind).map file) :
    Along Disk.apply (Started blocks c behind) disk (cutOps .START blocks c) := by
  obtain ⟨_, temp⟩ := disk
  cases files
  refine ⟨.before rfl, _, rfl, .before rfl, _, ?_, h.along_finish none (List.suffix_refl blocks)⟩
  exact apply_renameTemp (by decide) h.before h.behind

theorem disk_names_during (part : left <:+ blocks)
    (files : disk.files = marked .START left c behind) :
    disk.names = names left ++ ⟨c.index, .START⟩ :: names behind :=
  disk_names_marked files h.index_pos (fun b hb => h.pos b (part.subset hb))
    fun b hb => Nat.lt_trans h.index_pos (h.behind b hb)

/-- `load` may be interrupted too. -/
theorem along_load (start : Started blocks c behind disk) :
    Along Disk.apply (Started blocks c behind) disk (loadOps disk) := by
  cases start with
  | before files =>
      rw [loadOps_unmarked files h.pos_old]
      exact .before files
  | during left part files =>
      rw [loadOps, h.disk_names_during part files, recover_start]
      obtain ⟨_, temp⟩ := disk
      cases files
      exact h.along_finish temp part
  | after files =>
      rw [loadOps_unmarked files h.pos_new]
      exact .after files

/-- Once `START` is there, the cut is done. -/
theorem opens_during {new : IndexedLog Data} (part : left <:+ blocks)
    (files : disk.files = marked .START left c behind) (hnew : MakeUp (c :: behind) new) :
    Opens disk new := by
  have found := h.disk_names_during part files
  have known := recover_start left behind c
  rw [← found] at known
  obtain ⟨_, temp⟩ := disk
  cases files
  have cleaned : run Disk.apply { files := marked .START left c behind, temp := temp }
      (removes left ++ [FileOp.rename ⟨c.index, .START⟩ (segmentName c.index)]) = _ :=
    run_start h.behind
  exact hnew.opens_of_recover (by rw [found]; exact marked_ne_nil _ _ _) known cleaned
    (between_file [] behind c)

theorem opens {old new : IndexedLog Data} (start : Started blocks c behind disk)
    (hold : MakeUp (blocks ++ behind) old) (hnew : MakeUp (c :: behind) new) :
    Opens disk old ∨ Opens disk new := by
  cases start with
  | before files => exact .inl (hold.opens files)
  | during left part files => exact .inr (h.opens_during part files hnew)
  | after files => exact .inr (hnew.opens files)

end FrontCut

/-! ### A cut of the back -/

/-- `d` and `blocks` are replaced by what is left of `d`. -/
structure BackCut (before : List Block) (d : Block) (blocks : List Block) (c : Block) : Prop where
  pos : ∀ b ∈ before, 0 < b.index
  index_pos : 0 < c.index
  before : ∀ b ∈ before, b.index < c.index
  same : d.index = c.index
  behind : ∀ b ∈ blocks, c.index < b.index
  sorted : blocks.Pairwise fun b c => b.index < c.index

/-- What is left of the files. `load` removes them in the other order. -/
inductive Ended (before : List Block) (d : Block) (blocks : List Block) (c : Block) (disk : Disk) :
    Prop
  | before (files : disk.files = (before ++ d :: blocks).map file)
  | during (pre left : List Block) (kept : pre = before ∨ pre = before ++ [d])
      (part : left.Sublist blocks) (files : disk.files = marked .END pre c left)
  | after (files : disk.files = (before ++ [c]).map file)

namespace BackCut

variable {before blocks pre left : List Block} {c d : Block} {disk : Disk}
variable (h : BackCut before d blocks c)

include h

theorem pos_before : ∀ b ∈ before ++ [d], 0 < b.index := by
  intro b hb
  rcases List.mem_append.mp hb with hb | hb
  · exact h.pos b hb
  · rw [List.mem_singleton.mp hb, h.same]
    exact h.index_pos

theorem pos_left (part : left.Sublist blocks) : ∀ b ∈ left, 0 < b.index :=
  fun b hb => Nat.lt_trans h.index_pos (h.behind b (part.subset hb))

theorem pos_old : ∀ b ∈ before ++ d :: blocks, 0 < b.index := by
  intro b hb
  rw [List.append_cons] at hb
  rcases List.mem_append.mp hb with hb | hb
  · exact h.pos_before b hb
  · exact h.pos_left (List.Sublist.refl _) b hb

theorem pos_new : ∀ b ∈ before ++ [c], 0 < b.index := by
  intro b hb
  rcases List.mem_append.mp hb with hb | hb
  · exact h.pos b hb
  · rw [List.mem_singleton.mp hb]
    exact h.index_pos

theorem le_of_kept (kept : pre = before ∨ pre = before ++ [d]) : ∀ b ∈ pre, b.index ≤ c.index := by
  rcases kept with rfl | rfl
  · exact fun b hb => Nat.le_of_lt (h.before b hb)
  · exact le_of_same h.before h.same

/-- In the end `END` becomes the last segment. -/
theorem apply_rename_end (temp : Option Bytes) (kept : pre = before ∨ pre = before ++ [d]) :
    Disk.apply { files := marked .END pre c [], temp := temp }
      (.rename ⟨c.index, .END⟩ (segmentName c.index)) =
        some { files := (before ++ [c]).map file, temp := temp } := by
  rcases kept with rfl | rfl
  · exact apply_rename (by decide) h.before fun b hb => absurd hb List.not_mem_nil
  · exact apply_rename_over (by decide) h.before h.same

/-- The cut removes the files behind `END` from the first one on. -/
theorem along_finish (temp : Option Bytes) (part : left.Sublist blocks) :
    Along Disk.apply (Ended before d blocks c) { files := marked .END before c left, temp := temp }
      (removes left ++ [FileOp.rename ⟨c.index, .END⟩ (segmentName c.index)]) := by
  induction left with
  | nil =>
      exact ⟨.during before [] (.inl rfl) part rfl, _, h.apply_rename_end temp (.inl rfl), .after rfl⟩
  | cons b left ih =>
      have larger : ∀ e ∈ [b], c.index < e.index := by
        intro e he
        rw [List.mem_singleton.mp he]
        exact h.behind b (part.subset List.mem_cons_self)
      have first : removes [b] = [.remove (segmentName b.index)] := rfl
      have removed : run Disk.apply { files := marked .END before c ([b] ++ left), temp := temp }
          (removes [b]) = _ := run_removes_behind (by decide) (h.le_of_kept (.inl rfl)) larger
      rw [first, run_singleton] at removed
      exact ⟨.during before (b :: left) (.inl rfl) part rfl, _, removed,
        ih ((List.sublist_cons_self b left).trans part)⟩

theorem along_cut (files : disk.files = (before ++ d :: blocks).map file) :
    Along Disk.apply (Ended before d blocks c) disk (cutOps .END (d :: blocks) c) := by
  obtain ⟨_, temp⟩ := disk
  cases files
  have whole := List.Sublist.refl blocks
  have marks : Disk.apply { files := (before ++ [d] ++ blocks).map file,
                            temp := some (binary.encodeAll c.entries) }
      (.renameTemp ⟨c.index, .END⟩) = some { files := marked .END (before ++ [d]) c blocks } :=
    apply_renameTemp (by decide) (h.le_of_kept (.inr rfl)) h.behind
  rw [← List.append_cons] at marks
  have removed : Disk.apply { files := marked .END (before ++ [d]) c blocks }
      (.remove (segmentName d.index)) = some { files := marked .END before c blocks } :=
    apply_remove_before (by rw [h.same]; exact h.before)
  exact ⟨.before rfl, _, rfl, .before rfl, _, marks, .during _ blocks (.inr rfl) whole rfl, _, removed,
    h.along_finish none whole⟩

/-- `load` removes them from the last one on. -/
theorem along_reverse (temp : Option Bytes) (kept : pre = before ∨ pre = before ++ [d])
    (part : left.Sublist blocks) :
    Along Disk.apply (Ended before d blocks c) { files := marked .END pre c left, temp := temp }
      ((removes left).reverse ++ [FileOp.rename ⟨c.index, .END⟩ (segmentName c.index)]) := by
  induction left using List.reverseRecOn with
  | nil =>
      exact ⟨.during pre [] kept part rfl, _, h.apply_rename_end temp kept, .after rfl⟩
  | append_singleton left b ih =>
      have last : (removes (left ++ [b])).reverse =
          .remove (segmentName b.index) :: (removes left).reverse := by
        simp [removes]
      have sorted := List.pairwise_append.mp (h.sorted.sublist part)
      have names : ∀ f ∈ marked .END pre c left, f.1 < segmentName b.index := by
        intro f hf
        rw [marked, List.append_cons] at hf
        rcases List.mem_append.mp hf with hf | hf
        · have larger : ∀ e ∈ [b], c.index < e.index :=
            fun e he => h.behind e (part.subset (List.mem_append_right _ he))
          exact lt_file_behind (by decide) (h.le_of_kept kept) larger f hf b
            (List.mem_singleton_self b)
        · exact file_lt (fun e he => sorted.2.2 e he b (List.mem_singleton_self b)) f hf
      have removed : Disk.apply { files := marked .END pre c left ++ file b :: [], temp := temp }
          (.remove (segmentName b.index)) = _ := apply_remove names
      rw [last]
      refine ⟨.during pre (left ++ [b]) kept part rfl, { files := marked .END pre c left, temp := temp },
        ?_, ih ((List.sublist_append_left left [b]).trans part)⟩
      rw [List.append_nil] at removed
      rw [← removed, marked, marked, List.map_append, List.append_assoc]
      rfl

theorem disk_names_during (kept : pre = before ∨ pre = before ++ [d]) (part : left.Sublist blocks)
    (files : disk.files = marked .END pre c left) :
    disk.names = names pre ++ ⟨c.index, .END⟩ :: names left := by
  refine disk_names_marked files h.index_pos ?_ (h.pos_left part)
  rcases kept with rfl | rfl
  · exact h.pos
  · exact h.pos_before

theorem recover_during (kept : pre = before ∨ pre = before ++ [d]) (left : List Block) :
    recover (names pre ++ ⟨c.index, .END⟩ :: names left) =
      some ((removes left).reverse ++ [FileOp.rename ⟨c.index, .END⟩ (segmentName c.index)],
        names (before ++ [c])) := by
  refine recover_end left ?_
  rcases kept with rfl | rfl
  · exact kept_before h.before
  · exact kept_replaced h.same

/-- `load` may be interrupted too. -/
theorem along_load (ended : Ended before d blocks c disk) :
    Along Disk.apply (Ended before d blocks c) disk (loadOps disk) := by
  cases ended with
  | before files =>
      rw [loadOps_unmarked files h.pos_old]
      exact .before files
  | during pre left kept part files =>
      rw [loadOps, h.disk_names_during kept part files, h.recover_during kept]
      obtain ⟨_, temp⟩ := disk
      cases files
      exact h.along_reverse temp kept part
  | after files =>
      rw [loadOps_unmarked files h.pos_new]
      exact .after files

/-- Once `END` is there, the cut is done. -/
theorem opens_during {new : IndexedLog Data} (kept : pre = before ∨ pre = before ++ [d])
    (part : left.Sublist blocks) (files : disk.files = marked .END pre c left)
    (hnew : MakeUp (before ++ [c]) new) : Opens disk new := by
  have found := h.disk_names_during kept part files
  have known := h.recover_during kept left
  rw [← found] at known
  obtain ⟨_, temp⟩ := disk
  cases files
  have names : ∀ f ∈ pre.map file ++ [(⟨c.index, .END⟩, binary.encodeAll c.entries)],
      ∀ b ∈ left, f.1 < segmentName b.index :=
    lt_file_behind (by decide) (h.le_of_kept kept) fun b hb => h.behind b (part.subset hb)
  have removed : run Disk.apply { files := _ ++ left.map file, temp := temp }
      (removes left).reverse = _ := run_removes_reverse names (h.sorted.sublist part)
  rw [← List.append_cons] at removed
  have cleaned : run Disk.apply { files := marked .END pre c left, temp := temp }
      ((removes left).reverse ++ [FileOp.rename ⟨c.index, .END⟩ (segmentName c.index)]) =
        some { files := (before ++ [c]).map file, temp := temp } := by
    rw [run_append, marked, removed, Option.bind_some, run_singleton]
    exact h.apply_rename_end temp kept
  exact hnew.opens_of_recover (by rw [found]; exact marked_ne_nil _ _ _) known cleaned rfl

theorem opens {old new : IndexedLog Data} (ended : Ended before d blocks c disk)
    (hold : MakeUp (before ++ d :: blocks) old) (hnew : MakeUp (before ++ [c]) new) :
    Opens disk old ∨ Opens disk new := by
  cases ended with
  | before files => exact .inl (hold.opens files)
  | during pre left kept part files => exact .inr (h.opens_during kept part files hnew)
  | after files => exact .inr (hnew.opens files)

end BackCut

/-! ### Both cuts -/

namespace MakeUp

variable {before behind : List Block} {c : Block} {a a' : IndexedLog Data} {n : Nat}

theorem cutFront (h : MakeUp (before ++ c :: behind) a) (hc : c.index ≤ n) (hn : n < c.stop)
    (cut : a.truncateFront n = some a') : MakeUp (cutFront c n :: behind) a' := by
  obtain ⟨front, tail, parts, laid, entries⟩ := h
  have first' := IndexedLog.firstIndex_of_truncateFront cut
  have covers := laid.covers_stop
  rw [← parts] at covers
  have entries' : a'.entries = flatten (Wal.cutFront c n :: behind) := by
    rw [IndexedLog.entries_of_truncateFront cut, entries, covers.drop_flatten hc hn]
    rfl
  rcases parts_cases parts.symm with ⟨rfl, rfl, rfl⟩ | ⟨rest, rfl, rfl⟩
  · refine ⟨[], Wal.cutFront c n, rfl, ?_, entries'⟩
    rw [first']
    exact laid.cutFront_tail hc
  · refine ⟨Wal.cutFront c n :: rest, tail, rfl, ?_, entries'⟩
    rw [first']
    exact laid.cutFront_inner hc hn

theorem cutBack (h : MakeUp (before ++ c :: behind) a) (hc : c.index ≤ n) (hn : n < c.stop)
    (cut : a.truncateBack n = some a') : MakeUp (before ++ [cutBack c n]) a' := by
  obtain ⟨front, tail, parts, laid, entries⟩ := h
  have covers := laid.covers_stop
  rw [← parts] at covers
  refine ⟨before, Wal.cutBack c n, rfl, ?_, ?_⟩
  · rw [IndexedLog.firstIndex_of_truncateBack cut]
    exact laid.cutBack parts.symm
  · rw [IndexedLog.entries_of_truncateBack cut, entries, covers.take_flatten hc hn, flatten_append,
      flatten_cons, flatten_nil, List.append_nil]
    rfl

/-- Nothing is removed, and nothing can be interrupted. -/
theorem crashAtomic_nil {blocks : List Block} {disk : Disk} (h : MakeUp blocks a)
    (files : disk.files = blocks.map file) : CrashAtomic disk [] a a' := by
  have pos : ∀ b ∈ blocks, 0 < b.index := by
    obtain ⟨front, tail, rfl, laid, -⟩ := h
    exact fun b hb => laid.index_pos hb
  refine crashAtomic_of_along (I := fun disk => disk.files = blocks.map file) files ?_ ?_
  · intro disk here
    rw [loadOps_unmarked here pos]
    exact here
  · exact fun disk here => .inl (h.opens here)

end MakeUp

namespace Holds

variable {l : Log} {disk : Disk} {front before behind : List Block} {tail c : Block} {n : Nat}
variable (h : Holds l disk front tail tail.entries)
variable (parts : front ++ [tail] = before ++ c :: behind)

include h

theorem makeUp {a : IndexedLog Data} (first : a.firstIndex = l.firstIndex)
    (entries : a.entries = flatten (front ++ [tail])) : MakeUp (front ++ [tail]) a := by
  refine ⟨front, tail, rfl, ?_, entries⟩
  rw [first]
  exact h.toLaid

include parts

theorem frontCut (hc : c.index ≤ n) (hn : n < c.stop) :
    FrontCut (before ++ [c]) (cutFront c n) behind := by
  have around := h.around parts hc hn
  have pos : ∀ b ∈ before ++ [c], 0 < b.index :=
    fun b hb => h.index_pos (mem_upto_of_parts parts b hb)
  exact {
    pos := pos
    index_pos := Nat.lt_of_lt_of_le
      (pos c (List.mem_append_right _ (List.mem_singleton_self c))) hc
    before := around.1
    behind := around.2 }

theorem backCut : BackCut before c behind (cutBack c n) := by
  have ordered := h.index_lt_of_parts parts
  have sorted := h.sorted
  rw [parts] at sorted
  exact {
    pos := fun b hb => h.index_pos (List.mem_append_left _ (mem_front_of_parts parts hb))
    index_pos := h.index_pos (b := c) (mem_from_of_parts parts c List.mem_cons_self)
    before := ordered.1
    same := rfl
    behind := ordered.2
    sorted := (List.pairwise_cons.mp (List.pairwise_append.mp sorted).2.1).2 }

end Holds

namespace Shows

variable {l : Log} {disk : Disk} {a a' : IndexedLog Data} {n : Nat}

/-- `truncateFront` comes to the directory that its operations lead to. -/
theorem truncateFront_run (h : Shows l disk a) (inside : a.truncateFront n = some a') :
    ∃ l' disk', l.truncateFront disk n = some (l', disk', .ok) ∧
      run Disk.apply disk (l.truncateFrontOps disk n) = some disk' := by
  obtain ⟨l', disk', cut, -⟩ := h.truncateFront inside
  refine ⟨l', disk', cut, ?_⟩
  rw [Log.truncateFront] at cut
  rw [Log.truncateFrontOps]
  split at cut
  · cases cut
  rename_i range
  rw [if_neg range]
  split at cut
  · rename_i same
    cases cut
    rw [if_pos same]
    rfl
  · rename_i other
    rw [if_neg other]
    obtain ⟨⟨l₁, segIdx, p, ebuf⟩, prepared, cut⟩ := Option.bind_eq_some_iff.mp cut
    obtain ⟨disk₁, ran, cut⟩ := Option.bind_eq_some_iff.mp cut
    obtain ⟨l₂, -, cut⟩ := Option.map_eq_some_iff.mp cut
    cases cut
    rw [prepared]
    exact ran

theorem crashAtomic_front (h : Shows l disk a) (inside : a.truncateFront n = some a') :
    CrashAtomic disk (l.truncateFrontOps disk n) a a' := by
  have last := h.lastIndex
  have range := IndexedLog.truncateFront_eq_some_iff.mp ⟨a', inside⟩
  rw [Log.truncateFrontOps, if_neg (mt h.range_iff.mp (not_not_intro range))]
  obtain ⟨front, tail, holds, first, entries⟩ := h
  have old := holds.makeUp first entries
  have files := holds.files_eq
  split
  · exact old.crashAtomic_nil files
  · obtain ⟨before, c, behind, parts, hc, hn⟩ := holds.locate (n := n) (by omega) (by omega)
    obtain ⟨heap, scache, prepared, holds', -, -⟩ := holds.prepareFront parts hc hn
    have cut := holds.frontCut parts hc hn
    rw [parts] at old files
    have new := old.cutFront hc hn inside
    rw [prepared]
    dsimp only
    rw [holds'.frontOps parts]
    rw [List.append_cons] at old files
    exact crashAtomic_of_along (cut.along_cut files) (fun _ here => cut.along_load here)
      fun _ here => cut.opens here old new

/-- `truncateBack` comes to the directory that its operations lead to. -/
theorem truncateBack_run (h : Shows l disk a) (inside : a.truncateBack n = some a') :
    ∃ l' disk', l.truncateBack disk n = some (l', disk', .ok) ∧
      run Disk.apply disk (l.truncateBackOps disk n) = some disk' := by
  obtain ⟨l', disk', cut, -⟩ := h.truncateBack inside
  refine ⟨l', disk', cut, ?_⟩
  rw [Log.truncateBack] at cut
  rw [Log.truncateBackOps]
  split at cut
  · cases cut
  rename_i range
  rw [if_neg range]
  split at cut
  · rename_i same
    cases cut
    rw [if_pos same]
    rfl
  · rename_i other
    rw [if_neg other]
    obtain ⟨⟨l₁, segIdx, p, ebuf⟩, prepared, cut⟩ := Option.bind_eq_some_iff.mp cut
    obtain ⟨disk₁, ran, cut⟩ := Option.bind_eq_some_iff.mp cut
    obtain ⟨l₂, -, cut⟩ := Option.map_eq_some_iff.mp cut
    cases cut
    rw [prepared]
    exact ran

theorem crashAtomic_back (h : Shows l disk a) (inside : a.truncateBack n = some a') :
    CrashAtomic disk (l.truncateBackOps disk n) a a' := by
  have last := h.lastIndex
  have range := IndexedLog.truncateBack_eq_some_iff.mp ⟨a', inside⟩
  rw [Log.truncateBackOps, if_neg (mt h.range_iff.mp (not_not_intro range))]
  obtain ⟨front, tail, holds, first, entries⟩ := h
  have old := holds.makeUp first entries
  have files := holds.files_eq
  split
  · exact old.crashAtomic_nil files
  · obtain ⟨before, c, behind, parts, hc, hn⟩ := holds.locate (n := n) (by omega) (by omega)
    obtain ⟨heap, scache, prepared, holds', -⟩ := holds.prepareBack parts hc hn
    have cut : BackCut before c behind (cutBack c n) := holds.backCut parts
    rw [parts] at old files
    have new := old.cutBack hc hn inside
    rw [prepared]
    dsimp only
    rw [holds'.backOps parts]
    exact crashAtomic_of_along (cut.along_cut files) (fun _ here => cut.along_load here)
      fun _ here => cut.opens here old new

end Shows

/-- A cut may be interrupted anywhere, whatever the log contains and however its entries
are spread over segments. -/
theorem truncation_crash_atomic {l : Log} {disk : Disk} {a : IndexedLog Data}
    (h : Shows l disk a) (n : Nat) :
    (∀ a', a.truncateFront n = some a' →
      (∃ l' disk', l.truncateFront disk n = some (l', disk', .ok) ∧
        run Disk.apply disk (l.truncateFrontOps disk n) = some disk') ∧
      CrashAtomic disk (l.truncateFrontOps disk n) a a') ∧
    ∀ a', a.truncateBack n = some a' →
      (∃ l' disk', l.truncateBack disk n = some (l', disk', .ok) ∧
        run Disk.apply disk (l.truncateBackOps disk n) = some disk') ∧
      CrashAtomic disk (l.truncateBackOps disk n) a a' :=
  ⟨fun _ inside => ⟨h.truncateFront_run inside, h.crashAtomic_front inside⟩,
    fun _ inside => ⟨h.truncateBack_run inside, h.crashAtomic_back inside⟩⟩

/-- Three entries, each in a segment of its own, are cut in the middle. -/
theorem truncation_crash_atomic_three :
    ∃ (l : Log) (disk : Disk) (x : Data),
      CrashAtomic disk (l.truncateFrontOps disk 2) ⟨1, [x, x, x], by decide⟩ ⟨2, [x, x], by decide⟩ ∧
      CrashAtomic disk (l.truncateBackOps disk 2) ⟨1, [x, x, x], by decide⟩ ⟨1, [x, x], by decide⟩ := by
  let x : Data := ⟨[7], by decide⟩
  obtain ⟨l, disk, -, empty⟩ := shows_openLog_empty ⟨1, 1, by decide, by decide⟩
  obtain ⟨l', disk', -, shown⟩ := empty.performAll [.write 1 x, .write 2 x, .write 3 x]
  have atomic := truncation_crash_atomic (a := ⟨1, [x, x, x], by decide⟩) shown 2
  exact ⟨l', disk', x, (atomic.1 ⟨2, [x, x], by decide⟩ rfl).2,
    (atomic.2 ⟨1, [x, x], by decide⟩ rfl).2⟩

end RaftKv.Wal
