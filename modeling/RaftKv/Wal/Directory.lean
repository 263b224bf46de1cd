import RaftKv.Wal.Entries
import Mathlib.Data.List.Induction

/-!
# Directories of segment files

A directory that has the files of some blocks is opened as it is: the segments get new
pointers, and only the entries of the last one are read.

The rest is about removing the files of some blocks one by one, from the first to the last
as the cuts do, or from the last to the first as `load` does.
-/

namespace RaftKv.Wal

open Library Chunk

/-! ### New pointers -/

/-- The same blocks with handles from `k` on. -/
def renumber : Nat → List Block → List Block
  | _, [] => []
  | k, b :: blocks => { b with handle := k } :: renumber (k + 1) blocks

section Renumber

variable {i j k : Nat} {b : Block} {blocks : List Block}

theorem map_file_renumber (k : Nat) (blocks : List Block) :
    (renumber k blocks).map file = blocks.map file := by
  induction blocks generalizing k with
  | nil => rfl
  | cons b blocks ih => rw [renumber, List.map_cons, List.map_cons, ih]; rfl

theorem flatten_renumber (k : Nat) (blocks : List Block) :
    flatten (renumber k blocks) = flatten blocks := by
  induction blocks generalizing k with
  | nil => rfl
  | cons b blocks ih => rw [renumber, flatten_cons, flatten_cons, ih]

theorem map_handle_renumber (k : Nat) (blocks : List Block) :
    (renumber k blocks).map handle = List.range' k blocks.length := by
  induction blocks generalizing k with
  | nil => rfl
  | cons b blocks ih =>
      rw [renumber, List.map_cons, ih, List.length_cons, List.range'_succ]

theorem covers_renumber : Covers i (renumber k blocks) j ↔ Covers i blocks j := by
  induction blocks generalizing i k with
  | nil => exact Iff.rfl
  | cons b blocks ih => exact and_congr_right fun _ => ih

theorem mem_renumber (hb : b ∈ renumber k blocks) :
    ∃ i, ∃ h : i < blocks.length, b = { blocks[i] with handle := k + i } := by
  induction blocks generalizing k with
  | nil => cases hb
  | cons c blocks ih =>
      rcases List.mem_cons.mp hb with rfl | hb
      · exact ⟨0, Nat.zero_lt_succ _, rfl⟩
      · obtain ⟨i, hi, rfl⟩ := ih hb
        refine ⟨i + 1, Nat.succ_lt_succ hi, ?_⟩
        rw [List.getElem_cons_succ, Nat.add_assoc, Nat.add_comm 1 i]

end Renumber

/-! ### Opening -/

/-- The names of the files. -/
def names (blocks : List Block) : List FileName := blocks.map fun b => segmentName b.index

namespace Laid

variable {first : Nat} {front : List Block} {tail : Block} {opts : Options} {disk : Disk}
variable (h : Laid first front tail)

include h

/-- The first block starts at the first index. -/
theorem head_index : ((names (front ++ [tail])).head?).map FileName.index = some first := by
  have covers := h.covers_stop
  cases front with
  | nil => exact congrArg some covers.1
  | cons b front => exact congrArg some covers.1

/-- The log that `load` makes of the files of the blocks. -/
theorem ofSegments (files : disk.files = (front ++ [tail]).map file) :
    ∃ l, ofSegments opts disk (names (front ++ [tail])) = some l ∧
      Shows l disk ⟨first, flatten (front ++ [tail]), h.pos⟩ := by
  obtain ⟨head, hhead, rfl⟩ := Option.map_eq_some_iff.mp h.head_index
  have last : (names (front ++ [tail])).getLast? = some (segmentName tail.index) := by
    rw [names, List.map_append, List.map_singleton, List.getLast?_concat]
  have length : (names (front ++ [tail])).length = front.length + 1 := by
    rw [names, List.length_map, List.length_append, List.length_singleton]
  have read : disk.files.read (segmentName tail.index) =
      some (binary.encodeAll tail.entries) := by
    rw [files, List.map_append, List.map_singleton]
    refine Directory.read_part ?_ _
    intro f hf
    obtain ⟨b, hb, rfl⟩ := List.mem_map.mp hf
    exact segmentName_lt.mpr (h.index_lt hb)
  rw [Wal.ofSegments, hhead, Option.bind_some, last, Option.bind_some, read, Option.bind_some,
    loadSegmentEntries_of_read rfl rfl read, Option.map_some]
  refine ⟨_, rfl, renumber 0 front, { tail with handle := front.length }, ?_, rfl, ?_⟩
  · refine {
      usable := ⟨rfl, rfl⟩
      segments := ?segments
      nodup := ?nodup
      fresh := ?fresh
      pos := h.pos
      covers := covers_renumber.mpr h.covers
      filled := ?filled
      last := ?last
      pending := List.prefix_refl _
      memory := ?memory
      loaded := ?loaded
      cache := nofun
      sfile := rfl
      files := by rw [files, map_file_renumber, List.map_append]; rfl }
    case segments =>
      rw [List.map_append, map_handle_renumber, length, List.range_succ, List.range_eq_range']
      rfl
    case nodup =>
      rw [List.map_append, map_handle_renumber, List.map_singleton, ← List.range_eq_range',
        ← List.range_succ]
      exact List.nodup_range
    case fresh =>
      intro b hb
      change b.handle < (names (front ++ [tail])).length
      rw [length]
      rcases List.mem_append.mp hb with hb | hb
      · obtain ⟨i, hi, rfl⟩ := mem_renumber hb
        dsimp only
        omega
      · rw [List.mem_singleton.mp hb]
        exact Nat.lt_succ_self _
    case filled =>
      intro b hb
      obtain ⟨i, hi, rfl⟩ := mem_renumber hb
      change front[i].entries ≠ []
      exact h.filled _ (List.getElem_mem hi)
    case last =>
      have pos := h.index_pos (List.mem_append_right front (List.mem_singleton_self tail))
      change tail.index + (image tail).epos.length - 1 + 1 = tail.index + tail.entries.length
      rw [image, binary.length_positions]
      omega
    case memory =>
      intro b hb
      obtain ⟨i, hi, rfl⟩ := mem_renumber hb
      right
      have here : (names (front ++ [tail])).getD (0 + i) (segmentName tail.index) =
          segmentName front[i].index := by
        rw [Nat.zero_add, names, List.getD_eq_getElem?_getD, List.getElem?_map,
          List.getElem?_append_left hi, List.getElem?_eq_getElem hi]
        rfl
      dsimp only
      rw [if_neg (by omega), here]
      rfl
    case loaded =>
      dsimp only
      rw [if_pos length.symm]
      rfl
  · rw [flatten_append, flatten_append, flatten_renumber]
    rfl

end Laid

/-! ### Cleaning up -/

section Names

variable {xs ys : List FileName}

theorem lastStart_plain (plain : ∀ n ∈ xs, n.suffix ≠ .START) (k : Nat) :
    lastStart k xs = none := by
  induction xs generalizing k with
  | nil => rfl
  | cons n xs ih =>
      rw [lastStart, ih fun m hm => plain m (List.mem_cons_of_mem n hm)]
      exact if_neg (plain n List.mem_cons_self)

theorem lastStart_append (plain : ∀ n ∈ ys, n.suffix ≠ .START) (i k : Nat) :
    lastStart k (xs ++ ⟨i, .START⟩ :: ys) = some (k + xs.length) := by
  induction xs generalizing k with
  | nil =>
      rw [List.nil_append, lastStart, lastStart_plain plain]
      exact if_pos rfl
  | cons n xs ih =>
      rw [List.cons_append, lastStart, ih]
      exact congrArg some (by rw [List.length_cons]; omega)

theorem firstEnd_plain (plain : ∀ n ∈ xs, n.suffix ≠ .END) : firstEnd xs = none := by
  rw [firstEnd, List.findIdx?_eq_none_iff]
  intro n hn
  exact decide_eq_false (plain n hn)

theorem firstEnd_append (plain : ∀ n ∈ xs, n.suffix ≠ .END) (i : Nat) :
    firstEnd (xs ++ ⟨i, .END⟩ :: ys) = some xs.length := by
  rw [firstEnd, List.findIdx?_append, List.findIdx?_cons]
  have none : xs.findIdx? (fun n => n.suffix = .END) = none := firstEnd_plain plain
  rw [none]
  simp

end Names

/-- Without a marked file there is nothing to clean up. -/
theorem recover_unmarked {names : List FileName} (plain : ∀ n ∈ names, n.suffix = .none) :
    recover names = some ([], names) := by
  have noStart : lastStart 0 names = none :=
    lastStart_plain (fun n hn => by rw [plain n hn]; decide) 0
  have noEnd : firstEnd names = none := firstEnd_plain fun n hn => by rw [plain n hn]; decide
  rw [recover, noStart, noEnd]

theorem names_plain (blocks : List Block) : ∀ n ∈ names blocks, n.suffix = .none := by
  intro n hn
  obtain ⟨b, -, rfl⟩ := List.mem_map.mp hn
  rfl

theorem Disk.names_eq {disk : Disk} (h : ∀ f ∈ disk.files, f.1.index ≠ 0) :
    disk.names = disk.files.map Prod.fst := by
  rw [Disk.names, List.filter_eq_self]
  intro n hn
  obtain ⟨f, hf, rfl⟩ := List.mem_map.mp hn
  exact decide_eq_true (h f hf)

theorem map_fst_file (blocks : List Block) :
    (blocks.map file).map Prod.fst = names blocks := by
  rw [List.map_map]
  rfl

/-- If `load` knows what to clean up and comes to the files of laid blocks, the log opens. -/
theorem openLog_of_recover (opts : Options) {disk disk' : Disk} {ops : List FileOp} {first : Nat}
    {front : List Block} {tail : Block} (h : Laid first front tail) (some_name : disk.names ≠ [])
    (known : recover disk.names = some (ops, names (front ++ [tail])))
    (cleaned : run Disk.apply disk ops = some disk')
    (files : disk'.files = (front ++ [tail]).map file) :
    ∃ l, openLog opts disk = some (l, disk') ∧
      Shows l disk' ⟨first, flatten (front ++ [tail]), h.pos⟩ := by
  obtain ⟨l, opened, shown⟩ : ∃ l, ofSegments opts disk' _ = some l ∧ _ :=
    h.ofSegments files
  refine ⟨l, ?_, shown⟩
  rw [openLog]
  split
  · rename_i empty
    exact absurd empty some_name
  · rw [known, Option.bind_some]
    dsimp only
    rw [cleaned, Option.bind_some, opened, Option.map_some]

/-- The names that `load` finds among segments. -/
theorem disk_names {disk : Disk} {blocks : List Block} (files : disk.files = blocks.map file)
    (pos : ∀ b ∈ blocks, 0 < b.index) : disk.names = names blocks := by
  rw [Disk.names_eq, files, map_fst_file]
  intro f hf
  rw [files] at hf
  obtain ⟨b, hb, rfl⟩ := List.mem_map.mp hf
  exact Nat.ne_of_gt (pos b hb)

theorem names_ne_nil (front : List Block) (tail : Block) : names (front ++ [tail]) ≠ [] := by
  rw [names, List.map_append]
  exact List.append_ne_nil_of_right_ne_nil _ (List.cons_ne_nil _ _)

/-- A directory in which nothing was interrupted is opened as it is. -/
theorem Laid.openLog {first : Nat} {front : List Block} {tail : Block} {disk : Disk}
    (h : Laid first front tail) (opts : Options) (files : disk.files = (front ++ [tail]).map file) :
    ∃ l, openLog opts disk = some (l, disk) ∧
      Shows l disk ⟨first, flatten (front ++ [tail]), h.pos⟩ := by
  have found := disk_names files fun b hb => h.index_pos hb
  refine openLog_of_recover opts h ?_ ?_ (rfl : run Disk.apply disk [] = some disk) files
  · rw [found]
    exact names_ne_nil front tail
  · rw [found]
    exact recover_unmarked (names_plain _)

/-! ### Removing files -/

/-- The operations that remove the files of some blocks. -/
def removes (blocks : List Block) : List FileOp :=
  blocks.map fun b => .remove (segmentName b.index)

section Remove

variable {before behind : Directory FileName Bytes} {blocks : List Block} {temp : Option Bytes}

theorem apply_remove {b : Block} (hbefore : ∀ f ∈ before, f.1 < segmentName b.index) :
    Disk.apply { files := before ++ file b :: behind, temp := temp }
      (.remove (segmentName b.index)) = some { files := before ++ behind, temp := temp } := by
  have removed : Directory.remove (before ++ file b :: behind) (segmentName b.index) = _ :=
    Directory.remove_part hbefore _
  rw [Disk.apply, removed, Option.map_some]

/-- From the first to the last. -/
theorem run_removes (hbefore : ∀ f ∈ before, ∀ b ∈ blocks, f.1 < segmentName b.index) :
    run Disk.apply { files := before ++ (blocks.map file ++ behind), temp := temp }
      (removes blocks) = some { files := before ++ behind, temp := temp } := by
  induction blocks with
  | nil => rfl
  | cons b blocks ih =>
      have first : removes (b :: blocks) = .remove (segmentName b.index) :: removes blocks := rfl
      rw [first, run_cons, List.map_cons, List.cons_append,
        apply_remove fun f hf => hbefore f hf b List.mem_cons_self, Option.bind_some]
      exact ih fun f hf c hc => hbefore f hf c (List.mem_cons_of_mem b hc)

/-- From the last to the first. -/
theorem run_removes_reverse (hbefore : ∀ f ∈ before, ∀ b ∈ blocks, f.1 < segmentName b.index)
    (sorted : blocks.Pairwise fun b c => b.index < c.index) :
    run Disk.apply { files := before ++ blocks.map file, temp := temp }
      (removes blocks).reverse = some { files := before, temp := temp } := by
  induction blocks using List.reverseRecOn with
  | nil =>
      rw [List.map_nil, List.append_nil]
      rfl
  | append_singleton blocks b ih =>
      obtain ⟨inner, -, smaller⟩ := List.pairwise_append.mp sorted
      have last : (removes (blocks ++ [b])).reverse =
          .remove (segmentName b.index) :: (removes blocks).reverse := by
        simp [removes]
      have here : ∀ f ∈ before ++ blocks.map file, f.1 < segmentName b.index := by
        intro f hf
        rcases List.mem_append.mp hf with hf | hf
        · exact hbefore f hf b (List.mem_append_right _ (List.mem_singleton_self b))
        · obtain ⟨c, hc, rfl⟩ := List.mem_map.mp hf
          exact segmentName_lt.mpr (smaller c hc b (List.mem_singleton_self b))
      rw [last, run_cons, List.map_append, List.map_singleton, ← List.append_assoc,
        apply_remove here, Option.bind_some, List.append_nil]
      exact ih (fun f hf c hc => hbefore f hf c (List.mem_append_left _ hc)) inner

end Remove

end RaftKv.Wal
