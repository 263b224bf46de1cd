import RaftKv.Wal.Directory

/-!
# Cutting the log

A cut first writes what is kept of one segment to a file that is marked with `START` or
`END`, then removes the files of the segments that go, and then renames the marked file.
`marked` is the directory in between. In memory the segment of the cut
changes its index in place, which is why the cache has to drop it.
-/

namespace RaftKv.Wal

open Library Chunk

/-! ### The directories of a cut -/

/-- What is kept of a segment is in a file that is marked with `s`. -/
def marked (s : Suffix) (before : List Block) (c : Block) (behind : List Block) :
    Directory FileName Bytes :=
  before.map file ++ (⟨c.index, s⟩, binary.encodeAll c.entries) :: behind.map file

/-- A further file, whatever is in it, between those of some segments. -/
def between (before : List Block) (f : FileName × Bytes) (behind : List Block) :
    Directory FileName Bytes :=
  before.map file ++ f :: behind.map file

theorem between_file (before behind : List Block) (c : Block) :
    between before (file c) behind = (before ++ c :: behind).map file := by
  rw [between, List.map_append, List.map_cons]

section Dirs

variable {s : Suffix} {before behind blocks : List Block} {c d : Block} {i : Nat}
variable {content : Bytes} {disk : Disk} {temp : Option Bytes}

theorem file_lt (hbefore : ∀ b ∈ before, b.index < i) :
    ∀ f ∈ before.map file, f.1 < segmentName i := by
  intro f hf
  obtain ⟨b, hb, rfl⟩ := List.mem_map.mp hf
  exact segmentName_lt.mpr (hbefore b hb)

/-- A marked file comes after the segment of the same index. -/
theorem file_lt_marked (hs : s ≠ .none) (hbefore : ∀ b ∈ before, b.index ≤ i) :
    ∀ f ∈ before.map file, f.1 < ⟨i, s⟩ := by
  intro f hf
  obtain ⟨b, hb, rfl⟩ := List.mem_map.mp hf
  have le := hbefore b hb
  rw [FileName.lt_iff, FileName.rank, FileName.rank]
  dsimp only [file, segmentName]
  cases s with
  | none => exact absurd rfl hs
  | END => dsimp only; omega
  | START => dsimp only; omega

theorem marked_lt_file (hbehind : ∀ b ∈ behind, i < b.index) :
    ∀ f ∈ behind.map file, ⟨i, s⟩ < f.1 := by
  intro f hf
  obtain ⟨b, hb, rfl⟩ := List.mem_map.mp hf
  have lt := hbehind b hb
  rw [FileName.lt_iff, FileName.rank, FileName.rank]
  dsimp only [file, segmentName]
  cases s <;> dsimp only <;> omega

/-- `TEMP` becomes the marked file. -/
theorem apply_renameTemp (hs : s ≠ .none) (hbefore : ∀ b ∈ before, b.index ≤ i)
    (hbehind : ∀ b ∈ behind, i < b.index) :
    Disk.apply { files := (before ++ behind).map file, temp := some content }
      (.renameTemp ⟨i, s⟩) = some { files := between before (⟨i, s⟩, content) behind } := by
  rw [Disk.apply, Option.map_some, List.map_append,
    Directory.write_part (file_lt_marked hs hbefore) (marked_lt_file hbehind), between]

/-- The marked file loses its mark. -/
theorem apply_unmark (hs : s ≠ .none) (hbefore : ∀ b ∈ before, b.index < i)
    (hbehind : ∀ b ∈ behind, i < b.index) :
    Disk.apply { files := between before (⟨i, s⟩, content) behind, temp := temp }
      (.rename ⟨i, s⟩ (segmentName i)) =
        some { files := between before (segmentName i, content) behind, temp := temp } := by
  have names : ∀ f ∈ before.map file, f.1 < ⟨i, s⟩ :=
    file_lt_marked hs fun b hb => Nat.le_of_lt (hbefore b hb)
  have written : Directory.write (before.map file ++ behind.map file) (segmentName i) content = _ :=
    Directory.write_part (file_lt hbefore) (marked_lt_file hbehind) _
  rw [Disk.apply, between, Directory.rename, Directory.read_part names, Option.map_some,
    Directory.erase_part names, written, Option.map_some, between]

/-- It becomes a segment. -/
theorem apply_rename (hs : s ≠ .none) (hbefore : ∀ b ∈ before, b.index < c.index)
    (hbehind : ∀ b ∈ behind, c.index < b.index) :
    Disk.apply { files := marked s before c behind, temp := temp }
      (.rename ⟨c.index, s⟩ (segmentName c.index)) =
        some { files := (before ++ c :: behind).map file, temp := temp } := by
  rw [← between_file]
  exact apply_unmark hs hbefore hbehind

theorem le_of_same (hbefore : ∀ b ∈ before, b.index < i) (same : d.index = i) :
    ∀ b ∈ before ++ [d], b.index ≤ i := by
  intro b hb
  rcases List.mem_append.mp hb with hb | hb
  · exact Nat.le_of_lt (hbefore b hb)
  · rw [List.mem_singleton.mp hb]
    exact Nat.le_of_eq same

/-- The same, if the segment that it replaces is still there. -/
theorem apply_rename_over (hs : s ≠ .none) (hbefore : ∀ b ∈ before, b.index < c.index)
    (same : d.index = c.index) :
    Disk.apply { files := marked s (before ++ [d]) c behind, temp := temp }
      (.rename ⟨c.index, s⟩ (segmentName c.index)) =
        some { files := (before ++ c :: behind).map file, temp := temp } := by
  have names := file_lt_marked hs (le_of_same hbefore same)
  have replaced : file d = (segmentName c.index, binary.encodeAll d.entries) := by
    rw [file, same]
  have written : Directory.write ((before ++ [d]).map file ++ behind.map file)
      (segmentName c.index) (binary.encodeAll c.entries) = (before ++ c :: behind).map file := by
    rw [List.map_append, List.map_singleton, replaced, List.append_assoc, List.map_append]
    exact Directory.write_over (file_lt hbefore) _ _
  rw [Disk.apply, marked, Directory.rename, Directory.read_part names, Option.map_some,
    Directory.erase_part names, written, Option.map_some]

/-- The files before the marked one are removed from the first one on. -/
theorem run_removes_before {f : FileName × Bytes} :
    run Disk.apply { files := between (before ++ blocks) f behind, temp := temp }
      (removes before) = some { files := between blocks f behind, temp := temp } := by
  have removed : run Disk.apply { files := [] ++ (before.map file ++ between blocks f behind),
                                  temp := temp } (removes before) = _ :=
    run_removes fun f hf => absurd hf List.not_mem_nil
  rw [between, List.map_append, List.append_assoc]
  exact removed

/-- The last file before the marked one is removed. -/
theorem apply_remove_before {f : FileName × Bytes} (hbefore : ∀ b ∈ before, b.index < d.index) :
    Disk.apply { files := between (before ++ [d]) f behind, temp := temp }
      (.remove (segmentName d.index)) =
        some { files := between before f behind, temp := temp } := by
  rw [between, List.map_append, List.append_assoc]
  exact apply_remove (file_lt hbefore)

theorem lt_file_behind (hs : s ≠ .none) (hbefore : ∀ b ∈ before, b.index ≤ i)
    (hblocks : ∀ b ∈ blocks, i < b.index) :
    ∀ f ∈ before.map file ++ [(⟨i, s⟩, content)], ∀ b ∈ blocks, f.1 < segmentName b.index := by
  intro f hf b hb
  have larger : (⟨i, s⟩ : FileName) < segmentName b.index :=
    marked_lt_file hblocks (file b) (List.mem_map_of_mem hb)
  rcases List.mem_append.mp hf with hf | hf
  · exact lt_trans (file_lt_marked hs hbefore f hf) larger
  · rw [List.mem_singleton.mp hf]
    exact larger

/-- The files behind the marked one are removed from the first one on. -/
theorem run_removes_behind (hs : s ≠ .none) (hbefore : ∀ b ∈ before, b.index ≤ i)
    (hblocks : ∀ b ∈ blocks, i < b.index) :
    run Disk.apply { files := between before (⟨i, s⟩, content) (blocks ++ behind), temp := temp }
      (removes blocks) = some { files := between before (⟨i, s⟩, content) behind, temp := temp } := by
  have removed : run Disk.apply
      { files := (before.map file ++ [(⟨i, s⟩, content)]) ++ (blocks.map file ++ behind.map file),
        temp := temp } (removes blocks) = _ :=
    run_removes (lt_file_behind hs hbefore hblocks)
  rw [List.append_assoc, List.append_assoc] at removed
  rw [between, List.map_append]
  exact removed

/-! ### The operations of a cut -/

/-- `blocks` are replaced by `c`, which is what is left of one of them. -/
def cutOps (s : Suffix) (blocks : List Block) (c : Block) : List FileOp :=
  [.writeTemp (binary.encodeAll c.entries), .renameTemp ⟨c.index, s⟩] ++ removes blocks ++
    [.rename ⟨c.index, s⟩ (segmentName c.index)]

/-- A cut of the front, from `START` on and whatever is in it. -/
theorem run_start (hbehind : ∀ b ∈ behind, i < b.index) :
    run Disk.apply { files := between blocks (⟨i, .START⟩, content) behind, temp := temp }
      (removes blocks ++ [FileOp.rename ⟨i, .START⟩ (segmentName i)]) =
        some { files := between [] (segmentName i, content) behind, temp := temp } := by
  have removed : run Disk.apply { files := between (blocks ++ []) (⟨i, .START⟩, content) behind,
                                  temp := temp } (removes blocks) = _ := run_removes_before
  rw [List.append_nil] at removed
  rw [run_append, removed, Option.bind_some, run_singleton]
  exact apply_unmark (by decide) (fun b hb => absurd hb List.not_mem_nil) hbehind

/-- A cut of the back, from `END` on and whatever is in it. -/
theorem run_end (hbefore : ∀ b ∈ before, b.index < i) (same : d.index = i)
    (hblocks : ∀ b ∈ blocks, i < b.index) :
    run Disk.apply { files := between (before ++ [d]) (⟨i, .END⟩, content) blocks, temp := temp }
      (removes (d :: blocks) ++ [FileOp.rename ⟨i, .END⟩ (segmentName i)]) =
        some { files := between before (segmentName i, content) [], temp := temp } := by
  have removed : run Disk.apply
      { files := between before (⟨i, .END⟩, content) (blocks ++ []), temp := temp }
      (removes blocks) = _ :=
    run_removes_behind (by decide) (fun b hb => Nat.le_of_lt (hbefore b hb)) hblocks
  rw [List.append_nil] at removed
  have first : removes (d :: blocks) = .remove (segmentName d.index) :: removes blocks := rfl
  rw [run_append, first, run_cons, apply_remove_before (by rw [same]; exact hbefore),
    Option.bind_some, removed, Option.bind_some, run_singleton]
  exact apply_unmark (by decide) hbefore fun b hb => absurd hb List.not_mem_nil

/-- A cut of the front. -/
theorem run_cutOps_start (files : disk.files = (blocks ++ behind).map file)
    (hblocks : ∀ b ∈ blocks, b.index ≤ c.index) (hbehind : ∀ b ∈ behind, c.index < b.index) :
    run Disk.apply disk (cutOps .START blocks c) = some { files := (c :: behind).map file } := by
  obtain ⟨_, temp⟩ := disk
  cases files
  have mark : run Disk.apply { files := (blocks ++ behind).map file, temp := temp }
      [.writeTemp (binary.encodeAll c.entries), .renameTemp ⟨c.index, .START⟩] = _ :=
    apply_renameTemp (by decide) hblocks hbehind
  have ops : cutOps .START blocks c = _ := List.append_assoc _ _ _
  rw [ops, run_append, mark, Option.bind_some, run_start hbehind]
  rfl

/-- A cut of the back. -/
theorem run_cutOps_end (files : disk.files = (before ++ d :: blocks).map file)
    (hbefore : ∀ b ∈ before, b.index < c.index) (same : d.index = c.index)
    (hblocks : ∀ b ∈ blocks, c.index < b.index) :
    run Disk.apply disk (cutOps .END (d :: blocks) c) =
      some { files := (before ++ [c]).map file } := by
  obtain ⟨_, temp⟩ := disk
  rw [List.append_cons] at files
  cases files
  have mark : run Disk.apply { files := (before ++ [d] ++ blocks).map file, temp := temp }
      [.writeTemp (binary.encodeAll c.entries), .renameTemp ⟨c.index, .END⟩] = _ :=
    apply_renameTemp (by decide) (le_of_same hbefore same) hblocks
  have ops : cutOps .END (d :: blocks) c = _ := List.append_assoc _ _ _
  rw [ops, run_append, mark, Option.bind_some, run_end hbefore same hblocks,
    ← between_file]
  rfl

end Dirs

/-! ### What is left of a segment -/

/-- What `TruncateFront` keeps of a segment. -/
def cutFront (c : Block) (n : Nat) : Block := ⟨c.handle, n, c.entries.drop (n - c.index)⟩

/-- What `TruncateBack` keeps of a segment. -/
def cutBack (c : Block) (n : Nat) : Block := ⟨c.handle, c.index, c.entries.take (n + 1 - c.index)⟩

section Cut

variable {c : Block} {n : Nat} (hc : c.index ≤ n) (hn : n < c.stop)

include hc hn

theorem stop_cutFront : (cutFront c n).stop = c.stop := by
  rw [Chunk.stop] at hn ⊢
  change n + (c.entries.drop (n - c.index)).length = c.index + c.entries.length
  rw [List.length_drop]
  omega

theorem stop_cutBack : (cutBack c n).stop = n + 1 := by
  rw [Chunk.stop] at hn ⊢
  change c.index + (c.entries.take (n + 1 - c.index)).length = n + 1
  rw [List.length_take]
  omega

theorem cutFront_ne_nil : (cutFront c n).entries ≠ [] := by
  have stop := stop_cutFront hc hn
  intro empty
  rw [Chunk.stop, empty] at stop
  change n + 0 = c.stop at stop
  omega

end Cut

namespace Laid

variable {first n : Nat} {front before behind rest : List Block} {tail c : Block}

theorem cutFront_tail (h : Laid first front c) (hc : c.index ≤ n) : Laid n [] (cutFront c n) where
  pos := Nat.lt_of_lt_of_le h.pos (Nat.le_trans h.covers.le hc)
  covers := rfl
  filled := nofun

theorem cutFront_inner (h : Laid first (before ++ c :: rest) tail) (hc : c.index ≤ n)
    (hn : n < c.stop) : Laid n (cutFront c n :: rest) tail where
  pos := Nat.lt_of_lt_of_le h.pos (Nat.le_trans h.covers.split.1.le hc)
  covers := by
    refine ⟨rfl, ?_⟩
    rw [stop_cutFront hc hn]
    exact h.covers.split.2
  filled := by
    intro b hb
    rcases List.mem_cons.mp hb with rfl | hb
    · exact cutFront_ne_nil hc hn
    · exact h.filled b (List.mem_append_right _ (List.mem_cons_of_mem c hb))

theorem cutBack (h : Laid first front tail) (parts : front ++ [tail] = before ++ c :: behind) :
    Laid first before (cutBack c n) where
  pos := h.pos
  covers := by
    have covers := h.covers_stop
    rw [parts] at covers
    exact covers.split.1
  filled := fun b hb => h.filled b (mem_front_of_parts parts hb)

end Laid

/-- The bytes from the position of an entry on. -/
theorem drop_entryPos {c : Block} {n : Nat} {as bs : List Data} {a : Data}
    (entries : c.entries = as ++ a :: bs) (length : as.length = n - c.index) :
    (binary.encodeAll c.entries).drop (binary.encodeAll as).length =
      binary.encodeAll (cutFront c n).entries := by
  change _ = binary.encodeAll (c.entries.drop (n - c.index))
  rw [← length, entries, List.drop_left, binary.encodeAll_append, List.drop_left]

/-- The bytes up to the end of an entry. -/
theorem take_entryPos {c : Block} {n : Nat} {as bs : List Data} {a : Data} (hc : c.index ≤ n)
    (entries : c.entries = as ++ a :: bs) (length : as.length = n - c.index) :
    (binary.encodeAll c.entries).take
      ((binary.encodeAll as).length + (binary.encode a).length) =
        binary.encodeAll (cutBack c n).entries := by
  have count : n + 1 - c.index = as.length + 1 := by omega
  change _ = binary.encodeAll (c.entries.take (n + 1 - c.index))
  rw [count, entries, List.take_length_add_append, binary.encodeAll_append,
    binary.encodeAll_append, binary.encodeAll_cons, List.take_length_add_append, List.take_left]
  simp [binary.encodeAll_cons, binary.encodeAll_nil]

/-- `truncateBack` with the cache cleared, before it reads the entries of the new tail. -/
def Log.cutTail (l : Log) (segIdx p index i : Nat) : Log :=
  Log.clearCache
    { l.set p { l.heap p with path := segmentName i } with
      sfile := segmentName i
      segments := l.segments.take (segIdx + 1)
      lastIndex := index }

namespace Holds

variable {l : Log} {disk : Disk} {front before behind : List Block} {tail c : Block} {n : Nat}
variable (h : Holds l disk front tail tail.entries)
variable (parts : front ++ [tail] = before ++ c :: behind) (hc : c.index ≤ n) (hn : n < c.stop)

section Prepare

include h parts hc hn

/-- The index of the cut is between the segments. -/
theorem around : (∀ b ∈ before ++ [c], b.index ≤ n) ∧ ∀ b ∈ behind, n < b.index := by
  have covers := h.coversAll
  rw [parts] at covers
  obtain ⟨hbefore, hbehind⟩ := covers.split
  constructor
  · intro b hb
    rcases List.mem_append.mp hb with hb | hb
    · have smaller := (h.index_lt_of_parts parts).1 b hb
      omega
    · rw [List.mem_singleton.mp hb]
      exact hc
  · intro b hb
    have larger := (hbehind.range hb).1
    omega

theorem prepareFront :
    ∃ heap scache, l.prepareFront disk n = some ({ l with heap := heap, scache := scache },
        before.length, c.handle, binary.encodeAll (cutFront c n).entries) ∧
      Holds { l with heap := heap, scache := scache } disk front tail tail.entries ∧
      heap c.handle = image c ∧ (behind ≠ [] → ∃ k, (k, c.handle) ∈ scache.items) := by
  obtain ⟨heap, scache, loads, holds, loaded, cached⟩ := h.loadSegment parts hc hn
  obtain ⟨as, a, bs, entries, length⟩ := entry_split hc hn
  refine ⟨heap, scache, ?_, holds, loaded, cached⟩
  rw [Log.prepareFront, h.findSegment parts hc hn, Option.bind_some, loads, Option.bind_some]
  dsimp only
  rw [loaded, entryPos_image hc entries length, Option.map_some]
  change some (_, _, _, (binary.encodeAll c.entries).drop _) = _
  rw [drop_entryPos entries length]

theorem prepareBack :
    ∃ heap scache, l.prepareBack disk n = some ({ l with heap := heap, scache := scache },
        before.length, c.handle, binary.encodeAll (cutBack c n).entries) ∧
      Holds { l with heap := heap, scache := scache } disk front tail tail.entries ∧
      (behind ≠ [] → ∃ k, (k, c.handle) ∈ scache.items) := by
  obtain ⟨heap, scache, loads, holds, loaded, cached⟩ := h.loadSegment parts hc hn
  obtain ⟨as, a, bs, entries, length⟩ := entry_split hc hn
  refine ⟨heap, scache, ?_, holds, cached⟩
  rw [Log.prepareBack, h.findSegment parts hc hn, Option.bind_some, loads, Option.bind_some]
  dsimp only
  rw [loaded, entryPos_image hc entries length, Option.map_some]
  change some (_, _, _, (binary.encodeAll c.entries).take _) = _
  rw [take_entryPos hc entries length]

end Prepare

section Operations

include h

/-- The operations that remove the files of some segments. -/
theorem removes_eq {blocks : List Block} (hblocks : ∀ b ∈ blocks, b ∈ front ++ [tail]) :
    (blocks.map handle).map (fun p => FileOp.remove (l.heap p).path) = removes blocks := by
  rw [List.map_map]
  refine List.map_congr_left ?_
  intro b hb
  exact congrArg FileOp.remove (h.name (hblocks b hb)).1

include parts

theorem take_segments : l.segments.take (before.length + 1) = (before ++ [c]).map handle := by
  rw [h.segments, parts, ← List.map_take, List.append_cons, List.take_left' (by simp)]

/-- Whether the segment of the cut is the tail. -/
theorem position_iff : before.length = l.segments.length - 1 ↔ behind = [] := by
  rw [h.segments, parts, List.length_map, List.length_append, List.length_cons,
    ← List.length_eq_zero_iff]
  omega

theorem drop_segments : l.segments.drop before.length = (c :: behind).map handle := by
  rw [h.segments, parts, ← List.map_drop, List.drop_left]

theorem frontOps :
    l.frontOps before.length n (binary.encodeAll (cutFront c n).entries) =
      cutOps .START (before ++ [c]) (cutFront c n) := by
  rw [Log.frontOps, h.take_segments parts, h.removes_eq (mem_upto_of_parts parts)]
  rfl

theorem backOps :
    l.backOps before.length c.handle (binary.encodeAll (cutBack c n).entries) =
      cutOps .END (c :: behind) (cutBack c n) := by
  have index := (h.name (mem_from_of_parts parts c List.mem_cons_self)).2
  rw [Log.backOps, h.drop_segments parts, h.removes_eq (mem_from_of_parts parts), index]
  rfl

end Operations

/-! ### The log after the cut -/

theorem handle_ne_of_parts (h : Holds l disk front tail tail.entries)
    (parts : front ++ [tail] = before ++ c :: behind) :
    ∀ b ∈ before ++ behind, b.handle ≠ c.handle := by
  have nodup := h.nodup
  rw [parts, List.map_append, List.map_cons, List.nodup_middle, ← List.map_append] at nodup
  intro b hb same
  refine (List.nodup_cons.mp nodup).1 ?_
  rw [← same]
  exact List.mem_map_of_mem hb

/-- If the cut is in the tail, only what is left of the tail remains. -/
theorem finishFront_tail (h : Holds l disk front c c.entries) (hc : c.index ≤ n) (hn : n < c.stop)
    (disk' : Disk) (files : disk'.files = [file (cutFront c n)]) :
    ∃ l', l.finishFront disk' front.length c.handle n (binary.encodeAll (cutFront c n).entries) =
        some l' ∧
      Holds l' disk' [] (cutFront c n) (cutFront c n).entries ∧
      l'.firstIndex = n := by
  have last : front.length = l.segments.length - 1 := (h.position_iff rfl).mpr rfl
  have read : disk'.files.read (segmentName n) =
      some (binary.encodeAll (cutFront c n).entries) := by
    rw [files]
    exact if_pos rfl
  rw [Log.finishFront, if_pos last, read, Option.bind_some, if_pos rfl,
    loadSegmentEntries_of_read (b := cutFront c n) rfl rfl read, Option.map_some, Option.map_some]
  refine ⟨_, rfl, ?_, rfl⟩
  refine {
    usable := h.usable
    segments := ?segments
    nodup := List.nodup_singleton _
    fresh := ?fresh
    toLaid := h.cutFront_tail hc
    last := ?last
    pending := List.prefix_refl _
    memory := nofun
    loaded := ?loaded
    cache := nofun
    sfile := rfl
    files := files }
  case segments =>
    change l.segments.drop front.length = [c.handle]
    rw [h.segments, List.map_append, List.drop_left' (List.length_map _)]
    rfl
  case fresh =>
    intro b hb
    rw [List.mem_singleton.mp hb]
    exact h.fresh c (List.mem_append_right _ (List.mem_singleton_self c))
  case last =>
    have stop := stop_cutFront hc hn
    exact h.last.trans stop.symm
  case loaded =>
    change (if c.handle ∈ l.scache.values then _ else Function.update _ _ _ c.handle) = _
    rw [if_neg h.tail_uncached, Function.update_self]
    rfl

/-- Otherwise the cache has the segment of the cut, and clearing it makes sure that its
entries are read again. -/
theorem finishFront_inner {rest : List Block}
    (h : Holds l disk (before ++ c :: rest) tail tail.entries) (hc : c.index ≤ n) (hn : n < c.stop)
    (cached : ∃ k, (k, c.handle) ∈ l.scache.items) (disk' : Disk)
    (files : disk'.files = (cutFront c n :: rest ++ [tail]).map file) :
    ∃ l', l.finishFront disk' before.length c.handle n (binary.encodeAll (cutFront c n).entries) =
        some l' ∧
      Holds l' disk' (cutFront c n :: rest) tail tail.entries ∧
      l'.firstIndex = n := by
  have cached' : c.handle ∈ l.scache.values := by
    obtain ⟨k, item⟩ := cached
    exact List.mem_map.mpr ⟨_, item, rfl⟩
  have segments := h.segments
  have parts : before ++ c :: rest ++ [tail] = before ++ c :: (rest ++ [tail]) :=
    List.append_assoc _ _ _
  have inner : before.length ≠ l.segments.length - 1 :=
    mt (h.position_iff parts).mp (List.append_ne_nil_of_right_ne_nil _ (List.cons_ne_nil _ _))
  have other : ∀ b ∈ rest ++ [tail], b.handle ≠ c.handle :=
    fun b hb => h.handle_ne_of_parts parts b (List.mem_append_right _ hb)
  have nodup := h.nodup
  rw [parts, List.map_append] at nodup
  have member : ∀ b ∈ c :: rest, b ∈ before ++ c :: rest :=
    fun b hb => List.mem_append_right _ hb
  rw [Log.finishFront, if_neg inner, Option.map_some]
  refine ⟨_, rfl, ?_, rfl⟩
  refine {
    usable := h.usable
    segments := ?segments
    nodup := nodup.of_append_right
    fresh := ?fresh
    toLaid := h.cutFront_inner hc hn
    last := h.last
    pending := List.prefix_refl _
    memory := ?memory
    loaded := ?loaded
    cache := nofun
    sfile := h.sfile
    files := by rw [files, List.map_append]; rfl }
  case segments =>
    change l.segments.drop before.length = _
    rw [segments, List.append_assoc, List.map_append, List.drop_left' (List.length_map _)]
    rfl
  case fresh =>
    intro b hb
    rw [List.cons_append] at hb
    rcases List.mem_cons.mp hb with rfl | hb
    · exact h.fresh c (List.mem_append_left _ (member c List.mem_cons_self))
    · refine h.fresh b ?_
      rw [List.append_assoc]
      exact List.mem_append_right _ (List.mem_cons_of_mem c hb)
  case memory =>
    intro b hb
    rcases List.mem_cons.mp hb with rfl | hb
    · right
      change (if c.handle ∈ l.scache.values then
        (Function.update l.heap c.handle _ c.handle).unload else _) = _
      rw [if_pos cached', Function.update_self]
      rfl
    · have ne := other b (List.mem_append_left _ hb)
      exact h.clear_memory (Function.update l.heap c.handle _)
        (member b (List.mem_cons_of_mem c hb)) (Function.update_of_ne ne _ _)
  case loaded =>
    have ne := other tail (List.mem_append_right _ (List.mem_singleton_self tail))
    change (if tail.handle ∈ l.scache.values then _
      else Function.update l.heap c.handle _ tail.handle) = _
    rw [if_neg h.tail_uncached, Function.update_of_ne ne, h.loaded]

/-- The segment of the cut becomes the tail, with at least what is left of its entries. -/
theorem cutTail (h : Holds l disk front tail tail.entries)
    (parts : front ++ [tail] = before ++ c :: behind) (hc : c.index ≤ n) (hn : n < c.stop)
    (disk' : Disk) (files : disk'.files = (before ++ [cutBack c n]).map file)
    {entries : List Data} (kept : (cutBack c n).entries <+: entries) :
    Holds ((l.cutTail before.length c.handle n c.index).set c.handle
        (image ⟨c.handle, c.index, entries⟩))
      disk' before ⟨c.handle, c.index, entries⟩ (cutBack c n).entries := by
  have nodup := h.nodup
  have fresh := h.fresh
  rw [parts] at nodup fresh
  rw [List.append_cons, List.map_append] at nodup
  have laid : Laid l.firstIndex before (Wal.cutBack c n) := h.cutBack parts
  refine {
    usable := h.usable
    segments := ?segments
    nodup := ?nodup
    fresh := ?fresh
    toLaid := ⟨laid.pos, laid.covers, laid.filled⟩
    last := (stop_cutBack hc hn).symm
    pending := kept
    memory := ?memory
    loaded := Function.update_self _ _ _
    cache := nofun
    sfile := rfl
    files := by rw [files, List.map_append]; rfl }
  case segments =>
    change l.segments.take (before.length + 1) = _
    rw [h.segments, parts, ← List.map_take, List.append_cons, List.take_left' (by simp),
      List.map_append, List.map_append]
    rfl
  case nodup =>
    have kept := nodup.of_append_left
    rw [List.map_append] at kept ⊢
    exact kept
  case fresh =>
    intro b hb
    rcases List.mem_append.mp hb with hb | hb
    · exact fresh b (List.mem_append_left _ hb)
    · rw [List.mem_singleton.mp hb]
      exact fresh c (List.mem_append_right _ List.mem_cons_self)
  case memory =>
    intro b hb
    have ne := h.handle_ne_of_parts parts b (List.mem_append_left _ hb)
    change Function.update (Log.cutTail l _ _ _ _).heap c.handle _ b.handle = _ ∨
      Function.update (Log.cutTail l _ _ _ _).heap c.handle _ b.handle = _
    rw [Function.update_of_ne ne]
    exact h.clear_memory (Function.update l.heap c.handle _)
      (mem_front_of_parts parts hb) (Function.update_of_ne ne _ _)

/-- The file of the new tail, in the directory after the cut. -/
theorem read_cutBack (h : Holds l disk front tail tail.entries)
    (parts : front ++ [tail] = before ++ c :: behind) {disk' : Disk}
    (files : disk'.files = (before ++ [cutBack c n]).map file) :
    disk'.files.read (segmentName c.index) =
      some (binary.encodeAll (Wal.cutBack c n).entries) := by
  rw [files, List.map_append]
  exact Directory.read_part (file_lt (h.index_lt_of_parts parts).1) _

/-- What is left of the segment of the cut becomes the tail. -/
theorem finishBack (h : Holds l disk front tail tail.entries)
    (parts : front ++ [tail] = before ++ c :: behind) (hc : c.index ≤ n) (hn : n < c.stop)
    (disk' : Disk) (files : disk'.files = (before ++ [cutBack c n]).map file) :
    ∃ l', l.finishBack disk' before.length c.handle n (binary.encodeAll (cutBack c n).entries) =
        some l' ∧
      Holds l' disk' before (cutBack c n) (cutBack c n).entries ∧
      l'.firstIndex = l.firstIndex := by
  have index : (l.heap c.handle).index = c.index :=
    (h.name (mem_from_of_parts parts c List.mem_cons_self)).2
  have read := h.read_cutBack parts files
  have name : ((l.cutTail before.length c.handle n c.index).heap c.handle).path =
        segmentName c.index ∧
      ((l.cutTail before.length c.handle n c.index).heap c.handle).index = c.index := by
    change (if c.handle ∈ l.scache.values then
        (Function.update l.heap c.handle _ c.handle).unload
      else Function.update l.heap c.handle _ c.handle).path = _ ∧
      (if c.handle ∈ l.scache.values then
        (Function.update l.heap c.handle _ c.handle).unload
      else Function.update l.heap c.handle _ c.handle).index = _
    rw [Function.update_self]
    split <;> exact ⟨rfl, index⟩
  have loads : loadSegmentEntries disk'
      ((l.cutTail before.length c.handle n c.index).heap c.handle) = some (image (cutBack c n)) :=
    loadSegmentEntries_of_read name.1 name.2 read
  rw [Log.finishBack, index]
  dsimp only
  rw [read, Option.bind_some, if_pos rfl]
  change ∃ l', (loadSegmentEntries disk' ((l.cutTail _ _ _ _).heap c.handle)).map
    ((l.cutTail _ _ _ _).set c.handle) = _ ∧ _
  rw [loads, Option.map_some]
  exact ⟨_, rfl, h.cutTail parts hc hn disk' files (List.prefix_refl _), rfl⟩

end Holds

/-! ### Both cuts -/

namespace Shows

variable {l : Log} {disk : Disk} {a : IndexedLog Data} {n : Nat}

theorem range_iff (h : Shows l disk a) :
    (n = 0 ∨ l.lastIndex = 0 ∨ n < l.firstIndex ∨ l.lastIndex < n) ↔
      ¬(a.firstIndex ≤ n ∧ n ≤ a.lastIndex) := by
  have last := h.lastIndex
  obtain ⟨front, tail, holds, first, -⟩ := h
  have pos := holds.pos
  omega

theorem truncateFront_none (h : Shows l disk a) (outside : a.truncateFront n = none) :
    l.truncateFront disk n = some (l, disk, .error .outOfRange) := by
  have range : ¬(a.firstIndex ≤ n ∧ n ≤ a.lastIndex) := by
    rw [← IndexedLog.truncateFront_eq_some_iff, outside]
    exact nofun
  rw [Log.truncateFront, if_pos (h.range_iff.mpr range)]

theorem truncateBack_none (h : Shows l disk a) (outside : a.truncateBack n = none) :
    l.truncateBack disk n = some (l, disk, .error .outOfRange) := by
  have range : ¬(a.firstIndex ≤ n ∧ n ≤ a.lastIndex) := by
    rw [← IndexedLog.truncateBack_eq_some_iff, outside]
    exact nofun
  rw [Log.truncateBack, if_pos (h.range_iff.mpr range)]

theorem truncateFront {a' : IndexedLog Data} (h : Shows l disk a)
    (inside : a.truncateFront n = some a') :
    ∃ l' disk', l.truncateFront disk n = some (l', disk', .ok) ∧ Shows l' disk' a' := by
  have last := h.lastIndex
  have range := IndexedLog.truncateFront_eq_some_iff.mp ⟨a', inside⟩
  have first' := IndexedLog.firstIndex_of_truncateFront inside
  have entries' := IndexedLog.entries_of_truncateFront inside
  rw [Log.truncateFront, if_neg (mt h.range_iff.mp (not_not_intro range))]
  obtain ⟨front, tail, holds, first, entries⟩ := h
  split
  · rename_i same
    refine ⟨l, disk, rfl, front, tail, holds, first'.trans same, ?_⟩
    rw [entries', first, same, Nat.sub_self, List.drop_zero, entries]
  · obtain ⟨before, c, behind, parts, hc, hn⟩ := holds.locate (n := n) (by omega) (by omega)
    obtain ⟨heap, scache, prepared, holds', -, cached⟩ := holds.prepareFront parts hc hn
    have ordered := holds.around parts hc hn
    have ran : run Disk.apply disk (cutOps .START (before ++ [c]) (cutFront c n)) = _ :=
      run_cutOps_start (by rw [holds.files_eq, parts, List.append_cons]) ordered.1 ordered.2
    have covers := holds.coversAll
    rw [parts] at covers
    have kept : a'.entries = flatten (cutFront c n :: behind) := by
      rw [entries', entries, first, parts, covers.drop_flatten hc hn]
      rfl
    rw [prepared, Option.bind_some]
    dsimp only
    rw [holds'.frontOps parts, ran, Option.bind_some]
    -- the segment of the cut is the tail or it is in the cache
    rcases parts_cases parts with ⟨rfl, rfl, rfl⟩ | ⟨rest, rfl, rfl⟩
    · obtain ⟨l', finished, holds'', first''⟩ :=
        holds'.finishFront_tail hc hn { files := [cutFront c n].map file } rfl
      rw [finished, Option.map_some]
      exact ⟨l', _, rfl, _, _, holds'', first'.trans first''.symm, kept⟩
    · obtain ⟨l', finished, holds'', first''⟩ :=
        holds'.finishFront_inner hc hn (cached (by simp))
          { files := (cutFront c n :: (rest ++ [tail])).map file } rfl
      rw [finished, Option.map_some]
      exact ⟨l', _, rfl, _, _, holds'', first'.trans first''.symm, kept⟩

theorem truncateBack {a' : IndexedLog Data} (h : Shows l disk a)
    (inside : a.truncateBack n = some a') :
    ∃ l' disk', l.truncateBack disk n = some (l', disk', .ok) ∧ Shows l' disk' a' := by
  have last := h.lastIndex
  have range := IndexedLog.truncateBack_eq_some_iff.mp ⟨a', inside⟩
  have first' := IndexedLog.firstIndex_of_truncateBack inside
  have entries' := IndexedLog.entries_of_truncateBack inside
  rw [Log.truncateBack, if_neg (mt h.range_iff.mp (not_not_intro range))]
  obtain ⟨front, tail, holds, first, entries⟩ := h
  split
  · rename_i same
    refine ⟨l, disk, rfl, front, tail, holds, first'.trans first, ?_⟩
    have length := holds.length_flatten
    rw [entries', first, same, length, Nat.add_sub_cancel_left, entries, List.take_length]
  · obtain ⟨before, c, behind, parts, hc, hn⟩ := holds.locate (n := n) (by omega) (by omega)
    obtain ⟨heap, scache, prepared, holds', -⟩ := holds.prepareBack parts hc hn
    have ordered := holds.index_lt_of_parts parts
    have ran : run Disk.apply disk (cutOps .END (c :: behind) (cutBack c n)) = _ :=
      run_cutOps_end (by rw [holds.files_eq, parts]) ordered.1 rfl ordered.2
    have covers := holds.coversAll
    rw [parts] at covers
    have kept : a'.entries = flatten (before ++ [cutBack c n]) := by
      rw [entries', entries, first, parts, covers.take_flatten hc hn, flatten_append]
      rw [flatten_cons, flatten_nil, List.append_nil]
      rfl
    obtain ⟨l', finished, holds'', first''⟩ := holds'.finishBack parts hc hn { files := _ } rfl
    rw [prepared, Option.bind_some]
    dsimp only
    rw [holds'.backOps parts, ran, Option.bind_some, finished, Option.map_some]
    exact ⟨l', _, rfl, _, _, holds'', (first'.trans first).trans first''.symm, kept⟩

end Shows

end RaftKv.Wal
