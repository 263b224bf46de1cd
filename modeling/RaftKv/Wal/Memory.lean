import RaftKv.Wal.Basic
import Mathlib.Data.List.Nodup

/-!
# Segments in memory and on disk

`Holds` relates a log and its directory to a list of blocks, one for each segment, with
the pointer to the segment as a handle. Every file has the entries of its block, and so
has every segment that is in memory; the tail always is, and what the cache may drop is
another segment. While a batch is written the tail may be ahead of its file.
-/

namespace RaftKv.Wal

open Library Chunk

abbrev Block := Chunk Nat Data

/-- The file of a block. -/
def file (b : Block) : FileName × Bytes := (segmentName b.index, binary.encodeAll b.entries)

/-- The segment of a block with its entries in memory. -/
def image (b : Block) : Segment where
  path := segmentName b.index
  index := b.index
  ebuf := binary.encodeAll b.entries
  epos := binary.positions 0 b.entries

theorem segmentName_lt {i j : Nat} : segmentName i < segmentName j ↔ i < j := by
  rw [FileName.lt_iff, FileName.rank, FileName.rank]
  dsimp only [segmentName]
  omega

/-- One block of a list that ends with the tail. -/
theorem parts_cases {front before behind : List Block} {tail c : Block}
    (parts : front ++ [tail] = before ++ c :: behind) :
    (before = front ∧ c = tail ∧ behind = []) ∨
      ∃ rest, behind = rest ++ [tail] ∧ front = before ++ c :: rest := by
  rcases List.eq_nil_or_concat behind with rfl | ⟨rest, last, rfl⟩
  · obtain ⟨rfl, same⟩ := List.append_inj' parts rfl
    cases same
    exact .inl ⟨rfl, rfl, rfl⟩
  · rw [List.concat_eq_append, ← List.cons_append, ← List.append_assoc] at parts
    obtain ⟨rfl, same⟩ := List.append_inj' parts rfl
    cases same
    exact .inr ⟨rest, List.concat_eq_append, rfl⟩

theorem mem_front_of_parts {front before behind : List Block} {tail b c : Block}
    (parts : front ++ [tail] = before ++ c :: behind) (hb : b ∈ before) : b ∈ front := by
  rcases parts_cases parts with ⟨rfl, -⟩ | ⟨rest, -, rfl⟩
  · exact hb
  · exact List.mem_append_left _ hb

theorem mem_upto_of_parts {front before behind : List Block} {tail c : Block}
    (parts : front ++ [tail] = before ++ c :: behind) :
    ∀ b ∈ before ++ [c], b ∈ front ++ [tail] := by
  intro b hb
  rw [parts, List.append_cons]
  exact List.mem_append_left _ hb

theorem mem_from_of_parts {front before behind : List Block} {tail c : Block}
    (parts : front ++ [tail] = before ++ c :: behind) :
    ∀ b ∈ c :: behind, b ∈ front ++ [tail] := by
  intro b hb
  rw [parts]
  exact List.mem_append_right _ hb

/-- A file of a block is parsed into the segment of the block. -/
theorem loadSegmentEntries_of_read {disk : Disk} {b : Block} {s : Segment}
    (path : s.path = segmentName b.index) (index : s.index = b.index)
    (read : disk.files.read (segmentName b.index) = some (binary.encodeAll b.entries)) :
    loadSegmentEntries disk s = some (image b) := by
  rw [loadSegmentEntries, path, read]
  dsimp only
  rw [binary.scan_encodeAll (Nat.le_refl _), Option.map_some, index]
  rfl

/-- An index of a block is the index of one of its entries. -/
theorem entry_split {c : Block} {n : Nat} (hc : c.index ≤ n) (hn : n < c.stop) :
    ∃ as a bs, c.entries = as ++ a :: bs ∧ as.length = n - c.index := by
  rw [Chunk.stop] at hn
  have inside : n - c.index < c.entries.length := by omega
  refine ⟨c.entries.take (n - c.index), c.entries[n - c.index],
    c.entries.drop (n - c.index + 1), ?_, ?_⟩
  · rw [← List.drop_eq_getElem_cons inside, List.take_append_drop]
  · rw [List.length_take]
    omega

/-- Where that entry is in the buffer. -/
theorem entryPos_image {c : Block} {n : Nat} {as bs : List Data} {a : Data} (hc : c.index ≤ n)
    (entries : c.entries = as ++ a :: bs) (length : as.length = n - c.index) :
    Log.entryPos (image c) n = some ((binary.encodeAll as).length,
      (binary.encodeAll as).length + (binary.encode a).length) := by
  rw [Log.entryPos, if_pos (show (image c).index ≤ n from hc)]
  change (binary.positions 0 c.entries)[n - c.index]? = _
  rw [entries, ← length, binary.getElem?_positions]

theorem image_appendEntry (b : Block) (data : Data) :
    (image b).appendEntry data = image { b with entries := b.entries ++ [data] } := by
  have bytes : binary.encodeAll (b.entries ++ [data]) =
      binary.encodeAll b.entries ++ binaryEntry data := by
    rw [binary.encodeAll_append, binary.encodeAll_cons, binary.encodeAll_nil, List.append_nil]
    rfl
  have positions : binary.positions 0 (b.entries ++ [data]) = binary.positions 0 b.entries ++
      [((binary.encodeAll b.entries).length,
        (binary.encodeAll b.entries ++ binaryEntry data).length)] := by
    rw [binary.positions_append, Nat.zero_add, List.length_append]
    rfl
  rw [Segment.appendEntry, image, image, bytes, positions]

/-! ### Blocks in order -/

/-- The blocks follow each other from index `first` on, and only the last one may be
empty. -/
structure Laid (first : Nat) (front : List Block) (tail : Block) : Prop where
  pos : 0 < first
  covers : Covers first front tail.index
  filled : ∀ b ∈ front, b.entries ≠ []

namespace Laid

variable {first : Nat} {front before behind : List Block} {tail b c : Block}
variable (h : Laid first front tail)

include h

theorem covers_stop : Covers first (front ++ [tail]) tail.stop := h.covers.join rfl

theorem index_pos (hb : b ∈ front ++ [tail]) : 0 < b.index :=
  Nat.lt_of_lt_of_le h.pos (h.covers_stop.range hb).1

theorem index_lt (hb : b ∈ front) : b.index < tail.index := by
  have range := (h.covers.range hb).2
  have length := List.length_pos_iff.mpr (h.filled b hb)
  rw [Chunk.stop] at range
  omega

theorem front_names : ∀ f ∈ front.map file, f.1 < segmentName tail.index := by
  intro f hf
  obtain ⟨b, hb, rfl⟩ := List.mem_map.mp hf
  exact segmentName_lt.mpr (h.index_lt hb)

/-- The blocks are in the order of their indices. -/
theorem sorted : (front ++ [tail]).Pairwise fun b c => b.index < c.index := by
  refine List.pairwise_append.mpr ⟨?_, List.pairwise_singleton _ _, ?_⟩
  · refine h.covers.sorted.imp_of_mem ?_
    intro b c hb _ le
    have length := List.length_pos_iff.mpr (h.filled b hb)
    rw [Chunk.stop] at le
    omega
  · intro b hb c hc
    rw [List.mem_singleton.mp hc]
    exact h.index_lt hb

theorem index_lt_of_parts (parts : front ++ [tail] = before ++ c :: behind) :
    (∀ b ∈ before, b.index < c.index) ∧ ∀ b ∈ behind, c.index < b.index := by
  have sorted := h.sorted
  rw [parts] at sorted
  obtain ⟨-, inner, outer⟩ := List.pairwise_append.mp sorted
  exact ⟨fun b hb => outer b hb c List.mem_cons_self, (List.pairwise_cons.mp inner).1⟩

end Laid

/-- The log and its directory hold the blocks, of the tail only `written` in its file. -/
structure Holds (l : Log) (disk : Disk) (front : List Block) (tail : Block)
    (written : List Data) : Prop extends Laid l.firstIndex front tail where
  usable : l.closed = false ∧ l.corrupt = false
  segments : l.segments = (front ++ [tail]).map handle
  nodup : ((front ++ [tail]).map handle).Nodup
  fresh : ∀ b ∈ front ++ [tail], b.handle < l.next
  last : l.lastIndex + 1 = tail.index + written.length
  pending : written <+: tail.entries
  memory : ∀ b ∈ front, l.heap b.handle = image b ∨ l.heap b.handle = (image b).unload
  loaded : l.heap tail.handle = image tail
  cache : ∀ item ∈ l.scache.items, (front.map handle)[item.1]? = some item.2
  sfile : l.sfile = segmentName tail.index
  files : disk.files = front.map file ++ [(segmentName tail.index, binary.encodeAll written)]

namespace Holds

variable {l l' : Log} {disk : Disk} {front before behind : List Block} {tail b c : Block}
variable {written : List Data} {n k p : Nat}

section Facts

variable (h : Holds l disk front tail written)

include h

theorem getLast?_segments : l.segments.getLast? = some tail.handle := by
  rw [h.segments, List.map_append, List.map_singleton, List.getLast?_concat]

theorem handle_ne (hb : b ∈ front) : b.handle ≠ tail.handle := by
  have nodup := h.nodup
  rw [List.map_append, List.map_singleton] at nodup
  exact (List.nodup_append.mp nodup).2.2 _ (List.mem_map_of_mem hb) _ (List.mem_singleton_self _)

/-- A segment knows its name and index, whether or not its entries are in memory. -/
theorem name (hb : b ∈ front ++ [tail]) :
    (l.heap b.handle).path = segmentName b.index ∧ (l.heap b.handle).index = b.index := by
  rcases List.mem_append.mp hb with hb | hb
  · rcases h.memory b hb with same | same <;> rw [same] <;> exact ⟨rfl, rfl⟩
  · cases List.mem_singleton.mp hb
    rw [h.loaded]
    exact ⟨rfl, rfl⟩

/-- What changes in memory does not matter, as long as the segments keep their entries or
lose them all and the tail keeps its own. -/
theorem remember {heap : Nat → Segment} {scache : Lru Nat Nat}
    (memory : ∀ b ∈ front, heap b.handle = image b ∨ heap b.handle = (image b).unload)
    (tailed : heap tail.handle = image tail)
    (cache : ∀ item ∈ scache.items, (front.map handle)[item.1]? = some item.2) :
    Holds { l with heap := heap, scache := scache } disk front tail written :=
  { h with memory := memory, loaded := tailed, cache := cache }

/-- The cache evicts another segment than the one that is pushed, and never the tail. -/
theorem evicted (hp : l.segments[k]? = some p) {v : Nat}
    (hv : (l.scache.setEvicted k p).2 = some v) : v ≠ p ∧ v ∈ front.map handle := by
  obtain ⟨k', hne, hitem⟩ := Lru.evicted_mem hv
  have here := h.cache _ hitem
  dsimp only at here
  refine ⟨?_, List.mem_of_getElem? here⟩
  rintro rfl
  obtain ⟨hk', value'⟩ := List.getElem?_eq_some_iff.mp here
  rw [h.segments] at hp
  obtain ⟨hk, value⟩ := List.getElem?_eq_some_iff.mp hp
  have inside : k' < ((front ++ [tail]).map handle).length := by
    rw [List.length_map] at hk' ⊢
    rw [List.length_append]
    omega
  have same : ((front ++ [tail]).map handle)[k'] = ((front ++ [tail]).map handle)[k] := by
    rw [value, ← value']
    simp only [List.map_append]
    exact List.getElem_append_left hk'
  exact hne ((List.Nodup.getElem_inj_iff h.nodup).mp same)

theorem evict_memory {v : Option Nat} (hb : b ∈ front) :
    Log.evict l.heap v b.handle = image b ∨ Log.evict l.heap v b.handle = (image b).unload := by
  cases v with
  | none => exact h.memory b hb
  | some v =>
      by_cases same : b.handle = v
      · cases same
        rw [Log.evict, Function.update_self]
        rcases h.memory b hb with here | here <;> rw [here] <;> exact .inr rfl
      · rw [Log.evict, Function.update_of_ne same]
        exact h.memory b hb

/-- Whatever is pushed, its entries stay in memory. -/
theorem evict_pushed (hp : l.segments[k]? = some p) :
    Log.evict l.heap (l.scache.setEvicted k p).2 p = l.heap p := by
  cases hv : (l.scache.setEvicted k p).2 with
  | none => rfl
  | some v =>
      have other := (h.evicted hp hv).1
      rw [Log.evict, Function.update_of_ne other.symm]

theorem evict_tail (hp : l.segments[k]? = some p) :
    Log.evict l.heap (l.scache.setEvicted k p).2 tail.handle = image tail := by
  cases hv : (l.scache.setEvicted k p).2 with
  | none => exact h.loaded
  | some v =>
      obtain ⟨b, hb, rfl⟩ := List.mem_map.mp (h.evicted hp hv).2
      rw [Log.evict, Function.update_of_ne (h.handle_ne hb).symm]
      exact h.loaded

/-- A segment before the tail is pushed. -/
theorem pushCache (hk : (front.map handle)[k]? = some p) :
    ∃ heap scache, l.pushCache k = some { l with heap := heap, scache := scache } ∧
      Holds { l with heap := heap, scache := scache } disk front tail written ∧
      heap p = l.heap p ∧ (k, p) ∈ scache.items := by
  have hp : l.segments[k]? = some p := by
    obtain ⟨inside, -⟩ := List.getElem?_eq_some_iff.mp hk
    rw [h.segments, List.map_append, List.getElem?_append_left inside, hk]
  refine ⟨_, _, by rw [Log.pushCache, hp, Option.map_some], ?_, h.evict_pushed hp,
    Lru.mem_setEvicted_self _ _ _⟩
  refine h.remember (fun b hb => h.evict_memory hb) (h.evict_tail hp) ?_
  intro item hitem
  rcases Lru.mem_setEvicted hitem with rfl | old
  · exact hk
  · exact h.cache item old

theorem tail_uncached : tail.handle ∉ l.scache.values := by
  intro cached
  obtain ⟨item, hitem, same⟩ := List.mem_map.mp cached
  have here := List.mem_of_getElem? (h.cache item hitem)
  rw [same] at here
  obtain ⟨b, hb, hhandle⟩ := List.mem_map.mp here
  exact h.handle_ne hb hhandle

/-- Clearing the cache may unload any other segment. -/
theorem clear_memory (heap : Nat → Segment) (hb : b ∈ front)
    (same : heap b.handle = l.heap b.handle) :
    (if b.handle ∈ l.scache.values then (heap b.handle).unload else heap b.handle) = image b ∨
      (if b.handle ∈ l.scache.values then (heap b.handle).unload else heap b.handle) =
        (image b).unload := by
  rw [same]
  split
  · rcases h.memory b hb with here | here <;> rw [here] <;> exact .inr rfl
  · exact h.memory b hb

theorem clearCache : Holds l.clearCache disk front tail written := by
  refine h.remember (fun b hb => h.clear_memory l.heap hb rfl) ?_ nofun
  rw [if_neg h.tail_uncached, h.loaded]

end Facts

/-! ### Finding an entry

Only what is in the file of the tail counts as an entry of the log. -/

/-- The block of what is in the file of the tail. -/
def onFile (tail : Block) (written : List Data) : Block := { tail with entries := written }

section Written

variable (h : Holds l disk front tail written)

include h

theorem laid_written : Laid l.firstIndex front (onFile tail written) :=
  ⟨h.pos, h.covers, h.filled⟩

theorem covers_written : Covers l.firstIndex (front ++ [onFile tail written]) (l.lastIndex + 1) :=
  h.laid_written.covers.join (by rw [h.last]; rfl)

theorem files_written : disk.files = (front ++ [onFile tail written]).map file := by
  rw [h.files, List.map_append]
  rfl

/-- The file of a block has its entries. -/
theorem read_file (parts : front ++ [onFile tail written] = before ++ c :: behind) :
    disk.files.read (segmentName c.index) = some (binary.encodeAll c.entries) := by
  rw [h.files_written, parts, List.map_append, List.map_cons]
  refine Directory.read_part ?_ _
  intro f hf
  obtain ⟨b, hb, rfl⟩ := List.mem_map.mp hf
  exact segmentName_lt.mpr ((h.laid_written.index_lt_of_parts parts).1 b hb)

theorem name_written (hb : b ∈ front ++ [onFile tail written]) :
    (l.heap b.handle).index = b.index := by
  rcases List.mem_append.mp hb with hb | hb
  · exact (h.name (List.mem_append_left _ hb)).2
  · cases List.mem_singleton.mp hb
    exact (h.name (List.mem_append_right front (List.mem_singleton_self tail))).2

theorem segments_written : l.segments = (front ++ [onFile tail written]).map handle := by
  rw [h.segments, List.map_append, List.map_append]
  rfl

theorem locate_written (hfirst : l.firstIndex ≤ n) (hlast : n ≤ l.lastIndex) :
    ∃ before c behind, front ++ [onFile tail written] = before ++ c :: behind ∧
      c.index ≤ n ∧ n < c.stop :=
  h.covers_written.locate hfirst (by omega)

section Located

variable (parts : front ++ [onFile tail written] = before ++ c :: behind)
variable (hc : c.index ≤ n) (hn : n < c.stop)

include parts hc hn

/-- No other block has the index. -/
theorem eq_of_contains (hb : b ∈ front) (hindex : b.index ≤ n) (hstop : n < b.stop) : b = c := by
  have covers := h.covers_written
  rw [parts] at covers
  obtain ⟨hbefore, hbehind⟩ := covers.split
  have hb := List.mem_append_left [onFile tail written] hb
  rw [parts] at hb
  rcases List.mem_append.mp hb with hb | hb
  · have range := hbefore.range hb
    omega
  rcases List.mem_cons.mp hb with same | hb
  · exact same
  · have range := hbehind.range hb
    omega

theorem findSegment_written : l.findSegment n = some before.length := by
  have covers := h.covers_written
  rw [parts] at covers
  have ordered := h.laid_written.index_lt_of_parts parts
  have length : l.segments.length = before.length + 1 + behind.length := by
    rw [h.segments_written, parts, List.length_map, List.length_append, List.length_cons]
    omega
  have found : bisect (fun k => l.segments[k]?.any fun p => (l.heap p).index ≤ n)
      l.segments.length 0 l.segments.length = before.length + 1 := by
    refine bisect_eq (Nat.zero_le _) (by omega) (by omega) ?_
    intro k hk
    rw [h.segments_written, parts, List.length_map] at hk
    have name := h.name_written (b := (before ++ c :: behind)[k])
      (by rw [parts]; exact List.getElem_mem hk)
    rw [h.segments_written, parts, List.getElem?_map, List.getElem?_eq_getElem hk, Option.map_some,
      Option.any_some, name, decide_eq_true_iff]
    rcases Nat.lt_trichotomy k before.length with hlt | rfl | hgt
    · have here : (before ++ c :: behind)[k] = before[k] := List.getElem_append_left hlt
      have smaller := ordered.1 before[k] (List.getElem_mem hlt)
      rw [here]
      omega
    · have here : (before ++ c :: behind)[before.length] = c := by simp
      rw [here]
      omega
    · have here : (before ++ c :: behind)[k] ∈ behind := by
        rw [List.getElem_append_right (by omega), List.getElem_cons]
        rw [dif_neg (by omega)]
        exact List.getElem_mem _
      have larger := (covers.split.2.range here).1
      omega
  rw [Log.findSegment, found]

/-- The segment that the cache used last is only taken for the right one. -/
theorem recent (hp : l.recent n = some p) :
    p = c.handle ∧ l.heap c.handle = image c ∧ ∃ k, (k, c.handle) ∈ l.scache.items := by
  obtain ⟨q, newest, hp⟩ := Option.bind_eq_some_iff.mp hp
  obtain ⟨⟨hindex, hstop⟩, hp⟩ := Option.ite_none_right_eq_some.mp hp
  cases hp
  obtain ⟨k, hitem⟩ := Lru.newest_mem newest
  obtain ⟨b, hb, rfl⟩ := List.mem_map.mp (List.mem_of_getElem? (h.cache _ hitem))
  rw [(h.name (List.mem_append_left [tail] hb)).2] at hindex hstop
  rcases h.memory b hb with loaded | unloaded
  · rw [loaded] at hstop
    have inside : n < b.stop := by
      rw [image, binary.length_positions] at hstop
      exact hstop
    cases h.eq_of_contains parts hc hn hb hindex inside
    exact ⟨rfl, loaded, k, hitem⟩
  · rw [unloaded] at hstop
    simp only [Segment.unload, List.length_nil] at hstop
    omega

theorem searchSegment (inner : behind ≠ []) :
    ∃ heap scache, l.searchSegment disk n =
        some ({ l with heap := heap, scache := scache }, c.handle) ∧
      Holds { l with heap := heap, scache := scache } disk front tail written ∧
      heap c.handle = image c ∧ ∃ k, (k, c.handle) ∈ scache.items := by
  obtain ⟨rest, -, hfront⟩ := (parts_cases parts).resolve_left fun hlast => inner hlast.2.2
  have member : c ∈ front := by
    rw [hfront]
    exact List.mem_append_right _ List.mem_cons_self
  have position : (front.map handle)[before.length]? = some c.handle := by
    rw [hfront]
    simp
  have pointer : l.segments[before.length]? = some c.handle := by
    rw [h.segments_written, parts]
    simp
  have name := h.name (List.mem_append_left [tail] member)
  rw [Log.searchSegment, h.findSegment_written parts hc hn, Option.bind_some, pointer,
    Option.bind_some]
  -- either the entries are read from the file or they are there already
  obtain ⟨heap, loads, loaded, holds⟩ : ∃ heap,
      (if (l.heap c.handle).epos = [] then
        (loadSegmentEntries disk (l.heap c.handle)).map (l.set c.handle) else some l) =
          some { l with heap := heap } ∧ heap c.handle = image c ∧
      Holds { l with heap := heap } disk front tail written := by
    split
    · rw [loadSegmentEntries_of_read name.1 name.2 (h.read_file parts)]
      refine ⟨_, rfl, Function.update_self _ _ _, ?_⟩
      refine h.remember ?_ ?_ h.cache
      · intro b hb
        by_cases same : b.handle = c.handle
        · have equal : b = c := List.inj_on_of_nodup_map h.nodup
            (List.mem_append_left _ hb) (List.mem_append_left _ member) same
          rw [equal, Function.update_self]
          exact .inl rfl
        · rw [Function.update_of_ne same]
          exact h.memory b hb
      · rw [Function.update_of_ne (h.handle_ne member).symm]
        exact h.loaded
    · rename_i present
      refine ⟨l.heap, rfl, ?_, h⟩
      rcases h.memory c member with here | here
      · exact here
      · rw [here] at present
        exact absurd rfl present
  obtain ⟨heap', scache, pushed, holds, same, item⟩ := holds.pushCache position
  rw [loads, Option.bind_some, pushed, Option.map_some]
  exact ⟨heap', scache, rfl, holds, same.trans loaded, before.length, item⟩

/-- `loadSegment` finds the segment of the block. It is the tail, with all that it has in
memory, or it is in the cache. -/
theorem loadSegment_written :
    ∃ heap scache, l.loadSegment disk n =
        some ({ l with heap := heap, scache := scache }, c.handle) ∧
      Holds { l with heap := heap, scache := scache } disk front tail written ∧
      (c = onFile tail written ∧ behind = [] ∧ heap c.handle = image tail ∨
        heap c.handle = image c ∧ ∃ k, (k, c.handle) ∈ scache.items) := by
  have tailIndex := (h.name (List.mem_append_right front (List.mem_singleton_self tail))).2
  rw [Log.loadSegment, h.getLast?_segments, Option.bind_some, tailIndex]
  rcases parts_cases parts with ⟨-, rfl, rfl⟩ | ⟨rest, rfl, -⟩
  · rw [if_pos (show tail.index ≤ n from hc)]
    exact ⟨l.heap, l.scache, rfl, h, .inl ⟨rfl, rfl, h.loaded⟩⟩
  · have inner : rest ++ [onFile tail written] ≠ [] :=
      List.append_ne_nil_of_right_ne_nil _ (List.cons_ne_nil _ _)
    have covers := h.covers_written
    rw [parts] at covers
    have range : c.stop ≤ tail.index := (covers.split.2.range
      (List.mem_append_right rest (List.mem_singleton_self (onFile tail written)))).1
    rw [if_neg (by omega)]
    cases hrecent : l.recent n with
    | none =>
        obtain ⟨heap, scache, hsearch, holds, loaded, cached⟩ := h.searchSegment parts hc hn inner
        exact ⟨heap, scache, hsearch, holds, .inr ⟨loaded, cached⟩⟩
    | some p =>
        obtain ⟨rfl, loaded, cached⟩ := h.recent parts hc hn hrecent
        exact ⟨l.heap, l.scache, rfl, h, .inr ⟨loaded, cached⟩⟩

end Located

end Written

/-! The same for a log whose tail is in its file. -/

section Whole

variable (h : Holds l disk front tail tail.entries)

include h

theorem coversAll : Covers l.firstIndex (front ++ [tail]) (l.lastIndex + 1) := h.covers_written

theorem files_eq : disk.files = (front ++ [tail]).map file := h.files_written

theorem locate (hfirst : l.firstIndex ≤ n) (hlast : n ≤ l.lastIndex) :
    ∃ before c behind, front ++ [tail] = before ++ c :: behind ∧ c.index ≤ n ∧ n < c.stop :=
  h.locate_written hfirst hlast

variable (parts : front ++ [tail] = before ++ c :: behind) (hc : c.index ≤ n) (hn : n < c.stop)

include parts hc hn

theorem findSegment : l.findSegment n = some before.length := h.findSegment_written parts hc hn

/-- `loadSegment` finds the segment of the block, with its entries in memory. If it is not
the tail, it is in the cache. -/
theorem loadSegment :
    ∃ heap scache, l.loadSegment disk n =
        some ({ l with heap := heap, scache := scache }, c.handle) ∧
      Holds { l with heap := heap, scache := scache } disk front tail tail.entries ∧
      heap c.handle = image c ∧ (behind ≠ [] → ∃ k, (k, c.handle) ∈ scache.items) := by
  obtain ⟨heap, scache, loads, holds, here⟩ := h.loadSegment_written parts hc hn
  refine ⟨heap, scache, loads, holds, ?_⟩
  rcases here with ⟨rfl, rfl, loaded⟩ | ⟨loaded, cached⟩
  · exact ⟨loaded, fun inner => absurd rfl inner⟩
  · exact ⟨loaded, fun _ => cached⟩

end Whole

end Holds

end RaftKv.Wal
