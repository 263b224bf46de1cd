import RaftKv.Wal.Torn
import Mathlib.Data.List.TakeWhile

/-!
# Writes that fail

`writeBatch` appends the entries to the buffer of the tail, and then writes the new part of
the buffer to the file. If the file does not take it, the batch returns the error, and the
entries stay in the buffer.

They are behind the last index, so they are not read, and they are not in the file, so they
are gone when the log is opened again. But the next batch goes behind them. It is written to
the file as it should be, and its index is looked up in a table in which the entries that
failed come first. Unless the buffer has become so long that a new segment is begun, `Read`
returns what was not written.

From then on memory and files differ, and a segment that is closed takes the difference along
until the cache drops it. `Tailed` is what is left in every state that writes, failed or not,
and reads lead to: the files are in order, the segments know their names and the cache their
places, and the tail has at least as many entries in memory as in its file.

A batch may be written to more than one segment. What has been written when it fails stays.
-/

namespace RaftKv.Wal

open Library Chunk

/-! ### A batch that fails -/

namespace Log

/-- The loop of `writeBatch` and its end, if write number `k` to the file fails and has
written nothing: the log and the directory when `writeBatch` returns. There may be less
writes than that. -/
def entriesFailing (l : Log) (disk : Disk) (s mark : Nat) :
    Nat → List (Nat × Data) → Option (Log × Disk)
  | k, [] => if 0 < (l.heap s).ebuf.length - mark ∧ k = 0 then some (l, disk) else none
  | k, (index, data) :: rest =>
      let l := l.set s ((l.heap s).appendEntry data)
      if l.opts.segmentSize ≤ (l.heap s).ebuf.length then
        match k with
        | 0 => some (l, disk)
        | k + 1 =>
            (disk.apply (.append l.sfile ((l.heap s).ebuf.drop mark))).bind fun disk =>
              ({ l with lastIndex := index }.cycle disk).bind fun cycled =>
                cycled.1.segments.getLast?.bind fun s =>
                  entriesFailing cycled.1 cycled.2 s 0 k rest
      else l.entriesFailing disk s mark k rest

/-- `writeBatch`, if write number `k` to the file fails. -/
def batchFailing (l : Log) (disk : Disk) (k : Nat) (b : List (Nat × Data)) :
    Option (Log × Disk) :=
  match misplaced l.lastIndex b with
  | some _ => none
  | none =>
      (l.prepareTail disk).bind fun (l, disk) =>
        l.segments.getLast?.bind fun s => l.entriesFailing disk s (l.heap s).ebuf.length k b

/-- Reading, and writing a batch with or without a failure. -/
inductive Call where
  | read (n : Nat)
  | write (b : List (Nat × Data))
  | failing (k : Nat) (b : List (Nat × Data))

def serve (s : Log × Disk) : Call → Option (Log × Disk)
  | .read n => (s.1.read s.2 n).map fun (l, _) => (l, s.2)
  | .write b => (s.1.writeBatch s.2 b).map fun (l, disk, _) => (l, disk)
  | .failing k b => s.1.batchFailing s.2 k b

/-- What `Read` returns. -/
def readable (l : Log) (disk : Disk) (n : Nat) : Option Result := (l.read disk n).map Prod.snd

end Log

/-- The entry of an index, from the buffer of a segment. -/
def Segment.entry (s : Segment) (n : Nat) : Option Bytes :=
  (Log.entryPos s n).bind fun epos => readBinary ((s.ebuf.take epos.2).drop epos.1)

namespace Log

/-- The segment in the list to which an index belongs, with its entries. -/
def listed (l : Log) (disk : Disk) (n : Nat) : Option Segment :=
  (l.findSegment n).bind fun idx =>
    l.segments[idx]?.bind fun p =>
      if (l.heap p).epos = [] then loadSegmentEntries disk (l.heap p) else some (l.heap p)

/-- The segment in which `Read` finds an index before the tail. It is the one that the cache
used last, if that has as many entries, and otherwise the one in the list. -/
def found (l : Log) (disk : Disk) (n : Nat) : Option Segment :=
  match l.recent n with
  | some p => some (l.heap p)
  | none => l.listed disk n

/-- The buffer of the tail is so long that the next batch begins a new segment. -/
def tailFull (l : Log) : Bool :=
  l.segments.getLast?.any fun s => l.opts.segmentSize < (l.heap s).ebuf.length

/-- The entry that follows the one of the last index in the buffer of the tail. -/
def behindLast (l : Log) : Option Bytes :=
  l.segments.getLast?.bind fun s => (l.heap s).entry (l.lastIndex + 1)

/-- The first index of the tail. -/
def tailIndex (l : Log) : Nat := (l.segments.getLast?.map fun p => (l.heap p).index).getD 0

/-- The segment that the cache gives up for the tail. -/
def victim (l : Log) : Option Nat :=
  l.segments.getLast?.bind fun s => (l.scache.setEvicted (l.segments.length - 1) s).2

/-- The log after `cycle`, with the pointer to the tail that it closes. -/
def begun (l : Log) (p : Nat) : Log :=
  { l with
    heap := Function.update (evict l.heap (l.scache.setEvicted (l.segments.length - 1) p).2) l.next
      { path := segmentName (l.lastIndex + 1), index := l.lastIndex + 1 }
    next := l.next + 1
    segments := l.segments ++ [l.next]
    sfile := segmentName (l.lastIndex + 1)
    scache := (l.scache.setEvicted (l.segments.length - 1) p).1 }

/-- Closing a full tail does not show: before it the entries in the segment that the cache used
last, and in the one that it gives up, are those that are found without them. -/
def Undisturbed (l : Log) (disk : Disk) : Prop :=
  l.tailFull = true → ∀ n, l.firstIndex ≤ n → n < l.tailIndex →
    (l.found disk n).bind (·.entry n) =
      (Log.listed { l with heap := evict l.heap l.victim } disk n).bind (·.entry n)

end Log

/-! ### Memory and files -/

/-- The files have the entries of the blocks, that of the tail those of `written`. In memory the
tail has the entries of its block, which may be others. -/
structure Tailed (l : Log) (disk : Disk) (front : List Block) (tail : Block)
    (written : List Data) : Prop extends Laid l.firstIndex front (Holds.onFile tail written) where
  usable : l.closed = false ∧ l.corrupt = false
  last : l.lastIndex + 1 = tail.index + written.length
  enough : written.length ≤ tail.entries.length
  segments : l.segments.getLast? = some tail.handle
  nodup : l.segments.Nodup
  fresh : ∀ p ∈ l.segments, p < l.next
  named : ∀ p ∈ l.segments, (l.heap p).path = segmentName (l.heap p).index
  sorted : l.segments.Pairwise fun p q => (l.heap p).index ≤ (l.heap q).index
  loaded : l.heap tail.handle = image tail
  cache : ∀ item ∈ l.scache.items, l.segments.dropLast[item.1]? = some item.2
  sfile : l.sfile = segmentName tail.index
  files : disk.files = (front ++ [Holds.onFile tail written]).map file

/-- The tail is closed, and the next one begins behind the last index. The closed one is the
segment that the cache used last, and before it nothing is found by way of the cache. -/
structure Begun (l : Log) (disk : Disk) (front : List Block) (tail : Block) (written : List Data)
    (l' : Log) (disk' : Disk) (front' : List Block) (tail' : Block) : Prop where
  tailed : Tailed l' disk' front' tail' []
  content : flatten front' = flatten front ++ written
  empty : tail'.entries = []
  index : tail'.index = l.lastIndex + 1
  first : l'.firstIndex = l.firstIndex
  last : l'.lastIndex = l.lastIndex
  loaded : l'.heap tail.handle = image tail
  newest : l'.scache.newest = some tail.handle
  found : ∀ n, n < tail.index → l'.found disk' n =
    Log.listed { l with heap := Log.evict l.heap l.victim } disk n

/-- What a batch that fails leaves behind: its first `m` entries have reached the files, and `d`
is the next one. -/
structure Fails (l : Log) (front : List Block) (written : List Data) (k : Nat) (es : List Data)
    (l' : Log) (disk' : Disk) (front' : List Block) (tail' : Block) (written' : List Data)
    (m : Nat) (d : Data) : Prop where
  tailed : Tailed l' disk' front' tail' written'
  first : l'.firstIndex = l.firstIndex
  here : es[m]? = some d
  start : m = 0 ↔ k = 0
  content : flatten front' ++ written' = flatten front ++ written ++ es.take m

theorem Holds.tailed {l : Log} {disk : Disk} {front : List Block} {tail : Block}
    {written : List Data} (h : Holds l disk front tail written) :
    Tailed l disk front tail written where
  toLaid := h.laid_written
  usable := h.usable
  last := h.last
  enough := h.pending.length_le
  segments := h.getLast?_segments
  nodup := h.segments ▸ h.nodup
  fresh := by
    rw [h.segments]
    exact List.forall_mem_map.mpr h.fresh
  named := by
    rw [h.segments]
    refine List.forall_mem_map.mpr fun b hb => ?_
    rw [(h.name hb).1, (h.name hb).2]
  sorted := by
    rw [h.segments, List.pairwise_map]
    refine h.sorted.imp_of_mem fun hb hc lt => ?_
    rw [(h.name hb).2, (h.name hc).2]
    exact Nat.le_of_lt lt
  loaded := h.loaded
  cache := by
    rw [h.segments, List.map_append, List.map_singleton, List.dropLast_concat]
    exact h.cache
  sfile := h.sfile
  files := h.files_written

/-- A segment keeps its name when its entries change. -/
theorem Log.update_name {heap : Nat → Segment} {p : Nat} {s : Segment}
    (same : s.path = (heap p).path ∧ s.index = (heap p).index) (q : Nat) :
    (Function.update heap p s q).path = (heap q).path ∧
      (Function.update heap p s q).index = (heap q).index := by
  by_cases here : q = p
  · subst here
    rw [Function.update_self]
    exact same
  · rw [Function.update_of_ne here]
    exact ⟨rfl, rfl⟩

theorem Log.evict_name (heap : Nat → Segment) (v : Option Nat) (p : Nat) :
    (Log.evict heap v p).path = (heap p).path ∧ (Log.evict heap v p).index = (heap p).index := by
  cases v with
  | none => exact ⟨rfl, rfl⟩
  | some v =>
      rw [Log.evict]
      exact Log.update_name (by exact ⟨rfl, rfl⟩) p

theorem loadSegmentEntries_name {disk : Disk} {s s' : Segment}
    (h : loadSegmentEntries disk s = some s') : s'.path = s.path ∧ s'.index = s.index := by
  rw [loadSegmentEntries] at h
  split at h
  · cases h
    exact ⟨rfl, rfl⟩
  · obtain ⟨epos, -, rfl⟩ := Option.map_eq_some_iff.mp h
    exact ⟨rfl, rfl⟩

/-- The entries of a block are those of its image. -/
theorem entry_image {c : Block} {n : Nat} (hc : c.index ≤ n) :
    (image c).entry n = c.entries[n - c.index]?.map Subtype.val := by
  rcases Nat.lt_or_ge n c.stop with hn | outside
  · obtain ⟨as, x, bs, entries, length⟩ := entry_split hc hn
    rw [Segment.entry, entryPos_image hc entries length, Option.bind_some]
    change readBinary (((binary.encodeAll c.entries).take _).drop _) = _
    rw [entries, slice_encodeAll, ← length, List.getElem?_append_right (Nat.le_refl _), Nat.sub_self]
    exact readBinary_binaryEntry x
  · rw [Chunk.stop] at outside
    rw [Segment.entry, Log.entryPos, if_pos (show (image c).index ≤ n from hc),
      show (image c).epos = binary.positions 0 c.entries from rfl,
      List.getElem?_eq_none (by rw [binary.length_positions]; exact Nat.le_sub_of_add_le' outside),
      List.getElem?_eq_none (Nat.le_sub_of_add_le' outside)]
    rfl

/-- What is found in the list does not depend on other segments and files. -/
theorem Log.listed_congr {l l' : Log} {disk disk' : Disk} {n : Nat}
    (find : l'.findSegment n = l.findSegment n)
    (same : ∀ k, l.findSegment n = some k → ∃ p, l.segments[k]? = some p ∧
      l'.segments[k]? = some p ∧ l'.heap p = l.heap p ∧
      disk'.files.read (l.heap p).path = disk.files.read (l.heap p).path) :
    l'.listed disk' n = l.listed disk n := by
  rw [Log.listed, Log.listed, find]
  refine Option.bind_congr fun k hk => ?_
  obtain ⟨p, here, here', heap, read⟩ := same k hk
  rw [here, here', Option.bind_some, Option.bind_some, heap, loadSegmentEntries, loadSegmentEntries,
    read]

namespace Tailed

variable {l l' : Log} {disk disk' : Disk} {front : List Block} {tail : Block} {written : List Data}
variable {d x : Data} {n k p : Nat}

section Facts

variable (h : Tailed l disk front tail written)

include h

theorem segments_eq : l.segments = l.segments.dropLast ++ [tail.handle] :=
  (List.dropLast_append_getLast? _ h.segments).symm

theorem pointer : l.segments[l.segments.length - 1]? = some tail.handle := by
  rw [← List.getLast?_eq_getElem?, h.segments]

theorem getElem?_of_older (hk : l.segments.dropLast[k]? = some p) : l.segments[k]? = some p := by
  rw [h.segments_eq, List.getElem?_append_left (List.getElem?_eq_some_iff.mp hk).1]
  exact hk

theorem tail_mem : tail.handle ∈ l.segments := List.mem_of_getLast? h.segments

/-- The tail comes last. -/
theorem index_le (hp : p ∈ l.segments) : (l.heap p).index ≤ tail.index := by
  have sorted := h.sorted
  have loaded : (l.heap tail.handle).index = tail.index := by
    rw [h.loaded]
    rfl
  rw [h.segments_eq] at hp sorted
  rcases List.mem_append.mp hp with older | here
  · rw [← loaded]
    exact (List.pairwise_append.mp sorted).2.2 p older _ (List.mem_singleton_self _)
  · rw [List.mem_singleton.mp here, loaded]

theorem tailIndex_eq : l.tailIndex = tail.index := by
  rw [Log.tailIndex, h.segments, Option.map_some, h.loaded]
  rfl

theorem tailFull_eq : l.tailFull = decide (l.opts.segmentSize < (l.heap tail.handle).ebuf.length) := by
  rw [Log.tailFull, h.segments, Option.any_some]

theorem older_ne (hp : p ∈ l.segments.dropLast) : p ≠ tail.handle := by
  have nodup := h.nodup
  rw [h.segments_eq] at nodup
  exact (List.nodup_append.mp nodup).2.2 p hp _ (List.mem_singleton_self _)

/-- A segment with a smaller index is not the last one. -/
theorem older_of_index (hk : l.segments[k]? = some p) (smaller : (l.heap p).index < tail.index) :
    l.segments.dropLast[k]? = some p := by
  rw [h.segments_eq] at hk
  rcases Nat.lt_or_ge k l.segments.dropLast.length with inside | outside
  · rwa [List.getElem?_append_left inside] at hk
  · rw [List.getElem?_append_right outside] at hk
    have same := List.mem_singleton.mp (List.mem_of_getElem? hk)
    rw [same, h.loaded] at smaller
    exact absurd smaller (Nat.lt_irrefl _)

/-- What the cache gives up is neither the tail nor what is pushed. -/
theorem victim_older {v : Nat} (hv : (l.scache.setEvicted k p).2 = some v) :
    v ∈ l.segments.dropLast ∧ (l.segments[k]? = some p → v ≠ p) := by
  obtain ⟨k', other, hitem⟩ := Lru.evicted_mem hv
  have here := h.cache _ hitem
  refine ⟨List.mem_of_getElem? here, ?_⟩
  rintro hk rfl
  have here' := h.getElem?_of_older here
  obtain ⟨inside, value⟩ := List.getElem?_eq_some_iff.mp hk
  obtain ⟨inside', value'⟩ := List.getElem?_eq_some_iff.mp here'
  exact other ((List.Nodup.getElem_inj_iff h.nodup).mp (value'.trans value.symm))

theorem evict_pushed (hk : l.segments[k]? = some p) :
    Log.evict l.heap (l.scache.setEvicted k p).2 p = l.heap p := by
  cases hv : (l.scache.setEvicted k p).2 with
  | none => rfl
  | some v =>
      rw [Log.evict, Function.update_of_ne ((h.victim_older hv).2 hk).symm]

theorem evict_tail : Log.evict l.heap (l.scache.setEvicted k p).2 tail.handle = image tail := by
  cases hv : (l.scache.setEvicted k p).2 with
  | none => exact h.loaded
  | some v =>
      rw [Log.evict, Function.update_of_ne (h.older_ne (h.victim_older hv).1).symm]
      exact h.loaded

theorem ebuf_eq : (l.heap tail.handle).ebuf = binary.encodeAll tail.entries := by
  rw [h.loaded]
  rfl

/-- What changes in memory does not matter, as long as the segments keep their names and the
tail has as many entries as its file. -/
theorem remember {heap : Nat → Segment} {scache : Lru Nat Nat} {entries : List Data}
    (names : ∀ p, (heap p).path = (l.heap p).path ∧ (heap p).index = (l.heap p).index)
    (tailed : heap tail.handle = image { tail with entries := entries })
    (enough : written.length ≤ entries.length)
    (cache : ∀ item ∈ scache.items, l.segments.dropLast[item.1]? = some item.2) :
    Tailed { l with heap := heap, scache := scache } disk front { tail with entries := entries }
      written :=
  { h with
    enough := enough
    named := fun p hp => by
      dsimp only
      rw [(names p).1, (names p).2]
      exact h.named p hp
    sorted := h.sorted.imp fun le => by
      dsimp only
      rw [(names _).2, (names _).2]
      exact le
    loaded := tailed
    cache := cache }

theorem pushCache (hk : l.segments.dropLast[k]? = some p) :
    ∃ heap scache, l.pushCache k = some { l with heap := heap, scache := scache } ∧
      heap p = l.heap p ∧
      Tailed { l with heap := heap, scache := scache } disk front tail written := by
  have here := h.getElem?_of_older hk
  refine ⟨_, _, by rw [Log.pushCache, here, Option.map_some], h.evict_pushed here, ?_⟩
  refine h.remember (Log.evict_name _ _) h.evict_tail h.enough fun item hitem => ?_
  rcases Lru.mem_setEvicted hitem with rfl | old
  · exact hk
  · exact h.cache item old

/-- How many segments begin at an index or before it. -/
theorem findSegment_eq : l.findSegment n =
    match (l.segments.takeWhile fun p => (l.heap p).index ≤ n).length with
    | 0 => none
    | i + 1 => some i := by
  have length := bisect_takeWhile (q := fun p => (l.heap p).index ≤ n) (h.sorted.imp
    fun le inside => decide_eq_true (Nat.le_trans le (of_decide_eq_true inside)))
  cases count : (l.segments.takeWhile fun p => (l.heap p).index ≤ n).length <;>
    rw [Log.findSegment, length, count]

theorem findSegment_spec (hk : l.findSegment n = some k) :
    ∃ p, l.segments[k]? = some p ∧ (l.heap p).index ≤ n := by
  rw [h.findSegment_eq] at hk
  split at hk
  · cases hk
  · rename_i i count
    cases hk
    have inside : k < (l.segments.takeWhile fun p => (l.heap p).index ≤ n).length := by omega
    have whole := Nat.lt_of_lt_of_le inside (List.takeWhile_sublist _).length_le
    refine ⟨l.segments[k], List.getElem?_eq_getElem whole, ?_⟩
    rw [← (List.takeWhile_prefix _).getElem inside]
    have small := List.mem_takeWhile_imp (List.getElem_mem inside)
    exact of_decide_eq_true small

/-- The segment in the list is found, and then it is in the cache. -/
theorem searchSegment (hn : n < tail.index) :
    l.searchSegment disk n = none ∧ l.listed disk n = none ∨
      ∃ heap scache p, l.searchSegment disk n =
          some ({ l with heap := heap, scache := scache }, p) ∧
        l.listed disk n = some (heap p) ∧
        Tailed { l with heap := heap, scache := scache } disk front tail written := by
  rw [Log.searchSegment, Log.listed]
  cases found : l.findSegment n with
  | none => exact .inl ⟨rfl, rfl⟩
  | some k =>
      obtain ⟨p, here, index⟩ := h.findSegment_spec found
      have older := h.older_of_index here (by omega)
      have other := h.older_ne (List.mem_of_getElem? older)
      rw [Option.bind_some, Option.bind_some, here, Option.bind_some, Option.bind_some]
      split
      · cases loads : loadSegmentEntries disk (l.heap p) with
        | none => exact .inl ⟨rfl, rfl⟩
        | some s =>
            have tailed : Tailed (l.set p s) disk front tail written :=
              h.remember (Log.update_name (loadSegmentEntries_name loads))
                ((Function.update_of_ne other.symm _ _).trans h.loaded) h.enough h.cache
            obtain ⟨heap, scache, pushed, same, tailed⟩ := tailed.pushCache older
            refine .inr ⟨heap, scache, p, ?_, ?_, tailed⟩
            · rw [Option.map_some, Option.bind_some, pushed]
              rfl
            · rw [same]
              exact congrArg some (show s = Function.update l.heap p s p by rw [Function.update_self])
      · obtain ⟨heap, scache, pushed, same, tailed⟩ := h.pushCache older
        refine .inr ⟨heap, scache, p, ?_, congrArg some same.symm, tailed⟩
        rw [Option.bind_some, pushed]
        rfl

theorem loadSegment (hn : n < tail.index) :
    l.loadSegment disk n = none ∧ l.found disk n = none ∨
      ∃ heap scache p, l.loadSegment disk n =
          some ({ l with heap := heap, scache := scache }, p) ∧
        l.found disk n = some (heap p) ∧
        Tailed { l with heap := heap, scache := scache } disk front tail written := by
  have later : ¬(l.heap tail.handle).index ≤ n := by
    rw [h.loaded]
    exact Nat.not_le.mpr hn
  rw [Log.loadSegment, h.segments, Option.bind_some, if_neg later, Log.found]
  cases l.recent n with
  | none => exact h.searchSegment hn
  | some p => exact .inr ⟨l.heap, l.scache, p, rfl, rfl, h⟩

theorem firstIndex_le : l.firstIndex ≤ tail.index :=
  (h.covers_stop.range (List.mem_append_right front (List.mem_singleton_self _))).1

/-- What `Read` returns for an index in its range. -/
theorem read_eq (hfirst : l.firstIndex ≤ n) (hlast : n ≤ l.lastIndex) :
    l.read disk n = (l.loadSegment disk n).bind fun loaded =>
      ((loaded.1.heap loaded.2).entry n).map fun data => (loaded.1, .data data) := by
  have pos := h.pos
  rw [Log.read, if_neg (by rw [h.usable.1, h.usable.2]; decide), if_neg (by omega)]
  refine Option.bind_congr fun loaded _ => ?_
  rw [Segment.entry, Option.map_bind]
  rfl

theorem read_outside (outside : n < l.firstIndex ∨ l.lastIndex < n) :
    l.read disk n = some (l, .error .notFound) := by
  rw [Log.read, if_neg (by rw [h.usable.1, h.usable.2]; decide), if_pos (by omega)]

/-- An index before the tail. -/
theorem readable_inner (hfirst : l.firstIndex ≤ n) (hn : n < tail.index) :
    l.readable disk n = ((l.found disk n).bind (·.entry n)).map .data := by
  have last := h.last
  rw [Log.readable, h.read_eq hfirst (by omega)]
  rcases h.loadSegment hn with ⟨loads, found⟩ | ⟨heap, scache, p, loads, found, -⟩
  · rw [loads, found]
    rfl
  · rw [loads, found, Option.bind_some, Option.bind_some, Option.map_map]
    rfl

/-- An index of the tail is looked up in its memory. -/
theorem read_tail (hn : tail.index ≤ n) (hlast : n ≤ l.lastIndex)
    (here : tail.entries[n - tail.index]? = some x) :
    l.read disk n = some (l, .data x.val) := by
  have first := h.firstIndex_le
  have pos := h.pos
  refine Log.read_of_loadSegment h.usable (by omega) (by omega) hlast ?_ h.loaded hn here
  rw [Log.loadSegment, h.segments, Option.bind_some, h.loaded,
    if_pos (show (image tail).index ≤ n from hn)]

theorem readable_tail (hn : tail.index ≤ n) (hlast : n ≤ l.lastIndex) :
    l.readable disk n = tail.entries[n - tail.index]?.map fun x => .data x.val := by
  have last := h.last
  have enough := h.enough
  have inside : n - tail.index < tail.entries.length := by omega
  have here := List.getElem?_eq_getElem inside
  rw [Log.readable, h.read_tail hn hlast here, here]
  rfl

/-- An index before the tail is looked up in the segment that the cache used last. -/
theorem read_newest {c : Block} (newest : l.scache.newest = some c.handle)
    (loaded : l.heap c.handle = image c) (hfirst : l.firstIndex ≤ n) (hn : c.index ≤ n)
    (hlast : n < tail.index) (here : c.entries[n - c.index]? = some x) :
    l.read disk n = some (l, .data x.val) := by
  have pos := h.pos
  have last := h.last
  obtain ⟨inside, -⟩ := List.getElem?_eq_some_iff.mp here
  have found : l.recent n = some c.handle := by
    rw [Log.recent, newest, Option.bind_some, loaded, if_pos]
    refine ⟨hn, ?_⟩
    change n < c.index + (binary.positions 0 c.entries).length
    rw [binary.length_positions]
    omega
  refine Log.read_of_loadSegment h.usable (by omega) hfirst (by omega) ?_ loaded hn here
  rw [Log.loadSegment, h.segments, Option.bind_some, h.loaded,
    if_neg (show ¬(image tail).index ≤ n from Nat.not_le.mpr hlast), found]

/-- Reading changes only what is in memory before the tail. -/
theorem read {r : Result} (read : l.read disk n = some (l', r)) :
    Tailed l' disk front tail written := by
  rcases Nat.lt_or_ge n l.firstIndex with before | hfirst
  · rw [h.read_outside (.inl before)] at read
    cases read
    exact h
  rcases Nat.lt_or_ge l.lastIndex n with behind | hlast
  · rw [h.read_outside (.inr behind)] at read
    cases read
    exact h
  rcases Nat.lt_or_ge n tail.index with inner | hn
  · rw [h.read_eq hfirst hlast] at read
    obtain ⟨loaded, loads, read⟩ := Option.bind_eq_some_iff.mp read
    obtain ⟨data, -, same⟩ := Option.map_eq_some_iff.mp read
    rcases h.loadSegment inner with ⟨none, -⟩ | ⟨heap, scache, p, some, -, tailed⟩
    · rw [none] at loads
      cases loads
    · rw [some] at loads
      cases loads
      cases same
      exact tailed
  · have last := h.last
    have enough := h.enough
    have inside : n - tail.index < tail.entries.length := by omega
    rw [h.read_tail hn hlast (List.getElem?_eq_getElem inside)] at read
    cases read
    exact h

/-- The entry behind the last index in memory. -/
theorem behindLast_eq : l.behindLast = tail.entries[written.length]?.map Subtype.val := by
  have last := h.last
  rw [Log.behindLast, h.segments, Option.bind_some, h.loaded, entry_image (by omega),
    show l.lastIndex + 1 - tail.index = written.length by omega]

/-- If there is none, it is the first one that is put there. -/
theorem behindLast_append (d : Data) (left : List Data) :
    (tail.entries ++ d :: left)[written.length]?.map Subtype.val =
      some (l.behindLast.getD d.val) := by
  rw [h.behindLast_eq]
  rcases Nat.lt_or_ge written.length tail.entries.length with inside | all
  · rw [List.getElem?_append_left inside, List.getElem?_eq_getElem inside]
    rfl
  · rw [List.getElem?_append_right all, List.getElem?_eq_none all, Nat.le_antisymm h.enough all,
      Nat.sub_self]
    rfl

end Facts

section Congr

variable (h : Tailed l disk front tail written)

include h

theorem newest_older (newest : l.scache.newest = some p) : p ∈ l.segments.dropLast := by
  obtain ⟨k, item⟩ := Lru.newest_mem newest
  exact List.mem_of_getElem? (h.cache _ item)

/-- Only the segments before the tail matter for an index before the tail. -/
theorem found_congr (hn : n < tail.index) {heap : Nat → Segment}
    (older : ∀ p ∈ l.segments.dropLast, heap p = l.heap p)
    (index : ∀ p, (heap p).index = (l.heap p).index) :
    Log.found { l with heap := heap } disk n = l.found disk n := by
  have recent : Log.recent { l with heap := heap } n = l.recent n := by
    refine Option.bind_congr fun p newest => ?_
    simp only [older p (h.newest_older newest)]
  rw [Log.found, Log.found, recent]
  cases used : l.recent n with
  | some p =>
      obtain ⟨q, newest, used⟩ := Option.bind_eq_some_iff.mp used
      obtain ⟨-, same⟩ := Option.ite_none_right_eq_some.mp used
      cases same
      exact congrArg some (older p (h.newest_older newest))
  | none =>
      refine Log.listed_congr ?_ fun k hk => ?_
      · rw [Log.findSegment, Log.findSegment]
        simp only [index]
      · obtain ⟨p, here, small⟩ := h.findSegment_spec hk
        have before := h.older_of_index here (by omega)
        exact ⟨p, here, here, older p (List.mem_of_getElem? before), rfl⟩

end Congr

/-! ### Writing -/

section Writing

variable (h : Tailed l disk front tail written)

include h

theorem opens {a : IndexedLog Data} (first : a.firstIndex = l.firstIndex)
    (entries : a.entries = flatten front ++ written) : Opens disk a := by
  intro opts
  obtain ⟨l', opened, front', tail', holds, first', entries'⟩ := h.toLaid.openLog opts h.files
  refine ⟨l', disk, opened, front', tail', holds, first.trans first', ?_⟩
  rw [← entries', entries, flatten_append]
  simp [Holds.onFile]

/-- The tail may get more entries in memory. -/
theorem extend (more : List Data) :
    Tailed (l.set tail.handle (image { tail with entries := tail.entries ++ more })) disk front
      { tail with entries := tail.entries ++ more } written := by
  refine h.remember (Log.update_name (by rw [h.loaded]; exact ⟨rfl, rfl⟩))
    (Function.update_self _ _ _) ?_ h.cache
  rw [List.length_append]
  exact Nat.le_add_right_of_le h.enough

theorem appendEntry (d : Data) : (l.heap tail.handle).appendEntry d =
    image { tail with entries := tail.entries ++ [d] } := by
  rw [h.loaded, image_appendEntry]

/-- That changes nothing for `Read`. -/
theorem readable_extend (more : List Data) (n : Nat) :
    (l.set tail.handle (image { tail with entries := tail.entries ++ more })).readable disk n =
      l.readable disk n := by
  have extended := h.extend more
  have last := h.last
  have enough := h.enough
  by_cases outside : n < l.firstIndex ∨ l.lastIndex < n
  · rw [Log.readable, Log.readable, h.read_outside outside, extended.read_outside outside]
    rfl
  rcases Nat.lt_or_ge n tail.index with hn | hn
  · rw [h.readable_inner (by omega) hn,
      extended.readable_inner (show l.firstIndex ≤ n by omega) hn]
    have found : (l.set tail.handle
        (image { tail with entries := tail.entries ++ more })).found disk n = l.found disk n :=
      h.found_congr hn (fun p hp => Function.update_of_ne (h.older_ne hp) _ _)
        fun p => (Log.update_name (by rw [h.loaded]; exact ⟨rfl, rfl⟩) p).2
    rw [found]
  · have inside : n - tail.index < tail.entries.length := by omega
    rw [h.readable_tail hn (by omega), extended.readable_tail hn (show n ≤ l.lastIndex by omega),
      List.getElem?_append_left inside]

/-- The file gets the last entries, whatever is before them in memory. -/
theorem append {old new : List Data} {index : Nat} (split : tail.entries = old ++ new)
    (hindex : index = l.lastIndex + new.length) (enough : written.length ≤ old.length) :
    ∃ disk', disk.apply (.append l.sfile ((l.heap tail.handle).ebuf.drop
        (binary.encodeAll old).length)) = some disk' ∧
      Tailed { l with lastIndex := index } disk' front tail (written ++ new) := by
  have files : disk.files = front.map file ++ [(segmentName tail.index, binary.encodeAll written)] := by
    rw [h.files, List.map_append]
    rfl
  have names : ∀ f ∈ front.map file, f.1 < segmentName tail.index := h.front_names
  have bytes : (l.heap tail.handle).ebuf.drop (binary.encodeAll old).length =
      binary.encodeAll new := by
    rw [h.loaded, image, split, binary.encodeAll_append, List.drop_left]
  refine ⟨_, by rw [Disk.apply, bytes, h.sfile, files, Directory.read_part names, Option.map_some,
    Directory.write_over names], ?_⟩
  refine { h with pos := h.pos, covers := h.covers, last := ?_, enough := ?_, files := ?_ }
  · have last := h.last
    rw [List.length_append]
    dsimp only
    omega
  · rw [split, List.length_append, List.length_append]
    omega
  · rw [List.map_append]
    simp only [file, Holds.onFile, List.map_cons, List.map_nil, binary.encodeAll_append]

/-- The file of the next segment is the one of the tail if that has nothing in it. -/
theorem create_next : ∃ front' : List Block,
    Laid l.firstIndex front' ⟨l.next, l.lastIndex + 1, []⟩ ∧
      flatten front' = flatten front ++ written ∧
      disk.apply (.create (segmentName (l.lastIndex + 1))) =
        some { disk with files := front'.map file ++ [(segmentName (l.lastIndex + 1), [])] } := by
  have last := h.last
  have names : ∀ f ∈ front.map file, f.1 < segmentName tail.index := h.front_names
  rw [Disk.apply, h.files]
  by_cases empty : written = []
  · subst empty
    have same : l.lastIndex + 1 = tail.index := last
    refine ⟨front, ?_, by simp, ?_⟩
    · rw [same]
      exact ⟨h.pos, h.covers, h.filled⟩
    · rw [List.map_append, List.map_singleton, file, same]
      exact congrArg (fun files => some { disk with files := files })
        (Directory.write_over names _ _)
  · have stop : (Holds.onFile tail written).stop = l.lastIndex + 1 := last.symm
    have laid : Laid l.firstIndex (front ++ [Holds.onFile tail written])
        ⟨l.next, l.lastIndex + 1, []⟩ :=
      ⟨h.pos, stop ▸ h.covers_stop,
        List.forall_mem_append.mpr ⟨h.filled, List.forall_mem_singleton.mpr empty⟩⟩
    refine ⟨front ++ [Holds.onFile tail written], laid, by simp [Holds.onFile], ?_⟩
    have wrote := Directory.write_part laid.front_names (fun f hf => absurd hf List.not_mem_nil)
      ([] : Bytes)
    rw [List.append_nil] at wrote
    rw [wrote]

/-- The new tail. -/
theorem begun {front' : List Block} (laid : Laid l.firstIndex front' ⟨l.next, l.lastIndex + 1, []⟩)
    (files : disk'.files = front'.map file ++ [(segmentName (l.lastIndex + 1), [])]) :
    Tailed (l.begun tail.handle) disk' front' ⟨l.next, l.lastIndex + 1, []⟩ [] := by
  have last := h.last
  have fresh : ∀ p ∈ l.segments, (l.begun tail.handle).heap p =
      Log.evict l.heap (l.scache.setEvicted (l.segments.length - 1) tail.handle).2 p :=
    fun p hp => Function.update_of_ne (Nat.ne_of_lt (h.fresh p hp)) _ _
  have names := Log.evict_name l.heap (l.scache.setEvicted (l.segments.length - 1) tail.handle).2
  have new : (l.begun tail.handle).heap l.next =
      { path := segmentName (l.lastIndex + 1), index := l.lastIndex + 1 } :=
    Function.update_self _ _ _
  exact {
    toLaid := laid
    usable := h.usable
    last := rfl
    enough := Nat.le_refl _
    segments := List.getLast?_concat
    nodup := by
      refine List.nodup_append.mpr ⟨h.nodup, List.nodup_singleton _, fun p hp q hq => ?_⟩
      rw [List.mem_singleton.mp hq]
      exact Nat.ne_of_lt (h.fresh p hp)
    fresh := by
      refine List.forall_mem_append.mpr ⟨fun p hp => Nat.lt_succ_of_lt (h.fresh p hp), ?_⟩
      exact List.forall_mem_singleton.mpr (Nat.lt_succ_self _)
    named := by
      refine List.forall_mem_append.mpr ⟨fun p hp => ?_, List.forall_mem_singleton.mpr ?_⟩
      · rw [fresh p hp, (names p).1, (names p).2]
        exact h.named p hp
      · rw [new]
    sorted := by
      refine List.pairwise_append.mpr ⟨h.sorted.imp_of_mem fun hp hq le => ?_,
        List.pairwise_singleton _ _, fun p hp q hq => ?_⟩
      · rw [fresh _ hp, fresh _ hq, (names _).2, (names _).2]
        exact le
      · have le := h.index_le hp
        rw [List.mem_singleton.mp hq, fresh p hp, new, (names p).2]
        dsimp only
        omega
    loaded := new
    cache := by
      change ∀ item ∈ (l.scache.setEvicted _ _).1.items, (l.segments ++ [l.next]).dropLast[item.1]? = _
      rw [List.dropLast_concat]
      intro item hitem
      rcases Lru.mem_setEvicted hitem with rfl | old
      · exact h.pointer
      · exact h.getElem?_of_older (h.cache item old)
    sfile := rfl
    files := by rw [files, List.map_append]; rfl }

/-- A tail that is closed is the segment that the cache used last, and nothing else is found by
way of the cache. -/
theorem found_begun {front' : List Block} {tail' : Block}
    (h' : Tailed (l.begun tail.handle) disk' front' tail' []) (hn : n < tail.index)
    (files : ∀ name, name ≠ segmentName (l.lastIndex + 1) →
      disk'.files.read name = disk.files.read name) :
    (l.begun tail.handle).found disk' n =
      Log.listed { l with heap := Log.evict l.heap l.victim } disk n := by
  have last := h.last
  have victim : l.victim = (l.scache.setEvicted (l.segments.length - 1) tail.handle).2 := by
    rw [Log.victim, h.segments, Option.bind_some]
  have names := Log.evict_name l.heap l.victim
  have older : ∀ p ∈ l.segments, (l.begun tail.handle).heap p = Log.evict l.heap l.victim p := by
    intro p hp
    rw [victim]
    exact Function.update_of_ne (Nat.ne_of_lt (h.fresh p hp)) _ _
  have evicted : Tailed { l with heap := Log.evict l.heap l.victim } disk front tail written :=
    h.remember names (by rw [victim]; exact h.evict_tail) h.enough h.cache
  have recent : (l.begun tail.handle).recent n = none := by
    have newest : (l.begun tail.handle).scache.newest = some tail.handle :=
      Lru.newest_setEvicted _ _ _
    have index := congrArg Segment.index evicted.loaded
    rw [Log.recent, newest, Option.bind_some, older _ h.tail_mem, if_neg]
    rintro ⟨le, -⟩
    exact absurd (Nat.le_trans (Nat.le_of_eq index.symm) le) (Nat.not_le.mpr hn)
  rw [Log.found, recent]
  refine Log.listed_congr ?_ fun k hk => ?_
  · have new : (l.begun tail.handle).heap l.next =
        { path := segmentName (l.lastIndex + 1), index := l.lastIndex + 1 } :=
      Function.update_self _ _ _
    have same : (l.begun tail.handle).segments.takeWhile
          (fun p => ((l.begun tail.handle).heap p).index ≤ n) =
        l.segments.takeWhile fun p => (Log.evict l.heap l.victim p).index ≤ n := by
      refine takeWhile_concat (fun p hp => ?_) ?_
      · rw [older p hp]
      · rw [new, decide_eq_false_iff_not]
        dsimp only
        omega
    rw [h'.findSegment_eq, evicted.findSegment_eq, same]
  · obtain ⟨p, here, small⟩ := evicted.findSegment_spec hk
    have member := List.mem_of_getElem? here
    refine ⟨p, here, ?_, older p member, files _ fun same => ?_⟩
    · exact (List.getElem?_append_left (List.getElem?_eq_some_iff.mp here).1).trans here
    · rw [evicted.named p member] at same
      have index := congrArg FileName.index same
      dsimp only [segmentName] at index small
      omega

theorem cycle : ∃ l' disk' front' tail', l.cycle disk = some (l', disk') ∧
    Begun l disk front tail written l' disk' front' tail' := by
  obtain ⟨front', laid, content, created⟩ := h.create_next
  have begun := h.begun laid (show Disk.files { disk with files := _ } = _ from rfl)
  refine ⟨l.begun tail.handle, _, front', _, ?_,
    ⟨begun, content, rfl, rfl, rfl, rfl, ?_, Lru.newest_setEvicted _ _ _, fun n hn => ?_⟩⟩
  · rw [Log.cycle, Log.pushCache, h.pointer, Option.map_some, Option.bind_some]
    dsimp only
    rw [created]
    rfl
  · exact (Function.update_of_ne (Nat.ne_of_lt (h.fresh _ h.tail_mem)) _ _).trans h.evict_tail
  · refine h.found_begun begun hn fun name other => ?_
    have files := congrArg Disk.files (Option.some.inj created)
    rw [← files]
    exact Directory.read_write_of_ne other _ _

/-- A full segment is written out and closed. -/
theorem close {old new : List Data} {index : Nat} (split : tail.entries = old ++ new)
    (enough : written.length ≤ old.length) (hindex : index = l.lastIndex + new.length) :
    ∃ disk₁ l₂ disk₂ front₂ tail₂, disk.apply (.append l.sfile ((l.heap tail.handle).ebuf.drop
        (binary.encodeAll old).length)) = some disk₁ ∧
      Log.cycle { l with lastIndex := index } disk₁ = some (l₂, disk₂) ∧
      Begun { l with lastIndex := index } disk₁ front tail (written ++ new) l₂ disk₂ front₂ tail₂ := by
  obtain ⟨disk₁, wrote, tailed₁⟩ := h.append split hindex enough
  obtain ⟨l₂, disk₂, front₂, tail₂, cycled, begun⟩ := tailed₁.cycle
  exact ⟨disk₁, l₂, disk₂, front₂, tail₂, wrote, cycled, begun⟩

/-- The number of entries from the first to the last index. -/
theorem length_written :
    l.lastIndex + 1 = l.firstIndex + (flatten front ++ written).length := by
  have length := h.covers_stop.length
  rw [flatten_append, Chunk.stop] at length
  rw [h.last]
  simpa [Holds.onFile] using length

end Writing

/-- The loop goes on with one more entry in the buffer. -/
theorem next (h : Tailed l disk front tail written) {old new : List Data}
    (split : tail.entries = old ++ new) (d : Data) :
    l.set tail.handle ((l.heap tail.handle).appendEntry d) =
        l.set tail.handle (image { tail with entries := old ++ (new ++ [d]) }) ∧
      Tailed (l.set tail.handle (image { tail with entries := old ++ (new ++ [d]) })) disk front
        { tail with entries := old ++ (new ++ [d]) } written := by
  have extended := h.extend [d]
  rw [split, List.append_assoc] at extended
  rw [h.appendEntry, split, List.append_assoc]
  exact ⟨rfl, extended⟩

/-- What the loop leaves behind if it fails. If it is the first write that fails, there is only
more in the buffer of the tail, and otherwise nothing of the last segment is in its file. -/
theorem entriesFailing {b : List (Nat × Data)} {old new : List Data}
    (h : Tailed l disk front tail written) (split : tail.entries = old ++ new)
    (enough : written.length ≤ old.length)
    (ordered : Log.misplaced (l.lastIndex + new.length) b = none)
    (failed : l.entriesFailing disk tail.handle (binary.encodeAll old).length k b =
      some (l', disk')) :
    ∃ front' tail' written' m d left,
      Fails l front written k (new ++ b.map Prod.snd) l' disk' front' tail' written' m d ∧
      (k = 0 → disk' = disk ∧ written' = written ∧ tail'.entries = old ++ d :: left ∧
        l' = l.set tail.handle (image { tail with entries := old ++ d :: left })) ∧
      (k ≠ 0 → written' = [] ∧ tail'.entries = d :: left) := by
  induction b generalizing l disk front tail written old new k with
  | nil =>
      obtain ⟨⟨more, rfl⟩, same⟩ := Option.ite_none_right_eq_some.mp failed
      cases same
      cases new with
      | nil =>
          rw [h.loaded, image, split, List.append_nil, Nat.sub_self] at more
          exact absurd more (Nat.lt_irrefl 0)
      | cons d left =>
          refine ⟨front, tail, written, 0, d, left, ⟨h, rfl, rfl, Iff.rfl, by simp⟩, fun _ => ?_,
            fun h => absurd rfl h⟩
          refine ⟨rfl, rfl, split, ?_⟩
          rw [← split, Log.set, ← h.loaded, Function.update_eq_self]
  | cons entry b ih =>
      obtain ⟨index, data⟩ := entry
      obtain ⟨hindex, ordered⟩ := misplaced_cons.mp ordered
      obtain ⟨same, appended⟩ := h.next split data
      have length : (new ++ [data]).length = new.length + 1 := List.length_append
      have count : index = l.lastIndex + (new ++ [data]).length := by omega
      have whole : (new ++ [data]) ++ b.map Prod.snd = new ++ ((index, data) :: b).map Prod.snd := by
        simp
      unfold Log.entriesFailing at failed
      dsimp only at failed
      rw [same] at failed
      split at failed
      · cases k with
        | zero =>
            cases failed
            obtain ⟨d, left, hleft⟩ := List.exists_cons_of_ne_nil
              (List.append_ne_nil_of_right_ne_nil new (List.cons_ne_nil data []))
            rw [hleft] at appended whole ⊢
            refine ⟨front, _, written, 0, d, left, ⟨appended, rfl, ?_, Iff.rfl, by simp⟩,
              fun _ => ⟨rfl, rfl, rfl, rfl⟩, fun h => absurd rfl h⟩
            rw [← whole]
            rfl
        | succ k =>
            obtain ⟨disk₁, l₂, disk₂, front₂, tail₂, wrote, cycled, begun⟩ :=
              appended.close rfl enough count
            dsimp only at failed
            rw [wrote, Option.bind_some, cycled, Option.bind_some, begun.tailed.segments,
              Option.bind_some] at failed
            have split : tail₂.entries = [] ++ [] := begun.empty
            obtain ⟨front', tail', written', m, d, left, fails, zero, more⟩ :=
              ih begun.tailed split (Nat.le_refl _)
                (by rw [begun.last]; dsimp only; rw [count, length]; exact ordered) failed
            refine ⟨front', tail', written', (new ++ [data]).length + m, d, left,
              ⟨fails.tailed, fails.first.trans begun.first, ?_, ?_, ?_⟩, by omega, fun _ => ?_⟩
            · rw [← whole, List.getElem?_append_right (Nat.le_add_right _ _),
                Nat.add_sub_cancel_left]
              exact fails.here
            · omega
            · rw [fails.content, begun.content, List.append_nil, ← whole,
                List.take_length_add_append]
              simp only [List.append_assoc, List.nil_append]
            · by_cases now : k = 0
              · exact ⟨(zero now).2.1, (zero now).2.2.1⟩
              · exact more now
      · obtain ⟨front', tail', written', m, d, left, fails, zero, more⟩ := ih appended rfl enough
          (show Log.misplaced (l.lastIndex + _) b = none by rw [length]; exact ordered) failed
        rw [whole] at fails
        refine ⟨front', tail', written', m, d, left, { fails with }, fun now => ?_, more⟩
        obtain ⟨rfl, same, entries, log⟩ := zero now
        refine ⟨rfl, same, entries, log.trans ?_⟩
        rw [Log.set, Log.set, Log.set]
        dsimp only
        rw [Function.update_idem]

/-- The loop of a batch without a failure. -/
theorem writeEntries {b : List (Nat × Data)} {old new : List Data}
    (h : Tailed l disk front tail written) (split : tail.entries = old ++ new)
    (enough : written.length ≤ old.length)
    (ordered : Log.misplaced (l.lastIndex + new.length) b = none) :
    ∃ l' disk' front' tail' written' old' new',
      l.writeEntries disk tail.handle (binary.encodeAll old).length b =
        some (l', disk', tail'.handle, (binary.encodeAll old').length) ∧
      Tailed l' disk' front' tail' written' ∧ tail'.entries = old' ++ new' ∧
      written'.length ≤ old'.length ∧
      l'.lastIndex + new'.length = l.lastIndex + new.length + b.length := by
  induction b generalizing l disk front tail written old new with
  | nil => exact ⟨l, disk, front, tail, written, old, new, rfl, h, split, enough, rfl⟩
  | cons entry b ih =>
      obtain ⟨index, data⟩ := entry
      obtain ⟨hindex, ordered⟩ := misplaced_cons.mp ordered
      obtain ⟨same, appended⟩ := h.next split data
      have length : (new ++ [data]).length = new.length + 1 := List.length_append
      have count : index = l.lastIndex + (new ++ [data]).length := by omega
      rw [Log.writeEntries, same, List.length_cons]
      split
      · obtain ⟨disk₁, l₂, disk₂, front₂, tail₂, wrote, cycled, begun⟩ :=
          appended.close rfl enough count
        have last₂ : l₂.lastIndex = l.lastIndex + (new.length + 1) :=
          begun.last.trans (count.trans (congrArg _ length))
        have split : tail₂.entries = [] ++ [] := begun.empty
        rw [wrote, Option.bind_some, cycled, Option.bind_some, begun.tailed.segments, Option.bind_some]
        obtain ⟨l', disk', front', tail', written', old', new', wrote', tailed', split', enough',
          last'⟩ := ih begun.tailed split (Nat.le_refl _) (by rw [last₂]; exact ordered)
        refine ⟨l', disk', front', tail', written', old', new', wrote', tailed', split', enough', ?_⟩
        rw [last', last₂, List.length_nil]
        omega
      · obtain ⟨l', disk', front', tail', written', old', new', wrote', tailed', split', enough',
          last'⟩ := ih appended rfl enough
            (show Log.misplaced (l.lastIndex + _) b = none by rw [length]; exact ordered)
        refine ⟨l', disk', front', tail', written', old', new', wrote', tailed', split', enough',
          last'.trans ?_⟩
        rw [length]
        change l.lastIndex + _ + _ = _
        omega

/-- A full tail is closed before a batch. -/
theorem prepareTail (h : Tailed l disk front tail written) :
    l.tailFull = false ∧ l.prepareTail disk = some (l, disk) ∨
      l.tailFull = true ∧ ∃ l' disk' front' tail', l.prepareTail disk = some (l', disk') ∧
        Begun l disk front tail written l' disk' front' tail' := by
  rw [Log.prepareTail, h.segments, Option.bind_some, h.tailFull_eq]
  split
  · rename_i long
    exact .inr ⟨decide_eq_true long, h.cycle⟩
  · rename_i short
    exact .inl ⟨decide_eq_false short, rfl⟩

/-- A batch without a failure. -/
theorem writeBatch {b : List (Nat × Data)} {r : Result} (h : Tailed l disk front tail written)
    (wrote : l.writeBatch disk b = some (l', disk', r)) :
    ∃ front' tail' written', Tailed l' disk' front' tail' written' := by
  rw [Log.writeBatch] at wrote
  split at wrote
  · cases wrote
    exact ⟨front, tail, written, h⟩
  rename_i ordered
  obtain ⟨l₁, disk₁, front₁, tail₁, written₁, prepared, tailed₁, last₁⟩ : ∃ l₁ disk₁ front₁ tail₁
      written₁, l.prepareTail disk = some (l₁, disk₁) ∧
        Tailed l₁ disk₁ front₁ tail₁ written₁ ∧ l₁.lastIndex = l.lastIndex := by
    rcases h.prepareTail with ⟨-, same⟩ | ⟨-, l₁, disk₁, front₁, tail₁, prepared, begun⟩
    · exact ⟨l, disk, front, tail, written, same, h, rfl⟩
    · exact ⟨l₁, disk₁, front₁, tail₁, [], prepared, begun.tailed, begun.last⟩
  obtain ⟨l₂, disk₂, front₂, tail₂, written₂, old, new, loop, tailed₂, split, enough, last₂⟩ :=
    tailed₁.writeEntries (List.append_nil _).symm tailed₁.enough
      (by rw [last₁]; exact ordered)
  rw [prepared, Option.bind_some] at wrote
  dsimp only at wrote
  rw [tailed₁.segments, Option.bind_some, tailed₁.ebuf_eq, loop, Option.bind_some] at wrote
  obtain ⟨final, hfinal, wrote⟩ := Option.bind_eq_some_iff.mp wrote
  obtain ⟨flushed, hflush, same⟩ := Option.map_eq_some_iff.mp wrote
  cases same
  have index := misplaced_last ordered hfinal
  rw [Log.flush] at hflush
  split at hflush
  · have count : final.1 = l₂.lastIndex + new.length := by
      rw [List.length_nil] at last₂
      omega
    obtain ⟨disk₃, appended, tailed₃⟩ := tailed₂.append split count enough
    rw [appended] at hflush
    cases hflush
    exact ⟨front₂, tail₂, written₂ ++ new, tailed₃⟩
  · cases hflush
    exact ⟨front₂, tail₂, written₂, tailed₂⟩

/-- What is read after a full tail has been closed. -/
theorem readable_begun {front' : List Block} {tail' : Block}
    (h : Tailed l disk front tail written)
    (begun : Begun l disk front tail written l' disk' front' tail') :
    (∀ n, l'.readable disk' n = l.readable disk n) ↔
      ∀ n, l.firstIndex ≤ n → n < tail.index → (l.found disk n).bind (·.entry n) =
        (Log.listed { l with heap := Log.evict l.heap l.victim } disk n).bind (·.entry n) := by
  have index := begun.index
  have first := begun.first
  have last' := begun.last
  have last := h.last
  have enough := h.enough
  have inner : ∀ n, l.firstIndex ≤ n → n < tail.index →
      (l'.readable disk' n = l.readable disk n ↔
        (l.found disk n).bind (·.entry n) =
          (Log.listed { l with heap := Log.evict l.heap l.victim } disk n).bind (·.entry n)) := by
    intro n hfirst hn
    rw [h.readable_inner hfirst hn, begun.tailed.readable_inner (by omega) (by omega),
      begun.found n hn, eq_comm]
    exact (Option.map_injective fun _ _ same => by cases same; rfl).eq_iff
  constructor
  · intro same n hfirst hn
    exact (inner n hfirst hn).mp (same n)
  · intro same n
    by_cases outside : n < l.firstIndex ∨ l.lastIndex < n
    · rw [Log.readable, Log.readable, h.read_outside outside, begun.tailed.read_outside (by omega)]
      rfl
    rcases Nat.lt_or_ge n tail.index with hn | hn
    · exact (inner n (by omega) hn).mpr (same n (by omega) hn)
    · have inside : n - tail.index < tail.entries.length := by omega
      have here := List.getElem?_eq_getElem inside
      rw [Log.readable, Log.readable, h.read_tail hn (by omega) here,
        begun.tailed.read_newest begun.newest begun.loaded (by omega) hn (by omega) here]
      rfl

/-- A log that has become longer reads differently. -/
theorem readable_longer {es : List Data} {front' : List Block} {tail' : Block}
    {written' : List Data} {m : Nat} (h : Tailed l disk front tail written)
    (fails : Fails l front written k es l' disk' front' tail' written' m d) (later : k ≠ 0) :
    ¬ ∀ n, l'.readable disk' n = l.readable disk n := by
  intro same
  have length := h.length_written
  have length' := fails.tailed.length_written
  have inside := (List.getElem?_eq_some_iff.mp fails.here).1
  have some := mt fails.start.mp later
  have first := fails.first
  rw [fails.content, List.length_append, List.length_take] at length'
  have here := same (l.lastIndex + 1)
  rw [Log.readable, Log.readable, h.read_outside (.inr (Nat.lt_succ_self _)),
    fails.tailed.read_eq (by omega) (by omega), Option.map_some, Option.map_eq_some_iff] at here
  obtain ⟨found, loaded, error⟩ := here
  obtain ⟨segment, -, entry⟩ := Option.bind_eq_some_iff.mp loaded
  obtain ⟨data, -, rfl⟩ := Option.map_eq_some_iff.mp entry
  cases error

/-- A batch that fails, from where the tail has room. -/
theorem loopFailing {b : List (Nat × Data)} (h : Tailed l disk front tail written)
    (ordered : Log.misplaced l.lastIndex b = none)
    (failed : (l.segments.getLast?.bind fun s =>
      l.entriesFailing disk s (l.heap s).ebuf.length k b) = some (l', disk')) :
    ∃ front' tail' written' m d,
      Fails l front written k (b.map Prod.snd) l' disk' front' tail' written' m d ∧
      (k = 0 → ∀ n, l'.readable disk' n = l.readable disk n) ∧
      l'.behindLast = some ((if k = 0 then l.behindLast else none).getD d.val) := by
  rw [h.segments, Option.bind_some, h.ebuf_eq] at failed
  obtain ⟨front', tail', written', m, d, left, fails, zero, more⟩ :=
    h.entriesFailing (List.append_nil _).symm h.enough ordered failed
  rw [List.nil_append] at fails
  refine ⟨front', tail', written', m, d, fails, fun now n => ?_, ?_⟩
  · obtain ⟨rfl, -, -, rfl⟩ := zero now
    exact h.readable_extend _ n
  · rw [fails.tailed.behindLast_eq]
    by_cases now : k = 0
    · obtain ⟨-, rfl, entries, -⟩ := zero now
      rw [if_pos now, entries, h.behindLast_append]
    · obtain ⟨rfl, entries⟩ := more now
      rw [if_neg now, entries]
      rfl

/-- The entries that were written have reached the files, and of those that were not the first
one is in memory. -/
theorem batchFailing {b : List (Nat × Data)} (h : Tailed l disk front tail written)
    (failed : l.batchFailing disk k b = some (l', disk')) :
    ∃ front' tail' written' m d,
      Fails l front written k (b.map Prod.snd) l' disk' front' tail' written' m d ∧
      ((∀ n, l'.readable disk' n = l.readable disk n) ↔ k = 0 ∧ l.Undisturbed disk) ∧
      l'.behindLast =
        some ((if k = 0 ∧ l.tailFull = false then l.behindLast else none).getD d.val) := by
  rw [Log.batchFailing] at failed
  split at failed
  · cases failed
  rename_i ordered
  rcases h.prepareTail with ⟨short, same⟩ |
    ⟨long, l₁, disk₁, front₁, tail₁, prepared, begun⟩
  · rw [same, Option.bind_some] at failed
    obtain ⟨front', tail', written', m, d, fails, reads, behind⟩ := h.loopFailing ordered failed
    refine ⟨front', tail', written', m, d, fails, ?_, ?_⟩
    · constructor
      · intro same
        refine ⟨?_, fun full => by rw [short] at full; cases full⟩
        by_contra later
        exact h.readable_longer fails later same
      · exact fun both => reads both.1
    · rw [behind, short]
      simp
  · rw [prepared, Option.bind_some] at failed
    obtain ⟨front', tail', written', m, d, fails, reads, behind⟩ :=
      begun.tailed.loopFailing (by rw [begun.last]; exact ordered) failed
    have fails : Fails l front written k (b.map Prod.snd) l' disk' front' tail' written' m d :=
      { fails with
        first := fails.first.trans begun.first
        content := by rw [fails.content, begun.content, List.append_nil] }
    refine ⟨front', tail', written', m, d, fails, ?_, ?_⟩
    · have closing := h.readable_begun begun
      constructor
      · intro same
        have now : k = 0 := by
          by_contra later
          exact h.readable_longer fails later same
        refine ⟨now, fun _ => ?_⟩
        rw [h.tailIndex_eq]
        exact closing.mp fun n => (reads now n).symm.trans (same n)
      · rintro ⟨now, undisturbed⟩ n
        have undisturbed := undisturbed long
        rw [h.tailIndex_eq] at undisturbed
        exact (reads now n).trans (closing.mpr undisturbed n)
    · rw [behind, begun.tailed.behindLast_eq, begun.empty, long]
      simp

/-- `writeBatch` for one entry after its start. The file gets the entry, and `Read` returns
the one that comes after those of the file in memory. -/
theorem writeEntry {r : IndexedLog Data} (h : Tailed l disk front tail written)
    (hn : n = l.lastIndex + 1) (here : (tail.entries ++ [d])[written.length]? = some x)
    (first : r.firstIndex = l.firstIndex) (entries : r.entries = flatten front ++ written ++ [d]) :
    ∃ l' disk', ((l.writeEntries disk tail.handle (l.heap tail.handle).ebuf.length [(n, d)]).bind
        fun (l, disk, s, mark) => (l.flush disk s mark n).map fun (l, disk) => (l, disk, Result.ok)) =
        some (l', disk', .ok) ∧
      Opens disk' r ∧ l'.read disk' n = some (l', .data x.val) := by
  have last := h.last
  have lower : tail.index ≤ n := by omega
  have found : (tail.entries ++ [d])[n - tail.index]? = some x := by
    rw [show n - tail.index = written.length by omega, here]
  obtain ⟨same, appended⟩ := h.next (List.append_nil _).symm d
  rw [List.nil_append] at same appended
  rw [List.append_assoc] at entries
  rw [Log.writeEntries, same, h.ebuf_eq]
  obtain ⟨disk₁, wrote, tailed₁⟩ := appended.append rfl hn h.enough
  split
  · -- the segment has its size and is closed
    obtain ⟨l₂, disk₂, front₂, tail₂, cycled, begun⟩ := tailed₁.cycle
    refine ⟨l₂, disk₂, ?_, ?_, ?_⟩
    · rw [wrote, Option.bind_some, cycled, Option.bind_some, begun.tailed.segments,
        Option.bind_some, Log.writeEntries, Option.bind_some]
      dsimp only
      rw [Log.flush, begun.tailed.ebuf_eq, begun.empty, binary.encodeAll_nil, List.length_nil,
        if_neg (Nat.lt_irrefl 0), Option.map_some]
    · refine begun.tailed.opens (first.trans begun.first.symm) ?_
      rw [begun.content, List.append_nil, entries]
    · refine begun.tailed.read_newest begun.newest begun.loaded ?_ lower ?_ found
      · rw [begun.first]
        exact Nat.le_trans h.firstIndex_le lower
      · rw [begun.index]
        exact Nat.lt_succ_self n
  · refine ⟨_, disk₁, ?_, tailed₁.opens first entries,
      tailed₁.read_tail lower (Nat.le_refl _) found⟩
    rw [Log.writeEntries, Option.bind_some]
    dsimp only
    rw [Log.flush, if_pos, wrote]
    · rfl
    · rw [appended.loaded, image]
      dsimp only
      rw [binary.encodeAll_append, List.length_append, Nat.add_sub_cancel_left]
      exact List.length_pos_iff.mpr (mt binary.encodeAll_eq_nil_iff.mp (List.cons_ne_nil d []))

/-- What is written next is found in the file, and in memory only if it begins a new segment or
if it is the one that is there. -/
theorem write (h : Tailed l disk front tail written) {r : IndexedLog Data}
    (first : r.firstIndex = l.firstIndex) (entries : r.entries = flatten front ++ written)
    (d : Data) :
    ∃ l' disk', l.perform disk (.write (r.lastIndex + 1) d) = some (l', disk', .ok) ∧
      Opens disk' ⟨r.firstIndex, r.entries ++ [d], r.pos⟩ ∧
      l'.read disk' (r.lastIndex + 1) =
        some (l', .data (if l.tailFull then d.val else l.behindLast.getD d.val)) := by
  have usable := h.usable
  have last : r.lastIndex + 1 = l.lastIndex + 1 := by
    have length := h.length_written
    have pos := h.pos
    rw [IndexedLog.lastIndex, first, entries]
    omega
  have ordered : Log.misplaced l.lastIndex [(r.lastIndex + 1, d)] = none := by
    rw [last, Log.misplaced, if_neg (by simp), Log.misplaced]
  rw [Log.perform, Log.guarded, if_neg (by rw [usable.2]; decide), if_neg (by rw [usable.1]; decide),
    Log.writeBatch, ordered]
  dsimp only
  rcases h.prepareTail with ⟨short, same⟩ |
    ⟨long, l₁, disk₁, front₁, tail₁, prepared, begun⟩
  · obtain ⟨x, here, value⟩ := Option.map_eq_some_iff.mp (h.behindLast_append d [])
    obtain ⟨l', disk', wrote, opens, read⟩ := h.writeEntry
      (r := ⟨r.firstIndex, r.entries ++ [d], r.pos⟩) last here first (by rw [← entries])
    refine ⟨l', disk', ?_, opens, ?_⟩
    · rw [same, Option.bind_some]
      dsimp only
      rw [h.segments]
      exact wrote
    · rw [read, short, value]
      rfl
  · obtain ⟨l', disk', wrote, opens, read⟩ := begun.tailed.writeEntry (n := r.lastIndex + 1) (d := d)
      (x := d) (r := ⟨r.firstIndex, r.entries ++ [d], r.pos⟩) (by rw [begun.last, last])
      (by rw [begun.empty]; rfl) (first.trans begun.first.symm)
      (by rw [begun.content, List.append_nil, ← entries])
    refine ⟨l', disk', ?_, opens, ?_⟩
    · rw [prepared, Option.bind_some]
      dsimp only
      rw [begun.tailed.segments]
      exact wrote
    · rw [read, long]
      rfl

end Tailed

/-! ### Whole runs -/

/-- Whatever is read and written, failed or not, the files stay in order. -/
theorem Tailed.reachable {s t : Log × Disk} {front : List Block} {tail : Block}
    {written : List Data} (h : Tailed s.1 s.2 front tail written)
    (reached : Reachable Log.serve s t) :
    ∃ front tail written, Tailed t.1 t.2 front tail written := by
  refine reached.invariant (I := fun s => ∃ front tail written, Tailed s.1 s.2 front tail written)
    ⟨front, tail, written, h⟩ ?_
  rintro ⟨l, disk⟩ call ⟨l', disk'⟩ - ⟨front, tail, written, h⟩ - served
  cases call with
  | read n =>
      obtain ⟨⟨l₁, r⟩, read, same⟩ := Option.map_eq_some_iff.mp served
      cases same
      exact ⟨front, tail, written, h.read read⟩
  | write b =>
      obtain ⟨⟨l₁, disk₁, r⟩, wrote, same⟩ := Option.map_eq_some_iff.mp served
      cases same
      exact h.writeBatch wrote
  | failing k b =>
      obtain ⟨front', tail', written', m, d, fails, -⟩ := h.batchFailing served
      exact ⟨front', tail', written', fails.tailed⟩

namespace Holds

variable {l : Log} {disk : Disk} {front before behind : List Block} {tail c : Block}
variable {written : List Data} {n : Nat}

theorem listed (h : Holds l disk front tail written)
    (parts : front ++ [onFile tail written] = before ++ c :: behind) (hc : c.index ≤ n)
    (hn : n < c.stop) (member : c ∈ front) : l.listed disk n = some (image c) := by
  have pointer : l.segments[before.length]? = some c.handle := by
    rw [h.segments_written, parts]
    simp
  have name := h.name (List.mem_append_left [tail] member)
  rw [Log.listed, h.findSegment_written parts hc hn, Option.bind_some, pointer, Option.bind_some]
  split
  · exact loadSegmentEntries_of_read name.1 name.2 (h.read_file parts)
  · rename_i present
    rcases h.memory c member with here | here
    · rw [here]
    · rw [here] at present
      exact absurd rfl present

/-- As long as the segments before the tail have what is in their files, closing the tail does
not show. -/
theorem undisturbed (h : Holds l disk front tail written) : l.Undisturbed disk := by
  intro full n hfirst hn
  rw [h.tailed.tailIndex_eq] at hn
  have last := h.last
  obtain ⟨before, c, behind, parts, hc, hstop⟩ := h.locate_written hfirst (by omega)
  have member : c ∈ front := by
    rcases parts_cases parts with ⟨-, rfl, -⟩ | ⟨rest, -, rfl⟩
    · exact absurd hn (Nat.not_lt.mpr hc)
    · exact List.mem_append_right _ List.mem_cons_self
  have evicted : Holds { l with heap := Log.evict l.heap l.victim } disk front tail written := by
    refine h.remember (fun b hb => h.evict_memory hb) ?_ h.cache
    rw [Log.victim, h.getLast?_segments, Option.bind_some]
    exact h.tailed.evict_tail
  have found : l.found disk n = some (image c) := by
    rw [Log.found]
    cases used : l.recent n with
    | none => exact h.listed parts hc hstop member
    | some p =>
        obtain ⟨rfl, loaded, -⟩ := h.recent parts hc hstop used
        exact congrArg some loaded
  rw [found, evicted.listed parts hc hstop member]

end Holds

/-- Entries are read and written, and some writes fail. Then a batch fails, and it goes on
like that. What the log has when it is opened again is what was written, so that the failed
batch leaves it as it was if it is the first write to the file that has failed. What is read
stays as it was if, moreover, closing a full tail does not show. The first entry that was not
written is in memory behind the last one, unless an earlier one is there. The entry that is
written next is found when the log is opened again. `Read` returns it if it has begun a new
segment, and otherwise the entry that is there in memory. -/
theorem failed_write_remembered {l₀ l l₁ l₂ : Log} {disk₀ disk disk₁ disk₂ : Disk}
    {a : IndexedLog Data} {k : Nat} {b : List (Nat × Data)} (h : Shows l₀ disk₀ a)
    (before : Reachable Log.serve (l₀, disk₀) (l, disk))
    (failed : l.batchFailing disk k b = some (l₁, disk₁))
    (later : Reachable Log.serve (l₁, disk₁) (l₂, disk₂)) :
    (∃ r m d, Opens disk r ∧ (b.map Prod.snd)[m]? = some d ∧ (m = 0 ↔ k = 0) ∧
      Opens disk₁ ⟨r.firstIndex, r.entries ++ (b.map Prod.snd).take m, r.pos⟩ ∧
      l₁.behindLast =
        some ((if k = 0 ∧ l.tailFull = false then l.behindLast else none).getD d.val)) ∧
    ((∀ n, l₁.readable disk₁ n = l.readable disk n) ↔ k = 0 ∧ l.Undisturbed disk) ∧
    (∀ front tail written, Holds l disk front tail written → l.Undisturbed disk) ∧
    ∃ r, Opens disk₂ r ∧ ∀ d, ∃ l₃ disk₃,
      l₂.perform disk₂ (.write (r.lastIndex + 1) d) = some (l₃, disk₃, .ok) ∧
      Opens disk₃ ⟨r.firstIndex, r.entries ++ [d], r.pos⟩ ∧
      l₃.readable disk₃ (r.lastIndex + 1) =
        some (.data (if l₂.tailFull then d.val else l₂.behindLast.getD d.val)) ∧
      (l₃.readable disk₃ (r.lastIndex + 1) = some (.data d.val) ↔
        l₂.tailFull = true ∨ ∀ x ∈ l₂.behindLast, x = d.val) := by
  obtain ⟨front₀, tail₀, holds₀, -, -⟩ := h
  obtain ⟨front, tail, written, tailed⟩ := holds₀.tailed.reachable before
  obtain ⟨front₁, tail₁, written₁, m, d, fails, reads, behind⟩ := tailed.batchFailing failed
  obtain ⟨front₂, tail₂, written₂, tailed₂⟩ := fails.tailed.reachable later
  refine ⟨⟨⟨l.firstIndex, flatten front ++ written, tailed.pos⟩, m, d, tailed.opens rfl rfl,
    fails.here, fails.start, fails.tailed.opens fails.first.symm fails.content.symm, behind⟩, reads,
    fun front tail written holds => holds.undisturbed,
    ⟨l₂.firstIndex, flatten front₂ ++ written₂, tailed₂.pos⟩, tailed₂.opens rfl rfl, fun d => ?_⟩
  obtain ⟨l₃, disk₃, wrote, opens, read⟩ := tailed₂.write
    (r := ⟨l₂.firstIndex, flatten front₂ ++ written₂, tailed₂.pos⟩) rfl rfl d
  have value := congrArg (Option.map Prod.snd) read
  refine ⟨l₃, disk₃, wrote, opens, value, ?_⟩
  rw [show l₃.readable disk₃ _ = _ from value]
  cases l₂.tailFull <;> cases l₂.behindLast <;> simp

/-- Nothing has reached the file of a new log. -/
theorem failed_write_remembered_put :
    ∃ l disk l₁, openLog smallOptions {} = some (l, disk) ∧
      l.batchFailing disk 0 [(1, ⟨[7], by decide⟩)] = some (l₁, disk) ∧
      ∀ n, l₁.readable disk n = l.readable disk n := by
  obtain ⟨l, disk, opened, shows⟩ := shows_openLog_empty smallOptions
  have failed : ∃ l₁, l.batchFailing disk 0 [(1, ⟨[7], by decide⟩)] = some (l₁, disk) := by
    cases opened
    exact ⟨_, rfl⟩
  obtain ⟨l₁, failed⟩ := failed
  obtain ⟨-, reads, undisturbed, -⟩ := failed_write_remembered shows .refl failed .refl
  obtain ⟨front, tail, holds, -, -⟩ := shows
  exact ⟨l, disk, l₁, opened, failed, reads.mpr ⟨rfl, undisturbed _ _ _ holds⟩⟩

/-- The first entry of a new log fails, and is found under the index of the second one. If the
second one fails too, the third one is written, and `Read` still returns the first. If a cut of
the front comes between, the entry that has failed is written with the rest of the buffer, and
found when the log is opened again. -/
theorem failed_write_returned :
    ∃ l disk l₁ l₂ disk₂, openLog smallOptions {} = some (l, disk) ∧
      l.batchFailing disk 0 [(1, ⟨[7], by decide⟩)] = some (l₁, disk) ∧
      l₁.perform disk (.write 1 ⟨[8], by decide⟩) = some (l₂, disk₂, .ok) ∧
      l₂.read disk₂ 1 = some (l₂, .data [7]) ∧
      (∀ opts, ∃ l₃, openLog opts disk₂ = some (l₃, disk₂) ∧
        ∃ l₄, l₃.read disk₂ 1 = some (l₄, .data [8])) ∧
      (∃ l₃ l₄ disk₄, l₁.batchFailing disk 0 [(1, ⟨[8], by decide⟩)] = some (l₃, disk) ∧
        l₃.perform disk (.write 1 ⟨[9], by decide⟩) = some (l₄, disk₄, .ok) ∧
        l₄.read disk₄ 1 = some (l₄, .data [7])) ∧
      ∃ l₃ disk₃ l₄ l₅ disk₅ l₆ disk₆ l₇,
        l.performAll disk [.write 1 ⟨[6], by decide⟩, .write 2 ⟨[7], by decide⟩] =
          some (l₃, disk₃, [.ok, .ok]) ∧
        l₃.batchFailing disk₃ 0 [(3, ⟨[8], by decide⟩)] = some (l₄, disk₃) ∧
        l₄.perform disk₃ (.truncateFront 2) = some (l₅, disk₅, .ok) ∧
        l₅.perform disk₅ (.write 3 ⟨[9], by decide⟩) = some (l₆, disk₆, .ok) ∧
        openLog smallOptions disk₆ = some (l₇, disk₆) ∧
        l₇.read disk₆ 3 = some (l₇, .data [8]) :=
  ⟨_, _, _, _, _, rfl, rfl, rfl, rfl, fun _ => ⟨_, rfl, _, rfl⟩, ⟨_, _, _, rfl, rfl, rfl⟩,
    _, _, _, _, _, _, _, _, rfl, rfl, rfl, rfl, rfl, rfl⟩

end RaftKv.Wal
