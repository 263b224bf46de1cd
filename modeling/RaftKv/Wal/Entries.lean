import RaftKv.Wal.Memory

/-!
# Reading and writing entries

`Shows` relates a log and its directory to an indexed log of byte strings. A read finds
the entry of its index wherever it is, and a batch is appended entry by entry: when the
tail has got its size, it is written out and becomes one of the other segments.
-/

namespace RaftKv.Wal

open Library Chunk

/-- The log has the entries of `a`, spread over some blocks. -/
def Shows (l : Log) (disk : Disk) (a : IndexedLog Data) : Prop :=
  ∃ front tail, Holds l disk front tail tail.entries ∧ a.firstIndex = l.firstIndex ∧
    a.entries = flatten (front ++ [tail])

namespace Holds

variable {l : Log} {disk : Disk} {front : List Block} {tail : Block} {written : List Data}

/-- The number of entries from the first to the last index. -/
theorem length_flatten (h : Holds l disk front tail tail.entries) :
    l.lastIndex + 1 = l.firstIndex + (flatten (front ++ [tail])).length :=
  h.coversAll.length

end Holds

theorem Shows.lastIndex {l : Log} {disk : Disk} {a : IndexedLog Data} (h : Shows l disk a) :
    a.lastIndex = l.lastIndex := by
  obtain ⟨front, tail, holds, first, entries⟩ := h
  have length := holds.length_flatten
  rw [IndexedLog.lastIndex, first, entries]
  omega

/-! ### Reading -/

/-- What `Read` should return. -/
def readResult (a : IndexedLog Data) (n : Nat) : Result :=
  match a.read n with
  | some data => .data data.val
  | none => .error .notFound

/-- The piece of the buffer between the positions of an entry is its code. -/
theorem slice_encodeAll (as : List Data) (a : Data) (bs : List Data) :
    ((binary.encodeAll (as ++ a :: bs)).take
      ((binary.encodeAll as).length + (binary.encode a).length)).drop
        (binary.encodeAll as).length = binary.encode a := by
  rw [binary.encodeAll_append, binary.encodeAll_cons, List.take_length_add_append,
    List.take_left, List.drop_left]

/-- `Read`, if the segment that is loaded is the image of a block with the index. -/
theorem Log.read_of_loadSegment {l l' : Log} {disk : Disk} {n p : Nat} {c : Block} {x : Data}
    (usable : l.closed = false ∧ l.corrupt = false) (pos : 0 < n) (hfirst : l.firstIndex ≤ n)
    (hlast : n ≤ l.lastIndex) (loads : l.loadSegment disk n = some (l', p))
    (loaded : l'.heap p = image c) (hc : c.index ≤ n) (here : c.entries[n - c.index]? = some x) :
    l.read disk n = some (l', .data x.val) := by
  obtain ⟨inside, -⟩ := List.getElem?_eq_some_iff.mp here
  obtain ⟨as, y, bs, hentries, hlength⟩ :=
    entry_split (c := c) hc (by rw [Chunk.stop]; omega)
  have same : y = x := by
    rw [hentries, ← hlength] at here
    simpa using here
  rw [Log.read, usable.1, usable.2, if_neg (by decide), if_neg (by omega), loads, Option.bind_some]
  dsimp only
  rw [loaded, entryPos_image hc hentries hlength, Option.bind_some]
  change (readBinary ((((binary.encodeAll c.entries).take _).drop _))).map _ = _
  rw [hentries, slice_encodeAll, show binary.encode y = binaryEntry y from rfl,
    readBinary_binaryEntry, same]
  rfl

/-- A read finds what is in the files, and only what is in memory changes. -/
theorem Holds.read {l : Log} {disk : Disk} {front : List Block} {tail : Block}
    {written : List Data} {a : IndexedLog Data} (h : Holds l disk front tail written)
    (first : a.firstIndex = l.firstIndex) (entries : a.entries = flatten front ++ written)
    (n : Nat) :
    ∃ heap scache, l.read disk n =
        some ({ l with heap := heap, scache := scache }, readResult a n) ∧
      Holds { l with heap := heap, scache := scache } disk front tail written := by
  have pos := h.pos
  have covers := h.covers_written
  have content : a.entries = flatten (front ++ [onFile tail written]) := by
    rw [entries, flatten_append]
    simp [onFile]
  have length := covers.length
  by_cases inside : l.firstIndex ≤ n ∧ n ≤ l.lastIndex
  · obtain ⟨before, c, behind, parts, hc, hn⟩ := h.locate_written inside.1 inside.2
    obtain ⟨heap, scache, loads, holds, loaded⟩ := h.loadSegment_written parts hc hn
    obtain ⟨as, x, bs, hentries, hlength⟩ := entry_split hc hn
    rw [parts] at covers
    have here : a.read n = some x := by
      rw [IndexedLog.read, if_pos (by omega), content, first, parts,
        covers.getElem?_flatten hc hn, hentries, ← hlength]
      simp
    refine ⟨heap, scache, ?_, holds⟩
    rw [readResult, here]
    rcases loaded with ⟨rfl, -, loaded⟩ | ⟨loaded, -⟩
    · -- the entry is one of those in the file, which come first in memory too
      obtain ⟨rest, hrest⟩ := h.pending
      refine Log.read_of_loadSegment h.usable (by omega) inside.1 inside.2 loads loaded hc ?_
      rw [← hrest, show written = as ++ x :: bs from hentries,
        show n - tail.index = as.length from hlength.symm]
      simp
    · refine Log.read_of_loadSegment h.usable (by omega) inside.1 inside.2 loads loaded hc ?_
      rw [hentries, ← hlength]
      simp
  · have absent : a.read n = none := by
      rw [IndexedLog.read_eq_none_iff, IndexedLog.lastIndex, first, content]
      omega
    refine ⟨l.heap, l.scache, ?_, h⟩
    rw [Log.read, if_neg (by rw [h.usable.1, h.usable.2]; decide), if_pos (by omega), readResult,
      absent]

theorem Shows.read {l : Log} {disk : Disk} {a : IndexedLog Data} (h : Shows l disk a) (n : Nat) :
    ∃ l', l.read disk n = some (l', readResult a n) ∧ Shows l' disk a := by
  obtain ⟨front, tail, holds, first, entries⟩ := h
  obtain ⟨heap, scache, read, holds'⟩ := holds.read first (entries.trans (by simp)) n
  exact ⟨_, read, front, tail, holds', first, entries⟩

/-! ### Writing -/

/-- The indices of a batch in order follow each other. -/
theorem misplaced_cons {m index : Nat} {data : Data} {b : List (Nat × Data)} :
    Log.misplaced m ((index, data) :: b) = none ↔ index = m + 1 ∧ Log.misplaced (m + 1) b = none := by
  rw [Log.misplaced]
  split
  next other => exact ⟨nofun, fun h => absurd h.1 other⟩
  next same => exact ⟨fun h => ⟨not_not.mp same, h⟩, fun h => h.2⟩

/-- A block with one more entry. -/
theorem stop_append (b : Block) (data : Data) :
    Chunk.stop { b with entries := b.entries ++ [data] } = b.stop + 1 := by
  rw [Chunk.stop, Chunk.stop]
  dsimp only
  rw [List.length_append, List.length_singleton]
  omega

namespace Holds

variable {l : Log} {disk : Disk} {front : List Block} {tail : Block} {written : List Data}

/-- Writing what the tail has in memory beyond its file. -/
theorem append (h : Holds l disk front tail written) {index : Nat} (hindex : index + 1 = tail.stop) :
    ∃ disk', disk.apply (.append l.sfile ((l.heap tail.handle).ebuf.drop
        (binary.encodeAll written).length)) = some disk' ∧
      Holds { l with lastIndex := index } disk' front tail tail.entries := by
  obtain ⟨rest, hrest⟩ := h.pending
  have bytes : (l.heap tail.handle).ebuf.drop (binary.encodeAll written).length =
      binary.encodeAll rest := by
    rw [h.loaded, image, ← hrest, binary.encodeAll_append, List.drop_left]
  have content : binary.encodeAll written ++ binary.encodeAll rest =
      binary.encodeAll tail.entries := by
    rw [← binary.encodeAll_append, hrest]
  have applied : disk.apply (.append (segmentName tail.index) (binary.encodeAll rest)) =
      some { disk with files := front.map file ++
        [(segmentName tail.index, binary.encodeAll tail.entries)] } := by
    rw [Disk.apply, h.files, Directory.read_part h.front_names, Option.map_some,
      Directory.write_over h.front_names, content]
  refine ⟨_, by rw [bytes, h.sfile, applied], ?_⟩
  exact { h with last := hindex, pending := List.prefix_refl _, files := rfl }

theorem filledAll (h : Holds l disk front tail written) (filled : tail.entries ≠ []) :
    ∀ b ∈ front ++ [tail], b.entries ≠ [] :=
  List.forall_mem_append.mpr ⟨h.filled, List.forall_mem_singleton.mpr filled⟩

/-- The file of the next segment comes after the others. -/
theorem create_next (h : Holds l disk front tail tail.entries) (filled : tail.entries ≠ []) :
    disk.apply (.create (segmentName (l.lastIndex + 1))) =
      some { disk with files :=
        (front ++ [tail]).map file ++ [(segmentName (l.lastIndex + 1), [])] } := by
  have laid : Laid l.firstIndex (front ++ [tail]) ⟨l.next, l.lastIndex + 1, []⟩ :=
    ⟨h.pos, h.coversAll, h.filledAll filled⟩
  have wrote := Directory.write_part laid.front_names (fun f hf => absurd hf List.not_mem_nil)
    ([] : Bytes)
  rw [List.append_nil] at wrote
  rw [Disk.apply, h.files_eq, wrote]

/-- A full tail becomes one of the other segments. -/
theorem cycle (h : Holds l disk front tail tail.entries) (filled : tail.entries ≠ []) :
    ∃ l' disk', l.cycle disk = some (l', disk') ∧
      Holds l' disk' (front ++ [tail]) ⟨l.next, l.lastIndex + 1, []⟩ [] ∧
      l'.firstIndex = l.firstIndex := by
  have length : l.segments.length - 1 = front.length := by
    rw [h.segments, List.length_map, List.length_append, List.length_singleton]
    omega
  have pointer : l.segments[front.length]? = some tail.handle := by
    rw [h.segments]
    simp
  -- the new segment is not one of the old ones
  have other : ∀ b ∈ front ++ [tail], b.handle ≠ l.next := by
    intro b hb
    have fresh := h.fresh b hb
    omega
  rw [Log.cycle, length, Log.pushCache, pointer, Option.map_some, Option.bind_some]
  dsimp only
  rw [h.create_next filled, Option.map_some]
  refine ⟨_, _, rfl, ?_, rfl⟩
  refine {
    usable := h.usable
    segments := by
      change l.segments ++ [l.next] = _
      rw [h.segments]
      simp
    nodup := ?nodup
    fresh := ?fresh
    pos := h.pos
    covers := h.coversAll
    filled := h.filledAll filled
    last := rfl
    pending := List.prefix_refl _
    memory := ?memory
    loaded := Function.update_self _ _ _
    cache := ?cache
    sfile := rfl
    files := rfl }
  case nodup =>
    rw [List.map_append, List.map_singleton]
    refine List.nodup_append.mpr ⟨h.nodup, List.nodup_singleton _, ?_⟩
    intro p hp q hq
    obtain ⟨b, hb, rfl⟩ := List.mem_map.mp hp
    rw [List.mem_singleton.mp hq]
    exact other b hb
  case fresh =>
    intro b hb
    rcases List.mem_append.mp hb with hb | hb
    · exact Nat.lt_succ_of_lt (h.fresh b hb)
    · rw [List.mem_singleton.mp hb]
      exact Nat.lt_succ_self _
  case memory =>
    intro b hb
    change Function.update _ _ _ _ = _ ∨ Function.update _ _ _ _ = _
    rw [Function.update_of_ne (other b hb)]
    rcases List.mem_append.mp hb with hb | hb
    · exact h.evict_memory hb
    · rw [List.mem_singleton.mp hb]
      exact .inl (h.evict_tail pointer)
  case cache =>
    intro item hitem
    rw [List.map_append, List.map_singleton]
    rcases Lru.mem_setEvicted hitem with rfl | old
    · simp
    · have here := h.cache item old
      obtain ⟨inside, -⟩ := List.getElem?_eq_some_iff.mp here
      rw [List.getElem?_append_left inside, here]

/-- An entry is appended in memory. -/
theorem appendEntry (h : Holds l disk front tail written) (data : Data) :
    Holds (l.set tail.handle ((l.heap tail.handle).appendEntry data)) disk front
      { tail with entries := tail.entries ++ [data] } written := by
  refine { h with
    segments := by rw [Log.set, h.segments, List.map_append, List.map_append]; rfl
    nodup := by
      have nodup := h.nodup
      rw [List.map_append] at nodup ⊢
      exact nodup
    fresh := ?fresh
    pending := h.pending.trans (List.prefix_append _ _)
    memory := ?memory
    loaded := ?loaded }
  case fresh =>
    intro b hb
    rcases List.mem_append.mp hb with hb | hb
    · exact h.fresh b (List.mem_append_left _ hb)
    · rw [List.mem_singleton.mp hb]
      exact h.fresh tail (List.mem_append_right _ (List.mem_singleton_self _))
  case memory =>
    intro b hb
    change Function.update _ _ _ _ = _ ∨ Function.update _ _ _ _ = _
    rw [Function.update_of_ne (h.handle_ne hb)]
    exact h.memory b hb
  case loaded =>
    rw [h.loaded, image_appendEntry]
    exact Function.update_self _ _ _

/-- The loop of `writeBatch` appends a batch whose indices are in order. -/
theorem writeEntries {b : List (Nat × Data)} {m : Nat} (h : Holds l disk front tail written)
    (hm : m + 1 = tail.stop) (ordered : Log.misplaced m b = none) :
    ∃ l' disk' front' tail' written',
      l.writeEntries disk tail.handle (binary.encodeAll written).length b =
        some (l', disk', tail'.handle, (binary.encodeAll written').length) ∧
      Holds l' disk' front' tail' written' ∧
      flatten (front' ++ [tail']) = flatten (front ++ [tail]) ++ b.map Prod.snd ∧
      tail'.stop = tail.stop + b.length ∧
      l'.firstIndex = l.firstIndex := by
  induction b generalizing l disk front tail written m with
  | nil => exact ⟨l, disk, front, tail, written, rfl, h, by simp, rfl, rfl⟩
  | cons entry b ih =>
      obtain ⟨index, data⟩ := entry
      obtain ⟨hindex, ordered⟩ := misplaced_cons.mp ordered
      have appended := h.appendEntry data
      have stop := stop_append tail data
      have grown : index + 1 = Chunk.stop { tail with entries := tail.entries ++ [data] } := by omega
      have content : flatten (front ++ [{ tail with entries := tail.entries ++ [data] }]) =
          flatten (front ++ [tail]) ++ [data] := by
        simp
      rw [Log.writeEntries]
      split
      · -- the segment has its size and is written out
        obtain ⟨disk₁, wrote, holds₁⟩ := appended.append grown
        rw [wrote, Option.bind_some]
        obtain ⟨l₂, disk₂, cycled, holds₂, first₂⟩ := holds₁.cycle (by simp)
        rw [cycled, Option.bind_some, holds₂.getLast?_segments, Option.bind_some]
        obtain ⟨l', disk', front', tail', written', hwrite, holds', hflat, hstop, hfirst⟩ :=
          ih holds₂ (m := m + 1) (by rw [Chunk.stop]; dsimp only; rw [List.length_nil]; omega) ordered
        refine ⟨l', disk', front', tail', written', hwrite, holds', ?_, ?_, hfirst.trans first₂⟩
        · rw [hflat, flatten_append, content]
          simp
        · rw [hstop, Chunk.stop]
          dsimp only
          rw [List.length_nil, List.length_cons]
          omega
      · obtain ⟨l', disk', front', tail', written', hwrite, holds', hflat, hstop, hfirst⟩ :=
          ih appended (m := m + 1) (by omega) ordered
        refine ⟨l', disk', front', tail', written', hwrite, holds', ?_, ?_, hfirst⟩
        · rw [hflat, content]
          simp
        · rw [hstop, stop, List.length_cons]
          omega

/-- A tail that is longer than it should be is closed before the batch is written. -/
theorem prepareTail (h : Holds l disk front tail tail.entries) :
    ∃ l' disk' front' tail', l.prepareTail disk = some (l', disk') ∧
      Holds l' disk' front' tail' tail'.entries ∧
      flatten (front' ++ [tail']) = flatten (front ++ [tail]) ∧ tail'.stop = tail.stop ∧
      l'.firstIndex = l.firstIndex := by
  rw [Log.prepareTail, h.getLast?_segments, Option.bind_some]
  split
  · rename_i long
    have filled : tail.entries ≠ [] := by
      intro empty
      rw [h.loaded, image, empty] at long
      exact absurd long (Nat.not_lt_zero _)
    obtain ⟨l', disk', cycled, holds, first⟩ := h.cycle filled
    have last := h.last
    refine ⟨l', disk', _, _, cycled, holds, by simp, ?_, first⟩
    rw [Chunk.stop, Chunk.stop]
    exact last
  · exact ⟨l, disk, front, tail, rfl, h, rfl, rfl, rfl⟩

end Holds

/-- The last index of a batch in order. -/
theorem misplaced_last {m : Nat} {b : List (Nat × Data)} {last : Nat × Data}
    (ordered : Log.misplaced m b = none) (hlast : b.getLast? = some last) :
    last.1 = m + b.length := by
  induction b generalizing m with
  | nil => cases hlast
  | cons entry b ih =>
      obtain ⟨index, data⟩ := entry
      obtain ⟨hindex, ordered⟩ := misplaced_cons.mp ordered
      cases b with
      | nil =>
          cases hlast
          exact hindex
      | cons entry b =>
          rw [List.getLast?_cons_cons] at hlast
          have index := ih ordered hlast
          rw [List.length_cons]
          omega

/-- A batch that is not empty is appended as a whole if its indices are in order, and
otherwise nothing changes. -/
theorem Shows.writeBatch {l : Log} {disk : Disk} {a : IndexedLog Data} (h : Shows l disk a)
    {b : List (Nat × Data)} (filled : b ≠ []) :
    (∀ need got, Log.misplaced a.lastIndex b = some (need, got) →
      l.writeBatch disk b = some (l, disk, .error (.outOfOrder need got))) ∧
    (Log.misplaced a.lastIndex b = none → ∃ l' disk',
      l.writeBatch disk b = some (l', disk', .ok) ∧
      Shows l' disk' ⟨a.firstIndex, a.entries ++ b.map Prod.snd, a.pos⟩) := by
  rw [h.lastIndex]
  constructor
  · intro need got wrong
    rw [Log.writeBatch, wrong]
  · intro ordered
    obtain ⟨front, tail, holds, first, entries⟩ := h
    obtain ⟨l₁, disk₁, front₁, tail₁, prepared, holds₁, flat₁, stop₁, first₁⟩ :=
      holds.prepareTail
    have last : l.lastIndex + 1 = tail₁.stop := by
      rw [stop₁, holds.last]
      rfl
    obtain ⟨l₂, disk₂, front₂, tail₂, written, wrote, holds₂, flat₂, stop₂, first₂⟩ :=
      holds₁.writeEntries last ordered
    obtain ⟨final, hfinal⟩ := Option.isSome_iff_exists.mp (List.getLast?_isSome.mpr filled)
    have index := misplaced_last ordered hfinal
    have stop : final.1 + 1 = tail₂.stop := by
      rw [stop₂, ← last, index]
      omega
    have content : a.entries ++ b.map Prod.snd = flatten (front₂ ++ [tail₂]) := by
      rw [flat₂, flat₁, entries]
    have length : (l₁.heap tail₁.handle).ebuf.length = (binary.encodeAll tail₁.entries).length := by
      rw [holds₁.loaded]
      rfl
    rw [Log.writeBatch, ordered]
    dsimp only
    rw [prepared, Option.bind_some]
    dsimp only
    rw [holds₁.getLast?_segments, Option.bind_some, length, wrote, Option.bind_some]
    dsimp only
    rw [hfinal, Option.bind_some, Log.flush]
    split
    · obtain ⟨disk', appended, holds'⟩ := holds₂.append stop
      rw [appended]
      exact ⟨_, _, rfl, front₂, tail₂, holds', first.trans (first₁.symm.trans first₂.symm), content⟩
    · -- the loop has just started a new segment, which is still empty
      rename_i nothing
      obtain ⟨rest, hrest⟩ := holds₂.pending
      have all : written = tail₂.entries := by
        rw [holds₂.loaded, image, ← hrest, binary.encodeAll_append, List.length_append] at nothing
        have empty : (binary.encodeAll rest).length = 0 := by omega
        rw [List.length_eq_zero_iff, binary.encodeAll_eq_nil_iff] at empty
        rw [← hrest, empty, List.append_nil]
      rw [all] at holds₂
      exact ⟨_, _, rfl, front₂, tail₂, holds₂, first.trans (first₁.symm.trans first₂.symm), content⟩

end RaftKv.Wal
