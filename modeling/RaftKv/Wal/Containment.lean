import RaftKv.Wal.Faults

/-!
# Which faults a cut contains

For each place of the fault the log and the directory that the cut leaves are compared with
the contents before and after. Faults of `TEMP` are contained if its content is complete or
it never gets its other name. From the first rename on the directory is cut, so that an error
is not contained, and any other content of `TEMP` is one that was never there. A tail that is
not read again keeps what was cut off.
-/

namespace RaftKv.Wal

open Library Chunk

/-! ### Segments -/

/-- The entries with the indices from `i` up to but not including `j`. -/
def slice (a : IndexedLog Data) (i j : Nat) : List Data :=
  (a.entries.drop (i - a.firstIndex)).take (j - i)

/-- The first index of the segment of an index, and the one behind its last index. -/
def Log.segmentRange (l : Log) (n : Nat) : Option (Nat × Nat) :=
  (l.findSegment n).bind fun i =>
    l.segments[i]?.map fun p =>
      ((l.heap p).index, (l.segments[i + 1]?.map fun q => (l.heap q).index).getD (l.lastIndex + 1))

theorem MakeUp.slice {before behind : List Block} {c : Block} {a : IndexedLog Data} {i j : Nat}
    (h : MakeUp (before ++ c :: behind) a) (hi : c.index ≤ i) (hc : i < c.stop) (hj : j ≤ c.stop) :
    slice a i j = (c.entries.drop (i - c.index)).take (j - i) := by
  have stop : c.stop = c.index + c.entries.length := rfl
  rw [Wal.slice, h.entries, h.covers.drop_flatten hi hc, List.take_append_of_le_length]
  rw [List.length_drop]
  omega

/-- The entries that a cut of the front leaves in a segment. -/
theorem MakeUp.slice_cutFront {before behind : List Block} {c : Block} {a : IndexedLog Data}
    {n : Nat} (h : MakeUp (before ++ c :: behind) a) (hc : c.index ≤ n) (hn : n < c.stop) :
    Wal.slice a n c.stop = (Wal.cutFront c n).entries := by
  refine (h.slice hc hn (Nat.le_refl _)).trans (List.take_of_length_le ?_)
  rw [List.length_drop, Chunk.stop]
  omega

/-- The entries that a cut of the back leaves in a segment. -/
theorem MakeUp.slice_cutBack {before behind : List Block} {c : Block} {a : IndexedLog Data}
    {n : Nat} (h : MakeUp (before ++ c :: behind) a) (hc : c.index ≤ n) (hn : n < c.stop) :
    Wal.slice a c.index (n + 1) = (Wal.cutBack c n).entries := by
  rw [h.slice (Nat.le_refl _) (Nat.lt_of_le_of_lt hc hn) hn, Nat.sub_self]
  rfl

/-- All the entries of a segment. -/
theorem MakeUp.slice_stop {before behind : List Block} {c : Block} {a : IndexedLog Data}
    {n : Nat} (h : MakeUp (before ++ c :: behind) a) (hc : c.index ≤ n) (hn : n < c.stop) :
    Wal.slice a c.index c.stop = c.entries := by
  rw [h.slice (Nat.le_refl _) (Nat.lt_of_le_of_lt hc hn) (Nat.le_refl _), Nat.sub_self]
  refine List.take_of_length_le ?_
  rw [Chunk.stop, List.drop_zero]
  omega

theorem MakeUp.lastIndex_tail {before : List Block} {c : Block} {a : IndexedLog Data}
    (h : MakeUp (before ++ [c]) a) : a.lastIndex + 1 = c.stop := by
  have stop : c.stop = a.firstIndex + a.entries.length := h.covers.split.2
  have pos := a.pos
  rw [IndexedLog.lastIndex]
  omega

/-- What is left is shorter if an entry is cut off. -/
theorem length_cutBack_lt {c : Block} {n : Nat} (hc : c.index ≤ n) (hn : n + 1 < c.stop) :
    (binary.encodeAll (cutBack c n).entries).length < (binary.encodeAll c.entries).length := by
  have kept : c.entries = (cutBack c n).entries ++ c.entries.drop (n + 1 - c.index) :=
    (List.take_append_drop _ _).symm
  have more : c.entries.drop (n + 1 - c.index) ≠ [] := by
    rw [Chunk.stop] at hn
    rw [Ne, List.drop_eq_nil_iff]
    omega
  have bytes := List.length_pos_iff.mpr (mt binary.encodeAll_eq_nil_iff.mp more)
  rw [kept, binary.encodeAll_append, List.length_append]
  exact Nat.lt_add_of_pos_right bytes

theorem Holds.segmentRange {l : Log} {disk : Disk} {front before behind : List Block}
    {tail c : Block} {n : Nat} (h : Holds l disk front tail tail.entries)
    (parts : front ++ [tail] = before ++ c :: behind) (hc : c.index ≤ n) (hn : n < c.stop) :
    l.segmentRange n = some (c.index, c.stop) := by
  have inside := mem_from_of_parts parts
  have covers := h.coversAll
  rw [parts] at covers
  have here : l.segments[before.length]? = some c.handle := by
    rw [h.segments, parts]
    simp
  have next : l.segments[before.length + 1]? = behind.head?.map handle := by
    rw [h.segments, parts]
    cases behind <;> simp
  rw [Log.segmentRange, h.findSegment parts hc hn, Option.bind_some, here, Option.map_some, next,
    (h.name (inside c List.mem_cons_self)).2]
  cases behind with
  | nil =>
      have stop : c.stop = l.lastIndex + 1 := covers.split.2
      rw [stop]
      rfl
  | cons d behind =>
      have index := (h.name (inside d (List.mem_cons_of_mem c List.mem_cons_self))).2
      have stop : d.index = c.stop := covers.split.2.1
      rw [← stop, ← index]
      rfl

/-- A segment that cannot be read is as empty as before. -/
theorem Shows.loadSegmentFailing {l l' : Log} {disk : Disk} {a : IndexedLog Data} {n : Nat}
    (h : Shows l disk a) (hfirst : a.firstIndex ≤ n) (hlast : n ≤ a.lastIndex)
    (failed : l.loadSegmentFailing n = some l') : Shows l' disk a := by
  rw [h.lastIndex] at hlast
  obtain ⟨front, tail, holds, first, entries⟩ := h
  obtain ⟨before, c, behind, parts, hc, hn⟩ := holds.locate (n := n) (by omega) hlast
  have here : l.segments[before.length]? = some c.handle := by
    rw [holds.segments, parts]
    simp
  rw [Log.loadSegmentFailing, holds.getLast?_segments, Option.bind_some] at failed
  obtain ⟨other, failed⟩ := Option.ite_none_left_eq_some.mp failed
  rw [holds.findSegment parts hc hn, Option.bind_some, here, Option.bind_some] at failed
  obtain ⟨-, pushed⟩ := Option.ite_none_right_eq_some.mp failed
  rcases parts_cases parts with ⟨-, rfl, -⟩ | ⟨rest, -, rfl⟩
  · -- the tail is not read
    rw [holds.loaded] at other
    exact absurd (Or.inl hc) other
  · obtain ⟨heap, scache, same, holds', -, -⟩ :=
      holds.pushCache (k := before.length) (p := c.handle) (by simp)
    rw [same] at pushed
    cases pushed
    exact ⟨_, tail, holds', first, entries⟩

/-! ### A fault in a cut of the front -/

/-- Without a fault in the tail the end is as it always is. -/
theorem Log.finishFrontFailing_of_finishFront {l l' : Log} {disk : Disk} {fault : Fault}
    {segIdx p index : Nat} {ebuf : Bytes} (opens : fault ≠ .openTail) (seeks : fault ≠ .seek)
    (reads : fault ≠ .readTail) (h : l.finishFront disk segIdx p index ebuf = some l') :
    l.finishFrontFailing disk fault segIdx p index ebuf = some (l', .done) := by
  rw [Log.finishFront] at h
  rw [Log.finishFrontFailing]
  split at h
  · rename_i last
    obtain ⟨l₁, opened, rfl⟩ := Option.map_eq_some_iff.mp h
    obtain ⟨content, read, sought⟩ := Option.bind_eq_some_iff.mp opened
    obtain ⟨length, loaded⟩ := Option.ite_none_right_eq_some.mp sought
    obtain ⟨s, loads, rfl⟩ := Option.map_eq_some_iff.mp loaded
    rw [if_pos last, if_neg opens, if_neg seeks, read, Option.bind_some, if_pos length,
      if_neg reads, loads]
  · rename_i inner
    cases h
    rw [if_neg inner, if_neg (by tauto)]

theorem Log.finishBackFailing_of_finishBack {l l' : Log} {disk : Disk} {fault : Fault}
    {segIdx p index : Nat} {ebuf : Bytes} (opens : fault ≠ .openTail) (seeks : fault ≠ .seek)
    (reads : fault ≠ .readTail) (h : l.finishBack disk segIdx p index ebuf = some l') :
    l.finishBackFailing disk fault segIdx p index ebuf = some (l', .done) := by
  rw [Log.finishBack] at h
  rw [Log.finishBackFailing, if_neg opens, if_neg seeks]
  obtain ⟨content, read, sought⟩ := Option.bind_eq_some_iff.mp h
  obtain ⟨length, loaded⟩ := Option.ite_none_right_eq_some.mp sought
  obtain ⟨s, loads, rfl⟩ := Option.map_eq_some_iff.mp loaded
  rw [read, Option.bind_some, if_pos length, if_neg reads, loads]

/-- `truncateFront` in the tail with the cache cleared, if it does not read the entries again. -/
def Log.cutHead (l : Log) (segIdx p index : Nat) : Log :=
  Log.clearCache
    { l.set p { l.heap p with path := segmentName index, index := index } with
      sfile := segmentName index
      segments := l.segments.drop segIdx
      firstIndex := index }

theorem Log.heap_cutTail {l : Log} {segIdx p index i : Nat} :
    (l.cutTail segIdx p index i).heap p =
      if p ∈ l.scache.values then ({ l.heap p with path := segmentName i } : Segment).unload
      else { l.heap p with path := segmentName i } := by
  change (if p ∈ l.scache.values then (Function.update l.heap p _ p).unload
    else Function.update l.heap p _ p) = _
  rw [Function.update_self]

theorem Log.corrupt_finishFrontFailing {l l' : Log} {disk : Disk} {fault : Fault}
    {segIdx p index : Nat} {ebuf : Bytes} {outcome : Outcome}
    (h : l.finishFrontFailing disk fault segIdx p index ebuf = some (l', outcome)) :
    l'.corrupt = l.corrupt := by
  rw [Log.finishFrontFailing] at h
  split at h
  · split at h
    · cases h
      rfl
    split at h
    · cases h
      rfl
    obtain ⟨content, -, h⟩ := Option.bind_eq_some_iff.mp h
    split at h
    · split at h
      · cases h
        rfl
      split at h <;> cases h <;> rfl
    · cases h
      rfl
  · obtain ⟨-, h⟩ := Option.ite_none_left_eq_some.mp h
    cases h
    rfl

namespace Holds

variable {l : Log} {disk : Disk} {front before behind : List Block} {tail c : Block} {n : Nat}
variable {a a' : IndexedLog Data} {fault : Fault} {r : Log × Disk × Outcome}

theorem names_eq (h : Holds l disk front tail tail.entries) {blocks : List Block}
    (hblocks : ∀ b ∈ blocks, b ∈ front ++ [tail]) :
    (blocks.map handle).map (fun p => (l.heap p).path) = names blocks := by
  rw [List.map_map]
  exact List.map_congr_left fun b hb => (h.name (hblocks b hb)).1

theorem heap_cutHead (h : Holds l disk front c c.entries) :
    (l.cutHead front.length c.handle n).heap c.handle = image ⟨c.handle, n, c.entries⟩ := by
  change (if c.handle ∈ l.scache.values then _ else Function.update _ _ _ c.handle) = _
  rw [if_neg h.tail_uncached, Function.update_self, h.loaded]
  rfl

/-- What would be read is there already if nothing is cut off. -/
theorem finishFront_cutHead (h : Holds l disk front c c.entries) (disk' : Disk)
    (files : disk'.files = [file (cutFront c c.index)]) :
    l.finishFront disk' front.length c.handle c.index
        (binary.encodeAll (cutFront c c.index).entries) =
      some (l.cutHead front.length c.handle c.index) := by
  have last : front.length = l.segments.length - 1 := (h.position_iff rfl).mpr rfl
  have read : disk'.files.read (segmentName c.index) =
      some (binary.encodeAll (cutFront c c.index).entries) := by
    rw [files]
    exact if_pos rfl
  have same : ({ l.heap c.handle with path := segmentName c.index, index := c.index } : Segment) =
      image (cutFront c c.index) := by
    rw [h.loaded, cutFront, Nat.sub_self, List.drop_zero]
    rfl
  rw [Log.finishFront, if_pos last, read, Option.bind_some, if_pos rfl,
    loadSegmentEntries_of_read (b := cutFront c c.index) rfl rfl read, Log.cutHead, same]
  rfl

section Front

variable (h : Holds l disk front tail tail.entries)
variable (parts : front ++ [tail] = before ++ c :: behind)

include h parts

theorem frontFailing_eq :
    l.frontFailing disk fault before.length c.handle n (binary.encodeAll (cutFront c n).entries) =
      l.cutFailing disk fault (binary.encodeAll (cutFront c n).entries) ⟨n, .START⟩
        (segmentName n) (before.length = l.segments.length - 1) (names (before ++ [c]))
        fun disk => l.finishFrontFailing disk fault before.length c.handle n
          (binary.encodeAll (cutFront c n).entries) := by
  rw [Log.frontFailing, h.take_segments parts, h.names_eq (mem_upto_of_parts parts)]

variable (hc : c.index ≤ n) (hn : n < c.stop)

include hc hn

/-- `TEMP` becomes `START`. -/
theorem mark_start (content : Bytes) :
    Disk.apply { disk with temp := some content } (.renameTemp ⟨n, .START⟩) =
      some { files := between (before ++ [c]) (⟨n, .START⟩, content) behind } := by
  have around := h.around parts hc hn
  rw [h.files_eq, parts, List.append_cons]
  exact apply_renameTemp (by decide) around.1 around.2

/-- The operations on files come to their end, whatever is in `START`. -/
theorem front_through {content : Bytes} (through : fault.through = true)
    (writes : fault.writesTemp disk (binary.encodeAll (cutFront c n).entries) =
      some { disk with temp := some content })
    (failed : l.frontFailing disk fault before.length c.handle n
      (binary.encodeAll (cutFront c n).entries) = some r) :
    ∃ l' outcome, r = (l', { files := between [] (segmentName n, content) behind }, outcome) ∧
      l.finishFrontFailing { files := between [] (segmentName n, content) behind } fault
        before.length c.handle n (binary.encodeAll (cutFront c n).entries) =
          some (l', outcome) := by
  rw [h.frontFailing_eq parts] at failed
  exact cutFailing_through through writes (h.mark_start parts hc hn _)
    (run_start (h.around parts hc hn).2) failed

variable (new : MakeUp (cutFront c n :: behind) a')

include new

/-- What follows the operations on files if nothing is wrong with `TEMP`. -/
theorem finishFront_shows (cached : behind ≠ [] → ∃ k, (k, c.handle) ∈ l.scache.items) :
    ∃ l', l.finishFront { files := (cutFront c n :: behind).map file } before.length
        c.handle n (binary.encodeAll (cutFront c n).entries) = some l' ∧
      Shows l' { files := (cutFront c n :: behind).map file } a' := by
  have first : n = a'.firstIndex := new.covers.1
  rcases parts_cases parts with ⟨rfl, rfl, rfl⟩ | ⟨rest, rfl, rfl⟩
  · obtain ⟨l', finished, holds, first'⟩ :=
      h.finishFront_tail hc hn { files := [cutFront c n].map file } rfl
    exact ⟨l', finished, _, _, holds, first.symm.trans first'.symm, new.entries⟩
  · obtain ⟨l', finished, holds, first'⟩ := h.finishFront_inner hc hn (cached (by simp))
      { files := (cutFront c n :: (rest ++ [tail])).map file } rfl
    exact ⟨l', finished, _, _, holds, first.symm.trans first'.symm, new.entries⟩

/-- The tail is cut but not read again. It has all the entries that it had, so that nothing must
have been cut off. -/
theorem front_unread (failed : l.frontFailing disk .readTail before.length c.handle n
      (binary.encodeAll (cutFront c n).entries) = some r) :
    Contained a a' r ↔ n = tail.index := by
  obtain ⟨l', outcome, rfl, finished⟩ :=
    h.front_through parts hc hn rfl (Fault.writesTemp_of_whole rfl) failed
  rcases parts_cases parts with ⟨rfl, rfl, rfl⟩ | ⟨rest, rfl, rfl⟩
  · have isLast : before.length = l.segments.length - 1 := (h.position_iff parts).mpr rfl
    have read : Directory.read (between [] (segmentName n,
        binary.encodeAll (cutFront c n).entries) []) (segmentName n) = some _ := if_pos rfl
    rw [Log.finishFrontFailing, if_pos isLast, if_neg nofun, if_neg nofun, read, Option.bind_some,
      if_pos rfl, if_pos rfl] at finished
    obtain ⟨rfl, rfl⟩ : l.cutHead before.length c.handle n = l' ∧ Outcome.done = outcome :=
      Prod.mk.inj (Option.some.inj finished)
    have heap := h.heap_cutHead (n := n)
    have length : ∀ disk b, Shows (l.cutHead before.length c.handle n) disk b → n = c.index := by
      intro disk b shown
      have last : l.lastIndex + 1 = _ :=
        shown.tail_length (p := c.handle) (congrArg List.getLast? (h.drop_segments parts))
      rw [heap, image, binary.length_positions] at last
      have stop := h.last
      dsimp only at last
      omega
    constructor
    · rintro (shown | shown)
      · exact length _ a shown
      · exact length _ a' shown
    · rintro rfl
      obtain ⟨l₁, finished', shown⟩ :=
        h.finishFront_shows parts hc hn new fun more => absurd rfl more
      rw [h.finishFront_cutHead _ rfl] at finished'
      cases finished'
      exact .inr shown
  · have inner : before.length ≠ l.segments.length - 1 :=
      mt (h.position_iff parts).mp (List.append_ne_nil_of_right_ne_nil _ (List.cons_ne_nil _ _))
    rw [Log.finishFrontFailing, if_neg inner, if_pos (.inr (.inr rfl))] at finished
    cases finished

variable (different : a'.firstIndex ≠ a.firstIndex)

include different

/-- The content of `TEMP` gets into the directory, and it has to be what is left of the
segment. -/
theorem front_content_iff (content : Bytes)
    (cached : behind ≠ [] → ∃ k, (k, c.handle) ∈ l.scache.items) (through : fault.through = true)
    (other : fault ≠ .openTail ∧ fault ≠ .seek ∧ fault ≠ .readTail)
    (writes : fault.writesTemp disk (binary.encodeAll (cutFront c n).entries) =
      some { disk with temp := some content })
    (failed : l.frontFailing disk fault before.length c.handle n
      (binary.encodeAll (cutFront c n).entries) = some r) :
    Contained a a' r ↔ content = binary.encodeAll (cutFront c n).entries := by
  have first : n = a'.firstIndex := new.covers.1
  obtain ⟨l', outcome, rfl, finished⟩ := h.front_through parts hc hn through writes failed
  constructor
  · intro contained
    rw [contained_iff ((Log.corrupt_finishFrontFailing finished).trans h.usable.2)] at contained
    rcases contained with shown | ⟨-, shown⟩
    · -- the first file is not the one of the old first index
      obtain ⟨blocks, makeUp, files⟩ := shown.makeUp
      exact absurd (first.symm.trans (makeUp.head_index files.symm).symm) different
    · obtain ⟨blocks, makeUp, files⟩ := shown.makeUp
      rcases eq_or_ne behind [] with rfl | more
      · have content_eq : content = binary.encodeAll ((cutFront c n).entries ++ flatten []) :=
          makeUp.last_content (show MakeUp ([] ++ _) a' from new) files.symm
        rwa [flatten_nil, List.append_nil] at content_eq
      · exact makeUp.head_content new more files.symm
  · rintro rfl
    obtain ⟨l₁, finished', shown⟩ := h.finishFront_shows parts hc hn new cached
    have same := Log.finishFrontFailing_of_finishFront other.1 other.2.1 other.2.2 finished'
    rw [show between [] (segmentName n, binary.encodeAll (cutFront c n).entries) behind =
      (cutFront c n :: behind).map file from rfl, same] at finished
    cases finished
    exact .inr shown

/-- The cut is done in the directory from the first rename on. -/
theorem front_stopped (stops : fault.stops = true)
    (failed : l.frontFailing disk fault before.length c.handle n
      (binary.encodeAll (cutFront c n).entries) = some r) : ¬ Contained a a' r := by
  rw [h.frontFailing_eq parts] at failed
  obtain ⟨i, disk', rfl, ran⟩ := cutFailing_stopped stops (h.mark_start parts hc hn _) failed
  have removed : run Disk.apply
      { files := between ((before ++ [c]).take i ++ (before ++ [c]).drop i)
          (⟨n, .START⟩, binary.encodeAll (cutFront c n).entries) behind }
      (removes ((before ++ [c]).take i)) = _ := run_removes_before
  rw [List.take_append_drop, ran] at removed
  cases removed
  refine not_contained_of_opens h.usable.2 ?_ (.inl different)
  exact (h.frontCut parts hc hn).opens_during (List.drop_suffix i _) rfl new

/-- The tail is not opened again. -/
theorem front_unopened (fails : fault = .openTail ∨ fault = .seek)
    (failed : l.frontFailing disk fault before.length c.handle n
      (binary.encodeAll (cutFront c n).entries) = some r) : ¬ Contained a a' r := by
  have kind : fault.whole = true ∧ fault.through = true := by
    rcases fails with rfl | rfl <;> decide
  obtain ⟨l', outcome, rfl, finished⟩ :=
    h.front_through parts hc hn kind.2 (Fault.writesTemp_of_whole kind.1) failed
  have refused : outcome = .error ∧ l'.corrupt = false := by
    rw [Log.finishFrontFailing] at finished
    split at finished
    · rcases fails with rfl | rfl <;> cases finished <;> exact ⟨rfl, h.usable.2⟩
    · rcases fails with rfl | rfl <;> cases finished
  rw [refused.1]
  exact not_contained_of_opens refused.2 (new.opens rfl) (.inl different)

end Front

/-! ### A fault in a cut of the back -/

section Back

variable (h : Holds l disk front tail tail.entries)
variable (parts : front ++ [tail] = before ++ c :: behind)

include h parts

theorem backFailing_eq :
    l.backFailing disk fault before.length c.handle n (binary.encodeAll (cutBack c n).entries) =
      l.cutFailing disk fault (binary.encodeAll (cutBack c n).entries) ⟨c.index, .END⟩
        (segmentName c.index) True (names (c :: behind))
        fun disk => l.finishBackFailing disk fault before.length c.handle n
          (binary.encodeAll (cutBack c n).entries) := by
  have inside := mem_from_of_parts parts
  rw [Log.backFailing, h.drop_segments parts, h.names_eq inside,
    (h.name (inside c List.mem_cons_self)).2]

/-- `TEMP` becomes `END`. -/
theorem mark_end (content : Bytes) :
    Disk.apply { disk with temp := some content } (.renameTemp ⟨c.index, .END⟩) =
      some { files := between (before ++ [c]) (⟨c.index, .END⟩, content) behind } := by
  have ordered := h.index_lt_of_parts parts
  rw [h.files_eq, parts, List.append_cons]
  exact apply_renameTemp (by decide) (le_of_same ordered.1 rfl) ordered.2

/-- The operations on files come to their end, whatever is in `END`. -/
theorem back_through {content : Bytes} (through : fault.through = true)
    (writes : fault.writesTemp disk (binary.encodeAll (cutBack c n).entries) =
      some { disk with temp := some content })
    (failed : l.backFailing disk fault before.length c.handle n
      (binary.encodeAll (cutBack c n).entries) = some r) :
    ∃ l' outcome, r = (l', { files := between before (segmentName c.index, content) [] }, outcome) ∧
      l.finishBackFailing { files := between before (segmentName c.index, content) [] } fault
        before.length c.handle n (binary.encodeAll (cutBack c n).entries) =
          some (l', outcome) := by
  have ordered := h.index_lt_of_parts parts
  rw [h.backFailing_eq parts] at failed
  exact cutFailing_through through writes (h.mark_end parts _) (run_end ordered.1 rfl ordered.2)
    failed

variable (new : MakeUp (before ++ [cutBack c n]) a')

include new

variable (different : a'.lastIndex ≠ a.lastIndex)

include different

/-- The cut is done in the directory from the first rename on. -/
theorem back_stopped (stops : fault.stops = true)
    (failed : l.backFailing disk fault before.length c.handle n
      (binary.encodeAll (cutBack c n).entries) = some r) : ¬ Contained a a' r := by
  have cut : BackCut before c behind (cutBack c n) := h.backCut parts
  rw [h.backFailing_eq parts] at failed
  obtain ⟨i, disk', rfl, ran⟩ := cutFailing_stopped stops (h.mark_end parts _) failed
  refine not_contained_of_opens h.usable.2 ?_ (.inr different)
  cases i with
  | zero =>
      cases ran
      exact cut.opens_during (.inr rfl) (List.Sublist.refl _) rfl new
  | succ i =>
      have removed : run Disk.apply
          { files := between before (⟨c.index, .END⟩, binary.encodeAll (cutBack c n).entries)
              (behind.take i ++ behind.drop i) } (removes (behind.take i)) = _ :=
        run_removes_behind (by decide) (cut.le_of_kept (.inl rfl)) fun b hb =>
          cut.behind b (List.mem_of_mem_take hb)
      have first : removes ((c :: behind).take (i + 1)) =
          .remove (segmentName c.index) :: removes (behind.take i) := rfl
      rw [List.take_append_drop] at removed
      rw [first, run_cons, apply_remove_before (h.index_lt_of_parts parts).1, Option.bind_some,
        removed] at ran
      cases ran
      exact cut.opens_during (.inl rfl) (List.drop_sublist i behind) rfl new

/-- The tail is not opened again. -/
theorem back_unopened (fails : fault = .openTail ∨ fault = .seek)
    (failed : l.backFailing disk fault before.length c.handle n
      (binary.encodeAll (cutBack c n).entries) = some r) : ¬ Contained a a' r := by
  have kind : fault.whole = true ∧ fault.through = true := by
    rcases fails with rfl | rfl <;> decide
  obtain ⟨l', outcome, rfl, finished⟩ :=
    h.back_through parts kind.2 (Fault.writesTemp_of_whole kind.1) failed
  have refused : outcome = .error ∧ l'.corrupt = false := by
    rw [Log.finishBackFailing] at finished
    rcases fails with rfl | rfl <;> cases finished <;> exact ⟨rfl, h.usable.2⟩
  rw [refused.1]
  exact not_contained_of_opens refused.2 (new.opens (between_file before [] (cutBack c n)))
    (.inr different)

end Back

section Content

variable (h : Holds l disk front tail tail.entries)
variable (parts : front ++ [tail] = before ++ c :: behind) (hc : c.index ≤ n) (hn : n < c.stop)
variable (old : MakeUp (before ++ c :: behind) a) (new : MakeUp (before ++ [cutBack c n]) a')
variable (first : a.firstIndex = l.firstIndex) (first' : a'.firstIndex = l.firstIndex)
variable (last' : a'.lastIndex = n) (different : a'.lastIndex ≠ a.lastIndex)

include h parts hc hn old new first first' last' different

/-- The content of `TEMP` gets into the directory. It has to be what is left of the segment, or
else the whole tail, which the error leaves as it was. -/
theorem back_content_iff (content : Bytes) (through : fault.through = true)
    (other : fault ≠ .openTail ∧ fault ≠ .seek ∧ fault ≠ .readTail)
    (writes : fault.writesTemp disk (binary.encodeAll (cutBack c n).entries) =
      some { disk with temp := some content })
    (failed : l.backFailing disk fault before.length c.handle n
      (binary.encodeAll (cutBack c n).entries) = some r) :
    Contained a a' r ↔ content = binary.encodeAll (cutBack c n).entries ∨
      behind = [] ∧ content = binary.encodeAll c.entries := by
  obtain ⟨l', outcome, rfl, finished⟩ := h.back_through parts through writes failed
  have read : Directory.read (between before (segmentName c.index, content) [])
      (segmentName c.index) = some _ :=
    Directory.read_part (file_lt (h.index_lt_of_parts parts).1) _
  have index := (h.name (mem_from_of_parts parts c List.mem_cons_self)).2
  constructor
  · intro contained
    rw [Log.finishBackFailing, if_neg other.1, if_neg other.2.1, index, read, Option.bind_some]
      at finished
    split at finished
    · -- the last index has been cut, whether or not there is an error
      have cut : l'.lastIndex = n ∧ l'.corrupt = false := by
        dsimp only at finished
        rw [if_neg other.2.2] at finished
        split at finished <;> cases finished <;> exact ⟨rfl, h.usable.2⟩
      rw [contained_iff cut.2] at contained
      rcases contained with shown | ⟨-, shown⟩
      · exact absurd (last'.trans (cut.1.symm.trans shown.lastIndex.symm)) different
      · obtain ⟨blocks, makeUp, files⟩ := shown.makeUp
        have content_eq := makeUp.last_content new files.symm
        rw [flatten_nil, List.append_nil] at content_eq
        exact .inl content_eq
    · cases finished
      rcases (contained_iff (by exact h.usable.2)).mp contained with shown | ⟨noError, -⟩
      · obtain ⟨blocks, makeUp, files⟩ := shown.makeUp
        have count : (between before (segmentName c.index, content) []).length =
          l.segments.length := shown.length_files
        have none : behind = [] := by
          rw [h.segments, parts, between] at count
          simp only [List.length_append, List.length_map, List.length_cons, List.map_nil,
            List.length_nil] at count
          exact List.length_eq_zero_iff.mp (by omega)
        have content_eq := makeUp.last_content old files.symm
        rw [none, flatten_nil, List.append_nil] at content_eq
        exact .inr ⟨none, content_eq⟩
      · exact absurd rfl noError
  · rintro (rfl | ⟨rfl, rfl⟩)
    · obtain ⟨l₁, finished', holds, first₁⟩ := h.finishBack parts hc hn
        { files := between before (segmentName c.index, binary.encodeAll (cutBack c n).entries) [] }
        (between_file before [] (cutBack c n))
      rw [Log.finishBackFailing_of_finishBack other.1 other.2.1 other.2.2 finished'] at finished
      cases finished
      exact .inr ⟨before, cutBack c n, holds, first'.trans first₁.symm, new.entries⟩
    · obtain ⟨rfl, rfl, -⟩ | ⟨rest, impossible, -⟩ := parts_cases parts
      · have last := old.lastIndex_tail
        have shorter := length_cutBack_lt hc (n := n) (by omega)
        rw [Log.finishBackFailing, if_neg other.1, if_neg other.2.1, index, read, Option.bind_some,
          if_neg (Nat.ne_of_gt shorter)] at finished
        cases finished
        refine .inl ⟨before, c, { h with sfile := rfl, files := ?_ }, first, old.entries⟩
        rw [between, List.map_nil]
      · exact absurd impossible.symm (List.append_ne_nil_of_right_ne_nil _ (List.cons_ne_nil _ _))

end Content

/-- The new tail is not read again. It has the entries that were cut off, or none at all. -/
theorem back_unread (h : Holds l disk front tail tail.entries)
    (parts : front ++ [tail] = before ++ c :: behind) (hc : c.index ≤ n)
    (old : MakeUp (before ++ c :: behind) a) (inner : n ≠ a.lastIndex)
    (cached : behind ≠ [] → ∃ k, (k, c.handle) ∈ l.scache.items)
    (failed : l.backFailing disk .readTail before.length c.handle n
      (binary.encodeAll (cutBack c n).entries) = some r) : ¬ Contained a a' r := by
  obtain ⟨l', outcome, rfl, finished⟩ :=
    h.back_through parts rfl (Fault.writesTemp_of_whole rfl) failed
  have read : Directory.read (between before (segmentName c.index,
      binary.encodeAll (cutBack c n).entries) []) (segmentName c.index) = some _ :=
    Directory.read_part (file_lt (h.index_lt_of_parts parts).1) _
  have index := (h.name (mem_from_of_parts parts c List.mem_cons_self)).2
  rw [Log.finishBackFailing, if_neg nofun, if_neg nofun, index, read, Option.bind_some,
    if_pos rfl, if_pos rfl] at finished
  obtain ⟨rfl, rfl⟩ : l.cutTail before.length c.handle n c.index = l' ∧ Outcome.done = outcome :=
    Prod.mk.inj (Option.some.inj finished)
  have impossible : ∀ disk b, ¬ Shows (l.cutTail before.length c.handle n c.index) disk b := by
    intro disk b shown
    have last := shown.tail_length (p := c.handle) (by
      change (l.segments.take (before.length + 1)).getLast? = _
      rw [h.take_segments parts, List.map_append, List.map_singleton, List.getLast?_concat])
    change n + 1 = _ at last
    rw [Log.heap_cutTail] at last
    rcases parts_cases parts with ⟨rfl, rfl, rfl⟩ | ⟨rest, rfl, -⟩
    · -- the entries behind the last index are still there
      have whole := old.lastIndex_tail
      rw [if_neg h.tail_uncached] at last
      dsimp only at last
      rw [h.loaded, image, binary.length_positions] at last
      rw [Chunk.stop] at whole
      dsimp only at last
      omega
    · -- the cache has dropped the entries
      obtain ⟨k, item⟩ := cached (List.append_ne_nil_of_right_ne_nil _ (List.cons_ne_nil _ _))
      have cached' : c.handle ∈ l.scache.values := List.mem_map.mpr ⟨_, item, rfl⟩
      rw [if_pos cached', Segment.unload] at last
      dsimp only at last
      rw [index, List.length_nil] at last
      omega
  rintro (shown | shown)
  · exact impossible _ a shown
  · exact impossible _ a' shown

/-- Whether the cut is in the tail. -/
theorem tail_le_iff (h : Holds l disk front tail tail.entries)
    (parts : front ++ [tail] = before ++ c :: behind) (hc : c.index ≤ n) (hn : n < c.stop) :
    tail.index ≤ n ↔ behind = [] := by
  rcases parts_cases parts with ⟨-, rfl, rfl⟩ | ⟨rest, rfl, -⟩
  · exact ⟨fun _ => rfl, fun _ => hc⟩
  · have later := (h.around parts hc hn).2 tail
      (List.mem_append_right _ (List.mem_singleton_self tail))
    constructor
    · intro inside
      omega
    · intro impossible
      exact absurd impossible (List.append_ne_nil_of_right_ne_nil _ (List.cons_ne_nil _ _))

end Holds

/-! ### Every fault -/

/-- The faults that a cut of the front survives: those before `TEMP` gets its other name, if
what is in it is what is left of the segment. If the tail is not read again, it must have been
kept as a whole. -/
def Log.HarmlessFront (l : Log) (disk : Disk) (a : IndexedLog Data) (n : Nat) : Fault → Prop
  | .readSegment | .syncTemp | .closeTemp | .renameTemp => True
  | .openTemp => ∀ old ∈ disk.temp, ∀ range ∈ l.segmentRange n,
      old = binary.encodeAll (slice a n range.2)
  | .readTail => n = l.tailIndex
  | _ => False

/-- The faults that a cut of the back survives. An old `TEMP` that is the whole tail leaves it as
it is. -/
def Log.HarmlessBack (l : Log) (disk : Disk) (a : IndexedLog Data) (n : Nat) : Fault → Prop
  | .readSegment | .syncTemp | .closeTemp | .renameTemp => True
  | .openTemp => ∀ old ∈ disk.temp, ∀ range ∈ l.segmentRange n,
      old = binary.encodeAll (slice a range.1 (n + 1)) ∨
        l.tailIndex ≤ n ∧ old = binary.encodeAll (slice a range.1 range.2)
  | _ => False

namespace Shows

variable {l : Log} {disk : Disk} {a a' : IndexedLog Data} {n : Nat} {fault : Fault}
variable {r : Log × Disk × Outcome}

theorem front_contained_iff (h : Shows l disk a) (truncated : a.truncateFront n = some a')
    (failed : l.truncateFrontFailing disk fault n = some r) :
    Contained a a' r ↔ l.HarmlessFront disk a n fault := by
  have last := h.lastIndex
  have range := IndexedLog.truncateFront_eq_some_iff.mp ⟨a', truncated⟩
  have first' := IndexedLog.firstIndex_of_truncateFront truncated
  have shows := h
  obtain ⟨front, tail, holds, first, entries⟩ := h
  rw [Log.truncateFrontFailing] at failed
  obtain ⟨-, failed⟩ := Option.ite_none_left_eq_some.mp failed
  obtain ⟨inner, failed⟩ := Option.ite_none_left_eq_some.mp failed
  by_cases unread : fault = .readSegment
  · subst unread
    obtain ⟨l', loads, rfl⟩ := Option.map_eq_some_iff.mp failed
    exact iff_of_true (.inl (shows.loadSegmentFailing range.1 range.2 loads)) trivial
  rw [if_neg unread] at failed
  obtain ⟨before, c, behind, parts, hc, hn⟩ := holds.locate (n := n) (by omega) (by omega)
  obtain ⟨heap, scache, prepared, holds', -, cached⟩ := holds.prepareFront parts hc hn
  have shown : Shows { l with heap := heap, scache := scache } disk a :=
    ⟨front, tail, holds', first, entries⟩
  have old := holds.makeUp first entries
  rw [parts] at old
  have new := old.cutFront hc hn truncated
  have different : a'.firstIndex ≠ a.firstIndex := by omega
  have content {c : Bytes} (through : fault.through = true) :=
    holds'.front_content_iff parts hc hn new different c cached through (r := r)
  rw [prepared, Option.bind_some] at failed
  cases fault with
  | readSegment => exact absurd rfl unread
  | openTemp =>
      cases temp : disk.temp with
      | none =>
          refine iff_of_true (cutFailing_unmarked shown (.inr ⟨rfl, temp⟩) failed) ?_
          rw [Log.HarmlessFront, temp]
          exact fun _ none => absurd none (Option.not_mem_none _)
      | some found =>
          rw [content (c := found) rfl (by decide) (by rw [Fault.writesTemp, ← temp]) failed,
            Log.HarmlessFront, temp, holds.segmentRange parts hc hn, ← old.slice_cutFront hc hn]
          simp
  | renameTemp =>
      exact iff_of_true (cutFailing_unmarked shown (.inl rfl) failed) trivial
  | syncTemp | closeTemp =>
      exact iff_of_true ((content rfl (by decide) rfl failed).mpr rfl) trivial
  | writeTemp written =>
      have short := written_lt failed
      rw [content rfl (by simp) (if_pos short) failed]
      refine iff_of_false (fun same => ?_) not_false
      have length := congrArg List.length same
      rw [List.length_take] at length
      omega
  | closeTail | remove | rename =>
      exact iff_of_false (holds'.front_stopped parts hc hn new different rfl failed) not_false
  | openTail =>
      exact iff_of_false
        (holds'.front_unopened parts hc hn new different (.inl rfl) failed) not_false
  | seek =>
      exact iff_of_false
        (holds'.front_unopened parts hc hn new different (.inr rfl) failed) not_false
  | readTail =>
      rw [holds'.front_unread parts hc hn new failed, Log.HarmlessFront, holds.tailed.tailIndex_eq]

theorem back_contained_iff (h : Shows l disk a) (truncated : a.truncateBack n = some a')
    (failed : l.truncateBackFailing disk fault n = some r) :
    Contained a a' r ↔ l.HarmlessBack disk a n fault := by
  have last := h.lastIndex
  have range := IndexedLog.truncateBack_eq_some_iff.mp ⟨a', truncated⟩
  have last' := IndexedLog.lastIndex_of_truncateBack truncated
  have first' := IndexedLog.firstIndex_of_truncateBack truncated
  have shows := h
  obtain ⟨front, tail, holds, first, entries⟩ := h
  rw [Log.truncateBackFailing] at failed
  obtain ⟨-, failed⟩ := Option.ite_none_left_eq_some.mp failed
  obtain ⟨inner, failed⟩ := Option.ite_none_left_eq_some.mp failed
  by_cases unread : fault = .readSegment
  · subst unread
    obtain ⟨l', loads, rfl⟩ := Option.map_eq_some_iff.mp failed
    exact iff_of_true (.inl (shows.loadSegmentFailing range.1 range.2 loads)) trivial
  rw [if_neg unread] at failed
  obtain ⟨before, c, behind, parts, hc, hn⟩ := holds.locate (n := n) (by omega) (by omega)
  obtain ⟨heap, scache, prepared, holds', cached⟩ := holds.prepareBack parts hc hn
  have shown : Shows { l with heap := heap, scache := scache } disk a :=
    ⟨front, tail, holds', first, entries⟩
  have old := holds.makeUp first entries
  rw [parts] at old
  have new := old.cutBack hc hn truncated
  have different : a'.lastIndex ≠ a.lastIndex := by omega
  have content {c : Bytes} (through : fault.through = true) := holds'.back_content_iff parts hc hn
    old new first (first'.trans first) last' different c through (r := r)
  rw [prepared, Option.bind_some] at failed
  cases fault with
  | readSegment => exact absurd rfl unread
  | openTemp =>
      cases temp : disk.temp with
      | none =>
          refine iff_of_true (cutFailing_unmarked shown (.inr ⟨rfl, temp⟩) failed) ?_
          rw [Log.HarmlessBack, temp]
          exact fun _ none => absurd none (Option.not_mem_none _)
      | some found =>
          rw [content (c := found) rfl (by decide) (by rw [Fault.writesTemp, ← temp]) failed,
            Log.HarmlessBack, temp, holds.segmentRange parts hc hn, holds.tailed.tailIndex_eq,
            holds.tail_le_iff parts hc hn, ← old.slice_cutBack hc hn]
          nth_rewrite 1 [← old.slice_stop hc hn]
          simp
  | renameTemp =>
      exact iff_of_true (cutFailing_unmarked shown (.inl rfl) failed) trivial
  | syncTemp | closeTemp =>
      exact iff_of_true ((content rfl (by decide) rfl failed).mpr (.inl rfl)) trivial
  | writeTemp written =>
      have short := written_lt failed
      rw [content rfl (by simp) (if_pos short) failed]
      refine iff_of_false ?_ not_false
      rintro (same | ⟨rfl, same⟩)
      · have length := congrArg List.length same
        rw [List.length_take] at length
        omega
      · have length := congrArg List.length same
        have stop := old.lastIndex_tail
        have shorter := length_cutBack_lt hc (n := n) (by omega)
        rw [List.length_take] at length
        omega
  | closeTail | remove | rename =>
      exact iff_of_false (holds'.back_stopped parts new different rfl failed) not_false
  | openTail =>
      exact iff_of_false (holds'.back_unopened parts new different (.inl rfl) failed) not_false
  | seek =>
      exact iff_of_false (holds'.back_unopened parts new different (.inr rfl) failed) not_false
  | readTail =>
      exact iff_of_false (holds'.back_unread parts hc old (by omega) cached failed) not_false

end Shows

def oneByte (b : UInt8) : Data := ⟨[b], Nat.one_lt_two_pow (by decide : 63 ≠ 0)⟩

def threeWrites : List Operation :=
  [.write 1 (oneByte 7), .write 2 (oneByte 8), .write 3 (oneByte 9)]

/-- A segment of its own for each entry. -/
def tinyOptions : Options := ⟨1, 1, Nat.one_pos, Nat.one_pos⟩

/-- All faults but that of reading the segment can occur in the cut of a tail. -/
example : ([.openTemp, .writeTemp 3, .syncTemp, .closeTemp, .renameTemp, .closeTail, .remove 0,
    .rename, .openTail, .seek, .readTail].all fun fault =>
      ((openLog ⟨20, 1, by decide, by decide⟩ {}).bind fun (l, disk) =>
        (l.performAll disk threeWrites).bind fun (l, disk, _) =>
          l.truncateFrontFailing disk fault 2).isSome) = true := by
  decide +kernel

end RaftKv.Wal
