import RaftKv.Wal.Failed

/-!
# Cuts with a failing operation

One operation on a file may fail while the log goes on. What the cut does then depends on
where it is. The errors of writing `TEMP` are overwritten by the result of the rename that
follows, which takes an old `TEMP` if there is no new one. After that rename the log is cut in
the directory, and every further error is returned with the log in memory as it was, or half
changed, and without `corrupt`, which is only set when a panic is recovered. A file that cannot
be read is no error at all: before `TEMP` the missing entries end the call with a panic, and
after the cut they are not missed.
-/

namespace RaftKv.Wal

open Library Chunk

/-! ### The failing operations -/

/-- The operation that fails. It has no effect, except that `TEMP` has the first bytes after
`writeTemp` and all of them after `syncTemp` and `closeTemp`. -/
inductive Fault where
  | readSegment
  | openTemp
  | writeTemp (written : Nat)
  | syncTemp
  | closeTemp
  | renameTemp
  | closeTail
  | remove (i : Nat)
  | rename
  | openTail
  | seek
  | readTail
  deriving DecidableEq

/-- How a call ends. -/
inductive Outcome where
  | done
  | error
  | panics
  deriving DecidableEq

/-- The function that writes `TEMP`. Its error is lost. -/
def Fault.writesTemp (fault : Fault) (disk : Disk) (ebuf : Bytes) : Option Disk :=
  match fault with
  | .openTemp => some disk
  | .writeTemp written =>
      if written < ebuf.length then some { disk with temp := some (ebuf.take written) } else none
  | _ => some { disk with temp := some ebuf }

/-- The operations on files from the marked file on, and whether they come to their end.
`closes` says whether the tail is closed, and `paths` are the files that are removed. -/
def Fault.cleanup (fault : Fault) (disk : Disk) (mark name : FileName) (closes : Prop)
    [Decidable closes] (paths : List FileName) : Option (Disk × Bool) :=
  match fault with
  | .closeTail => if closes then some (disk, false) else none
  | .remove i =>
      if i < paths.length then (run Disk.apply disk ((paths.take i).map .remove)).map (·, false)
      else none
  | .rename => (run Disk.apply disk (paths.map .remove)).map (·, false)
  | _ => (run Disk.apply disk (paths.map .remove ++ [FileOp.rename mark name])).map (·, true)

/-- All operations on files, from `TEMP` on. -/
def Fault.cut (fault : Fault) (disk : Disk) (ebuf : Bytes) (mark name : FileName) (closes : Prop)
    [Decidable closes] (paths : List FileName) : Option (Disk × Bool) :=
  (fault.writesTemp disk ebuf).bind fun disk =>
    if fault = .renameTemp then some (disk, false)
    else
      match disk.apply (.renameTemp mark) with
      | none => some (disk, false)
      | some disk => fault.cleanup disk mark name closes paths

/-- Both cuts, from `TEMP` on: an error is returned with the log as it is, and if there is none
`finish` follows. -/
def Log.cutFailing (l : Log) (disk : Disk) (fault : Fault) (ebuf : Bytes) (mark name : FileName)
    (closes : Prop) [Decidable closes] (paths : List FileName)
    (finish : Disk → Option (Log × Outcome)) : Option (Log × Disk × Outcome) :=
  (fault.cut disk ebuf mark name closes paths).bind fun (disk, done) =>
    if done then (finish disk).map fun (l, outcome) => (l, disk, outcome)
    else some (l, disk, .error)

namespace Log

/-- `loadSegment` if its `ReadFile` fails, which is no error, or `none` if it does not read a
file. The segment that it returns has no entries. -/
def loadSegmentFailing (l : Log) (index : Nat) : Option Log :=
  l.segments.getLast?.bind fun lseg =>
    if (l.heap lseg).index ≤ index ∨ (l.recent index).isSome then none
    else
      (l.findSegment index).bind fun idx =>
        l.segments[idx]?.bind fun p => if (l.heap p).epos = [] then l.pushCache idx else none

/-- `finishFront`, and how it ends. After `openTail` there is no file for the tail any more,
which `sfile` does not say. -/
def finishFrontFailing (l : Log) (disk : Disk) (fault : Fault) (segIdx p index : Nat)
    (ebuf : Bytes) : Option (Log × Outcome) :=
  let s : Segment := { l.heap p with path := segmentName index, index := index }
  let opened : Log := { l.set p s with sfile := segmentName index }
  let finished (l : Log) : Log :=
    { l with segments := l.segments.drop segIdx, firstIndex := index }.clearCache
  if segIdx = l.segments.length - 1 then
    if fault = .openTail then some (l.set p s, .error)
    else if fault = .seek then some (opened, .error)
    else
      (disk.files.read (segmentName index)).bind fun content =>
        if content.length = ebuf.length then
          if fault = .readTail then some (finished opened, .done)
          else
            match loadSegmentEntries disk s with
            | none => some (opened, .error)
            | some s => some (finished { l.set p s with sfile := segmentName index }, .done)
        else some (opened, .error)
  else if fault = .openTail ∨ fault = .seek ∨ fault = .readTail then none
  else some (finished (l.set p s), .done)

/-- `truncateFront` from its operations on files on. -/
def frontFailing (l : Log) (disk : Disk) (fault : Fault) (segIdx p index : Nat) (ebuf : Bytes) :
    Option (Log × Disk × Outcome) :=
  l.cutFailing disk fault ebuf ⟨index, .START⟩ (segmentName index)
    (segIdx = l.segments.length - 1)
    ((l.segments.take (segIdx + 1)).map fun p => (l.heap p).path)
    fun disk => l.finishFrontFailing disk fault segIdx p index ebuf

/-- `truncateFront` with a failing operation, or `none` if there is no such operation in this
call. Slicing the positions of a segment without entries panics. -/
def truncateFrontFailing (l : Log) (disk : Disk) (fault : Fault) (index : Nat) :
    Option (Log × Disk × Outcome) :=
  if index = 0 ∨ l.lastIndex = 0 ∨ index < l.firstIndex ∨ l.lastIndex < index then none
  else if index = l.firstIndex then none
  else if fault = .readSegment then
    (l.loadSegmentFailing index).map fun l => (l, disk, .panics)
  else
    (l.prepareFront disk index).bind fun (l, segIdx, p, ebuf) =>
      l.frontFailing disk fault segIdx p index ebuf

/-- `finishBack`, and how it ends. -/
def finishBackFailing (l : Log) (disk : Disk) (fault : Fault) (segIdx p index : Nat)
    (ebuf : Bytes) : Option (Log × Outcome) :=
  let name := segmentName (l.heap p).index
  if fault = .openTail then some (l, .error)
  else if fault = .seek then some ({ l with sfile := name }, .error)
  else
    (disk.files.read name).bind fun content =>
      if content.length = ebuf.length then
        let l := clearCache { l.set p { l.heap p with path := name } with
          sfile := name, segments := l.segments.take (segIdx + 1), lastIndex := index }
        if fault = .readTail then some (l, .done)
        else
          match loadSegmentEntries disk (l.heap p) with
          | none => some (l, .error)
          | some s => some (l.set p s, .done)
      else some ({ l with sfile := name }, .error)

/-- `truncateBack` from its operations on files on. -/
def backFailing (l : Log) (disk : Disk) (fault : Fault) (segIdx p index : Nat) (ebuf : Bytes) :
    Option (Log × Disk × Outcome) :=
  l.cutFailing disk fault ebuf ⟨(l.heap p).index, .END⟩ (segmentName (l.heap p).index) True
    ((l.segments.drop segIdx).map fun p => (l.heap p).path)
    fun disk => l.finishBackFailing disk fault segIdx p index ebuf

/-- `truncateBack` with a failing operation, or `none` if there is no such operation in this
call. -/
def truncateBackFailing (l : Log) (disk : Disk) (fault : Fault) (index : Nat) :
    Option (Log × Disk × Outcome) :=
  if index = 0 ∨ l.lastIndex = 0 ∨ index < l.firstIndex ∨ l.lastIndex < index then none
  else if index = l.lastIndex then none
  else if fault = .readSegment then
    (l.loadSegmentFailing index).map fun l => (l, disk, .panics)
  else
    (l.prepareBack disk index).bind fun (l, segIdx, p, ebuf) =>
      l.backFailing disk fault segIdx p index ebuf

end Log

/-! ### Containment -/

/-- With an error the log goes on as it was, or it refuses everything and can be opened again.
Without one the content, in the files and in memory, is the one before or the one after. -/
def Contained (old new : IndexedLog Data) : Log × Disk × Outcome → Prop
  | (l, disk, .error) =>
      Shows l disk old ∨ l.corrupt = true ∧ (Opens disk old ∨ Opens disk new)
  | (l, disk, _) => Shows l disk old ∨ Shows l disk new

namespace Shows

variable {l : Log} {disk : Disk} {a : IndexedLog Data}

theorem makeUp (h : Shows l disk a) : ∃ blocks, MakeUp blocks a ∧ disk.files = blocks.map file := by
  obtain ⟨front, tail, holds, first, entries⟩ := h
  exact ⟨_, holds.makeUp first entries, holds.files_eq⟩

theorem opens (h : Shows l disk a) : Opens disk a := by
  obtain ⟨blocks, makeUp, files⟩ := h.makeUp
  exact makeUp.opens files

/-- All that the tail has in memory counts. -/
theorem tail_length (h : Shows l disk a) {p : Nat} (last : l.segments.getLast? = some p) :
    l.lastIndex + 1 = (l.heap p).index + (l.heap p).epos.length := by
  obtain ⟨front, tail, holds, -, -⟩ := h
  rw [holds.getLast?_segments] at last
  cases last
  rw [holds.last, holds.loaded, image, binary.length_positions]

/-- Every segment has its file. -/
theorem length_files (h : Shows l disk a) : disk.files.length = l.segments.length := by
  obtain ⟨front, tail, holds, -, -⟩ := h
  rw [holds.files_eq, holds.segments, List.length_map, List.length_map]

end Shows

namespace Opens

variable {disk : Disk} {a b : IndexedLog Data}

/-- A directory does not open with different logs. -/
theorem indices (ha : Opens disk a) (hb : Opens disk b) :
    a.firstIndex = b.firstIndex ∧ a.lastIndex = b.lastIndex := by
  obtain ⟨l, disk', opened, shown⟩ := ha ⟨1, 1, by decide, by decide⟩
  obtain ⟨l', disk'', opened', shown'⟩ := hb ⟨1, 1, by decide, by decide⟩
  rw [opened] at opened'
  cases opened'
  refine ⟨?_, shown.lastIndex.trans shown'.lastIndex.symm⟩
  obtain ⟨-, -, -, first, -⟩ := shown
  obtain ⟨-, -, -, first', -⟩ := shown'
  exact first.trans first'.symm

end Opens

namespace MakeUp

variable {blocks behind before : List Block} {a a' : IndexedLog Data} {c : Block} {i : Nat}
variable {content : Bytes}

theorem covers (h : MakeUp blocks a) :
    Covers a.firstIndex blocks (a.firstIndex + a.entries.length) := by
  obtain ⟨front, tail, rfl, laid, entries⟩ := h
  have covers := laid.covers_stop
  rw [covers.length, ← entries] at covers
  exact covers

theorem entries (h : MakeUp blocks a) : a.entries = flatten blocks := by
  obtain ⟨-, -, -, -, entries⟩ := h
  exact entries

/-- The first file has the first index. -/
theorem head_index (h : MakeUp blocks a)
    (files : blocks.map file = (segmentName i, content) :: behind.map file) : a.firstIndex = i := by
  obtain ⟨b, rest, rfl, named, -⟩ := List.map_eq_cons_iff.mp files
  have index : b.index = i := congrArg (fun f => f.1.index) named
  exact h.covers.1.symm.trans index

/-- What is in the first of several files is determined by the others. -/
theorem head_content (h : MakeUp blocks a) (h' : MakeUp (c :: behind) a) (more : behind ≠ [])
    (files : blocks.map file = (segmentName c.index, content) :: behind.map file) :
    content = binary.encodeAll c.entries := by
  obtain ⟨b, rest, rfl, named, same⟩ := List.map_eq_cons_iff.mp files
  obtain ⟨e, behind, rfl⟩ := List.exists_cons_of_ne_nil more
  obtain ⟨e', rest, rfl, named', -⟩ := List.map_eq_cons_iff.mp same
  have index : e'.index = e.index := congrArg (fun f => f.1.index) named'
  obtain ⟨first, next, -⟩ := h.covers
  obtain ⟨first', next', -⟩ := h'.covers
  have length : b.entries.length = c.entries.length := by
    rw [Chunk.stop] at next next'
    omega
  have content_eq : b.entries = c.entries := by
    have both := h.entries.symm.trans h'.entries
    rw [flatten_cons, flatten_cons] at both
    exact (List.append_inj both length).1
  rw [← content_eq]
  exact (congrArg Prod.snd named).symm

/-- What is in the last file is determined by those before. -/
theorem last_content (h : MakeUp blocks a) (h' : MakeUp (before ++ c :: behind) a)
    (files : blocks.map file = before.map file ++ [(segmentName c.index, content)]) :
    content = binary.encodeAll (c.entries ++ flatten behind) := by
  obtain ⟨rest, last, rfl, -, single⟩ := List.map_eq_append_iff.mp files
  obtain ⟨b, none, rfl, named, empty⟩ := List.map_eq_cons_iff.mp single
  cases List.map_eq_nil_iff.mp empty
  have index : b.index = c.index := congrArg (fun f => f.1.index) named
  have length : (flatten rest).length = (flatten before).length := by
    have start := h.covers.split.1.length
    have start' := h'.covers.split.1.length
    omega
  have content_eq : b.entries = c.entries ++ flatten behind := by
    have both := h.entries.symm.trans h'.entries
    rw [flatten_append, flatten_append, flatten_cons, flatten_cons, flatten_nil,
      List.append_nil] at both
    exact (List.append_inj both length).2
  rw [← content_eq]
  exact (congrArg Prod.snd named).symm

end MakeUp

section Contained

variable {l : Log} {disk : Disk} {old new : IndexedLog Data} {outcome : Outcome}

/-- Nothing is refused, so that an error has to leave the log as it was. -/
theorem contained_iff (usable : l.corrupt = false) :
    Contained old new (l, disk, outcome) ↔
      Shows l disk old ∨ outcome ≠ .error ∧ Shows l disk new := by
  cases outcome <;> simp [Contained, usable]

/-- It does not if the directory has been cut. -/
theorem not_contained_of_opens (usable : l.corrupt = false) (opens : Opens disk new)
    (different : new.firstIndex ≠ old.firstIndex ∨ new.lastIndex ≠ old.lastIndex) :
    ¬ Contained old new (l, disk, .error) := by
  rw [contained_iff usable]
  rintro (shown | ⟨noError, -⟩)
  · have same := opens.indices shown.opens
    rcases different with first | last
    · exact first same.1
    · exact last same.2
  · exact noError rfl

end Contained

/-! ### The operations on files -/

namespace Fault

/-- All of the segment gets into `TEMP`. -/
def whole : Fault → Bool
  | .openTemp | .writeTemp _ => false
  | _ => true

/-- The fault is between the two renames. -/
def stops : Fault → Bool
  | .closeTail | .remove _ | .rename => true
  | _ => false

/-- The operations on files come to their end. -/
def through : Fault → Bool
  | .renameTemp | .closeTail | .remove _ | .rename => false
  | _ => true

variable {fault : Fault} {disk disk₁ disk₂ : Disk} {ebuf content : Bytes} {mark name : FileName}
variable {closes : Prop} [Decidable closes] {blocks : List Block}

theorem writesTemp_of_whole (whole : fault.whole = true) :
    fault.writesTemp disk ebuf = some { disk with temp := some ebuf } := by
  cases fault with
  | openTemp | writeTemp => cases whole
  | _ => rfl

theorem cut_of_mark {paths : List FileName}
    (writes : fault.writesTemp disk ebuf = some { disk with temp := some content })
    (marks : fault ≠ .renameTemp)
    (marked : Disk.apply { disk with temp := some content } (.renameTemp mark) = some disk₁) :
    fault.cut disk ebuf mark name closes paths = fault.cleanup disk₁ mark name closes paths := by
  rw [Fault.cut, writes, Option.bind_some, if_neg marks, marked]

theorem whole_of_stops (stops : fault.stops = true) :
    fault.whole = true ∧ fault ≠ .renameTemp := by
  cases fault with
  | closeTail | remove | rename => exact ⟨rfl, nofun⟩
  | _ => cases stops

/-- Some of the files are removed. -/
theorem cut_of_stops {done : Bool} (stops : fault.stops = true)
    (marked : Disk.apply { disk with temp := some ebuf } (.renameTemp mark) = some disk₁)
    (h : fault.cut disk ebuf mark name closes (names blocks) = some (disk₂, done)) :
    done = false ∧ ∃ i, run Disk.apply disk₁ (removes (blocks.take i)) = some disk₂ := by
  obtain ⟨whole, marks⟩ := whole_of_stops stops
  rw [cut_of_mark (writesTemp_of_whole whole) marks marked] at h
  cases fault with
  | closeTail =>
      obtain ⟨-, same⟩ := Option.ite_none_right_eq_some.mp h
      cases same
      exact ⟨rfl, 0, rfl⟩
  | remove i =>
      obtain ⟨-, removed⟩ := Option.ite_none_right_eq_some.mp h
      obtain ⟨disk', ran, same⟩ := Option.map_eq_some_iff.mp removed
      cases same
      refine ⟨rfl, i, ?_⟩
      rw [← map_remove_names, names, List.map_take]
      exact ran
  | rename =>
      obtain ⟨disk', ran, same⟩ := Option.map_eq_some_iff.mp h
      cases same
      refine ⟨rfl, blocks.length, ?_⟩
      rw [List.take_length, ← map_remove_names]
      exact ran
  | _ => cases stops

theorem cut_of_through (through : fault.through = true)
    (writes : fault.writesTemp disk ebuf = some { disk with temp := some content })
    (marked : Disk.apply { disk with temp := some content } (.renameTemp mark) = some disk₁) :
    fault.cut disk ebuf mark name closes (names blocks) =
      (run Disk.apply disk₁ (removes blocks ++ [FileOp.rename mark name])).map (·, true) := by
  have marks : fault ≠ .renameTemp := by
    rintro rfl
    cases through
  rw [cut_of_mark writes marks marked, ← map_remove_names]
  cases fault with
  | renameTemp | closeTail | remove | rename => cases through
  | _ => rfl

end Fault

section CutFailing

variable {l : Log} {fault : Fault} {disk disk₁ disk₂ : Disk} {ebuf content : Bytes}
variable {mark name : FileName} {closes : Prop} [Decidable closes] {paths : List FileName}
variable {blocks : List Block} {finish : Disk → Option (Log × Outcome)} {r : Log × Disk × Outcome}
variable {a a' : IndexedLog Data}

/-- Another content of `TEMP` does not matter. -/
theorem Shows.retemp (h : Shows l disk a) (temp : Option Bytes) :
    Shows l { disk with temp := temp } a := by
  obtain ⟨front, tail, holds, first, entries⟩ := h
  exact ⟨front, tail, { holds with files := holds.files }, first, entries⟩

/-- `TEMP` is not renamed. -/
theorem cutFailing_unmarked (h : Shows l disk a)
    (fails : fault = .renameTemp ∨ fault = .openTemp ∧ disk.temp = none)
    (failed : l.cutFailing disk fault ebuf mark name closes paths finish = some r) :
    Contained a a' r := by
  rcases fails with rfl | ⟨rfl, temp⟩
  · cases failed
    exact .inl (h.retemp _)
  · have cut : Fault.openTemp.cut disk ebuf mark name closes paths = some (disk, false) := by
      rw [Fault.cut, Fault.writesTemp, Option.bind_some, if_neg nofun, Disk.apply, temp]
      rfl
    rw [Log.cutFailing, cut] at failed
    cases failed
    exact .inl h

theorem cutFailing_stopped (stops : fault.stops = true)
    (marked : Disk.apply { disk with temp := some ebuf } (.renameTemp mark) = some disk₁)
    (failed : l.cutFailing disk fault ebuf mark name closes (names blocks) finish = some r) :
    ∃ i disk₂, r = (l, disk₂, .error) ∧
      run Disk.apply disk₁ (removes (blocks.take i)) = some disk₂ := by
  obtain ⟨⟨disk₂, done⟩, cut, same⟩ := Option.bind_eq_some_iff.mp failed
  obtain ⟨rfl, i, ran⟩ := Fault.cut_of_stops stops marked cut
  cases same
  exact ⟨i, disk₂, rfl, ran⟩

theorem cutFailing_through (through : fault.through = true)
    (writes : fault.writesTemp disk ebuf = some { disk with temp := some content })
    (marked : Disk.apply { disk with temp := some content } (.renameTemp mark) = some disk₁)
    (ran : run Disk.apply disk₁ (removes blocks ++ [FileOp.rename mark name]) = some disk₂)
    (failed : l.cutFailing disk fault ebuf mark name closes (names blocks) finish = some r) :
    ∃ l' outcome, r = (l', disk₂, outcome) ∧ finish disk₂ = some (l', outcome) := by
  rw [Log.cutFailing, Fault.cut_of_through through writes marked, ran, Option.map_some,
    Option.bind_some] at failed
  obtain ⟨⟨l', outcome⟩, finished, same⟩ := Option.map_eq_some_iff.mp failed
  exact ⟨l', outcome, same.symm, finished⟩

/-- A write that fails is not complete. -/
theorem written_lt {written : Nat}
    (failed : l.cutFailing disk (.writeTemp written) ebuf mark name closes paths finish = some r) :
    written < ebuf.length := by
  by_contra complete
  rw [Log.cutFailing, Fault.cut, Fault.writesTemp, if_neg complete] at failed
  cases failed

end CutFailing

end RaftKv.Wal
