import RaftKv.Library.Chunks
import RaftKv.Library.Framing
import RaftKv.Library.Run
import RaftKv.Library.Storage
import Mathlib.Logic.Function.Basic
import Mathlib.Order.Basic
import Mathlib.Order.Nat

/-!
# The write-ahead log

A log is a directory of segment files and the `Log` in memory that writes them. The
entries of a segment may be in memory too, in the buffer `ebuf` with their positions
`epos`: those of the tail always are, and those of the others as long as the cache keeps
the segment. The cache is keyed by the position in `segments`, and it shares its segments
with that list, so that pointers to segments are modelled as numbers with a heap.

An I/O error, a file that cannot be parsed and a panic end an operation with `none`. The
log format is `Binary`. Synchronisation, permissions, `NoCopy` and the JSON format are
left out, and a batch is the list of its entries instead of their concatenation.
-/

namespace RaftKv.Wal

open Library

abbrev Bytes := List UInt8

/-- A slice of bytes, whose length is an `int`. -/
abbrev Data := { bytes : Bytes // bytes.length < 2 ^ 63 }

/-! ### The binary format -/

/-- `appendBinaryEntry` appends this to the buffer. -/
def binaryEntry (data : Data) : Bytes := putUvarint 9 data.val.length ++ data.val

/-- The length of the first entry, or `none` for `ErrCorrupt`. -/
def loadNextBinaryEntry (data : Bytes) : Option Nat :=
  (uvarint 0 0 data).bind fun header =>
    if data.length - header.2 < header.1 then none else some (header.2 + header.1)

/-- The end of `Read`. -/
def readBinary (edata : Bytes) : Option Bytes :=
  (uvarint 0 0 edata).bind fun header =>
    if edata.length - header.2 < header.1 then none
    else some ((edata.drop header.2).take header.1)

/-- The header of an entry is read, whatever follows. -/
theorem uvarint_binaryEntry (data : Data) (rest : Bytes) :
    uvarint 0 0 (binaryEntry data ++ rest) =
      some (data.val.length, (putUvarint 9 data.val.length).length) := by
  have bound : data.val.length < 2 ^ (7 * 9 + 1) := Nat.lt_trans data.property (by decide)
  rw [binaryEntry, List.append_assoc, uvarint_putUvarint (by decide) bound]
  simp

theorem readBinary_binaryEntry (data : Data) : readBinary (binaryEntry data) = some data.val := by
  have header := uvarint_binaryEntry data []
  rw [List.append_nil] at header
  rw [readBinary, header, Option.bind_some, binaryEntry, List.drop_left, List.length_append,
    Nat.add_sub_cancel_left, if_neg (Nat.lt_irrefl _), List.take_length]

/-- The framing of a segment file. -/
def binary : Framing Data UInt8 where
  encode := binaryEntry
  next := loadNextBinaryEntry
  encode_ne_nil data := by
    rw [binaryEntry]
    exact List.append_ne_nil_of_left_ne_nil (putUvarint_ne_nil _ _) _
  next_encode data rest := by
    rw [loadNextBinaryEntry, uvarint_binaryEntry, Option.bind_some, binaryEntry, if_neg,
      List.length_append]
    simp only [List.length_append]
    omega

/-! ### Files -/

/-- The suffix of a file name, in the order of the names. -/
inductive Suffix where
  | none
  | END
  | START
  deriving DecidableEq, Repr

/-- Twenty digits and a suffix. -/
structure FileName where
  index : Nat
  suffix : Suffix := .none
  deriving DecidableEq, Repr

namespace FileName

/-- Numbers of a fixed width are ordered like the names. -/
def rank (n : FileName) : Nat :=
  3 * n.index +
    match n.suffix with
    | .none => 0
    | .END => 1
    | .START => 2

theorem rank_injective : Function.Injective rank := by
  rintro ⟨i, s⟩ ⟨j, t⟩ h
  cases s <;> cases t <;> simp only [rank] at h <;>
    first
      | (obtain rfl : i = j := by omega
         rfl)
      | omega

instance : LinearOrder FileName := LinearOrder.lift' rank rank_injective

theorem lt_iff {m n : FileName} : m < n ↔ m.rank < n.rank := Iff.rfl

end FileName

def segmentName (index : Nat) : FileName := { index := index }

/-- The directory of a log. The file `TEMP` is none of those that `load` looks at. -/
structure Disk where
  files : Directory FileName Bytes := []
  temp : Option Bytes := none

/-- The operations on files. `writeTemp` is the whole of creating, writing and syncing
`TEMP`. -/
inductive FileOp where
  | writeTemp (content : Bytes)
  | renameTemp (name : FileName)
  | create (name : FileName)
  | append (name : FileName) (bytes : Bytes)
  | remove (name : FileName)
  | rename (old new : FileName)

def Disk.apply (disk : Disk) : FileOp → Option Disk
  | .writeTemp content => some { disk with temp := some content }
  | .renameTemp name =>
      disk.temp.map fun content => { files := disk.files.write name content, temp := none }
  | .create name => some { disk with files := disk.files.write name [] }
  | .append name bytes =>
      (disk.files.read name).map fun content =>
        { disk with files := disk.files.write name (content ++ bytes) }
  | .remove name => (disk.files.remove name).map ({ disk with files := · })
  | .rename old new => (disk.files.rename old new).map ({ disk with files := · })

/-! ### The log in memory -/

structure Segment where
  path : FileName
  index : Nat
  ebuf : Bytes := []
  epos : List (Nat × Nat) := []

/-- `s.ebuf = nil` and `s.epos = nil`. -/
def Segment.unload (s : Segment) : Segment := { s with ebuf := [], epos := [] }

/-- `appendEntry`, with the new position. -/
def Segment.appendEntry (s : Segment) (data : Data) : Segment :=
  { s with
    ebuf := s.ebuf ++ binaryEntry data
    epos := s.epos ++ [(s.ebuf.length, (s.ebuf ++ binaryEntry data).length)] }

/-- `loadSegmentEntries`. A file that cannot be read is not an error. -/
def loadSegmentEntries (disk : Disk) (s : Segment) : Option Segment :=
  match disk.files.read s.path with
  | none => some s
  | some data => (binary.scan data.length 0 data).map fun epos =>
      { s with ebuf := data, epos := epos }

/-- `Open` replaces sizes that are not positive by the default ones. -/
structure Options where
  segmentSize : Nat
  segmentCacheSize : Nat
  segmentSize_pos : 0 < segmentSize
  segmentCacheSize_pos : 0 < segmentCacheSize

/-- A pointer to a segment is its number in `heap`, where `next` is the next free one. -/
structure Log where
  opts : Options
  closed : Bool := false
  corrupt : Bool := false
  heap : Nat → Segment
  next : Nat
  segments : List Nat
  firstIndex : Nat
  lastIndex : Nat
  sfile : FileName
  scache : Lru Nat Nat

inductive Err where
  | corrupt
  | closed
  | notFound
  | outOfRange
  | outOfOrder (need got : Nat)
  deriving DecidableEq, Repr

/-- What an operation returns. -/
inductive Result where
  | ok
  | data (bytes : Bytes)
  | error (err : Err)
  deriving DecidableEq, Repr

namespace Log

def set (l : Log) (p : Nat) (s : Segment) : Log := { l with heap := Function.update l.heap p s }

def findSegment (l : Log) (index : Nat) : Option Nat :=
  match bisect (fun h => l.segments[h]?.any fun p => (l.heap p).index ≤ index)
      l.segments.length 0 l.segments.length with
  | 0 => none
  | i + 1 => some i

/-- A segment that is evicted loses its entries. -/
def evict (heap : Nat → Segment) : Option Nat → Nat → Segment
  | none => heap
  | some v => Function.update heap v (heap v).unload

def pushCache (l : Log) (segIdx : Nat) : Option Log :=
  l.segments[segIdx]?.map fun p =>
    { l with
      heap := evict l.heap (l.scache.setEvicted segIdx p).2
      scache := (l.scache.setEvicted segIdx p).1 }

/-- The part of `loadSegment` that looks at the most recent segment of the cache. -/
def recent (l : Log) (index : Nat) : Option Nat :=
  l.scache.newest.bind fun p =>
    if (l.heap p).index ≤ index ∧ index < (l.heap p).index + (l.heap p).epos.length then some p
    else none

/-- The part of `loadSegment` that looks for the segment in the list. -/
def searchSegment (l : Log) (disk : Disk) (index : Nat) : Option (Log × Nat) :=
  (l.findSegment index).bind fun idx =>
    l.segments[idx]?.bind fun p =>
      (if (l.heap p).epos = [] then (loadSegmentEntries disk (l.heap p)).map (l.set p)
        else some l).bind fun l =>
          (l.pushCache idx).map fun l => (l, p)

def loadSegment (l : Log) (disk : Disk) (index : Nat) : Option (Log × Nat) :=
  l.segments.getLast?.bind fun lseg =>
    if (l.heap lseg).index ≤ index then some (l, lseg)
    else
      match l.recent index with
      | some p => some (l, p)
      | none => l.searchSegment disk index

/-- The position of an entry in its segment. -/
def entryPos (s : Segment) (index : Nat) : Option (Nat × Nat) :=
  if s.index ≤ index then s.epos[index - s.index]? else none

def read (l : Log) (disk : Disk) (index : Nat) : Option (Log × Result) :=
  if l.corrupt ∨ l.closed then some (l, .error .corrupt)
  else if index = 0 ∨ index < l.firstIndex ∨ l.lastIndex < index then
    some (l, .error .notFound)
  else
    (l.loadSegment disk index).bind fun loaded =>
      (entryPos (loaded.1.heap loaded.2) index).bind fun epos =>
        (readBinary (((loaded.1.heap loaded.2).ebuf.take epos.2).drop epos.1)).map fun data =>
          (loaded.1, .data data)

/-- `clearCache`: the segments of the cache lose their entries. -/
def clearCache (l : Log) : Log :=
  { l with
    heap := fun p => if p ∈ l.scache.values then (l.heap p).unload else l.heap p
    scache := { size := l.opts.segmentCacheSize } }

/-! ### Writing -/

/-- A new segment behind the last index becomes the tail. -/
def cycle (l : Log) (disk : Disk) : Option (Log × Disk) :=
  (l.pushCache (l.segments.length - 1)).bind fun l =>
    let s : Segment := { path := segmentName (l.lastIndex + 1), index := l.lastIndex + 1 }
    (disk.apply (.create s.path)).map fun disk =>
      ({ l.set l.next s with
          next := l.next + 1, segments := l.segments ++ [l.next], sfile := s.path }, disk)

/-- The first index of a batch that is not the one after `lastIndex`, with the one that it
should be. -/
def misplaced : Nat → List (Nat × Data) → Option (Nat × Nat)
  | _, [] => none
  | lastIndex, (index, _) :: rest =>
      if index ≠ lastIndex + 1 then some (lastIndex + 1, index) else misplaced (lastIndex + 1) rest

/-- The loop of `writeBatch`, with the tail `s` and the length `mark` of its file. -/
def writeEntries (l : Log) (disk : Disk) (s mark : Nat) :
    List (Nat × Data) → Option (Log × Disk × Nat × Nat)
  | [] => some (l, disk, s, mark)
  | (index, data) :: rest =>
      let l := l.set s ((l.heap s).appendEntry data)
      if l.opts.segmentSize ≤ (l.heap s).ebuf.length then
        (disk.apply (.append l.sfile ((l.heap s).ebuf.drop mark))).bind fun disk =>
          ({ l with lastIndex := index }.cycle disk).bind fun cycled =>
            cycled.1.segments.getLast?.bind fun s =>
              writeEntries cycled.1 cycled.2 s 0 rest
      else writeEntries l disk s mark rest

/-- The end of `writeBatch`: what the loop has left in memory is written. -/
def flush (l : Log) (disk : Disk) (s mark lastIndex : Nat) : Option (Log × Disk) :=
  if 0 < (l.heap s).ebuf.length - mark then
    (disk.apply (.append l.sfile ((l.heap s).ebuf.drop mark))).map fun disk =>
      ({ l with lastIndex := lastIndex }, disk)
  else some (l, disk)

/-- The start of `writeBatch`: a tail that is too long is closed. -/
def prepareTail (l : Log) (disk : Disk) : Option (Log × Disk) :=
  l.segments.getLast?.bind fun s =>
    if l.opts.segmentSize < (l.heap s).ebuf.length then l.cycle disk else some (l, disk)

def writeBatch (l : Log) (disk : Disk) (b : List (Nat × Data)) : Option (Log × Disk × Result) :=
  match misplaced l.lastIndex b with
  | some (need, got) => some (l, disk, .error (.outOfOrder need got))
  | none =>
      (l.prepareTail disk).bind fun (l, disk) =>
        l.segments.getLast?.bind fun s =>
          (l.writeEntries disk s (l.heap s).ebuf.length b).bind fun (l, disk, s, mark) =>
            b.getLast?.bind fun last =>
              (l.flush disk s mark last.1).map fun (l, disk) => (l, disk, .ok)

/-! ### Cutting -/

/-- `truncateFront` up to its file operations: the position and the pointer of the segment
of `index`, and what is kept of it. -/
def prepareFront (l : Log) (disk : Disk) (index : Nat) : Option (Log × Nat × Nat × Bytes) :=
  (l.findSegment index).bind fun segIdx =>
    (l.loadSegment disk index).bind fun (l, p) =>
      (entryPos (l.heap p) index).map fun epos => (l, segIdx, p, (l.heap p).ebuf.drop epos.1)

/-- The file operations of `truncateFront`. -/
def frontOps (l : Log) (segIdx index : Nat) (ebuf : Bytes) : List FileOp :=
  [.writeTemp ebuf, .renameTemp ⟨index, .START⟩] ++
    (l.segments.take (segIdx + 1)).map (fun p => .remove (l.heap p).path) ++
    [.rename ⟨index, .START⟩ (segmentName index)]

/-- `truncateFront` after its file operations. If the segment is the tail, its file is
opened again and has to have the right length. -/
def finishFront (l : Log) (disk : Disk) (segIdx p index : Nat) (ebuf : Bytes) : Option Log :=
  let s : Segment := { l.heap p with path := segmentName index, index := index }
  (if segIdx = l.segments.length - 1 then
      (disk.files.read (segmentName index)).bind fun content =>
        if content.length = ebuf.length then
          (loadSegmentEntries disk s).map fun s =>
            { l.set p s with sfile := segmentName index }
        else none
    else some (l.set p s)).map fun l =>
      { l with segments := l.segments.drop segIdx, firstIndex := index }.clearCache

def truncateFront (l : Log) (disk : Disk) (index : Nat) : Option (Log × Disk × Result) :=
  if index = 0 ∨ l.lastIndex = 0 ∨ index < l.firstIndex ∨ l.lastIndex < index then
    some (l, disk, .error .outOfRange)
  else if index = l.firstIndex then some (l, disk, .ok)
  else
    (l.prepareFront disk index).bind fun (l, segIdx, p, ebuf) =>
      (run Disk.apply disk (l.frontOps segIdx index ebuf)).bind fun disk =>
        (l.finishFront disk segIdx p index ebuf).map fun l => (l, disk, .ok)

/-- `truncateBack` up to its file operations. -/
def prepareBack (l : Log) (disk : Disk) (index : Nat) : Option (Log × Nat × Nat × Bytes) :=
  (l.findSegment index).bind fun segIdx =>
    (l.loadSegment disk index).bind fun (l, p) =>
      (entryPos (l.heap p) index).map fun epos => (l, segIdx, p, (l.heap p).ebuf.take epos.2)

/-- The file operations of `truncateBack`. -/
def backOps (l : Log) (segIdx p : Nat) (ebuf : Bytes) : List FileOp :=
  [.writeTemp ebuf, .renameTemp ⟨(l.heap p).index, .END⟩] ++
    (l.segments.drop segIdx).map (fun p => .remove (l.heap p).path) ++
    [.rename ⟨(l.heap p).index, .END⟩ (segmentName (l.heap p).index)]

/-- `truncateBack` after its file operations. The cache is cleared before the entries of
the new tail are read again. -/
def finishBack (l : Log) (disk : Disk) (segIdx p index : Nat) (ebuf : Bytes) : Option Log :=
  let name := segmentName (l.heap p).index
  (disk.files.read name).bind fun content =>
    if content.length = ebuf.length then
      let l := clearCache { l.set p { l.heap p with path := name } with
        sfile := name, segments := l.segments.take (segIdx + 1), lastIndex := index }
      (loadSegmentEntries disk (l.heap p)).map (l.set p)
    else none

def truncateBack (l : Log) (disk : Disk) (index : Nat) : Option (Log × Disk × Result) :=
  if index = 0 ∨ l.lastIndex = 0 ∨ index < l.firstIndex ∨ l.lastIndex < index then
    some (l, disk, .error .outOfRange)
  else if index = l.lastIndex then some (l, disk, .ok)
  else
    (l.prepareBack disk index).bind fun (l, segIdx, p, ebuf) =>
      (run Disk.apply disk (l.backOps segIdx p ebuf)).bind fun disk =>
        (l.finishBack disk segIdx p index ebuf).map fun l => (l, disk, .ok)

end Log

/-! ### Opening -/

/-- The position of the last `START` file, from position `k` on. -/
def lastStart : Nat → List FileName → Option Nat
  | _, [] => none
  | k, n :: rest =>
      match lastStart (k + 1) rest with
      | some i => some i
      | none => if n.suffix = .START then some k else none

/-- The position of the first `END` file. -/
def firstEnd (names : List FileName) : Option Nat := names.findIdx? (·.suffix = .END)

/-- The cleaning up of `load`: the operations on the files and the segments that stay, or
`none` for `ErrCorrupt`. -/
def recover (names : List FileName) : Option (List FileOp × List FileName) :=
  match lastStart 0 names, firstEnd names with
  | some _, some _ => none
  | some startIdx, none =>
      match names.drop startIdx with
      | [] => none
      | start :: rest =>
          some ((names.take startIdx).map .remove ++ [.rename start (segmentName start.index)],
            segmentName start.index :: rest)
  | none, some endIdx =>
      (names.take (endIdx + 1)).getLast?.map fun last =>
        let front := (names.take (endIdx + 1)).dropLast
        ((names.drop (endIdx + 1)).reverse.map .remove ++
            [.rename last (segmentName last.index)],
          -- the segment before `END` shares its index and is replaced by the renamed file
          (if front.getLast?.any (·.index = last.index) then front.dropLast else front) ++
            [segmentName last.index])
  | none, none => some ([], names)

/-- What `ReadDir` gives to `load`. -/
def Disk.names (disk : Disk) : List FileName :=
  (disk.files.map Prod.fst).filter (·.index ≠ 0)

/-- The end of `load`: the last segment is opened for appending and its entries are read. -/
def ofSegments (opts : Options) (disk : Disk) (names : List FileName) : Option Log :=
  names.head?.bind fun first =>
    names.getLast?.bind fun last =>
      (disk.files.read last).bind fun _ =>
      (loadSegmentEntries disk { path := last, index := last.index }).map fun lseg =>
        { opts := opts
          heap := fun p =>
            if p + 1 = names.length then lseg
            else
              let name := names.getD p last
              { path := name, index := name.index }
          next := names.length
          segments := List.range names.length
          firstIndex := first.index
          lastIndex := last.index + lseg.epos.length - 1
          sfile := last
          scache := { size := opts.segmentCacheSize } }

/-- `Open` with its `load`. -/
def openLog (opts : Options) (disk : Disk) : Option (Log × Disk) :=
  match disk.names with
  | [] =>
      (disk.apply (.create (segmentName 1))).map fun disk =>
        ({ opts := opts
           heap := fun _ => { path := segmentName 1, index := 1 }
           next := 1, segments := [0], firstIndex := 1, lastIndex := 0
           sfile := segmentName 1, scache := { size := opts.segmentCacheSize } }, disk)
  | names =>
      (recover names).bind fun (ops, names) =>
        (run Disk.apply disk ops).bind fun disk =>
          (ofSegments opts disk names).map fun l => (l, disk)

/-! ### Operations -/

/-- The exported operations, and `Close` followed by `Open` with some options. -/
inductive Operation where
  | write (index : Nat) (data : Data)
  | writeBatch (b : List (Nat × Data))
  | read (index : Nat)
  | truncateFront (index : Nat)
  | truncateBack (index : Nat)
  | clearCache
  | reopen (opts : Options)

namespace Log

/-- `corrupt` and `closed` are looked at first. -/
def guarded (l : Log) (disk : Disk) (body : Option (Log × Disk × Result)) :
    Option (Log × Disk × Result) :=
  if l.corrupt then some (l, disk, .error .corrupt)
  else if l.closed then some (l, disk, .error .closed)
  else body

def perform (l : Log) (disk : Disk) : Operation → Option (Log × Disk × Result)
  | .write index data => l.guarded disk (l.writeBatch disk [(index, data)])
  | .writeBatch b =>
      l.guarded disk (if b = [] then some (l, disk, .ok) else l.writeBatch disk b)
  | .read index => (l.read disk index).map fun (l, result) => (l, disk, result)
  | .truncateFront index => l.guarded disk (l.truncateFront disk index)
  | .truncateBack index => l.guarded disk (l.truncateBack disk index)
  | .clearCache => l.guarded disk (some (l.clearCache, disk, .ok))
  | .reopen opts =>
      l.guarded disk ((openLog opts disk).map fun (l, disk) => (l, disk, .ok))

end Log

end RaftKv.Wal
