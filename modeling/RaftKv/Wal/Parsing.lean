import RaftKv.Library.Rounds
import RaftKv.Library.Uvarint
import RaftKv.Wal.Basic
import Mathlib.Data.List.Forall2

/-!
# Parsing a segment in machine arithmetic

The functions of the binary format once more, now with the types of the program: a length
or a position is an `int` of 64 bits, the size in front of an entry is a `uint64`, and
they are converted into each other before they are compared and added. Indexing out of
range is a panic. The loop of `loadSegmentEntries` may go on for ever as far as its
definition is concerned.

On slices these functions agree with those of the model in numbers, and nothing overflows.
-/

namespace RaftKv.Wal.Machine

open Library

/-! ### Slices -/

def len (data : Data) : Int64 := Int64.ofNat data.val.length

/-- `data[lo:hi]`. -/
def slice (data : Data) (lo hi : Int64) : Option Data :=
  if 0 ≤ lo ∧ lo ≤ hi ∧ hi ≤ len data then
    some ⟨(data.val.take hi.toNatClampNeg).drop lo.toNatClampNeg,
      Nat.lt_of_le_of_lt (((List.drop_sublist _ _).trans (List.take_sublist _ _)).length_le)
        data.property⟩
  else none

/-- `append(dst, bytes...)`. -/
def append (dst : Data) (bytes : Bytes) : Option Data :=
  if h : (dst.val ++ bytes).length < 2 ^ 63 then some ⟨dst.val ++ bytes, h⟩ else none

/-! ### Writing an entry -/

def appendUvarint (dst : Data) (x : UInt64) : Option Data :=
  (putUvarint64 10 x).bind (append dst)

/-- The new buffer, and the position of the entry in it. -/
def appendBinaryEntry (dst data : Data) : Option (Data × Int64 × Int64) :=
  (appendUvarint dst (len data).toUInt64).bind fun out =>
    (append out data.val).map fun out => (out, len dst, len out)

/-- The entries are appended one after another. -/
def appendEntries (dst : Data) : List Data → Option Data
  | [] => some dst
  | data :: rest => (appendBinaryEntry dst data).bind fun p => appendEntries p.1 rest

/-! ### Parsing -/

/-- The length of the first entry, or `none` for `ErrCorrupt`. -/
def loadNextBinaryEntry (data : Data) : Option Int64 :=
  let (size, n) := uvarint64 0 0 0 data.val
  if n ≤ 0 then none
  else if (len data - n).toUInt64 < size then none
  else some (n + size.toInt64)

/-- The fields of a segment that `loadSegmentEntries` assigns. -/
structure Segment where
  ebuf : Data
  epos : List (Int64 × Int64)

/-- The loop of `loadSegmentEntries`; `none` if it takes more rounds than that. -/
def parse : Nat → Data → List (Int64 × Int64) → Int64 → Option (Attempt (List (Int64 × Int64)))
  | 0, _, _, _ => none
  | rounds + 1, data, epos, pos =>
      if 0 < len data then
        match loadNextBinaryEntry data with
        | none => some .error
        | some n =>
            match slice data n (len data) with
            | none => some .panic
            | some data => parse rounds data (epos ++ [(pos, pos + n)]) (pos + n)
      else some (.value epos)

/-- How `loadSegmentEntries` ends. -/
inductive Loaded where
  | returned (s : Segment) (err : Option Err)
  | panic

/-- `loadSegmentEntries` of a segment whose file has these contents, or cannot be read. -/
def loadSegmentEntries (rounds : Nat) (file : Option Data) (s : Segment) : Option Loaded :=
  match file with
  | none => some (.returned s none)
  | some data =>
      (parse rounds data [] 0).map fun
        | .value epos => .returned { ebuf := data, epos := epos } none
        | .error => .returned s (some .corrupt)
        | .panic => .panic

/-- `make([]byte, size)` and `copy`. -/
def copied (size : UInt64) (src : Data) : Option Data :=
  if h : size.toNat < 2 ^ 63 then
    some ⟨src.val.take size.toNat ++ List.replicate (size.toNat - src.val.length) 0, by
      rw [List.length_append, List.length_take, List.length_replicate]
      omega⟩
  else none

/-- The end of `Read`. -/
def readEntry (noCopy : Bool) (edata : Data) : Attempt Data :=
  let (size, n) := uvarint64 0 0 0 edata.val
  if n ≤ 0 then .error
  else if (len edata - n).toUInt64 < size then .error
  else if noCopy then .forced (slice edata n (n.toUInt64 + size).toInt64)
  else .forced ((slice edata n (len edata)).bind (copied size))

/-! ### Slices and lists -/

section Slices

variable (data : Data) {a b : Nat}

theorem toNatClampNeg_ofNat (h : a < 2 ^ 63) : (Int64.ofNat a).toNatClampNeg = a := by
  rw [Int64.toNatClampNeg, Int64.toInt_ofNat_of_lt h, Int.toNat_natCast]

theorem toNat_len : (len data).toUInt64.toNat = data.val.length := by
  have bound := data.property
  rw [len, Int64.toUInt64_ofNat', UInt64.toNat_ofNat']
  omega

theorem slice_ofNat (hab : a ≤ b) (hb : b ≤ data.val.length) :
    ∃ piece : Data, slice data (Int64.ofNat a) (Int64.ofNat b) = some piece ∧
      piece.val = (data.val.take b).drop a := by
  have bound := data.property
  have fits : 0 ≤ Int64.ofNat a ∧ Int64.ofNat a ≤ Int64.ofNat b ∧ Int64.ofNat b ≤ len data :=
    ⟨(Int64.ofNat_le_iff_le (by decide) (by omega)).mpr (Nat.zero_le a),
      (Int64.ofNat_le_iff_le (by omega) (by omega)).mpr hab,
      (Int64.ofNat_le_iff_le (by omega) bound).mpr hb⟩
  refine ⟨_, if_pos fits, ?_⟩
  dsimp only
  rw [toNatClampNeg_ofNat (by omega), toNatClampNeg_ofNat (by omega)]

theorem slice_to_end (ha : a ≤ data.val.length) :
    ∃ rest : Data, slice data (Int64.ofNat a) (len data) = some rest ∧
      rest.val = data.val.drop a := by
  obtain ⟨rest, cut, same⟩ := slice_ofNat data ha (Nat.le_refl data.val.length)
  rw [List.take_length] at same
  exact ⟨rest, cut, same⟩

end Slices

/-! ### Headers -/

/-- The tests on a header in machine arithmetic are those on the numbers. -/
theorem header_iff {data : Data} {size n : Nat} (h : uvarint 0 0 data.val = some (size, n)) :
    0 < n ∧ n ≤ data.val.length ∧
      uvarint64 0 0 0 data.val = (UInt64.ofNat size, Int64.ofNat n) ∧ ¬ Int64.ofNat n ≤ 0 ∧
      ((len data - Int64.ofNat n).toUInt64 < UInt64.ofNat size ↔ data.val.length - n < size) := by
  have bound := data.property
  obtain ⟨positive, inside, -⟩ := uvarint_append h []
  rw [Nat.zero_add] at inside
  obtain ⟨same, word⟩ := uvarint64_of_some h
  refine ⟨positive, inside, same, ?_, ?_⟩
  · rw [show (0 : Int64) = Int64.ofNat 0 from rfl,
      Int64.ofNat_le_iff_le (by omega) (by decide)]
    omega
  · rw [len, ← Int64.ofNat_sub _ _ inside, Int64.toUInt64_ofNat', UInt64.lt_iff_toNat_lt,
      UInt64.toNat_ofNat', UInt64.toNat_ofNat', Nat.mod_eq_of_lt word,
      Nat.mod_eq_of_lt (by omega)]

theorem loadNextBinaryEntry_eq (data : Data) :
    loadNextBinaryEntry data = (Wal.loadNextBinaryEntry data.val).map Int64.ofNat := by
  unfold loadNextBinaryEntry Wal.loadNextBinaryEntry
  cases h : uvarint 0 0 data.val with
  | none => exact if_pos (uvarint64_of_none h)
  | some header =>
      obtain ⟨size, n⟩ := header
      obtain ⟨-, -, same, positive, larger⟩ := header_iff h
      rw [same, Option.bind_some]
      dsimp only
      rw [if_neg positive]
      by_cases cut : data.val.length - n < size
      · rw [if_pos cut, if_pos (larger.mpr cut)]
        rfl
      · rw [if_neg cut, if_neg (cut ∘ larger.mp), UInt64.toInt64_ofNat', ← Int64.ofNat_add]
        rfl

/-- The end of `Read` returns what the model in numbers returns, with and without a copy. -/
theorem readEntry_of_readBinary {edata : Data} {bytes : Bytes}
    (h : readBinary edata.val = some bytes) (noCopy : Bool) :
    ∃ payload : Data, payload.val = bytes ∧ readEntry noCopy edata = .value payload := by
  have bound := edata.property
  obtain ⟨⟨size, n⟩, header, h⟩ := Option.bind_eq_some_iff.mp h
  obtain ⟨-, inside, same, positive, larger⟩ := header_iff header
  obtain ⟨fits, same'⟩ := Option.ite_none_left_eq_some.mp h
  cases same'
  dsimp only at fits
  unfold readEntry
  rw [same]
  dsimp only
  rw [if_neg positive, if_neg (fits ∘ larger.mp)]
  cases noCopy with
  | true =>
      obtain ⟨payload, cut, value⟩ := slice_ofNat edata (Nat.le_add_right n size)
        (by omega)
      rw [if_pos rfl, Int64.toUInt64_ofNat', ← UInt64.ofNat_add, UInt64.toInt64_ofNat', cut]
      refine ⟨payload, ?_, rfl⟩
      rw [value, List.drop_take, Nat.add_sub_cancel_left]
  | false =>
      obtain ⟨rest, cut, value⟩ := slice_to_end edata inside
      have small : (UInt64.ofNat size).toNat = size := by
        rw [UInt64.toNat_ofNat']
        omega
      have length : rest.val.length = edata.val.length - n := by rw [value, List.length_drop]
      rw [if_neg Bool.false_ne_true, cut, Option.bind_some, copied, dif_pos (by omega)]
      refine ⟨_, ?_, rfl⟩
      dsimp only
      rw [small, length, Nat.sub_eq_zero_of_le (by omega), List.replicate_zero, List.append_nil,
        value]

/-! ### Entries -/

/-- An entry is found by its own bytes, and they are what its header says. -/
theorem binary_definite : binary.Definite := by
  intro data n h
  obtain ⟨⟨size, k⟩, header, h⟩ := Option.bind_eq_some_iff.mp h
  obtain ⟨fits, same⟩ := Option.ite_none_left_eq_some.mp h
  cases same
  dsimp only at fits ⊢
  obtain ⟨positive, inside, -⟩ := uvarint_append header []
  have length : (data.take (k + size)).length = k + size :=
    List.length_take_of_le (by omega)
  have alone := uvarint_take (m := k + size) header (by omega)
  refine ⟨by omega, by omega, ?_⟩
  change Wal.loadNextBinaryEntry _ = _
  rw [Wal.loadNextBinaryEntry, alone, Option.bind_some, if_neg]
  dsimp only
  omega

/-- The whole of `edata` is one entry. -/
theorem readBinary_of_next {edata : Bytes} (h : binary.next edata = some edata.length) :
    ∃ size n, uvarint 0 0 edata = some (size, n) ∧ n + size = edata.length ∧
      readBinary edata = some (edata.drop n) := by
  obtain ⟨⟨size, n⟩, header, h⟩ := Option.bind_eq_some_iff.mp h
  obtain ⟨fits, whole⟩ := Option.ite_none_left_eq_some.mp h
  rw [Option.some.injEq] at whole
  dsimp only at fits whole
  refine ⟨size, n, header, whole, ?_⟩
  rw [readBinary, header, Option.bind_some, if_neg fits]
  dsimp only
  rw [List.take_of_length_le]
  rw [List.length_drop]
  omega

theorem parse_nil {rounds : Nat} {data : Data} (some_round : 0 < rounds) (empty : data.val = [])
    (epos : List (Int64 × Int64)) (pos : Int64) :
    parse rounds data epos pos = some (.value epos) := by
  obtain ⟨rounds, rfl⟩ : ∃ k, rounds = k + 1 := ⟨rounds - 1, by omega⟩
  have done : ¬ 0 < len data := by
    rw [len, empty]
    decide
  rw [parse, if_neg done]

theorem len_pos {data : Data} (more : data.val ≠ []) : 0 < len data :=
  (Int64.ofNat_lt_iff_lt (by decide) data.property).mpr (List.length_pos_iff.mpr more)

theorem parse_corrupt {data : Data} (more : data.val ≠ [])
    (corrupt : Wal.loadNextBinaryEntry data.val = none) (rounds : Nat)
    (epos : List (Int64 × Int64)) (pos : Int64) :
    parse (rounds + 1) data epos pos = some .error := by
  rw [parse, if_pos (len_pos more), loadNextBinaryEntry_eq, corrupt, Option.map_none]

/-- The loop goes on behind the entry that it has found. -/
theorem parse_entry {data : Data} {n : Nat} (more : data.val ≠ [])
    (found : Wal.loadNextBinaryEntry data.val = some n) (rounds : Nat)
    (epos : List (Int64 × Int64)) (pos : Nat) :
    ∃ left : Data, left.val = data.val.drop n ∧
      parse (rounds + 1) data epos (Int64.ofNat pos) =
        parse rounds left (epos ++ [(Int64.ofNat pos, Int64.ofNat (pos + n))])
          (Int64.ofNat (pos + n)) := by
  obtain ⟨left, cut, value⟩ := slice_to_end data (binary_definite found).2.1
  refine ⟨left, value, ?_⟩
  rw [parse, if_pos (len_pos more), loadNextBinaryEntry_eq, found, Option.map_some]
  dsimp only
  rw [cut, Int64.ofNat_add]

/-- The loop has an end. It goes through the records of the scan in numbers. -/
theorem parse_eq {rounds fuel : Nat} {data : Data} (some_round : data.val.length < rounds)
    (enough : data.val.length ≤ fuel) (epos : List (Int64 × Int64)) (pos : Nat) :
    parse rounds data epos (Int64.ofNat pos) =
      some (.checked ((binary.scan fuel pos data.val).map fun ps =>
        epos ++ ps.map (Prod.map Int64.ofNat Int64.ofNat))) := by
  induction fuel generalizing rounds data epos pos with
  | zero =>
      have empty : data.val = [] := List.length_eq_zero_iff.mp (Nat.le_zero.mp enough)
      rw [parse_nil (Nat.zero_lt_of_lt some_round) empty, empty, Framing.scan, Option.map_some,
        List.map_nil, List.append_nil]
      rfl
  | succ fuel ih =>
      cases bytes : data.val with
      | nil =>
          rw [parse_nil (Nat.zero_lt_of_lt some_round) bytes, Framing.scan, Option.map_some,
            List.map_nil, List.append_nil]
          rfl
      | cons b rest =>
          have more : data.val ≠ [] := by
            rw [bytes]
            exact List.cons_ne_nil b rest
          obtain ⟨rounds, rfl⟩ : ∃ k, rounds = k + 1 := ⟨rounds - 1, by omega⟩
          rw [Framing.scan, ← bytes]
          change _ = some (Attempt.checked
            (Option.map _ ((Wal.loadNextBinaryEntry data.val).bind _)))
          cases found : Wal.loadNextBinaryEntry data.val with
          | none => exact parse_corrupt more found rounds epos _
          | some n =>
              obtain ⟨positive, inside, -⟩ := binary_definite found
              obtain ⟨left, value, round⟩ := parse_entry more found rounds epos pos
              have length : left.val.length = data.val.length - n := by
                rw [value, List.length_drop]
              rw [round, ih (by omega) (by omega), value, Option.bind_some, Option.map_map]
              congr 2
              refine congrArg (Option.map · _) (funext fun ps => ?_)
              rw [List.append_assoc]
              rfl

theorem loadSegmentEntries_eq {rounds : Nat} {file : Data} (enough : file.val.length < rounds)
    (s : Segment) :
    loadSegmentEntries rounds (some file) s = some
      (match binary.scan file.val.length 0 file.val with
      | none => .returned s (some .corrupt)
      | some ps =>
          .returned { ebuf := file, epos := ps.map (Prod.map Int64.ofNat Int64.ofNat) } none) := by
  have parsed := parse_eq enough (Nat.le_refl _) [] 0
  rw [loadSegmentEntries, show (0 : Int64) = Int64.ofNat 0 from rfl, parsed]
  cases binary.scan file.val.length 0 file.val <;> rfl

/-- The functions with numbers and in machine arithmetic load the same entries. -/
theorem loadSegmentEntries_refines {disk : Disk} {w : Wal.Segment} {file : Data} {rounds : Nat}
    (content : disk.files.read w.path = some file.val) (enough : file.val.length < rounds)
    (s : Segment) :
    loadSegmentEntries rounds (some file) s = some
      (match Wal.loadSegmentEntries disk w with
      | none => .returned s (some .corrupt)
      | some w' =>
          .returned
            { ebuf := file, epos := w'.epos.map (Prod.map Int64.ofNat Int64.ofNat) } none) := by
  rw [loadSegmentEntries_eq enough, Wal.loadSegmentEntries, content]
  dsimp only
  cases binary.scan file.val.length 0 file.val <;> rfl

/-! ### Whole segments -/

/-- `Read` returns this payload for the entry at a position. The sum of the two sizes that
its header stands for, as numbers, is the length of the entry. -/
def Decodes (noCopy : Bool) (ebuf : Data) (p : Int64 × Int64) (payload : Data) : Prop :=
  ∃ edata, slice ebuf p.1 p.2 = some edata ∧ readEntry noCopy edata = .value payload ∧
    (uvarint64 0 0 0 edata.val).2.toInt + (uvarint64 0 0 0 edata.val).1.toNat = edata.val.length ∧
    payload.val.length = (uvarint64 0 0 0 edata.val).1.toNat

theorem decodes_of_next {ebuf : Data} {p : Nat × Nat} (order : p.1 ≤ p.2)
    (inside : p.2 ≤ ebuf.val.length)
    (next : binary.next ((ebuf.val.take p.2).drop p.1) =
      some ((ebuf.val.take p.2).drop p.1).length) (noCopy : Bool) :
    ∃ payload : Data, readBinary ((ebuf.val.take p.2).drop p.1) = some payload.val ∧
      Decodes noCopy ebuf (Prod.map Int64.ofNat Int64.ofNat p) payload := by
  obtain ⟨edata, cut, value⟩ := slice_ofNat ebuf order inside
  rw [← value] at next ⊢
  obtain ⟨size, n, header, whole, read⟩ := readBinary_of_next next
  obtain ⟨payload, same, decoded⟩ := readEntry_of_readBinary read noCopy
  obtain ⟨-, -, words, -, -⟩ := header_iff header
  have bound := edata.property
  have small : (UInt64.ofNat size).toNat = size := by
    rw [UInt64.toNat_ofNat']
    omega
  refine ⟨payload, same ▸ read, edata, cut, decoded, ?_, ?_⟩
  · rw [words, small, Int64.toInt_ofNat_of_lt (by omega)]
    omega
  · rw [words, small, same, List.length_drop]
    omega

/-- An entry that was written is decoded to its payload. -/
theorem decodes_written {ebuf payload : Data} {p : Nat × Nat}
    (piece : (ebuf.val.take p.2).drop p.1 = binaryEntry payload) (inside : p.2 ≤ ebuf.val.length)
    (noCopy : Bool) : Decodes noCopy ebuf (Prod.map Int64.ofNat Int64.ofNat p) payload := by
  have order : p.1 ≤ p.2 := by
    by_contra behind
    refine binary.encode_ne_nil payload (piece.symm.trans (List.drop_of_length_le ?_))
    rw [List.length_take]
    omega
  have next := binary.next_encode payload []
  rw [List.append_nil,
    ← show (ebuf.val.take p.2).drop p.1 = binary.encode payload from piece] at next
  obtain ⟨payload', read, decodes⟩ := decodes_of_next order inside next noCopy
  rw [piece, readBinary_binaryEntry, Option.some.injEq] at read
  rwa [← Subtype.ext read] at decodes

theorem append_eq_some {dst out : Data} {bytes : Bytes} (h : append dst bytes = some out) :
    out.val = dst.val ++ bytes := by
  unfold append at h
  split at h
  · cases h
    rfl
  · cases h

theorem appendUvarint_len (dst data : Data) :
    appendUvarint dst (len data).toUInt64 = append dst (putUvarint 9 data.val.length) := by
  rw [appendUvarint, putUvarint64_eq (n := 9) (UInt64.toNat_lt _), Option.bind_some, toNat_len]

theorem appendBinaryEntry_eq {dst data out : Data} {p : Int64 × Int64}
    (h : appendBinaryEntry dst data = some (out, p)) :
    out.val = dst.val ++ binaryEntry data := by
  obtain ⟨mid, first, h⟩ := Option.bind_eq_some_iff.mp h
  obtain ⟨out', second, same⟩ := Option.map_eq_some_iff.mp h
  cases same
  rw [appendUvarint_len] at first
  rw [append_eq_some second, append_eq_some first, binaryEntry, List.append_assoc]

theorem appendEntries_eq {dst file : Data} {payloads : List Data}
    (h : appendEntries dst payloads = some file) :
    file.val = dst.val ++ binary.encodeAll payloads := by
  induction payloads generalizing dst with
  | nil =>
      cases h
      rw [Framing.encodeAll_nil, List.append_nil]
  | cons data payloads ih =>
      obtain ⟨⟨out, p⟩, first, rest⟩ := Option.bind_eq_some_iff.mp h
      rw [ih rest, appendBinaryEntry_eq first, List.append_assoc]
      rfl

theorem append_of_fits {dst : Data} {bytes : Bytes} (fits : (dst.val ++ bytes).length < 2 ^ 63) :
    append dst bytes = some ⟨dst.val ++ bytes, fits⟩ :=
  dif_pos fits

/-- Entries can be appended as long as there is room for them. -/
theorem exists_appendEntries (dst : Data) {payloads : List Data}
    (fits : (dst.val ++ payloads.flatMap binaryEntry).length < 2 ^ 63) :
    ∃ file, appendEntries dst payloads = some file := by
  induction payloads generalizing dst with
  | nil => exact ⟨dst, rfl⟩
  | cons data payloads ih =>
      rw [List.flatMap_cons, binaryEntry, ← List.append_assoc, ← List.append_assoc] at fits
      have entry : (dst.val ++ putUvarint 9 data.val.length ++ data.val).length < 2 ^ 63 :=
        Nat.lt_of_le_of_lt (List.prefix_append _ _).length_le fits
      have first : (dst.val ++ putUvarint 9 data.val.length).length < 2 ^ 63 :=
        Nat.lt_of_le_of_lt (List.prefix_append _ _).length_le entry
      obtain ⟨file, rest⟩ := @ih ⟨_, entry⟩ fits
      refine ⟨file, ?_⟩
      rw [appendEntries, appendBinaryEntry, appendUvarint_len, append_of_fits first,
        Option.bind_some, append_of_fits entry, Option.map_some, Option.bind_some, rest]

/-- A file is parsed in one round for each byte at the latest. It is corrupt and the segment
is left alone, or there are positions of entries that `Read` decodes, which take up the
whole file. -/
theorem loadSegmentEntries_tiles (file : Data) (s : Segment) (noCopy : Bool) :
    ∃ loaded,
      (∀ rounds, file.val.length < rounds →
        loadSegmentEntries rounds (some file) s = some loaded) ∧
      (loaded = .returned s (some .corrupt) ∨
        ∃ epos, loaded = .returned { ebuf := file, epos := epos } none ∧
          Tiles 0 epos (len file) ∧ ∀ p ∈ epos, ∃ payload, Decodes noCopy file p payload) := by
  have bound := file.property
  refine ⟨_, fun rounds enough => loadSegmentEntries_eq enough s, ?_⟩
  cases scanned : binary.scan file.val.length 0 file.val with
  | none => exact .inl rfl
  | some ps =>
      obtain ⟨tiles, pieces⟩ := binary.scan_tiles binary_definite [] scanned
      rw [List.nil_append] at tiles pieces
      refine .inr ⟨_, rfl, tiles.map (f := Int64.ofNat) ?_, ?_⟩
      · intro p hp order
        have inside := (pieces p hp).1
        exact (Int64.ofNat_lt_iff_lt (by omega) (by omega)).mpr order
      · intro q hq
        obtain ⟨p, hp, rfl⟩ := List.mem_map.mp hq
        obtain ⟨inside, next⟩ := pieces p hp
        obtain ⟨payload, -, decodes⟩ :=
          decodes_of_next (Nat.le_of_lt (tiles.lt_of_mem hp)) inside next noCopy
        exact ⟨payload, decodes⟩

/-- A file that was written has one position for each payload. -/
theorem loadSegmentEntries_written {file : Data} {payloads : List Data}
    (written : appendEntries ⟨[], by decide⟩ payloads = some file) (s : Segment) (noCopy : Bool) :
    ∃ epos,
      (∀ rounds, file.val.length < rounds → loadSegmentEntries rounds (some file) s =
        some (.returned { ebuf := file, epos := epos } none)) ∧
      List.Forall₂ (Decodes noCopy file) epos payloads := by
  have bytes : file.val = binary.encodeAll payloads := appendEntries_eq written
  have scanned : binary.scan _ 0 (binary.encodeAll payloads) = some (binary.positions 0 payloads) :=
    binary.scan_encodeAll (Nat.le_refl _)
  have pieces := binary.forall₂_positions [] payloads
  rw [← bytes] at scanned
  rw [List.nil_append, ← bytes] at pieces
  refine ⟨(binary.positions 0 payloads).map (Prod.map Int64.ofNat Int64.ofNat), ?_, ?_⟩
  · intro rounds enough
    rw [loadSegmentEntries_eq enough, scanned]
  · exact List.forall₂_map_left_iff.mpr (pieces.imp fun _ _ h => decodes_written h.1 h.2 noCopy)

/-- Whatever is in the file, it is corrupt or made up of entries that `Read` decodes. If
payloads were written, as many as there is room for in a slice, these are the ones. -/
theorem segment_parsing (s : Segment) (noCopy : Bool) :
    (∀ file, ∃ loaded,
      (∀ rounds, file.val.length < rounds →
        loadSegmentEntries rounds (some file) s = some loaded) ∧
      (loaded = .returned s (some .corrupt) ∨
        ∃ epos, loaded = .returned { ebuf := file, epos := epos } none ∧
          Tiles 0 epos (len file) ∧ ∀ p ∈ epos, ∃ payload, Decodes noCopy file p payload)) ∧
    ∀ payloads : List Data, (payloads.flatMap binaryEntry).length < 2 ^ 63 →
      ∃ file, appendEntries ⟨[], by decide⟩ payloads = some file ∧
        ∃ epos,
          (∀ rounds, file.val.length < rounds → loadSegmentEntries rounds (some file) s =
            some (.returned { ebuf := file, epos := epos } none)) ∧
          List.Forall₂ (Decodes noCopy file) epos payloads := by
  refine ⟨fun file => loadSegmentEntries_tiles file s noCopy, fun payloads fits => ?_⟩
  obtain ⟨file, written⟩ := exists_appendEntries ⟨[], by decide⟩ fits
  exact ⟨file, written, loadSegmentEntries_written written s noCopy⟩

/-- Two entries of one byte. -/
theorem segment_parsing_two :
    ∃ file, appendEntries ⟨[], by decide⟩ [⟨[7], by decide⟩, ⟨[8], by decide⟩] = some file ∧
      ∃ epos, (∀ rounds, file.val.length < rounds →
          loadSegmentEntries rounds (some file) { ebuf := ⟨[], by decide⟩, epos := [] } =
            some (.returned { ebuf := file, epos := epos } none)) ∧
        List.Forall₂ (Decodes false file) epos [⟨[7], by decide⟩, ⟨[8], by decide⟩] :=
  (segment_parsing { ebuf := ⟨[], by decide⟩, epos := [] } false).2 _ (by decide)

/-- The size of an entry may be any number of 64 bits. -/
example : loadSegmentEntries 12
    (some ⟨[255, 255, 255, 255, 255, 255, 255, 255, 255, 1, 7], by decide⟩)
      { ebuf := ⟨[], by decide⟩, epos := [(0, 2)] } =
    some (.returned { ebuf := ⟨[], by decide⟩, epos := [(0, 2)] } (some .corrupt)) := by
  rfl

end RaftKv.Wal.Machine
