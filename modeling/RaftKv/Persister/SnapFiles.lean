import RaftKv.Library.Digits
import RaftKv.Persister.StatFile
import Mathlib.Data.Char
import Mathlib.Data.List.AList

/-!
# The snapshot files

A snapshot is marshalled into a file of its own, whose name has the term and the index as
hexadecimal numbers. `Load` sorts the names, goes through them from the last one and returns
the first snapshot that it can unmarshal. A file that it cannot read is renamed and skipped.

Names of this kind are in the order of the terms and indices, so that with complete files
`Load` finds the snapshot that the other modules of the persister expect. A file that was cut
off has the name that comes last if its snapshot is the newest, and nothing tells it from a
complete one if the cut is between two fields.
-/

namespace RaftKv.SnapFiles

open Library Library.Protobuf
open Raft (Bytes)
open StatFile (scalar scalar_encodable foldlM_scalar)

/-! ### Messages -/

/-- `Snapshot`. -/
@[ext]
structure Snapshot where
  rowData : Bytes := []
  lastIndex : Int64 := 0
  lastTerm : Int64 := 0
  deriving DecidableEq

namespace Snapshot

def fields (s : Snapshot) : List Field :=
  (if s.rowData = [] then [] else [{ number := 1, value := .bytes s.rowData }]) ++
    scalar 2 s.lastIndex ++ scalar 3 s.lastTerm

/-- Set a field of the message. One that it does not have is skipped. -/
def set (s : Snapshot) (f : Field) : Option Snapshot :=
  match f.number, f.value with
  | 1, .bytes data => some { s with rowData := data }
  | 2, .varint x => some { s with lastIndex := x.toInt64 }
  | 3, .varint x => some { s with lastTerm := x.toInt64 }
  | _, _ => some s

/-- `proto.Marshal`. -/
def marshal (s : Snapshot) : Bytes := encode s.fields

/-- In the terms of the persister. -/
def view (s : Snapshot) : RaftKv.Snapshot :=
  { rowData := s.rowData, lastIndex := s.lastIndex.toInt, lastTerm := s.lastTerm.toInt }

end Snapshot

/-- `proto.Unmarshal`. -/
def unmarshal (data : Bytes) : Option Snapshot :=
  (parse data).bind fun fs => fs.foldlM Snapshot.set {}

/-! ### Names -/

/-- Strings are compared by their bytes, and all characters of these names have one. -/
abbrev FileName := List Char

def hexDigit (i : Nat) : Char :=
  ['0', '1', '2', '3', '4', '5', '6', '7', '8', '9', 'a', 'b', 'c', 'd', 'e', 'f'].getD i '0'

/-- `%016x`. A sign is one of the sixteen characters, if the digits leave room for it. -/
def format016x (x : Int64) : FileName :=
  let n := x.toInt.natAbs
  if 0 ≤ x.toInt then digits 16 hexDigit 16 n
  else '-' :: digits 16 hexDigit (if n < 16 ^ 15 then 15 else 16) n

def snapSuffix : FileName := ['.', 's', 'n', 'a', 'p']

/-- The name of the file in `save`. -/
def Snapshot.fname (s : Snapshot) : FileName :=
  format016x s.lastTerm ++ '-' :: format016x s.lastIndex ++ snapSuffix

/-! ### The directory -/

/-- The files, in the order of `Readdirnames`. -/
abbrev Dir := AList fun _ : FileName => Bytes

def isEmptySnap (s : Snapshot) : Bool := s.lastIndex = 0

/-- `save`, and with it `WriteAndSyncFile`, which creates the file or makes it empty before it
writes. A crash in between leaves the first bytes. -/
def saveCut (dir : Dir) (s : Snapshot) (k : Nat) : Dir := dir.insert s.fname (s.marshal.take k)

/-- `save` to its end. -/
def save (dir : Dir) (s : Snapshot) : Dir := dir.insert s.fname s.marshal

/-- `SaveSnap`. -/
def saveSnap (dir : Dir) (s : Snapshot) : Dir := if isEmptySnap s then dir else save dir s

/-- `os.Rename`, which replaces a file of the new name. -/
def Dir.rename (dir : Dir) (old new : FileName) : Dir :=
  match dir.lookup old with
  | none => dir
  | some content => (dir.erase old).insert new content

/-- Removes the orphaned files and returns the names of the others. -/
def cleanupSnapdir : Dir → List FileName → Dir × List FileName
  | dir, [] => (dir, [])
  | dir, name :: rest =>
      if ['d', 'b', '.', 't', 'm', 'p'] <+: name then cleanupSnapdir (dir.erase name) rest
      else
        let (dir, names) := cleanupSnapdir dir rest
        (dir, name :: names)

def checkSuffix (names : List FileName) : List FileName :=
  names.filter fun name => snapSuffix <:+ name

/-- The names are distinct, so that it does not matter how they are sorted. -/
def snapNames (dir : Dir) : Dir × List FileName :=
  let (dir, names) := cleanupSnapdir dir dir.keys
  (dir, (checkSuffix names).insertionSort (· ≥ ·))

/-- `Read` of a file with this content. -/
def read (b : Bytes) : Option Snapshot := if b = [] then none else unmarshal b

def broken (name : FileName) : FileName := name ++ ['.', 'b', 'r', 'o', 'k', 'e', 'n']

/-- The loop of `loadMatching` with its calls of `loadSnap`. -/
def loadMatching : Dir → List FileName → Option Snapshot × Dir
  | dir, [] => (none, dir)
  | dir, name :: rest =>
      match (dir.lookup name).bind read with
      | some snap => (some snap, dir)
      | none => loadMatching (dir.rename name (broken name)) rest

/-- `Load`: the snapshot, where `none` stands for `ErrNoSnapshot`, and the directory that it
leaves. -/
def load (dir : Dir) : Option Snapshot × Dir :=
  let (dir, names) := snapNames dir
  loadMatching dir names

/-- The file of a snapshot. -/
def Snapshot.file (s : Snapshot) : Σ _ : FileName, Bytes := ⟨s.fname, s.marshal⟩

/-- The first bytes of it. -/
def Snapshot.cut (s : Snapshot) (k : Nat) : Σ _ : FileName, Bytes :=
  ⟨s.fname, s.marshal.take k⟩

/-- A snapshot of a node. The length of a slice is an `int`. -/
structure Snapshot.Valid (s : Snapshot) : Prop where
  index : 0 < s.lastIndex.toInt
  term : 0 ≤ s.lastTerm.toInt
  data : s.rowData.length < 2 ^ 63

/-! ### Marshalling -/

section Marshal

variable {s : Snapshot}

theorem encodable (data : s.rowData.length < 2 ^ 63) : ∀ f ∈ s.fields, f.Encodable := by
  intro f hf
  rcases List.mem_append.mp hf with hf | hf
  · rcases List.mem_append.mp hf with hf | hf
    · split at hf
      · cases hf
      · cases List.mem_singleton.mp hf
        exact ⟨⟨Nat.le_refl _, show 1 < 2 ^ 29 by decide⟩, Nat.lt_trans data (by decide)⟩
    · exact scalar_encodable (by decide) f hf
  · exact scalar_encodable (by decide) f hf

theorem foldlM_fields (s : Snapshot) : s.fields.foldlM Snapshot.set {} = some s := by
  have data : (if s.rowData = [] then []
      else [({ number := 1, value := .bytes s.rowData } : Field)]).foldlM Snapshot.set {} =
        some { rowData := s.rowData } := by
    split
    next empty => rw [empty]; rfl
    next => rfl
  have index : (scalar 2 s.lastIndex).foldlM Snapshot.set { rowData := s.rowData } =
      some { rowData := s.rowData, lastIndex := s.lastIndex } :=
    foldlM_scalar rfl fun hzero => by rw [hzero]
  have term : (scalar 3 s.lastTerm).foldlM Snapshot.set
      { rowData := s.rowData, lastIndex := s.lastIndex } = some s :=
    foldlM_scalar rfl fun hzero => by rw [← hzero]
  rw [Snapshot.fields, List.foldlM_append, List.foldlM_append, data]
  dsimp only [Option.bind_eq_bind, Option.bind_some]
  rw [index]
  exact term

theorem unmarshal_marshal (valid : s.Valid) : unmarshal s.marshal = some s := by
  rw [unmarshal, Snapshot.marshal, parse_encode (encodable valid.data), Option.bind_some,
    foldlM_fields]

theorem marshal_ne_nil (valid : s.Valid) : s.marshal ≠ [] := by
  intro empty
  have whole := unmarshal_marshal valid
  rw [empty] at whole
  have index := valid.index
  cases whole
  exact absurd index (by decide)

theorem read_marshal (valid : s.Valid) : read s.marshal = some s := by
  rw [read, if_neg (marshal_ne_nil valid), unmarshal_marshal valid]

/-- The first bytes are some of the fields. -/
def Readable (s : Snapshot) (k : Nat) : Prop :=
  0 < k ∧ ∃ j, s.marshal.take k = encode (s.fields.take j)

/-- No other field is ever the reason to refuse a message. -/
theorem foldlM_set (fs : List Field) (s : Snapshot) : ∃ t, fs.foldlM Snapshot.set s = some t := by
  induction fs generalizing s with
  | nil => exact ⟨s, rfl⟩
  | cons f fs ih =>
      obtain ⟨t, set⟩ : ∃ t, s.set f = some t := by
        rw [Snapshot.set]
        split <;> exact ⟨_, rfl⟩
      obtain ⟨u, rest⟩ := ih t
      exact ⟨u, by rw [List.foldlM_cons, set]; exact rest⟩

/-- Exactly such a part is taken for a snapshot. -/
theorem read_take (valid : s.Valid) (k : Nat) :
    (∃ t, read (s.marshal.take k) = some t) ↔ Readable s k := by
  have encodable := encodable valid.data
  constructor
  · rintro ⟨t, h⟩
    obtain ⟨some_byte, h⟩ := Option.ite_none_left_eq_some.mp h
    have pos : 0 < k := by
      by_contra zero
      rw [Nat.eq_zero_of_not_pos zero] at some_byte
      exact some_byte rfl
    rcases Nat.lt_or_ge k s.marshal.length with inside | whole
    · obtain ⟨fs, parsed, -⟩ := Option.bind_eq_some_iff.mp h
      obtain ⟨j, -, -, cut⟩ := parse_take encodable inside parsed
      exact ⟨pos, j, cut⟩
    · refine ⟨pos, s.fields.length, ?_⟩
      rw [List.take_of_length_le whole, List.take_length, Snapshot.marshal]
  · rintro ⟨pos, j, cut⟩
    have some_byte : s.marshal.take k ≠ [] := by
      rw [Ne, List.take_eq_nil_iff]
      rintro (zero | empty)
      · exact absurd zero (Nat.ne_of_gt pos)
      · exact marshal_ne_nil valid empty
    rw [read, if_neg some_byte, cut, unmarshal,
      parse_encode fun f hf => encodable f (List.mem_of_mem_take hf), Option.bind_some]
    exact foldlM_set _ _

end Marshal

/-! ### The order of the names -/

theorem hexDigit_lt : ∀ j < 16, ∀ i < j, hexDigit i < hexDigit j := by decide

section Names

variable {s t : Snapshot}

theorem toNat_lt {x : Int64} (nonneg : 0 ≤ x.toInt) : x.toInt.natAbs < 16 ^ 16 := by
  have upper := x.toInt_lt
  have power : (16 : Nat) ^ 16 = 2 * 2 ^ 63 := by decide
  omega

theorem format016x_of_nonneg {x : Int64} (nonneg : 0 ≤ x.toInt) :
    format016x x = digits 16 hexDigit 16 x.toInt.natAbs := by
  rw [format016x]
  exact if_pos nonneg

theorem format016x_lt {x y : Int64} (hx : 0 ≤ x.toInt) (hy : 0 ≤ y.toInt) :
    format016x x < format016x y ↔ x.toInt < y.toInt := by
  rw [format016x_of_nonneg hx, format016x_of_nonneg hy,
    digits_lt_digits_iff (by decide) hexDigit_lt (toNat_lt hx) (toNat_lt hy)]
  omega

theorem format016x_inj {x y : Int64} (hx : 0 ≤ x.toInt) (hy : 0 ≤ y.toInt) :
    format016x x = format016x y ↔ x.toInt = y.toInt := by
  rw [format016x_of_nonneg hx, format016x_of_nonneg hy,
    digits_inj (by decide) hexDigit_lt (toNat_lt hx) (toNat_lt hy)]
  omega

/-- The names are in the order of terms and indices. -/
theorem fname_lt (hs : s.Valid) (ht : t.Valid) : s.fname < t.fname ↔ s.view.NamedBefore t.view := by
  have sindex := hs.index
  have tindex := ht.index
  have width {x : Int64} (nonneg : 0 ≤ x.toInt) : (format016x x).length = 16 := by
    rw [format016x_of_nonneg nonneg, length_digits]
  rw [Snapshot.fname, Snapshot.fname, List.append_assoc, List.append_assoc,
    append_lt_append_iff (by rw [width hs.term, width ht.term]), format016x_lt hs.term ht.term,
    format016x_inj hs.term ht.term, List.cons_append, List.cons_append, List.cons_lt_cons_iff,
    append_lt_append_iff (by rw [width (by omega), width (by omega)]),
    format016x_lt (by omega) (by omega), RaftKv.Snapshot.NamedBefore]
  simp [Snapshot.view]

/-- A name starts with a digit. -/
theorem not_orphaned (valid : s.Valid) : ¬['d', 'b', '.', 't', 'm', 'p'] <+: s.fname := by
  rintro ⟨rest, same⟩
  rw [Snapshot.fname, List.append_assoc, format016x_of_nonneg valid.term] at same
  have first := congrArg (List.take 3) same
  rw [List.take_append_of_le_length (by decide),
    List.take_append_of_le_length (by rw [length_digits]; decide)] at first
  have dot : '.' ∈ (digits 16 hexDigit 16 s.lastTerm.toInt.natAbs).take 3 := by
    rw [← first]
    decide
  obtain ⟨i, hi, isDigit⟩ :=
    mem_digits (by decide) (toNat_lt valid.term) (List.mem_of_mem_take dot)
  revert i
  decide

theorem broken_ne_fname (name : FileName) : broken name ≠ s.fname := by
  intro same
  have last := congrArg (fun l : FileName => l.reverse.head?) same
  simp [broken, Snapshot.fname, snapSuffix] at last

theorem cleanupSnapdir_eq (dir : Dir) {names : List FileName}
    (h : ∀ name ∈ names, ∃ s : Snapshot, s.Valid ∧ s.fname = name) :
    cleanupSnapdir dir names = (dir, names) := by
  induction names with
  | nil => rfl
  | cons name names ih =>
      obtain ⟨s, valid, rfl⟩ := h name List.mem_cons_self
      rw [cleanupSnapdir, if_neg (not_orphaned valid),
        ih fun name hname => h name (List.mem_cons_of_mem _ hname)]

/-- Every name of a snapshot gets through the filters. -/
theorem snapNames_eq {dir : Dir} (h : ∀ name ∈ dir.keys, ∃ s : Snapshot, s.Valid ∧ s.fname = name) :
    snapNames dir = (dir, dir.keys.insertionSort (· ≥ ·)) := by
  have suffix : checkSuffix dir.keys = dir.keys := by
    rw [checkSuffix, List.filter_eq_self]
    intro name hname
    obtain ⟨s, -, rfl⟩ := h name hname
    exact decide_eq_true (List.suffix_append _ _)
  rw [snapNames, cleanupSnapdir_eq dir h]
  dsimp only
  rw [suffix]

end Names

/-! ### Loading -/

section Load

variable {dir : Dir} {names rest : List FileName} {name : FileName} {s : Snapshot}

theorem loadMatching_of_read (found : (dir.lookup name).bind read = some s) :
    loadMatching dir (name :: rest) = (some s, dir) := by
  rw [loadMatching, found]

theorem loadMatching_of_broken (unreadable : (dir.lookup name).bind read = none) :
    loadMatching dir (name :: rest) = loadMatching (dir.rename name (broken name)) rest := by
  rw [loadMatching, unreadable]

theorem lookup_rename {old new : FileName} (hold : name ≠ old) (hnew : name ≠ new) :
    (dir.rename old new).lookup name = dir.lookup name := by
  rw [Dir.rename]
  split
  · rfl
  · rw [AList.lookup_insert_ne hnew, AList.lookup_erase_ne hold]

/-- The snapshot of the last name, if its file can be read. -/
theorem load_newest (named : ∀ name ∈ dir.keys, ∃ s : Snapshot, s.Valid ∧ s.fname = name)
    (found : (dir.lookup name).bind read = some s) (largest : ∀ other ∈ dir.keys, other ≤ name) :
    (load dir).1 = some s := by
  have mem : name ∈ dir.keys := by
    obtain ⟨content, hcontent, -⟩ := Option.bind_eq_some_iff.mp found
    rw [← AList.mem_keys, ← AList.lookup_isSome, hcontent]
    rfl
  rw [load, snapNames_eq named]
  dsimp only
  rw [insertionSort_eq_cons (List.perm_cons_erase mem) fun other h =>
    largest other (List.mem_of_mem_erase h), loadMatching_of_read found]

end Load

/-! ### What was saved -/

/-- The directory after these calls of `SaveSnap`, the last one first. -/
def saveAll (saved : List Snapshot) : Dir := saved.foldr (fun s dir => saveSnap dir s) ∅

section Saved

variable {saved : List Snapshot}

theorem saveAll_cons {s : Snapshot} (valid : s.Valid) (saved : List Snapshot) :
    saveAll (s :: saved) = save (saveAll saved) s := by
  have index : s.lastIndex ≠ 0 := by
    intro zero
    have positive := valid.index
    rw [zero] at positive
    exact absurd positive (by decide)
  rw [saveAll, List.foldr_cons, saveSnap, isEmptySnap, if_neg (by simpa using index)]
  rfl

/-- The snapshot that the persister's directory has as the newest is the one with the last
name, and its file has not been replaced. -/
theorem exists_newest (some_snapshot : saved ≠ []) (valid : ∀ s ∈ saved, s.Valid) :
    ∃ best ∈ saved, SnapDir.load (saved.map Snapshot.view) = some best.view ∧
      (∀ s ∈ saved, s.fname ≤ best.fname) ∧
      (saveAll saved).lookup best.fname = some best.marshal := by
  induction saved with
  | nil => exact absurd rfl some_snapshot
  | cons s saved ih =>
      have hs := valid s List.mem_cons_self
      rw [saveAll_cons hs, save]
      rcases eq_or_ne saved [] with rfl | more
      · refine ⟨s, List.mem_cons_self, rfl, ?_, AList.lookup_insert _⟩
        intro t ht
        rw [List.mem_singleton.mp ht]
      · obtain ⟨best, mem, loaded, largest, file⟩ :=
          ih more fun t ht => valid t (List.mem_cons_of_mem _ ht)
        have order := fname_lt hs (valid best (List.mem_cons_of_mem _ mem))
        rw [List.map_cons, SnapDir.load, loaded]
        dsimp only
        split
        next before =>
          have less := order.mpr before
          refine ⟨best, List.mem_cons_of_mem _ mem, rfl, ?_, ?_⟩
          · intro t ht
            rcases List.mem_cons.mp ht with rfl | ht
            · exact le_of_lt less
            · exact largest t ht
          · rw [AList.lookup_insert_ne (ne_of_gt less), file]
        next after =>
          refine ⟨s, List.mem_cons_self, rfl, ?_, AList.lookup_insert _⟩
          intro t ht
          rcases List.mem_cons.mp ht with rfl | ht
          · exact le_refl _
          · exact le_trans (largest t ht) (not_lt.mp (mt order.mp after))

end Saved

/-! ### After a crash -/

section Crash

variable {dir : Dir} {files : List (Σ _ : FileName, Bytes)}

theorem keys_perm (h : dir.entries.Perm files) : dir.keys.Perm (files.map Sigma.fst) := h.map _

theorem lookup_of_perm (h : dir.entries.Perm files) {name : FileName} {content : Bytes}
    (mem : ⟨name, content⟩ ∈ files) : dir.lookup name = some content :=
  AList.mem_lookup_iff.mpr (h.mem_iff.mpr mem)

/-- The position of a snapshot in the log. -/
def Snapshot.position (s : Snapshot) : Int64 × Int64 := (s.lastTerm, s.lastIndex)

theorem namedBefore_of_le {s t : Snapshot} (hs : s.Valid) (ht : t.Valid)
    (le : s.fname ≤ t.fname) (distinct : s.position ≠ t.position) :
    s.view.NamedBefore t.view := by
  have not_after : ¬ t.view.NamedBefore s.view := mt (fname_lt ht hs).mpr (not_lt.mpr le)
  have different : ¬(s.lastTerm.toInt = t.lastTerm.toInt ∧ s.lastIndex.toInt = t.lastIndex.toInt) := by
    rintro ⟨term, index⟩
    exact distinct (Prod.ext (Int64.toInt_inj.mp term) (Int64.toInt_inj.mp index))
  simp only [RaftKv.Snapshot.NamedBefore, Snapshot.view] at not_after ⊢
  omega

variable {saved : List Snapshot} {best p : Snapshot} {k : Nat}

theorem keys_of_perm (perm : dir.entries.Perm (p.cut k :: saved.map Snapshot.file)) :
    dir.keys.Perm (p.fname :: saved.map Snapshot.fname) := by
  have names := keys_perm perm
  rw [List.map_cons, List.map_map] at names
  exact names

theorem named_of_perm (valid : ∀ s ∈ saved, s.Valid) (hp : p.Valid)
    (perm : dir.entries.Perm (p.cut k :: saved.map Snapshot.file)) :
    ∀ name ∈ dir.keys, ∃ s : Snapshot, s.Valid ∧ s.fname = name := by
  intro name hname
  rcases List.mem_cons.mp ((keys_of_perm perm).mem_iff.mp hname) with rfl | hname
  · exact ⟨p, hp, rfl⟩
  · obtain ⟨s, hs, rfl⟩ := List.mem_map.mp hname
    exact ⟨s, valid s hs, rfl⟩

theorem le_of_perm (perm : dir.entries.Perm (p.cut k :: saved.map Snapshot.file))
    {last : FileName} (hp : p.fname ≤ last) (largest : ∀ s ∈ saved, s.fname ≤ last) :
    ∀ name ∈ dir.keys, name ≤ last := by
  intro name hname
  rcases List.mem_cons.mp ((keys_of_perm perm).mem_iff.mp hname) with rfl | hname
  · exact hp
  · obtain ⟨s, hs, rfl⟩ := List.mem_map.mp hname
    exact largest s hs

theorem lookup_saved (perm : dir.entries.Perm files) (sub : saved.map Snapshot.file ⊆ files)
    (valid : ∀ s ∈ saved, s.Valid) (mem : best ∈ saved) :
    (dir.lookup best.fname).bind read = some best := by
  rw [lookup_of_perm perm (sub (List.mem_map_of_mem mem))]
  exact read_marshal (valid best mem)

/-- A file that cannot be read is put aside. -/
theorem load_of_broken (valid : ∀ s ∈ saved, s.Valid) (hp : p.Valid)
    (perm : dir.entries.Perm (p.cut k :: saved.map Snapshot.file))
    (unreadable : read (p.marshal.take k) = none) (mem : best ∈ saved)
    (largest : ∀ s ∈ saved, s.fname ≤ best.fname) (after : best.fname ≤ p.fname) :
    (load dir).1 = some best := by
  have names := keys_of_perm perm
  have mem_name : best.fname ∈ saved.map Snapshot.fname := List.mem_map_of_mem mem
  have different : best.fname ≠ p.fname :=
    ne_of_mem_of_not_mem mem_name (List.nodup_cons.mp (names.nodup_iff.mp dir.keys_nodup)).1
  have largest_name : ∀ name ∈ saved.map Snapshot.fname, name ≤ best.fname := by
    intro name hname
    obtain ⟨s, hs, rfl⟩ := List.mem_map.mp hname
    exact largest s hs
  have cut : (dir.lookup p.fname).bind read = none := by
    rw [lookup_of_perm perm List.mem_cons_self]
    exact unreadable
  have found : ((dir.rename p.fname (broken p.fname)).lookup best.fname).bind read = some best := by
    rw [lookup_rename different (broken_ne_fname _).symm]
    exact lookup_saved perm (List.subset_cons_self _ _) valid mem
  rw [load, snapNames_eq (named_of_perm valid hp perm)]
  dsimp only
  rw [insertionSort_eq_cons names fun name hname => le_trans (largest_name name hname) after,
    loadMatching_of_broken cut, insertionSort_eq_cons (List.perm_cons_erase mem_name) fun name h =>
      largest_name name (List.mem_of_mem_erase h), loadMatching_of_read found]

end Crash

/-- Among complete files `Load` finds the snapshot of the greatest term and index. With a
further file that was cut off it does so if that snapshot is not newer than the others, or if
the rest of the file is empty or ends within a field. Otherwise it returns a snapshot that is
put together from the fields of the rest. -/
theorem load_after_crash (saved : List Snapshot) (some_snapshot : saved ≠ [])
    (valid : ∀ s ∈ saved, s.Valid) (distinct : (saved.map Snapshot.position).Nodup) :
    ∃ best ∈ saved, (∀ s ∈ saved, s ≠ best → s.view.NamedBefore best.view) ∧
      SnapDir.load (saved.map Snapshot.view) = some best.view ∧
      (∀ dir : Dir, dir.entries.Perm (saved.map Snapshot.file) → (load dir).1 = some best) ∧
      ∀ (p : Snapshot) (k : Nat) (dir : Dir), p.Valid →
        dir.entries.Perm (p.cut k :: saved.map Snapshot.file) →
        (p.view.NamedBefore best.view ∨ ¬ Readable p k → (load dir).1 = some best) ∧
        (¬ p.view.NamedBefore best.view → Readable p k →
          ∃ q, read (p.marshal.take k) = some q ∧ (load dir).1 = some q) := by
  obtain ⟨best, mem, loaded, largest, -⟩ := exists_newest some_snapshot valid
  have hbest := valid best mem
  refine ⟨best, mem, ?greatest, loaded, ?complete, fun p k dir hp perm => ⟨?kept, ?lost⟩⟩
  case greatest =>
    intro s hs different
    refine namedBefore_of_le (valid s hs) hbest (largest s hs) fun same => different ?_
    exact List.inj_on_of_nodup_map distinct hs mem same
  case complete =>
    intro dir perm
    have names := keys_perm perm
    rw [List.map_map] at names
    have saved_name : ∀ name ∈ dir.keys, ∃ s ∈ saved, s.fname = name :=
      fun name hname => List.mem_map.mp (names.mem_iff.mp hname)
    refine load_newest ?_ (lookup_saved perm (List.Subset.refl _) valid mem) ?_
    · intro name hname
      obtain ⟨s, hs, same⟩ := saved_name name hname
      exact ⟨s, valid s hs, same⟩
    · intro name hname
      obtain ⟨s, hs, rfl⟩ := saved_name name hname
      exact largest s hs
  case kept =>
    intro h
    by_cases before : p.view.NamedBefore best.view
    · refine load_newest (named_of_perm valid hp perm)
        (lookup_saved perm (List.subset_cons_self _ _) valid mem) ?_
      exact le_of_perm perm (le_of_lt ((fname_lt hp hbest).mpr before)) largest
    · have unreadable : read (p.marshal.take k) = none := by
        rw [Option.eq_none_iff_forall_ne_some]
        intro q hq
        exact h.resolve_left before ((read_take hp k).mp ⟨q, hq⟩)
      exact load_of_broken valid hp perm unreadable mem largest
        (not_lt.mp (mt (fname_lt hp hbest).mp before))
  case lost =>
    intro after readable
    obtain ⟨q, hq⟩ := (read_take hp k).mpr readable
    have found : (dir.lookup p.fname).bind read = some q := by
      rw [lookup_of_perm perm List.mem_cons_self]
      exact hq
    have last : best.fname ≤ p.fname := not_lt.mp (mt (fname_lt hp hbest).mp after)
    refine ⟨q, hq, load_newest (named_of_perm valid hp perm) found ?_⟩
    exact le_of_perm perm (le_refl _) fun s hs => le_trans (largest s hs) last

/-- A cut within the first field leaves the snapshot before. -/
theorem load_after_crash_inside :
    (load (saveCut (save ∅ ⟨[7], 1, 1⟩) ⟨[8], 2, 1⟩ 2)).1 = some ⟨[7], 1, 1⟩ := by
  obtain ⟨best, mem, -, -, -, cut⟩ :=
    load_after_crash [⟨[7], 1, 1⟩] (by decide)
      (fun s hs => by rw [List.mem_singleton.mp hs]; exact ⟨by decide, by decide, by decide⟩)
      (by decide)
  rw [List.mem_singleton.mp mem] at cut
  refine (cut ⟨[8], 2, 1⟩ 2 _ ⟨by decide, by decide, by decide⟩ (.refl _)).1 (.inr ?_)
  rw [← read_take ⟨by decide, by decide, by decide⟩]
  rintro ⟨t, h⟩
  have unreadable : read ((⟨[8], 2, 1⟩ : Snapshot).marshal.take 2) = none := by decide +kernel
  rw [unreadable] at h
  cases h

/-- A cut behind the first field leaves a snapshot of index and term zero. -/
theorem load_after_crash_lost :
    (load (saveCut (save ∅ ⟨[7], 1, 1⟩) ⟨[8], 2, 1⟩ 3)).1 = some ⟨[8], 0, 0⟩ := by
  decide +kernel

end RaftKv.SnapFiles
