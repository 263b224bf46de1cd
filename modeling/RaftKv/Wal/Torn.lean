import RaftKv.Wal.Crash

/-!
# Writes that are interrupted

A batch reaches the disk in a few steps: bytes are appended to the file of the tail, and
when the tail has got its size the next file is created. The process may stop between two
steps, and of the bytes that are appended some may have reached the file and others not.

If the file of the tail ends with an entry, the log opens with the entries of before and
those of the batch that are complete. If it ends inside of one, `load` takes the file for a
corrupt one, and the log does not open at all.
-/

namespace RaftKv.Wal

open Library Chunk

/-! ### The file operations of a batch -/

namespace Log

/-- What the end of `writeBatch` appends. -/
def flushOps (l : Log) (s mark : Nat) : List FileOp :=
  if 0 < (l.heap s).ebuf.length - mark then [.append l.sfile ((l.heap s).ebuf.drop mark)] else []

/-- The loop of `writeBatch`, and its end. -/
def entriesOps (l : Log) (disk : Disk) (s mark : Nat) : List (Nat × Data) → List FileOp
  | [] => l.flushOps s mark
  | (index, data) :: rest =>
      let l := l.set s ((l.heap s).appendEntry data)
      if l.opts.segmentSize ≤ (l.heap s).ebuf.length then
        let op : FileOp := .append l.sfile ((l.heap s).ebuf.drop mark)
        op :: .create (segmentName (index + 1)) ::
          ((disk.apply op).bind fun disk =>
            ({ l with lastIndex := index }.cycle disk).bind fun cycled =>
              cycled.1.segments.getLast?.map fun s =>
                entriesOps cycled.1 cycled.2 s 0 rest).getD []
      else l.entriesOps disk s mark rest

/-- `writeBatch` without what it does in memory. -/
def writeOps (l : Log) (disk : Disk) (b : List (Nat × Data)) : List FileOp :=
  match misplaced l.lastIndex b, l.segments.getLast? with
  | none, some s =>
      (if l.opts.segmentSize < (l.heap s).ebuf.length then
          [.create (segmentName (l.lastIndex + 1))] else []) ++
        ((l.prepareTail disk).bind fun (l, disk) =>
          l.segments.getLast?.map fun s => l.entriesOps disk s (l.heap s).ebuf.length b).getD []
  | _, _ => []

end Log

/-- The directories that are left if the process stops during the operations. Of the bytes
of an append any first part may be there. -/
inductive Torn : Disk → List FileOp → Disk → Prop
  | stop (disk : Disk) (ops : List FileOp) : Torn disk ops disk
  | cut {disk disk' : Disk} {name : FileName} {bytes part : Bytes} {ops : List FileOp}
      (inside : part <+: bytes) (ran : disk.apply (.append name part) = some disk') :
      Torn disk (.append name bytes :: ops) disk'
  | step {disk disk₁ disk' : Disk} {op : FileOp} {ops : List FileOp}
      (ran : disk.apply op = some disk₁) (rest : Torn disk₁ ops disk') : Torn disk (op :: ops) disk'

/-! ### The binary format, cut off -/

theorem binary_refusesCut : binary.RefusesCut := by
  rintro data part ⟨rest, whole⟩ proper
  change loadNextBinaryEntry part = none
  rw [loadNextBinaryEntry]
  cases header : uvarint 0 0 part with
  | none => rfl
  | some h =>
      -- The header is that of the whole entry, of which something is missing.
      obtain ⟨value, n⟩ := h
      obtain ⟨-, hn, again⟩ := uvarint_append header rest
      have entry := uvarint_binaryEntry data []
      rw [List.append_nil, show binaryEntry data = binary.encode data from rfl, ← whole, again] at entry
      cases entry
      have length : part.length + rest.length =
          (putUvarint 9 data.val.length).length + data.val.length := by
        rw [← List.length_append, whole, ← List.length_append]
        rfl
      have missing : 0 < rest.length := by
        refine List.length_pos_iff.mpr fun empty => proper ?_
        rw [← whole, empty, List.append_nil]
      exact if_pos (by dsimp only at hn ⊢; omega)

/-! ### Directories with a torn file -/

/-- A directory with the entries of `a`, and with some more bytes in its last file. -/
def Ragged (disk : Disk) (a : IndexedLog Data) (part : Bytes) : Prop :=
  ∃ front tail, Laid a.firstIndex front tail ∧ a.entries = flatten (front ++ [tail]) ∧
    disk.files =
      front.map file ++ [(segmentName tail.index, binary.encodeAll tail.entries ++ part)]

/-- The last file consists of whole entries. -/
def WholeTail (disk : Disk) : Prop :=
  ∃ name entries, disk.files.getLast? = some (name, binary.encodeAll entries)

namespace Ragged

variable {disk : Disk} {a : IndexedLog Data} {part : Bytes}

theorem opens (h : Ragged disk a []) : Opens disk a := by
  obtain ⟨front, tail, laid, entries, files⟩ := h
  refine MakeUp.opens ⟨front, tail, rfl, laid, entries⟩ ?_
  rw [files, List.append_nil, List.map_append]
  rfl

/-- Part of an entry is enough to make `Open` fail. -/
theorem openLog_eq_none (h : Ragged disk a part) (cut : binary.Cut part) (some_byte : part ≠ [])
    (opts : Options) : openLog opts disk = none := by
  obtain ⟨front, tail, laid, entries, files⟩ := h
  have found : disk.names = names (front ++ [tail]) := by
    have list : disk.files.map Prod.fst = names (front ++ [tail]) := by
      rw [files, List.map_append, map_fst_file, names, names, List.map_append]
      rfl
    rw [Disk.names_eq, list]
    intro f hf
    have name : f.1 ∈ names (front ++ [tail]) := list ▸ List.mem_map_of_mem hf
    obtain ⟨b, hb, same⟩ := List.mem_map.mp name
    rw [← same]
    exact Nat.ne_of_gt (laid.index_pos hb)
  have last : (names (front ++ [tail])).getLast? = some (segmentName tail.index) := by
    rw [names, List.map_append, List.map_singleton, List.getLast?_concat]
  have read : disk.files.read (segmentName tail.index) =
      some (binary.encodeAll tail.entries ++ part) := by
    rw [files]
    refine Directory.read_part ?_ _
    intro f hf
    obtain ⟨b, hb, rfl⟩ := List.mem_map.mp hf
    exact segmentName_lt.mpr (laid.index_lt hb)
  obtain ⟨head, hhead, -⟩ := Option.map_eq_some_iff.mp laid.head_index
  have loads : loadSegmentEntries disk
      { path := segmentName tail.index, index := (segmentName tail.index).index } = none := by
    rw [loadSegmentEntries]
    dsimp only
    rw [read]
    dsimp only
    rw [binary.scan_cut binary_refusesCut cut some_byte, Option.map_none]
  have opened : ofSegments opts disk (names (front ++ [tail])) = none := by
    rw [ofSegments, hhead, Option.bind_some, last, Option.bind_some, read, Option.bind_some, loads,
      Option.map_none]
  rw [openLog]
  split
  next empty => exact absurd (found.symm.trans empty) (names_ne_nil front tail)
  next =>
    rw [found, recover_unmarked (names_plain _), Option.bind_some]
    dsimp only
    rw [show run Disk.apply disk [] = some disk from rfl, Option.bind_some, opened, Option.map_none]

theorem wholeTail_iff (h : Ragged disk a part) (cut : part = [] ∨ binary.Cut part) :
    WholeTail disk ↔ part = [] := by
  obtain ⟨front, tail, -, -, files⟩ := h
  have last : disk.files.getLast? =
      some (segmentName tail.index, binary.encodeAll tail.entries ++ part) := by
    rw [files, List.getLast?_concat]
  constructor
  · rintro ⟨name, entries, found⟩
    rw [last] at found
    have bytes : binary.encodeAll tail.entries ++ part = binary.encodeAll entries :=
      congrArg Prod.snd (Option.some.inj found)
    by_contra some_byte
    have fails : binary.scan (binary.encodeAll entries).length 0
        (binary.encodeAll tail.entries ++ part) = none :=
      binary.scan_cut binary_refusesCut (cut.resolve_left some_byte) some_byte _ _
    rw [bytes, binary.scan_encodeAll (Nat.le_refl _)] at fails
    cases fails
  · rintro rfl
    exact ⟨_, tail.entries, by rw [last, List.append_nil]⟩

end Ragged

/-! ### The operations are those of `writeBatch` -/

namespace Log

theorem apply_create_of_cycle {l l' : Log} {disk disk' : Disk} (h : l.cycle disk = some (l', disk')) :
    disk.apply (.create (segmentName (l.lastIndex + 1))) = some disk' := by
  obtain ⟨l₁, pushed, h⟩ := Option.bind_eq_some_iff.mp h
  obtain ⟨p, -, rfl⟩ := Option.map_eq_some_iff.mp pushed
  obtain ⟨disk₁, created, same⟩ := Option.map_eq_some_iff.mp h
  cases same
  exact created

theorem run_flushOps {l l' : Log} {disk disk' : Disk} {s mark last : Nat}
    (h : l.flush disk s mark last = some (l', disk')) :
    run Disk.apply disk (l.flushOps s mark) = some disk' := by
  rw [flush] at h
  rw [flushOps]
  split at h
  next more =>
    obtain ⟨disk₁, ran, same⟩ := Option.map_eq_some_iff.mp h
    cases same
    rw [if_pos more, run_singleton]
    exact ran
  next nothing =>
    cases h
    rw [if_neg nothing]
    rfl

theorem run_entriesOps {l l₁ l' : Log} {disk disk₁ disk' : Disk} {s mark s₁ mark₁ last : Nat}
    {b : List (Nat × Data)} (wrote : l.writeEntries disk s mark b = some (l₁, disk₁, s₁, mark₁))
    (flushed : l₁.flush disk₁ s₁ mark₁ last = some (l', disk')) :
    run Disk.apply disk (l.entriesOps disk s mark b) = some disk' := by
  induction b generalizing l disk s mark with
  | nil =>
      cases wrote
      exact run_flushOps flushed
  | cons entry b ih =>
      obtain ⟨index, data⟩ := entry
      rw [writeEntries] at wrote
      rw [entriesOps]
      dsimp only at wrote ⊢
      split at wrote
      next full =>
        obtain ⟨disk₂, ran, wrote⟩ := Option.bind_eq_some_iff.mp wrote
        obtain ⟨⟨l₃, disk₃⟩, cycled, wrote⟩ := Option.bind_eq_some_iff.mp wrote
        obtain ⟨s₃, last₃, wrote⟩ := Option.bind_eq_some_iff.mp wrote
        have created := apply_create_of_cycle cycled
        dsimp only at last₃ wrote created
        rw [if_pos full, run_cons, ran, Option.bind_some, run_cons, created, Option.bind_some,
          Option.bind_some, cycled, Option.bind_some]
        dsimp only
        rw [last₃, Option.map_some, Option.getD_some]
        exact ih wrote
      next small =>
        rw [if_neg small]
        exact ih wrote

/-- A batch that is not interrupted runs its operations. -/
theorem run_writeOps {l l' : Log} {disk disk' : Disk} {b : List (Nat × Data)}
    (h : l.writeBatch disk b = some (l', disk', .ok)) :
    run Disk.apply disk (l.writeOps disk b) = some disk' := by
  rw [writeBatch] at h
  rw [writeOps]
  split at h
  · cases h
  next ordered =>
    obtain ⟨⟨l₁, disk₁⟩, prepared, h⟩ := Option.bind_eq_some_iff.mp h
    obtain ⟨s, last, h⟩ := Option.bind_eq_some_iff.mp h
    obtain ⟨⟨l₂, disk₂, s₂, mark⟩, wrote, h⟩ := Option.bind_eq_some_iff.mp h
    obtain ⟨final, -, h⟩ := Option.bind_eq_some_iff.mp h
    obtain ⟨⟨l₃, disk₃⟩, flushed, same⟩ := Option.map_eq_some_iff.mp h
    cases same
    have rest := run_entriesOps wrote flushed
    rw [ordered, prepared, Option.bind_some]
    dsimp only
    rw [last, Option.map_some, Option.getD_some]
    obtain ⟨s₀, last₀, cycled⟩ := Option.bind_eq_some_iff.mp prepared
    rw [last₀]
    dsimp only
    split at cycled
    next long =>
      have created := apply_create_of_cycle cycled
      rw [if_pos long, List.singleton_append, run_cons, created, Option.bind_some]
      exact rest
    next short =>
      cases cycled
      rw [if_neg short, List.nil_append]
      exact rest

end Log

/-! ### Where a batch can be torn -/

/-- A directory with entries between `old` and `new`, and with part of one more. -/
def TornBetween (disk : Disk) (first : Nat) (old new : List Data) : Prop :=
  ∃ (r : IndexedLog Data) (part : Bytes), Ragged disk r part ∧ (part = [] ∨ binary.Cut part) ∧
    r.firstIndex = first ∧ old <+: r.entries ∧ r.entries <+: new

namespace Holds

variable {l : Log} {disk disk' : Disk} {front : List Block} {tail : Block} {written : List Data}

theorem written_prefix (h : Holds l disk front tail written) (new : List Data) :
    flatten front ++ written <+: flatten (front ++ [tail]) ++ new := by
  obtain ⟨rest, hrest⟩ := h.pending
  refine ⟨rest ++ new, ?_⟩
  simp [← hrest]

theorem torn_stop (h : Holds l disk front tail written) {new : List Data}
    (more : flatten front ++ written <+: new) :
    TornBetween disk l.firstIndex (flatten front ++ written) new := by
  refine ⟨⟨l.firstIndex, flatten front ++ written, h.pos⟩, [],
    ⟨front, { tail with entries := written }, h.laid_written, ?_, ?_⟩, .inl rfl, rfl,
    List.prefix_refl _, more⟩
  · rw [flatten_append]
    simp
  · rw [h.files, List.append_nil]

/-- Part of what is in memory has been appended. -/
theorem torn_append (h : Holds l disk front tail written) {part : Bytes} {new : List Data}
    (inside : part <+: (l.heap tail.handle).ebuf.drop (binary.encodeAll written).length)
    (ran : disk.apply (.append l.sfile part) = some disk')
    (more : flatten (front ++ [tail]) <+: new) :
    TornBetween disk' l.firstIndex (flatten front ++ written) new := by
  obtain ⟨rest, hrest⟩ := h.pending
  rw [h.loaded, image, ← hrest, binary.encodeAll_append, List.drop_left] at inside
  obtain ⟨k, cut, rfl, hcut⟩ := binary.prefix_encodeAll inside
  have whole : flatten (front ++ [tail]) = flatten front ++ (written ++ rest) := by
    rw [flatten_append, hrest]
    simp
  refine ⟨⟨l.firstIndex, flatten front ++ (written ++ rest.take k), h.pos⟩, cut,
    ⟨front, { tail with entries := written ++ rest.take k }, ⟨h.pos, h.covers, h.filled⟩, ?_, ?_⟩,
    hcut, rfl, ?_, ?_⟩
  · rw [flatten_append]
    simp
  · rw [Disk.apply, h.files, h.sfile, Directory.read_part h.front_names, Option.map_some,
      Directory.write_over h.front_names] at ran
    cases ran
    dsimp only
    rw [binary.encodeAll_append, List.append_assoc]
  · rw [← List.append_assoc]
    exact List.prefix_append _ _
  · refine List.IsPrefix.trans ?_ (whole ▸ more)
    refine (List.prefix_append_right_inj _).mpr ((List.prefix_append_right_inj _).mpr ?_)
    exact List.take_prefix k rest

/-- Wherever the loop is interrupted. -/
theorem torn_entries {b : List (Nat × Data)} {m : Nat} (h : Holds l disk front tail written)
    (hm : m + 1 = tail.stop) (ordered : Log.misplaced m b = none)
    (torn : Torn disk (l.entriesOps disk tail.handle (binary.encodeAll written).length b) disk') :
    TornBetween disk' l.firstIndex (flatten front ++ written)
      (flatten (front ++ [tail]) ++ b.map Prod.snd) := by
  induction b generalizing l disk front tail written m with
  | nil =>
      rw [Log.entriesOps, Log.flushOps] at torn
      split at torn
      · cases torn with
        | stop => exact h.torn_stop (h.written_prefix _)
        | cut inside ran => exact h.torn_append inside ran (List.prefix_append _ _)
        | step ran rest =>
            cases rest
            exact h.torn_append (List.prefix_refl _) ran (List.prefix_append _ _)
      · cases torn
        exact h.torn_stop (h.written_prefix _)
  | cons entry b ih =>
      obtain ⟨index, data⟩ := entry
      obtain ⟨hindex, ordered⟩ := misplaced_cons.mp ordered
      have appended := h.appendEntry data
      have stop := stop_append tail data
      have grown : index + 1 = Chunk.stop { tail with entries := tail.entries ++ [data] } := by omega
      have content : flatten (front ++ [{ tail with entries := tail.entries ++ [data] }]) ++
          b.map Prod.snd = flatten (front ++ [tail]) ++ ((index, data) :: b).map Prod.snd := by
        simp
      rw [← content]
      rw [Log.entriesOps] at torn
      dsimp only at torn
      split at torn
      · -- the segment has its size: an append, a new file and the rest of the batch
        obtain ⟨disk₁, wrote, holds₁⟩ := appended.append grown
        obtain ⟨l₂, disk₂, cycled, holds₂, first₂⟩ := holds₁.cycle (by simp)
        have created := Log.apply_create_of_cycle cycled
        have filled : flatten front ++ written <+:
            flatten (front ++ [{ tail with entries := tail.entries ++ [data] }]) := by
          have longer := appended.written_prefix []
          rw [List.append_nil] at longer
          exact longer
        have inside : flatten (front ++ [{ tail with entries := tail.entries ++ [data] }]) <+:
            flatten (front ++ [{ tail with entries := tail.entries ++ [data] }]) ++ b.map Prod.snd :=
          List.prefix_append _ _
        cases torn with
        | stop => exact appended.torn_stop (filled.trans inside)
        | cut part ran => exact appended.torn_append part ran inside
        | step ran rest =>
            cases wrote.symm.trans ran
            rw [wrote, Option.bind_some, cycled, Option.bind_some, holds₂.getLast?_segments,
              Option.map_some, Option.getD_some] at rest
            cases rest with
            | stop =>
                obtain ⟨r, part, ragged, cut, first, old, new⟩ :=
                  holds₁.torn_stop (holds₁.written_prefix (b.map Prod.snd))
                refine ⟨r, part, ragged, cut, first, ?_, new⟩
                refine List.IsPrefix.trans ?_ old
                rw [flatten_append] at filled
                simpa using filled
            | step ran rest =>
                cases created.symm.trans ran
                have torn := ih holds₂ (m := m + 1)
                  (by rw [Chunk.stop]; dsimp only; rw [List.length_nil]; omega) ordered rest
                obtain ⟨r, part, ragged, cut, first, old, new⟩ := torn
                refine ⟨r, part, ragged, cut, first.trans first₂, ?_, ?_⟩
                · rw [List.append_nil] at old
                  exact filled.trans old
                · rw [flatten_append _ [_]] at new
                  simpa using new
      · have torn := ih appended (m := m + 1) (by omega) ordered torn
        exact torn

end Holds

namespace Shows

variable {l : Log} {disk disk' : Disk} {a : IndexedLog Data} {b : List (Nat × Data)}

theorem torn_stop (h : Shows l disk a) :
    TornBetween disk a.firstIndex a.entries (a.entries ++ b.map Prod.snd) := by
  obtain ⟨front, tail, holds, first, entries⟩ := h
  have whole : a.entries = flatten front ++ tail.entries := by rw [entries]; simp
  rw [first, whole]
  exact holds.torn_stop (List.prefix_append _ _)

/-- Wherever a batch is interrupted. -/
theorem torn (h : Shows l disk a) (torn : Torn disk (l.writeOps disk b) disk') :
    TornBetween disk' a.firstIndex a.entries (a.entries ++ b.map Prod.snd) := by
  obtain ⟨front, tail, holds, first, entries⟩ := id h
  rw [Log.writeOps, holds.getLast?_segments] at torn
  cases ordered : Log.misplaced l.lastIndex b with
  | some wrong =>
      rw [ordered] at torn
      cases torn
      exact h.torn_stop
  | none =>
      obtain ⟨l₁, disk₁, front₁, tail₁, prepared, holds₁, flat₁, stop₁, first₁⟩ :=
        holds.prepareTail
      have last : l.lastIndex + 1 = tail₁.stop := by
        rw [stop₁, holds.last]
        rfl
      have length : (l₁.heap tail₁.handle).ebuf.length =
          (binary.encodeAll tail₁.entries).length := by
        rw [holds₁.loaded]
        rfl
      have whole : flatten front₁ ++ tail₁.entries = a.entries := by
        rw [entries, ← flat₁]
        simp
      -- what happens after the tail has been replaced, if it has been
      have rest (torn : Torn disk₁ (l₁.entriesOps disk₁ tail₁.handle
          (binary.encodeAll tail₁.entries).length b) disk') :
          TornBetween disk' a.firstIndex a.entries (a.entries ++ b.map Prod.snd) := by
        have between := holds₁.torn_entries last ordered torn
        rw [whole, flat₁, ← entries, first₁, ← first] at between
        exact between
      rw [ordered] at torn
      dsimp only at torn
      rw [prepared, Option.bind_some] at torn
      dsimp only at torn
      rw [holds₁.getLast?_segments, Option.map_some, Option.getD_some, length] at torn
      rw [Log.prepareTail, holds.getLast?_segments, Option.bind_some] at prepared
      split at torn
      next long =>
        rw [if_pos long] at prepared
        have created := Log.apply_create_of_cycle prepared
        cases torn with
        | stop => exact h.torn_stop
        | step ran torn =>
            cases created.symm.trans ran
            exact rest torn
      next short =>
        rw [if_neg short] at prepared
        cases prepared
        exact rest torn

end Shows

/-- A batch that is interrupted leaves a directory that opens, with all entries of before and
the first ones of the batch, if and only if its last file ends with an entry. Otherwise `Open`
fails. -/
theorem torn_write_recoverable_iff {l : Log} {disk disk' : Disk} {a : IndexedLog Data}
    {b : List (Nat × Data)} (h : Shows l disk a) (torn : Torn disk (l.writeOps disk b) disk') :
    (WholeTail disk' ↔
      ∃ m, Opens disk' ⟨a.firstIndex, a.entries ++ (b.map Prod.snd).take m, a.pos⟩) ∧
    (¬ WholeTail disk' ↔ ∀ opts, openLog opts disk' = none) := by
  obtain ⟨r, part, ragged, cut, first, ⟨more, hmore⟩, inside⟩ := h.torn torn
  have entries : r.entries = a.entries ++ (b.map Prod.snd).take more.length := by
    rw [← hmore] at inside ⊢
    rw [← List.prefix_iff_eq_take.mp ((List.prefix_append_right_inj _).mp inside)]
  have same : r = ⟨a.firstIndex, a.entries ++ (b.map Prod.snd).take more.length, a.pos⟩ := by
    obtain ⟨i, es, pos⟩ := r
    cases first
    cases entries
    rfl
  have opens (whole : part = []) :
      ∃ m, Opens disk' ⟨a.firstIndex, a.entries ++ (b.map Prod.snd).take m, a.pos⟩ := by
    cases whole
    exact ⟨more.length, same ▸ ragged.opens⟩
  have fails (some_byte : part ≠ []) (opts : Options) : openLog opts disk' = none :=
    ragged.openLog_eq_none (cut.resolve_left some_byte) some_byte opts
  have opts : Options := l.opts
  rw [ragged.wholeTail_iff cut]
  refine ⟨⟨opens, ?_⟩, ⟨fails, ?_⟩⟩
  · rintro ⟨m, opened⟩
    obtain ⟨l', disk'', opened, -⟩ := opened opts
    by_contra some_byte
    rw [fails some_byte] at opened
    cases opened
  · intro failed whole
    obtain ⟨m, opened⟩ := opens whole
    obtain ⟨l', disk'', opened, -⟩ := opened opts
    rw [failed] at opened
    cases opened

/-- A batch of two entries for a new log. -/
def twoEntries : List (Nat × Data) := [(1, ⟨[7], by decide⟩), (2, ⟨[8], by decide⟩)]

/-- Segments of twenty bytes. -/
def smallOptions : Options := ⟨20, 1, by decide, by decide⟩

/-- The file of a new log, after some bytes have reached it. -/
def firstFile (bytes : Bytes) : Disk := { files := [(segmentName 1, bytes)] }

theorem torn_twoEntries {l : Log} {disk : Disk} (opened : openLog smallOptions {} = some (l, disk))
    {bytes : Bytes} (part : bytes <+: [1, 7, 1, 8]) :
    Torn disk (l.writeOps disk twoEntries) (firstFile bytes) := by
  cases opened
  exact Torn.cut part rfl

/-- The first entry has reached the file. -/
theorem torn_write_recoverable_two :
    ∃ l disk, openLog smallOptions {} = some (l, disk) ∧
      Torn disk (l.writeOps disk twoEntries) (firstFile [1, 7]) ∧
      ∃ m, Opens (firstFile [1, 7]) ⟨1, (twoEntries.map Prod.snd).take m, by decide⟩ := by
  obtain ⟨l, disk, opened, shows⟩ := shows_openLog_empty smallOptions
  have torn : Torn disk (l.writeOps disk twoEntries) (firstFile [1, 7]) :=
    torn_twoEntries opened ⟨[1, 8], rfl⟩
  refine ⟨l, disk, opened, torn, (torn_write_recoverable_iff shows torn).1.mp ?_⟩
  exact ⟨segmentName 1, [⟨[7], by decide⟩], rfl⟩

/-- The length of the first entry has reached the file, and the entry has not. -/
theorem torn_write_not_recoverable :
    ∃ l disk, openLog smallOptions {} = some (l, disk) ∧ Shows l disk IndexedLog.empty ∧
      Torn disk (l.writeOps disk twoEntries) (firstFile [1]) ∧
      ∀ opts, openLog opts (firstFile [1]) = none := by
  obtain ⟨l, disk, opened, shows⟩ := shows_openLog_empty smallOptions
  exact ⟨l, disk, opened, shows, torn_twoEntries opened ⟨[7, 1, 8], rfl⟩, fun _ => rfl⟩

end RaftKv.Wal
