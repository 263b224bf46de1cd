import RaftKv.Wal.Truncate

/-!
# The log as a list of byte strings

`Spec` says what the log is for: a first index and the byte strings from it on. The log of
segments, positions and cached entries returns the same results, whatever is done to it
and however it is opened again in between.
-/

namespace RaftKv.Wal

open Library Chunk

/-! ### The abstract log -/

namespace Spec

/-- A batch is appended if every index is the next one, and otherwise nothing is. -/
def append (a : IndexedLog Data) (b : List (Nat × Data)) : IndexedLog Data × Result :=
  match (b.zipIdx (a.lastIndex + 1)).find? fun entry => entry.1.1 ≠ entry.2 with
  | none => ({ a with entries := a.entries ++ b.map Prod.snd }, .ok)
  | some ((got, _), need) => (a, .error (.outOfOrder need got))

def cut (a : IndexedLog Data) : Option (IndexedLog Data) → IndexedLog Data × Result
  | some a' => (a', .ok)
  | none => (a, .error .outOfRange)

def perform (a : IndexedLog Data) : Operation → IndexedLog Data × Result
  | .write index data => append a [(index, data)]
  | .writeBatch b => append a b
  | .read index => (a, readResult a index)
  | .truncateFront index => cut a (a.truncateFront index)
  | .truncateBack index => cut a (a.truncateBack index)
  | .clearCache => (a, .ok)
  | .reopen _ => (a, .ok)

def performAll (a : IndexedLog Data) : List Operation → IndexedLog Data × List Result
  | [] => (a, [])
  | op :: ops =>
      let rest := performAll (perform a op).1 ops
      (rest.1, (perform a op).2 :: rest.2)

end Spec

/-- Perform some operations, with their results. -/
def Log.performAll (l : Log) (disk : Disk) : List Operation → Option (Log × Disk × List Result)
  | [] => some (l, disk, [])
  | op :: ops =>
      (l.perform disk op).bind fun (l, disk, result) =>
        (l.performAll disk ops).map fun (l, disk, results) => (l, disk, result :: results)

/-! ### One operation -/

/-- The loop of `writeBatch` looks for the first index out of order. -/
theorem misplaced_eq (m : Nat) (b : List (Nat × Data)) :
    Log.misplaced m b =
      ((b.zipIdx (m + 1)).find? fun entry => entry.1.1 ≠ entry.2).map
        fun entry => (entry.2, entry.1.1) := by
  induction b generalizing m with
  | nil => rfl
  | cons entry b ih =>
      obtain ⟨index, data⟩ := entry
      rw [Log.misplaced, List.zipIdx_cons, List.find?_cons]
      by_cases next : index = m + 1
      · rw [if_neg (not_not_intro next), ih]
        simp [next]
      · rw [if_pos next]
        simp [next]

namespace Shows

variable {l : Log} {disk : Disk} {a : IndexedLog Data}

theorem append {b : List (Nat × Data)} (h : Shows l disk a) (filled : b ≠ []) :
    ∃ l' disk', l.writeBatch disk b = some (l', disk', (Spec.append a b).2) ∧
      Shows l' disk' (Spec.append a b).1 := by
  obtain ⟨misplaced, ordered⟩ := h.writeBatch filled
  rw [misplaced_eq] at misplaced ordered
  rw [Spec.append]
  cases found : (b.zipIdx (a.lastIndex + 1)).find? fun entry => entry.1.1 ≠ entry.2 with
  | none => exact ordered (by rw [found]; rfl)
  | some entry =>
      obtain ⟨⟨got, data⟩, need⟩ := entry
      exact ⟨l, disk, misplaced need got (by rw [found]; rfl), h⟩

theorem guarded (h : Shows l disk a) (body : Option (Log × Disk × Result)) :
    l.guarded disk body = body := by
  obtain ⟨front, tail, holds, -, -⟩ := h
  obtain ⟨closed, corrupt⟩ := holds.usable
  rw [Log.guarded, closed, corrupt, if_neg Bool.false_ne_true, if_neg Bool.false_ne_true]

theorem clearCache (h : Shows l disk a) : Shows l.clearCache disk a := by
  obtain ⟨front, tail, holds, first, entries⟩ := h
  exact ⟨front, tail, holds.clearCache, first, entries⟩

/-- Whoever opens the directory next finds the same entries. -/
theorem reopen (h : Shows l disk a) (opts : Options) :
    ∃ l', openLog opts disk = some (l', disk) ∧ Shows l' disk a := by
  obtain ⟨front, tail, holds, first, entries⟩ := h
  obtain ⟨l', opened, front', tail', holds', first', entries'⟩ :=
    holds.toLaid.openLog opts holds.files_eq
  exact ⟨l', opened, front', tail', holds', first.trans first', entries.trans entries'⟩

/-- The log does what the abstract log does. -/
theorem perform (h : Shows l disk a) (op : Operation) :
    ∃ l' disk', l.perform disk op = some (l', disk', (Spec.perform a op).2) ∧
      Shows l' disk' (Spec.perform a op).1 := by
  cases op with
  | write index data =>
      rw [Log.perform, h.guarded]
      exact h.append (List.cons_ne_nil _ _)
  | writeBatch b =>
      rw [Log.perform, h.guarded]
      split
      · rename_i empty
        cases empty
        refine ⟨l, disk, rfl, ?_⟩
        have same : (Spec.perform a (.writeBatch [])).1 = a := by
          change { a with entries := a.entries ++ [] } = a
          rw [List.append_nil]
        rw [same]
        exact h
      · rename_i filled
        exact h.append filled
  | read index =>
      obtain ⟨l', result, shown⟩ := h.read index
      refine ⟨l', disk, ?_, shown⟩
      rw [Log.perform, result]
      rfl
  | truncateFront index =>
      rw [Log.perform, h.guarded, Spec.perform]
      cases cut : a.truncateFront index with
      | none => exact ⟨l, disk, h.truncateFront_none cut, h⟩
      | some a' => exact h.truncateFront cut
  | truncateBack index =>
      rw [Log.perform, h.guarded, Spec.perform]
      cases cut : a.truncateBack index with
      | none => exact ⟨l, disk, h.truncateBack_none cut, h⟩
      | some a' => exact h.truncateBack cut
  | clearCache =>
      rw [Log.perform, h.guarded]
      exact ⟨l.clearCache, disk, rfl, h.clearCache⟩
  | reopen opts =>
      obtain ⟨l', opened, shown⟩ := h.reopen opts
      refine ⟨l', disk, ?_, shown⟩
      rw [Log.perform, h.guarded, opened]
      rfl

theorem performAll (h : Shows l disk a) (ops : List Operation) :
    ∃ l' disk', l.performAll disk ops = some (l', disk', (Spec.performAll a ops).2) ∧
      Shows l' disk' (Spec.performAll a ops).1 := by
  induction ops generalizing l disk a with
  | nil => exact ⟨l, disk, rfl, h⟩
  | cons op ops ih =>
      obtain ⟨l₁, disk₁, performed, shows₁⟩ := h.perform op
      obtain ⟨l₂, disk₂, rest, shows₂⟩ := ih shows₁
      refine ⟨l₂, disk₂, ?_, shows₂⟩
      rw [Log.performAll, performed, Option.bind_some]
      dsimp only
      rw [rest]
      rfl

end Shows

/-! ### Opening an empty directory -/

theorem shows_openLog_empty (opts : Options) :
    ∃ l disk, openLog opts {} = some (l, disk) ∧ Shows l disk IndexedLog.empty := by
  refine ⟨_, _, rfl, [], ⟨0, 1, []⟩, ?_, rfl, rfl⟩
  exact {
    usable := ⟨rfl, rfl⟩
    segments := rfl
    nodup := List.nodup_singleton _
    fresh := by
      intro b hb
      rw [List.mem_singleton.mp hb]
      exact Nat.one_pos
    pos := Nat.one_pos
    covers := rfl
    filled := nofun
    last := rfl
    pending := List.prefix_refl _
    memory := nofun
    loaded := rfl
    cache := nofun
    sfile := rfl
    files := rfl }

/-- From an empty directory on, a log of any segment size and cache size returns the results
of the abstract log, and it has the same entries. -/
theorem log_refines_spec (opts : Options) (ops : List Operation) :
    ∃ l disk, ((openLog opts {}).bind fun (l, disk) => l.performAll disk ops) =
        some (l, disk, (Spec.performAll IndexedLog.empty ops).2) ∧
      Shows l disk (Spec.performAll IndexedLog.empty ops).1 := by
  obtain ⟨l, disk, opened, empty⟩ := shows_openLog_empty opts
  obtain ⟨l', disk', performed, shown⟩ := empty.performAll ops
  refine ⟨l', disk', ?_, shown⟩
  rw [opened, Option.bind_some]
  exact performed

end RaftKv.Wal
