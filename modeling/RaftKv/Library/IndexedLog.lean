import Mathlib.Data.List.Basic

/-!
# Logs addressed by index

A log holds a window of consecutively numbered values. It grows at its back, one
value at a time, and may be cut at both ends, but a cut always leaves the value at
the index it is given. The operations are partial: an index out of order or out
of range is refused and gives `none`.

Every operation is described by what it does to the two ends of the window and to the
values in it.
-/

namespace Library

/-- The window starts at `firstIndex`, and no value has index zero. -/
structure IndexedLog (α : Type*) where
  firstIndex : Nat
  entries : List α
  pos : 0 < firstIndex
  deriving DecidableEq

namespace IndexedLog

variable {α : Type*} {l l' : IndexedLog α} {i j : Nat} {x : α}

/-- A log that was never written. -/
def empty : IndexedLog α := ⟨1, [], Nat.one_pos⟩

/-- The index of the last value, one before `firstIndex` if there is none. -/
def lastIndex (l : IndexedLog α) : Nat := l.firstIndex + l.entries.length - 1

def read (l : IndexedLog α) (i : Nat) : Option α :=
  if l.firstIndex ≤ i then l.entries[i - l.firstIndex]? else none

/-- Append `x`, which has to carry the next index. -/
def write (l : IndexedLog α) (i : Nat) (x : α) : Option (IndexedLog α) :=
  if i = l.lastIndex + 1 then some { l with entries := l.entries ++ [x] } else none

/-- Remove everything before `i`. -/
def truncateFront (l : IndexedLog α) (i : Nat) : Option (IndexedLog α) :=
  if h : l.firstIndex ≤ i ∧ i ≤ l.lastIndex then
    some ⟨i, l.entries.drop (i - l.firstIndex), Nat.lt_of_lt_of_le l.pos h.1⟩
  else none

/-- Remove everything behind `i`. -/
def truncateBack (l : IndexedLog α) (i : Nat) : Option (IndexedLog α) :=
  if l.firstIndex ≤ i ∧ i ≤ l.lastIndex then
    some { l with entries := l.entries.take (i + 1 - l.firstIndex) }
  else none

/-- The `count` values from index `i` on. -/
def readFrom (l : IndexedLog α) : Nat → Nat → Option (List α)
  | 0, _ => some []
  | count + 1, i => (l.read i).bind fun x => (l.readFrom count (i + 1)).map (x :: ·)

theorem length_entries (l : IndexedLog α) :
    l.entries.length = l.lastIndex + 1 - l.firstIndex := by
  have := l.pos
  unfold lastIndex
  omega

/-- What can be read is the window, and nothing else. -/
theorem read_isSome_iff : (l.read i).isSome ↔ l.firstIndex ≤ i ∧ i ≤ l.lastIndex := by
  have := l.pos
  have := l.length_entries
  unfold read
  split
  · simp
    omega
  · simp
    omega

theorem read_eq_none_iff : l.read i = none ↔ i < l.firstIndex ∨ l.lastIndex < i := by
  rw [← Option.not_isSome_iff_eq_none, read_isSome_iff]
  omega

theorem mem_of_read (h : l.read i = some x) : x ∈ l.entries := by
  obtain ⟨-, h⟩ := Option.ite_none_right_eq_some.mp h
  exact List.mem_of_getElem? h

/-! ### Writing -/

theorem write_eq_some_iff : (∃ l', l.write i x = some l') ↔ i = l.lastIndex + 1 := by
  unfold write
  split <;> simp_all

theorem write_eq_none_iff : l.write i x = none ↔ i ≠ l.lastIndex + 1 := by
  unfold write
  split <;> simp_all

section Write

variable (h : l.write i x = some l')

include h

theorem firstIndex_of_write : l'.firstIndex = l.firstIndex := by
  obtain ⟨-, h⟩ := Option.ite_none_right_eq_some.mp h
  cases h
  rfl

theorem index_of_write : i = l.lastIndex + 1 :=
  write_eq_some_iff.mp ⟨l', h⟩

theorem entries_of_write : l'.entries = l.entries ++ [x] := by
  obtain ⟨-, h⟩ := Option.ite_none_right_eq_some.mp h
  cases h
  rfl

theorem lastIndex_of_write : l'.lastIndex = i := by
  have := l.pos
  have added := congrArg List.length (entries_of_write h)
  rw [List.length_append, List.length_singleton] at added
  rw [lastIndex, firstIndex_of_write h, index_of_write h, added, lastIndex]
  omega

theorem read_of_write_self : l'.read i = some x := by
  have := l.pos
  have index := index_of_write h
  rw [lastIndex] at index
  rw [read, firstIndex_of_write h, entries_of_write h, if_pos (by omega),
    List.getElem?_append_right (by omega), show i - l.firstIndex - l.entries.length = 0 by omega]
  rfl

theorem read_of_write_lt (hj : j < i) : l'.read j = l.read j := by
  have := l.pos
  have length := l.length_entries
  have index := index_of_write h
  rw [read, read, firstIndex_of_write h, entries_of_write h]
  split
  · rw [List.getElem?_append_left (by omega)]
  · rfl

end Write

/-! ### Cutting -/

theorem truncateBack_eq_some_iff :
    (∃ l', l.truncateBack i = some l') ↔ l.firstIndex ≤ i ∧ i ≤ l.lastIndex := by
  unfold truncateBack
  split <;> simp_all

theorem truncateFront_eq_some_iff :
    (∃ l', l.truncateFront i = some l') ↔ l.firstIndex ≤ i ∧ i ≤ l.lastIndex := by
  unfold truncateFront
  split <;> simp_all

section Back

variable (h : l.truncateBack i = some l')

include h

theorem firstIndex_of_truncateBack : l'.firstIndex = l.firstIndex := by
  obtain ⟨-, h⟩ := Option.ite_none_right_eq_some.mp h
  cases h
  rfl

theorem entries_of_truncateBack : l'.entries = l.entries.take (i + 1 - l.firstIndex) := by
  obtain ⟨-, h⟩ := Option.ite_none_right_eq_some.mp h
  cases h
  rfl

theorem lastIndex_of_truncateBack : l'.lastIndex = i := by
  obtain ⟨hfirst, hlast⟩ := truncateBack_eq_some_iff.mp ⟨l', h⟩
  have := l.pos
  have := l.length_entries
  rw [lastIndex, firstIndex_of_truncateBack h, entries_of_truncateBack h, List.length_take]
  omega

theorem read_of_truncateBack (hj : j ≤ i) : l'.read j = l.read j := by
  obtain ⟨hfirst, hlast⟩ := truncateBack_eq_some_iff.mp ⟨l', h⟩
  rw [read, read, firstIndex_of_truncateBack h, entries_of_truncateBack h,
    List.getElem?_take_of_lt (by omega)]

end Back

section Front

variable (h : l.truncateFront i = some l')

include h

theorem firstIndex_of_truncateFront : l'.firstIndex = i := by
  obtain ⟨hin, h⟩ := Option.dite_none_right_eq_some.mp h
  cases h
  rfl

theorem entries_of_truncateFront : l'.entries = l.entries.drop (i - l.firstIndex) := by
  obtain ⟨hin, h⟩ := Option.dite_none_right_eq_some.mp h
  cases h
  rfl

theorem lastIndex_of_truncateFront : l'.lastIndex = l.lastIndex := by
  obtain ⟨hfirst, hlast⟩ := truncateFront_eq_some_iff.mp ⟨l', h⟩
  have := l.pos
  have := l.length_entries
  rw [lastIndex, firstIndex_of_truncateFront h, entries_of_truncateFront h, List.length_drop]
  omega

theorem read_of_truncateFront (hj : i ≤ j) : l'.read j = l.read j := by
  obtain ⟨hfirst, hlast⟩ := truncateFront_eq_some_iff.mp ⟨l', h⟩
  rw [read, read, firstIndex_of_truncateFront h, entries_of_truncateFront h, List.getElem?_drop,
    if_pos hj, if_pos (by omega), show i - l.firstIndex + (j - i) = j - l.firstIndex by omega]

end Front

/-! ### Reading a range -/

theorem readFrom_eq_some_iff {count : Nat} {xs : List α} :
    l.readFrom count i = some xs ↔
      xs.length = count ∧ ∀ k (hk : k < xs.length), l.read (i + k) = some xs[k] := by
  induction count generalizing i xs with
  | zero =>
      constructor
      · rintro ⟨⟩
        exact ⟨rfl, fun k hk => absurd hk (Nat.not_lt_zero k)⟩
      · rintro ⟨hlen, -⟩
        rw [List.length_eq_zero_iff.mp hlen]
        rfl
  | succ count ih =>
      simp only [readFrom, Option.bind_eq_some_iff, Option.map_eq_some_iff]
      constructor
      · rintro ⟨x, hx, xs, hxs, rfl⟩
        obtain ⟨hlen, hall⟩ := ih.mp hxs
        refine ⟨by simp [hlen], ?_⟩
        rintro (_ | k) hk
        · exact hx
        · rw [← Nat.succ_add_eq_add_succ]
          exact hall k (Nat.lt_of_succ_lt_succ hk)
      · rintro ⟨hlen, hall⟩
        cases xs with
        | nil => cases hlen
        | cons x xs =>
            refine ⟨x, hall 0 (Nat.zero_lt_succ _), xs, ih.mpr ⟨Nat.succ.inj hlen, ?_⟩, rfl⟩
            intro k hk
            rw [Nat.succ_add_eq_add_succ]
            exact hall (k + 1) (Nat.succ_lt_succ hk)

/-- A range is read as a whole when it lies in the window, and otherwise not at all. -/
theorem readFrom_isSome_iff {count : Nat} :
    (l.readFrom count i).isSome ↔
      count = 0 ∨ (l.firstIndex ≤ i ∧ i + count ≤ l.lastIndex + 1) := by
  induction count generalizing i with
  | zero => simp [readFrom]
  | succ count ih =>
      have hread := read_isSome_iff (l := l) (i := i)
      rw [readFrom, Option.isSome_bind]
      cases hx : l.read i with
      | none =>
          rw [hx] at hread
          simp at hread ⊢
          omega
      | some x =>
          rw [hx] at hread
          simp only [Option.isSome_some, true_iff] at hread
          simp [ih]
          omega

end IndexedLog

end Library
