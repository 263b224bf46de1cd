import Mathlib.Order.Lattice

/-!
# Directories and caches

A directory is the list of its files in the order of their names. The lemmas say what an
operation does to a directory that is given in parts, before and behind the name.

A cache holds the values that were set most recently, up to its size. Setting a value
evicts at most one other.
-/

namespace Library

/-! ### Directories -/

/-- Files with their contents, ordered by name. -/
abbrev Directory (ν γ : Type*) := List (ν × γ)

namespace Directory

variable {ν γ : Type*} [LinearOrder ν]

def read : Directory ν γ → ν → Option γ
  | [], _ => none
  | (m, c) :: rest, n => if m = n then some c else read rest n

/-- Create the file, or replace its contents. -/
def write : Directory ν γ → ν → γ → Directory ν γ
  | [], n, c => [(n, c)]
  | (m, d) :: rest, n, c =>
      if m < n then (m, d) :: write rest n c
      else if m = n then (n, c) :: rest
      else (n, c) :: (m, d) :: rest

def erase : Directory ν γ → ν → Directory ν γ
  | [], _ => []
  | (m, c) :: rest, n => if m = n then rest else (m, c) :: erase rest n

/-- A file that is not there cannot be removed. -/
def remove (d : Directory ν γ) (n : ν) : Option (Directory ν γ) :=
  (d.read n).map fun _ => d.erase n

/-- A file that has the new name is replaced. -/
def rename (d : Directory ν γ) (old new : ν) : Option (Directory ν γ) :=
  (d.read old).map fun c => (d.erase old).write new c

/-- Another file is as it was. -/
theorem read_write_of_ne {m n : ν} (h : m ≠ n) (d : Directory ν γ) (c : γ) :
    read (write d n c) m = read d m := by
  induction d with
  | nil => exact if_neg h.symm
  | cons f d ih =>
      rw [write]
      split
      · rw [read, read, ih]
      split
      · rename_i same
        rw [read, read, if_neg h.symm, if_neg (by rw [same]; exact h.symm)]
      · rw [read, if_neg h.symm]

section Parts

variable {before behind : Directory ν γ} {n : ν} (hbefore : ∀ f ∈ before, f.1 < n)

include hbefore

theorem read_part (c : γ) : read (before ++ (n, c) :: behind) n = some c := by
  induction before with
  | nil => exact if_pos rfl
  | cons f before ih =>
      have here := hbefore f List.mem_cons_self
      rw [List.cons_append, read, if_neg (ne_of_lt here)]
      exact ih fun g hg => hbefore g (List.mem_cons_of_mem f hg)

theorem erase_part (c : γ) : erase (before ++ (n, c) :: behind) n = before ++ behind := by
  induction before with
  | nil => exact if_pos rfl
  | cons f before ih =>
      have here := hbefore f List.mem_cons_self
      rw [List.cons_append, erase, if_neg (ne_of_lt here),
        ih fun g hg => hbefore g (List.mem_cons_of_mem f hg), List.cons_append]

theorem remove_part (c : γ) : remove (before ++ (n, c) :: behind) n = some (before ++ behind) := by
  rw [remove, read_part hbefore, erase_part hbefore, Option.map_some]

theorem write_over (c c' : γ) :
    write (before ++ (n, c) :: behind) n c' = before ++ (n, c') :: behind := by
  induction before with
  | nil => rw [List.nil_append, write, if_neg (lt_irrefl n), if_pos rfl, List.nil_append]
  | cons f before ih =>
      have here := hbefore f List.mem_cons_self
      rw [List.cons_append, write, if_pos here,
        ih fun g hg => hbefore g (List.mem_cons_of_mem f hg), List.cons_append]

theorem write_part (hbehind : ∀ f ∈ behind, n < f.1) (c : γ) :
    write (before ++ behind) n c = before ++ (n, c) :: behind := by
  induction before with
  | nil =>
      cases behind with
      | nil => rfl
      | cons f behind =>
          have here := hbehind f List.mem_cons_self
          rw [List.nil_append, write, if_neg (lt_asymm here), if_neg (ne_of_gt here), List.nil_append]
  | cons f before ih =>
      have here := hbefore f List.mem_cons_self
      rw [List.cons_append, write, if_pos here,
        ih fun g hg => hbefore g (List.mem_cons_of_mem f hg), List.cons_append]

end Parts

end Directory

/-! ### Caches -/

/-- The values set most recently come first. -/
structure Lru (κ ν : Type*) where
  size : Nat
  items : List (κ × ν) := []

namespace Lru

variable {κ ν : Type*} [DecidableEq κ] {cache : Lru κ ν} {k : κ} {v x : ν}

/-- Set a value. If the key is new and there is no room for it, the value that was set
least recently is evicted and returned. -/
def setEvicted (cache : Lru κ ν) (k : κ) (v : ν) : Lru κ ν × Option ν :=
  if k ∈ cache.items.map Prod.fst then
    ({ cache with items := (k, v) :: cache.items.filter (·.1 ≠ k) }, none)
  else if cache.items.length < cache.size then
    ({ cache with items := (k, v) :: cache.items }, none)
  else ({ cache with items := (k, v) :: cache.items.dropLast }, cache.items.getLast?.map Prod.snd)

def values (cache : Lru κ ν) : List ν := cache.items.map Prod.snd

/-- The value that was set last. -/
def newest (cache : Lru κ ν) : Option ν := cache.values.head?

omit [DecidableEq κ] in
theorem newest_mem (h : cache.newest = some x) : ∃ k, (k, x) ∈ cache.items := by
  obtain ⟨⟨k, y⟩, hitem, rfl⟩ := List.mem_map.mp (List.mem_of_mem_head? h)
  exact ⟨k, hitem⟩

theorem mem_setEvicted_self (cache : Lru κ ν) (k : κ) (v : ν) :
    (k, v) ∈ (cache.setEvicted k v).1.items := by
  rw [setEvicted]
  split
  · exact List.mem_cons_self
  · split <;> exact List.mem_cons_self

theorem newest_setEvicted (cache : Lru κ ν) (k : κ) (v : ν) :
    (cache.setEvicted k v).1.newest = some v := by
  rw [setEvicted]
  split
  · rfl
  · split <;> rfl

/-- Nothing else comes into the cache. -/
theorem mem_setEvicted {item : κ × ν} (h : item ∈ (cache.setEvicted k v).1.items) :
    item = (k, v) ∨ item ∈ cache.items := by
  rw [setEvicted] at h
  split at h
  · exact (List.mem_cons.mp h).imp_right fun here => (List.mem_filter.mp here).1
  split at h
  · exact List.mem_cons.mp h
  · exact (List.mem_cons.mp h).imp_right fun here => (List.dropLast_sublist _).subset here

/-- What is evicted was there under another key. -/
theorem evicted_mem (h : (cache.setEvicted k v).2 = some x) :
    ∃ k', k' ≠ k ∧ (k', x) ∈ cache.items := by
  rw [setEvicted] at h
  split at h
  · cases h
  rename_i absent
  split at h
  · cases h
  · obtain ⟨⟨k', y⟩, hitem, rfl⟩ := Option.map_eq_some_iff.mp h
    have here := List.mem_of_getLast? hitem
    refine ⟨k', ?_, here⟩
    rintro rfl
    exact absent (List.mem_map_of_mem here)

end Lru

end Library
