import RaftKv.Library.IndexedLog

/-!
# Indexed logs in chunks

An indexed log may be kept as a list of chunks, each of which knows its first index and
the handle under which it is stored. `Covers i chunks j` says that the chunks hold the
indices from `i` up to but not including `j`, without a gap. An index in this range lies
in one chunk, and reading or cutting there is reading or cutting in the chunk.

`bisect` finds the chunk of an index.
-/

namespace Library

structure Chunk (τ α : Type*) where
  handle : τ
  index : Nat
  entries : List α

namespace Chunk

variable {τ α : Type*} {i j k n : Nat} {c : Chunk τ α} {front back chunks : List (Chunk τ α)}

/-- The index behind the last entry. -/
def stop (c : Chunk τ α) : Nat := c.index + c.entries.length

def flatten (chunks : List (Chunk τ α)) : List α := chunks.flatMap entries

@[simp] theorem flatten_append (front back : List (Chunk τ α)) :
    flatten (front ++ back) = flatten front ++ flatten back :=
  List.flatMap_append

@[simp] theorem flatten_cons (c : Chunk τ α) (back : List (Chunk τ α)) :
    flatten (c :: back) = c.entries ++ flatten back := rfl

@[simp] theorem flatten_nil : flatten ([] : List (Chunk τ α)) = [] := rfl

/-- Each chunk starts where the one before it stops. -/
def Covers : Nat → List (Chunk τ α) → Nat → Prop
  | i, [], j => i = j
  | i, c :: chunks, j => c.index = i ∧ Covers c.stop chunks j

namespace Covers

theorem append_iff : Covers i (front ++ back) j ↔ ∃ k, Covers i front k ∧ Covers k back j := by
  induction front generalizing i with
  | nil => exact ⟨fun h => ⟨i, rfl, h⟩, fun ⟨k, same, h⟩ => by cases same; exact h⟩
  | cons c front ih =>
      constructor
      · rintro ⟨start, rest⟩
        obtain ⟨k, hfront, hback⟩ := ih.mp rest
        exact ⟨k, ⟨start, hfront⟩, hback⟩
      · rintro ⟨k, ⟨start, hfront⟩, hback⟩
        exact ⟨start, ih.mpr ⟨k, hfront, hback⟩⟩

/-- A list of chunks around one of them. -/
theorem split (h : Covers i (front ++ c :: back) j) :
    Covers i front c.index ∧ Covers c.stop back j := by
  obtain ⟨k, hfront, start, hback⟩ := append_iff.mp h
  cases start
  exact ⟨hfront, hback⟩

theorem join (hfront : Covers i front c.index) (hback : Covers c.stop back j) :
    Covers i (front ++ c :: back) j :=
  append_iff.mpr ⟨c.index, hfront, rfl, hback⟩

theorem length (h : Covers i chunks j) : j = i + (flatten chunks).length := by
  induction chunks generalizing i with
  | nil => exact h.symm
  | cons c chunks ih =>
      obtain ⟨start, rest⟩ := h
      rw [ih rest, flatten_cons, List.length_append, stop, start, Nat.add_assoc]

theorem le (h : Covers i chunks j) : i ≤ j := by
  rw [h.length]
  exact Nat.le_add_right _ _

/-- The chunks are in their range. -/
theorem range (h : Covers i chunks j) (hc : c ∈ chunks) : i ≤ c.index ∧ c.stop ≤ j := by
  obtain ⟨front, back, rfl⟩ := List.append_of_mem hc
  obtain ⟨hfront, hback⟩ := h.split
  exact ⟨hfront.le, hback.le⟩

theorem sorted (h : Covers i chunks j) : chunks.Pairwise fun b c => b.stop ≤ c.index := by
  induction chunks generalizing i with
  | nil => exact List.Pairwise.nil
  | cons c chunks ih =>
      obtain ⟨-, rest⟩ := h
      exact List.Pairwise.cons (fun b hb => (rest.range hb).1) (ih rest)

/-- An index of the range lies in a chunk. -/
theorem locate (h : Covers i chunks j) (hi : i ≤ n) (hj : n < j) :
    ∃ front c back, chunks = front ++ c :: back ∧ c.index ≤ n ∧ n < c.stop := by
  induction chunks generalizing i with
  | nil =>
      cases h
      omega
  | cons c chunks ih =>
      obtain ⟨start, rest⟩ := h
      by_cases here : n < c.stop
      · exact ⟨[], c, chunks, rfl, by omega, here⟩
      · obtain ⟨front, d, back, rfl, hd⟩ := ih rest (by omega)
        exact ⟨c :: front, d, back, rfl, hd⟩

section Inside

variable (h : Covers i (front ++ c :: back) j) (hi : c.index ≤ n)

include h hi

/-- Positions in the whole log and in the chunk. -/
theorem position : n - i = (flatten front).length + (n - c.index) := by
  have before := h.split.1.length
  omega

theorem getElem?_flatten (hn : n < c.stop) :
    (flatten (front ++ c :: back))[n - i]? = c.entries[n - c.index]? := by
  rw [stop] at hn
  rw [h.position hi, flatten_append, List.getElem?_append_right (Nat.le_add_right _ _),
    Nat.add_sub_cancel_left, flatten_cons, List.getElem?_append_left (by omega)]

theorem drop_flatten (hn : n < c.stop) :
    (flatten (front ++ c :: back)).drop (n - i) =
      c.entries.drop (n - c.index) ++ flatten back := by
  rw [stop] at hn
  rw [h.position hi, flatten_append, List.drop_length_add_append, flatten_cons,
    List.drop_append_of_le_length (by omega)]

theorem take_flatten (hn : n < c.stop) :
    (flatten (front ++ c :: back)).take (n + 1 - i) =
      flatten front ++ c.entries.take (n + 1 - c.index) := by
  rw [stop] at hn
  have position : n + 1 - i = (flatten front).length + (n + 1 - c.index) := by
    have before := h.split.1.length
    omega
  rw [position, flatten_append, List.take_length_add_append, flatten_cons,
    List.take_append_of_le_length (by omega)]

end Inside

end Covers

end Chunk

/-! ### Binary search -/

/-- Halve the range from `i` to `j` until it is empty. -/
def bisect (p : Nat → Bool) : Nat → Nat → Nat → Nat
  | 0, i, _ => i
  | fuel + 1, i, j =>
      if i < j then
        let h := i + (j - i) / 2
        if p h then bisect p fuel (h + 1) j else bisect p fuel i h
      else i

/-- If `p` holds exactly below `b`, the search ends at `b`. -/
theorem bisect_eq {p : Nat → Bool} {fuel i j b : Nat} (hi : i ≤ b) (hj : b ≤ j)
    (hfuel : j ≤ i + fuel) (hp : ∀ k, k < j → (p k = true ↔ k < b)) :
    bisect p fuel i j = b := by
  induction fuel generalizing i j with
  | zero =>
      rw [bisect]
      omega
  | succ fuel ih =>
      rw [bisect]
      split
      · rename_i hlt
        have middle := hp (i + (j - i) / 2) (by omega)
        dsimp only
        split
        · rename_i below
          have hb := middle.mp below
          exact ih (by omega) hj (by omega) hp
        · rename_i above
          rw [middle] at above
          exact ih hi (by omega) (by omega) fun k hk => hp k (by omega)
      · omega

/-- If `q` holds of an initial part of a list, the search finds its end. -/
theorem bisect_takeWhile {α : Type*} {l : List α} {q : α → Bool}
    (sorted : l.Pairwise fun x y => q y = true → q x = true) :
    bisect (fun k => l[k]?.any q) l.length 0 l.length = (l.takeWhile q).length := by
  refine bisect_eq (Nat.zero_le _) (List.takeWhile_sublist q).length_le (by omega) ?_
  intro k hk
  rw [List.getElem?_eq_getElem hk, Option.any_some]
  induction l generalizing k with
  | nil => exact absurd hk (Nat.not_lt_zero k)
  | cons x l ih =>
      obtain ⟨first, sorted⟩ := List.pairwise_cons.mp sorted
      by_cases here : q x = true
      · rw [List.takeWhile_cons_of_pos here, List.length_cons]
        cases k with
        | zero => simp [here]
        | succ k =>
            rw [List.getElem_cons_succ, ih sorted, Nat.succ_lt_succ_iff]
      · rw [List.takeWhile_cons_of_neg here]
        refine iff_of_false (fun below => here ?_) (Nat.not_lt_zero k)
        cases k with
        | zero => exact below
        | succ k => exact first _ (List.getElem_mem _) below

/-- An element behind the list that does not count is not searched. -/
theorem takeWhile_concat {α : Type*} {l : List α} {x : α} {q q' : α → Bool}
    (same : ∀ y ∈ l, q' y = q y) (stop : q' x = false) :
    (l ++ [x]).takeWhile q' = l.takeWhile q := by
  induction l with
  | nil => simp [stop]
  | cons y l ih =>
      rw [List.cons_append, List.takeWhile_cons, List.takeWhile_cons, same y List.mem_cons_self,
        ih fun z hz => same z (List.mem_cons_of_mem y hz)]

end Library
