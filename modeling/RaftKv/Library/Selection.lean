import Mathlib.Logic.Basic

/-!
# Choosing by chance

Nothing is said here about probabilities. A `Draw` is a source that answers with some
number of the range that it is asked for, and a property of a choice is a property for
all draws. In the same way, `Orders` are any orders in which loops go over a collection.

To choose the first candidate in turn is to take the one at hand, or to pass it over and
take the first one of the rest.

To choose from a list with weights, the weights are taken from a number one after
another, and the first one that uses it up is chosen. Some element is chosen if the whole
list uses up the number, whatever happens on the way.
-/

namespace Library

/-- What a source answers when it is asked for a number below `n`. -/
structure Draw where
  value : Nat → Nat
  value_lt : ∀ {n}, 0 < n → value n < n

namespace Draw

/-- There is no number below zero: to ask for one is a panic. -/
def below (d : Draw) (n : Nat) : Option Nat := if 0 < n then some (d.value n) else none

/-- A source that answers `k` whenever it may. -/
def always (k : Nat) : Draw where
  value n := if k < n then k else 0
  value_lt {n} positive := by
    split
    · assumption
    · exact positive

theorem below_pos (d : Draw) {n : Nat} (positive : 0 < n) : d.below n = some (d.value n) :=
  if_pos positive

@[simp] theorem below_zero (d : Draw) : d.below 0 = none := rfl

end Draw

/-- In which order each of a number of loops goes over a collection that has no order. -/
structure Orders (α : Type*) where
  order : Nat → List α → List α
  perm : ∀ k l, (order k l).Perm l

/-- Always the order of the list. -/
def Orders.listed {α : Type*} : Orders α where
  order _ l := l
  perm _ l := .refl l

/-- The first place in turn is the place at hand or, if that is passed over, a later one. -/
theorem exists_first_succ {A B : Nat → Prop} {n : Nat} :
    (∃ k < n + 1, (∀ j < k, A j) ∧ B k) ↔
      B 0 ∨ A 0 ∧ ∃ k < n, (∀ j < k, A (j + 1)) ∧ B (k + 1) := by
  constructor
  · rintro ⟨k, bound, before, here⟩
    cases k with
    | zero => exact .inl here
    | succ k =>
        exact .inr ⟨before 0 (Nat.succ_pos k), k, Nat.lt_of_succ_lt_succ bound,
          fun j earlier => before (j + 1) (Nat.succ_lt_succ earlier), here⟩
  · rintro (here | ⟨first, k, bound, before, here⟩)
    · exact ⟨0, Nat.succ_pos n, fun j none => absurd none (Nat.not_lt_zero j), here⟩
    · refine ⟨k + 1, Nat.succ_lt_succ bound, fun j earlier => ?_, here⟩
      cases j with
      | zero => exact first
      | succ j => exact before j (Nat.lt_of_succ_lt_succ earlier)

section Walk

variable {α M : Type*} [Sub M] [OfNat M 0] [LE M] [DecidableLE M] (weight : α → M)

/-- Take the weights from `x` until it is used up. -/
def walk : M → List α → Option α
  | _, [] => none
  | x, a :: rest => if x - weight a ≤ 0 then some a else walk (x - weight a) rest

theorem exists_walk {x : M} {l : List α} (some_element : l ≠ [])
    (used_up : l.foldl (fun x a => x - weight a) x ≤ 0) : ∃ a ∈ l, walk weight x l = some a := by
  induction l generalizing x with
  | nil => exact absurd rfl some_element
  | cons a rest ih =>
      rw [walk]
      by_cases here : x - weight a ≤ 0
      · exact ⟨a, List.mem_cons_self, if_pos here⟩
      · have more : rest ≠ [] := by
          rintro rfl
          exact here used_up
        obtain ⟨b, later, found⟩ := ih more used_up
        exact ⟨b, List.mem_cons_of_mem a later, by rw [if_neg here, found]⟩

end Walk

end Library
