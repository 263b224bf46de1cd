import Mathlib.Algebra.Group.Nat.Defs
import Mathlib.Data.List.Lex
import Mathlib.Data.List.Sort
import Mathlib.Data.Nat.Basic

/-!
# Numbers of a fixed width

The digits of a number from the highest to the lowest, a fixed number of them. Sequences of
digits of one width are in the order of their numbers, and so are sequences that are put
together of parts of the same widths. Whoever sorts them finds the largest number first.
-/

namespace Library

variable {α : Type*}

/-- The last `k` digits of a number. -/
def digits (base : Nat) (digit : Nat → α) : Nat → Nat → List α
  | 0, _ => []
  | k + 1, n => digit (n / base ^ k) :: digits base digit k (n % base ^ k)

section Digits

variable {base : Nat} {digit : Nat → α}

@[simp] theorem length_digits (k n : Nat) : (digits base digit k n).length = k := by
  induction k generalizing n with
  | zero => rfl
  | succ k ih => rw [digits, List.length_cons, ih]

/-- Nothing but digits. -/
theorem mem_digits (pos : 0 < base) {k n : Nat} (hn : n < base ^ k) {x : α}
    (hx : x ∈ digits base digit k n) : ∃ i < base, x = digit i := by
  induction k generalizing n with
  | zero => cases hx
  | succ k ih =>
      have power := Nat.pow_pos (n := k) pos
      rw [digits] at hx
      rcases List.mem_cons.mp hx with rfl | hx
      · refine ⟨_, ?_, rfl⟩
        rw [Nat.div_lt_iff_lt_mul power, Nat.mul_comm]
        exact hn
      · exact ih (Nat.mod_lt _ power) hx

variable [LinearOrder α]

theorem digits_lt_digits_of_lt (pos : 0 < base)
    (mono : ∀ j < base, ∀ i < j, digit i < digit j) {k m n : Nat} (hn : n < base ^ k)
    (hlt : m < n) : digits base digit k m < digits base digit k n := by
  induction k generalizing m n with
  | zero =>
      rw [Nat.pow_zero] at hn
      omega
  | succ k ih =>
      have power := Nat.pow_pos (n := k) pos
      rw [digits, digits, List.cons_lt_cons_iff]
      rcases Nat.lt_or_eq_of_le (Nat.div_le_div_right (c := base ^ k) (Nat.le_of_lt hlt)) with
        less | same
      · refine .inl (mono _ ?_ _ less)
        rw [Nat.div_lt_iff_lt_mul power, Nat.mul_comm]
        exact hn
      · -- the highest digits are the same, so the others decide
        refine .inr ⟨congrArg digit same, ih (Nat.mod_lt _ power) ?_⟩
        have hm := Nat.div_add_mod m (base ^ k)
        have hn := Nat.div_add_mod n (base ^ k)
        rw [same] at hm
        omega

theorem digits_lt_digits_iff (pos : 0 < base) (mono : ∀ j < base, ∀ i < j, digit i < digit j)
    {k m n : Nat} (hm : m < base ^ k) (hn : n < base ^ k) :
    digits base digit k m < digits base digit k n ↔ m < n := by
  constructor
  · intro h
    by_contra ge
    rcases Nat.lt_or_eq_of_le (Nat.not_lt.mp ge) with less | same
    · exact lt_asymm h (digits_lt_digits_of_lt pos mono hm less)
    · rw [same] at h
      exact lt_irrefl _ h
  · exact digits_lt_digits_of_lt pos mono hn

theorem digits_inj (pos : 0 < base) (mono : ∀ j < base, ∀ i < j, digit i < digit j)
    {k m n : Nat} (hm : m < base ^ k) (hn : n < base ^ k) :
    digits base digit k m = digits base digit k n ↔ m = n := by
  constructor
  · intro h
    have less := digits_lt_digits_iff pos mono hm hn
    have greater := digits_lt_digits_iff pos mono hn hm
    rw [h] at less greater
    have irrefl := lt_irrefl (digits base digit k n)
    have := mt less.mpr irrefl
    have := mt greater.mpr irrefl
    omega
  · rintro rfl
    rfl

end Digits

section Order

variable [LinearOrder α]

/-- The first parts decide if they have the same length. -/
theorem append_lt_append_iff {as bs cs ds : List α} (length : as.length = bs.length) :
    as ++ cs < bs ++ ds ↔ as < bs ∨ as = bs ∧ cs < ds := by
  induction as generalizing bs with
  | nil =>
      cases bs with
      | nil => simp
      | cons b bs => cases length
  | cons a as ih =>
      cases bs with
      | nil => cases length
      | cons b bs =>
          rw [List.cons_append, List.cons_append, List.cons_lt_cons_iff, List.cons_lt_cons_iff,
            ih (Nat.succ.inj length), List.cons.injEq]
          tauto

/-- The largest comes first, in whatever order the list was. -/
theorem insertionSort_eq_cons {l rest : List α} {x : α} (perm : l.Perm (x :: rest))
    (largest : ∀ y ∈ rest, y ≤ x) :
    l.insertionSort (· ≥ ·) = x :: rest.insertionSort (· ≥ ·) := by
  refine List.Perm.eq_of_pairwise' (r := (· ≥ ·)) (List.pairwise_insertionSort _ _) ?_ ?_
  · refine List.pairwise_cons.mpr ⟨?_, List.pairwise_insertionSort _ _⟩
    intro y hy
    exact largest y ((List.mem_insertionSort _).mp hy)
  · exact (List.perm_insertionSort _ _).trans (perm.trans (.cons x (List.perm_insertionSort _ _).symm))

end Order

end Library
