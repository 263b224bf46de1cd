import Mathlib.Logic.Basic
import Mathlib.Logic.Function.Iterate

/-!
# Repeating a step until it is done

A step either is the last one, or leads to a state from which it is repeated; `none` is a
failure. Repeating a step finishes if enough repetitions come to an end. The rule to prove
this is a natural variant that goes down with every step, except for steps to a state
from which the rest is known. The rule to refute it is an invariant under which no step
is the last.

A loop with a condition is described by the states it passes through: it ends in the
first one that does not meet the condition, and goes on for ever if there is none.
-/

namespace Library

variable {S : Type*}

inductive Outcome (S : Type*) where
  | done
  | again (s : S)

/-- At most `n` repetitions. -/
def iterate (step : S → Option (Outcome S)) : Nat → S → Option (Outcome S)
  | 0, s => some (.again s)
  | n + 1, s => (step s).bind fun
      | .done => some .done
      | .again t => iterate step n t

/-- The repetitions come to an end, without a failure. -/
def Finishes (step : S → Option (Outcome S)) (s : S) : Prop :=
  ∃ n, iterate step n s = some .done

namespace Finishes

variable {step : S → Option (Outcome S)} {s t : S}

theorem of_done (h : step s = some .done) : Finishes step s :=
  ⟨1, by rw [iterate, h, Option.bind_some]⟩

theorem of_again (h : step s = some (.again t)) (rest : Finishes step t) : Finishes step s := by
  obtain ⟨n, hn⟩ := rest
  exact ⟨n + 1, by rw [iterate, h, Option.bind_some]; exact hn⟩

theorem next (h : Finishes step s) (again : step s = some (.again t)) : Finishes step t := by
  obtain ⟨n, hn⟩ := h
  cases n with
  | zero => cases hn
  | succ n =>
      rw [iterate, again, Option.bind_some] at hn
      exact ⟨n, hn⟩

/-- Every step is the last one, lowers the variant, or leads to a state that finishes. -/
theorem of_variant {P : S → Prop} (variant : S → Nat)
    (next : ∀ s, P s → step s = some .done ∨
      ∃ t, step s = some (.again t) ∧ (Finishes step t ∨ (P t ∧ variant t < variant s)))
    (h : P s) : Finishes step s := by
  induction hv : variant s using Nat.strongRecOn generalizing s with
  | ind v ih =>
      rcases next s h with done | ⟨t, again, finishes | ⟨ht, lower⟩⟩
      · exact .of_done done
      · exact .of_again again finishes
      · exact .of_again again (ih (variant t) (hv ▸ lower) ht rfl)

/-- Under the invariant every step leads on. -/
theorem not_of_invariant {P : S → Prop}
    (next : ∀ s, P s → ∃ t, step s = some (.again t) ∧ P t) (h : P s) : ¬ Finishes step s := by
  rintro ⟨n, hn⟩
  induction n generalizing s with
  | zero => cases hn
  | succ n ih =>
      obtain ⟨t, again, ht⟩ := next s h
      rw [iterate, again, Option.bind_some] at hn
      exact ih ht hn

end Finishes

/-! ### Loops with a condition -/

section While

variable {S : Type*} (cond : S → Prop) [DecidablePred cond] (body : S → S)

/-- The state after the loop; `none` if it has not come to its end after so many tests of
its condition. -/
def whileLoop : Nat → S → Option S
  | 0, _ => none
  | fuel + 1, s => if cond s then whileLoop fuel (body s) else some s

/-- A loop ends in the first state that does not meet its condition. -/
theorem whileLoop_iff {s t : S} :
    (∃ fuel, whileLoop cond body fuel s = some t) ↔
      ∃ k, body^[k] s = t ∧ ¬ cond t ∧ ∀ j < k, cond (body^[j] s) := by
  constructor
  · rintro ⟨fuel, ended⟩
    induction fuel generalizing s with
    | zero => cases ended
    | succ fuel ih =>
        rw [whileLoop] at ended
        split at ended
        next again =>
          obtain ⟨k, reached, stop, before⟩ := ih ended
          refine ⟨k + 1, reached, stop, fun j earlier => ?_⟩
          cases j with
          | zero => exact again
          | succ j => exact before j (Nat.lt_of_succ_lt_succ earlier)
        next stop =>
          cases ended
          exact ⟨0, rfl, stop, fun j before => absurd before (Nat.not_lt_zero j)⟩
  · rintro ⟨k, reached, stop, before⟩
    refine ⟨k + 1, ?_⟩
    induction k generalizing s with
    | zero =>
        cases reached
        exact if_neg stop
    | succ k ih =>
        have first : cond s := before 0 (Nat.succ_pos k)
        rw [whileLoop, if_pos first]
        exact ih reached fun j earlier => before (j + 1) (Nat.succ_lt_succ earlier)

/-- Each round keeps the invariant and lowers the variant. -/
theorem exists_whileLoop {P : S → Prop} (variant : S → Nat)
    (next : ∀ s, P s → cond s → P (body s) ∧ variant (body s) < variant s) {s : S} (h : P s) :
    ∃ fuel t, whileLoop cond body fuel s = some t ∧ P t := by
  induction hv : variant s using Nat.strongRecOn generalizing s with
  | ind v ih =>
      by_cases again : cond s
      · obtain ⟨kept, lower⟩ := next s h again
        obtain ⟨fuel, t, ended, ht⟩ := ih (variant (body s)) (hv ▸ lower) kept rfl
        exact ⟨fuel + 1, t, by rw [whileLoop, if_pos again, ended], ht⟩
      · exact ⟨1, s, if_neg again, h⟩

end While

end Library
