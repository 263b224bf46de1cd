import Mathlib.Logic.Basic

/-!
# Runs of a partial step function

`step s a = some t` says that action `a` is enabled in `s` and leads to `t`. A
run may be restricted by a condition on the state before each step; the plain
runs are those of the condition that always holds. `run` evaluates a list of
actions, so that one particular run can be computed.
-/

namespace Library

variable {S A : Type*}

/-- `t` is reached from `start` by steps that all meet `ok` where they start. -/
inductive Reaches (step : S → A → Option S) (ok : S → A → Prop) (start : S) : S → Prop where
  | refl : Reaches step ok start start
  | tail {s t : S} {a : A} :
      Reaches step ok start s → ok s a → step s a = some t → Reaches step ok start t

/-- An action that has a condition and calls something that may fail. -/
theorem enabled_map {X Y : Type*} {c : Prop} [Decidable c] {o : Option X} {f : X → Y} {y : Y} :
    (if c then o.map f else none) = some y ↔ c ∧ ∃ x, o = some x ∧ f x = y := by
  rw [Option.ite_none_right_eq_some, Option.map_eq_some_iff]

/-- An action that has a condition only. -/
theorem enabled_some {X : Type*} {c : Prop} [Decidable c] {x y : X} :
    (if c then some x else none) = some y ↔ c ∧ x = y := by
  rw [Option.ite_none_right_eq_some, Option.some.injEq]

/-- Every run, without a condition on its steps. -/
abbrev Reachable (step : S → A → Option S) (start : S) : S → Prop :=
  Reaches step (fun _ _ => True) start

/-- Evaluate a list of actions; `none` if one of them is not enabled. -/
def run (step : S → A → Option S) : S → List A → Option S
  | s, [] => some s
  | s, a :: as => (step s a).bind (run step · as)

theorem run_cons (step : S → A → Option S) (s : S) (a : A) (as : List A) :
    run step s (a :: as) = (step s a).bind (run step · as) := rfl

theorem run_singleton (step : S → A → Option S) (s : S) (a : A) : run step s [a] = step s a :=
  Option.bind_fun_some (step s a)

theorem run_append {step : S → A → Option S} {s : S} (as bs : List A) :
    run step s (as ++ bs) = (run step s as).bind (run step · bs) := by
  induction as generalizing s with
  | nil => rfl
  | cons a as ih =>
      rw [List.cons_append, run_cons, run_cons, Option.bind_assoc]
      exact congrArg _ (funext fun _ => ih)

/-- The actions can all be taken, and `I` holds before and after each of them. -/
def Along (step : S → A → Option S) (I : S → Prop) : S → List A → Prop
  | s, [] => I s
  | s, a :: as => I s ∧ ∃ t, step s a = some t ∧ Along step I t as

/-- Wherever the run is stopped. -/
theorem Along.stopped {step : S → A → Option S} {I : S → Prop} {s : S} {as bs : List A}
    (h : Along step I s as) (stop : bs <+: as) : ∃ t, run step s bs = some t ∧ I t := by
  induction as generalizing s bs with
  | nil =>
      cases List.prefix_nil.mp stop
      exact ⟨s, rfl, h⟩
  | cons a as ih =>
      obtain ⟨here, t, step, rest⟩ := h
      rcases List.prefix_cons_iff.mp stop with rfl | ⟨cs, rfl, earlier⟩
      · exact ⟨s, rfl, here⟩
      · obtain ⟨u, ran, hu⟩ := ih rest earlier
        refine ⟨u, ?_, hu⟩
        rw [run_cons, step, Option.bind_some]
        exact ran

namespace Reaches

variable {step : S → A → Option S} {ok ok' : S → A → Prop} {start s t : S}

/-- An invariant may be proved together with the knowledge that its state has
been reached, so that invariants can be layered. -/
theorem invariant {I : S → Prop} (h : Reaches step ok start t) (first : I start)
    (next : ∀ s a t, Reaches step ok start s → I s → ok s a → step s a = some t → I t) :
    I t := by
  induction h with
  | refl => exact first
  | tail reached allowed taken ih => exact next _ _ _ reached ih allowed taken

theorem mono (h : Reaches step ok start t) (weaken : ∀ s a, ok s a → ok' s a) :
    Reaches step ok' start t := by
  induction h with
  | refl => exact .refl
  | tail _ allowed taken ih => exact .tail ih (weaken _ _ allowed) taken

theorem trans (h₁ : Reaches step ok start s) (h₂ : Reaches step ok s t) :
    Reaches step ok start t := by
  induction h₂ with
  | refl => exact h₁
  | tail _ allowed taken ih => exact .tail ih allowed taken

/-- A run may be observed through a map under which every step is a step of
another system, or no step at all. -/
theorem map {S' A' : Type*} {step' : S' → A' → Option S'} {ok' : S' → A' → Prop}
    {f : S → S'} (h : Reaches step ok start t)
    (simulate : ∀ s a t, ok s a → step s a = some t →
      f t = f s ∨ ∃ a', ok' (f s) a' ∧ step' (f s) a' = some (f t)) :
    Reaches step' ok' (f start) (f t) := by
  induction h with
  | refl => exact .refl
  | tail _ allowed taken ih =>
      rcases simulate _ _ _ allowed taken with same | ⟨a', allowed', taken'⟩
      · rw [same]
        exact ih
      · exact .tail ih allowed' taken'

end Reaches

/-- Every action of a list meets `ok` where it is taken. -/
def Allowed (step : S → A → Option S) (ok : S → A → Prop) : S → List A → Prop
  | _, [] => True
  | s, a :: as => ok s a ∧
      match step s a with
      | none => True
      | some t => Allowed step ok t as

theorem Allowed.of_forall {step : S → A → Option S} {ok : S → A → Prop} (h : ∀ s a, ok s a)
    (s : S) (as : List A) : Allowed step ok s as := by
  induction as generalizing s with
  | nil => trivial
  | cons a as ih =>
      refine ⟨h s a, ?_⟩
      split
      · trivial
      · exact ih _

instance Allowed.decidable (step : S → A → Option S) (ok : S → A → Prop)
    [∀ s a, Decidable (ok s a)] : ∀ s as, Decidable (Allowed step ok s as)
  | _, [] => isTrue trivial
  | s, a :: as =>
      match h : step s a with
      | none => decidable_of_iff (ok s a) (by simp [Allowed, h])
      | some t =>
          have := Allowed.decidable step ok t as
          decidable_of_iff (ok s a ∧ Allowed step ok t as) (by simp [Allowed, h])

/-- An evaluated list of actions is a run. -/
theorem reaches_of_run {step : S → A → Option S} {ok : S → A → Prop} {s t : S}
    {actions : List A} (allowed : Allowed step ok s actions)
    (h : run step s actions = some t) : Reaches step ok s t := by
  induction actions generalizing s with
  | nil =>
      cases h
      exact .refl
  | cons a as ih =>
      obtain ⟨u, taken, rest⟩ := Option.bind_eq_some_iff.mp h
      obtain ⟨first, others⟩ := allowed
      rw [taken] at others
      exact (Reaches.tail .refl first taken).trans (ih others rest)

/-- A run whose end can be evaluated and tested. -/
theorem exists_reaches {step : S → A → Option S} {ok : S → A → Prop} {s : S}
    (P : S → Prop) [DecidablePred P] (actions : List A) (allowed : Allowed step ok s actions)
    (h : (run step s actions).any (fun t => decide (P t)) = true) :
    ∃ t, Reaches step ok s t ∧ P t := by
  cases ended : run step s actions with
  | none =>
      rw [ended] at h
      cases h
  | some t =>
      rw [ended] at h
      exact ⟨t, reaches_of_run allowed ended, of_decide_eq_true h⟩

theorem exists_reachable {step : S → A → Option S} {s : S} (P : S → Prop) [DecidablePred P]
    (actions : List A) (h : (run step s actions).any (fun t => decide (P t)) = true) :
    ∃ t, Reachable step s t ∧ P t :=
  exists_reaches P actions (.of_forall (fun _ _ => trivial) s actions) h

end Library
