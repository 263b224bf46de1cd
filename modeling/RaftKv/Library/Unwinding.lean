import RaftKv.Library.Run

/-!
# Runs that an observer cannot tell apart

Some of the actions of a system are an observer's own, and two states are related if the
observer cannot tell them apart. If the actions of others lead to a related state, and an
action of the observer's own leads from related states to related ones, then two runs with
the same own actions in the same order end in related states, whatever the others have
done in between.
-/

namespace Library

variable {S A : Type*}

/-- What has to be shown of single steps. Actions of others may be restricted by `ok`. -/
structure Unwinding (step : S → A → Option S) (ok : S → A → Prop) (own : A → Bool)
    (rel : S → S → Prop) : Prop where
  equivalence : Equivalence rel
  others : ∀ {s t : S} {a : A}, own a = false → ok s a → step s a = some t → rel s t
  consistent : ∀ {s s' t t' : S} {a : A}, own a = true → rel s s' →
    step s a = some t → step s' a = some t' → rel t t'

variable {step : S → A → Option S} {ok : S → A → Prop}

theorem Allowed.append {s t : S} {as bs : List A} (h : Allowed step ok s (as ++ bs))
    (hrun : run step s as = some t) : Allowed step ok s as ∧ Allowed step ok t bs := by
  induction as generalizing s with
  | nil =>
      cases hrun
      exact ⟨trivial, h⟩
  | cons a as ih =>
      obtain ⟨first, rest⟩ := h
      obtain ⟨u, taken, hrun⟩ := Option.bind_eq_some_iff.mp hrun
      rw [taken] at rest
      obtain ⟨earlier, later⟩ := ih rest hrun
      refine ⟨⟨first, ?_⟩, later⟩
      rw [taken]
      exact earlier

namespace Unwinding

variable {own : A → Bool} {rel : S → S → Prop} {s s' t t' : S} {as bs : List A}

/-- The others have taken every step. -/
theorem run_others (h : Unwinding step ok own rel) (hothers : ∀ a ∈ as, ¬ own a = true)
    (allowed : Allowed step ok s as) (hrun : run step s as = some t) : rel s t := by
  induction as generalizing s with
  | nil =>
      cases hrun
      exact h.equivalence.refl _
  | cons a as ih =>
      obtain ⟨hother, hothers⟩ := List.forall_mem_cons.mp hothers
      obtain ⟨first, rest⟩ := allowed
      obtain ⟨u, taken, hrun⟩ := Option.bind_eq_some_iff.mp hrun
      rw [taken] at rest
      exact h.equivalence.trans (h.others (Bool.eq_false_iff.mpr hother) first taken)
        (ih hothers rest hrun)

/-- Two runs with the same own actions. -/
theorem run (h : Unwinding step ok own rel) (related : rel s s')
    (same : as.filter own = bs.filter own) (allowed : Allowed step ok s as)
    (allowed' : Allowed step ok s' bs) (hrun : Library.run step s as = some t)
    (hrun' : Library.run step s' bs = some t') : rel t t' := by
  have transitive {x y z : S} := @h.equivalence.trans x y z
  induction as generalizing s s' bs with
  | nil =>
      cases hrun
      have hothers : ∀ a ∈ bs, ¬ own a = true := List.filter_eq_nil_iff.mp same.symm
      exact transitive related (h.run_others hothers allowed' hrun')
  | cons a as ih =>
      obtain ⟨first, rest⟩ := allowed
      obtain ⟨u, taken, hrun⟩ := Option.bind_eq_some_iff.mp hrun
      rw [taken] at rest
      cases howner : own a with
      | false =>
          rw [List.filter_cons_of_neg (by rw [howner]; exact Bool.false_ne_true)] at same
          have back := h.equivalence.symm (h.others howner first taken)
          exact ih (transitive back related) same rest allowed' hrun hrun'
      | true =>
          rw [List.filter_cons_of_pos howner] at same
          -- the other run comes to the same action after some steps of others
          obtain ⟨before, behind, rfl, hothers, -, same⟩ := List.filter_eq_cons_iff.mp same.symm
          rw [run_append] at hrun'
          obtain ⟨v, hbefore, hrun'⟩ := Option.bind_eq_some_iff.mp hrun'
          obtain ⟨allowed, allowed'⟩ := allowed'.append hbefore
          obtain ⟨-, rest'⟩ := allowed'
          obtain ⟨v', taken', hrun'⟩ := Option.bind_eq_some_iff.mp hrun'
          rw [taken'] at rest'
          have reached := transitive related (h.run_others hothers allowed hbefore)
          exact ih (h.consistent howner reached taken taken') same.symm rest rest' hrun hrun'

end Unwinding

end Library
