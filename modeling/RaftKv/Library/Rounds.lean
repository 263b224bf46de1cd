import RaftKv.Library.Run

/-!
# Loops that may crash

A decoder gives a value, reports an error, or crashes. A loop that calls it round after
round on a stream returns at the first error, and crashes with the first crash. If every
value takes something from the stream, the length of the stream is enough fuel, and the
loop crashes if and only if some rest of the stream that it comes to makes the decoder
crash.
-/

namespace Library

/-- What a call can come to. -/
inductive Attempt (α : Type*) where
  | value (a : α)
  | error
  | panic
  deriving DecidableEq

namespace Attempt

variable {α β : Type*}

def bind : Attempt α → (α → Attempt β) → Attempt β
  | value a, f => f a
  | error, _ => error
  | panic, _ => panic

def map (f : α → β) (o : Attempt α) : Attempt β := o.bind fun a => value (f a)

/-- A failure that the caller looks at. -/
def checked : Option α → Attempt α
  | some a => value a
  | none => error

/-- A failure that nobody looks at. -/
def forced : Option α → Attempt α
  | some a => value a
  | none => panic

def toOption : Attempt α → Option α
  | value a => some a
  | _ => none

theorem toOption_bind (o : Attempt α) (f : α → Attempt β) :
    (o.bind f).toOption = o.toOption.bind fun a => (f a).toOption := by
  cases o <;> rfl

theorem toOption_map (o : Attempt α) (f : α → β) : (o.map f).toOption = o.toOption.map f := by
  cases o <;> rfl

@[simp] theorem toOption_checked (o : Option α) : (checked o).toOption = o := by
  cases o <;> rfl

@[simp] theorem toOption_forced (o : Option α) : (forced o).toOption = o := by
  cases o <;> rfl

theorem bind_checked_eq_panic {o : Option α} {f : α → Attempt β} :
    (checked o).bind f = panic ↔ ∃ a, o = some a ∧ f a = panic := by
  cases o with
  | none => exact ⟨nofun, nofun⟩
  | some a =>
      refine ⟨fun h => ⟨a, rfl, h⟩, ?_⟩
      rintro ⟨a', same, h⟩
      cases same
      exact h

theorem bind_forced_eq_panic {o : Option α} {f : α → Attempt β} :
    (forced o).bind f = panic ↔ o = none ∨ ∃ a, o = some a ∧ f a = panic := by
  cases o with
  | none => exact ⟨fun _ => .inl rfl, fun _ => rfl⟩
  | some a =>
      refine ⟨fun h => .inr ⟨a, rfl, h⟩, ?_⟩
      rintro (none | ⟨a', same, h⟩)
      · cases none
      · cases same
        exact h

theorem map_eq_panic {o : Attempt α} {f : α → β} : o.map f = panic ↔ o = panic := by
  cases o with
  | value a => exact ⟨nofun, nofun⟩
  | error => exact ⟨nofun, nofun⟩
  | panic => exact ⟨fun _ => rfl, fun _ => rfl⟩

theorem forced_eq_panic {o : Option α} : forced o = panic ↔ o = none := by
  cases o with
  | none => exact ⟨fun _ => rfl, fun _ => rfl⟩
  | some a => exact ⟨nofun, nofun⟩

theorem map_checked_ne_panic (o : Option α) (f : α → β) : (checked o).map f ≠ panic := by
  cases o <;> exact nofun

theorem eq_value_iff (o : Attempt α) (a : α) : o = value a ↔ o.toOption = some a := by
  cases o with
  | value b => exact ⟨fun h => by cases h; rfl, fun h => by cases h; rfl⟩
  | error => exact ⟨nofun, nofun⟩
  | panic => exact ⟨nofun, nofun⟩

end Attempt

variable {α β : Type*} {next : List β → Attempt (α × List β)}

/-- The values of the rounds, and whether the last of them crashed. -/
def rounds (next : List β → Attempt (α × List β)) : Nat → List β → List α × Bool
  | 0, _ => ([], false)
  | fuel + 1, stream =>
      match next stream with
      | .value (a, rest) => (a :: (rounds next fuel rest).1, (rounds next fuel rest).2)
      | .error => ([], false)
      | .panic => ([], true)

/-- The whole loop. -/
def loop (next : List β → Attempt (α × List β)) (stream : List β) : List α × Bool :=
  rounds next (stream.length + 1) stream

def Crashes (next : List β → Attempt (α × List β)) (stream : List β) : Prop :=
  (loop next stream).2 = true

instance (next : List β → Attempt (α × List β)) (stream : List β) :
    Decidable (Crashes next stream) :=
  inferInstanceAs (Decidable (_ = _))

/-- One round on a stream. -/
def advance (next : List β → Attempt (α × List β)) (stream : List β) (_ : Unit) :
    Option (List β) :=
  (next stream).toOption.map Prod.snd

/-- A value is not made of nothing. -/
def Consumes (next : List β → Attempt (α × List β)) : Prop :=
  ∀ ⦃stream : List β⦄ ⦃a : α⦄ ⦃rest : List β⦄, next stream = .value (a, rest) →
    rest.length < stream.length

theorem rounds_of_value {stream rest : List β} {a : α} (h : next stream = .value (a, rest))
    (fuel : Nat) : rounds next (fuel + 1) stream =
      (a :: (rounds next fuel rest).1, (rounds next fuel rest).2) := by
  rw [rounds, h]

/-- More fuel than the length of the stream makes no difference. -/
theorem rounds_eq_loop (consumes : Consumes next) {fuel : Nat} {stream : List β}
    (enough : stream.length < fuel) : rounds next fuel stream = loop next stream := by
  have same (n : Nat) : ∀ {m : Nat} {stream : List β}, stream.length < n → stream.length < m →
      rounds next n stream = rounds next m stream := by
    induction n with
    | zero => exact fun h => absurd h (Nat.not_lt_zero _)
    | succ n ih =>
        intro m stream hn hm
        obtain ⟨m, rfl⟩ : ∃ k, m = k + 1 := ⟨m - 1, by omega⟩
        cases h : next stream with
        | value p =>
            have shorter := consumes h
            rw [rounds_of_value h, rounds_of_value h, ih (m := m) (by omega) (by omega)]
        | error => rw [rounds, rounds, h]
        | panic => rw [rounds, rounds, h]
  exact same fuel enough (Nat.lt_succ_self _)

theorem crashes_iff_of_value (consumes : Consumes next) {stream rest : List β} {a : α}
    (h : next stream = .value (a, rest)) : Crashes next stream ↔ Crashes next rest := by
  rw [Crashes, loop, rounds_of_value h, rounds_eq_loop consumes (consumes h), Crashes]

theorem crashes_of_panic {stream : List β} (h : next stream = .panic) : Crashes next stream := by
  rw [Crashes, loop, rounds, h]

theorem not_crashes_of_error {stream : List β} (h : next stream = .error) :
    ¬ Crashes next stream := by
  rw [Crashes, loop, rounds, h]
  exact nofun

/-- The loop crashes if and only if a round that it comes to does. -/
theorem crashes_iff (consumes : Consumes next) (stream : List β) :
    Crashes next stream ↔ ∃ rest, Reachable (advance next) stream rest ∧ next rest = .panic := by
  constructor
  · intro crash
    -- The rounds of a stream, from its front.
    generalize size : stream.length = n
    induction n using Nat.strongRecOn generalizing stream with
    | ind n ih =>
        cases h : next stream with
        | value p =>
            obtain ⟨a, rest⟩ := p
            obtain ⟨last, reached, panics⟩ := ih rest.length (size ▸ consumes h) rest
              ((crashes_iff_of_value consumes h).mp crash) rfl
            refine ⟨last, Reaches.trans (.tail (a := ()) .refl trivial ?_) reached, panics⟩
            rw [advance, h]
            rfl
        | error => exact absurd crash (not_crashes_of_error h)
        | panic => exact ⟨stream, .refl, h⟩
  · rintro ⟨rest, reached, panics⟩
    have same : Crashes next stream ↔ Crashes next rest := by
      refine reached.invariant (I := fun rest => Crashes next stream ↔ Crashes next rest) Iff.rfl ?_
      intro s _ t _ same _ taken
      obtain ⟨⟨a, rest⟩, value, rfl⟩ := Option.map_eq_some_iff.mp taken
      rw [same, crashes_iff_of_value consumes ((Attempt.eq_value_iff _ _).mpr value)]
    exact same.mpr (crashes_of_panic panics)

end Library
