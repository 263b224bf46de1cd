import Mathlib.Data.List.Basic

/-!
# Buffered channels

A channel with a buffer of fixed capacity, which can be closed. A send waits while the
buffer is full and a receive while it is empty; a closed channel gives out what is left in
its buffer and then only zero values. To send on a closed channel or to close it again is
a panic, and a channel that is `nil` is one on which nothing ever happens.
-/

namespace Library

/-- What an operation on a channel does to the goroutine that runs it. -/
inductive Proceeds (α : Type*) where
  | done (result : α)
  | blocks
  | panics
  deriving DecidableEq

structure Chan (α : Type*) where
  capacity : Nat
  buffer : List α := []
  closed : Bool := false
  deriving DecidableEq

namespace Chan

variable {α : Type*} {c d : Chan α} {x : α}

def send (c : Chan α) (x : α) : Proceeds (Chan α) :=
  if c.closed then .panics
  else if c.buffer.length < c.capacity then .done { c with buffer := c.buffer ++ [x] }
  else .blocks

/-- The received value, which is `none` if the channel is closed and empty. -/
def receive (c : Chan α) : Proceeds (Option α × Chan α) :=
  match c.buffer with
  | x :: rest => .done (some x, { c with buffer := rest })
  | [] => if c.closed then .done (none, c) else .blocks

def close (c : Chan α) : Proceeds (Chan α) :=
  if c.closed then .panics else .done { c with closed := true }

theorem send_done (h : c.send x = .done d) :
    c.closed = false ∧ c.buffer.length < c.capacity ∧
      d = { c with buffer := c.buffer ++ [x] } := by
  unfold send at h
  split at h
  · cases h
  · split at h
    · cases h
      exact ⟨by simpa using ‹¬ c.closed = true›, ‹_›, rfl⟩
    · cases h

theorem receive_some (h : c.receive = .done (some x, d)) :
    ∃ rest, c.buffer = x :: rest ∧ d = { c with buffer := rest } := by
  unfold receive at h
  split at h
  · cases h
    exact ⟨_, ‹_›, rfl⟩
  · split at h <;> cases h

theorem receive_none (h : c.receive = .done (none, d)) :
    c.buffer = [] ∧ c.closed = true ∧ d = c := by
  unfold receive at h
  split at h
  · cases h
  · split at h
    · cases h
      exact ⟨‹_›, ‹_›, rfl⟩
    · cases h

theorem close_done (h : c.close = .done d) : c.closed = false ∧ d = { c with closed := true } := by
  unfold close at h
  split at h
  · cases h
  · cases h
    exact ⟨by simpa using ‹¬ c.closed = true›, rfl⟩

end Chan

end Library
