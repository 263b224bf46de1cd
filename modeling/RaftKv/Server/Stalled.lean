import RaftKv.Server.Requests

/-!
# A server after a failed write

`handleClientResponse` returns when a write fails, and it is the only goroutine that takes
from `sendQueues`. The others go on until the channel is full. Each of them stops with the
first response that does not fit; if it is `handleReadQue`, it stops with `kv.mu` in its
hands, and then nothing that needs the lock happens again.
-/

namespace RaftKv.Server.Pipeline

open Library
open RaftKv.Raft (Op)
open RaftKv.Connections (queueSize)

variable {codec : Labgob} {s t : Pipeline}

/-- A response of `ApplyHandler` that is not in the channel yet. -/
def Applier.owes : Applier → Nat
  | .answering _ _ => 1
  | .idle | .applying _ | .compacting _ _ => 0

/-- The lock is held only to deliver a read, the channel is not overfilled, and for every
applied command there is a response. -/
structure Bounds (s : Pipeline) : Prop where
  mu : s.mu = true → ∃ op resp, s.reader = .delivering op resp
  delivering : ∀ op resp, s.reader = .delivering op resp → s.mu = true
  sendQueues : s.conns.sendQueues.length ≤ queueSize
  applied : s.applied.length = s.sent.countP (·.1.isNone) + s.applier.owes

namespace Bounds

/-- `handleReadQue` moves outside of the section that delivers. -/
theorem elsewhere (inv : s.Bounds) (here : ∀ op resp, s.reader ≠ .delivering op resp)
    {u : Pipeline} (there : ∀ op resp, u.reader ≠ .delivering op resp) (mu : u.mu = s.mu)
    (conns : u.conns = s.conns) (applied : u.applied = s.applied) (sent : u.sent = s.sent)
    (applier : u.applier = s.applier) : u.Bounds where
  mu locked := by
    obtain ⟨op, resp, position⟩ := inv.mu (mu ▸ locked)
    exact absurd position (here op resp)
  delivering op resp position := absurd position (there op resp)
  sendQueues := conns ▸ inv.sendQueues
  applied := by
    rw [applied, sent, applier]
    exact inv.applied

theorem length_send {resp : ServerResponse} (room : s.conns.sendQueues.length < queueSize) :
    (s.conns.sendQueues ++ [resp]).length ≤ queueSize := by
  rw [List.length_append]
  exact room

/-- A reply to a request is no reply of `ApplyHandler`. -/
theorem reply (inv : s.Bounds) (op : Op) (resp : ServerResponse) :
    s.applied.length =
      (s.sent ++ [(some op, resp)]).countP (·.1.isNone) + s.applier.owes := by
  rw [List.countP_append]
  exact inv.applied

theorem step {a : Action} (inv : s.Bounds) (moves : Moves codec s a t) : t.Bounds := by
  cases moves with
  | conn isOwn moves =>
      refine { inv with sendQueues := ?_ }
      cases moves with
      | process | respond => cases isOwn
      | take idle queue =>
          have fits := inv.sendQueues
          rw [queue, List.length_cons] at fits
          exact Nat.le_of_succ_le fits
      | _ => exact inv.sendQueues
  | replyOp position room =>
      exact { inv with sendQueues := length_send room, applied := inv.reply _ _ }
  | receiveRead position | leaderChanged position | index position | retry position
  | timeout position | found position | missed position | recordIndex position | wait position =>
      exact inv.elsewhere (by simp [position]) (by simp) rfl rfl rfl rfl rfl
  | replyRead position room =>
      have unlocked : s.mu ≠ true := fun locked => by
        obtain ⟨op, resp, delivers⟩ := inv.mu locked
        rw [position] at delivers
        cases delivers
      exact
        { mu := fun locked => absurd locked unlocked
          delivering := nofun
          sendQueues := length_send room
          applied := inv.reply _ _ }
  | serveRead =>
      exact { inv with mu := fun _ => ⟨_, _, rfl⟩, delivering := fun _ _ _ => rfl }
  | deliverRead position room =>
      exact
        { mu := nofun
          delivering := nofun
          sendQueues := length_send room
          applied := inv.reply _ _ }
  | receiveMsg position =>
      have applied := inv.applied
      rw [position] at applied
      refine { inv with applied := applied.trans (congrArg _ ?_) }
      split <;> rfl
  | pass position =>
      have applied := inv.applied
      rw [position] at applied
      exact { inv with applied := applied }
  | apply position =>
      have applied := inv.applied
      rw [position] at applied
      refine { inv with applied := ?_ }
      rw [List.length_append, applied]
      rfl
  | replyApplied position room takesSnapshot =>
      have applied := inv.applied
      rw [position] at applied
      refine { inv with sendQueues := length_send room, applied := ?_ }
      rw [List.countP_append, applied]
      cases takesSnapshot <;> rfl
  | compact position =>
      have applied := inv.applied
      rw [position] at applied
      exact { inv with applied := applied }
  | _ => exact { inv with }

end Bounds

theorem bounds_of_reachable {ok : Pipeline → Action → Prop}
    (h : Reaches (Pipeline.step codec) ok {} s) : s.Bounds := by
  refine h.invariant ⟨nofun, nofun, Nat.zero_le _, rfl⟩ ?_
  intro s a t _ inv _ taken
  exact inv.step (moves_of_step taken)

/-- Once `handleClientResponse` has returned, the channel only fills up. -/
structure Fills (s t : Pipeline) : Prop where
  sender : t.conns.sender = .ended
  grows : ∃ new, t.sent = s.sent ++ new ∧
    t.conns.sendQueues = s.conns.sendQueues ++ new.map Prod.snd

namespace Fills

theorem send (fills : s.Fills t) {request : Option Op} {resp : ServerResponse} {u : Pipeline}
    (sent : u.sent = t.sent ++ [(request, resp)])
    (conns : u.conns = { t.conns with sendQueues := t.conns.sendQueues ++ [resp] }) :
    s.Fills u := by
  obtain ⟨ended, new, grows, queue⟩ := fills
  refine ⟨conns ▸ ended, new ++ [(request, resp)], ?_, ?_⟩
  · rw [sent, grows, List.append_assoc]
  · rw [conns, queue, List.map_append, List.append_assoc]
    rfl

theorem step {a : Action} {u : Pipeline} (fills : s.Fills t) (moves : Moves codec t a u) :
    s.Fills u := by
  cases moves with
  | conn isOwn moves =>
      have ended := fills.sender
      cases moves with
      | process | respond => cases isOwn
      | take position | drop position | find position | write position =>
          rw [ended] at position
          cases position
      | _ => exact ⟨ended, fills.grows⟩
  | replyOp | replyRead | deliverRead | replyApplied => exact fills.send rfl rfl
  | _ => exact ⟨fills.sender, fills.grows⟩

theorem of_reachable (ended : s.conns.sender = .ended) (h : Reachable (Pipeline.step codec) s t) :
    s.Fills t := by
  refine h.invariant (I := s.Fills) ⟨ended, [], by simp, by simp⟩ ?_
  intro t a u _ fills _ taken
  exact fills.step (moves_of_step taken)

/-- How many commands can still be applied. -/
theorem applied (fills : s.Fills t) (before : s.Bounds) (after : t.Bounds) :
    t.applied.length ≤ s.applied.length + (queueSize - s.conns.sendQueues.length) + 1 := by
  obtain ⟨-, new, grows, queue⟩ := fills
  have fits := after.sendQueues
  have then' := after.applied
  have now := before.applied
  have few := List.countP_le_length (p := fun x : Option Op × ServerResponse => x.1.isNone) (l := new)
  have owes : t.applier.owes ≤ 1 := by cases t.applier <;> simp [Applier.owes]
  rw [queue, List.length_append, List.length_map] at fits
  rw [grows, List.countP_append] at then'
  omega

end Fills

/-- `handleReadQue` holds the lock and waits for room in a channel that nobody empties. -/
structure Wedged (s : Pipeline) : Prop where
  sender : s.conns.sender = .ended
  full : queueSize ≤ s.conns.sendQueues.length
  mu : s.mu = true
  reader : ∃ op resp, s.reader = .delivering op resp

/-- The lock is not released, and what it protects does not change. -/
theorem Wedged.step {a : Action} (wedged : s.Wedged) (moves : Moves codec s a t) :
    t.Wedged ∧ t.kv = s.kv := by
  obtain ⟨ended, full, locked, op, resp, reader⟩ := wedged
  cases moves with
  | conn isOwn moves =>
      cases moves with
      | process | respond => cases isOwn
      | take position | drop position | find position | write position =>
          rw [ended] at position
          cases position
      | _ => exact ⟨⟨ended, full, locked, op, resp, reader⟩, rfl⟩
  | replyOp _ room | replyRead _ room | deliverRead _ room | replyApplied _ room =>
      exact absurd room (Nat.not_lt.mpr full)
  | checkHistory _ free | recordTerm _ free | found _ free | missed _ free | recordIndex _ free
  | serveRead _ free | wait _ free | pass _ free | apply _ free =>
      rw [locked] at free
      cases free
  | receiveRead position | leaderChanged position | index position | retry position
  | timeout position =>
      rw [reader] at position
      cases position
  | _ => exact ⟨⟨ended, full, locked, op, resp, reader⟩, rfl⟩

theorem Wedged.of_reachable (wedged : s.Wedged) (h : Reachable (Pipeline.step codec) s t) :
    t.Wedged ∧ t.kv = s.kv := by
  refine h.invariant (I := fun t => t.Wedged ∧ t.kv = s.kv) ⟨wedged, rfl⟩ ?_
  intro t a u _ inv _ taken
  obtain ⟨still, same⟩ := inv.1.step (moves_of_step taken)
  exact ⟨still, same.trans inv.2⟩

/-- One failed write to one client stops the server. Nothing is written to any connection
afterwards, and the server applies no more commands than the responses that still fit into
`sendQueues`, and one. If the channel is full when `handleReadQue` has executed a read, then
`kv.mu` is never released and the state of the server never changes again. -/
theorem failed_write_stops_server (codec : Labgob) {s t : Pipeline}
    (h : Reachable (step codec) {} s) (failed : ∃ w ∈ s.conns.written, w.ok = false)
    (later : Reachable (step codec) s t) :
    t.conns.written = s.conns.written ∧
      t.applied.length ≤ s.applied.length + (queueSize - s.conns.sendQueues.length) + 1 ∧
      (∀ op resp, s.reader = .delivering op resp → queueSize ≤ s.conns.sendQueues.length →
        t.mu = true ∧ t.kv = s.kv) := by
  have ended := (Connections.Server.ended_iff (conns_reachable h)).mpr failed
  have before := bounds_of_reachable h
  refine ⟨?_, ?_, fun op resp reader full => ?_⟩
  · exact (Connections.Server.written_of_ended ended (conns_reachable later)).2
  · exact (Fills.of_reachable ended later).applied before (bounds_of_reachable (h.trans later))
  · have wedged : s.Wedged := ⟨ended, full, before.delivering op resp reader, op, resp, reader⟩
    obtain ⟨still, same⟩ := wedged.of_reachable later
    exact ⟨still.mu, same⟩

def Reader.isDelivering : Reader → Bool
  | .delivering _ _ => true
  | .idle | .looking _ | .asking _ | .answering _ _ | .recording _ _ | .serving _ _ => false

/-- Raft has committed a command, and `ApplyHandler` puts its response into the channel. -/
def applyPut (index : Nat) : List Action :=
  [.deliver { commandValid := true, command := some (Connections.put 5), commandIndex := index },
    .receiveMsg, .apply, .replyApplied false]

/-- A client reads and closes its connection before the response is written. A hundred
commands later it has another connection, and the server executes a read that it will never
deliver. -/
theorem failed_write_stops_server_read :
    ∃ s, Reachable (step noSnapshots) {} s ∧ (∃ w ∈ s.conns.written, w.ok = false) ∧
      queueSize ≤ s.conns.sendQueues.length ∧ (∃ op resp, s.reader = .delivering op resp) ∧
      ∀ t, Reachable (step noSnapshots) s t →
        t.conns.written = s.conns.written ∧ t.applied.length ≤ s.applied.length + 1 ∧
          t.kv = s.kv := by
  obtain ⟨s, reached, failed, full, reader⟩ :
      ∃ s : Pipeline, Reachable (step noSnapshots) {} s ∧
        (∃ w ∈ s.conns.written, w.ok = false) ∧ queueSize ≤ s.conns.sendQueues.length ∧
        s.reader.isDelivering = true :=
    exists_reachable _
      (executeRead 0 ++
        [.deliverRead, .conn (.close 0), .conn .take, .conn .lookup, .conn (.write false)] ++
        (List.range queueSize).flatMap (fun i => applyPut (i + 1)) ++ executeRead 1)
      (by decide +kernel)
  obtain ⟨op, resp, delivers⟩ : ∃ op resp, s.reader = .delivering op resp := by
    cases position : s.reader with
    | delivering op resp => exact ⟨op, resp, rfl⟩
    | _ =>
        rw [position] at reader
        cases reader
  refine ⟨s, reached, failed, full, ⟨op, resp, delivers⟩, fun t later => ?_⟩
  obtain ⟨written, applied, locked⟩ := failed_write_stops_server noSnapshots reached failed later
  rw [Nat.sub_eq_zero_of_le full] at applied
  exact ⟨written, applied, (locked op resp delivers full).2⟩

end RaftKv.Server.Pipeline
