import RaftKv.Library.Run
import RaftKv.Server.KVServer
import Mathlib.Data.List.Basic
import Mathlib.Logic.Function.Basic

/-!
# The connections of a server

`handleClientConnection` reads requests from a connection, and a single goroutine,
`handleClientResponse`, writes the responses to all of them. It finds the connection of a
clerk in `clientConns`. The readers make an entry there for the first request of a clerk,
and nobody changes it after that. A write that fails ends the goroutine.

So the responses to a clerk go to the connection of the first of its requests that was
registered, also after the clerk has come back on another one. And the first write to a
connection that is closed is the last one of all.

What happens between a request and its response is left open: any response may be queued
at any time. A write to an open connection succeeds, a write to a closed one may fail.
-/

namespace RaftKv.Connections

open Library
open RaftKv.Raft (Op)
open RaftKv.Server (ServerResponse opToResp opPut errOk)

/-- The capacity of `processQue` and `sendQueues`. -/
def queueSize : Nat := 100

/-- Where `handleClientResponse` is. -/
inductive Sender where
  | idle
  | took (resp : ServerResponse)
  | writing (resp : ServerResponse) (conn : Nat)
  | ended

/-- A write, with the connection of the clerk's most recent request at that time. -/
structure Write where
  conn : Nat
  resp : ServerResponse
  latest : Option Nat
  ok : Bool

structure Server where
  /-- How many connections were accepted; the next one has this number. -/
  accepted : Nat := 0
  closed : List Nat := []
  /-- The connection and the clerk of each request that was read, the latest one first. -/
  arrivals : List (Nat × Int32) := []
  /-- Held by `handleClientConnection` before and after it looks into `clientConns`. -/
  registering : List (Nat × Op) := []
  enqueuing : List (Nat × Op) := []
  clientConns : Int32 → Option Nat := fun _ => none
  processQue : List Op := []
  sendQueues : List ServerResponse := []
  sender : Sender := .idle
  written : List Write := []

inductive Action where
  | accept
  | close (conn : Nat)
  | read (conn : Nat) (op : Op)
  | register (conn : Nat) (op : Op)
  | enqueue (conn : Nat) (op : Op)
  | process
  | respond (resp : ServerResponse)
  | take
  | lookup
  | write (ok : Bool)

namespace Server

/-- The connection on which the clerk's most recent request arrived. -/
def latest (s : Server) (clerkId : Int32) : Option Nat :=
  (s.arrivals.find? fun p => p.2 = clerkId).map Prod.fst

/-- `handleClientConnection` reads a request if it is done with the one before. -/
def read (s : Server) (conn : Nat) (op : Op) : Option Server :=
  if conn < s.accepted ∧ conn ∉ s.closed ∧ conn ∉ s.registering.map Prod.fst ∧
      conn ∉ s.enqueuing.map Prod.fst then
    some
      { s with
        arrivals := (conn, op.clerkId) :: s.arrivals
        registering := (conn, op) :: s.registering }
  else none

/-- A clerk that has a connection keeps it. -/
def enroll (clientConns : Int32 → Option Nat) (clerkId : Int32) (conn : Nat) :
    Int32 → Option Nat :=
  match clientConns clerkId with
  | none => Function.update clientConns clerkId (some conn)
  | some _ => clientConns

/-- The section under `connMu`. -/
def register (s : Server) (conn : Nat) (op : Op) : Option Server :=
  if (conn, op) ∈ s.registering then
    some
      { s with
        registering := s.registering.erase (conn, op)
        enqueuing := (conn, op) :: s.enqueuing
        clientConns := enroll s.clientConns op.clerkId conn }
  else none

/-- `kv.processQue <- op`. -/
def enqueue (s : Server) (conn : Nat) (op : Op) : Option Server :=
  if (conn, op) ∈ s.enqueuing ∧ s.processQue.length < queueSize then
    some
      { s with
        enqueuing := s.enqueuing.erase (conn, op), processQue := s.processQue ++ [op] }
  else none

/-- `handleOpQue` takes a request. -/
def process (s : Server) : Option Server :=
  match s.processQue with
  | [] => none
  | _ :: rest => some { s with processQue := rest }

def respond (s : Server) (resp : ServerResponse) : Option Server :=
  if s.sendQueues.length < queueSize then
    some { s with sendQueues := s.sendQueues ++ [resp] }
  else none

/-- `resp := <-kv.sendQueues` of `handleClientResponse`. -/
def take (s : Server) : Option Server :=
  match s.sender, s.sendQueues with
  | .idle, resp :: rest => some { s with sender := .took resp, sendQueues := rest }
  | _, _ => none

/-- `conn, exist := kv.clientConns[resp.ClerkId]`. -/
def lookup (s : Server) : Option Server :=
  match s.sender with
  | .took resp =>
      match s.clientConns resp.clerkId with
      | none => some { s with sender := .idle }
      | some conn => some { s with sender := .writing resp conn }
  | _ => none

/-- `conn.Write(bitData)`, and `return` if it fails. -/
def write (s : Server) (ok : Bool) : Option Server :=
  match s.sender with
  | .writing resp conn =>
      if ok = true ∨ conn ∈ s.closed then
        some
          { s with
            sender := if ok then .idle else .ended
            written := ⟨conn, resp, s.latest resp.clerkId, ok⟩ :: s.written }
      else none
  | _ => none

def step (s : Server) : Action → Option Server
  | .accept => some { s with accepted := s.accepted + 1 }
  | .close conn => some { s with closed := conn :: s.closed }
  | .read conn op => s.read conn op
  | .register conn op => s.register conn op
  | .enqueue conn op => s.enqueue conn op
  | .process => s.process
  | .respond resp => s.respond resp
  | .take => s.take
  | .lookup => s.lookup
  | .write ok => s.write ok

/-! ### Where responses go -/

/-- All requests of the clerk have come on one connection. -/
def Stays (s : Server) (clerkId : Int32) : Prop :=
  ∀ conn conn', (conn, clerkId) ∈ s.arrivals → (conn', clerkId) ∈ s.arrivals → conn = conn'

/-- Responses go to connections on which a request of their clerk has arrived. -/
structure Addressed (s : Server) : Prop where
  registering : ∀ p ∈ s.registering, (p.1, p.2.clerkId) ∈ s.arrivals
  clientConns : ∀ clerkId conn, s.clientConns clerkId = some conn → (conn, clerkId) ∈ s.arrivals
  sender : ∀ resp conn, s.sender = .writing resp conn → (conn, resp.clerkId) ∈ s.arrivals
  written : ∀ w ∈ s.written, (w.conn, w.resp.clerkId) ∈ s.arrivals ∧
    ∃ conn, w.latest = some conn ∧ (conn, w.resp.clerkId) ∈ s.arrivals

variable {s t : Server}

theorem mem_of_latest {clerkId : Int32} {conn : Nat} (h : s.latest clerkId = some conn) :
    (conn, clerkId) ∈ s.arrivals := by
  obtain ⟨p, found, rfl⟩ := Option.map_eq_some_iff.mp h
  have names : p.2 = clerkId := by simpa only [decide_eq_true_eq] using List.find?_some found
  rw [← names]
  exact List.mem_of_find?_eq_some found

theorem exists_latest {clerkId : Int32} {conn : Nat} (h : (conn, clerkId) ∈ s.arrivals) :
    ∃ conn', s.latest clerkId = some conn' := by
  have found : (s.arrivals.find? fun p => p.2 = clerkId).isSome :=
    List.find?_isSome.mpr ⟨_, h, decide_eq_true rfl⟩
  obtain ⟨p, found⟩ := Option.isSome_iff_exists.mp found
  exact ⟨p.1, Option.map_eq_some_iff.mpr ⟨p, found, rfl⟩⟩

theorem enroll_eq_some {clientConns : Int32 → Option Nat} {clerkId c : Int32} {conn conn' : Nat}
    (h : enroll clientConns clerkId conn c = some conn') :
    clientConns c = some conn' ∨ c = clerkId ∧ conn' = conn := by
  cases entry : clientConns clerkId with
  | some old =>
      simp only [enroll, entry] at h
      exact .inl h
  | none =>
      simp only [enroll, entry] at h
      by_cases this : c = clerkId
      · subst this
        rw [Function.update_self, Option.some.injEq] at h
        exact .inr ⟨rfl, h.symm⟩
      · rw [Function.update_of_ne this] at h
        exact .inl h

namespace Addressed

theorem read {conn : Nat} {op : Op} (inv : s.Addressed) (h : s.read conn op = some t) :
    t.Addressed := by
  obtain ⟨-, same⟩ := Option.ite_none_right_eq_some.mp h
  cases same
  have old {p : Nat × Int32} (here : p ∈ s.arrivals) : p ∈ (conn, op.clerkId) :: s.arrivals :=
    List.mem_cons_of_mem _ here
  exact
    { registering := List.forall_mem_cons.mpr
        ⟨List.mem_cons_self, fun p here => old (inv.registering p here)⟩
      clientConns := fun clerkId c found => old (inv.clientConns clerkId c found)
      sender := fun resp c writes => old (inv.sender resp c writes)
      written := fun w here => by
        obtain ⟨arrived, c, latest, arrived'⟩ := inv.written w here
        exact ⟨old arrived, c, latest, old arrived'⟩ }

theorem register {conn : Nat} {op : Op} (inv : s.Addressed) (h : s.register conn op = some t) :
    t.Addressed := by
  obtain ⟨here, same⟩ := Option.ite_none_right_eq_some.mp h
  cases same
  refine
    { inv with
      registering := fun p old => inv.registering p (List.mem_of_mem_erase old)
      clientConns := fun clerkId c found => ?_ }
  rcases enroll_eq_some found with old | ⟨rfl, rfl⟩
  · exact inv.clientConns clerkId c old
  · exact inv.registering _ here

theorem take (inv : s.Addressed) (h : s.take = some t) : t.Addressed := by
  unfold Server.take at h
  split at h
  · cases h
    exact { inv with sender := nofun }
  · cases h

theorem lookup (inv : s.Addressed) (h : s.lookup = some t) : t.Addressed := by
  unfold Server.lookup at h
  split at h
  · split at h
    · cases h
      exact { inv with sender := nofun }
    next found =>
      cases h
      refine { inv with sender := fun resp conn writes => ?_ }
      cases writes
      exact inv.clientConns _ _ found
  · cases h

theorem write {ok : Bool} (inv : s.Addressed) (h : s.write ok = some t) : t.Addressed := by
  unfold Server.write at h
  split at h
  next resp conn writes =>
    obtain ⟨-, same⟩ := Option.ite_none_right_eq_some.mp h
    cases same
    have arrived := inv.sender resp conn writes
    obtain ⟨conn', latest⟩ := exists_latest arrived
    exact
      { inv with
        sender := fun resp' conn' writes => by
          dsimp only at writes
          split at writes <;> cases writes
        written := List.forall_mem_cons.mpr
          ⟨⟨arrived, conn', latest, mem_of_latest latest⟩, inv.written⟩ }
  · cases h

theorem step {a : Action} (inv : s.Addressed) (h : s.step a = some t) : t.Addressed := by
  cases a with
  | accept =>
      cases h
      exact { inv with }
  | close conn =>
      cases h
      exact { inv with }
  | read conn op => exact inv.read h
  | register conn op => exact inv.register h
  | enqueue conn op =>
      obtain ⟨-, same⟩ := Option.ite_none_right_eq_some.mp h
      cases same
      exact { inv with }
  | process =>
      change s.process = some t at h
      unfold Server.process at h
      split at h
      · cases h
      · cases h
        exact { inv with }
  | respond resp =>
      obtain ⟨-, same⟩ := Option.ite_none_right_eq_some.mp h
      cases same
      exact { inv with }
  | take => exact inv.take h
  | lookup => exact inv.lookup h
  | write ok => exact inv.write h

end Addressed

theorem addressed_of_reachable (h : Reachable step {} s) : s.Addressed :=
  h.invariant ⟨nofun, nofun, nofun, nofun⟩ fun _ _ _ _ inv _ taken => inv.step taken

/-! ### When the sender ends -/

/-- The sender is not in the middle of a round. -/
def Between (s : Server) : Prop := s.sender = .idle ∨ s.sender = .ended

/-- A response to a clerk with an open connection that is next in the queue can be written
to that connection. -/
def Delivers (s : Server) : Prop :=
  ∀ resp rest conn, s.Between → s.sendQueues = resp :: rest →
    s.clientConns resp.clerkId = some conn → conn ∉ s.closed →
    ∃ t, run step s [.take, .lookup, .write true] = some t ∧
      ∃ w ∈ t.written, w.conn = conn ∧ w.resp = resp ∧ w.ok = true

/-- What a step does to the sender and to its writes. -/
theorem sender_step {a : Action} (h : s.step a = some t) :
    t.written = s.written ∧ (t.sender = .ended ↔ s.sender = .ended) ∨
      s.sender ≠ .ended ∧ ∃ w, t.written = w :: s.written ∧
        (t.sender = .ended ↔ w.ok = false) := by
  cases a with
  | take =>
      refine .inl ?_
      change s.take = some t at h
      unfold take at h
      split at h
      next idle _ =>
        cases h
        exact ⟨rfl, by rw [idle]; exact ⟨nofun, nofun⟩⟩
      · cases h
  | lookup =>
      refine .inl ?_
      change s.lookup = some t at h
      unfold lookup at h
      split at h
      next took =>
        split at h <;> cases h <;> exact ⟨rfl, by rw [took]; exact ⟨nofun, nofun⟩⟩
      · cases h
  | write ok =>
      refine .inr ?_
      change s.write ok = some t at h
      unfold write at h
      split at h
      next writes =>
        obtain ⟨-, same⟩ := Option.ite_none_right_eq_some.mp h
        cases same
        refine ⟨by rw [writes]; exact nofun, _, rfl, ?_⟩
        cases ok
        · exact ⟨fun _ => rfl, fun _ => rfl⟩
        · exact ⟨nofun, nofun⟩
      · cases h
  | process =>
      refine .inl ?_
      change s.process = some t at h
      unfold process at h
      split at h
      · cases h
      · cases h
        exact ⟨rfl, Iff.rfl⟩
  | accept =>
      cases h
      exact .inl ⟨rfl, Iff.rfl⟩
  | close conn =>
      cases h
      exact .inl ⟨rfl, Iff.rfl⟩
  | _ =>
      obtain ⟨-, same⟩ := Option.ite_none_right_eq_some.mp h
      cases same
      exact .inl ⟨rfl, Iff.rfl⟩

theorem ended_iff (h : Reachable step {} s) :
    s.sender = .ended ↔ ∃ w ∈ s.written, w.ok = false := by
  refine h.invariant (I := fun s => s.sender = .ended ↔ ∃ w ∈ s.written, w.ok = false)
    ⟨nofun, nofun⟩ ?_
  intro s a t _ inv _ taken
  rcases sender_step taken with ⟨written, sender⟩ | ⟨alive, w, written, sender⟩
  · rw [written, sender]
    exact inv
  · rw [written, sender]
    constructor
    · exact fun failed => ⟨w, List.mem_cons_self, failed⟩
    · rintro ⟨w', here, failed⟩
      rcases List.mem_cons.mp here with rfl | old
      · exact failed
      · exact absurd (inv.mpr ⟨w', old, failed⟩) alive

/-- Nothing is written after the sender has ended. -/
theorem written_of_ended (ended : s.sender = .ended) (h : Reachable step s t) :
    t.sender = .ended ∧ t.written = s.written := by
  refine h.invariant (I := fun t => t.sender = .ended ∧ t.written = s.written) ⟨ended, rfl⟩ ?_
  intro u a v _ inv _ taken
  rcases sender_step taken with ⟨written, sender⟩ | ⟨alive, -⟩
  · exact ⟨sender.mpr inv.1, written.trans inv.2⟩
  · exact absurd inv.1 alive

theorem delivers_of_alive (alive : s.sender ≠ .ended) : s.Delivers := by
  intro resp rest conn between queue found isOpen
  have idle := between.resolve_right alive
  let w : Write := ⟨conn, resp, s.latest resp.clerkId, true⟩
  refine ⟨{ s with sender := .idle, sendQueues := rest, written := w :: s.written }, ?_, w,
    List.mem_cons_self, rfl, rfl, rfl⟩
  have took : s.step .take = some { s with sender := .took resp, sendQueues := rest } := by
    change s.take = _
    rw [take, idle, queue]
  have looked : step { s with sender := .took resp, sendQueues := rest } .lookup =
      some { s with sender := .writing resp conn, sendQueues := rest } := by
    simp only [step, lookup, found]
  rw [run_cons, took, Option.bind_some, run_cons, looked, Option.bind_some, run_singleton]
  simp only [step, write, true_or, if_true]
  rfl

end Server

/-- The responses to a clerk that stays on one connection are written to that connection.
Until a write fails, the next response to a clerk whose connection is open can be written;
after that no response is written to any connection. -/
theorem responses_follow_connection {s : Server} (h : Reachable Server.step {} s) :
    (∀ w ∈ s.written, s.Stays w.resp.clerkId → w.latest = some w.conn) ∧
    ((∀ w ∈ s.written, w.ok = true) → s.Delivers) ∧
    ((∃ w ∈ s.written, w.ok = false) → ∀ t, Reachable Server.step s t → t.written = s.written) := by
  refine ⟨?_, ?_, ?_⟩
  · intro w here stays
    obtain ⟨arrived, conn, latest, arrived'⟩ := (Server.addressed_of_reachable h).written w here
    rw [latest, stays conn w.conn arrived' arrived]
  · intro succeeded
    apply Server.delivers_of_alive
    intro ended
    obtain ⟨w, here, failed⟩ := (Server.ended_iff h).mp ended
    exact absurd (succeeded w here) (by rw [failed]; decide)
  · intro failed t later
    exact (Server.written_of_ended ((Server.ended_iff h).mpr failed) later).2

/-- A `Put` of a clerk. -/
def put (clerkId : Int32) : Op :=
  { optype := opPut, incrId := 9, clerkId := clerkId, key := [107], value := [118] }

/-- A request of a clerk comes on an open connection. -/
def request (conn : Nat) (clerkId : Int32) : List Action :=
  [.read conn (put clerkId), .register conn (put clerkId), .enqueue conn (put clerkId), .process]

/-- A response to a clerk is queued and written. -/
def response (clerkId : Int32) (ok : Bool) : List Action :=
  [.respond (opToResp (put clerkId) errOk), .take, .lookup, .write ok]

/-- One clerk, on the connection it began with. -/
theorem responses_follow_connection_put :
    ∃ s : Server, Reachable Server.step {} s ∧ s.Stays 5 ∧
      (∃ w ∈ s.written, w.resp.clerkId = 5 ∧ w.latest = some w.conn) ∧ s.Delivers := by
  obtain ⟨s, reached, arrivals, written, clerk⟩ :
      ∃ s : Server, Reachable Server.step {} s ∧ s.arrivals = [(0, 5)] ∧
        s.written.map Write.ok = [true] ∧ s.written.map (fun w => w.resp.clerkId) = [5] :=
    exists_reachable _ (.accept :: request 0 5 ++ response 5 true) (by decide +kernel)
  obtain ⟨w, only⟩ : ∃ w, s.written = [w] := List.length_eq_one_iff.mp (by
    rw [← List.length_map (f := Write.ok), written]
    rfl)
  rw [only] at written clerk
  have stays : s.Stays 5 := by
    intro conn conn' h h'
    rw [arrivals] at h h'
    cases List.mem_singleton.mp h
    cases List.mem_singleton.mp h'
    rfl
  have names : w.resp.clerkId = 5 := (List.cons.inj clerk).1
  have succeeded : w.ok = true := (List.cons.inj written).1
  obtain ⟨follows, delivers, -⟩ := responses_follow_connection reached
  rw [only] at follows delivers
  refine ⟨s, reached, stays, ⟨w, only ▸ List.mem_singleton_self w, names, ?_⟩, ?_⟩
  · exact follows w (List.mem_singleton_self w) (names.symm ▸ stays)
  · exact delivers (List.forall_mem_singleton.mpr succeeded)

/-- A clerk closes its connection and comes back on another one. The response goes to the
first, and with it ends the sender. Then the response to a second clerk, whose connection
is open, is not written. -/
theorem response_on_stale_connection :
    ∃ s : Server, Reachable Server.step {} s ∧
      s.written.map (fun w => (w.conn, w.latest, w.ok)) = [(0, some 1, false)] ∧
      s.sendQueues = [opToResp (put 6) errOk] ∧ s.clientConns 6 = some 2 ∧ 2 ∉ s.closed ∧
      ¬ s.Delivers := by
  obtain ⟨s, reached, written, queue, conn, isOpen, stuck, between⟩ :
      ∃ s : Server, Reachable Server.step {} s ∧
        s.written.map (fun w => (w.conn, w.latest, w.ok)) = [(0, some 1, false)] ∧
        s.sendQueues = [opToResp (put 6) errOk] ∧ s.clientConns 6 = some 2 ∧ 2 ∉ s.closed ∧
        (run Server.step s [.take, .lookup, .write true]).isNone ∧
        (match s.sender with | .ended => true | _ => false) = true :=
    exists_reachable _
      (Action.accept :: request 0 5 ++ Action.close 0 :: Action.accept :: request 1 5 ++
        Action.accept :: request 2 6 ++ response 5 false ++
        [Action.respond (opToResp (put 6) errOk)])
      (by decide +kernel)
  refine ⟨s, reached, written, queue, conn, isOpen, ?_⟩
  intro delivers
  have ended : s.sender = .ended := by
    cases sender : s.sender <;> rw [sender] at between <;> first | rfl | cases between
  obtain ⟨t, ran, -⟩ := delivers _ _ 2 (.inr ended) queue conn isOpen
  rw [ran] at stuck
  cases stuck

end RaftKv.Connections
