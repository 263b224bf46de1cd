import RaftKv.Server.Connections

/-!
# The goroutines of a server and the channels between them

`handleClientConnection` puts requests into `processQue`. `handleOpQue` takes them out,
hands reads to `handleReadQue` through `readQue` and writes to Raft, and `ApplyHandler`
takes from `applyCh` what Raft has committed. All three put responses into `sendQueues`,
which `handleClientResponse` empties. Here every send, every receive and every section
under `kv.mu` is a step of its own, a send waits while its channel is full, and a section
waits while the lock is held.

Only one section sends while it holds the lock, that of `handleReadQue` which executes a
read. All the others are one step each.

Raft is not modelled: the results of its calls and the messages on `applyCh` are arguments
of the actions, and a call that does not return is an action that is not taken. The
connections and `handleClientResponse` are those of `Connections`, where any response could
be queued at any time; forgetting the goroutines in between gives a run of that model.
`Stop` is left out.
-/

namespace RaftKv

open Library
open RaftKv.Raft (Bytes Op ApplyMsg)
open RaftKv.Server (ServerResponse)

namespace Connections.Server

variable {s t : Server}

/-- What each action does to the connections, with its guards. -/
inductive Moves (s : Server) : Action → Server → Prop where
  | accept : Moves s .accept { s with accepted := s.accepted + 1 }
  | close (conn : Nat) : Moves s (.close conn) { s with closed := conn :: s.closed }
  | read (conn : Nat) (op : Op) :
      Moves s (.read conn op)
        { s with
          arrivals := (conn, op.clerkId) :: s.arrivals
          registering := (conn, op) :: s.registering }
  | register {conn : Nat} {op : Op} (here : (conn, op) ∈ s.registering) :
      Moves s (.register conn op)
        { s with
          registering := s.registering.erase (conn, op)
          enqueuing := (conn, op) :: s.enqueuing
          clientConns := enroll s.clientConns op.clerkId conn }
  | enqueue {conn : Nat} {op : Op} (here : (conn, op) ∈ s.enqueuing)
      (room : s.processQue.length < queueSize) :
      Moves s (.enqueue conn op)
        { s with
          enqueuing := s.enqueuing.erase (conn, op), processQue := s.processQue ++ [op] }
  | process {op : Op} {rest : List Op} (queue : s.processQue = op :: rest) :
      Moves s .process { s with processQue := rest }
  | respond (resp : ServerResponse) (room : s.sendQueues.length < queueSize) :
      Moves s (.respond resp) { s with sendQueues := s.sendQueues ++ [resp] }
  | take {resp : ServerResponse} {rest : List ServerResponse} (idle : s.sender = .idle)
      (queue : s.sendQueues = resp :: rest) :
      Moves s .take { s with sender := .took resp, sendQueues := rest }
  | drop {resp : ServerResponse} (took : s.sender = .took resp)
      (unknown : s.clientConns resp.clerkId = none) : Moves s .lookup { s with sender := .idle }
  | find {resp : ServerResponse} {conn : Nat} (took : s.sender = .took resp)
      (found : s.clientConns resp.clerkId = some conn) :
      Moves s .lookup { s with sender := .writing resp conn }
  | write {resp : ServerResponse} {conn : Nat} {ok : Bool} (writing : s.sender = .writing resp conn) :
      Moves s (.write ok)
        { s with
          sender := if ok then .idle else .ended
          written := ⟨conn, resp, s.latest resp.clerkId, ok⟩ :: s.written }

theorem moves_of_step {a : Action} (h : s.step a = some t) : Moves s a t := by
  cases a with
  | accept =>
      cases h
      exact .accept
  | close conn =>
      cases h
      exact .close conn
  | read conn op =>
      obtain ⟨-, same⟩ := Option.ite_none_right_eq_some.mp h
      cases same
      exact .read conn op
  | register conn op =>
      obtain ⟨here, same⟩ := Option.ite_none_right_eq_some.mp h
      cases same
      exact .register here
  | enqueue conn op =>
      obtain ⟨⟨here, room⟩, same⟩ := Option.ite_none_right_eq_some.mp h
      cases same
      exact .enqueue here room
  | process =>
      simp only [step, process] at h
      split at h
      · cases h
      · cases h
        exact .process ‹_›
  | respond resp =>
      obtain ⟨room, same⟩ := Option.ite_none_right_eq_some.mp h
      cases same
      exact .respond resp room
  | take =>
      simp only [step, take] at h
      split at h
      · cases h
        exact .take ‹_› ‹_›
      · cases h
  | lookup =>
      simp only [step, lookup] at h
      split at h
      · split at h
        · cases h
          exact .drop ‹_› ‹_›
        · cases h
          exact .find ‹_› ‹_›
      · cases h
  | write ok =>
      simp only [step, write] at h
      split at h
      · obtain ⟨-, same⟩ := Option.ite_none_right_eq_some.mp h
        cases same
        exact .write ‹_›
      · cases h

end Connections.Server

namespace Server

open Connections (queueSize)

namespace Pipeline

/-- Where `handleOpQue` is. It waits for the lock in `checking` and `recording`, for room
in a channel in `answering` and `queuing`, and for Raft in `starting`. -/
inductive OpHandler where
  | idle
  | checking (op : Op)
  | answering (op : Op) (resp : ServerResponse)
  | queuing (op : Op)
  | starting (op : Op)
  | recording (op : Op) (term : Int)
  deriving DecidableEq

/-- Where `handleReadQue` is. It waits for the lock in `looking`, `recording` and `serving`,
for Raft in `asking`, and for room in `sendQueues` in `answering` and, with the lock, in
`delivering`. -/
inductive Reader where
  | idle
  | looking (readOp : Op)
  | asking (readOp : Op)
  | answering (readOp : Op) (resp : ServerResponse)
  | recording (readOp : Op) (idx : Int)
  | serving (readOp : Op) (startIdx : Option Int)
  | delivering (readOp : Op) (resp : ServerResponse)
  deriving DecidableEq

/-- Where `ApplyHandler` is. It waits for the lock in `applying`, for room in `sendQueues` in
`answering`, and for Raft in `compacting`. -/
inductive Applier where
  | idle
  | applying (msg : ApplyMsg)
  | answering (index : Int) (resp : ServerResponse)
  | compacting (index : Int) (snapshot : Bytes)
  deriving DecidableEq

/-- What `handleReadQue` learns about the index that its read has to wait for: that this is
not, or that it does not know, the leader; the index; or another error. -/
inductive Outcome where
  | leaderChanged
  | index (idx : Int)
  | failed
  deriving DecidableEq

end Pipeline

/-- A server with its channels and the positions of its goroutines. The last four fields
are history variables: the requests that were read from a connection, those that Raft has
accepted, the indices of the applied commands, and the responses that were put into
`sendQueues`, with the request if it was not `ApplyHandler` that did it. -/
structure Pipeline where
  conns : Connections.Server := {}
  kv : KVServer := {}
  /-- Whether `kv.mu` is held between two steps. -/
  mu : Bool := false
  readQue : List Op := []
  applyCh : List ApplyMsg := []
  opHandler : Pipeline.OpHandler := .idle
  reader : Pipeline.Reader := .idle
  count : Nat := 0
  applier : Pipeline.Applier := .idle
  arrived : List Op := []
  started : List Op := []
  applied : List Int := []
  sent : List (Option Op × ServerResponse) := []

namespace Pipeline

/-- One step of a goroutine. `conn` is one of `handleClientConnection`, of
`handleClientResponse` or of a client, `deliver` one of Raft. -/
inductive Action where
  | conn (a : Connections.Action)
  | receiveOp
  | checkHistory
  | queueRead
  | start (term : Option Int)
  | recordTerm
  | replyOp
  | receiveRead
  | lookUp
  | ask (outcome : Outcome)
  | replyRead
  | recordIndex
  | serveRead
  | deliverRead
  | deliver (msg : ApplyMsg)
  | receiveMsg
  | apply
  | replyApplied (takesSnapshot : Bool)
  | compact

/-- The actions of the connections that are no step of a goroutine modelled here. -/
def own : Connections.Action → Bool
  | .process | .respond _ => false
  | _ => true

/-- `handleOpQue` after its first section. -/
def checked (kv : KVServer) (op : Op) : OpHandler :=
  match kv.repeated op with
  | some history => .answering op history
  | none => if op.optype = opGet then .queuing op else .starting op

/-- The index that a read waits for, in the last section of `handleReadQue`. -/
def startIdx (kv : KVServer) (readOp : Op) (found : Option Int) : Int :=
  found.getD ((kv.incrMapLogIdx.lookup readOp.incrId).getD 0)

/-- `kv.sendQueues <- resp`. -/
def send (s : Pipeline) (request : Option Op) (resp : ServerResponse) : Option Pipeline :=
  (s.conns.respond resp).map fun conns =>
    { s with conns := conns, sent := s.sent ++ [(request, resp)] }

/-- The request that an action reads. -/
def requested : Connections.Action → List Op
  | .read _ op => [op]
  | _ => []

/-- What a client, a connection or `handleClientResponse` does. -/
def connStep (s : Pipeline) (a : Connections.Action) : Option Pipeline :=
  if own a then
    (s.conns.step a).map fun conns =>
      { s with conns := conns, arrived := s.arrived ++ requested a }
  else none

/-- `op := <-kv.processQue`. -/
def receiveOp (s : Pipeline) : Option Pipeline :=
  match s.opHandler, s.conns.processQue with
  | .idle, op :: rest =>
      some { s with conns := { s.conns with processQue := rest }, opHandler := .checking op }
  | _, _ => none

def checkHistory (s : Pipeline) : Option Pipeline :=
  match s.opHandler, s.mu with
  | .checking op, false => some { s with opHandler := checked s.kv op }
  | _, _ => none

/-- `kv.readQue <- op`. -/
def queueRead (s : Pipeline) : Option Pipeline :=
  match s.opHandler with
  | .queuing op =>
      if s.readQue.length < queueSize then
        some { s with readQue := s.readQue ++ [op], opHandler := .idle }
      else none
  | _ => none

/-- `kv.rf.Start(op)`, with the term that it returns on a leader. -/
def start (s : Pipeline) (term : Option Int) : Option Pipeline :=
  match s.opHandler, term with
  | .starting op, none =>
      some { s with opHandler := .answering op (opToResp op errLeaderChanged) }
  | .starting op, some term =>
      some { s with opHandler := .recording op term, started := s.started ++ [op] }
  | _, _ => none

def recordTerm (s : Pipeline) : Option Pipeline :=
  match s.opHandler, s.mu with
  | .recording op term, false =>
      some { s with kv := s.kv.record op.incrId term, opHandler := .idle }
  | _, _ => none

def replyOp (s : Pipeline) : Option Pipeline :=
  match s.opHandler with
  | .answering op resp => ({ s with opHandler := .idle } : Pipeline).send (some op) resp
  | _ => none

/-- `readOp = <-kv.readQue`. -/
def receiveRead (s : Pipeline) : Option Pipeline :=
  match s.reader, s.readQue with
  | .idle, readOp :: rest => some { s with readQue := rest, reader := .looking readOp }
  | _, _ => none

/-- `startIdx, exist := kv.incrMapLogIdx[readOp.IncrId]`. -/
def lookUp (s : Pipeline) : Option Pipeline :=
  match s.reader, s.mu with
  | .looking readOp, false =>
      match s.kv.incrMapLogIdx.lookup readOp.incrId with
      | some idx => some { s with reader := .serving readOp (some idx), count := 0 }
      | none => some { s with reader := .asking readOp }
  | _, _ => none

/-- `GetState` with `SingleHeartBeat` or `SendCommitIndex`. An error of the latter is
followed by three more attempts. -/
def ask (s : Pipeline) (outcome : Outcome) : Option Pipeline :=
  match s.reader, outcome with
  | .asking readOp, .leaderChanged =>
      some { s with reader := .answering readOp (opToResp readOp errLeaderChanged) }
  | .asking readOp, .index idx => some { s with reader := .recording readOp idx }
  | .asking readOp, .failed =>
      if s.count < 3 then some { s with reader := .looking readOp, count := s.count + 1 }
      else
        some { s with reader := .answering readOp (opToResp readOp errHandleTimeout), count := 0 }
  | _, _ => none

def replyRead (s : Pipeline) : Option Pipeline :=
  match s.reader with
  | .answering readOp resp => ({ s with reader := .idle } : Pipeline).send (some readOp) resp
  | _ => none

def recordIndex (s : Pipeline) : Option Pipeline :=
  match s.reader, s.mu with
  | .recording readOp idx, false =>
      some
        { s with
          kv := s.kv.record readOp.incrId idx, reader := .serving readOp none, count := 0 }
  | _, _ => none

/-- The last section of `handleReadQue` up to its send, with the lock, or as a whole if the
index is not applied yet. -/
def serveRead (s : Pipeline) : Option Pipeline :=
  match s.reader, s.mu with
  | .serving readOp found, false =>
      if startIdx s.kv readOp found ≤ s.kv.lastApplied then
        some
          { s with
            kv := (s.kv.dbExecute readOp).1, mu := true
            reader := .delivering readOp (s.kv.dbExecute readOp).2 }
      else some { s with reader := .looking readOp }
  | _, _ => none

/-- The send of the last section, and the rest of it. -/
def deliverRead (s : Pipeline) : Option Pipeline :=
  match s.reader with
  | .delivering readOp resp =>
      ({ s with
        kv := { s.kv with incrMapLogIdx := s.kv.incrMapLogIdx.erase readOp.incrId }
        mu := false, reader := .idle } : Pipeline).send (some readOp) resp
  | _ => none

/-- `rf.applyCh <- msg`. The channel holds one message. -/
def deliver (s : Pipeline) (msg : ApplyMsg) : Option Pipeline :=
  if s.applyCh.length < 1 then some { s with applyCh := s.applyCh ++ [msg] } else none

/-- `_log := <-kv.applyCh`. -/
def receiveMsg (s : Pipeline) : Option Pipeline :=
  match s.applier, s.applyCh with
  | .idle, msg :: rest =>
      some
        { s with
          applyCh := rest
          applier := if msg.commandValid ∨ msg.snapshotValid then .applying msg else .idle }
  | _, _ => none

/-- The section of `ApplyHandler`; `log.Fatal` ends the process. -/
def apply (codec : Labgob) (s : Pipeline) : Option Pipeline :=
  match s.applier, s.mu with
  | .applying msg, false =>
      (s.kv.applyHandler codec msg).map fun result =>
        match result.2 with
        | none => { s with kv := result.1, applier := .idle }
        | some resp =>
            { s with
              kv := result.1, applier := .answering msg.commandIndex resp
              applied := s.applied ++ [msg.commandIndex] }
  | _, _ => none

/-- The send of `ApplyHandler`. Whether the raft state is large enough for a snapshot is an
argument. -/
def replyApplied (codec : Labgob) (s : Pipeline) (takesSnapshot : Bool) : Option Pipeline :=
  match s.applier with
  | .answering index resp =>
      ({ s with
        applier := if takesSnapshot then .compacting index (s.kv.snapshot codec) else .idle } :
        Pipeline).send none resp
  | _ => none

/-- `kv.rf.Snapshot`. -/
def compact (s : Pipeline) : Option Pipeline :=
  match s.applier with
  | .compacting _ _ => some { s with applier := .idle }
  | _ => none

def step (codec : Labgob) (s : Pipeline) : Action → Option Pipeline
  | .conn a => s.connStep a
  | .receiveOp => s.receiveOp
  | .checkHistory => s.checkHistory
  | .queueRead => s.queueRead
  | .start term => s.start term
  | .recordTerm => s.recordTerm
  | .replyOp => s.replyOp
  | .receiveRead => s.receiveRead
  | .lookUp => s.lookUp
  | .ask outcome => s.ask outcome
  | .replyRead => s.replyRead
  | .recordIndex => s.recordIndex
  | .serveRead => s.serveRead
  | .deliverRead => s.deliverRead
  | .deliver msg => s.deliver msg
  | .receiveMsg => s.receiveMsg
  | .apply => s.apply codec
  | .replyApplied takesSnapshot => s.replyApplied codec takesSnapshot
  | .compact => s.compact

/-! ## What a step does -/

/-- The actions with their guards. A response is `delivered` to `sendQueues` by whoever has
it. -/
inductive Moves (codec : Labgob) (s : Pipeline) : Action → Pipeline → Prop where
  | conn {a : Connections.Action} {conns : Connections.Server} (isOwn : own a = true)
      (moves : s.conns.Moves a conns) :
      Moves codec s (.conn a) { s with conns := conns, arrived := s.arrived ++ requested a }
  | receiveOp {op : Op} {rest : List Op} (position : s.opHandler = .idle)
      (queue : s.conns.processQue = op :: rest) :
      Moves codec s .receiveOp
        { s with conns := { s.conns with processQue := rest }, opHandler := .checking op }
  | checkHistory {op : Op} (position : s.opHandler = .checking op) (free : s.mu = false) :
      Moves codec s .checkHistory { s with opHandler := checked s.kv op }
  | queueRead {op : Op} (position : s.opHandler = .queuing op)
      (room : s.readQue.length < queueSize) :
      Moves codec s .queueRead { s with readQue := s.readQue ++ [op], opHandler := .idle }
  | refuse {op : Op} (position : s.opHandler = .starting op) :
      Moves codec s (.start none)
        { s with opHandler := .answering op (opToResp op errLeaderChanged) }
  | start {op : Op} (position : s.opHandler = .starting op) (term : Int) :
      Moves codec s (.start (some term))
        { s with opHandler := .recording op term, started := s.started ++ [op] }
  | recordTerm {op : Op} {term : Int} (position : s.opHandler = .recording op term)
      (free : s.mu = false) :
      Moves codec s .recordTerm { s with kv := s.kv.record op.incrId term, opHandler := .idle }
  | replyOp {op : Op} {resp : ServerResponse} (position : s.opHandler = .answering op resp)
      (room : s.conns.sendQueues.length < queueSize) :
      Moves codec s .replyOp
        { s with
          conns := { s.conns with sendQueues := s.conns.sendQueues ++ [resp] }
          opHandler := .idle, sent := s.sent ++ [(some op, resp)] }
  | receiveRead {readOp : Op} {rest : List Op} (position : s.reader = .idle)
      (queue : s.readQue = readOp :: rest) :
      Moves codec s .receiveRead { s with readQue := rest, reader := .looking readOp }
  | found {readOp : Op} {idx : Int} (position : s.reader = .looking readOp) (free : s.mu = false)
      (found : s.kv.incrMapLogIdx.lookup readOp.incrId = some idx) :
      Moves codec s .lookUp { s with reader := .serving readOp (some idx), count := 0 }
  | missed {readOp : Op} (position : s.reader = .looking readOp) (free : s.mu = false)
      (missed : s.kv.incrMapLogIdx.lookup readOp.incrId = none) :
      Moves codec s .lookUp { s with reader := .asking readOp }
  | leaderChanged {readOp : Op} (position : s.reader = .asking readOp) :
      Moves codec s (.ask .leaderChanged)
        { s with reader := .answering readOp (opToResp readOp errLeaderChanged) }
  | index {readOp : Op} (position : s.reader = .asking readOp) (idx : Int) :
      Moves codec s (.ask (.index idx)) { s with reader := .recording readOp idx }
  | retry {readOp : Op} (position : s.reader = .asking readOp) (again : s.count < 3) :
      Moves codec s (.ask .failed) { s with reader := .looking readOp, count := s.count + 1 }
  | timeout {readOp : Op} (position : s.reader = .asking readOp) (enough : ¬ s.count < 3) :
      Moves codec s (.ask .failed)
        { s with reader := .answering readOp (opToResp readOp errHandleTimeout), count := 0 }
  | replyRead {readOp : Op} {resp : ServerResponse} (position : s.reader = .answering readOp resp)
      (room : s.conns.sendQueues.length < queueSize) :
      Moves codec s .replyRead
        { s with
          conns := { s.conns with sendQueues := s.conns.sendQueues ++ [resp] }
          reader := .idle, sent := s.sent ++ [(some readOp, resp)] }
  | recordIndex {readOp : Op} {idx : Int} (position : s.reader = .recording readOp idx)
      (free : s.mu = false) :
      Moves codec s .recordIndex
        { s with
          kv := s.kv.record readOp.incrId idx, reader := .serving readOp none, count := 0 }
  | serveRead {readOp : Op} {found : Option Int} (position : s.reader = .serving readOp found)
      (free : s.mu = false) (isApplied : startIdx s.kv readOp found ≤ s.kv.lastApplied) :
      Moves codec s .serveRead
        { s with
          kv := (s.kv.dbExecute readOp).1, mu := true
          reader := .delivering readOp (s.kv.dbExecute readOp).2 }
  | wait {readOp : Op} {found : Option Int} (position : s.reader = .serving readOp found)
      (free : s.mu = false) (waits : ¬ startIdx s.kv readOp found ≤ s.kv.lastApplied) :
      Moves codec s .serveRead { s with reader := .looking readOp }
  | deliverRead {readOp : Op} {resp : ServerResponse}
      (position : s.reader = .delivering readOp resp)
      (room : s.conns.sendQueues.length < queueSize) :
      Moves codec s .deliverRead
        { s with
          conns := { s.conns with sendQueues := s.conns.sendQueues ++ [resp] }
          kv := { s.kv with incrMapLogIdx := s.kv.incrMapLogIdx.erase readOp.incrId }
          mu := false, reader := .idle, sent := s.sent ++ [(some readOp, resp)] }
  | deliver (msg : ApplyMsg) (room : s.applyCh.length < 1) :
      Moves codec s (.deliver msg) { s with applyCh := s.applyCh ++ [msg] }
  | receiveMsg {msg : ApplyMsg} {rest : List ApplyMsg} (position : s.applier = .idle)
      (queue : s.applyCh = msg :: rest) :
      Moves codec s .receiveMsg
        { s with
          applyCh := rest
          applier := if msg.commandValid ∨ msg.snapshotValid then .applying msg else .idle }
  | pass {msg : ApplyMsg} {kv : KVServer} (position : s.applier = .applying msg)
      (free : s.mu = false) (result : s.kv.applyHandler codec msg = some (kv, none)) :
      Moves codec s .apply { s with kv := kv, applier := .idle }
  | apply {msg : ApplyMsg} {kv : KVServer} {resp : ServerResponse}
      (position : s.applier = .applying msg) (free : s.mu = false)
      (result : s.kv.applyHandler codec msg = some (kv, some resp)) :
      Moves codec s .apply
        { s with
          kv := kv, applier := .answering msg.commandIndex resp
          applied := s.applied ++ [msg.commandIndex] }
  | replyApplied {index : Int} {resp : ServerResponse}
      (position : s.applier = .answering index resp)
      (room : s.conns.sendQueues.length < queueSize) (takesSnapshot : Bool) :
      Moves codec s (.replyApplied takesSnapshot)
        { s with
          conns := { s.conns with sendQueues := s.conns.sendQueues ++ [resp] }
          applier := if takesSnapshot then .compacting index (s.kv.snapshot codec) else .idle
          sent := s.sent ++ [(none, resp)] }
  | compact {index : Int} {snapshot : Bytes} (position : s.applier = .compacting index snapshot) :
      Moves codec s .compact { s with applier := .idle }

variable {codec : Labgob} {s t : Pipeline}

theorem send_eq {request : Option Op} {resp : ServerResponse} (h : s.send request resp = some t) :
    s.conns.sendQueues.length < queueSize ∧
      t = { s with
        conns := { s.conns with sendQueues := s.conns.sendQueues ++ [resp] }
        sent := s.sent ++ [(request, resp)] } := by
  obtain ⟨conns, queued, rfl⟩ := Option.map_eq_some_iff.mp h
  obtain ⟨room, same⟩ := Option.ite_none_right_eq_some.mp queued
  cases same
  exact ⟨room, rfl⟩

theorem moves_of_step {a : Action} (h : s.step codec a = some t) : Moves codec s a t := by
  cases a with
  | conn a =>
      obtain ⟨isOwn, conns, taken, rfl⟩ := enabled_map.mp h
      exact .conn isOwn (Connections.Server.moves_of_step taken)
  | receiveOp =>
      simp only [step, receiveOp] at h
      split at h
      · cases h
        exact .receiveOp ‹_› ‹_›
      · cases h
  | checkHistory =>
      simp only [step, checkHistory] at h
      split at h
      · cases h
        exact .checkHistory ‹_› ‹_›
      · cases h
  | queueRead =>
      simp only [step, queueRead] at h
      split at h
      · obtain ⟨room, same⟩ := Option.ite_none_right_eq_some.mp h
        cases same
        exact .queueRead ‹_› room
      · cases h
  | start term =>
      simp only [step, start] at h
      split at h
      · cases h
        exact .refuse ‹_›
      · cases h
        exact .start ‹_› _
      · cases h
  | recordTerm =>
      simp only [step, recordTerm] at h
      split at h
      · cases h
        exact .recordTerm ‹_› ‹_›
      · cases h
  | replyOp =>
      simp only [step, replyOp] at h
      split at h
      · obtain ⟨room, rfl⟩ := send_eq h
        exact .replyOp ‹_› room
      · cases h
  | receiveRead =>
      simp only [step, receiveRead] at h
      split at h
      · cases h
        exact .receiveRead ‹_› ‹_›
      · cases h
  | lookUp =>
      simp only [step, lookUp] at h
      split at h
      · split at h
        · cases h
          exact .found ‹_› ‹_› ‹_›
        · cases h
          exact .missed ‹_› ‹_› ‹_›
      · cases h
  | ask outcome =>
      simp only [step, ask] at h
      split at h
      · cases h
        exact .leaderChanged ‹_›
      · cases h
        exact .index ‹_› _
      · split at h
        · cases h
          exact .retry ‹_› ‹_›
        · cases h
          exact .timeout ‹_› ‹_›
      · cases h
  | replyRead =>
      simp only [step, replyRead] at h
      split at h
      · obtain ⟨room, rfl⟩ := send_eq h
        exact .replyRead ‹_› room
      · cases h
  | recordIndex =>
      simp only [step, recordIndex] at h
      split at h
      · cases h
        exact .recordIndex ‹_› ‹_›
      · cases h
  | serveRead =>
      simp only [step, serveRead] at h
      split at h
      · split at h
        · cases h
          exact .serveRead ‹_› ‹_› ‹_›
        · cases h
          exact .wait ‹_› ‹_› ‹_›
      · cases h
  | deliverRead =>
      simp only [step, deliverRead] at h
      split at h
      · obtain ⟨room, rfl⟩ := send_eq h
        exact .deliverRead ‹_› room
      · cases h
  | deliver msg =>
      obtain ⟨room, same⟩ := Option.ite_none_right_eq_some.mp h
      cases same
      exact .deliver msg room
  | receiveMsg =>
      simp only [step, receiveMsg] at h
      split at h
      · cases h
        exact .receiveMsg ‹_› ‹_›
      · cases h
  | apply =>
      simp only [step, apply] at h
      split at h
      · obtain ⟨⟨kv, resp⟩, result, rfl⟩ := Option.map_eq_some_iff.mp h
        cases resp with
        | none => exact .pass ‹_› ‹_› result
        | some resp => exact .apply ‹_› ‹_› result
      · cases h
  | replyApplied takesSnapshot =>
      simp only [step, replyApplied] at h
      split at h
      · rename_i position
        obtain ⟨room, rfl⟩ := send_eq h
        exact .replyApplied position room takesSnapshot
      · cases h
  | compact =>
      simp only [step, compact] at h
      split at h
      · cases h
        exact .compact ‹_›
      · cases h

/-- For the connections a step is one of theirs, or none. -/
theorem conns_step {a : Action} (h : s.step codec a = some t) :
    t.conns = s.conns ∨ ∃ b, s.conns.step b = some t.conns := by
  cases a with
  | conn a =>
      obtain ⟨-, conns, taken, rfl⟩ := enabled_map.mp h
      exact .inr ⟨a, taken⟩
  | receiveOp =>
      cases moves_of_step h with
      | receiveOp _ queue =>
          exact .inr ⟨.process, by
            simp only [Connections.Server.step, Connections.Server.process, queue]⟩
  | replyOp =>
      cases moves_of_step h with
      | replyOp _ room => exact .inr ⟨.respond _, if_pos room⟩
  | replyRead =>
      cases moves_of_step h with
      | replyRead _ room => exact .inr ⟨.respond _, if_pos room⟩
  | deliverRead =>
      cases moves_of_step h with
      | deliverRead _ room => exact .inr ⟨.respond _, if_pos room⟩
  | replyApplied takesSnapshot =>
      cases moves_of_step h with
      | replyApplied _ room => exact .inr ⟨.respond _, if_pos room⟩
  | _ =>
      cases moves_of_step h
      all_goals exact .inl rfl

theorem conns_reachable {ok : Pipeline → Action → Prop} (h : Reaches (step codec) ok s t) :
    Reachable Connections.Server.step s.conns t.conns :=
  h.map fun _ _ _ _ taken => (conns_step taken).imp id fun ⟨b, taken⟩ => ⟨b, trivial, taken⟩

end Pipeline

end Server

end RaftKv
