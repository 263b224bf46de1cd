import RaftKv.Server.Pipeline
import Mathlib.Data.List.Perm.Basic

/-!
# What becomes of a request

A server keeps no list of its requests: while a request is served it is in the hands of a
goroutine or in a channel between two of them. Following the steps, every request that was
read from a connection is in one place. It leaves the server when Raft accepts it or when
`handleOpQue` or `handleReadQue` have put a response for it into `sendQueues`.

The responses carry the names of their requests, those from `history` included, as long as
snapshots come from servers. `handleClientResponse` takes them in the order in which they
were put into the channel.
-/

namespace RaftKv.Server.Pipeline

open Library
open RaftKv.Raft (Op ApplyMsg)
open RaftKv.Connections (queueSize)

variable {codec : Labgob} {s t : Pipeline}

/-! ## Where the requests are -/

/-- The request that `handleOpQue` has in hand, as long as Raft has not accepted it. -/
def OpHandler.holding : OpHandler → List Op
  | .idle | .recording _ _ => []
  | .checking op | .answering op _ | .queuing op | .starting op => [op]

/-- The read that `handleReadQue` has in hand. -/
def Reader.holding : Reader → List Op
  | .idle => []
  | .looking op | .asking op | .answering op _ | .recording op _ | .serving op _
  | .delivering op _ => [op]

/-- The requests on their way through the server. -/
def inside (s : Pipeline) : List Op :=
  s.conns.registering.map Prod.snd ++ s.conns.enqueuing.map Prod.snd ++ s.conns.processQue ++
    s.opHandler.holding ++ s.readQue ++ s.reader.holding

/-- The requests that were answered by `handleOpQue` or `handleReadQue`. -/
def replied (s : Pipeline) : List Op := s.sent.filterMap Prod.fst

/-- The response is for the request. -/
def Names (op : Op) (resp : ServerResponse) : Prop :=
  resp.clerkId = op.clerkId ∧ resp.incrId = op.incrId

/-- Recorded results are filed under their clerk. -/
def Filed (history : History) : Prop :=
  ∀ clerkId resp, history.lookup clerkId = some resp → resp.clerkId = clerkId

/-- What Raft puts into `applyCh`: `CommandValid` only with a command, as `CommitCheck` and
`QuickApply` see to, and snapshots that servers have taken. -/
def Genuine (codec : Labgob) (_ : Pipeline) : Action → Prop
  | .deliver msg => (msg.commandValid = true → msg.command ≠ none) ∧
      ∀ db history, codec.decode msg.snapshot = some (db, history) → Filed history
  | _ => True

/-- Every request that was read is in one place. -/
def Accounted (s : Pipeline) : Prop :=
  ∀ op, s.arrived.count op = s.inside.count op + s.started.count op + s.replied.count op

theorem count_inside (s : Pipeline) (op : Op) :
    s.inside.count op = (s.conns.registering.map Prod.snd).count op +
      (s.conns.enqueuing.map Prod.snd).count op + s.conns.processQue.count op +
      s.opHandler.holding.count op + s.readQue.count op + s.reader.holding.count op := by
  simp only [inside, List.count_append]

/-- A request leaves one of the lists of the connections. -/
theorem count_erase {waiting : List (Nat × Op)} {p : Nat × Op} (here : p ∈ waiting) (op : Op) :
    (waiting.map Prod.snd).count op =
      ((waiting.erase p).map Prod.snd).count op + [p.2].count op := by
  have perm := ((List.perm_cons_erase here).map Prod.snd).count_eq op
  rw [perm, List.map_cons, ← List.singleton_append, List.count_append, Nat.add_comm]

theorem holding_checked (kv : KVServer) (op : Op) : (checked kv op).holding = [op] := by
  unfold checked
  split
  · rfl
  · split <;> rfl

/-- A request is answered. -/
theorem count_replied (sent : List (Option Op × ServerResponse)) (op : Op) (resp : ServerResponse)
    (x : Op) :
    ((sent ++ [(some op, resp)]).filterMap Prod.fst).count x =
      (sent.filterMap Prod.fst).count x + [op].count x := by
  rw [List.filterMap_append, List.count_append]
  rfl

theorem Accounted.step {a : Action} (inv : s.Accounted) (moves : Moves codec s a t) :
    t.Accounted := by
  intro op
  have inv := inv op
  rw [count_inside, replied] at inv ⊢
  cases moves with
  | conn isOwn moves =>
      rw [List.count_append]
      cases moves with
      | process | respond => cases isOwn
      | read conn op =>
          simp only [requested, List.map_cons, List.count_cons, List.count_nil]
          omega
      | register here =>
          have moved := count_erase here op
          simp only [requested, List.map_cons, List.count_cons, List.count_nil] at moved ⊢
          omega
      | enqueue here =>
          have moved := count_erase here op
          simp only [requested, List.count_append, List.count_nil] at moved ⊢
          omega
      | _ => exact inv
  | receiveOp position queue =>
      rw [position, queue, List.count_cons] at inv
      simp only [OpHandler.holding, List.count_nil, List.count_singleton] at inv ⊢
      omega
  | checkHistory position =>
      rw [position] at inv
      rw [holding_checked]
      exact inv
  | queueRead position =>
      rw [position] at inv
      simp only [OpHandler.holding, List.count_append, List.count_nil] at inv ⊢
      omega
  | start position =>
      rw [position] at inv
      simp only [OpHandler.holding, List.count_append, List.count_nil] at inv ⊢
      omega
  | replyOp position =>
      rw [position] at inv
      simp only [OpHandler.holding, count_replied, List.count_nil] at inv ⊢
      omega
  | receiveRead position queue =>
      rw [position, queue, List.count_cons] at inv
      simp only [Reader.holding, List.count_nil, List.count_singleton] at inv ⊢
      omega
  | replyRead position =>
      rw [position] at inv
      simp only [Reader.holding, count_replied, List.count_nil] at inv ⊢
      omega
  | deliverRead position =>
      rw [position] at inv
      simp only [Reader.holding, count_replied, List.count_nil] at inv ⊢
      omega
  | replyApplied position =>
      rw [List.filterMap_append, List.count_append]
      exact inv
  | refuse position | recordTerm position | found position | missed position
  | leaderChanged position | index position | retry position | timeout position
  | recordIndex position | serveRead position | wait position =>
      rw [position] at inv
      exact inv
  | _ => exact inv

/-! ## Whom the responses name -/

theorem names_opToResp (op : Op) (errId : UInt32) : Names op (opToResp op errId) := ⟨rfl, rfl⟩

theorem names_answer (kv : KVServer) (op : Op) : Names op (kv.dbExecute op).2 :=
  ⟨KVServer.answer_clerkId kv.db op, KVServer.answer_incrId kv.db op⟩

theorem Filed.names_repeated {kv : KVServer} {op : Op} {resp : ServerResponse}
    (filed : Filed kv.history) (h : kv.repeated op = some resp) : Names op resp := by
  obtain ⟨found, same⟩ := Option.filter_eq_some_iff.mp h
  exact ⟨filed op.clerkId resp found, of_decide_eq_true same⟩

theorem Filed.applyHandler {kv kv' : KVServer} {msg : ApplyMsg} {resp : Option ServerResponse}
    (filed : Filed kv.history)
    (genuine : ∀ db history, codec.decode msg.snapshot = some (db, history) → Filed history)
    (h : kv.applyHandler codec msg = some (kv', resp)) : Filed kv'.history := by
  cases KVServer.applies_of_applyHandler h with
  | passed => exact filed
  | @command op valid isNew command =>
      intro clerkId resp found
      rw [KVServer.applyCommand_history] at found
      split at found
      · by_cases same : clerkId = op.clerkId
        · subst same
          rw [Finmap.lookup_insert] at found
          cases found
          exact KVServer.answer_clerkId kv.db op
        · rw [Finmap.lookup_insert_of_ne _ same] at found
          exact filed clerkId resp found
      · exact filed clerkId resp found
  | snapshot valid isNew =>
      change Filed (kv.loadSnapshot codec msg.snapshot).history
      unfold KVServer.loadSnapshot
      split
      · exact filed
      · split
        · exact filed
        · exact genuine _ _ ‹_›

/-- The responses that are on their way carry the names of their requests. -/
structure Addressed (codec : Labgob) (s : Pipeline) : Prop where
  history : Filed s.kv.history
  applyCh : ∀ msg, msg ∈ s.applyCh ∨ s.applier = .applying msg →
    Genuine codec s (.deliver msg)
  opHandler : ∀ op resp, s.opHandler = .answering op resp → Names op resp
  reader : ∀ op resp, s.reader = .answering op resp ∨ s.reader = .delivering op resp →
    Names op resp
  sent : ∀ op resp, (some op, resp) ∈ s.sent → Names op resp

namespace Addressed

theorem send (inv : Addressed codec s) {op : Op} {resp : ServerResponse} (names : Names op resp)
    (x : Op) (r : ServerResponse) (h : (some x, r) ∈ s.sent ++ [(some op, resp)]) : Names x r := by
  rcases List.mem_append.mp h with old | new
  · exact inv.sent x r old
  · cases List.mem_singleton.mp new
    exact names

theorem checked (inv : Addressed codec s) {op : Op} (x : Op) (r : ServerResponse)
    (h : Pipeline.checked s.kv op = .answering x r) : Names x r := by
  unfold Pipeline.checked at h
  split at h
  next repeats =>
    cases h
    exact inv.history.names_repeated repeats
  · split at h <;> cases h

/-- The messages that are left when `ApplyHandler` does not apply one. -/
theorem messages (inv : Addressed codec s) {applier : Applier}
    (other : ∀ msg, applier ≠ .applying msg) (msg : ApplyMsg)
    (h : msg ∈ s.applyCh ∨ applier = .applying msg) : Genuine codec s (.deliver msg) :=
  inv.applyCh msg (.inl (h.resolve_right (other msg)))

theorem step {a : Action} (inv : Addressed codec s) (genuine : Genuine codec s a)
    (moves : Moves codec s a t) : Addressed codec t := by
  cases moves with
  | conn => exact { inv with }
  | receiveOp | queueRead | start | recordTerm => exact { inv with opHandler := nofun }
  | checkHistory => exact { inv with opHandler := inv.checked }
  | @refuse op =>
      refine { inv with opHandler := ?_ }
      rintro _ _ ⟨⟩
      exact names_opToResp op errLeaderChanged
  | replyOp position =>
      exact { inv with opHandler := nofun, sent := inv.send (inv.opHandler _ _ position) }
  | receiveRead | found | missed | index | retry | recordIndex | wait =>
      exact { inv with reader := by simp }
  | @leaderChanged readOp =>
      refine { inv with reader := ?_ }
      rintro op resp (same | same) <;> cases same
      exact names_opToResp readOp errLeaderChanged
  | @timeout readOp =>
      refine { inv with reader := ?_ }
      rintro op resp (same | same) <;> cases same
      exact names_opToResp readOp errHandleTimeout
  | replyRead position =>
      exact { inv with reader := by simp, sent := inv.send (inv.reader _ _ (.inl position)) }
  | @serveRead readOp =>
      refine { inv with reader := ?_ }
      rintro op resp (same | same) <;> cases same
      exact names_answer s.kv readOp
  | deliverRead position =>
      exact { inv with reader := by simp, sent := inv.send (inv.reader _ _ (.inr position)) }
  | deliver msg =>
      refine { inv with applyCh := fun m h => ?_ }
      rcases h with queued | taken
      · rcases List.mem_append.mp queued with old | new
        · exact inv.applyCh m (.inl old)
        · cases List.mem_singleton.mp new
          exact genuine
      · exact inv.applyCh m (.inr taken)
  | @receiveMsg msg rest position queue =>
      refine { inv with applyCh := fun m h => ?_ }
      apply inv.applyCh m
      rw [queue]
      rcases h with left | taken
      · exact .inl (List.mem_cons_of_mem msg left)
      · dsimp only at taken
        split at taken
        · cases taken
          exact .inl List.mem_cons_self
        · cases taken
  | pass position _ result =>
      exact
        { inv with
          history := inv.history.applyHandler (inv.applyCh _ (.inr position)).2 result
          applyCh := inv.messages nofun }
  | apply position _ result =>
      exact
        { inv with
          history := inv.history.applyHandler (inv.applyCh _ (.inr position)).2 result
          applyCh := inv.messages nofun }
  | replyApplied position room takesSnapshot =>
      refine { inv with applyCh := inv.messages ?_, sent := fun op resp h => ?_ }
      · intro msg
        split <;> exact nofun
      · refine inv.sent op resp ((List.mem_append.mp h).resolve_right fun new => ?_)
        cases List.mem_singleton.mp new
  | compact => exact { inv with applyCh := inv.messages nofun }

end Addressed

/-! ## The order of the responses -/

/-- The response that `handleClientResponse` has in hand. -/
def writing : Connections.Sender → List ServerResponse
  | .idle | .ended => []
  | .took resp | .writing resp _ => [resp]

/-- The channel gives out the responses in the order in which they were put in. Each of them
is written at most once, in this order. -/
def Ordered (s : Pipeline) : Prop :=
  ∃ taken, s.sent.map Prod.snd = taken ++ s.conns.sendQueues ∧
    (s.conns.written.reverse.map Connections.Write.resp ++ writing s.conns.sender).Sublist taken

namespace Ordered

/-- A response is put into the channel. -/
theorem send (inv : s.Ordered) {request : Option Op} {resp : ServerResponse} {u : Pipeline}
    (sent : u.sent = s.sent ++ [(request, resp)])
    (conns : u.conns = { s.conns with sendQueues := s.conns.sendQueues ++ [resp] }) :
    u.Ordered := by
  obtain ⟨taken, order, written⟩ := inv
  refine ⟨taken, ?_, conns ▸ written⟩
  rw [sent, conns, List.map_append, order, List.append_assoc]
  rfl

theorem step {a : Action} (inv : s.Ordered) (moves : Moves codec s a t) : t.Ordered := by
  cases moves with
  | conn isOwn moves =>
      obtain ⟨taken, order, written⟩ := inv
      cases moves with
      | process | respond => cases isOwn
      | @take resp rest idle queue =>
          refine ⟨taken ++ [resp], ?_, ?_⟩
          · rw [order, queue, List.append_assoc]
            rfl
          · rw [idle, writing, List.append_nil] at written
            exact written.append (List.Sublist.refl [resp])
      | @drop resp took unknown =>
          rw [took] at written
          exact ⟨taken, order, ((List.Sublist.refl _).append (List.nil_sublist [resp])).trans written⟩
      | find took found =>
          rw [took] at written
          exact ⟨taken, order, written⟩
      | @write resp conn ok wrote =>
          rw [wrote] at written
          refine ⟨taken, order, ?_⟩
          have ends : writing (if ok then .idle else .ended) = [] := by cases ok <;> rfl
          rw [List.reverse_cons, List.map_append, ends, List.append_nil]
          exact written
      | _ => exact ⟨taken, order, written⟩
  | replyOp | replyRead | deliverRead | replyApplied => exact inv.send rfl rfl
  | _ => exact inv

end Ordered

theorem inv_of_reachable (h : Reaches (step codec) (Genuine codec) {} s) :
    s.Accounted ∧ Addressed codec s ∧ s.Ordered := by
  refine h.invariant (I := fun s => s.Accounted ∧ Addressed codec s ∧ s.Ordered) ?_ ?_
  · exact ⟨fun _ => rfl, ⟨nofun, by simp, nofun, by simp, nofun⟩, [], rfl, .slnil⟩
  · intro s a t _ ⟨accounted, addressed, ordered⟩ genuine taken
    have moves := moves_of_step taken
    exact ⟨accounted.step moves, addressed.step genuine moves, ordered.step moves⟩

theorem Accounted.perm (accounted : s.Accounted) :
    s.arrived.Perm (s.inside ++ s.started ++ s.replied) := by
  apply List.perm_iff_count.mpr
  intro op
  rw [List.count_append, List.count_append]
  exact accounted op

/-- However the goroutines of a server are scheduled, as long as what Raft puts into `applyCh`
is `Genuine`, a request that was read from a connection is in one place: it is still on its
way, or Raft has accepted it, or it was answered, once, by a response with its `ClerkId` and
`IncrId`. Responses are written in the order in which the goroutines have put them into `sendQueues`,
and none of them twice. -/
theorem requests_in_one_place (codec : Labgob) {s : Pipeline}
    (h : Reaches (step codec) (Genuine codec) {} s) :
    s.arrived.Perm (s.inside ++ s.started ++ s.replied) ∧
      (∀ op resp, (some op, resp) ∈ s.sent → Names op resp) ∧
      (s.conns.written.reverse.map Connections.Write.resp).Sublist (s.sent.map Prod.snd) := by
  obtain ⟨accounted, addressed, taken, order, written⟩ := inv_of_reachable h
  refine ⟨accounted.perm, addressed.sent, ?_⟩
  rw [order]
  exact ((List.sublist_append_left _ _).trans written).trans (List.sublist_append_left _ _)

/-- A read of clerk five. -/
def aRead : Op := { optype := opGet, incrId := 3, clerkId := 5, key := [107] }

/-- A read comes in on a connection and is executed. -/
def executeRead (conn : Nat) : List Action :=
  [.conn .accept, .conn (.read conn aRead), .conn (.register conn aRead),
    .conn (.enqueue conn aRead), .receiveOp, .checkHistory, .queueRead, .receiveRead, .lookUp,
    .ask (.index 0), .recordIndex, .serveRead]

/-- Snapshots cannot be decoded. -/
def noSnapshots : Labgob := ⟨fun _ _ => [], fun _ => none⟩

def ofRaft : Action → Bool
  | .deliver _ => true
  | _ => false

theorem genuine_of_ofRaft (codec : Labgob) (s : Pipeline) {a : Action} (h : ofRaft a = false) :
    Genuine codec s a := by
  cases a with
  | deliver => cases h
  | _ => trivial

/-- One read, up to the write of its response. -/
theorem requests_in_one_place_read :
    ∃ s, Reaches (step noSnapshots) (Genuine noSnapshots) {} s ∧
      s.arrived = [aRead] ∧ s.inside = [] ∧ s.conns.written.length = 1 ∧
      s.arrived.Perm (s.inside ++ s.started ++ s.replied) := by
  obtain ⟨s, reached, arrived, inside, written⟩ :
      ∃ s : Pipeline, Reaches (step noSnapshots) (fun _ a => ofRaft a = false) {} s ∧
        s.arrived = [aRead] ∧ s.inside = [] ∧ s.conns.written.length = 1 :=
    exists_reaches _
      (executeRead 0 ++ [.deliverRead, .conn .take, .conn .lookup, .conn (.write true)])
      (by decide +kernel) (by decide +kernel)
  have genuine := reached.mono fun s a => genuine_of_ofRaft noSnapshots s
  exact ⟨s, genuine, arrived, inside, written, (requests_in_one_place noSnapshots genuine).1⟩

end RaftKv.Server.Pipeline
