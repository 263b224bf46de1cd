import RaftKv.Library.Run
import RaftKv.Proxy.Messages
import Mathlib.Data.List.Perm.Basic
import Mathlib.Logic.Function.Basic

/-!
# The cluster manager

Requests come in on connections from proxies, go through `SendQue` to some node, and come
back as responses that are sorted into `RespQue` and `FailQue`. What fails is to be sent
again. Every goroutine is modelled by what it holds between two of its steps, so that a
request is always in a queue, in some goroutine's hands, or at a node.

A request has a number, its position in the order in which they were read. The program
does not have it; it tells two requests apart that are equal, and a retried request keeps
it. Weights, locks and timers decide when something happens and where a `GET` goes, and
are left out: a `GET` may go to any node, and a retry waits as long as it likes. A node
answers what it was sent, and once. A run ends where the process does, in a panic or in `Stop`.
-/

namespace RaftKv.ClusterManager

open Library RaftKv.Proxy
open RaftKv.Raft (Op)
open RaftKv.Server (ServerResponse opToResp opGet opPut errOk errNoKey errLeaderChanged
  errHandleTimeout)

/-- The other codes of `cm.ErrMap`. -/
def errWrongLeader : UInt32 := 101
def errChanClosed : UInt32 := 104

/-- The capacity of the three queues. -/
def queueSize : Nat := 100

/-- A message with the number of its request. -/
structure Item (α : Type) where
  tag : Nat
  content : α
  deriving DecidableEq

abbrev Request := Item ClientMessage
abbrev Response := Item ServerResponse

/-- Connections, to proxies and to nodes, are numbers. -/
structure Cluster where
  /-- What the `serve` goroutines have read so far, and on which connection. -/
  reads : List (Nat × ClientMessage) := []
  /-- Held by `serve` before and after `cu.SendQue <- cmsg`. -/
  entering : List (Nat × Request) := []
  registering : List (Nat × Int32) := []
  sendQue : List Request := []
  /-- `msg`, `selectId` and `conn` of `procSendQue`. -/
  sendHand : Option Request := none
  selectId : Option Int32 := none
  sendConn : Option Nat := none
  leaderId : Int32 := 0
  nodes : List Int32 := []
  /-- How many connections to nodes have been made; the next one has this number. -/
  dialed : Nat := 0
  conns : Int32 → Option Nat := fun _ => none
  /-- Written to the connection of a node that has not answered. -/
  outstanding : List (Nat × Request) := []
  /-- Held by the `serveServ` of a connection. -/
  answered : List (Nat × Response) := []
  respQue : List Response := []
  respHand : Option Response := none
  failQue : List Response := []
  failHand : Option Response := none
  /-- Held by the goroutines that `procFailedReq` starts. -/
  retries : List Response := []
  proxyConns : Int32 → Option Nat := fun _ => none
  /-- Written to connections of proxies. -/
  written : List (Nat × Response) := []

inductive Action where
  | read (conn : Nat) (msg : ClientMessage)
  | enqueue (conn : Nat) (req : Request)
  | register (conn : Nat) (clerkId : Int32)
  | takeSend
  | pick (node : Int32)
  | lookup
  | connectToNode (node : Int32)
  | send
  | answer (conn : Nat) (req : Request) (resp : ServerResponse)
  | sort (conn : Nat) (resp : Response)
  | takeResp
  | deliver
  | takeFail
  | dispatch
  | retry (resp : Response)
  | sync (node : Int32) (isLeader : Bool)

/-- What a request and the responses to it have in common. -/
def key (msg : ClientMessage) : UInt32 × UInt64 × Int32 := (msg.opId, msg.incrId, msg.clerkId)

/-- The codes of `cm.ErrMap`. -/
def errCodes : List UInt32 :=
  [errOk, errNoKey, errWrongLeader, errLeaderChanged, errHandleTimeout, errChanClosed]

/-- A node answers a request with any of the defined codes. -/
def Answers (msg : ClientMessage) (resp : ServerResponse) : Prop :=
  key (respToReq resp) = key msg ∧ resp.err ∈ errCodes

instance (msg : ClientMessage) (resp : ServerResponse) : Decidable (Answers msg resp) :=
  inferInstanceAs (Decidable (_ ∧ _))

/-- The two codes that `serveServ` sends back to the clerk. -/
def Final (resp : ServerResponse) : Prop := resp.err = errOk ∨ resp.err = errNoKey

instance (resp : ServerResponse) : Decidable (Final resp) := inferInstanceAs (Decidable (_ ∨ _))

/-! ### The goroutines -/

/-- A goroutine that has nothing in hand takes the next message of its queue. -/
def takeFrom {α : Type} : List α → Option α → Option (List α × Option α)
  | x :: rest, none => some (rest, some x)
  | _, _ => none

/-- `serve` reads the next request if it is done with the one before. -/
def Cluster.serveRead (s : Cluster) (conn : Nat) (msg : ClientMessage) : Option Cluster :=
  if conn ∈ s.entering.map Prod.fst ∨ conn ∈ s.registering.map Prod.fst then none
  else some
    { s with
      reads := s.reads ++ [(conn, msg)]
      entering := (conn, ⟨s.reads.length, msg⟩) :: s.entering }

/-- `cu.SendQue <- cmsg`. The connection is registered after that. -/
def Cluster.serveEnqueue (s : Cluster) (conn : Nat) (req : Request) : Option Cluster :=
  if (conn, req) ∈ s.entering ∧ s.sendQue.length < queueSize then
    some
      { s with
        entering := s.entering.erase (conn, req)
        sendQue := s.sendQue ++ [req]
        registering := (conn, req.content.clerkId) :: s.registering }
  else none

def Cluster.serveRegister (s : Cluster) (conn : Nat) (clerkId : Int32) : Option Cluster :=
  if (conn, clerkId) ∈ s.registering then
    some
      { s with
        registering := s.registering.erase (conn, clerkId)
        proxyConns := Function.update s.proxyConns clerkId (some conn) }
  else none

/-- `msg := <-cu.SendQue` of `procSendQue`. -/
def Cluster.takeSend (s : Cluster) : Option Cluster :=
  (takeFrom s.sendQue s.sendHand).map fun p => { s with sendQue := p.1, sendHand := p.2 }

/-- `pick` takes the leader, or any node for a `GET`. It is called again while there is no
connection to the node. -/
def Cluster.pick (s : Cluster) (node : Int32) : Option Cluster :=
  s.sendHand.bind fun req =>
    if s.sendConn = none ∧ (req.content.opId = opGet ∨ node = s.leaderId) then
      some { s with selectId := some node }
    else none

/-- `conn = cu.Conns[selectId]`. -/
def Cluster.lookup (s : Cluster) : Option Cluster :=
  s.selectId.bind fun node =>
    if s.sendConn = none then some { s with sendConn := s.conns node } else none

/-- A connection to a known node, made by `procSendQue` or by `handleSync`. It may take the
place of another one, which stays open. -/
def Cluster.connectToNode (s : Cluster) (node : Int32) : Option Cluster :=
  if node ∈ s.nodes then
    some { s with dialed := s.dialed + 1, conns := Function.update s.conns node (some s.dialed) }
  else none

/-- The request is written to the connection. -/
def Cluster.send (s : Cluster) : Option Cluster :=
  s.sendHand.bind fun req =>
    s.sendConn.map fun conn =>
      { s with
        sendHand := none, selectId := none, sendConn := none
        outstanding := (conn, req) :: s.outstanding }

/-- The node at the other end answers, and `serveServ` reads the answer. -/
def Cluster.answer (s : Cluster) (conn : Nat) (req : Request) (resp : ServerResponse) :
    Option Cluster :=
  if (conn, req) ∈ s.outstanding ∧ conn ∉ s.answered.map Prod.fst ∧ Answers req.content resp then
    some
      { s with
        outstanding := s.outstanding.erase (conn, req)
        answered := (conn, ⟨req.tag, resp⟩) :: s.answered }
  else none

/-- `serveServ` puts the answer into one of the queues. -/
def Cluster.sort (s : Cluster) (conn : Nat) (resp : Response) : Option Cluster :=
  if (conn, resp) ∈ s.answered then
    if Final resp.content then
      if s.respQue.length < queueSize then
        some
          { s with answered := s.answered.erase (conn, resp), respQue := s.respQue ++ [resp] }
      else none
    else if s.failQue.length < queueSize then
      some { s with answered := s.answered.erase (conn, resp), failQue := s.failQue ++ [resp] }
    else none
  else none

/-- `resp := <-cu.RespQue` of `procRespQue`. -/
def Cluster.takeResp (s : Cluster) : Option Cluster :=
  (takeFrom s.respQue s.respHand).map fun p => { s with respQue := p.1, respHand := p.2 }

/-- Without a connection of its clerk the response is not written. -/
def Cluster.deliver (s : Cluster) : Option Cluster :=
  s.respHand.map fun resp =>
    match s.proxyConns resp.content.clerkId with
    | none => { s with respHand := none }
    | some conn => { s with respHand := none, written := s.written ++ [(conn, resp)] }

/-- `resp := <-cu.FailQue` of `procFailedReq`. -/
def Cluster.takeFail (s : Cluster) : Option Cluster :=
  (takeFrom s.failQue s.failHand).map fun p => { s with failQue := p.1, failHand := p.2 }

/-- The `switch` of `procFailedReq`. Two of its cases have no body, and none of them falls
through to the next. -/
def Cluster.dispatch (s : Cluster) : Option Cluster :=
  s.failHand.map fun resp =>
    if resp.content.err = errLeaderChanged then { s with failHand := none }
    else if resp.content.err = errWrongLeader then
      { s with failHand := none, retries := resp :: s.retries }
    else if resp.content.err = errChanClosed then { s with failHand := none }
    else if resp.content.err = errHandleTimeout then
      { s with failHand := none, retries := resp :: s.retries }
    else { s with failHand := none }

/-- `cu.SendQue <- cu.MsgProc.RespToReq(res)`. -/
def Cluster.retry (s : Cluster) (resp : Response) : Option Cluster :=
  if resp ∈ s.retries ∧ s.sendQue.length < queueSize then
    some
      { s with
        retries := s.retries.erase resp
        sendQue := s.sendQue ++ [⟨resp.tag, respToReq resp.content⟩] }
  else none

/-- `handleSync` learns of a node, and of a leader. -/
def Cluster.handleSync (s : Cluster) (node : Int32) (isLeader : Bool) : Cluster :=
  { s with nodes := node :: s.nodes, leaderId := if isLeader then node else s.leaderId }

def step (s : Cluster) : Action → Option Cluster
  | .read conn msg => s.serveRead conn msg
  | .enqueue conn req => s.serveEnqueue conn req
  | .register conn clerkId => s.serveRegister conn clerkId
  | .takeSend => s.takeSend
  | .pick node => s.pick node
  | .lookup => s.lookup
  | .connectToNode node => s.connectToNode node
  | .send => s.send
  | .answer conn req resp => s.answer conn req resp
  | .sort conn resp => s.sort conn resp
  | .takeResp => s.takeResp
  | .deliver => s.deliver
  | .takeFail => s.takeFail
  | .dispatch => s.dispatch
  | .retry resp => s.retry resp
  | .sync node isLeader => some (s.handleSync node isLeader)

/-! ### Where a request is -/

def Request.label (req : Request) : Nat × UInt32 × UInt64 × Int32 := (req.tag, key req.content)

def Response.label (resp : Response) : Nat × UInt32 × UInt64 × Int32 :=
  (resp.tag, key (respToReq resp.content))

/-- The requests on their way to a node, or at one. -/
def Cluster.requests (s : Cluster) : List Request :=
  s.entering.map Prod.snd ++ (s.sendQue ++ (s.sendHand.toList ++ s.outstanding.map Prod.snd))

/-- The responses on their way to a clerk or back into `SendQue`. -/
def Cluster.responses (s : Cluster) : List Response :=
  s.answered.map Prod.snd ++ (s.respQue ++ (s.respHand.toList ++
    (s.failQue ++ (s.failHand.toList ++ s.retries))))

/-- Everything the manager has, or has written to a proxy. -/
def Cluster.labels (s : Cluster) : List (Nat × UInt32 × UInt64 × Int32) :=
  s.requests.map Request.label ++
    (s.responses.map Response.label ++ s.written.map (Response.label ∘ Prod.snd))

/-- The labels that there should be. -/
def Cluster.accepted (s : Cluster) : List (Nat × UInt32 × UInt64 × Int32) :=
  s.reads.mapIdx fun n r => (n, key r.2)

/-- A response is taken to its clerk only if there is a connection for it. -/
def Registered (s : Cluster) : Action → Prop
  | .deliver => ∀ resp ∈ s.respHand, (s.proxyConns resp.content.clerkId).isSome
  | _ => True

/-- A failed request has one of the codes that are retried. -/
def Retried (s : Cluster) : Action → Prop
  | .dispatch => ∀ resp ∈ s.failHand,
      resp.content.err = errWrongLeader ∨ resp.content.err = errHandleTimeout
  | _ => True

instance (s : Cluster) (a : Action) : Decidable (Registered s a) := by
  cases a <;> unfold Registered <;> infer_instance

instance (s : Cluster) (a : Action) : Decidable (Retried s a) := by
  cases a <;> unfold Retried <;> infer_instance

theorem count_map_erase {α β : Type} [BEq α] [LawfulBEq α] [BEq β] (f : α → β)
    {l : List α} {e : α} (h : e ∈ l) (x : β) :
    (l.map f).count x = ((l.erase e).map f).count x + if f e == x then 1 else 0 := by
  rw [((List.perm_cons_erase h).map f).count_eq x, List.map_cons, List.count_cons]

theorem count_takeFrom {α β : Type} [BEq β] {queue : List α} {hand : Option α}
    {p : List α × Option α} (h : takeFrom queue hand = some p) (f : α → β) (x : β) :
    (p.1.map f).count x + (p.2.toList.map f).count x =
      (queue.map f).count x + (hand.toList.map f).count x := by
  match queue, hand, h with
  | y :: rest, none, rfl =>
      simp only [Option.toList_some, Option.toList_none, List.map_cons, List.map_nil,
        List.count_cons, List.count_nil]
      omega

namespace Cluster

variable {s t : Cluster} {conn : Nat} {req : Request} {resp : Response}

theorem count_labels (s : Cluster) (x : Nat × UInt32 × UInt64 × Int32) :
    s.labels.count x =
      (s.entering.map (Request.label ∘ Prod.snd)).count x + (s.sendQue.map Request.label).count x +
        (s.sendHand.toList.map Request.label).count x +
        (s.outstanding.map (Request.label ∘ Prod.snd)).count x +
        (s.answered.map (Response.label ∘ Prod.snd)).count x +
        (s.respQue.map Response.label).count x + (s.respHand.toList.map Response.label).count x +
        (s.failQue.map Response.label).count x + (s.failHand.toList.map Response.label).count x +
        (s.retries.map Response.label).count x +
        (s.written.map (Response.label ∘ Prod.snd)).count x := by
  simp only [labels, requests, responses, List.map_append, List.map_map, List.count_append]
  omega

/-- Nothing is read, and everything is still somewhere. -/
def Keeps (s t : Cluster) : Prop := t.reads = s.reads ∧ t.labels.Perm s.labels

theorem keeps_of_count (reads : t.reads = s.reads)
    (count : ∀ x, t.labels.count x = s.labels.count x) : s.Keeps t :=
  ⟨reads, List.perm_iff_count.mpr count⟩

theorem keeps_serveEnqueue (h : s.serveEnqueue conn req = some t) : s.Keeps t := by
  obtain ⟨⟨here, _⟩, ⟨⟩⟩ := Option.ite_none_right_eq_some.mp h
  refine keeps_of_count rfl fun x => ?_
  have moved := count_map_erase (Request.label ∘ Prod.snd) here x
  simp only [count_labels, List.map_append, List.map_singleton, List.count_append,
    List.count_singleton, Function.comp_apply] at moved ⊢
  omega

theorem keeps_takeSend (h : s.takeSend = some t) : s.Keeps t := by
  obtain ⟨_, taken, rfl⟩ := Option.map_eq_some_iff.mp h
  refine keeps_of_count rfl fun x => ?_
  have moved := count_takeFrom taken Request.label x
  simp only [count_labels]
  omega

theorem keeps_send (h : s.send = some t) : s.Keeps t := by
  obtain ⟨req, hand, h⟩ := Option.bind_eq_some_iff.mp h
  obtain ⟨conn, _, rfl⟩ := Option.map_eq_some_iff.mp h
  refine keeps_of_count rfl fun x => ?_
  simp only [count_labels, hand, Option.toList_some, Option.toList_none, List.map_cons,
    List.map_nil, List.count_cons, List.count_nil, Function.comp_apply]
  omega

theorem keeps_answer {resp : ServerResponse} (h : s.answer conn req resp = some t) :
    s.Keeps t := by
  obtain ⟨⟨here, _, same, _⟩, ⟨⟩⟩ := Option.ite_none_right_eq_some.mp h
  refine keeps_of_count rfl fun x => ?_
  have moved := count_map_erase (Request.label ∘ Prod.snd) here x
  have label : Response.label ⟨req.tag, resp⟩ = req.label := congrArg (Prod.mk req.tag) same
  simp only [count_labels, List.map_cons, List.count_cons, Function.comp_apply, label] at moved ⊢
  omega

theorem keeps_sort (h : s.sort conn resp = some t) : s.Keeps t := by
  obtain ⟨here, h⟩ := Option.ite_none_right_eq_some.mp h
  have moved := count_map_erase (Response.label ∘ Prod.snd) here
  split at h
  all_goals
    obtain ⟨_, ⟨⟩⟩ := Option.ite_none_right_eq_some.mp h
    refine keeps_of_count rfl fun x => ?_
    have moved := moved x
    simp only [count_labels, List.map_append, List.map_singleton, List.count_append,
      List.count_singleton, Function.comp_apply] at moved ⊢
    omega

theorem keeps_takeResp (h : s.takeResp = some t) : s.Keeps t := by
  obtain ⟨_, taken, rfl⟩ := Option.map_eq_some_iff.mp h
  refine keeps_of_count rfl fun x => ?_
  have moved := count_takeFrom taken Response.label x
  simp only [count_labels]
  omega

theorem keeps_deliver (registered : Registered s .deliver) (h : s.deliver = some t) :
    s.Keeps t := by
  obtain ⟨resp, hand, rfl⟩ := Option.map_eq_some_iff.mp h
  obtain ⟨conn, found⟩ := Option.isSome_iff_exists.mp (registered resp hand)
  rw [found]
  refine keeps_of_count rfl fun x => ?_
  simp only [count_labels, hand, Option.toList_some, Option.toList_none, List.map_cons,
    List.map_nil, List.map_append, List.count_append, List.count_cons, List.count_nil,
    Function.comp_apply]
  omega

theorem keeps_takeFail (h : s.takeFail = some t) : s.Keeps t := by
  obtain ⟨_, taken, rfl⟩ := Option.map_eq_some_iff.mp h
  refine keeps_of_count rfl fun x => ?_
  have moved := count_takeFrom taken Response.label x
  simp only [count_labels]
  omega

/-- Both of the codes start a goroutine that has the response. -/
theorem dispatch_retried (hand : s.failHand = some resp) (retried : Retried s .dispatch) :
    s.dispatch = some { s with failHand := none, retries := resp :: s.retries } := by
  rw [dispatch, hand, Option.map_some]
  rcases retried resp hand with code | code
  all_goals
    rw [code]
    rfl

theorem keeps_dispatch (retried : Retried s .dispatch) (h : s.dispatch = some t) :
    s.Keeps t := by
  obtain ⟨resp, hand, _⟩ := Option.map_eq_some_iff.mp h
  rw [dispatch_retried hand retried] at h
  cases h
  refine keeps_of_count rfl fun x => ?_
  simp only [count_labels, hand, Option.toList_some, Option.toList_none, List.map_cons,
    List.map_nil, List.count_cons, List.count_nil]
  omega

theorem keeps_retry (h : s.retry resp = some t) : s.Keeps t := by
  obtain ⟨⟨here, _⟩, ⟨⟩⟩ := Option.ite_none_right_eq_some.mp h
  refine keeps_of_count rfl fun x => ?_
  have moved := count_map_erase Response.label here x
  have label : Request.label ⟨resp.tag, respToReq resp.content⟩ = resp.label := rfl
  simp only [count_labels, List.map_append, List.map_singleton, List.count_append,
    List.count_singleton, label] at moved ⊢
  omega

/-! ### Conservation -/

/-- Every request that was read has exactly one place. -/
def Conserved (s : Cluster) : Prop := s.labels.Perm s.accepted

theorem Keeps.conserved (h : s.Keeps t) (inv : s.Conserved) : t.Conserved := by
  unfold Conserved accepted
  rw [h.1]
  exact h.2.trans inv

theorem Conserved.serveRead {msg : ClientMessage} (inv : s.Conserved)
    (h : s.serveRead conn msg = some t) : t.Conserved := by
  obtain ⟨_, ⟨⟩⟩ := Option.ite_none_left_eq_some.mp h
  unfold Conserved accepted
  rw [List.mapIdx_concat]
  exact (inv.cons _).trans (List.perm_append_singleton _ _).symm

/-- Only `serve` takes in a request, and under the two conditions no step drops one. -/
theorem Conserved.step {a : Action} (inv : s.Conserved) (registered : Registered s a)
    (retried : Retried s a) (h : step s a = some t) : t.Conserved := by
  cases a with
  | read => exact inv.serveRead h
  | enqueue => exact (keeps_serveEnqueue h).conserved inv
  | register =>
      obtain ⟨_, ⟨⟩⟩ := Option.ite_none_right_eq_some.mp h
      exact inv
  | takeSend => exact (keeps_takeSend h).conserved inv
  | pick =>
      obtain ⟨_, _, h⟩ := Option.bind_eq_some_iff.mp h
      obtain ⟨_, ⟨⟩⟩ := Option.ite_none_right_eq_some.mp h
      exact inv
  | lookup =>
      obtain ⟨_, _, h⟩ := Option.bind_eq_some_iff.mp h
      obtain ⟨_, ⟨⟩⟩ := Option.ite_none_right_eq_some.mp h
      exact inv
  | connectToNode =>
      obtain ⟨_, ⟨⟩⟩ := Option.ite_none_right_eq_some.mp h
      exact inv
  | send => exact (keeps_send h).conserved inv
  | answer => exact (keeps_answer h).conserved inv
  | sort => exact (keeps_sort h).conserved inv
  | takeResp => exact (keeps_takeResp h).conserved inv
  | deliver => exact (keeps_deliver registered h).conserved inv
  | takeFail => exact (keeps_takeFail h).conserved inv
  | dispatch => exact (keeps_dispatch retried h).conserved inv
  | retry => exact (keeps_retry h).conserved inv
  | sync =>
      cases h
      exact inv

theorem conserved_of_reaches
    (h : Reaches ClusterManager.step (fun s a => Registered s a ∧ Retried s a) {} s) :
    s.Conserved :=
  h.invariant (.refl _) fun _ _ _ _ inv ok taken => inv.step ok.1 ok.2 taken

theorem mem_accepted {n : Nat} {msg : ClientMessage} (read : s.reads[n]? = some (conn, msg)) :
    (n, key msg) ∈ s.accepted := by
  obtain ⟨inside, here⟩ := List.getElem?_eq_some_iff.mp read
  exact List.mem_mapIdx.mpr ⟨n, inside, by rw [here]⟩

theorem map_fst_accepted (s : Cluster) : s.accepted.map Prod.fst = List.range s.reads.length := by
  refine List.ext_getElem (by simp [accepted]) fun n _ _ => ?_
  simp [accepted]

/-! ### Where responses go -/

/-- A request of the clerk has been read on the connection. -/
def ReadOn (s : Cluster) (conn : Nat) (clerkId : Int32) : Prop :=
  ∃ msg, (conn, msg) ∈ s.reads ∧ msg.clerkId = clerkId

/-- Only final responses are on their way to a clerk, and each to a connection of its own. -/
structure Addressed (s : Cluster) : Prop where
  entering : ∀ p ∈ s.entering, s.ReadOn p.1 p.2.content.clerkId
  registering : ∀ p ∈ s.registering, s.ReadOn p.1 p.2
  proxyConns : ∀ clerkId conn, s.proxyConns clerkId = some conn → s.ReadOn conn clerkId
  respQue : ∀ resp ∈ s.respQue, Final resp.content
  respHand : ∀ resp ∈ s.respHand, Final resp.content
  written : ∀ w ∈ s.written, Final w.2.content ∧ s.ReadOn w.1 w.2.content.clerkId

namespace Addressed

theorem serveRead {msg : ClientMessage} (inv : s.Addressed)
    (h : s.serveRead conn msg = some t) : t.Addressed := by
  obtain ⟨_, ⟨⟩⟩ := Option.ite_none_left_eq_some.mp h
  have more : ∀ c clerkId, s.ReadOn c clerkId →
      ReadOn { s with reads := s.reads ++ [(conn, msg)] } c clerkId := by
    rintro c clerkId ⟨m, here, same⟩
    exact ⟨m, List.mem_append_left _ here, same⟩
  exact
    { entering := List.forall_mem_cons.mpr
        ⟨⟨msg, List.mem_append_right _ (List.mem_singleton.mpr rfl), rfl⟩,
          fun p hp => more _ _ (inv.entering p hp)⟩
      registering := fun p hp => more _ _ (inv.registering p hp)
      proxyConns := fun clerkId c found => more _ _ (inv.proxyConns clerkId c found)
      respQue := inv.respQue
      respHand := inv.respHand
      written := fun w hw => (inv.written w hw).imp_right (more _ _) }

theorem serveEnqueue (inv : s.Addressed) (h : s.serveEnqueue conn req = some t) :
    t.Addressed := by
  obtain ⟨⟨here, _⟩, ⟨⟩⟩ := Option.ite_none_right_eq_some.mp h
  exact
    { inv with
      entering := fun p hp => inv.entering p (List.mem_of_mem_erase hp)
      registering := List.forall_mem_cons.mpr ⟨inv.entering _ here, inv.registering⟩ }

theorem serveRegister {clerkId : Int32} (inv : s.Addressed)
    (h : s.serveRegister conn clerkId = some t) : t.Addressed := by
  obtain ⟨here, ⟨⟩⟩ := Option.ite_none_right_eq_some.mp h
  refine
    { inv with
      registering := fun p hp => inv.registering p (List.mem_of_mem_erase hp)
      proxyConns := fun other c found => ?_ }
  change Function.update s.proxyConns clerkId (some conn) other = some c at found
  by_cases same : other = clerkId
  · subst same
    rw [Function.update_self] at found
    cases found
    exact inv.registering _ here
  · rw [Function.update_of_ne same] at found
    exact inv.proxyConns other c found

theorem sort (inv : s.Addressed) (h : s.sort conn resp = some t) : t.Addressed := by
  obtain ⟨_, h⟩ := Option.ite_none_right_eq_some.mp h
  split at h
  next final =>
    obtain ⟨_, ⟨⟩⟩ := Option.ite_none_right_eq_some.mp h
    exact
      { inv with
        respQue := List.forall_mem_append.mpr
          ⟨inv.respQue, List.forall_mem_singleton.mpr final⟩ }
  next =>
    obtain ⟨_, ⟨⟩⟩ := Option.ite_none_right_eq_some.mp h
    exact { inv with }

theorem takeResp (inv : s.Addressed) (h : s.takeResp = some t) : t.Addressed := by
  obtain ⟨p, taken, rfl⟩ := Option.map_eq_some_iff.mp h
  match queue : s.respQue, hand : s.respHand, taken with
  | resp :: rest, none, rfl =>
      have final := inv.respQue
      rw [queue] at final
      obtain ⟨first, others⟩ := List.forall_mem_cons.mp final
      exact
        { inv with
          respQue := others
          respHand := fun r hr => Option.some.inj hr ▸ first }

theorem deliver (inv : s.Addressed) (h : s.deliver = some t) : t.Addressed := by
  obtain ⟨resp, hand, rfl⟩ := Option.map_eq_some_iff.mp h
  split
  next => exact { inv with respHand := nofun }
  next conn found =>
    exact
      { inv with
        respHand := nofun
        written := List.forall_mem_append.mpr ⟨inv.written, List.forall_mem_singleton.mpr
          ⟨inv.respHand resp hand, inv.proxyConns _ _ found⟩⟩ }

/-- The steps that are not here touch neither responses to a clerk nor connections. -/
theorem step {a : Action} (inv : s.Addressed) (h : step s a = some t) : t.Addressed := by
  cases a with
  | read => exact inv.serveRead h
  | enqueue => exact inv.serveEnqueue h
  | register => exact inv.serveRegister h
  | takeSend =>
      obtain ⟨_, _, rfl⟩ := Option.map_eq_some_iff.mp h
      exact { inv with }
  | pick =>
      obtain ⟨_, _, h⟩ := Option.bind_eq_some_iff.mp h
      obtain ⟨_, ⟨⟩⟩ := Option.ite_none_right_eq_some.mp h
      exact { inv with }
  | lookup =>
      obtain ⟨_, _, h⟩ := Option.bind_eq_some_iff.mp h
      obtain ⟨_, ⟨⟩⟩ := Option.ite_none_right_eq_some.mp h
      exact { inv with }
  | connectToNode =>
      obtain ⟨_, ⟨⟩⟩ := Option.ite_none_right_eq_some.mp h
      exact { inv with }
  | send =>
      obtain ⟨_, _, h⟩ := Option.bind_eq_some_iff.mp h
      obtain ⟨_, _, rfl⟩ := Option.map_eq_some_iff.mp h
      exact { inv with }
  | answer =>
      obtain ⟨_, ⟨⟩⟩ := Option.ite_none_right_eq_some.mp h
      exact { inv with }
  | sort => exact inv.sort h
  | takeResp => exact inv.takeResp h
  | deliver => exact inv.deliver h
  | takeFail =>
      obtain ⟨_, _, rfl⟩ := Option.map_eq_some_iff.mp h
      exact { inv with }
  | dispatch =>
      obtain ⟨_, _, rfl⟩ := Option.map_eq_some_iff.mp h
      split_ifs
      all_goals exact { inv with }
  | retry =>
      obtain ⟨_, ⟨⟩⟩ := Option.ite_none_right_eq_some.mp h
      exact { inv with }
  | sync =>
      cases h
      exact { inv with }

end Addressed

theorem addressed_of_reaches {ok : Cluster → Action → Prop}
    (h : Reaches ClusterManager.step ok {} s) : s.Addressed :=
  h.invariant ⟨nofun, nofun, nofun, nofun, nofun, nofun⟩ fun _ _ _ _ inv _ taken => inv.step taken

end Cluster

/-- The `Put` of a clerk, read on connection 7. -/
def put : Op := { optype := opPut, incrId := 9, clerkId := 5, key := [107], value := [118] }

/-- The request goes to node 1 and comes back with a code. -/
def exchange (code : UInt32) : List Action :=
  [.takeSend, .pick 1, .lookup, .send, .answer 0 ⟨0, message put⟩ (opToResp put code),
    .sort 0 ⟨0, opToResp put code⟩]

/-- The request has been queued. Its connection has not been registered. -/
def queued : List Action :=
  [.sync 1 true, .connectToNode 1, .read 7 (message put), .enqueue 7 ⟨0, message put⟩]

/-- A step after which a request that was read is nowhere. -/
def Drops (s : Cluster) (a : Action) : Prop :=
  ∃ t, step s a = some t ∧ ∃ label ∈ t.accepted, label ∉ t.labels

instance (s : Cluster) (a : Action) : Decidable (Drops s a) :=
  decidable_of_iff
    ((step s a).any fun t => decide (∃ label ∈ t.accepted, label ∉ t.labels))
    (by rw [Option.any_eq_true]; simp only [decide_eq_true_eq, Drops])

end RaftKv.ClusterManager
