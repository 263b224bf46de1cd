import RaftKv.Server.Weights

/-!
# The accounts of the nodes

The weight of a node is a mean weight, less one for each request that was sent to it and
plus one for each that it answered; a node that is behind in its log loses some more. The
goroutines of the manager do not touch the weights. They send their adjustments to
`adjustWeight` over a channel, and each of them waits there until there is room.

A request is charged to the node that was picked for it, and an answer is credited to the
node that the answer names. `OpToResp` leaves that field at zero, so every answer is
credited to node zero.
-/

namespace RaftKv.ClusterManager

open Library
open RaftKv.Raft (Op)
open RaftKv.Proxy (message)
open RaftKv.Server (opToResp errOk errNoKey)

/-! ### The channel and the weights -/

structure AdjustOp where
  id : Int32
  value : Int32
  deriving DecidableEq

/-- The capacity of `AdjustCh`. -/
def adjustChSize : Nat := 20

/-- The goroutines that write to `AdjustCh`. -/
inductive Goroutine where
  | procSendQue
  | serveServ (conn : Nat)
  | procFailedReq
  | handleSync (conn : Nat)
  deriving DecidableEq

structure Accounts where
  weights : Weights := ∅
  /-- `count` of `adjustWeight`. -/
  count : Int32 := 0
  adjustCh : List AdjustOp := []
  /-- The goroutines that are at `cu.AdjustCh <-`. -/
  waiting : List (Goroutine × AdjustOp) := []
  /-- The node of each request that was sent, and of each that was answered. -/
  sent : List Int32 := []
  answered : List Int32 := []

namespace Accounts

def Busy (b : Accounts) (g : Goroutine) : Prop := g ∈ b.waiting.map Prod.fst

instance (b : Accounts) (g : Goroutine) : Decidable (b.Busy g) :=
  inferInstanceAs (Decidable (_ ∈ _))

def wait (b : Accounts) (g : Goroutine) (op : AdjustOp) : Accounts :=
  { b with waiting := (g, op) :: b.waiting }

/-- `procSendQue` has written a request to the connection of a node. -/
def charge (b : Accounts) (node : Int32) : Accounts :=
  { b.wait .procSendQue ⟨node, -1⟩ with sent := node :: b.sent }

/-- `serveServ` has queued an answer that names node `serverId`. -/
def credit (b : Accounts) (conn : Nat) (serverId node : Int32) : Accounts :=
  { b.wait (.serveServ conn) ⟨serverId, 1⟩ with answered := node :: b.answered }

def push (b : Accounts) (g : Goroutine) (op : AdjustOp) : Option Accounts :=
  if (g, op) ∈ b.waiting ∧ b.adjustCh.length < adjustChSize then
    some { b with waiting := b.waiting.erase (g, op), adjustCh := b.adjustCh ++ [op] }
  else none

/-- The weight that `adjustWeight` assigns to the node of an adjustment. -/
def adjusted (w : Weights) (op : AdjustOp) : Int32 :=
  match w.lookup op.id with
  | none => meanWeight + op.value
  | some weight => weight + op.value

/-- One round of `adjustWeight`; `none` if it waits, and if `balanceWeight` panics. -/
def adjustWeight (b : Accounts) : Option Accounts :=
  match b.adjustCh with
  | [] => none
  | op :: rest =>
      if maxAdjustTime < b.count + 1 then
        b.weights.balanceWeight.map fun w =>
          { b with adjustCh := rest, count := 0, weights := w.insert op.id (adjusted w op) }
      else
        some
          { b with
            adjustCh := rest, count := b.count + 1
            weights := b.weights.insert op.id (adjusted b.weights op) }

/-! What the accounts say about a node. -/

/-- The weight of a node; a node without one will start with the mean weight. -/
def weightOf (b : Accounts) (i : Int32) : Int := ((b.weights.lookup i).getD meanWeight).toInt

/-- The adjustments on their way to `adjustWeight`. -/
def pending (b : Accounts) : List AdjustOp := b.adjustCh ++ b.waiting.map Prod.snd

/-- What the adjustments add up to for one node. -/
def due (ops : List AdjustOp) (i : Int32) : Int :=
  (ops.map fun op => if op.id = i then op.value.toInt else 0).sum

/-- What a node gets for the answers: node zero gets all of it. -/
def credited (answered : List Int32) (i : Int32) : Int := if i = 0 then answered.length else 0

theorem due_cons (op : AdjustOp) (ops : List AdjustOp) (i : Int32) :
    due (op :: ops) i = (if op.id = i then op.value.toInt else 0) + due ops i := rfl

theorem due_perm {ops ops' : List AdjustOp} (h : ops.Perm ops') (i : Int32) :
    due ops i = due ops' i :=
  (h.map _).sum_eq

theorem pending_wait (b : Accounts) (g : Goroutine) (op : AdjustOp) :
    (b.wait g op).pending.Perm (op :: b.pending) :=
  List.perm_middle

theorem pending_push {b b' : Accounts} {g : Goroutine} {op : AdjustOp}
    (h : b.push g op = some b') : b'.pending.Perm b.pending := by
  unfold push at h
  split at h
  next able =>
    cases h
    have rest : (op :: (b.waiting.erase (g, op)).map Prod.snd).Perm (b.waiting.map Prod.snd) :=
      (List.perm_cons_erase able.1).symm.map Prod.snd
    rw [pending, List.append_assoc]
    exact rest.append_left b.adjustCh
  · cases h

theorem histories_adjustWeight {b b' : Accounts} (h : b.adjustWeight = some b') :
    b'.sent = b.sent ∧ b'.answered = b.answered := by
  unfold adjustWeight at h
  split at h
  · cases h
  · split at h
    · obtain ⟨w, -, rfl⟩ := Option.map_eq_some_iff.mp h
      exact ⟨rfl, rfl⟩
    · cases h
      exact ⟨rfl, rfl⟩

theorem toInt_adjusted (b : Accounts) (op : AdjustOp)
    (fits : InInt32 (b.weightOf op.id + op.value.toInt)) :
    (adjusted b.weights op).toInt = b.weightOf op.id + op.value.toInt := by
  unfold adjusted
  unfold weightOf at fits ⊢
  cases found : b.weights.lookup op.id with
  | none =>
      rw [found] at fits
      exact toInt_add_of_inInt32 fits
  | some weight =>
      rw [found] at fits
      exact toInt_add_of_inInt32 fits

theorem weightOf_insert (b b' : Accounts) (op : AdjustOp) (weight : Int32)
    (h : b'.weights = b.weights.insert op.id weight) (i : Int32) :
    b'.weightOf i = if op.id = i then weight.toInt else b.weightOf i := by
  unfold weightOf
  rw [h]
  split
  next same => rw [← same, AList.lookup_insert, Option.getD_some]
  next other => rw [AList.lookup_insert_ne (Ne.symm other)]

/-- Between two calls of `balanceWeight` the weights are the mean weight, less what has been
charged and plus what has been credited, up to what is still on its way. -/
structure Settled (b : Accounts) : Prop where
  count : 0 ≤ b.count.toInt ∧ b.count.toInt ≤ 100000
  near : ∀ i, (b.weightOf i - 10000000).natAbs ≤ b.count.toInt
  small : ∀ op ∈ b.pending, op.value.toInt.natAbs ≤ 1
  known : ∀ i ∈ b.sent, i ∈ b.weights ∨ ∃ op ∈ b.pending, op.id = i
  balance : ∀ i, b.weightOf i + due b.pending i =
    10000000 - b.sent.count i + credited b.answered i

namespace Settled

variable {b b' : Accounts}

theorem initial : Settled {} := by
  have weight (i : Int32) : ({} : Accounts).weightOf i = 10000000 := toInt_meanWeight
  refine ⟨by decide, ?_, nofun, nofun, ?_⟩
  · intro i
    rw [weight]
    decide
  · intro i
    rw [weight, credited]
    split <;> rfl

/-- An adjustment that is worth what the histories say of it. -/
theorem wait {g : Goroutine} {op : AdjustOp} {sent answered : List Int32} (inv : b.Settled)
    (small : op.value.toInt.natAbs ≤ 1) (known : ∀ i ∈ sent, i ∈ b.sent ∨ op.id = i)
    (worth : ∀ i, (if op.id = i then op.value.toInt else 0) =
      (b.sent.count i : Int) - sent.count i + (credited answered i - credited b.answered i)) :
    Settled { b.wait g op with sent := sent, answered := answered } where
  count := inv.count
  near := inv.near
  small := fun op' h => by
    rcases List.mem_cons.mp ((pending_wait b g op).mem_iff.mp h) with rfl | old
    · exact small
    · exact inv.small op' old
  known := fun i h => by
    have new (op' : AdjustOp) := (pending_wait b g op).mem_iff (a := op')
    rcases known i h with old | here
    · rcases inv.known i old with known | ⟨op', waits, names⟩
      · exact .inl known
      · exact .inr ⟨op', (new op').mpr (List.mem_cons_of_mem _ waits), names⟩
    · exact .inr ⟨op, (new op).mpr List.mem_cons_self, here⟩
  balance := fun i => by
    have before := inv.balance i
    have change := worth i
    change b.weightOf i + due (b.wait g op).pending i = _
    rw [due_perm (pending_wait b g op), due_cons, change]
    dsimp only
    omega

theorem charge (inv : b.Settled) (node : Int32) : (b.charge node).Settled := by
  refine inv.wait (Nat.le_refl 1) (fun i h => (List.mem_cons.mp h).symm.imp_right Eq.symm) ?_
  intro i
  have minus : (⟨node, -1⟩ : AdjustOp).value.toInt = -1 := rfl
  change _ = _ + (credited b.answered i - credited b.answered i)
  rw [List.count_cons, minus]
  simp only [beq_iff_eq]
  split <;> omega

/-- The answer names no other node than zero. -/
theorem credit (inv : b.Settled) (conn : Nat) (node : Int32) : (b.credit conn 0 node).Settled := by
  refine inv.wait (Nat.le_refl 1) (fun i h => .inl h) ?_
  intro i
  have plus : (⟨0, 1⟩ : AdjustOp).value.toInt = 1 := rfl
  change _ = (b.sent.count i : Int) - b.sent.count i + _
  rw [credited, credited, List.length_cons, plus]
  by_cases h : i = 0
  · rw [if_pos h.symm, if_pos h, if_pos h]
    omega
  · rw [if_neg (Ne.symm h), if_neg h, if_neg h]
    omega

theorem report (inv : b.Settled) (conn : Nat) (node : Int32) :
    (b.wait (.handleSync conn) ⟨node, 0⟩).Settled := by
  refine inv.wait (Nat.zero_le 1) (fun i h => .inl h) ?_
  intro i
  have zero : (⟨node, 0⟩ : AdjustOp).value.toInt = 0 := rfl
  rw [zero, ite_self]
  omega

theorem push {g : Goroutine} {op : AdjustOp} (inv : b.Settled) (h : b.push g op = some b') :
    b'.Settled := by
  have same := pending_push h
  unfold Accounts.push at h
  split at h
  · cases h
    exact
      { count := inv.count
        near := inv.near
        small := fun op' waits => inv.small op' (same.mem_iff.mp waits)
        known := fun i was => (inv.known i was).imp_right fun ⟨op', waits, names⟩ =>
          ⟨op', same.mem_iff.mpr waits, names⟩
        balance := fun i => by
          rw [due_perm same]
          exact inv.balance i }
  · cases h

theorem adjustWeight (inv : b.Settled) (calm : b.count < maxAdjustTime)
    (h : b.adjustWeight = some b') : b'.Settled := by
  unfold Accounts.adjustWeight at h
  split at h
  · cases h
  next op rest queue =>
    obtain ⟨lower, upper⟩ := inv.count
    rw [Int32.lt_iff_toInt_lt, show maxAdjustTime.toInt = 100000 from rfl] at calm
    have count : (b.count + 1).toInt = b.count.toInt + 1 :=
      toInt_add_of_inInt32 ⟨by change -2 ^ 31 ≤ b.count.toInt + 1; omega,
        by change b.count.toInt + 1 < 2 ^ 31; omega⟩
    have calls : ¬ maxAdjustTime < b.count + 1 := by
      rw [Int32.lt_iff_toInt_lt, count, show maxAdjustTime.toInt = 100000 from rfl]
      omega
    rw [if_neg calls] at h
    cases h
    have pending : b.pending = op :: (rest ++ b.waiting.map Prod.snd) := by
      rw [Accounts.pending, queue]
      rfl
    have small := inv.small op (pending ▸ List.mem_cons_self)
    have near := inv.near op.id
    have value := toInt_adjusted b op ⟨by omega, by omega⟩
    have weight := weightOf_insert b { b with
      adjustCh := rest, count := b.count + 1
      weights := b.weights.insert op.id (adjusted b.weights op) } op _ rfl
    refine ⟨?_, ?_, ?_, ?_, ?_⟩
    · dsimp only
      omega
    · intro i
      have other := inv.near i
      rw [weight i]
      dsimp only
      split <;> omega
    · exact fun op' waits => inv.small op' (pending ▸ List.mem_cons_of_mem op waits)
    · intro i was
      rcases inv.known i was with known | ⟨op', waits, names⟩
      · exact .inl (AList.mem_insert _ |>.mpr (.inr known))
      · rw [pending] at waits
        rcases List.mem_cons.mp waits with rfl | waits
        · exact .inl (AList.mem_insert _ |>.mpr (.inl names.symm))
        · exact .inr ⟨op', waits, names⟩
    · intro i
      have before := inv.balance i
      rw [pending, due_cons] at before
      change _ + due (rest ++ b.waiting.map Prod.snd) i = _
      rw [weight i]
      dsimp only
      split at before
      next same =>
        subst same
        rw [if_pos rfl]
        omega
      next other =>
        rw [if_neg other]
        omega

end Settled

end Accounts

/-! ### The manager with its accounts -/

structure Balancer where
  cluster : Cluster := {}
  accounts : Accounts := {}
  /-- The node at the other end of each connection. -/
  peer : Nat → Int32 := fun _ => 0

inductive Event where
  | manage (a : Action)
  /-- A node answers, with a response of `OpToResp`. -/
  | reply (conn : Nat) (req : Request) (op : Op) (errId : UInt32)
  /-- `handleSync` reads a message without an address. -/
  | report (conn : Nat) (node : Int32) (isLeader : Bool) (diff : Int32)
  | push (g : Goroutine) (op : AdjustOp)
  | adjust

namespace Balancer

/-- What a step of the manager, to state `c`, does to the accounts. A goroutine at
`cu.AdjustCh <-` does not go on, and only nodes answer. -/
def account (s : Balancer) (c : Cluster) : Action → Option Balancer
  | .answer .. => none
  | .takeSend => if s.accounts.Busy .procSendQue then none else some { s with cluster := c }
  | .send => s.cluster.selectId.map fun node =>
      { s with cluster := c, accounts := s.accounts.charge node }
  | .connectToNode node =>
      some { s with cluster := c, peer := Function.update s.peer s.cluster.dialed node }
  | .sort conn resp =>
      if Final resp.content then
        some
          { s with
            cluster := c
            accounts := s.accounts.credit conn resp.content.serverId (s.peer conn) }
      else some { s with cluster := c }
  | .takeFail =>
      if s.accounts.Busy .procFailedReq then none
      else c.failHand.map fun resp =>
        { s with
          cluster := c
          accounts := s.accounts.wait .procFailedReq ⟨resp.content.serverId, -10⟩ }
  | .dispatch => if s.accounts.Busy .procFailedReq then none else some { s with cluster := c }
  | _ => some { s with cluster := c }

def step (s : Balancer) : Event → Option Balancer
  | .manage a => (ClusterManager.step s.cluster a).bind (s.account · a)
  | .reply conn req op errId =>
      if s.accounts.Busy (.serveServ conn) then none
      else (s.cluster.answer conn req (opToResp op errId)).map fun c => { s with cluster := c }
  | .report conn node isLeader diff =>
      if s.accounts.Busy (.handleSync conn) then none
      else
        some
          { s with
            cluster := s.cluster.handleSync node isLeader
            accounts := s.accounts.wait (.handleSync conn) ⟨node, diff⟩ }
  | .push g op => (s.accounts.push g op).map fun b => { s with accounts := b }
  | .adjust => s.accounts.adjustWeight.map fun b => { s with accounts := b }

/-- No request fails, no node is behind, and `balanceWeight` is not called. -/
def Steady (s : Balancer) : Event → Prop
  | .reply _ _ _ errId => errId = errOk ∨ errId = errNoKey
  | .report _ _ _ diff => diff = 0
  | .adjust => s.accounts.count < maxAdjustTime
  | _ => True

instance (s : Balancer) (e : Event) : Decidable (s.Steady e) := by
  cases e <;> unfold Steady <;> infer_instance

/-- Everything that was sent to `AdjustCh` has reached the weights. -/
def Drained (s : Balancer) : Prop := s.accounts.adjustCh = [] ∧ s.accounts.waiting = []

instance (s : Balancer) : Decidable s.Drained := inferInstanceAs (Decidable (_ ∧ _))

/-- How many requests node `i` has not answered: those it has, and those whose answers
`serveServ` has not queued. -/
def unanswered (s : Balancer) (i : Int32) : Nat :=
  s.cluster.outstanding.countP (fun p => s.peer p.1 = i) +
    s.cluster.answered.countP (fun p => s.peer p.1 = i)

/-- The weight of each node that was sent a request says how many it has not answered. -/
def Balanced (s : Balancer) : Prop :=
  ∀ i ∈ s.accounts.sent, ∃ weight, s.accounts.weights.lookup i = some weight ∧
    weight.toInt = meanWeight.toInt - s.unanswered i

end Balancer

/-! ### Connections and the nodes at their ends -/

/-- What the accounts depend on is the same in both states. -/
structure Cluster.SameLinks (c d : Cluster) : Prop where
  conns : d.conns = c.conns
  dialed : d.dialed = c.dialed
  selectId : d.selectId = c.selectId
  sendConn : d.sendConn = c.sendConn
  outstanding : d.outstanding = c.outstanding
  answered : d.answered = c.answered
  failQue : d.failQue = c.failQue

/-- The steps that neither use a connection to a node nor fail. -/
def Action.Inner : Action → Prop
  | .read .. | .enqueue .. | .register .. | .takeSend | .takeResp | .deliver | .dispatch
  | .retry _ | .sync .. => True
  | _ => False

theorem Cluster.sameLinks {c d : Cluster} {a : Action} (inner : a.Inner)
    (h : ClusterManager.step c a = some d) : c.SameLinks d := by
  cases a with
  | read conn msg =>
      obtain ⟨-, same⟩ := Option.ite_none_left_eq_some.mp h
      cases same
      exact ⟨rfl, rfl, rfl, rfl, rfl, rfl, rfl⟩
  | enqueue conn req =>
      obtain ⟨-, same⟩ := Option.ite_none_right_eq_some.mp h
      cases same
      exact ⟨rfl, rfl, rfl, rfl, rfl, rfl, rfl⟩
  | register conn clerkId =>
      obtain ⟨-, same⟩ := Option.ite_none_right_eq_some.mp h
      cases same
      exact ⟨rfl, rfl, rfl, rfl, rfl, rfl, rfl⟩
  | takeSend =>
      obtain ⟨p, -, rfl⟩ := Option.map_eq_some_iff.mp h
      exact ⟨rfl, rfl, rfl, rfl, rfl, rfl, rfl⟩
  | takeResp =>
      obtain ⟨p, -, rfl⟩ := Option.map_eq_some_iff.mp h
      exact ⟨rfl, rfl, rfl, rfl, rfl, rfl, rfl⟩
  | deliver =>
      obtain ⟨resp, -, rfl⟩ := Option.map_eq_some_iff.mp h
      split <;> exact ⟨rfl, rfl, rfl, rfl, rfl, rfl, rfl⟩
  | dispatch =>
      obtain ⟨resp, -, rfl⟩ := Option.map_eq_some_iff.mp h
      split_ifs <;> exact ⟨rfl, rfl, rfl, rfl, rfl, rfl, rfl⟩
  | retry resp =>
      obtain ⟨-, same⟩ := Option.ite_none_right_eq_some.mp h
      cases same
      exact ⟨rfl, rfl, rfl, rfl, rfl, rfl, rfl⟩
  | sync node isLeader =>
      cases h
      exact ⟨rfl, rfl, rfl, rfl, rfl, rfl, rfl⟩
  | _ => exact inner.elim

namespace Balancer

/-- Each connection leads to the node it was made for, and requests and answers are on
connections. -/
structure Linked (s : Balancer) : Prop where
  conns : ∀ node conn, s.cluster.conns node = some conn →
    conn < s.cluster.dialed ∧ s.peer conn = node
  selected : ∀ conn, s.cluster.sendConn = some conn →
    conn < s.cluster.dialed ∧ s.cluster.selectId = some (s.peer conn)
  outstanding : ∀ p ∈ s.cluster.outstanding, p.1 < s.cluster.dialed
  answered : ∀ p ∈ s.cluster.answered,
    p.1 < s.cluster.dialed ∧ Final p.2.content ∧ p.2.content.serverId = 0
  failQue : s.cluster.failQue = []
  sent : ∀ i, s.accounts.sent.count i = s.unanswered i + s.accounts.answered.count i

namespace Linked

variable {s t : Balancer}

theorem initial : Linked {} :=
  ⟨nofun, nofun, nofun, nofun, rfl, fun _ => rfl⟩

theorem inner {c : Cluster} {b : Accounts} (inv : s.Linked) (same : s.cluster.SameLinks c)
    (sent : b.sent = s.accounts.sent) (answered : b.answered = s.accounts.answered) :
    Linked { s with cluster := c, accounts := b } where
  conns := fun node conn h => by
    dsimp only at h ⊢
    rw [same.conns] at h
    rw [same.dialed]
    exact inv.conns node conn h
  selected := fun conn h => by
    dsimp only at h ⊢
    rw [same.sendConn] at h
    rw [same.dialed, same.selectId]
    exact inv.selected conn h
  outstanding := fun p h => by
    dsimp only at h ⊢
    rw [same.outstanding] at h
    rw [same.dialed]
    exact inv.outstanding p h
  answered := fun p h => by
    dsimp only at h ⊢
    rw [same.answered] at h
    rw [same.dialed]
    exact inv.answered p h
  failQue := same.failQue.trans inv.failQue
  sent := fun i => by
    dsimp only [unanswered]
    rw [sent, answered, same.outstanding, same.answered]
    exact inv.sent i

theorem pick {node : Int32} {c : Cluster} (inv : s.Linked) (h : s.cluster.pick node = some c) :
    Linked { s with cluster := c } := by
  obtain ⟨req, -, h⟩ := Option.bind_eq_some_iff.mp h
  obtain ⟨⟨free, -⟩, same⟩ := Option.ite_none_right_eq_some.mp h
  cases same
  -- The selection changes, but no connection has been looked up.
  exact { inv with selected := fun conn found => nomatch free.symm.trans found }

theorem lookup {c : Cluster} (inv : s.Linked) (h : s.cluster.lookup = some c) :
    Linked { s with cluster := c } := by
  obtain ⟨node, selected, h⟩ := Option.bind_eq_some_iff.mp h
  obtain ⟨-, same⟩ := Option.ite_none_right_eq_some.mp h
  cases same
  refine { inv with selected := fun conn found => ?_ }
  obtain ⟨bound, leads⟩ := inv.conns node conn found
  exact ⟨bound, leads ▸ selected⟩

theorem connectToNode {node : Int32} {c : Cluster} (inv : s.Linked)
    (h : s.cluster.connectToNode node = some c) :
    Linked
      { s with cluster := c, peer := Function.update s.peer s.cluster.dialed node } := by
  obtain ⟨-, same⟩ := Option.ite_none_right_eq_some.mp h
  cases same
  -- The new connection has a number that is not in use.
  have old {conn : Nat} (bound : conn < s.cluster.dialed) :
      Function.update s.peer s.cluster.dialed node conn = s.peer conn :=
    Function.update_of_ne (Nat.ne_of_lt bound) _ _
  refine
    { inv with
      conns := fun other conn found => ?_
      selected := fun conn found => ?_
      outstanding := fun p here => Nat.lt_succ_of_lt (inv.outstanding p here)
      answered := fun p here =>
        ⟨Nat.lt_succ_of_lt (inv.answered p here).1, (inv.answered p here).2⟩
      sent := fun i => ?_ }
  · dsimp only at found ⊢
    by_cases this : other = node
    · subst this
      rw [Function.update_self, Option.some.injEq] at found
      rw [← found]
      exact ⟨Nat.lt_succ_self _, Function.update_self ..⟩
    · rw [Function.update_of_ne this] at found
      obtain ⟨bound, leads⟩ := inv.conns other conn found
      exact ⟨Nat.lt_succ_of_lt bound, (old bound).trans leads⟩
  · obtain ⟨bound, selected⟩ := inv.selected conn found
    dsimp only
    rw [old bound]
    exact ⟨Nat.lt_succ_of_lt bound, selected⟩
  · rw [inv.sent i]
    dsimp only [unanswered]
    congr 2
    · exact List.countP_congr fun p here => by simp only [old (inv.outstanding p here)]
    · exact List.countP_congr fun p here => by simp only [old (inv.answered p here).1]

theorem send {node : Int32} {c : Cluster} (inv : s.Linked) (h : s.cluster.send = some c)
    (selected : s.cluster.selectId = some node) :
    Linked { s with cluster := c, accounts := s.accounts.charge node } := by
  obtain ⟨req, -, h⟩ := Option.bind_eq_some_iff.mp h
  obtain ⟨conn, found, same⟩ := Option.map_eq_some_iff.mp h
  cases same
  obtain ⟨bound, leads⟩ := inv.selected conn found
  rw [selected, Option.some.injEq] at leads
  refine
    { inv with
      selected := nofun
      outstanding := List.forall_mem_cons.mpr ⟨bound, inv.outstanding⟩
      sent := fun i => ?_ }
  have before := inv.sent i
  dsimp only [unanswered, Accounts.charge, Accounts.wait] at before ⊢
  rw [List.count_cons, List.countP_cons, leads]
  simp only [beq_iff_eq, decide_eq_true_eq]
  omega

theorem sort {conn : Nat} {resp : Response} {c : Cluster} (inv : s.Linked)
    (h : s.cluster.sort conn resp = some c) :
    Final resp.content ∧ resp.content.serverId = 0 ∧
      Linked
        { s with
          cluster := c
          accounts := s.accounts.credit conn resp.content.serverId (s.peer conn) } := by
  obtain ⟨here, h⟩ := Option.ite_none_right_eq_some.mp h
  obtain ⟨-, final, names⟩ := inv.answered _ here
  rw [if_pos final] at h
  obtain ⟨-, same⟩ := Option.ite_none_right_eq_some.mp h
  cases same
  refine ⟨final, names, ?_⟩
  refine
    { inv with
      answered := fun p old => inv.answered p (List.mem_of_mem_erase old)
      sent := fun i => ?_ }
  have before := inv.sent i
  dsimp only [unanswered, Accounts.credit, Accounts.wait] at before ⊢
  rw [(List.perm_cons_erase here).countP_eq, List.countP_cons] at before
  rw [List.count_cons]
  simp only [beq_iff_eq, decide_eq_true_eq] at before ⊢
  omega

theorem answer {conn : Nat} {req : Request} {op : Op} {errId : UInt32} {c : Cluster}
    (inv : s.Linked) (final : errId = errOk ∨ errId = errNoKey)
    (h : s.cluster.answer conn req (opToResp op errId) = some c) :
    Linked { s with cluster := c } := by
  obtain ⟨⟨here, -, -⟩, same⟩ := Option.ite_none_right_eq_some.mp h
  cases same
  refine
    { inv with
      outstanding := fun p old => inv.outstanding p (List.mem_of_mem_erase old)
      answered := List.forall_mem_cons.mpr ⟨⟨inv.outstanding _ here, final, rfl⟩, inv.answered⟩
      sent := fun i => ?_ }
  have before := inv.sent i
  dsimp only [unanswered] at before ⊢
  rw [(List.perm_cons_erase here).countP_eq, List.countP_cons] at before
  rw [List.countP_cons]
  dsimp only at before ⊢
  omega

end Linked

/-- One step of the manager. -/
theorem manage {s t : Balancer} {a : Action} (linked : s.Linked) (settled : s.accounts.Settled)
    (h : s.step (.manage a) = some t) : t.Linked ∧ t.accounts.Settled := by
  obtain ⟨c, moved, account⟩ := Option.bind_eq_some_iff.mp h
  have inner (in_ : a.Inner) : Linked { s with cluster := c } :=
    linked.inner (Cluster.sameLinks in_ moved) rfl rfl
  cases a with
  | answer conn req resp => cases account
  | send =>
      obtain ⟨node, selected, rfl⟩ := Option.map_eq_some_iff.mp account
      exact ⟨linked.send moved selected, settled.charge node⟩
  | connectToNode node =>
      cases account
      exact ⟨linked.connectToNode moved, settled⟩
  | sort conn resp =>
      obtain ⟨final, names, kept⟩ := linked.sort moved
      obtain rfl : _ = t := Option.some.inj ((if_pos final).symm.trans account)
      refine ⟨kept, ?_⟩
      dsimp only
      rw [names]
      exact settled.credit conn (s.peer conn)
  | takeFail =>
      obtain ⟨p, taken, -⟩ := Option.map_eq_some_iff.mp moved
      rw [linked.failQue] at taken
      cases taken
  | pick node =>
      cases account
      exact ⟨linked.pick moved, settled⟩
  | lookup =>
      cases account
      exact ⟨linked.lookup moved, settled⟩
  | takeSend =>
      obtain ⟨-, same⟩ := Option.ite_none_left_eq_some.mp account
      cases same
      exact ⟨inner trivial, settled⟩
  | dispatch =>
      obtain ⟨-, same⟩ := Option.ite_none_left_eq_some.mp account
      cases same
      exact ⟨inner trivial, settled⟩
  | _ =>
      cases account
      exact ⟨inner trivial, settled⟩

theorem kept {s t : Balancer} {e : Event} (linked : s.Linked) (settled : s.accounts.Settled)
    (steady : s.Steady e) (h : s.step e = some t) : t.Linked ∧ t.accounts.Settled := by
  cases e with
  | manage a => exact manage linked settled h
  | reply conn req op errId =>
      obtain ⟨-, h⟩ := Option.ite_none_left_eq_some.mp h
      obtain ⟨c, answered, rfl⟩ := Option.map_eq_some_iff.mp h
      exact ⟨linked.answer steady answered, settled⟩
  | report conn node isLeader diff =>
      obtain ⟨-, same⟩ := Option.ite_none_left_eq_some.mp h
      cases same
      cases steady
      have same : s.cluster.SameLinks (s.cluster.handleSync node isLeader) :=
        ⟨rfl, rfl, rfl, rfl, rfl, rfl, rfl⟩
      exact ⟨linked.inner same rfl rfl, settled.report conn node⟩
  | push g op =>
      obtain ⟨b, pushed, rfl⟩ := Option.map_eq_some_iff.mp h
      obtain ⟨-, same⟩ := Option.ite_none_right_eq_some.mp pushed
      refine ⟨?_, settled.push pushed⟩
      cases same
      exact { linked with }
  | adjust =>
      obtain ⟨b, adjusted, rfl⟩ := Option.map_eq_some_iff.mp h
      obtain ⟨sent, answered⟩ := Accounts.histories_adjustWeight adjusted
      exact ⟨linked.inner ⟨rfl, rfl, rfl, rfl, rfl, rfl, rfl⟩ sent answered,
        settled.adjustWeight steady adjusted⟩

theorem kept_of_reaches {s : Balancer} (h : Reaches step Steady {} s) :
    s.Linked ∧ s.accounts.Settled :=
  h.invariant ⟨.initial, .initial⟩ fun _ _ _ _ inv steady taken => kept inv.1 inv.2 steady taken

/-- The weights of a drained manager. -/
theorem lookup_weights {s : Balancer} (h : Reaches step Steady {} s) (drained : s.Drained)
    {i : Int32} (sent : i ∈ s.accounts.sent) :
    ∃ weight, s.accounts.weights.lookup i = some weight ∧
      weight.toInt = 10000000 - s.unanswered i - s.accounts.answered.count i +
        Accounts.credited s.accounts.answered i := by
  obtain ⟨linked, settled⟩ := kept_of_reaches h
  have nothing : s.accounts.pending = [] := by rw [Accounts.pending, drained.1, drained.2]; rfl
  have balance := settled.balance i
  have counts := linked.sent i
  rw [nothing, counts] at balance
  rcases settled.known i sent with known | ⟨op, waits, -⟩
  · obtain ⟨weight, found⟩ := Option.isSome_iff_exists.mp (AList.lookup_isSome.mpr known)
    refine ⟨weight, found, ?_⟩
    rw [Accounts.weightOf, found, Option.getD_some] at balance
    change weight.toInt + 0 = _ at balance
    omega
  · rw [nothing] at waits
    cases waits

end Balancer

/-- Between two calls of `balanceWeight`, once all adjustments have been made, the weights
say how many requests the nodes have not answered if and only if nobody but node zero has
answered one. -/
theorem weights_balanced_iff {s : Balancer} (h : Reaches Balancer.step Balancer.Steady {} s)
    (drained : s.Drained) : s.Balanced ↔ ∀ i ∈ s.accounts.answered, i = 0 := by
  obtain ⟨linked, -⟩ := Balancer.kept_of_reaches h
  constructor
  · intro balanced i answered
    have counted := List.count_pos_iff.mpr answered
    have sent : i ∈ s.accounts.sent := by
      rw [← List.count_pos_iff, linked.sent i]
      omega
    obtain ⟨weight, found, value⟩ := Balancer.lookup_weights h drained sent
    obtain ⟨weight', found', value'⟩ := balanced i sent
    cases found.symm.trans found'
    rw [toInt_meanWeight] at value'
    by_contra other
    rw [Accounts.credited, if_neg other] at value
    omega
  · intro only i sent
    obtain ⟨weight, found, value⟩ := Balancer.lookup_weights h drained sent
    refine ⟨weight, found, ?_⟩
    rw [toInt_meanWeight, value, Accounts.credited]
    by_cases zero : i = 0
    · have all : s.accounts.answered.count i = s.accounts.answered.length :=
        List.count_eq_length.mpr fun j hj => zero.trans (only j hj).symm
      rw [if_pos zero]
      omega
    · have none : s.accounts.answered.count i = 0 :=
        List.count_eq_zero.mpr fun here => zero (only i here)
      rw [if_neg zero]
      omega

/-- A node becomes the leader and is sent the `Put` of a clerk. -/
def requested (node : Int32) (n conn : Nat) : List Event :=
  [.manage (.sync node true), .manage (.connectToNode node), .manage (.read 7 (message put)),
    .manage (.enqueue 7 ⟨n, message put⟩), .manage (.register 7 5), .manage .takeSend,
    .manage (.pick node), .manage .lookup, .manage .send, .push .procSendQue ⟨node, -1⟩,
    .report conn node true 0, .adjust, .push (.handleSync conn) ⟨node, 0⟩, .adjust]

/-- The node answers. -/
def replied (n conn : Nat) : List Event :=
  [.reply conn ⟨n, message put⟩ put errOk, .manage (.sort conn ⟨n, opToResp put errOk⟩),
    .push (.serveServ conn) ⟨0, 1⟩, .adjust]

/-- Node zero has answered, and node one has not. -/
theorem weights_balanced_iff_two :
    ∃ s : Balancer, Reaches Balancer.step Balancer.Steady {} s ∧ s.Drained ∧
      s.accounts.sent = [1, 0] ∧ s.accounts.answered = [0] ∧ s.Balanced := by
  obtain ⟨s, reached, drained, sent, answered⟩ :
      ∃ s : Balancer, Reaches Balancer.step Balancer.Steady {} s ∧ s.Drained ∧
        s.accounts.sent = [1, 0] ∧ s.accounts.answered = [0] :=
    exists_reaches _ (requested 0 0 0 ++ replied 0 0 ++ requested 1 1 1)
      (by decide +kernel) (by decide +kernel)
  refine ⟨s, reached, drained, sent, answered, (weights_balanced_iff reached drained).mpr ?_⟩
  rw [answered]
  exact List.forall_mem_singleton.mpr rfl

/-- Node one has answered. Its weight is not restored, and node zero has a weight although
nothing was sent to it. -/
theorem weights_not_balanced :
    ∃ s : Balancer, Reaches Balancer.step Balancer.Steady {} s ∧ s.Drained ∧
      s.accounts.sent = [1] ∧ s.unanswered 1 = 0 ∧
      s.accounts.weights.lookup 1 = some (meanWeight - 1) ∧
      s.accounts.weights.lookup 0 = some (meanWeight + 1) ∧ ¬ s.Balanced := by
  obtain ⟨s, reached, drained, sent, answered, one, zero⟩ :
      ∃ s : Balancer, Reaches Balancer.step Balancer.Steady {} s ∧ s.Drained ∧
        s.accounts.sent = [1] ∧ s.unanswered 1 = 0 ∧
        s.accounts.weights.lookup 1 = some (meanWeight - 1) ∧
        s.accounts.weights.lookup 0 = some (meanWeight + 1) :=
    exists_reaches _ (requested 1 0 0 ++ replied 0 0) (by decide +kernel) (by decide +kernel)
  refine ⟨s, reached, drained, sent, answered, one, zero, ?_⟩
  intro balanced
  obtain ⟨weight, found, value⟩ := balanced 1 (sent ▸ List.mem_singleton_self 1)
  rw [one, Option.some.injEq] at found
  rw [← found, answered] at value
  exact absurd value (by decide)

end RaftKv.ClusterManager
