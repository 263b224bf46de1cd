import RaftKv.Library.Iterate
import RaftKv.Library.Selection
import RaftKv.Server.Accounts
import RaftKv.Server.StatusSync

/-!
# Which node gets a request

The cluster manager picks a node for each request. A request that is not a `GET` goes to
the leader. A `GET` goes to a node that is chosen by the weights, or to any node, or to
the one with the best commit index, as `PickMode` says.

Nodes are registered by `handleSync`, and get a weight when the first adjustment arrives
at `adjustWeight`. So there is a time without weights, and there are sums of weights that
are not positive as an `int32`: `rand` panics in both cases. To find the best commit index
`pick` locks the mutex that it has locked before. And until a node has said that it is the
leader, the leader is node zero, registered or not.
-/

namespace RaftKv.ClusterManager

open Library
open RaftKv.Server (opGet opPut)
open RaftKv.StatusSync (SyncMsg Node)

inductive PickMode where
  | WEIGHT
  | RANDOM
  | LOG
  deriving DecidableEq, Repr

/-- The fields of `Cluster` that `pick` uses, with the weights and their channel in
`accounts`, and those that `serve` uses in `cluster`. -/
structure Manager where
  nodes : AList (fun _ : Int32 => Node) := ∅
  leaderId : Int32 := 0
  accounts : Accounts := {}
  cluster : Cluster := {}

namespace Manager

/-! ### `handleSync` -/

/-- What a message says about its node and about the leader. -/
def record (cu : Manager) (msg : SyncMsg) : Manager :=
  let node : Node :=
    if 0 < msg.ipLen then
      { commitIndex := msg.commitIndex, isLeader := msg.isLeader, port := msg.port, ip := msg.ip }
    else
      match cu.nodes.lookup msg.serverId with
      | none => { commitIndex := msg.commitIndex, isLeader := msg.isLeader }
      | some node => { node with commitIndex := msg.commitIndex, isLeader := msg.isLeader }
  { cu with
    nodes := cu.nodes.insert msg.serverId node
    leaderId := if msg.isLeader then msg.serverId else cu.leaderId }

/-- How far a node is behind the leader; it is a panic if the node is not registered. -/
def diff (cu : Manager) (id : Int32) : Option Int32 :=
  match cu.nodes.lookup cu.leaderId with
  | none => some 0
  | some leader =>
      (cu.nodes.lookup id).map fun node => (node.commitIndex - leader.commitIndex).toInt32

/-- One message of a connection. Only a message without an address adjusts the weight. -/
def handleSync (cu : Manager) (conn : Nat) (msg : SyncMsg) : Option Manager :=
  if cu.accounts.Busy (.handleSync conn) then none
  else if 0 < msg.ipLen then some (cu.record msg)
  else
    ((cu.record msg).diff msg.serverId).map fun value =>
      { cu.record msg with
        accounts := cu.accounts.wait (.handleSync conn) ⟨msg.serverId, value⟩ }

/-! ### `pick` -/

/-- What a call of `pick` comes to. -/
inductive Picked where
  | node (id : Int32)
  | panic
  | deadlock
  deriving DecidableEq

/-- `cu.mu.Lock()`, in a goroutine that holds the mutex or does not. -/
def lock (held : Bool) (rest : Picked) : Picked := if held then .deadlock else rest

/-- What the program does not determine: the number that `rand` returns, and the orders of
the loops over the two maps. -/
structure Chance where
  draw : Draw
  weights : Orders (Σ _ : Int32, Int32)
  nodes : Orders (Σ _ : Int32, Node)

/-- `totalWeight`. -/
def totalWeight (entries : List (Σ _ : Int32, Int32)) : Int32 :=
  entries.foldl (fun totalWeight e => totalWeight + e.2) 0

/-- The branch of `WEIGHT`, with the leader if the loop does not come to an end before. -/
def pickWeight (cu : Manager) (c : Chance) : Picked :=
  let total := totalWeight (c.weights.order 0 cu.accounts.weights.entries)
  match c.draw.below total.toInt.toNat with
  | none => .panic
  | some pickedWeight =>
      match walk (fun e : Σ _ : Int32, Int32 => e.2) (Int32.ofNat pickedWeight)
          (c.weights.order 1 cu.accounts.weights.entries) with
      | none => .node cu.leaderId
      | some e => .node e.1

/-- `selectId`, `randidx` and the number of the inner loops so far. -/
structure Random where
  selectId : Int32
  randidx : Int
  loops : Nat := 0

/-- The inner loop of `RANDOM`. -/
def randomInner (leaderId : Int32) : List (Σ _ : Int32, Int32) → Int32 × Int → Int32 × Int
  | [], st => st
  | e :: rest, (selectId, randidx) =>
      if e.1 = leaderId then randomInner leaderId rest (selectId, randidx)
      else if randidx - 1 < 1 then (e.1, randidx - 1)
      else randomInner leaderId rest (e.1, randidx - 1)

/-- One round of the outer loop of `RANDOM`. -/
def randomRound (cu : Manager) (c : Chance) (st : Random) : Random :=
  let inner := randomInner cu.leaderId (c.weights.order st.loops cu.accounts.weights.entries)
    (st.selectId, st.randidx)
  { selectId := inner.1, randidx := inner.2, loops := st.loops + 1 }

/-- The branch of `RANDOM`; `none` if it takes more rounds than that. -/
def pickRandom (cu : Manager) (c : Chance) (fuel : Nat) : Option Picked :=
  match c.draw.below cu.accounts.weights.entries.length with
  | none => some .panic
  | some randidx =>
      (whileLoop (fun st : Random => 0 < st.randidx) (cu.randomRound c) fuel
        { selectId := cu.leaderId, randidx := randidx }).map fun st => .node st.selectId

/-- The loop of `LOG`: the node with the best commit index that is not the leader. -/
def bestCommit (cu : Manager) (entries : List (Σ _ : Int32, Node)) : Int64 × Int32 :=
  entries.foldl
    (fun best e =>
      if e.1 = cu.leaderId then best
      else if best.1 < e.2.commitIndex then (e.2.commitIndex, e.1) else best)
    (0, cu.leaderId)

def pick (cu : Manager) (mode : PickMode) (op : UInt32) (c : Chance) (fuel : Nat) :
    Option Picked :=
  (if op = opGet then
      match mode with
      | .WEIGHT => some (cu.pickWeight c)
      | .RANDOM => cu.pickRandom c fuel
      | .LOG => some (lock true (.node (cu.bestCommit (c.nodes.order 0 cu.nodes.entries)).2))
    else some (.node cu.leaderId)).map (lock false)

/-! ### The goroutines -/

inductive Step where
  /-- `handleSync` reads a message from a connection, and waits at `cu.AdjustCh <-`. -/
  | sync (conn : Nat) (msg : SyncMsg)
  | push (conn : Nat) (op : AdjustOp)
  | adjust
  /-- `serve` reads a request, puts it into `SendQue` and registers its connection. -/
  | read (conn : Nat) (msg : Proxy.ClientMessage)
  | enqueue (conn : Nat) (req : Request)
  | register (conn : Nat) (clerkId : Int32)

def step (cu : Manager) : Step → Option Manager
  | .sync conn msg => cu.handleSync conn msg
  | .push conn op =>
      (cu.accounts.push (.handleSync conn) op).map fun b => { cu with accounts := b }
  | .adjust => cu.accounts.adjustWeight.map fun b => { cu with accounts := b }
  | .read conn msg => (cu.cluster.serveRead conn msg).map fun c => { cu with cluster := c }
  | .enqueue conn req => (cu.cluster.serveEnqueue conn req).map fun c => { cu with cluster := c }
  | .register conn clerkId =>
      (cu.cluster.serveRegister conn clerkId).map fun c => { cu with cluster := c }

/-! ### Registered nodes -/

/-- Only registered nodes have weights, and will have. -/
structure Known (cu : Manager) : Prop where
  weights : ∀ i ∈ cu.accounts.weights, i ∈ cu.nodes
  pending : ∀ op ∈ cu.accounts.pending, op.id ∈ cu.nodes

theorem mem_record {cu : Manager} {msg : SyncMsg} {i : Int32} :
    i ∈ (cu.record msg).nodes ↔ i = msg.serverId ∨ i ∈ cu.nodes :=
  AList.mem_insert _

theorem mem_balanceWeight {w w' : Weights} (h : w.balanceWeight = some w') (i : Int32) :
    i ∈ w' ↔ i ∈ w := by
  obtain ⟨avgWeight, -, rfl⟩ := Option.map_eq_some_iff.mp h
  rw [← AList.lookup_isSome, Weights.lookup_map, Option.isSome_map, AList.lookup_isSome]

/-- A weight is adjusted or added for the node of the next adjustment. -/
theorem mem_adjustWeight {b b' : Accounts} (h : b.adjustWeight = some b') :
    ∃ op, b.pending = op :: b'.pending ∧
      ∀ i, i ∈ b'.weights ↔ i = op.id ∨ i ∈ b.weights := by
  unfold Accounts.adjustWeight at h
  split at h
  · cases h
  next op rest queue =>
    refine ⟨op, ?_⟩
    rw [Accounts.pending, queue]
    split at h
    · obtain ⟨w, balanced, rfl⟩ := Option.map_eq_some_iff.mp h
      refine ⟨rfl, fun i => ?_⟩
      rw [AList.mem_insert, mem_balanceWeight balanced]
    · cases h
      exact ⟨rfl, fun i => AList.mem_insert _⟩

namespace Known

variable {cu cu' : Manager}

theorem initial : Known {} :=
  ⟨fun i none => absurd none (AList.notMem_empty i), nofun⟩

theorem record (h : cu.Known) (msg : SyncMsg) : (cu.record msg).Known :=
  ⟨fun i here => mem_record.mpr (.inr (h.weights i here)),
    fun op here => mem_record.mpr (.inr (h.pending op here))⟩

theorem handleSync {conn : Nat} {msg : SyncMsg} (h : cu.Known)
    (handled : cu.handleSync conn msg = some cu') : cu'.Known := by
  obtain ⟨-, handled⟩ := Option.ite_none_left_eq_some.mp handled
  split at handled
  · cases handled
    exact h.record msg
  · obtain ⟨value, -, rfl⟩ := Option.map_eq_some_iff.mp handled
    refine ⟨(h.record msg).weights, fun op here => ?_⟩
    rcases List.mem_cons.mp ((Accounts.pending_wait ..).mem_iff.mp here) with rfl | old
    · exact mem_record.mpr (.inl rfl)
    · exact (h.record msg).pending op old

theorem push {b : Accounts} {g : Goroutine} {op : AdjustOp} (h : cu.Known)
    (pushed : cu.accounts.push g op = some b) : Known { cu with accounts := b } := by
  have same := Accounts.pending_push pushed
  obtain ⟨-, moved⟩ := Option.ite_none_right_eq_some.mp pushed
  cases moved
  exact ⟨h.weights, fun op' here => h.pending op' (same.mem_iff.mp here)⟩

theorem adjust {b : Accounts} (h : cu.Known) (adjusted : cu.accounts.adjustWeight = some b) :
    Known { cu with accounts := b } := by
  obtain ⟨op, pending, mem_iff⟩ := mem_adjustWeight adjusted
  obtain ⟨first, others⟩ := List.forall_mem_cons.mp (pending ▸ h.pending)
  refine ⟨fun i here => ?_, others⟩
  rcases (mem_iff i).mp here with rfl | old
  · exact first
  · exact h.weights i old

theorem step {a : Step} (h : cu.Known) (taken : cu.step a = some cu') : cu'.Known := by
  cases a with
  | sync conn msg => exact h.handleSync taken
  | push conn op =>
      obtain ⟨b, pushed, rfl⟩ := Option.map_eq_some_iff.mp taken
      exact h.push pushed
  | adjust =>
      obtain ⟨b, adjusted, rfl⟩ := Option.map_eq_some_iff.mp taken
      exact h.adjust adjusted
  | read conn msg =>
      obtain ⟨c, -, rfl⟩ := Option.map_eq_some_iff.mp taken
      exact ⟨h.weights, h.pending⟩
  | enqueue conn req =>
      obtain ⟨c, -, rfl⟩ := Option.map_eq_some_iff.mp taken
      exact ⟨h.weights, h.pending⟩
  | register conn clerkId =>
      obtain ⟨c, -, rfl⟩ := Option.map_eq_some_iff.mp taken
      exact ⟨h.weights, h.pending⟩

end Known

theorem known_of_reachable {cu : Manager} (h : Reachable step {} cu) : cu.Known :=
  h.invariant .initial fun _ _ _ _ inv _ taken => inv.step taken

/-! ### Totality -/

/-- The sum is the same in any order. -/
theorem totalWeight_perm {w : Weights} {l : List (Σ _ : Int32, Int32)} (h : l.Perm w.entries) :
    totalWeight l = w.total := by
  rw [← Int32.toInt_inj, totalWeight, Weights.total, Weights.toInt_foldl_add,
    Weights.toInt_foldl_add, (h.map fun e => e.2.toInt).sum_eq]

theorem toInt_foldl_sub (l : List (Σ _ : Int32, Int32)) (x : Int32) :
    (l.foldl (fun x e => x - e.2) x).toInt =
      (x.toInt - (l.map fun e => e.2.toInt).sum).bmod (2 ^ 32) := by
  induction l generalizing x with
  | nil => rw [List.foldl_nil, List.map_nil, List.sum_nil, Int.sub_zero, (inInt32_toInt x).bmod_eq]
  | cons e l ih =>
      rw [List.foldl_cons, ih, Int32.toInt_sub, Int.bmod_sub_bmod, List.map_cons, List.sum_cons,
        Int.sub_sub]

/-- A number below the sum is used up at the end of the loop, although the weights may be
negative and the differences may overflow on the way. -/
theorem foldl_sub_nonpos {l : List (Σ _ : Int32, Int32)} {n : Nat}
    (below : (n : Int) < (totalWeight l).toInt) :
    l.foldl (fun x e => x - e.2) (Int32.ofNat n) ≤ 0 := by
  have bound := (inInt32_toInt (totalWeight l)).2
  have total : (totalWeight l).toInt = Int.bmod (l.map fun e => e.2.toInt).sum (2 ^ 32) := by
    rw [totalWeight, Weights.toInt_foldl_add, show (0 : Int32).toInt = 0 from rfl, Int.zero_add]
  rw [Int32.le_iff_toInt_le, toInt_foldl_sub, ← Int.sub_bmod_bmod, ← total,
    Int32.toInt_ofNat_of_lt (by omega), InInt32.bmod_eq ⟨by omega, by omega⟩]
  change _ ≤ (0 : Int)
  omega

variable {cu : Manager}

theorem pickWeight_panics (c : Chance) (h : ¬ 0 < cu.accounts.weights.total) :
    cu.pickWeight c = .panic := by
  have total := totalWeight_perm (c.weights.perm 0 cu.accounts.weights.entries)
  have none : cu.accounts.weights.total.toInt.toNat = 0 := by
    rw [Int32.lt_iff_toInt_lt, Int.not_lt] at h
    exact Int.toNat_of_nonpos h
  rw [pickWeight, total, none, Draw.below_zero]

theorem pickWeight_known (known : cu.Known) (c : Chance) (h : 0 < cu.accounts.weights.total) :
    ∃ id ∈ cu.nodes, cu.pickWeight c = .node id := by
  have perm := c.weights.perm 1 cu.accounts.weights.entries
  have total₀ := totalWeight_perm (c.weights.perm 0 cu.accounts.weights.entries)
  have total₁ := totalWeight_perm perm
  have positive : 0 < cu.accounts.weights.total.toInt := Int32.lt_iff_toInt_lt.mp h
  have drawn := c.draw.value_lt (n := cu.accounts.weights.total.toInt.toNat) (by omega)
  have some_entry : c.weights.order 1 cu.accounts.weights.entries ≠ [] := by
    intro empty
    rw [empty] at total₁
    rw [← total₁] at positive
    exact absurd positive (by decide)
  obtain ⟨e, here, walked⟩ := exists_walk (fun e : Σ _ : Int32, Int32 => e.2)
    (x := Int32.ofNat (c.draw.value cu.accounts.weights.total.toInt.toNat)) some_entry
    (foldl_sub_nonpos (by rw [total₁]; omega))
  refine ⟨e.1, known.weights e.1 (List.mem_keys_of_mem (perm.mem_iff.mp here)), ?_⟩
  rw [pickWeight, total₀, c.draw.below_pos (by omega)]
  dsimp only
  rw [walked]

/-- What the inner loop of `RANDOM` selects is the last selection or an entry. -/
theorem randomInner_fst {leaderId selectId : Int32} {P : Int32 → Prop}
    {l : List (Σ _ : Int32, Int32)} (entries : ∀ e ∈ l, P e.1) (before : P selectId)
    (randidx : Int) : P (randomInner leaderId l (selectId, randidx)).1 := by
  induction l generalizing selectId randidx with
  | nil => exact before
  | cons e l ih =>
      obtain ⟨here, later⟩ := List.forall_mem_cons.mp entries
      rw [randomInner]
      split
      · exact ih later before randidx
      · split
        · exact here
        · exact ih later here (randidx - 1)

theorem randomInner_snd_le (leaderId selectId : Int32) (l : List (Σ _ : Int32, Int32))
    (randidx : Int) : (randomInner leaderId l (selectId, randidx)).2 ≤ randidx := by
  induction l generalizing selectId randidx with
  | nil => exact Int.le_refl randidx
  | cons e l ih =>
      rw [randomInner]
      split
      · exact ih selectId randidx
      · have rest := ih e.1 (randidx - 1)
        split
        · dsimp only
          omega
        · omega

/-- The inner loop counts down, unless there are no entries but the leader's. -/
theorem randomInner_snd_lt {leaderId : Int32} {l : List (Σ _ : Int32, Int32)}
    (other : ∃ e ∈ l, e.1 ≠ leaderId) (selectId : Int32) (randidx : Int) :
    (randomInner leaderId l (selectId, randidx)).2 < randidx := by
  induction l with
  | nil =>
      obtain ⟨e, here, -⟩ := other
      cases here
  | cons e l ih =>
      rw [randomInner]
      split
      next leader =>
        obtain ⟨e', here, different⟩ := other
        rcases List.mem_cons.mp here with rfl | here
        · exact absurd leader different
        · exact ih ⟨e', here, different⟩
      next =>
        have rest := randomInner_snd_le leaderId e.1 l (randidx - 1)
        split
        · dsimp only
          omega
        · omega

/-- Of two weights one is not the leader's. -/
theorem exists_other {w : Weights} (two : 1 < w.entries.length) (leaderId : Int32) :
    ∃ e ∈ w.entries, e.1 ≠ leaderId := by
  by_contra none
  push Not at none
  have distinct := w.nodupKeys
  match entries : w.entries with
  | [] =>
      rw [entries] at two
      cases two
  | [e] =>
      rw [entries] at two
      exact absurd two (Nat.lt_irrefl 1)
  | e :: e' :: rest =>
      rw [entries] at none distinct
      have first := none e List.mem_cons_self
      have second := none e' (List.mem_cons_of_mem e List.mem_cons_self)
      refine (List.nodup_cons.mp distinct).1 ?_
      rw [first, ← second]
      exact List.mem_cons_self

theorem pickRandom_known (known : cu.Known) (c : Chance)
    (some_weight : cu.accounts.weights.entries ≠ []) (leader : cu.leaderId ∈ cu.nodes) :
    ∃ fuel, ∃ id ∈ cu.nodes, cu.pickRandom c fuel = some (.node id) := by
  have positive := List.length_pos_iff.mpr some_weight
  have drawn := c.draw.value_lt positive
  have entries (k : Nat) : ∀ e ∈ c.weights.order k cu.accounts.weights.entries, e.1 ∈ cu.nodes :=
    fun e here =>
      known.weights e.1 (List.mem_keys_of_mem ((c.weights.perm k _).mem_iff.mp here))
  obtain ⟨fuel, st, looped, selected, -⟩ := exists_whileLoop
    (fun st : Random => 0 < st.randidx) (cu.randomRound c)
    (P := fun st => st.selectId ∈ cu.nodes ∧
      (0 < st.randidx → 1 < cu.accounts.weights.entries.length))
    (fun st => st.randidx.toNat)
    (fun st inv again => by
      obtain ⟨e, here, other⟩ := exists_other (inv.2 again) cu.leaderId
      have lower := randomInner_snd_lt
        ⟨e, (c.weights.perm st.loops _).mem_iff.mpr here, other⟩ st.selectId st.randidx
      refine ⟨⟨randomInner_fst (entries st.loops) inv.1 st.randidx, fun _ => inv.2 again⟩, ?_⟩
      change (randomInner _ _ _).2.toNat < _
      omega)
    (s := { selectId := cu.leaderId, randidx := c.draw.value cu.accounts.weights.entries.length })
    ⟨leader, fun some_rounds => by dsimp only at some_rounds; omega⟩
  refine ⟨fuel, st.selectId, selected, ?_⟩
  rw [pickRandom, c.draw.below_pos positive]
  dsimp only
  rw [looped, Option.map_some]

/-- Whatever is drawn, `pick` returns a registered node. -/
def Total (cu : Manager) (mode : PickMode) (op : UInt32) : Prop :=
  ∀ c, ∃ fuel, ∃ id ∈ cu.nodes, cu.pick mode op c fuel = some (.node id)

/-- The leader is registered, unless the weights alone decide. They do so if their sum is
positive as an `int32`. -/
def Pickable (cu : Manager) (mode : PickMode) (op : UInt32) : Prop :=
  if op = opGet then
    match mode with
    | .WEIGHT => 0 < cu.accounts.weights.total
    | .RANDOM => cu.accounts.weights.entries ≠ [] ∧ cu.leaderId ∈ cu.nodes
    | .LOG => False
  else cu.leaderId ∈ cu.nodes

/-- The smallest number is drawn, and the maps are in order. -/
def Chance.least : Chance := ⟨.always 0, .listed, .listed⟩

theorem pick_get (cu : Manager) (mode : PickMode) (c : Chance) (fuel : Nat) :
    cu.pick mode opGet c fuel =
      match mode with
      | .WEIGHT => some (cu.pickWeight c)
      | .RANDOM => cu.pickRandom c fuel
      | .LOG => some .deadlock := by
  have unlocked : lock false = id := rfl
  unfold pick
  rw [if_pos rfl, unlocked, Option.map_id]
  rfl

theorem pick_other (cu : Manager) (mode : PickMode) {op : UInt32} (other : op ≠ opGet) (c : Chance)
    (fuel : Nat) : cu.pick mode op c fuel = some (.node cu.leaderId) := by
  unfold pick
  rw [if_neg other]
  rfl

/-- If zero is drawn, `RANDOM` takes the leader. -/
theorem pickRandom_least {fuel : Nat} {id : Int32}
    (h : cu.pickRandom .least fuel = some (.node id)) :
    cu.accounts.weights.entries ≠ [] ∧ id = cu.leaderId := by
  unfold pickRandom at h
  rcases Nat.eq_zero_or_pos cu.accounts.weights.entries.length with none | positive
  · rw [none, Draw.below_zero] at h
    cases h
  · rw [Draw.below_pos _ positive, show Chance.least.draw.value _ = 0 from if_pos positive] at h
    refine ⟨List.length_pos_iff.mp positive, ?_⟩
    cases fuel with
    | zero => cases h
    | succ fuel =>
        cases h
        rfl

theorem Total.pickable {mode : PickMode} {op : UInt32} (h : cu.Total mode op) :
    cu.Pickable mode op := by
  obtain ⟨fuel, id, registered, picked⟩ := h .least
  unfold Pickable
  split
  next get =>
    rw [get, pick_get] at picked
    cases mode with
    | WEIGHT =>
        by_contra panics
        rw [pickWeight_panics _ panics] at picked
        cases picked
    | RANDOM =>
        obtain ⟨some_weight, rfl⟩ := pickRandom_least picked
        exact ⟨some_weight, registered⟩
    | LOG => cases picked
  next other =>
    rw [cu.pick_other mode other] at picked
    cases picked
    exact registered

theorem Known.total {mode : PickMode} {op : UInt32} (known : cu.Known)
    (h : cu.Pickable mode op) : cu.Total mode op := by
  intro c
  unfold Pickable at h
  split at h
  next get =>
    rw [get]
    simp only [pick_get]
    cases mode with
    | WEIGHT =>
        obtain ⟨id, registered, picked⟩ := pickWeight_known known c h
        exact ⟨0, id, registered, congrArg some picked⟩
    | RANDOM => exact pickRandom_known known c h.1 h.2
    | LOG => exact h.elim
  next other => exact ⟨0, cu.leaderId, h, cu.pick_other mode other c 0⟩

end Manager

/-- In every state that is reached, `pick` returns a registered node whatever is drawn if
and only if the leader is registered or the sum of the weights is positive, as the request
and the mode demand. With the mode `LOG` it never returns for a `GET`. -/
theorem pick_total_iff {cu : Manager} (h : Reachable Manager.step {} cu) (mode : PickMode)
    (op : UInt32) : cu.Total mode op ↔ cu.Pickable mode op :=
  ⟨Manager.Total.pickable, (Manager.known_of_reachable h).total⟩

/-- Node `i` reports its commit index, and the report is weighed with this value. -/
def reported (i : Nat) (commitIndex : Int64) (isLeader : Bool) (value : Int32) :
    List Manager.Step :=
  [.sync i
      { commitIndex := commitIndex, isLeader := isLeader, ipLen := 0, serverId := Int32.ofNat i },
    .push i ⟨Int32.ofNat i, value⟩, .adjust]

/-- One node, which leads. -/
theorem pick_total_one :
    ∃ cu, Reachable Manager.step {} cu ∧ 1 ∈ cu.nodes ∧ cu.Total .WEIGHT opGet := by
  obtain ⟨cu, reached, registered, positive⟩ :
      ∃ cu, Reachable Manager.step {} cu ∧ 1 ∈ cu.nodes ∧ 0 < cu.accounts.weights.total :=
    exists_reachable _ (reported 1 5 true 0) (by decide +kernel)
  exact ⟨cu, reached, registered, (pick_total_iff reached .WEIGHT opGet).mpr positive⟩

/-- At the start a `GET` panics, as there is no weight, and a `PUT` goes to a node that is not
registered. When the leader is 20000000 entries ahead of the other node, the sum of the two
weights is zero and a `GET` panics again. With the mode `LOG` it locks the mutex twice. -/
theorem pick_fails :
    (∀ c fuel, ({} : Manager).pick .WEIGHT opGet c fuel = some .panic ∧
      ({} : Manager).pick .WEIGHT opPut c fuel = some (.node 0)) ∧
    ∃ cu, Reachable Manager.step {} cu ∧ cu.nodes.keys = [2, 1] ∧ cu.leaderId = 1 ∧
      ∀ c fuel, cu.pick .WEIGHT opGet c fuel = some .panic ∧
        cu.pick .LOG opGet c fuel = some .deadlock := by
  constructor
  · intro c fuel
    rw [Manager.pick_get]
    exact ⟨congrArg some (Manager.pickWeight_panics c (by decide)),
      Manager.pick_other _ _ (by decide) c fuel⟩
  · obtain ⟨cu, reached, nodes, leader, zero⟩ :
        ∃ cu, Reachable Manager.step {} cu ∧ cu.nodes.keys = [2, 1] ∧ cu.leaderId = 1 ∧
          ¬ 0 < cu.accounts.weights.total :=
      exists_reachable _ (reported 1 20000000 true 0 ++ reported 2 0 false (-20000000))
        (by decide +kernel)
    refine ⟨cu, reached, nodes, leader, fun c fuel => ⟨?_, ?_⟩⟩
    · rw [Manager.pick_get]
      exact congrArg some (Manager.pickWeight_panics c zero)
    · rw [Manager.pick_get]

end RaftKv.ClusterManager
