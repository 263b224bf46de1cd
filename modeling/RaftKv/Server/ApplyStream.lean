import RaftKv.Raft.Delivery
import RaftKv.Raft.Safety
import RaftKv.Server.ExactlyOnce
import RaftKv.Server.System
import Mathlib.Data.Int.Range

/-!
# The stream of commands and snapshots

`CommitCheck` sends committed commands on `applyCh` and `InstallSnapshot` sends
snapshots, both after they have released the lock. `ApplyHandler` takes what comes: a
command is executed if its index is larger than that of the last one, whether or not
it is the next one.

The stream is in step if the server has, or is about to get from the channel, everything
up to `lastApplied` of its peer, or else a snapshot that is still waiting to be sent
covers the difference. In the second case `CommitCheck` must not overtake the snapshot:
the server would execute a command without those before it, and then refuse the snapshot
as an old one.
-/

namespace RaftKv.Server

open RaftKv.Raft (Bytes Op Entry ApplyMsg Cluster Raftserver Node Checker)
open Library

/-! ## The state a log determines -/

/-- The database after the first `k` committed commands. -/
def stateAt (committed : List Op) (k : Int) : DB := executeAll (committed.take k.toNat)

/-- The `IncrId`s of each clerk increase along the log; so none is repeated. -/
def Increasing (committed : List Op) : Prop :=
  committed.Pairwise fun a b => a.clerkId = b.clerkId → a.incrId < b.incrId

instance (committed : List Op) : Decidable (Increasing committed) :=
  inferInstanceAs (Decidable (List.Pairwise _ _))

/-- The recorded results are those of operations among the first `k`. -/
def Within (committed : List Op) (k : Int) (history : History) : Prop :=
  ∀ c resp, history.lookup c = some resp →
    ∃ op ∈ committed.take k.toNat, op.clerkId = c ∧ op.incrId = resp.incrId

/-- The snapshot for index `k` encodes the state after `k` commands. The empty one
stands for the state in which every server starts. -/
def Encodes (codec : Labgob) (committed : List Op) (k : Int) (data : Bytes) : Prop :=
  if data = [] then k = 0
  else ∃ db history, codec.decode data = some (db, history) ∧ db = stateAt committed k ∧
    Within committed k history

/-- The entries that a node has committed and still holds are those of the log. -/
def Fixed (committed : List Op) (rf : Raftserver) : Prop :=
  ∀ k, rf.lastIncludedIndex < k → k ≤ rf.commitIndex →
    ∃ op, committed[(k - 1).toNat]? = some op ∧ (rf.entryAt k).bind Entry.command = some op

theorem take_succ {committed : List Op} {k : Int} (hk : 0 ≤ k) {op : Op}
    (hop : committed[k.toNat]? = some op) :
    committed.take (k + 1).toNat = committed.take k.toNat ++ [op] := by
  rw [show (k + 1).toNat = k.toNat + 1 by omega, List.take_add_one, hop]
  rfl

theorem stateAt_succ {committed : List Op} {k : Int} (hk : 0 ≤ k) {op : Op}
    (hop : committed[k.toNat]? = some op) :
    stateAt committed (k + 1) = execute (stateAt committed k) op := by
  unfold stateAt
  rw [take_succ hk hop, executeAll, List.foldl_append]
  rfl

/-- An operation that comes later than all recorded ones is executed. -/
theorem needs_of_within {committed : List Op} {kv : KVServer} {k : Int} {op : Op}
    (increase : Increasing committed)
    (within : Within committed k kv.history) (hop : committed[k.toNat]? = some op) :
    kv.needs op = true := by
  unfold KVServer.needs
  cases hhistory : kv.history.lookup op.clerkId with
  | none => rfl
  | some resp =>
      obtain ⟨old, hold, hclerk, hincr⟩ := within _ _ hhistory
      have hmem : op ∈ committed.drop k.toNat := by
        rw [List.mem_iff_getElem?]
        exact ⟨0, by simpa using hop⟩
      have hpairs := increase
      rw [Increasing, ← List.take_append_drop k.toNat committed] at hpairs
      have hlt := (List.pairwise_append.mp hpairs).2.2 old hold op hmem hclerk
      exact decide_eq_true (hincr ▸ hlt)

/-! ## One node -/

/-- The index up to which a message takes the server. -/
def target (msg : ApplyMsg) : Int := if msg.commandValid then msg.commandIndex else msg.snapshotIndex

/-- A command of the log. -/
structure IsCommand (committed : List Op) (msg : ApplyMsg) : Prop where
  valid : msg.commandValid = true
  positive : 1 ≤ msg.commandIndex
  command : ∃ op, msg.command = some op ∧ committed[(msg.commandIndex - 1).toNat]? = some op

/-- A snapshot of the log. -/
structure IsSnapshot (codec : Labgob) (committed : List Op) (msg : ApplyMsg) : Prop where
  command : msg.commandValid = false
  valid : msg.snapshotValid = true
  nonneg : 0 ≤ msg.snapshotIndex
  encodes : Encodes codec committed msg.snapshotIndex msg.snapshot

/-- How far the server gets with what is in the channel. -/
def horizon (applyCh : List ApplyMsg) (lastApplied : Int) : Int :=
  applyCh.foldl (fun k msg => max k (target msg)) lastApplied

theorem horizon_le (applyCh : List ApplyMsg) (k : Int) : k ≤ horizon applyCh k := by
  unfold horizon
  induction applyCh generalizing k with
  | nil => exact le_rfl
  | cons msg rest ih => exact (le_max_left _ _).trans (ih _)

/-- A message that does not leave a gap after `k`. -/
def Fits (codec : Labgob) (committed : List Op) (k : Int) (msg : ApplyMsg) : Prop :=
  (IsCommand committed msg ∧ msg.commandIndex ≤ k + 1) ∨ IsSnapshot codec committed msg

/-- The part of a server's state that the stream determines. -/
structure Current (committed : List Op) (kv : KVServer) : Prop where
  nonneg : 0 ≤ kv.lastApplied
  db : kv.db = stateAt committed kv.lastApplied
  history : Within committed kv.lastApplied kv.history

/-- A message that fits brings the server to its target. -/
theorem Current.applyHandler {codec : Labgob} {committed : List Op} {kv : KVServer}
    (increase : Increasing committed)
    (current : Current committed kv) {msg : ApplyMsg}
    (fits : Fits codec committed kv.lastApplied msg)
    {result : KVServer × Option ServerResponse} (h : kv.applyHandler codec msg = some result) :
    Current committed result.1 ∧ result.1.lastApplied = max kv.lastApplied (target msg) ∧
      (result.2.isSome → msg.commandIndex ≤ result.1.lastApplied) := by
  unfold KVServer.applyHandler at h
  rcases fits with ⟨isCommand, next⟩ | isSnapshot
  · have htarget : target msg = msg.commandIndex := if_pos isCommand.valid
    rw [htarget]
    rw [if_pos isCommand.valid] at h
    split at h
    · cases h
      exact ⟨current, by dsimp only; omega, by simp⟩
    · obtain ⟨op, hop, rfl⟩ := Option.map_eq_some_iff.mp h
      obtain ⟨op', hop', hentry⟩ := isCommand.command
      rw [hop] at hop'
      cases hop'
      have hindex : msg.commandIndex = kv.lastApplied + 1 := by omega
      rw [hindex, add_sub_cancel_right] at hentry
      have hneeds := needs_of_within increase current.history hentry
      have hdb := KVServer.applyCommand_db kv msg.commandIndex op msg.snapshotTerm
      have hlast := KVServer.applyCommand_lastApplied kv msg.commandIndex op msg.snapshotTerm
      rw [hneeds, if_pos rfl] at hdb
      dsimp only
      refine ⟨⟨?_, ?_, ?_⟩, by omega, fun _ => by omega⟩
      · have := isCommand.positive
        omega
      · rw [hdb, hlast, hindex, stateAt_succ current.nonneg hentry, current.db]
      · intro c resp hlookup
        rw [hlast, hindex, take_succ current.nonneg hentry]
        rcases KVServer.applyCommand_recorded hlookup with hold | hnew
        · obtain ⟨o, ho, hrest⟩ := current.history c resp hold
          exact ⟨o, List.mem_append_left _ ho, hrest⟩
        · exact ⟨op, by simp, hnew⟩
  · have htarget : target msg = msg.snapshotIndex := by
      rw [target, isSnapshot.command]
      rfl
    rw [htarget]
    rw [isSnapshot.command, if_neg Bool.false_ne_true, if_pos isSnapshot.valid] at h
    split at h
    · rename_i hle
      cases h
      refine ⟨?_, by dsimp only; omega, by simp⟩
      have encodes := isSnapshot.encodes
      unfold Encodes at encodes
      unfold KVServer.loadSnapshot
      split at encodes
      · have hnonneg := current.nonneg
        have hsame : msg.snapshotIndex = kv.lastApplied := by omega
        rw [if_pos ‹_›, hsame]
        exact current
      · obtain ⟨db, history, hdecode, hdb, within⟩ := encodes
        rw [if_neg ‹_›, hdecode]
        exact ⟨isSnapshot.nonneg, hdb, within⟩
    · cases h
      exact ⟨current, by dsimp only; omega, by simp⟩

/-- `CommitCheck` has picked a command that comes next, or has just sent one. -/
def InTime (checker : Checker) (k : Int) : Prop :=
  match checker with
  | .sending msg _ _ => msg.commandIndex ≤ k + 1
  | .sent msg _ _ => msg.commandIndex ≤ k
  | _ => True

theorem InTime.mono {checker : Checker} {k k' : Int} (h : InTime checker k) (hle : k ≤ k') :
    InTime checker k' := by
  cases checker with
  | waiting => trivial
  | checking buffer => trivial
  | sending msg applied rest =>
      have : msg.commandIndex ≤ k + 1 := h
      exact (by omega : msg.commandIndex ≤ k' + 1)
  | sent msg applied rest => exact le_trans h hle

theorem Fits.mono {codec : Labgob} {committed : List Op} {k k' : Int} {msg : ApplyMsg}
    (h : Fits codec committed k msg) (hle : k ≤ k') : Fits codec committed k' msg :=
  h.imp (fun ⟨isCommand, hnext⟩ => ⟨isCommand, by omega⟩) id

/-- The delivery at one node is in step with the committed log. -/
structure Stream {n : Nat} (codec : Labgob) (committed : List Op) (node : Node)
    (service : Service n) : Prop where
  included : 0 ≤ node.rf.lastIncludedIndex
  covered : node.rf.lastIncludedIndex ≤ node.rf.lastApplied
  current : Current committed service.kv
  handing : ∀ taken ∈ service.handing, taken.1 ≤ service.kv.lastApplied
  channel : ∀ msg ∈ node.applyCh, Fits codec committed service.kv.lastApplied msg
  waiting : ∀ task ∈ node.installing,
    IsSnapshot codec committed task.2.2 ∧ task.2.2.snapshotIndex ≤ node.rf.lastApplied
  buffer : ∀ msg ∈ node.checker.messages, IsCommand committed msg
  position : InTime node.checker (horizon node.applyCh service.kv.lastApplied)
  progress : node.rf.lastApplied ≤ horizon node.applyCh service.kv.lastApplied ∨
    ∃ task ∈ node.installing, node.rf.lastApplied ≤ task.2.2.snapshotIndex

/-- A snapshot that the service still has to get is not overtaken: if one is waiting for
`lastApplied`, `CommitCheck` does not pick the command after it. -/
def InTurn (node : Node) : Prop :=
  match node.checker with
  | .checking (msg :: _) => msg.commandIndex = node.rf.lastApplied + 1 →
      ∀ task ∈ node.installing, task.2.2.snapshotIndex ≠ node.rf.lastApplied
  | _ => True

/-- What the delivery depends on is the same in both services. -/
structure Service.Same {n : Nat} (service service' : Service n) : Prop where
  db : service'.kv.db = service.kv.db
  history : service'.kv.history = service.kv.history
  lastApplied : service'.kv.lastApplied = service.kv.lastApplied
  handing : service'.handing = service.handing

namespace Stream

variable {n : Nat} {codec : Labgob} {committed : List Op} {node node' : Node}
  {service service' : Service n}

theorem frame (stream : Stream codec committed node service) (aside : node.Aside node')
    (same : service.Same service') : Stream codec committed node' service' where
  included := aside.included ▸ stream.included
  covered := by
    rw [aside.included, aside.applied]
    exact stream.covered
  current := by
    refine ⟨same.lastApplied ▸ stream.current.nonneg, ?_, ?_⟩
    · rw [same.db, same.lastApplied]
      exact stream.current.db
    · rw [same.history, same.lastApplied]
      exact stream.current.history
  handing := by
    rw [same.handing, same.lastApplied]
    exact stream.handing
  channel := by
    rw [aside.applyCh, same.lastApplied]
    exact stream.channel
  waiting := by
    rw [aside.installing, aside.applied]
    exact stream.waiting
  buffer := by
    rw [aside.checker]
    exact stream.buffer
  position := by
    rw [aside.checker, aside.applyCh, same.lastApplied]
    exact stream.position
  progress := by
    rw [aside.applied, aside.applyCh, aside.installing, same.lastApplied]
    exact stream.progress

/-- `InstallSnapshot` puts a snapshot into the queue for the channel. -/
theorem installSnapshot (stream : Stream codec committed node service)
    {args : Raft.InstallSnapshotArgs}
    (encodes : Encodes codec committed args.lastIncludedIndex args.data)
    {rf : Raftserver} {reply : Raft.InstallSnapshotReply} {msg : Option ApplyMsg}
    (h : node.rf.installSnapshot args = some (rf, reply, msg)) :
    Stream codec committed
      { node with
        rf := rf
        installing := (msg.map fun msg => (args, reply, msg)).toList ++ node.installing } service := by
  have refused (rf : Raftserver) (aside : node.rf.Aside rf) :
      Stream codec committed { node with rf := rf } service :=
    stream.frame ⟨aside, rfl, rfl, rfl⟩ ⟨rfl, rfl, rfl, rfl⟩
  obtain ⟨-, h⟩ | ⟨-, taken⟩ := Raftserver.installSnapshot_outcome h
  · cases h
    exact refused _ (.refl _)
  have observed : node.rf.Aside (node.rf.observeSnapshot args.term) := by
    obtain ⟨current, voted, -, same⟩ := node.rf.observeSnapshot_outcome args.term
    rw [same]
    exact ⟨rfl, rfl⟩
  obtain ⟨-, h⟩ | ⟨hnew, -, log, -, h⟩ := Raftserver.takeSnapshot_outcome taken
  · cases h
    exact refused _ observed
  · cases h
    rw [observed.included] at hnew
    have hincluded := stream.included
    have isSnapshot : IsSnapshot codec committed
        { snapshotValid := true, snapshot := args.data, snapshotIndex := args.lastIncludedIndex
          snapshotTerm := args.lastIncludedTerm } :=
      ⟨rfl, rfl, by dsimp only; omega, encodes⟩
    refine { stream with
      included := by dsimp only; omega
      covered := by dsimp only; omega
      waiting := fun task htask => ?_
      progress := ?_ }
    · dsimp only
      rw [observed.applied]
      rcases List.mem_cons.mp htask with rfl | htask
      · exact ⟨isSnapshot, by dsimp only; omega⟩
      · obtain ⟨hsnapshot, hle⟩ := stream.waiting task htask
        exact ⟨hsnapshot, by omega⟩
    · dsimp only
      rw [observed.applied]
      by_cases hle : node.rf.lastApplied ≤ args.lastIncludedIndex
      · exact .inr ⟨_, List.mem_cons_self, by dsimp only; omega⟩
      · rw [max_eq_left (by omega)]
        refine stream.progress.imp id ?_
        rintro ⟨task, htask, hle'⟩
        exact ⟨task, List.mem_cons_of_mem _ htask, hle'⟩

theorem installSnapshotSend (stream : Stream codec committed node service)
    {task : Raft.InstallSnapshotArgs × Raft.InstallSnapshotReply × ApplyMsg}
    (htask : task ∈ node.installing) {sent : Node} (h : node.send task.2.2 = some sent) :
    Stream codec committed
      { sent with
        installing := sent.installing.erase task
        installed := (task.1, task.2.1) :: sent.installed } service := by
  obtain ⟨hempty, rfl⟩ := enabled_some.mp h
  obtain ⟨isSnapshot, hle⟩ := stream.waiting task htask
  have htarget : target task.2.2 = task.2.2.snapshotIndex := by
    rw [target, isSnapshot.command]
    rfl
  have position := stream.position
  have progress := stream.progress
  rw [hempty] at position progress
  refine { stream with
    channel := fun msg hmsg => ?_
    waiting := fun other hother => stream.waiting other (List.mem_of_mem_erase hother)
    position := position.mono (le_max_left _ _)
    progress := ?_ }
  · rw [List.mem_singleton.mp hmsg]
    exact .inr isSnapshot
  · change _ ≤ max service.kv.lastApplied (target task.2.2) ∨ _
    rw [htarget]
    rcases progress with hreached | ⟨other, hother, hother'⟩
    · exact .inl (hreached.trans (le_max_left _ _))
    · by_cases hsame : other = task
      · exact .inl (hsame ▸ hother'.trans (le_max_right _ _))
      · exact .inr ⟨other, (List.mem_erase_of_ne hsame).mpr hother, hother'⟩

/-- `CommitCheck` fills its buffer with commands of the log. -/
theorem fill (stream : Stream codec committed node service) (fixed : Fixed committed node.rf)
    {fuel : Nat} {buffer : List ApplyMsg}
    (h : node.rf.commitBuffer fuel node.rf.lastApplied = some buffer) {msg : ApplyMsg}
    (hmsg : msg ∈ buffer) : IsCommand committed msg := by
  obtain ⟨hlt, hle, hvalid, e, he, hcommand⟩ := Raftserver.commitBuffer_mem h hmsg
  have hincluded := stream.included
  have hcovered := stream.covered
  obtain ⟨op, hop, hentry⟩ := fixed msg.commandIndex (by omega) hle
  rw [he, Option.bind_some, hcommand] at hentry
  exact ⟨by rw [hvalid (by omega), hentry]; rfl, by omega, op, hentry, hop⟩

theorem commitCheck (stream : Stream codec committed node service)
    (fixed : Fixed committed node.rf) (inTurn : InTurn node)
    (h : node.commitCheck = some node') : Stream codec committed node' service := by
  have buffer := stream.buffer
  have position := stream.position
  cases Node.checks_of_commitCheck h with
  | collect waiting behind collected =>
      exact { stream with
        buffer := fun msg hmsg => stream.fill fixed collected hmsg
        position := trivial }
  | finish empty =>
      exact { stream with buffer := fun msg hmsg => (by cases hmsg), position := trivial }
  | skip first other =>
      rw [first] at buffer
      exact { stream with
        buffer := fun m hm => buffer m (List.mem_cons_of_mem _ hm)
        position := trivial }
  | @pick msg rest first next =>
      rw [first] at buffer
      refine { stream with buffer := buffer, position := ?_ }
      -- what is waiting is older than `lastApplied`, so the server is up to date
      have hturn : ∀ task ∈ node.installing, task.2.2.snapshotIndex ≠ node.rf.lastApplied := by
        unfold InTurn at inTurn
        rw [first] at inTurn
        exact inTurn next
      have hreached : node.rf.lastApplied ≤ horizon node.applyCh service.kv.lastApplied := by
        rcases stream.progress with hreached | ⟨task, htask, hle⟩
        · exact hreached
        · exact absurd (le_antisymm (stream.waiting task htask).2 hle) (hturn task htask)
      exact (by omega : msg.commandIndex ≤ horizon node.applyCh service.kv.lastApplied + 1)
  | @send msg applied rest first room =>
      rw [first] at buffer position
      have isCommand := buffer msg List.mem_cons_self
      have htarget : target msg = msg.commandIndex := if_pos isCommand.valid
      have progress := stream.progress
      rw [room] at position progress
      refine { stream with
        channel := fun m hm => ?_
        buffer := buffer
        position := ?_
        progress := progress.imp (le_trans · (le_max_left _ _)) id }
      · rw [List.mem_singleton.mp hm]
        exact .inl ⟨isCommand, position⟩
      · change msg.commandIndex ≤ max service.kv.lastApplied (target msg)
        rw [htarget]
        exact le_max_right _ _
  | leave first other =>
      rw [first] at buffer
      exact { stream with
        buffer := fun m hm => buffer m (List.mem_cons_of_mem _ hm)
        position := trivial }
  | @advance msg applied rest first next =>
      rw [first] at buffer position
      have hsent : msg.commandIndex ≤ horizon node.applyCh service.kv.lastApplied := position
      refine { stream with
        covered := stream.covered.trans (le_max_left _ _)
        waiting := fun task htask =>
          ⟨(stream.waiting task htask).1, (stream.waiting task htask).2.trans (le_max_left _ _)⟩
        buffer := fun m hm => buffer m (List.mem_cons_of_mem _ hm)
        position := trivial
        progress := ?_ }
      dsimp only
      rcases stream.progress with hreached | ⟨task, htask, hle⟩
      · exact .inl (max_le hreached hsent)
      · by_cases hlt : msg.commandIndex ≤ node.rf.lastApplied
        · rw [max_eq_left hlt]
          exact .inr ⟨task, htask, hle⟩
        · exact .inl (max_le (by omega) hsent)

/-- The server has handed a snapshot of its own state to its peer. -/
theorem snapshot (stream : Stream codec committed node service) {taken : Int × Bytes}
    (htaken : taken ∈ service.handing) {rf : Raftserver}
    (h : node.rf.snapshot taken.1 taken.2 = some rf) :
    Stream codec committed { node with rf := rf } { service with handing := none } := by
  have handed : ∀ other ∈ (none : Option (Int × Bytes)), other.1 ≤ service.kv.lastApplied :=
    fun _ hother => (by cases hother)
  obtain ⟨-, rfl⟩ | ⟨hfirst, hlast, e, calls, -, rfl⟩ := Raftserver.snapshot_outcome h
  · exact { stream with handing := handed }
  have hincluded := stream.included
  have happlied := stream.handing taken htaken
  have hhorizon := horizon_le node.applyCh service.kv.lastApplied
  have hmax : (if node.rf.lastApplied < taken.1 then taken.1 else node.rf.lastApplied) =
      max node.rf.lastApplied taken.1 := by
    split <;> omega
  refine { stream with
    included := by dsimp only; omega
    covered := by dsimp only; omega
    handing := handed
    waiting := fun task htask => ?_
    progress := ?_ }
  · obtain ⟨isSnapshot, hle⟩ := stream.waiting task htask
    exact ⟨isSnapshot, by dsimp only; omega⟩
  · dsimp only
    rw [hmax]
    rcases stream.progress with hreached | ⟨task, htask, hle⟩
    · exact .inl (max_le hreached (by omega))
    · by_cases hlt : taken.1 ≤ node.rf.lastApplied
      · rw [max_eq_left hlt]
        exact .inr ⟨task, htask, hle⟩
      · exact .inl (by omega)

/-- The server takes the next message. -/
theorem applyHandler (stream : Stream codec committed node service)
    (increase : Increasing committed)
    {msg : ApplyMsg} {rest : List ApplyMsg} (hch : node.applyCh = msg :: rest)
    {result : KVServer × Option ServerResponse}
    (h : service.kv.applyHandler codec msg = some result) {handing : Option (Int × Bytes)}
    (hhanding : ∀ taken ∈ handing, result.2.isSome = true ∧ taken.1 = msg.commandIndex) :
    Stream codec committed { node with applyCh := rest }
      { service with kv := result.1, handing := handing } := by
  obtain ⟨current, hlast, hanswer⟩ := stream.current.applyHandler increase
    (stream.channel msg (by rw [hch]; exact List.mem_cons_self)) h
  have hle : service.kv.lastApplied ≤ result.1.lastApplied := hlast ▸ le_max_left _ _
  have hhorizon : horizon rest result.1.lastApplied = horizon node.applyCh service.kv.lastApplied := by
    rw [hch, hlast]
    rfl
  exact { stream with
    current := current
    handing := fun taken htaken => (hhanding taken htaken).2 ▸ hanswer (hhanding taken htaken).1
    channel := fun m hm =>
      (stream.channel m (by rw [hch]; exact List.mem_cons_of_mem _ hm)).mono hle
    position := hhorizon ▸ stream.position
    progress := hhorizon ▸ stream.progress }

end Stream

/-! ## The system -/

namespace System

variable {n : Nat} {codec : Labgob} {committed : List Op} {s t : System n}

/-- The stream of every node. -/
def InStep (codec : Labgob) (committed : List Op) (s : System n) : Prop :=
  ∀ i, Stream codec committed (s.raft.nodes i) (s.services i)

theorem InStep.setService (inStep : s.InStep codec committed) (i : Fin n) (service : Service n)
    (same : (s.services i).Same service) : (s.setService i service).InStep codec committed := by
  intro j
  refine setService_cases j ?_ fun _ => inStep j
  exact (inStep i).frame ⟨.refl _, rfl, rfl, rfl⟩ same

theorem InStep.setReader (inStep : s.InStep codec committed) (i : Fin n) (reader : Reader n) :
    (s.setReader i reader).InStep codec committed :=
  inStep.setService i _ ⟨rfl, rfl, rfl, rfl⟩

/-- A section of Raft that does not deliver. -/
theorem InStep.setRaft (inStep : s.InStep codec committed) {a : Raft.Action n} {raft : Cluster n}
    (h : s.raft.step a = some raft) (other : ∀ i, ¬ Cluster.Delivers i a) :
    InStep codec committed { s with raft := raft } := fun i =>
  (inStep i).frame (Cluster.step_aside h i (other i)) ⟨rfl, rfl, rfl, rfl⟩

/-- A section at node `i`, on either side of the channel. -/
theorem InStep.move (inStep : s.InStep codec committed) {a : Raft.Action n} {raft : Cluster n}
    (h : s.raft.step a = some raft) {i : Fin n} (delivers : Cluster.Delivers i a)
    (service : Service n) (moved : Stream codec committed (raft.nodes i) service) :
    InStep codec committed { s.setService i service with raft := raft } := by
  intro j
  change Stream codec committed (raft.nodes j) ((s.setService i service).services j)
  refine setService_cases j moved fun hj => ?_
  have aside := Cluster.step_aside h j fun delivers' => hj (delivers'.unique delivers)
  exact (inStep j).frame aside ⟨rfl, rfl, rfl, rfl⟩

/-- What is assumed about the run: the committed log is fixed, and every snapshot encodes
the state after the commands it includes. -/
def Assumed (codec : Labgob) (committed : List Op) (s : System n) (a : Action n) : Prop :=
  (∀ i, Fixed committed (s.raft.nodes i).rf) ∧
    match a with
    | .raft (.installSnapshot r) =>
        Encodes codec committed r.args.lastIncludedIndex r.args.data
    | _ => True

/-- `CommitCheck` does not overtake a snapshot. -/
def Orderly (s : System n) : Action n → Prop
  | .raft (.commitCheck i) => InTurn (s.raft.nodes i)
  | _ => True

theorem InStep.raft (inStep : s.InStep codec committed) {a : Raft.Action n}
    (assumed : Assumed codec committed s (.raft a)) (orderly : Orderly s (.raft a))
    {raft : Cluster n} (autonomous : autonomous a = true) (h : s.raft.step a = some raft) :
    InStep codec committed { s with raft := raft } := by
  by_cases other : ∀ i, ¬ Cluster.Delivers i a
  · exact inStep.setRaft h other
  obtain ⟨i, delivers⟩ := not_forall_not.mp other
  have moved : Stream codec committed (raft.nodes i) (s.services i) := by
    cases a with
    | installSnapshot r =>
        obtain ⟨-, ⟨rf, reply, msg⟩, hresult, rfl⟩ := enabled_map.mp h
        cases (delivers : r.server = i)
        have taken := (inStep r.server).installSnapshot assumed.2 hresult
        cases msg with
        | none =>
            dsimp only [Cluster.setRf]
            rw [Cluster.setNode_same]
            exact taken
        | some msg =>
            dsimp only
            rw [Cluster.setNode_same]
            exact taken
    | installSnapshotSend j task =>
        obtain ⟨htask, sent, hsent, rfl⟩ := enabled_map.mp h
        cases (delivers : j = i)
        rw [Cluster.setNode_same]
        exact (inStep i).installSnapshotSend htask hsent
    | commitCheck j =>
        obtain ⟨node, hnode, rfl⟩ := Option.map_eq_some_iff.mp h
        cases (delivers : j = i)
        rw [Cluster.setNode_same]
        exact (inStep i).commitCheck (assumed.1 i) orderly hnode
    | snapshot j index data => cases autonomous
    | applyHandler j => cases autonomous
    | _ => exact delivers.elim
  have after := inStep.move h delivers (s.services i) moved
  rwa [System.setService, Function.update_eq_self] at after

theorem InStep.applyHandler (inStep : s.InStep codec committed)
    (increase : Increasing committed)
    {i : Fin n} {takesSnapshot : Bool} (h : s.applyHandler codec i takesSnapshot = some t) :
    t.InStep codec committed := by
  obtain ⟨-, h⟩ := Option.ite_none_right_eq_some.mp h
  obtain ⟨msg, hmsg, h⟩ := Option.bind_eq_some_iff.mp h
  obtain ⟨raft, hraft, h⟩ := Option.bind_eq_some_iff.mp h
  obtain ⟨result, hresult, rfl⟩ := Option.map_eq_some_iff.mp h
  obtain ⟨rest, hch⟩ : ∃ rest, (s.raft.nodes i).applyCh = msg :: rest :=
    List.head?_eq_some_iff.mp hmsg
  refine inStep.move hraft (i := i) rfl _ ?_
  have hnode : raft.nodes i = { s.raft.nodes i with applyCh := rest } := by
    unfold Cluster.step at hraft
    dsimp only at hraft
    rw [hch] at hraft
    cases hraft
    rw [Cluster.setNode_same]
  rw [hnode]
  refine (inStep i).applyHandler increase hch hresult fun taken htaken => ?_
  obtain ⟨⟨-, hanswered⟩, rfl⟩ := enabled_some.mp htaken
  exact ⟨hanswered, rfl⟩

theorem InStep.serveRead (inStep : s.InStep codec committed) {i : Fin n}
    (h : s.serveRead i = some t) : t.InStep codec committed := by
  unfold System.serveRead at h
  split at h
  · rename_i read found hreader
    cases h
    refine inStep.setService i _ ?_
    unfold KVServer.serveRead KVServer.dbExecute
    split
    · exact ⟨KVServer.execute_get read.isGet, rfl, rfl, rfl⟩
    · exact ⟨rfl, rfl, rfl, rfl⟩
  · cases h

theorem InStep.step (inStep : s.InStep codec committed)
    (increase : Increasing committed)
    {a : Action n} (assumed : Assumed codec committed s a) (orderly : Orderly s a)
    (h : s.step codec a = some t) : t.InStep codec committed := by
  cases a with
  | raft a =>
      obtain ⟨autonomous, raft, hraft, rfl⟩ := enabled_map.mp h
      exact inStep.raft assumed orderly autonomous hraft
  | applyHandler i takesSnapshot => exact inStep.applyHandler increase h
  | snapshot i =>
      obtain ⟨taken, htaken, h⟩ := Option.bind_eq_some_iff.mp h
      obtain ⟨raft, hraft, rfl⟩ := Option.map_eq_some_iff.mp h
      refine inStep.move hraft (i := i) rfl _ ?_
      obtain ⟨rf, hrf, rfl⟩ := Option.map_eq_some_iff.mp hraft
      rw [Cluster.setRf, Cluster.setNode_same]
      exact (inStep i).snapshot htaken hrf
  | handleOpQue i op =>
      rcases handleOpQue_eq h with rfl | rfl
      · exact inStep
      · exact inStep.setService i _ ⟨rfl, rfl, rfl, rfl⟩
  | dispatch i =>
      rcases dispatch_eq h with ⟨op, isGet, rfl⟩ | ⟨op, raft, handler, hraft, rfl⟩
      · exact inStep.setService i _ ⟨rfl, rfl, rfl, rfl⟩
      · have moved := inStep.setService i { s.services i with opHandler := handler }
          ⟨rfl, rfl, rfl, rfl⟩
        exact moved.setRaft hraft fun _ => id
  | recordTerm i =>
      obtain ⟨op, term, rfl⟩ := recordTerm_eq h
      exact inStep.setService i _ ⟨rfl, rfl, rfl, rfl⟩
  | takeRead i =>
      obtain ⟨read, rest, -, -, rfl⟩ := takeRead_eq h
      exact inStep.setService i _ ⟨rfl, rfl, rfl, rfl⟩
  | lookUp i =>
      obtain ⟨read, -, rfl⟩ := lookUp_eq h
      exact inStep.setReader i _
  | getState i =>
      obtain ⟨read, -, rfl⟩ := getState_eq h
      exact inStep.setReader i _
  | singleHeartBeat i =>
      obtain ⟨read, idx, term, -, rfl | ⟨raft, -, hraft, rfl⟩⟩ := singleHeartBeat_eq h
      · exact inStep.setReader i _
      · exact (inStep.setReader i _).setRaft hraft fun _ => id
  | confirmLeader i oks =>
      obtain ⟨read, idx, term, beats, seen, -, -, -, rfl⟩ := confirmLeader_eq h
      exact inStep.setReader i _
  | sendCommitIndex i =>
      obtain ⟨read, raft, answer, -, hraft, -, rfl⟩ := sendCommitIndex_eq h
      exact (inStep.setReader i _).setRaft hraft fun _ => id
  | commitIndexError i =>
      obtain ⟨read, reader, count, -, -, rfl⟩ := commitIndexError_eq h
      exact inStep.setService i _ ⟨rfl, rfl, rfl, rfl⟩
  | commitIndexReply i =>
      obtain ⟨read, r, raft, -, hraft, rfl⟩ := commitIndexReply_eq h
      exact (inStep.setReader i _).setRaft hraft fun _ => id
  | recordIndex i =>
      obtain ⟨read, idx, -, rfl⟩ := recordIndex_eq h
      exact inStep.setService i _ ⟨rfl, rfl, rfl, rfl⟩
  | serveRead i => exact inStep.serveRead h

theorem inStep_init (n : Nat) : (init n).InStep codec committed := by
  intro i
  constructor <;> simp [init, Cluster.init, Cluster.initServer, Checker.messages, InTime, horizon]
  exact ⟨le_rfl, rfl, fun c resp h => by simp at h⟩

/-- **Apply-stream fidelity.** If the `IncrId`s of each clerk increase along the committed
log, then in every run in which no snapshot is overtaken the database of every server is
that of the commands up to its `lastApplied`, and the next command it executes is the
next one of the log. -/
theorem apply_stream (codec : Labgob) {committed : List Op}
    (increase : Increasing committed)
    (reached : Reaches (step codec) (fun s a => Assumed codec committed s a ∧ Orderly s a)
      (init n) s) (i : Fin n) :
    (s.services i).kv.db = stateAt committed (s.services i).kv.lastApplied ∧
      ∀ msg ∈ (s.raft.nodes i).applyCh, msg.commandValid = true →
        (s.services i).kv.lastApplied < msg.commandIndex →
        msg.commandIndex = (s.services i).kv.lastApplied + 1 ∧
          ∃ op, msg.command = some op ∧ (s.services i).kv.needs op = true ∧
            committed[(s.services i).kv.lastApplied.toNat]? = some op := by
  have inStep : s.InStep codec committed :=
    reached.invariant (inStep_init n) fun _ _ _ _ inStep ⟨assumed, orderly⟩ taken =>
      inStep.step increase assumed orderly taken
  obtain ⟨-, -, current, -, channel, -⟩ := inStep i
  refine ⟨current.db, fun msg hmsg valid newer => ?_⟩
  rcases channel msg hmsg with ⟨isCommand, next⟩ | isSnapshot
  · obtain ⟨op, hop, hentry⟩ := isCommand.command
    have hindex : msg.commandIndex = (s.services i).kv.lastApplied + 1 := by omega
    rw [hindex, add_sub_cancel_right] at hentry
    exact ⟨hindex, op, hop, needs_of_within increase current.history hentry, hentry⟩
  · rw [isSnapshot.command] at valid
    cases valid

/-! ## A run of three nodes -/

instance (committed : List Op) (k : Int) (history : History) :
    Decidable (Within committed k history) :=
  -- the keys are finitely many; so are all clerks, but far too many to go through
  have : Decidable (∀ c ∈ history.keys, ∃ op ∈ committed.take k.toNat, op.clerkId = c ∧
      (history.lookup c).map (·.incrId) = some op.incrId) := Finset.decidableDforallFinset
  decidable_of_iff (∀ c ∈ history.keys, ∃ op ∈ committed.take k.toNat, op.clerkId = c ∧
      (history.lookup c).map (·.incrId) = some op.incrId) (by
    constructor
    · intro h c resp hlookup
      obtain ⟨op, hop, hclerk, hincr⟩ :=
        h c (Finmap.mem_keys.mpr (Finmap.mem_of_lookup_eq_some hlookup))
      rw [hlookup] at hincr
      exact ⟨op, hop, hclerk, (Option.some.inj hincr).symm⟩
    · intro h c hc
      obtain ⟨resp, hlookup⟩ := Finmap.mem_iff.mp (Finmap.mem_keys.mp hc)
      obtain ⟨op, hop, hclerk, hincr⟩ := h c resp hlookup
      exact ⟨op, hop, hclerk, by rw [hlookup, hincr]; rfl⟩)

instance (codec : Labgob) (committed : List Op) (k : Int) (data : Bytes) :
    Decidable (Encodes codec committed k data) :=
  if hdata : data = [] then decidable_of_iff (k = 0) (by simp [Encodes, hdata])
  else
    match hdecode : codec.decode data with
    | some (db, history) =>
        decidable_of_iff (db = stateAt committed k ∧ Within committed k history)
          (by simp [Encodes, hdata, hdecode])
    | none => .isFalse (by simp [Encodes, hdata, hdecode])

instance (committed : List Op) (rf : Raftserver) : Decidable (Fixed committed rf) :=
  decidable_of_iff (∀ k, rf.lastIncludedIndex < k → k ≤ rf.commitIndex →
      (committed[(k - 1).toNat]?).isSome ∧
        (rf.entryAt k).bind Entry.command = committed[(k - 1).toNat]?) (by
    refine forall_congr' fun k => forall_congr' fun _ => forall_congr' fun _ => ?_
    rw [Option.isSome_iff_exists]
    constructor
    · rintro ⟨⟨op, hop⟩, hentry⟩
      exact ⟨op, hop, hentry.trans hop⟩
    · rintro ⟨op, hop, hentry⟩
      exact ⟨⟨op, hop⟩, hentry.trans hop.symm⟩)

instance (codec : Labgob) (committed : List Op) (s : System n) (a : Action n) :
    Decidable (Assumed codec committed s a) := by
  unfold Assumed
  refine @instDecidableAnd _ _ inferInstance ?_
  split <;> infer_instance

instance (node : Node) : Decidable (InTurn node) := by
  unfold InTurn
  split <;> infer_instance

instance (s : System n) (a : Action n) : Decidable (Orderly s a) := by
  unfold Orderly
  split <;> infer_instance

/-- Two writes of one clerk to different keys. -/
def firstWrite : Op := { optype := opPut, key := [107], value := [97], clerkId := 1, incrId := 1 }
def secondWrite : Op := { optype := opPut, key := [108], value := [98], clerkId := 1, incrId := 2 }

/-- The codec of a run with one snapshot, which is taken after the first write. -/
def oneSnapshot : Labgob :=
  { encode := fun _ _ => [1]
    decode := fun _ => some (stateAt [firstWrite, secondWrite] 1, ∅) }

def inRaft (actions : List (Raft.Action 3)) : List (Action 3) := actions.map .raft

/-- Node zero leads the first term, and its peers have taken the empty snapshot. -/
def leadFirst : List (Action 3) :=
  inRaft (Raft.win 0 2 (Cluster.firstBallot 1 0) ++ [.startSendAppendEntries 0]) ++
    inRaft (Raft.introduce 0 1 1) ++ [.applyHandler 1 false] ++
    inRaft (Raft.introduce 0 2 1) ++ [.applyHandler 2 false]

/-- Node zero replicates the first write to both peers, commits and applies it. -/
def applyFirst : List (Action 3) :=
  [.handleOpQue 0 firstWrite, .dispatch 0, .recordTerm 0] ++
    inRaft [.startSendAppendEntries 0, .sendAppendEntries 0 ⟨1, Raft.firstEntry 1 firstWrite⟩,
      .sendAppendEntries 0 ⟨2, Raft.firstEntry 1 firstWrite⟩,
      .appendEntries ⟨1, Raft.firstEntry 1 firstWrite⟩,
      .appendEntries ⟨2, Raft.firstEntry 1 firstWrite⟩,
      .appendEntriesReply 0 ⟨2, Raft.firstEntry 1 firstWrite⟩ { term := 1, success := true },
      .commitCheck 0, .commitCheck 0, .commitCheck 0] ++
    [.applyHandler 0 true]

/-- The leader has applied the first write. -/
theorem apply_stream_first_write :
    ∃ s : System 3, Reaches (step oneSnapshot)
        (fun s a => Assumed oneSnapshot [firstWrite, secondWrite] s a ∧ Orderly s a) (init 3) s ∧
      (s.services 0).kv.lastApplied = 1 ∧
      (s.services 0).kv.db = stateAt [firstWrite, secondWrite] 1 := by
  have ended : ∃ s : System 3, Reaches (step oneSnapshot)
      (fun s a => Assumed oneSnapshot [firstWrite, secondWrite] s a ∧ Orderly s a) (init 3) s ∧
      (s.services 0).kv.lastApplied = 1 :=
    exists_reaches (fun s : System 3 => (s.services 0).kv.lastApplied = 1)
      (leadFirst ++ applyFirst) (by decide +kernel) (by decide +kernel)
  obtain ⟨s, reached, hlast⟩ := ended
  have hdb := (apply_stream oneSnapshot (by decide) reached 0).1
  rw [hlast] at hdb
  exact ⟨s, reached, hlast, hdb⟩

/-- The snapshot that node zero sends. -/
def firstSnapshot : Raft.InstallSnapshotArgs :=
  { term := 1, leaderId := 0, lastIncludedIndex := 1, lastIncludedTerm := 1
    lastIncludedCommand := some firstWrite, data := [1] }

/-- Node one takes the snapshot, but before it has sent it on `applyCh` the second write
is committed and delivered. -/
def overtake : List (Action 3) :=
  [.snapshot 0] ++
    inRaft [.appendEntriesReply 0 ⟨1, Raft.firstEntry 1 firstWrite⟩ { term := 1, success := true },
      .sendInstallSnapshot 0 1, .installSnapshot ⟨1, firstSnapshot⟩] ++
    [.handleOpQue 0 secondWrite, .dispatch 0] ++
    inRaft [.startSendAppendEntries 0, .sendAppendEntries 0 ⟨2, Raft.secondEntry 1 1 secondWrite⟩,
      .appendEntries ⟨2, Raft.secondEntry 1 1 secondWrite⟩,
      .appendEntriesReply 0 ⟨2, Raft.secondEntry 1 1 secondWrite⟩ { term := 1, success := true },
      .startSendAppendEntries 0,
      .sendAppendEntries 0 ⟨1, { Raft.secondEntry 1 1 secondWrite with leaderCommit := 2 }⟩,
      .appendEntries ⟨1, { Raft.secondEntry 1 1 secondWrite with leaderCommit := 2 }⟩,
      .commitCheck 1, .commitCheck 1, .commitCheck 1] ++
    [.applyHandler 1 false]

/-- Node one has executed the second write and not the first one, which was only in the
snapshot. The snapshot is refused when it comes. -/
theorem command_overtakes_snapshot :
    Increasing [firstWrite, secondWrite] ∧
      ∃ s : System 3, Reaches (step oneSnapshot)
          (Assumed oneSnapshot [firstWrite, secondWrite]) (init 3) s ∧
        (s.services 1).kv.lastApplied = 2 ∧ (s.services 1).kv.db.lookup [107] = none ∧
        (stateAt [firstWrite, secondWrite] 2).lookup [107] = some [97] := by
  refine ⟨by decide, ?_⟩
  exact exists_reaches (fun s : System 3 =>
    (s.services 1).kv.lastApplied = 2 ∧ (s.services 1).kv.db.lookup [107] = none ∧
      (stateAt [firstWrite, secondWrite] 2).lookup [107] = some [97])
    (leadFirst ++ applyFirst ++ overtake ++
      [.raft (.installSnapshotSend 1 (firstSnapshot, ⟨1⟩,
        { snapshotValid := true, snapshot := [1], snapshotIndex := 1, snapshotTerm := 1 })),
        .applyHandler 1 false])
    (by decide +kernel) (by decide +kernel)

end System

end RaftKv.Server
