import RaftKv.Library.Run
import RaftKv.Raft.Handlers
import Mathlib.Algebra.GroupWithZero.Nat
import Mathlib.Data.List.FinRange
import Mathlib.Logic.Function.Basic

/-!
# A cluster of peers and its network

The nodes of a cluster are numbered as in `main`, and every node has finished
`startWork` with an empty persister before a run begins. An action is one section
that holds `rf.mu`, one send or receive on `applyCh`, or the start of a goroutine.

A request on the wire stays there: it can be handled any number of times, at any
later time, or never, and so can the replies. What a goroutine does only once is
recorded where it matters: each `collectVote` waits for one answer and counts it
at most once, in two separate steps. An action whose section panics is not enabled,
so the runs of this model are the runs without a crash.
-/

namespace RaftKv.Raft

/-- The position of `CommitCheck` in its loops. -/
inductive Checker where
  | waiting
  | checking (buffer : List ApplyMsg)
  | sending (msg : ApplyMsg) (currentLastApplied : Int) (rest : List ApplyMsg)
  | sent (msg : ApplyMsg) (currentLastApplied : Int) (rest : List ApplyMsg)
  deriving DecidableEq

/-- A peer with its goroutines: `StartElection` calls that `ticker` has started,
`CommitCheck`, and the `InstallSnapshot` handlers that have released the lock,
before and after they send. `delivered` is a history variable, everything that
was ever sent on `applyCh`. -/
structure Node where
  rf : Raftserver
  elections : Nat := 0
  checker : Checker := .waiting
  installing : List (InstallSnapshotArgs × InstallSnapshotReply × ApplyMsg) := []
  installed : List (InstallSnapshotArgs × InstallSnapshotReply) := []
  applyCh : List ApplyMsg := []
  delivered : List ApplyMsg := []

namespace Node

/-- `applyCh` is made with capacity one. -/
def send (node : Node) (msg : ApplyMsg) : Option Node :=
  if node.applyCh = [] then
    some { node with applyCh := [msg], delivered := msg :: node.delivered }
  else none

/-- The next section of `CommitCheck`. -/
def commitCheck (node : Node) : Option Node :=
  match node.checker with
  | .waiting =>
      if node.rf.lastApplied < node.rf.commitIndex then
        (node.rf.commitBuffer (node.rf.commitIndex - node.rf.lastApplied).toNat
          node.rf.lastApplied).map fun buffer => { node with checker := .checking buffer }
      else none
  | .checking [] => some { node with checker := .waiting }
  | .checking (msg :: rest) =>
      if msg.commandIndex ≠ node.rf.lastApplied + 1 then
        some { node with checker := .checking rest }
      else some { node with checker := .sending msg node.rf.lastApplied rest }
  | .sending msg applied rest =>
      (node.send msg).map fun node => { node with checker := .sent msg applied rest }
  | .sent msg applied rest =>
      if msg.commandIndex ≠ applied + 1 then some { node with checker := .checking rest }
      else
        some { node with
          checker := .checking rest
          rf := { node.rf with lastApplied := max node.rf.lastApplied msg.commandIndex } }

end Node

/-- A call of a remote procedure; the caller is named by its arguments. -/
structure Rpc (n : Nat) (α : Type) where
  server : Fin n
  args : α
  deriving DecidableEq

/-- Collect the results of a loop body that may panic. -/
def collect {α β : Type} (f : α → Option β) : List α → Option (List β)
  | [] => some []
  | a :: as => (f a).bind fun b => (collect f as).map (b :: ·)

theorem collect_mem {α β γ : Type} {f : α → Option β} {g : α → β → γ} {as : List α} {bs : List γ}
    (h : collect (fun a => (f a).map (g a)) as = some bs) {b : γ} (hb : b ∈ bs) :
    ∃ a ∈ as, ∃ x, f a = some x ∧ g a x = b := by
  induction as generalizing bs with
  | nil =>
      cases h
      cases hb
  | cons a as ih =>
      obtain ⟨x, hx, hrest⟩ := Option.bind_eq_some_iff.mp h
      obtain ⟨xs, hxs, rfl⟩ := Option.map_eq_some_iff.mp hrest
      rcases List.mem_cons.mp hb with rfl | hb
      · exact ⟨a, by simp, Option.map_eq_some_iff.mp hx⟩
      · obtain ⟨a', ha', hf⟩ := ih hxs hb
        exact ⟨a', by simp [ha'], hf⟩

/-- The nodes, the messages and replies that exist, and the goroutines of
`collectVote`, `sendAppendEntriesToServer` and `sendInstallSnapshotToServer` that
have not got to the network or to the next section yet. `promoted` is a history
variable: each assignment `rf.role = Leader`, with `rf.currentTerm` at that moment. -/
structure Cluster (n : Nat) where
  nodes : Fin n → Node
  voteReqs : List (Rpc n RequestVoteArgs) := []
  voteReplies : List (Rpc n RequestVoteArgs × RequestVoteReply) := []
  voteCalls : List (Rpc n RequestVoteArgs) := []
  votesWon : List (Rpc n RequestVoteArgs) := []
  appendCalls : List (Rpc n AppendEntriesArgs) := []
  appendReqs : List (Rpc n AppendEntriesArgs) := []
  appendReplies : List (Rpc n AppendEntriesArgs × AppendEntriesReply) := []
  beatReqs : List (Rpc n AppendEntriesArgs) := []
  beatReplies : List (Rpc n AppendEntriesArgs × AppendEntriesReply) := []
  installCalls : List (Fin n × Fin n) := []
  installReqs : List (Rpc n InstallSnapshotArgs) := []
  installReplies : List (Rpc n InstallSnapshotArgs × InstallSnapshotReply) := []
  commitReplies : List (Fin n × GetCommitIndexReply) := []
  promoted : List (Fin n × Int) := []

/-- One section of the code, at the node that runs it. -/
inductive Action (n : Nat) where
  | ticker (i : Fin n)
  | startElection (i : Fin n)
  | requestVote (r : Rpc n RequestVoteArgs)
  | procVoteAnswer (i : Fin n) (r : Rpc n RequestVoteArgs) (reply : RequestVoteReply)
  | collectVote (i : Fin n) (r : Rpc n RequestVoteArgs) (outTime : Bool)
  | startSendAppendEntries (i : Fin n)
  | sendAppendEntries (i : Fin n) (r : Rpc n AppendEntriesArgs)
  | appendEntries (r : Rpc n AppendEntriesArgs)
  | appendEntriesReply (i : Fin n) (r : Rpc n AppendEntriesArgs) (reply : AppendEntriesReply)
  | sendInstallSnapshot (i j : Fin n)
  | installSnapshot (r : Rpc n InstallSnapshotArgs)
  | installSnapshotSend (j : Fin n)
      (task : InstallSnapshotArgs × InstallSnapshotReply × ApplyMsg)
  | installSnapshotDone (j : Fin n) (task : InstallSnapshotArgs × InstallSnapshotReply)
  | installSnapshotReply (i : Fin n) (r : Rpc n InstallSnapshotArgs)
      (reply : InstallSnapshotReply)
  | singleHeartBeat (i : Fin n)
  | heartBeat (r : Rpc n AppendEntriesArgs)
  | sendCommitIndex (i : Fin n)
  | commitIndexReply (i : Fin n) (r : GetCommitIndexReply)
  | start (i : Fin n) (command : Op)
  | snapshot (i : Fin n) (index : Int) (data : Bytes)
  | commitCheck (i : Fin n)
  | applyHandler (i : Fin n)

/-- The size of the clusters whose runs are evaluated. -/
instance three : NeZero 3 := ⟨by decide⟩

namespace Cluster

variable {n : Nat}

/-- A peer after `startWork` on a fresh persister. `connectToPeers` leaves out
the node itself. -/
def initServer (n i : Nat) : Raftserver :=
  { me := i, peers := (List.range n).filter (· ≠ i), log := [some {}] }

theorem initServer_peers_length (i : Fin n) : (initServer n i).peers.length + 1 = n := by
  have herase : (List.range n).filter (· ≠ i.val) = (List.range n).erase i := by
    rw [List.nodup_range.erase_eq_filter]
    exact List.filter_congr fun x _ => by by_cases hx : x = i.val <;> simp [hx]
  rw [initServer, herase, List.length_erase_of_mem (List.mem_range.mpr i.isLt), List.length_range]
  have hi := i.isLt
  omega

def init (n : Nat) : Cluster n := { nodes := fun i => { rf := initServer n i } }

def setNode (s : Cluster n) (i : Fin n) (node : Node) : Cluster n :=
  { s with nodes := Function.update s.nodes i node }

def setRf (s : Cluster n) (i : Fin n) (rf : Raftserver) : Cluster n :=
  s.setNode i { s.nodes i with rf := rf }

/-- The nodes that `range rf.peers` goes through. -/
def peersOf (s : Cluster n) (i : Fin n) : List (Fin n) :=
  (List.finRange n).filter fun j => j.val ∈ (s.nodes i).rf.peers

/-- One section of the code, or `none` if it is not enabled or panics. -/
def step (s : Cluster n) : Action n → Option (Cluster n)
  | .ticker i =>
      if (s.nodes i).rf.role ≠ .leader then
        some (s.setNode i { s.nodes i with elections := (s.nodes i).elections + 1 })
      else none
  | .startElection i =>
      if 0 < (s.nodes i).elections then
        (s.nodes i).rf.startElection.map fun result =>
          let calls := (s.peersOf i).map fun j => ⟨j, result.2⟩
          { s.setNode i
              { s.nodes i with rf := result.1, elections := (s.nodes i).elections - 1 } with
            voteReqs := calls ++ s.voteReqs
            voteCalls := calls ++ s.voteCalls }
      else none
  | .requestVote r =>
      if r ∈ s.voteReqs then
        ((s.nodes r.server).rf.requestVote r.args).map fun result =>
          { s.setRf r.server result.1 with voteReplies := (r, result.2) :: s.voteReplies }
      else none
  | .procVoteAnswer i r reply =>
      if r ∈ s.voteCalls ∧ r.args.candidateId = some (i : Nat) ∧ (r, reply) ∈ s.voteReplies then
        ((s.nodes i).rf.procVoteAnswer r.args reply).map fun result =>
          { s.setRf i result.1 with
            voteCalls := s.voteCalls.erase r
            votesWon := if result.2 then r :: s.votesWon else s.votesWon }
      else none
  | .collectVote i r outTime =>
      if r ∈ s.votesWon ∧ r.args.candidateId = some (i : Nat) then
        let rf := (s.nodes i).rf.collectVote outTime
        some { s.setRf i rf with
          votesWon := s.votesWon.erase r
          promoted :=
            if (s.nodes i).rf.role ≠ .leader ∧ rf.role = .leader then
              (i, rf.currentTerm) :: s.promoted
            else s.promoted }
      else none
  | .startSendAppendEntries i =>
      if (s.nodes i).rf.role = .leader then
        (collect (fun j : Fin n => ((s.nodes i).rf.startSendAppendEntries j).map fun args => (j, args))
          (s.peersOf i)).map fun sends =>
          { s with
            appendCalls := sends.filterMap (fun p => p.2.map fun args => ⟨p.1, args⟩) ++ s.appendCalls
            installCalls :=
              (sends.filter fun p => p.2.isNone).map (fun p => (i, p.1)) ++ s.installCalls }
      else none
  | .sendAppendEntries i r =>
      if r ∈ s.appendCalls ∧ r.args.leaderId = i ∧ (s.nodes i).rf.role = .leader then
        some { s with appendCalls := s.appendCalls.erase r, appendReqs := r :: s.appendReqs }
      else none
  | .appendEntries r =>
      if r ∈ s.appendReqs then
        ((s.nodes r.server).rf.appendEntries r.args).map fun result =>
          { s.setRf r.server result.1 with appendReplies := (r, result.2) :: s.appendReplies }
      else none
  | .appendEntriesReply i r reply =>
      if (r, reply) ∈ s.appendReplies ∧ r.args.leaderId = i then
        ((s.nodes i).rf.sendAppendEntriesToServer r.server r.args reply).map fun result =>
          { s.setRf i result.1 with
            installCalls :=
              if result.2 then (i, r.server) :: s.installCalls else s.installCalls }
      else none
  | .sendInstallSnapshot i j =>
      if (i, j) ∈ s.installCalls ∧ (s.nodes i).rf.role = .leader then
        (s.nodes i).rf.installSnapshotArgs.map fun args =>
          { s with
            installCalls := s.installCalls.erase (i, j)
            installReqs := ⟨j, args⟩ :: s.installReqs }
      else none
  | .installSnapshot r =>
      if r ∈ s.installReqs then
        ((s.nodes r.server).rf.installSnapshot r.args).map fun result =>
          match result.2.2 with
          | none =>
              { s.setRf r.server result.1 with
                installReplies := (r, result.2.1) :: s.installReplies }
          | some msg =>
              s.setNode r.server
                { s.nodes r.server with
                  rf := result.1
                  installing := (r.args, result.2.1, msg) :: (s.nodes r.server).installing }
      else none
  | .installSnapshotSend j task =>
      if task ∈ (s.nodes j).installing then
        ((s.nodes j).send task.2.2).map fun node =>
          s.setNode j { node with
            installing := node.installing.erase task
            installed := (task.1, task.2.1) :: node.installed }
      else none
  | .installSnapshotDone j task =>
      if task ∈ (s.nodes j).installed then
        (s.nodes j).rf.persist.map fun rf =>
          { s.setNode j
              { s.nodes j with rf := rf, installed := (s.nodes j).installed.erase task } with
            installReplies := (⟨j, task.1⟩, task.2) :: s.installReplies }
      else none
  | .installSnapshotReply i r reply =>
      if (r, reply) ∈ s.installReplies ∧ r.args.leaderId = i then
        ((s.nodes i).rf.sendInstallSnapshotToServer r.server reply).map (s.setRf i)
      else none
  | .singleHeartBeat i =>
      if (s.nodes i).rf.role = .leader then
        (collect (fun j : Fin n => ((s.nodes i).rf.singleHeartBeat j).map (Rpc.mk j))
          (s.peersOf i)).map fun beats => { s with beatReqs := beats ++ s.beatReqs }
      else none
  | .heartBeat r =>
      if r ∈ s.beatReqs then
        ((s.nodes r.server).rf.appendEntries r.args).map fun result =>
          { s.setRf r.server result.1 with beatReplies := (r, result.2) :: s.beatReplies }
      else none
  | .sendCommitIndex i =>
      let leader := (s.nodes i).rf.leaderIdx
      if h : leader < n then
        -- a node is no peer of its own, and calling the nil client panics
        if leader ∈ (s.nodes i).rf.peers then
          some { s with
            commitReplies := (i, (s.nodes ⟨leader, h⟩).rf.getCommitIndex) :: s.commitReplies }
        else none
      else none
  | .commitIndexReply i r =>
      if (i, r) ∈ s.commitReplies then some (s.setRf i ((s.nodes i).rf.sendCommitIndex r).1)
      else none
  | .start i command => ((s.nodes i).rf.start command).map fun result => s.setRf i result.1
  | .snapshot i index data => ((s.nodes i).rf.snapshot index data).map (s.setRf i)
  | .commitCheck i => (s.nodes i).commitCheck.map (s.setNode i)
  | .applyHandler i =>
      match (s.nodes i).applyCh with
      | [] => none
      | _ :: rest => some (s.setNode i { s.nodes i with applyCh := rest })

variable {s t : Cluster n} {i : Fin n}

theorem step_sendCommitIndex (h : s.step (.sendCommitIndex i) = some t) :
    ∃ r, { s with commitReplies := r :: s.commitReplies } = t := by
  rw [step] at h
  split at h
  · obtain ⟨-, h⟩ := Option.ite_none_right_eq_some.mp h
    exact ⟨_, Option.some.inj h⟩
  · cases h

theorem step_applyHandler (h : s.step (.applyHandler i) = some t) :
    ∃ msg rest, (s.nodes i).applyCh = msg :: rest ∧
      s.setNode i { s.nodes i with applyCh := rest } = t := by
  rw [step] at h
  dsimp only at h
  split at h
  · cases h
  · rename_i msg rest channel
    exact ⟨msg, rest, channel, Option.some.inj h⟩

end Cluster

end RaftKv.Raft
