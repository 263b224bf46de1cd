import RaftKv.Raft.CommittedLog
import RaftKv.Raft.Entries
import RaftKv.Server.Effects
import Mathlib.Data.Countable.Basic
import Mathlib.Logic.Equiv.List

/-!
# The service as one copy of the database

The committed log of the cluster is a list of commands that only grows. Each server works
through it on its own, with commands from `applyCh` and with snapshots that another
server has made. So all of them are the same database at different times: the one of a
server that has applied `k` commands is the result of the first `k` commands of the log.
What `ApplyHandler` answers at an index is what the sequential execution answers
there, and a read that is careful sees the state after all that was answered before.

The commands that will be committed are not known in advance, so what the data of
the servers has to do with the log is stated for every log that goes on from the
committed one.
-/

namespace RaftKv.Server

open RaftKv.Raft (Bytes Op Entry ApplyMsg Cluster Guarded Sim CommittedLog Commands)
open Library

/-- What is decoded is what was encoded, and nothing is encoded as the empty snapshot. -/
structure Labgob.Lawful (codec : Labgob) : Prop where
  decode_encode : ∀ db history, codec.decode (codec.encode db history) = some (db, history)
  encode_ne_nil : ∀ db history, codec.encode db history ≠ []

/-! ## The commands of the committed log -/

/-- The commands of a log, whose first entry is a placeholder. -/
def commandsOf (log : List Entry) : List Op := log.tail.map fun e => e.command.getD {}

/-- Every entry behind the placeholder has a command, and one that satisfies `P`. -/
def Filled (P : Op → Prop) (log : List Entry) : Prop :=
  ∀ e ∈ log.tail, ∃ op, e.command = some op ∧ P op

theorem commandsOf_getElem? {log : List Entry} {k : Int} (hk : 1 ≤ k) {e : Entry} {op : Op}
    (he : log[k.toNat]? = some e) (hop : e.command = some op) :
    (commandsOf log)[(k - 1).toNat]? = some op := by
  rw [commandsOf, List.getElem?_map, List.getElem?_tail, show (k - 1).toNat + 1 = k.toNat by omega,
    he, Option.map_some, hop]
  rfl

theorem commandsOf_mono {log log' : List Entry} (h : log <+: log') :
    commandsOf log <+: commandsOf log' := by
  obtain ⟨rest, rfl⟩ := h
  cases log with
  | nil => exact List.nil_prefix
  | cons first log =>
      rw [commandsOf, commandsOf, List.cons_append, List.tail_cons, List.tail_cons, List.map_append]
      exact List.prefix_append _ _

theorem Filled.mem {P : Op → Prop} {log : List Entry} (filled : Filled P log) {op : Op}
    (hop : op ∈ commandsOf log) : P op := by
  obtain ⟨e, he, rfl⟩ := List.mem_map.mp hop
  obtain ⟨op, hcommand, hP⟩ := filled e he
  rwa [hcommand]

section Log

variable {n : Nat} {h : Raft.History n} {c : Cluster n} {x : List Entry} {P : Op → Prop}

/-- What the nodes have committed is fixed by any continuation of the committed log. -/
theorem fixed_of_committedLog (log : CommittedLog h c x) (sim : Sim h c) (filled : Filled P x)
    {committed : List Op} (begins : commandsOf x <+: committed) (i : Fin n) :
    Fixed committed (c.nodes i).rf := by
  intro k hincluded hcommit
  obtain ⟨e, he, hx⟩ := log.entry sim hincluded.le hcommit
  have hnonneg := (sim.nodes i).window.nonneg
  have behind : e ∈ x.tail := by
    refine List.mem_of_getElem? (i := k.toNat - 1) ?_
    rw [List.getElem?_tail, show k.toNat - 1 + 1 = k.toNat by omega, hx]
  obtain ⟨op, hop, -⟩ := filled e behind
  exact ⟨op, Ledger.prefix_getElem? begins (commandsOf_getElem? (by omega) hx hop),
    by rw [he, Option.bind_some, hop]⟩

/-- The committed log has grown by entries that the nodes have committed. -/
def Adds (x y : List Entry) (c : Cluster n) : Prop :=
  ∀ k e, x.length ≤ k → y[k]? = some e → ∃ i, (c.nodes i).rf.HasCommitted k e

/-- The new entries of the committed log come from the logs of the nodes. -/
theorem Filled.extend (filled : Filled P x) (commands : Commands P c) {y : List Entry}
    (begins : x <+: y)
    (held : Adds x y c) : Filled P y := by
  intro e he
  obtain ⟨k, hk⟩ := List.mem_iff_getElem?.mp he
  rw [List.getElem?_tail] at hk
  by_cases hlt : k + 1 < x.length
  · have hx : x[k + 1]? = some e := by
      rw [List.getElem?_eq_getElem hlt, ← hk]
      exact (Ledger.prefix_getElem? begins (List.getElem?_eq_getElem hlt)).symm
    exact filled e (List.mem_of_getElem? (i := k) (by rw [List.getElem?_tail, hx]))
  · obtain ⟨i, hincluded, -, hentry⟩ := held (k + 1) e (by omega) hk
    rw [Raft.Raftserver.entryAt, Raft.deref] at hentry
    obtain ⟨-, hentry⟩ := Option.ite_none_right_eq_some.mp hentry
    refine commands.logs i e (List.mem_of_getElem?
      (i := ((c.nodes i).rf.globalToLocal ↑(k + 1)).toNat - 1) ?_)
    rw [List.getElem?_tail, ← Option.join_eq_some_iff.mp hentry]
    congr 1
    rw [Raft.Raftserver.globalToLocal]
    omega

end Log

/-! ## What `ApplyHandler` answers -/

namespace KVServer

variable {codec : Labgob} {kv : KVServer} {msg : ApplyMsg}
  {result : KVServer × Option ServerResponse}

/-- A response means that a command was new. -/
theorem applyHandler_answered (h : kv.applyHandler codec msg = some result)
    {resp : ServerResponse} (answered : result.2 = some resp) :
    msg.commandValid = true ∧ kv.lastApplied < msg.commandIndex ∧
      ∃ op, msg.command = some op ∧
        kv.applyCommand msg.commandIndex op msg.snapshotTerm = (result.1, resp) := by
  cases applies_of_applyHandler h with
  | passed | snapshot => cases answered
  | command valid isNew command =>
      cases answered
      exact ⟨valid, isNew, _, command, rfl⟩

/-- The applied index only moves to the index of the message. -/
theorem applyHandler_lastApplied (h : kv.applyHandler codec msg = some result) :
    result.1.lastApplied = kv.lastApplied ∨
      (msg.commandValid = true ∧ result.1.lastApplied = msg.commandIndex) ∨
      result.1.lastApplied = msg.snapshotIndex := by
  cases applies_of_applyHandler h with
  | passed => exact .inl rfl
  | command valid => exact .inr (.inl ⟨valid, applyCommand_lastApplied _ _ _ _⟩)
  | snapshot => exact .inr (.inr rfl)

/-- An executed command has left `incrMapLogIdx`, so that the last part of the branch does
nothing more. -/
theorem executeNew_outcome {op : Op} {term : Int} {executed : KVServer × ServerResponse}
    (h : kv.executeNew op term = executed) :
    executed.1.incrMapLogIdx.lookup executed.2.incrId = none ∧
      (executed.2 = answer kv.db op ∨
        executed.2 = { answer kv.db op with err := errLeaderChanged }) := by
  unfold executeNew dbExecute at h
  dsimp only at h
  split at h
  · cases h
    exact ⟨‹_›, .inl rfl⟩
  · split at h
    · cases h
      exact ⟨Finmap.lookup_erase _ _, .inr rfl⟩
    · cases h
      exact ⟨Finmap.lookup_erase _ _, .inl rfl⟩

/-- The response to an executed command is that of the database, except that a leader which
had started it in another term reports an error. -/
theorem applyCommand_resp {index : Int} {op : Op} {term : Int} (needs : kv.needs op = true) :
    (kv.applyCommand index op term).2 = answer kv.db op ∨
      (kv.applyCommand index op term).2 = { answer kv.db op with err := errLeaderChanged } := by
  have hneeds : KVServer.needs { kv with lastApplied := index } op = true := needs
  obtain ⟨gone, outcome⟩ := executeNew_outcome
    (rfl : KVServer.executeNew { kv with lastApplied := index } op term = _)
  unfold applyCommand
  dsimp only
  rw [if_pos hneeds, finishCommand, gone]
  exact outcome

end KVServer

/-- The read that `handleReadQue` is about to execute. -/
def Reader.serving? {n : Nat} : Reader n → Option (Read × Option Int)
  | .serving read found => some (read, found)
  | _ => none

namespace System

variable {n : Nat} {codec : Labgob} {h h' : Raft.History n} {s t : System n} {a : Action n}
  {x y : List Entry} {P : Op → Prop} {ok : System n → Action n → Prop} {committed : List Op}

/-- The answers are those of the sequential execution of the log. -/
def Answered (committed : List Op) (s : System n) : Prop :=
  ∀ a ∈ s.answers, 1 ≤ a.1 ∧ ∃ op, committed[(a.1 - 1).toNat]? = some op ∧
    (a.2 = KVServer.answer (stateAt committed (a.1 - 1)) op ∨
      a.2 = { KVServer.answer (stateAt committed (a.1 - 1)) op with err := errLeaderChanged })

/-- Every snapshot, wherever it is, encodes the state after the commands it includes. -/
structure Snapshots (codec : Labgob) (committed : List Op) (s : System n) : Prop where
  nodes : ∀ i, Encodes codec committed (s.raft.nodes i).rf.lastIncludedIndex
    (s.raft.nodes i).rf.snapShot
  requests : ∀ r ∈ s.raft.installReqs,
    Encodes codec committed r.args.lastIncludedIndex r.args.data
  handing : ∀ i, ∀ taken ∈ (s.services i).handing, Encodes codec committed taken.1 taken.2

theorem snapshots_init (codec : Labgob) (committed : List Op) :
    Snapshots codec committed (init n) := by
  constructor <;> simp [init, Cluster.init, Cluster.initServer, Encodes]

/-- A section of Raft copies snapshots, but for the one it is handed. -/
theorem Snapshots.raft (snapshots : Snapshots codec committed s) {b : Raft.Action n}
    (moved : s.raft.step b = some t.raft)
    (new : ∀ i index data, b = .snapshot i index data → Encodes codec committed index data)
    (handing : ∀ i, ∀ taken ∈ (t.services i).handing, Encodes codec committed taken.1 taken.2) :
    Snapshots codec committed t where
  nodes i := by
    have traces := Cluster.step_traces moved
    rcases (traces.nodes i).snapshot with ⟨hincluded, hsnapshot⟩ | handed
    · rw [hincluded, hsnapshot]
      exact snapshots.nodes i
    · generalize (t.raft.nodes i).rf.lastIncludedIndex = index,
        (t.raft.nodes i).rf.snapShot = data at handed
      cases handed with
      | snapshot => exact new i index data rfl
      | install sent _ => exact snapshots.requests _ sent
  requests r hr := by
    rcases (Cluster.step_traces moved).install r hr with old | ⟨i, e, -, -, hindex, hdata⟩
    · exact snapshots.requests r old
    · rw [hindex, hdata]
      exact snapshots.nodes i
  handing := handing

/-- The snapshot that `ApplyHandler` takes after a command. -/
theorem encodes_snapshot (lawful : codec.Lawful) {kv : KVServer} (current : Current committed kv) :
    Encodes codec committed kv.lastApplied (kv.snapshot codec) := by
  rw [Encodes, KVServer.snapshot, if_neg (lawful.encode_ne_nil _ _)]
  exact ⟨_, _, lawful.decode_encode _ _, current.db, current.history⟩

theorem Snapshots.step (lawful : codec.Lawful) (snapshots : Snapshots codec committed s)
    (inStep : t.InStep codec committed) (effect : Effect codec s a t) :
    Snapshots codec committed t := by
  cases effect with
  | server raft keeps =>
      refine ⟨raft ▸ snapshots.nodes, raft ▸ snapshots.requests, fun i taken htaken => ?_⟩
      rw [(keeps.services i).handing] at htaken
      exact snapshots.handing i taken htaken
  | raft moved guards other started keeps =>
      refine snapshots.raft moved (fun i index data h => absurd h (other i index data))
        fun i taken htaken => ?_
      rw [(keeps.services i).handing] at htaken
      exact snapshots.handing i taken htaken
  | @applyHandler i takesSnapshot _ msg result handing first moved applied handed services answers =>
      refine snapshots.raft moved (by simp) fun j taken htaken => ?_
      by_cases hj : j = i
      · subst hj
        have current := (inStep j).current
        rw [services, setService_same] at htaken current
        obtain ⟨hsome, rfl⟩ := handed taken htaken
        obtain ⟨resp, hresp⟩ := Option.isSome_iff_exists.mp hsome
        obtain ⟨-, -, op, -, hresult⟩ := KVServer.applyHandler_answered applied hresp
        have hlast := KVServer.applyCommand_lastApplied (s.services j).kv msg.commandIndex op
          msg.snapshotTerm
        rw [hresult] at hlast
        exact hlast ▸ encodes_snapshot lawful current
      · rw [services, setService_ne s _ hj] at htaken
        exact snapshots.handing j taken htaken
  | @snapshot i taken _ handing moved services answers =>
      refine snapshots.raft moved (fun j index data heq => ?_) fun j => ?_
      · cases heq
        exact snapshots.handing i taken handing
      · rw [services]
        refine setService_cases j (fun other hother => ?_) fun _ => snapshots.handing j
        cases hother

/-- A new answer is that of the next command. -/
theorem Answered.step (increase : Increasing committed) (answered : Answered committed s)
    (inStep : s.InStep codec committed) (effect : Effect codec s a t) : Answered committed t := by
  cases effect with
  | server raft keeps => exact fun a ha => answered a (keeps.answers ▸ ha)
  | raft moved guards other started keeps => exact fun a ha => answered a (keeps.answers ▸ ha)
  | snapshot handing moved services answers => exact fun a ha => answered a (answers ▸ ha)
  | @applyHandler i takesSnapshot _ msg result handing first moved applied handed services answers =>
      intro a ha
      rw [answers] at ha
      rcases List.mem_append.mp ha with ha | ha
      · obtain ⟨resp, hresp, rfl⟩ := Option.map_eq_some_iff.mp (Option.mem_toList.mp ha)
        obtain ⟨valid, newer, op, hop, hresult⟩ := KVServer.applyHandler_answered applied hresp
        have current := (inStep i).current
        rcases (inStep i).channel msg (List.mem_of_head? first) with ⟨isCommand, next⟩ | isSnapshot
        · obtain ⟨op', hop', hentry⟩ := isCommand.command
          cases hop.symm.trans hop'
          have hindex : msg.commandIndex - 1 = (s.services i).kv.lastApplied := by omega
          have needs : (s.services i).kv.needs op = true :=
            needs_of_within increase current.history (hindex ▸ hentry)
          refine ⟨isCommand.positive, op, hentry, ?_⟩
          rw [show resp = ((s.services i).kv.applyCommand msg.commandIndex op msg.snapshotTerm).2 by
            rw [hresult], hindex, ← current.db]
          exact KVServer.applyCommand_resp needs
        · rw [isSnapshot.command] at valid
          cases valid
      · exact answered a ha

/-! ## The invariant -/

/-- The servers are in step with every continuation of the committed log `x`. -/
structure Follows (codec : Labgob) (x : List Entry) (s : System n) : Prop where
  inStep : ∀ committed, commandsOf x <+: committed → Increasing committed →
    s.InStep codec committed
  snapshots : ∀ committed, commandsOf x <+: committed → Increasing committed →
    Snapshots codec committed s
  answered : ∀ committed, commandsOf x <+: committed → Increasing committed →
    Answered committed s

/-- The cluster has the committed log `x`, whose commands satisfy `P`. No server is ahead of
it, and none will be with what is on its way. -/
structure Commits (P : Op → Prop) (h : Raft.History n) (x : List Entry) (s : System n) : Prop where
  sim : Sim h s.raft
  log : CommittedLog h s.raft x
  filled : Filled P x
  commands : Commands P s.raft
  handler : ∀ i op, (s.services i).opHandler.op = some op → P op
  traffic : ∀ i, ∀ msg ∈ (s.raft.nodes i).traffic, msg.snapshotIndex < x.length
  applied : ∀ i, (s.services i).kv.lastApplied < x.length

/-- The operations in the queues satisfy `P`. -/
def Submits (P : Op → Prop) : Action n → Prop
  | .handleOpQue _ op => P op
  | _ => True

theorem Commits.nonempty (commits : Commits P h x s) (i : Fin n) : 0 < x.length := by
  have := commits.log.reaches _ (.commit i)
  have := (commits.sim.nodes i).commit_nonneg
  omega

theorem Commits.fixed (commits : Commits P h x s) (begins : commandsOf x <+: committed)
    (i : Fin n) : Fixed committed (s.raft.nodes i).rf :=
  fixed_of_committedLog commits.log commits.sim commits.filled begins i

/-- A section of Raft, with what it makes of the committed log. -/
theorem Commits.raft (hn : Odd n) (inv : s.raft.VoteInv) (commits : Commits P h x s)
    {b : Raft.Action n} (guarded : Guarded s.raft b)
    (started : ∀ i op, b = .start i op → (s.services i).opHandler.op = some op)
    (moved : s.raft.step b = some t.raft)
    (handler : ∀ i op, (t.services i).opHandler.op = some op → P op)
    (applied : ∀ i, (t.services i).kv.lastApplied < x.length) :
    t.raft.VoteInv ∧ ∃ h' y, x <+: y ∧ Adds x y t.raft ∧ Commits P h' y t := by
  obtain ⟨h', grows, sim'⟩ := commits.sim.step hn inv guarded moved
  have spreads := commits.sim.spreads hn inv guarded moved
  obtain ⟨y, begins, log', held⟩ := commits.log.step commits.sim grows spreads
  have hlen := begins.length_le
  have nonempty := commits.nonempty ⟨0, Raft.pos_of_odd hn⟩
  have commands := commits.commands.step commits.sim guarded
    (fun i op h => commits.handler i op (started i op h)) moved
  refine ⟨inv.step hn guarded.countsOwnTerm moved, h', y, begins, held, sim', log',
    commits.filled.extend commands begins held, commands, handler, fun i msg hmsg => ?_, fun i => lt_of_lt_of_le (applied i) (by exact_mod_cast hlen)⟩
  rcases (Cluster.step_traces moved).messages i msg hmsg with old | new
  · have := commits.traffic i msg old
    omega
  · cases new with
    | command _ _ hindex _ =>
        rw [hindex]
        omega
    | snapshot sent _ hindex _ =>
        rw [hindex]
        have := commits.log.reaches _ (.install sent)
        omega

/-- A section extends the committed log. -/
theorem Commits.step (hn : Odd n) (inv : s.raft.VoteInv) (commits : Commits P h x s)
    (guards : Guards s a) (submits : Submits P a) (effect : Effect codec s a t) :
    t.raft.VoteInv ∧ ∃ h' y, x <+: y ∧ Adds x y t.raft ∧ Commits P h' y t := by
  have submitted : ∀ i op, (t.services i).opHandler.op = some op → P op := by
    intro i op hop
    rcases (effect.passes i).handler op hop with old | rfl
    · exact commits.handler i op old
    · exact submits
  cases effect with
  | server raft keeps =>
      have nothing : Adds x x t.raft := fun k e hk he => by
        have := (List.getElem?_eq_some_iff.mp he).1
        omega
      exact ⟨raft ▸ inv, h, x, List.prefix_rfl, nothing, raft ▸ commits.sim, raft ▸ commits.log,
        commits.filled, raft ▸ commits.commands, submitted, raft ▸ commits.traffic,
        fun i => (keeps.services i).lastApplied ▸ commits.applied i⟩
  | raft moved guarded other started keeps =>
      exact commits.raft hn inv (guarded guards) started moved submitted
        fun i => (keeps.services i).lastApplied ▸ commits.applied i
  | @applyHandler i takesSnapshot _ msg result handing first moved applied handed services answers =>
      refine commits.raft hn inv (b := .applyHandler i) trivial (by simp) moved submitted
        fun j => ?_
      rw [services]
      by_cases hj : j = i
      · subst hj
        rw [setService_same]
        have here := List.mem_of_head? first
        rcases KVServer.applyHandler_lastApplied applied with hlast | ⟨valid, hlast⟩ | hlast <;>
          dsimp only <;> rw [hlast]
        · exact commits.applied j
        · exact commits.log.reaches _ (.delivery (List.mem_append_right _ here) valid)
        · exact commits.traffic j msg (List.mem_append_right _ here)
      · rw [setService_ne s _ hj]
        exact commits.applied j
  | @snapshot i taken _ handing moved services answers =>
      refine commits.raft hn inv (b := .snapshot i taken.1 taken.2) trivial (by simp) moved
        submitted fun j => ?_
      rw [services]
      exact setService_cases j (commits.applied i) fun _ => commits.applied j

/-- What is assumed of a run in `InStep.step` holds in every guarded run. -/
theorem Commits.assumed (commits : Commits P h x s) (begins : commandsOf x <+: committed)
    (snapshots : Snapshots codec committed s) (hstep : s.step codec a = some t) :
    Assumed codec committed s a := by
  refine ⟨commits.fixed begins, ?_⟩
  split
  · rename_i r
    obtain ⟨raft, hraft, -⟩ := Option.map_eq_some_iff.mp hstep
    obtain ⟨sent, -⟩ := Option.ite_none_right_eq_some.mp hraft
    exact snapshots.requests r sent
  · trivial

/-- The servers stay in step with what goes on from the longer log. -/
theorem Follows.step (lawful : codec.Lawful) (commits : Commits P h x s)
    (follows : Follows codec x s) (begins : x <+: y) (orderly : Orderly s a)
    (hstep : s.step codec a = some t) : Follows codec y t := by
  have effect := step_effect hstep
  have inStep (committed : List Op) (hy : commandsOf y <+: committed)
      (increase : Increasing committed) : t.InStep codec committed := by
    have hx := (commandsOf_mono begins).trans hy
    exact (follows.inStep committed hx increase).step increase
      (commits.assumed hx (follows.snapshots committed hx increase) hstep) orderly hstep
  refine ⟨inStep, fun committed hy increase => ?_, fun committed hy increase => ?_⟩
  · have hx := (commandsOf_mono begins).trans hy
    exact (follows.snapshots committed hx increase).step lawful (inStep committed hy increase) effect
  · have hx := (commandsOf_mono begins).trans hy
    exact (follows.answered committed hx increase).step increase
      (follows.inStep committed hx increase) effect

/-- Each entry of the log behind the placeholder was committed by a node in a state of the
run. -/
def Recorded (codec : Labgob) (ok : System n → Action n → Prop) (x : List Entry) (s : System n) :
    Prop :=
  ∀ (k : Nat) e, 0 < k → x[k]? = some e → ∃ r, Reaches (step codec) ok (init n) r ∧
    Reaches (step codec) ok r s ∧ ∃ i, (r.raft.nodes i).rf.HasCommitted k e

theorem Recorded.step (recorded : Recorded codec ok x s) (reached : Reaches (step codec) ok (init n) s)
    (allowed : ok s a) (taken : s.step codec a = some t) (begins : x <+: y)
    (adds : Adds x y t.raft) : Recorded codec ok y t := by
  intro k e hk he
  by_cases hlt : k < x.length
  · have hx : x[k]? = some e := by
      rw [List.getElem?_eq_getElem hlt, ← he]
      exact (Ledger.prefix_getElem? begins (List.getElem?_eq_getElem hlt)).symm
    obtain ⟨r, before, after, committed⟩ := recorded k e hk hx
    exact ⟨r, before, .tail after allowed taken, committed⟩
  · exact ⟨t, .tail reached allowed taken, .refl, adds k e (not_lt.mp hlt) he⟩

/-- The cluster agrees on a log, and the servers follow it. -/
def Replicated (codec : Labgob) (P : Op → Prop) (ok : System n → Action n → Prop) (s : System n) :
    Prop :=
  s.raft.VoteInv ∧ ∃ h x, Commits P h x s ∧ Follows codec x s ∧ Recorded codec ok x s

theorem replicated_init (codec : Labgob) (hn : Odd n) (P : Op → Prop) :
    Replicated codec P ok (init n) := by
  refine ⟨Cluster.voteInv_init n, _, _, ⟨Raft.sim_init n, Raft.committedLog_init hn, ?_,
    Raft.commands_init P, ?_, ?_, ?_⟩, ⟨fun _ _ _ => inStep_init n,
    fun committed _ _ => snapshots_init codec committed, fun _ _ _ a ha => by cases ha⟩, ?_⟩
  · intro e he
    cases he
  · intro i op hop
    cases hop
  · intro i msg hmsg
    simp [init, Cluster.init, Raft.Node.traffic, Raft.Node.messages,
      Raft.Checker.messages] at hmsg
  · intro i
    exact Int.zero_lt_one
  · intro k e hk he
    have := (List.getElem?_eq_some_iff.mp he).1
    rw [show Raft.root.length = 1 from rfl] at this
    omega

theorem Replicated.step (lawful : codec.Lawful) (hn : Odd n)
    (reached : Reaches (step codec) ok (init n) s) (replicated : Replicated codec P ok s)
    (allowed : ok s a) (guards : Guards s a) (orderly : Orderly s a)
    (submits : Submits P a) (hstep : s.step codec a = some t) : Replicated codec P ok t := by
  obtain ⟨inv, h, x, commits, follows, recorded⟩ := replicated
  obtain ⟨inv', h', y, begins, adds, commits'⟩ :=
    commits.step hn inv guards submits (step_effect hstep)
  exact ⟨inv', h', y, commits', follows.step lawful commits begins orderly hstep,
    recorded.step reached allowed hstep begins adds⟩

/-- The invariant of the runs, with whatever else is known of their steps. -/
theorem Replicated.of_reaches (lawful : codec.Lawful) (hn : Odd n)
    (reached : Reaches (System.step codec) ok (init n) s)
    (respects : ∀ s a, ok s a → Guards s a ∧ Orderly s a ∧ Submits P a) :
    Replicated codec P ok s := by
  refine reached.invariant (replicated_init codec hn P) ?_
  intro s a t reached replicated allowed taken
  obtain ⟨guards, orderly, submits⟩ := respects s a allowed
  exact replicated.step lawful hn reached allowed guards orderly submits taken

/-- The commands that the nodes have committed on the way to `s`: as many as the largest
commit index says, and each one was committed by a node at its index in a state of
the run. -/
structure CommittedBy (codec : Labgob) (ok : System n → Action n → Prop) (s : System n)
    (committed : List Op) : Prop where
  attained : ∃ i, (s.raft.nodes i).rf.commitIndex = committed.length
  reaches : ∀ i, (s.raft.nodes i).rf.commitIndex ≤ committed.length
  each : ∀ (k : Nat) op, committed[k]? = some op → ∃ r, Reaches (step codec) ok (init n) r ∧
    Reaches (step codec) ok r s ∧ ∃ i e, (r.raft.nodes i).rf.HasCommitted (k + 1) e ∧
      e.command = some op

theorem Commits.length (commits : Commits P h x s) (i : Fin n) :
    ((commandsOf x).length : Int) = x.length - 1 := by
  have := commits.nonempty i
  rw [commandsOf, List.length_map, List.length_tail]
  omega

theorem Commits.committedBy (commits : Commits P h x s) (recorded : Recorded codec ok x s) :
    CommittedBy codec ok s (commandsOf x) where
  attained := by
    obtain ⟨i, hi⟩ := commits.log.attained
    have := commits.log.reaches _ (.commit i)
    exact ⟨i, by rw [commits.length i]; omega⟩
  reaches i := by
    have := commits.log.reaches _ (.commit i)
    rw [commits.length i]
    omega
  each k op hop := by
    rw [commandsOf, List.getElem?_map, List.getElem?_tail] at hop
    obtain ⟨e, he, rfl⟩ := Option.map_eq_some_iff.mp hop
    obtain ⟨r, before, after, i, committed⟩ := recorded (k + 1) e (Nat.succ_pos k) he
    refine ⟨r, before, after, i, e, by exact_mod_cast committed, ?_⟩
    obtain ⟨op, hcommand, -⟩ := commits.filled e
      (List.mem_of_getElem? (i := k) (by rw [List.getElem?_tail, he]))
    rw [hcommand]
    rfl

/-- **One copy.** In every guarded run in which no snapshot is overtaken, the list of the
committed commands, all of them submitted, is what every node has committed a part of. If
the `IncrId`s of each clerk increase along it, then every server has the database of its
first `lastApplied` commands, and every answer is that of the sequential execution. -/
theorem one_copy (codec : Labgob) (lawful : codec.Lawful) (hn : Odd n)
    (P : Op → Prop)
    (reached : Reaches (step codec) (fun s a => Guards s a ∧ Orderly s a ∧ Submits P a)
      (init n) s) :
    ∃ committed : List Op,
      CommittedBy codec (fun s a => Guards s a ∧ Orderly s a ∧ Submits P a) s committed ∧
      (∀ op ∈ committed, P op) ∧
      (∀ i, Fixed committed (s.raft.nodes i).rf) ∧
      (∀ i, (s.services i).kv.lastApplied ≤ committed.length) ∧
      (Increasing committed →
        (∀ i, (s.services i).kv.db = stateAt committed (s.services i).kv.lastApplied) ∧
        ∀ a ∈ s.answers, 1 ≤ a.1 ∧ ∃ op, committed[(a.1 - 1).toNat]? = some op ∧
          (a.2 = KVServer.answer (stateAt committed (a.1 - 1)) op ∨
            a.2 = { KVServer.answer (stateAt committed (a.1 - 1)) op with
              err := errLeaderChanged })) := by
  obtain ⟨-, h, x, commits, follows, recorded⟩ :=
    Replicated.of_reaches lawful hn reached fun _ _ allowed => allowed
  refine ⟨commandsOf x, commits.committedBy recorded, fun op hop => commits.filled.mem hop,
    commits.fixed List.prefix_rfl, fun i => ?_, fun increase => ⟨fun i => ?_, ?_⟩⟩
  · have hlt := commits.applied i
    rw [commits.length i]
    omega
  · exact (follows.inStep _ List.prefix_rfl increase i).current.db
  · exact follows.answered _ List.prefix_rfl increase

/-! ## Reads -/

/-- Everything that a read was dispatched after has been answered. -/
def Dispatched (s : System n) : Prop :=
  ∀ i, ∀ read ∈ (s.services i).reads, ∀ a ∈ read.before, a ∈ s.answers

theorem Dispatched.step (dispatched : Dispatched s) (effect : Effect codec s a t) :
    Dispatched t := by
  intro i next hnext answer hanswer
  refine effect.answers_suffix.subset ?_
  rcases (effect.passes i).reads next hnext with ⟨read, hread, -, hbefore⟩ | ⟨-, hbefore⟩
  · exact dispatched i read hread answer (hbefore ▸ hanswer)
  · exact hbefore ▸ hanswer

/-- The section that executes a read. -/
theorem serveRead_some {i : Fin n} {read : Read} {found : Option Int}
    (serving : (s.services i).reader = .serving read found) {resp : ServerResponse}
    (served : ((s.services i).kv.serveRead read.op (found.getD
      (((s.services i).kv.incrMapLogIdx.lookup read.op.incrId).getD 0))).2 = some resp) :
    resp = KVServer.answer (s.services i).kv.db read.op ∧
      ∃ t, s.serveRead i = some t ∧ (read, (s.services i).kv.lastApplied) ∈ t.reads := by
  refine ⟨?_, ?_⟩
  · unfold KVServer.serveRead at served
    split at served
    · exact (Option.some.inj served).symm
    · cases served
  · unfold System.serveRead
    rw [serving]
    refine ⟨_, rfl, ?_⟩
    dsimp only
    rw [served]
    exact List.mem_cons_self

/-- **Reads of the one copy.** If the reads of the run are careful too, then the response to a
read is that of the sequential execution after `lastApplied` commands, and all commands
that any server had answered when the read came in are among them. -/
theorem read_of_one_copy (codec : Labgob) (lawful : codec.Lawful) (hn : Odd n)
    (P : Op → Prop)
    (reached : Reaches (step codec)
      (fun s a => Guards s a ∧ Careful s a ∧ Orderly s a ∧ Submits P a) (init n) s)
    {i : Fin n} {read : Read} {found : Option Int}
    (serving : (s.services i).reader = .serving read found) (careful : Careful s (.serveRead i))
    {resp : ServerResponse}
    (served : ((s.services i).kv.serveRead read.op (found.getD
      (((s.services i).kv.incrMapLogIdx.lookup read.op.incrId).getD 0))).2 = some resp) :
    ∃ committed : List Op,
      CommittedBy codec (fun s a => Guards s a ∧ Careful s a ∧ Orderly s a ∧ Submits P a) s
        committed ∧
      (∀ op ∈ committed, P op) ∧
      (∀ j, Fixed committed (s.raft.nodes j).rf) ∧
      (s.services i).kv.lastApplied ≤ committed.length ∧
      (Increasing committed →
        resp = KVServer.answer (stateAt committed (s.services i).kv.lastApplied) read.op ∧
        ∀ a ∈ read.before, 1 ≤ a.1 ∧ a.1 ≤ (s.services i).kv.lastApplied ∧
          ∃ op, committed[(a.1 - 1).toNat]? = some op ∧
            (a.2 = KVServer.answer (stateAt committed (a.1 - 1)) op ∨
              a.2 = { KVServer.answer (stateAt committed (a.1 - 1)) op with
                err := errLeaderChanged })) := by
  obtain ⟨-, h, x, commits, follows, recorded⟩ :=
    Replicated.of_reaches lawful hn reached fun _ _ allowed => ⟨allowed.1, allowed.2.2⟩
  obtain ⟨sound, dispatched⟩ : Sound s ∧ Dispatched s := by
    refine reached.invariant (I := fun s => Sound s ∧ Dispatched s)
      ⟨sound_init n, fun i read hread => by cases hread⟩ ?_
    rintro s a t - ⟨sound, dispatched⟩ ⟨guards, careful, -, -⟩ taken
    exact ⟨sound.step hn guards careful taken, dispatched.step (step_effect taken)⟩
  obtain ⟨hresp, t, hserve, hread⟩ := serveRead_some serving served
  have hstep : s.step codec (.serveRead i) = some t := hserve
  obtain ⟨-, h', -, readInv⟩ := sound.step hn (a := .serveRead i) trivial careful hstep
  have covers := readInv.reads _ hread
  have here : read ∈ (s.services i).reads :=
    List.mem_append_right _ (by rw [serving]; exact List.mem_singleton.mpr rfl)
  refine ⟨commandsOf x, commits.committedBy recorded, fun op hop => commits.filled.mem hop,
    commits.fixed List.prefix_rfl, ?_, fun increase => ⟨?_, fun a ha => ?_⟩⟩
  · have hlt := commits.applied i
    rw [commits.length i]
    omega
  · rw [hresp, (follows.inStep _ List.prefix_rfl increase i).current.db]
  · obtain ⟨hpos, hop⟩ := follows.answered _ List.prefix_rfl increase a
      (dispatched i read here a ha)
    exact ⟨hpos, covers a ha, hop⟩

/-! ## Runs of three nodes -/

/-- Snapshots are countable, so there is a codec for them. -/
theorem exists_lawful : ∃ codec : Labgob, codec.Lawful := by
  have : Countable UInt8 :=
    Function.Injective.countable (f := UInt8.toNat) fun _ _ => UInt8.toNat_inj.mp
  have : Countable UInt32 :=
    Function.Injective.countable (f := UInt32.toNat) fun _ _ => UInt32.toNat_inj.mp
  have : Countable UInt64 :=
    Function.Injective.countable (f := UInt64.toNat) fun _ _ => UInt64.toNat_inj.mp
  have : Countable Int32 :=
    Function.Injective.countable (f := Int32.toInt) fun _ _ => Int32.toInt_inj.mp
  have : Countable DB :=
    Function.Injective.countable (f := Finmap.entries) fun _ _ => Finmap.ext
  have : Countable ServerResponse := by
    refine Function.Injective.countable (f := fun r : ServerResponse =>
      (r.opId, r.dataLen, r.incrId, r.clerkId, r.serverId, r.err, r.data)) fun r r' h => ?_
    cases r
    cases r'
    simpa using h
  have : Countable History :=
    Function.Injective.countable (f := Finmap.entries) fun _ _ => Finmap.ext
  obtain ⟨f, injective⟩ := exists_injective_nat (DB × History)
  refine ⟨{ encode := fun db history => List.replicate (f (db, history) + 1) 0
            decode := fun data => Function.partialInv f (data.length - 1) }, ?_, ?_⟩
  · intro db history
    dsimp only
    rw [List.length_replicate, Nat.add_sub_cancel]
    exact Function.partialInv_left injective _
  · intro db history
    exact List.cons_ne_nil _ _

noncomputable def someCodec : Labgob := exists_lawful.choose

instance (P : Op → Prop) [DecidablePred P] : ∀ a : Action n, Decidable (Submits P a)
  | .handleOpQue _ op => inferInstanceAs (Decidable (P op))
  | .raft _ | .applyHandler _ _ | .snapshot _ | .dispatch _ | .recordTerm _ | .takeRead _
  | .lookUp _ | .getState _ | .singleHeartBeat _ | .confirmLeader _ _ | .sendCommitIndex _
  | .commitIndexError _ | .commitIndexReply _ | .recordIndex _ | .serveRead _ => isTrue trivial

theorem increasing_of_length_le {committed : List Op} (h : committed.length ≤ 1) :
    Increasing committed := by
  match committed, h with
  | [], _ => exact List.Pairwise.nil
  | [op], _ => exact List.pairwise_singleton _ op

/-- The leader has answered the first write, and its database is that of the write. -/
theorem one_copy_first_write :
    ∃ s : System 3, Reaches (step someCodec)
        (fun s a => Guards s a ∧ Orderly s a ∧ Submits (· = firstWrite) a) (init 3) s ∧
      s.answers ≠ [] ∧ (s.services 0).kv.db = stateAt [firstWrite] 1 := by
  have ended : ∃ s : System 3, Reaches (step someCodec)
      (fun s a => Guards s a ∧ Orderly s a ∧ Submits (· = firstWrite) a) (init 3) s ∧
      s.answers ≠ [] ∧ (s.services 0).kv.lastApplied = 1 ∧
      ∀ i, (s.raft.nodes i).rf.commitIndex ≤ 1 :=
    exists_reaches (fun s : System 3 => s.answers ≠ [] ∧ (s.services 0).kv.lastApplied = 1 ∧
      ∀ i, (s.raft.nodes i).rf.commitIndex ≤ 1)
      (leadFirst ++ applyFirst) (by decide +kernel) (by decide +kernel)
  obtain ⟨s, reached, hanswers, hlast, hcommit⟩ := ended
  obtain ⟨committed, ⟨⟨i, attained⟩, -, -⟩, hP, -, hlength, hcopy⟩ :=
    one_copy someCodec exists_lawful.choose_spec (by decide) _ reached
  have hlength := hlength 0
  have hcommit := hcommit i
  obtain ⟨op, rfl⟩ := List.length_eq_one_iff.mp (show committed.length = 1 by omega)
  rw [hP op List.mem_cons_self] at hcopy
  exact ⟨s, reached, hanswers, hlast ▸ (hcopy (increasing_of_length_le le_rfl)).1 0⟩

/-- The leader is about to execute a read that came in after an answer. -/
def AboutToRead (s : System 3) : Prop :=
  ∃ p ∈ (s.services 0).reader.serving?, p.1.before ≠ [] ∧ (s.services 0).kv.lastApplied = 1 ∧
    (∀ i, (s.raft.nodes i).rf.commitIndex ≤ 1) ∧ Careful s (.serveRead 0) ∧
    ((s.services 0).kv.serveRead p.1.op (p.2.getD
      (((s.services 0).kv.incrMapLogIdx.lookup p.1.op.incrId).getD 0))).2.isSome = true

instance (s : System 3) : Decidable (AboutToRead s) :=
  inferInstanceAs (Decidable (∃ p ∈ (s.services 0).reader.serving?, _))

/-- The leader serves a read after the first write. -/
theorem read_of_one_copy_first_leader :
    ∃ s : System 3, Reaches (step someCodec)
        (fun s a => Guards s a ∧ Careful s a ∧ Orderly s a ∧
          Submits (· ∈ [firstWrite, readKey]) a) (init 3) s ∧
      ∃ read found resp, (s.services 0).reader = .serving read found ∧ read.before ≠ [] ∧
        ((s.services 0).kv.serveRead read.op (found.getD
          (((s.services 0).kv.incrMapLogIdx.lookup read.op.incrId).getD 0))).2 = some resp ∧
        ∃ op ∈ [firstWrite, readKey], resp = KVServer.answer (stateAt [op] 1) read.op := by
  have ended : ∃ s : System 3, Reaches (step someCodec)
      (fun s a => Guards s a ∧ Careful s a ∧ Orderly s a ∧
        Submits (· ∈ [firstWrite, readKey]) a) (init 3) s ∧ AboutToRead s :=
    exists_reaches AboutToRead
      (leadFirst ++ applyFirst ++ beginRead 0 ++ inRaft [.heartBeat ⟨2, Raft.upToDateBeat⟩] ++
        [.confirmLeader 0 [2], .recordIndex 0]) (by decide +kernel) (by decide +kernel)
  obtain ⟨s, reached, ⟨read, found⟩, hserving, hbefore, hlast, hcommit, careful, hserved⟩ := ended
  obtain ⟨resp, hresp⟩ := Option.isSome_iff_exists.mp hserved
  have serving : (s.services 0).reader = .serving read found := by
    cases hreader : (s.services 0).reader with
    | serving read' found' =>
        rw [hreader] at hserving
        cases hserving
        rfl
    | _ =>
        rw [hreader] at hserving
        cases hserving
  obtain ⟨committed, ⟨⟨i, attained⟩, -, -⟩, hP, -, hlength, hcopy⟩ :=
    read_of_one_copy someCodec exists_lawful.choose_spec (by decide) _ reached serving
      careful hresp
  have hcommit := hcommit i
  obtain ⟨op, rfl⟩ := List.length_eq_one_iff.mp (show committed.length = 1 by omega)
  exact ⟨s, reached, read, found, resp, serving, hbefore, hresp, op, hP op List.mem_cons_self,
    hlast ▸ (hcopy (increasing_of_length_le le_rfl)).1⟩

end System

end RaftKv.Server
