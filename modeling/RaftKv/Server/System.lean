import RaftKv.Raft.Cluster
import RaftKv.Server.KVServer

/-!
# Key-value servers on a Raft cluster

Every node of the cluster runs a server above its peer. The server has three
goroutines: `handleOpQue`, `handleReadQue` and `ApplyHandler`. An action of the system
is one section of a goroutine that holds `kv.mu` or `rf.mu`, and what a goroutine
remembers between its sections is its position.

A section that calls into Raft is the same step of the cluster that the call is, so
forgetting the servers turns a run of the system into a run of the cluster.

Clients are not modelled: any operation may be in `processQue` at any time. The time
stamps of the channels and whether the raft state is large enough for a snapshot are
arguments of the actions.
-/

namespace RaftKv.Server

open RaftKv.Raft (Bytes Op Entry ApplyMsg Cluster Rpc AppendEntriesArgs GetCommitIndexReply)

/-- A command that was applied at an index, with the response of `ApplyHandler`. -/
abbrev Answer := Int × ServerResponse

/-- A `GET` in `readQue`. Two history variables go with it: the answers that had been
given when it was put there, and the index it has recorded in `incrMapLogIdx`. -/
structure Read where
  op : Op
  isGet : op.optype = opGet
  before : List Answer
  recorded : Option Int := none
  deriving DecidableEq

/-- The position of `handleOpQue`: between the lookup in `history` and `Start`, or
between `Start` and the record of the term that it has returned. -/
inductive OpHandler where
  | idle
  | checked (op : Op)
  | started (op : Op) (term : Int)
  deriving DecidableEq

/-- The position of `handleReadQue`. After `GetState` the term of the leader goes along
as a history variable. A round of `SingleHeartBeat` knows its requests and how many
replies to heartbeats existed before it. -/
inductive Reader (n : Nat) where
  | idle
  | looking (read : Read)
  | asking (read : Read)
  | confirming (read : Read) (startCommitIdx term : Int)
  | beating (read : Read) (startCommitIdx term : Int) (beats : List (Rpc n AppendEntriesArgs))
      (seen : Nat)
  | following (read : Read)
  | asked (read : Read) (r : GetCommitIndexReply)
  | recording (read : Read) (idx : Int)
  | serving (read : Read) (startIdx : Option Int)

/-- A server with the positions of its goroutines. `handing` is the snapshot that
`ApplyHandler` has taken but not handed to Raft yet, `count` the number of failed calls
of `SendCommitIndex`. -/
structure Service (n : Nat) where
  kv : KVServer := {}
  handing : Option (Int × Bytes) := none
  opHandler : OpHandler := .idle
  readQue : List Read := []
  reader : Reader n := .idle
  count : Nat := 0

/-- The cluster with its servers. `answers` and `reads` are history variables: every
response of `ApplyHandler`, and every executed read with the applied index it saw. -/
structure System (n : Nat) where
  raft : Cluster n
  services : Fin n → Service n := fun _ => {}
  answers : List Answer := []
  reads : List (Read × Int) := []

/-- One section of a goroutine. -/
inductive Action (n : Nat) where
  | raft (a : Raft.Action n)
  | applyHandler (i : Fin n) (takesSnapshot : Bool)
  | snapshot (i : Fin n)
  | handleOpQue (i : Fin n) (op : Op)
  | dispatch (i : Fin n)
  | recordTerm (i : Fin n)
  | takeRead (i : Fin n)
  | lookUp (i : Fin n)
  | getState (i : Fin n)
  | singleHeartBeat (i : Fin n)
  | confirmLeader (i : Fin n) (oks : List (Fin n))
  | sendCommitIndex (i : Fin n)
  | commitIndexError (i : Fin n)
  | commitIndexReply (i : Fin n)
  | recordIndex (i : Fin n)
  | serveRead (i : Fin n)

/-- The sections of Raft that run on their own, not in a call from the server. -/
def autonomous {n : Nat} : Raft.Action n → Bool
  | .start _ _ | .snapshot _ _ _ | .applyHandler _ | .singleHeartBeat _ | .sendCommitIndex _
  | .commitIndexReply _ _ => false
  | _ => true

namespace System

variable {n : Nat}

def init (n : Nat) : System n := { raft := Cluster.init n }

def setService (s : System n) (i : Fin n) (service : Service n) : System n :=
  { s with services := Function.update s.services i service }

/-- Move `handleReadQue` of node `i`. -/
def setReader (s : System n) (i : Fin n) (reader : Reader n) : System n :=
  s.setService i { s.services i with reader := reader }

/-- The heartbeat to peer `j` was answered with success after the round had begun. -/
def Confirmed (s : System n) (beats : List (Rpc n AppendEntriesArgs)) (seen : Nat) (j : Fin n) :
    Prop :=
  ∃ p ∈ s.raft.beatReplies.take (s.raft.beatReplies.length - seen),
    p.1 ∈ beats ∧ p.1.server = j ∧ p.2.success = true

instance (s : System n) (beats : List (Rpc n AppendEntriesArgs)) (seen : Nat) (j : Fin n) :
    Decidable (s.Confirmed beats seen j) :=
  inferInstanceAs (Decidable (∃ p ∈ _, _))

/-- `ApplyHandler` on the next message, up to the point where it has a snapshot. -/
def applyHandler (codec : Labgob) (s : System n) (i : Fin n) (takesSnapshot : Bool) :
    Option (System n) :=
  if (s.services i).handing = none then
    (s.raft.nodes i).applyCh.head?.bind fun msg =>
      (s.raft.step (.applyHandler i)).bind fun raft =>
        ((s.services i).kv.applyHandler codec msg).map fun result =>
          { s.setService i
              { s.services i with
                kv := result.1
                handing :=
                  if takesSnapshot ∧ result.2.isSome then
                    some (msg.commandIndex, result.1.snapshot codec)
                  else none } with
            raft := raft
            answers := (result.2.map fun resp => (msg.commandIndex, resp)).toList ++ s.answers }
  else none

/-- `handleOpQue` after the lookup in `history`. A `GET` goes to `readQue`. -/
def dispatch (s : System n) (i : Fin n) : Option (System n) :=
  match (s.services i).opHandler with
  | .checked op =>
      if isGet : op.optype = opGet then
        some (s.setService i
          { s.services i with
            opHandler := .idle
            readQue := (s.services i).readQue ++ [{ op := op, isGet := isGet, before := s.answers }] })
      else
        ((s.raft.nodes i).rf.start op).bind fun result =>
          (s.raft.step (.start i op)).map fun raft =>
            { s.setService i
                { s.services i with
                  opHandler := (result.2.map fun started => .started op started.2).getD .idle } with
              raft := raft }
  | _ => none

/-- `readOp = <-kv.readQue`. -/
def takeRead (s : System n) (i : Fin n) : Option (System n) :=
  match (s.services i).reader, (s.services i).readQue with
  | .idle, read :: rest =>
      some (s.setService i { s.services i with reader := .looking read, readQue := rest })
  | _, _ => none

/-- The first section of `handleReadQue`. -/
def lookUp (s : System n) (i : Fin n) : Option (System n) :=
  match (s.services i).reader with
  | .looking read =>
      some (s.setReader i
        (match (s.services i).kv.incrMapLogIdx.lookup read.op.incrId with
        | some startIdx => .serving read (some startIdx)
        | none => .asking read))
  | _ => none

/-- The call of `GetState`. -/
def getState (s : System n) (i : Fin n) : Option (System n) :=
  match (s.services i).reader with
  | .asking read =>
      let rf := (s.raft.nodes i).rf
      some (s.setReader i
        (if rf.role = .leader then .confirming read rf.commitIndex rf.currentTerm
        else .following read))
  | _ => none

/-- `SingleHeartBeat` up to the point where it waits for the peers. A node that does
not lead any more answers `ErrLeaderChanged`. -/
def singleHeartBeat (s : System n) (i : Fin n) : Option (System n) :=
  match (s.services i).reader with
  | .confirming read startCommitIdx term =>
      if (s.raft.nodes i).rf.role = .leader then
        (s.raft.step (.singleHeartBeat i)).map fun raft =>
          { s.setReader i (.beating read startCommitIdx term
              (raft.beatReqs.take (raft.beatReqs.length - s.raft.beatReqs.length))
              s.raft.beatReplies.length) with
            raft := raft }
      else some (s.setReader i .idle)
  | _ => none

/-- The end of `SingleHeartBeat`: `oks` are the peers whose call has returned success. -/
def confirmLeader (s : System n) (i : Fin n) (oks : List (Fin n)) : Option (System n) :=
  match (s.services i).reader with
  | .beating read startCommitIdx _ beats seen =>
      if oks.Nodup ∧ ∀ j ∈ oks, s.Confirmed beats seen j then
        some (s.setReader i
          (if (s.raft.nodes i).rf.peers.length / 2 < 1 + oks.length then
            .recording read startCommitIdx
          else .idle))
      else none
  | _ => none

/-- The call of `GetCommitIndex` in `SendCommitIndex`. -/
def sendCommitIndex (s : System n) (i : Fin n) : Option (System n) :=
  match (s.services i).reader with
  | .following read =>
      (s.raft.step (.sendCommitIndex i)).bind fun raft =>
        raft.commitReplies.head?.map fun answer =>
          { s.setReader i (.asked read answer.2) with raft := raft }
  | _ => none

/-- `SendCommitIndex` fails or runs out of time. Three times in a row it is tried again. -/
def commitIndexError (s : System n) (i : Fin n) : Option (System n) :=
  match (s.services i).reader with
  | .following read =>
      some (s.setService i
        (if (s.services i).count < 3 then
          { s.services i with reader := .looking read, count := (s.services i).count + 1 }
        else { s.services i with reader := .idle, count := 0 }))
  | _ => none

/-- `SendCommitIndex` handles the answer, which may be `ErrorWrongLeader`. -/
def commitIndexReply (s : System n) (i : Fin n) : Option (System n) :=
  match (s.services i).reader with
  | .asked read r =>
      (s.raft.step (.commitIndexReply i r)).map fun raft =>
        { s.setReader i
            ((((s.raft.nodes i).rf.sendCommitIndex r).2.map (.recording read)).getD .idle) with
          raft := raft }
  | _ => none

/-- The index that the read waits for is put into `incrMapLogIdx`. -/
def recordIndex (s : System n) (i : Fin n) : Option (System n) :=
  match (s.services i).reader with
  | .recording read idx =>
      some (s.setService i
        { s.services i with
          kv := (s.services i).kv.record read.op.incrId idx
          reader := .serving { read with recorded := some idx } none })
  | _ => none

/-- The last section of `handleReadQue`. If the index was not found in the first
section it is read from `incrMapLogIdx` again, where a missing entry gives zero. -/
def serveRead (s : System n) (i : Fin n) : Option (System n) :=
  match (s.services i).reader with
  | .serving read found =>
      let kv := (s.services i).kv
      let startIdx := found.getD ((kv.incrMapLogIdx.lookup read.op.incrId).getD 0)
      let result := kv.serveRead read.op startIdx
      some { s.setService i
          { s.services i with
            kv := result.1
            count := 0
            reader := if result.2.isSome then .idle else .looking read } with
        reads := if result.2.isSome then (read, kv.lastApplied) :: s.reads else s.reads }
  | _ => none

/-- One section of the code, or `none` if it is not enabled or panics. -/
def step (codec : Labgob) (s : System n) : Action n → Option (System n)
  | .raft a => if autonomous a then (s.raft.step a).map ({ s with raft := · }) else none
  | .applyHandler i takesSnapshot => s.applyHandler codec i takesSnapshot
  | .snapshot i =>
      (s.services i).handing.bind fun taken =>
        (s.raft.step (.snapshot i taken.1 taken.2)).map fun raft =>
          { s.setService i { s.services i with handing := none } with raft := raft }
  | .handleOpQue i op =>
      match (s.services i).opHandler with
      | .idle =>
          some (if ((s.services i).kv.repeated op).isSome then s
            else s.setService i { s.services i with opHandler := .checked op })
      | _ => none
  | .dispatch i => s.dispatch i
  | .recordTerm i =>
      match (s.services i).opHandler with
      | .started op term =>
          some (s.setService i
            { s.services i with kv := (s.services i).kv.record op.incrId term, opHandler := .idle })
      | _ => none
  | .takeRead i => s.takeRead i
  | .lookUp i => s.lookUp i
  | .getState i => s.getState i
  | .singleHeartBeat i => s.singleHeartBeat i
  | .confirmLeader i oks => s.confirmLeader i oks
  | .sendCommitIndex i => s.sendCommitIndex i
  | .commitIndexError i => s.commitIndexError i
  | .commitIndexReply i => s.commitIndexReply i
  | .recordIndex i => s.recordIndex i
  | .serveRead i => s.serveRead i

@[simp] theorem setService_same (s : System n) (i : Fin n) (service : Service n) :
    (s.setService i service).services i = service := by
  simp [setService]

@[simp] theorem setService_ne (s : System n) {i j : Fin n} (service : Service n) (h : j ≠ i) :
    (s.setService i service).services j = s.services j := by
  simp [setService, h]

/-- After a section of one server: the server that moves, and the others. -/
@[elab_as_elim]
theorem setService_cases {motive : Fin n → Service n → Prop} {s : System n} {i : Fin n}
    {service : Service n} (j : Fin n) (same : motive i service)
    (other : j ≠ i → motive j (s.services j)) :
    motive j ((s.setService i service).services j) := by
  by_cases hj : j = i
  · subst hj
    rwa [setService_same]
  · rw [setService_ne s service hj]
    exact other hj

/-! ## The sections of the queue handlers, with what they start from -/

section Handlers

variable {s t : System n} {i : Fin n}

theorem handleOpQue_eq {codec : Labgob} {op : Op}
    (h : s.step codec (.handleOpQue i op) = some t) :
    t = s ∨ t = s.setService i { s.services i with opHandler := .checked op } := by
  unfold System.step at h
  dsimp only at h
  split at h
  · cases h
    split
    · exact .inl rfl
    · exact .inr rfl
  · cases h

theorem dispatch_eq (h : s.dispatch i = some t) :
    (∃ op, ∃ isGet : op.optype = opGet, t = s.setService i
      { s.services i with
        opHandler := .idle
        readQue := (s.services i).readQue ++ [{ op := op, isGet := isGet, before := s.answers }] }) ∨
      ∃ op raft handler, s.raft.step (.start i op) = some raft ∧
        t = { s.setService i { s.services i with opHandler := handler } with raft := raft } := by
  unfold System.dispatch at h
  split at h
  · split at h
    · cases h
      exact .inl ⟨_, ‹_›, rfl⟩
    · obtain ⟨result, -, h⟩ := Option.bind_eq_some_iff.mp h
      obtain ⟨raft, hraft, rfl⟩ := Option.map_eq_some_iff.mp h
      exact .inr ⟨_, raft, _, hraft, rfl⟩
  · cases h

theorem recordTerm_eq {codec : Labgob} (h : s.step codec (.recordTerm i) = some t) :
    ∃ (op : Op) (term : Int), t = s.setService i
      { s.services i with kv := (s.services i).kv.record op.incrId term, opHandler := .idle } := by
  unfold System.step at h
  dsimp only at h
  split at h
  · cases h
    exact ⟨_, _, rfl⟩
  · cases h

theorem takeRead_eq (h : s.takeRead i = some t) :
    ∃ read rest, (s.services i).reader = .idle ∧ (s.services i).readQue = read :: rest ∧
      t = s.setService i { s.services i with reader := .looking read, readQue := rest } := by
  unfold takeRead at h
  split at h
  · cases h
    exact ⟨_, _, ‹_›, ‹_›, rfl⟩
  · cases h

theorem lookUp_eq (h : s.lookUp i = some t) :
    ∃ read, (s.services i).reader = .looking read ∧ t = s.setReader i
      (match (s.services i).kv.incrMapLogIdx.lookup read.op.incrId with
      | some startIdx => .serving read (some startIdx)
      | none => .asking read) := by
  unfold lookUp at h
  split at h
  · cases h
    exact ⟨_, ‹_›, rfl⟩
  · cases h

theorem getState_eq (h : s.getState i = some t) :
    ∃ read, (s.services i).reader = .asking read ∧ t = s.setReader i
      (if (s.raft.nodes i).rf.role = .leader then
        .confirming read (s.raft.nodes i).rf.commitIndex (s.raft.nodes i).rf.currentTerm
      else .following read) := by
  unfold getState at h
  split at h
  · cases h
    exact ⟨_, ‹_›, rfl⟩
  · cases h

theorem singleHeartBeat_eq (h : s.singleHeartBeat i = some t) :
    ∃ read idx term, (s.services i).reader = .confirming read idx term ∧
      (t = s.setReader i .idle ∨
        ∃ raft, (s.raft.nodes i).rf.role = .leader ∧
          s.raft.step (.singleHeartBeat i) = some raft ∧
          t = { s.setReader i (.beating read idx term
                  (raft.beatReqs.take (raft.beatReqs.length - s.raft.beatReqs.length))
                  s.raft.beatReplies.length) with
                raft := raft }) := by
  unfold singleHeartBeat at h
  split at h
  · refine ⟨_, _, _, ‹_›, ?_⟩
    split at h
    · obtain ⟨raft, hraft, rfl⟩ := Option.map_eq_some_iff.mp h
      exact .inr ⟨raft, ‹_›, hraft, rfl⟩
    · cases h
      exact .inl rfl
  · cases h

theorem confirmLeader_eq {oks : List (Fin n)} (h : s.confirmLeader i oks = some t) :
    ∃ read idx term beats seen, (s.services i).reader = .beating read idx term beats seen ∧
      oks.Nodup ∧ (∀ j ∈ oks, s.Confirmed beats seen j) ∧
      t = s.setReader i
        (if (s.raft.nodes i).rf.peers.length / 2 < 1 + oks.length then .recording read idx
        else .idle) := by
  unfold confirmLeader at h
  split at h
  · obtain ⟨⟨nodup, confirmed⟩, h⟩ := Option.ite_none_right_eq_some.mp h
    cases h
    exact ⟨_, _, _, _, _, ‹_›, nodup, confirmed, rfl⟩
  · cases h

theorem sendCommitIndex_eq (h : s.sendCommitIndex i = some t) :
    ∃ read raft answer, (s.services i).reader = .following read ∧
      s.raft.step (.sendCommitIndex i) = some raft ∧ raft.commitReplies.head? = some answer ∧
      t = { s.setReader i (.asked read answer.2) with raft := raft } := by
  unfold sendCommitIndex at h
  split at h
  · obtain ⟨raft, hraft, h⟩ := Option.bind_eq_some_iff.mp h
    obtain ⟨answer, hanswer, rfl⟩ := Option.map_eq_some_iff.mp h
    exact ⟨_, raft, answer, ‹_›, hraft, hanswer, rfl⟩
  · cases h

theorem commitIndexError_eq (h : s.commitIndexError i = some t) :
    ∃ read reader count, (s.services i).reader = .following read ∧
      (reader = .looking read ∨ reader = .idle) ∧
      t = s.setService i { s.services i with reader := reader, count := count } := by
  unfold commitIndexError at h
  split at h
  · cases h
    split
    · exact ⟨_, _, _, ‹_›, .inl rfl, rfl⟩
    · exact ⟨_, _, _, ‹_›, .inr rfl, rfl⟩
  · cases h

theorem commitIndexReply_eq (h : s.commitIndexReply i = some t) :
    ∃ read r raft, (s.services i).reader = .asked read r ∧
      s.raft.step (.commitIndexReply i r) = some raft ∧
      t = { s.setReader i
              ((((s.raft.nodes i).rf.sendCommitIndex r).2.map (.recording read)).getD .idle) with
            raft := raft } := by
  unfold commitIndexReply at h
  split at h
  · obtain ⟨raft, hraft, rfl⟩ := Option.map_eq_some_iff.mp h
    exact ⟨_, _, raft, ‹_›, hraft, rfl⟩
  · cases h

theorem recordIndex_eq (h : s.recordIndex i = some t) :
    ∃ read idx, (s.services i).reader = .recording read idx ∧ t = s.setService i
      { s.services i with
        kv := (s.services i).kv.record read.op.incrId idx
        reader := .serving { read with recorded := some idx } none } := by
  unfold recordIndex at h
  split at h
  · cases h
    exact ⟨_, _, ‹_›, rfl⟩
  · cases h

end Handlers

end System

end RaftKv.Server
