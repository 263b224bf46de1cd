import RaftKv.Raft.Basic
import Mathlib.Data.Finmap

/-!
# The key-value server above a Raft peer

The state of `KVServer` that its goroutines share, and the sections they run while
they hold `kv.mu`. Go maps are finite maps: only lookup, assignment and `delete` are
used on them.

`ApplyHandler` is the only writer of the database. Whether it executes a command
depends on `history`, and whether it writes `history` depends on `incrMapLogIdx`, a
table that the two queue handlers fill on their own account. The table has one entry
for each `IncrId`, whichever clerk uses it and whether it is a term or an index.

A snapshot is encoded with `labgob`. Its two directions are parameters; what is
assumed about them is said where it is used.
-/

namespace RaftKv.Server

open RaftKv.Raft (Bytes Op ApplyMsg)

/-! ## Responses -/

/-- The operation types `GET`, `PUT` and `APPEND`. -/
def opGet : UInt32 := 0
def opPut : UInt32 := 1
def opAppend : UInt32 := 2

/-- The codes of `cm.ErrMap`. -/
def errOk : UInt32 := 200
def errNoKey : UInt32 := 100
def errLeaderChanged : UInt32 := 102
def errHandleTimeout : UInt32 := 103

/-- `proxy.ServerResponse`; the default value is the zero value of `var resp`. -/
structure ServerResponse where
  opId : UInt32 := 0
  dataLen : UInt32 := 0
  incrId : UInt64 := 0
  clerkId : Int32 := 0
  serverId : Int32 := 0
  err : UInt32 := 0
  data : Bytes := []
  deriving DecidableEq

/-- `binary.Write` of a `uint32` in little-endian order. -/
def littleEndian32 (x : UInt32) : Bytes :=
  [x.toUInt8, (x >>> 8).toUInt8, (x >>> 16).toUInt8, (x >>> 24).toUInt8]

/-- `BodyPack.Pack` of a key and a value. -/
def packBody (key value : Bytes) : Bytes :=
  littleEndian32 (UInt32.ofNat key.length) ++ (key ++ value)

/-- `MsgProcess.OpToResp`. -/
def opToResp (op : Op) (errId : UInt32) : ServerResponse :=
  let data := packBody op.key op.value
  { opId := op.optype, dataLen := UInt32.ofNat data.length, incrId := op.incrId
    clerkId := op.clerkId, err := errId, data := data }

/-! ## The server -/

abbrev DB := Finmap (fun _ : Bytes => Bytes)
abbrev History := Finmap (fun _ : Int32 => ServerResponse)
abbrev IncrMap := Finmap (fun _ : UInt64 => Int)

structure KVServer where
  history : History := ∅
  incrMapLogIdx : IncrMap := ∅
  db : DB := ∅
  lastApplied : Int := 0

/-- The encoder and the decoder of snapshots; decoding may fail. -/
structure Labgob where
  encode : DB → History → Bytes
  decode : Bytes → Option (DB × History)

/-- What `DBExecute` does to the database. -/
def execute (db : DB) (op : Op) : DB :=
  if op.optype = opPut then db.insert op.key op.value
  else if op.optype = opAppend then db.insert op.key ((db.lookup op.key).getD [] ++ op.value)
  else db

namespace KVServer

/-- The response of `DBExecute`. A `GET` writes what it has found into the operation. -/
def answer (db : DB) (op : Op) : ServerResponse :=
  if op.optype = opGet then
    match db.lookup op.key with
    | some val => opToResp { op with value := val } errOk
    | none => opToResp { op with value := [] } errNoKey
  else opToResp op errOk

/-- `DBExecute`. -/
def dbExecute (kv : KVServer) (op : Op) : KVServer × ServerResponse :=
  ({ kv with db := execute kv.db op }, answer kv.db op)

/-- Whether `ApplyHandler` executes the operation: the clerk has no recorded result,
or one of a smaller `IncrId`. -/
def needs (kv : KVServer) (op : Op) : Bool :=
  match kv.history.lookup op.clerkId with
  | some old => decide (old.incrId < op.incrId)
  | none => true

/-- `resp` before the execution: the recorded result of the same operation, or the
zero value. -/
def recorded (kv : KVServer) (op : Op) : ServerResponse :=
  match kv.history.lookup op.clerkId with
  | some old => if old.incrId = op.incrId then old else {}
  | none => {}

/-- The branch of `ApplyHandler` that executes. The result is recorded only if the
operation was started here, in the term of its entry. -/
def executeNew (kv : KVServer) (op : Op) (term : Int) : KVServer × ServerResponse :=
  let (kv, resp) := kv.dbExecute op
  match kv.incrMapLogIdx.lookup resp.incrId with
  | none => (kv, resp)
  | some startTerm =>
      let started := { kv with incrMapLogIdx := kv.incrMapLogIdx.erase resp.incrId }
      if startTerm ≠ term then (started, { resp with err := errLeaderChanged })
      else ({ started with history := started.history.insert op.clerkId resp }, resp)

/-- The end of the command branch: a started operation that was not executed now. -/
def finishCommand (kv : KVServer) (resp : ServerResponse) (term : Int) : KVServer × ServerResponse :=
  match kv.incrMapLogIdx.lookup resp.incrId with
  | none => (kv, resp)
  | some startTerm =>
      ({ kv with incrMapLogIdx := kv.incrMapLogIdx.erase resp.incrId },
        if startTerm ≠ term then { resp with err := errLeaderChanged } else resp)

/-- `ApplyHandler` on a command that is newer than `lastApplied`. -/
def applyCommand (kv : KVServer) (index : Int) (op : Op) (term : Int) : KVServer × ServerResponse :=
  let kv := { kv with lastApplied := index }
  let (kv, resp) := if kv.needs op then kv.executeNew op term else (kv, kv.recorded op)
  kv.finishCommand resp term

/-- `LoadSnapshot`: an empty or undecodable snapshot changes nothing. -/
def loadSnapshot (codec : Labgob) (kv : KVServer) (snapshot : Bytes) : KVServer :=
  if snapshot = [] then kv
  else
    match codec.decode snapshot with
    | none => kv
    | some (db, history) => { kv with db := db, history := history }

/-- `ApplyHandler` on one message, with the response for the send queue; `none` is
`log.Fatal`. -/
def applyHandler (codec : Labgob) (kv : KVServer) (msg : ApplyMsg) :
    Option (KVServer × Option ServerResponse) :=
  if msg.commandValid then
    if msg.commandIndex ≤ kv.lastApplied then some (kv, none)
    else
      msg.command.map fun op =>
        let (kv, resp) := kv.applyCommand msg.commandIndex op msg.snapshotTerm
        (kv, some resp)
  else if msg.snapshotValid then
    if kv.lastApplied ≤ msg.snapshotIndex then
      some ({ kv.loadSnapshot codec msg.snapshot with lastApplied := msg.snapshotIndex }, none)
    else some (kv, none)
  else some (kv, none)

/-- `kv.Snapshot`. -/
def snapshot (codec : Labgob) (kv : KVServer) : Bytes := codec.encode kv.db kv.history

/-- The first section of `handleOpQue`: the recorded result of a repeated operation. -/
def repeated (kv : KVServer) (op : Op) : Option ServerResponse :=
  (kv.history.lookup op.clerkId).filter fun history => history.incrId = op.incrId

/-- `kv.incrMapLogIdx[incrId] = idx`, in `handleOpQue` with the term that `Start` has
returned and in `handleReadQue` with a commit index. -/
def record (kv : KVServer) (incrId : UInt64) (idx : Int) : KVServer :=
  { kv with incrMapLogIdx := kv.incrMapLogIdx.insert incrId idx }

/-- The last section of `handleReadQue`: the read is executed if the server has
applied the index it waits for. -/
def serveRead (kv : KVServer) (readOp : Op) (startIdx : Int) : KVServer × Option ServerResponse :=
  if startIdx ≤ kv.lastApplied then
    let (kv, resp) := kv.dbExecute readOp
    ({ kv with incrMapLogIdx := kv.incrMapLogIdx.erase readOp.incrId }, some resp)
  else (kv, none)

/-! ## What the sections do to the database -/

@[simp] theorem answer_incrId (db : DB) (op : Op) : (answer db op).incrId = op.incrId := by
  unfold answer
  split
  · split <;> rfl
  · rfl

theorem execute_get {db : DB} {op : Op} (h : op.optype = opGet) : execute db op = db := by
  unfold execute
  rw [h]
  rfl

@[simp] theorem finishCommand_db (kv : KVServer) (resp : ServerResponse) (term : Int) :
    (kv.finishCommand resp term).1.db = kv.db := by
  unfold finishCommand
  split <;> rfl

@[simp] theorem finishCommand_history (kv : KVServer) (resp : ServerResponse) (term : Int) :
    (kv.finishCommand resp term).1.history = kv.history := by
  unfold finishCommand
  split <;> rfl

@[simp] theorem finishCommand_lastApplied (kv : KVServer) (resp : ServerResponse) (term : Int) :
    (kv.finishCommand resp term).1.lastApplied = kv.lastApplied := by
  unfold finishCommand
  split <;> rfl

@[simp] theorem executeNew_db (kv : KVServer) (op : Op) (term : Int) :
    (kv.executeNew op term).1.db = execute kv.db op := by
  unfold executeNew dbExecute
  dsimp only
  split
  · rfl
  · split <;> rfl

@[simp] theorem executeNew_lastApplied (kv : KVServer) (op : Op) (term : Int) :
    (kv.executeNew op term).1.lastApplied = kv.lastApplied := by
  unfold executeNew dbExecute
  dsimp only
  split
  · rfl
  · split <;> rfl

/-- The result is recorded exactly if the operation was started in the entry's term. -/
theorem executeNew_history (kv : KVServer) (op : Op) (term : Int) :
    (kv.executeNew op term).1.history =
      if kv.incrMapLogIdx.lookup op.incrId = some term then
        kv.history.insert op.clerkId (answer kv.db op)
      else kv.history := by
  unfold executeNew dbExecute
  dsimp only
  rw [answer_incrId]
  cases hstarted : kv.incrMapLogIdx.lookup op.incrId with
  | none => simp
  | some startTerm =>
      by_cases hterm : startTerm = term
      · simp [hterm]
      · simp [hterm]

@[simp] theorem applyCommand_lastApplied (kv : KVServer) (index : Int) (op : Op) (term : Int) :
    (kv.applyCommand index op term).1.lastApplied = index := by
  unfold applyCommand
  dsimp only
  split <;> simp

theorem applyCommand_db (kv : KVServer) (index : Int) (op : Op) (term : Int) :
    (kv.applyCommand index op term).1.db = if kv.needs op then execute kv.db op else kv.db := by
  unfold applyCommand
  dsimp only
  have hneeds : needs { kv with lastApplied := index } op = kv.needs op := rfl
  rw [hneeds]
  split <;> simp

theorem applyCommand_history (kv : KVServer) (index : Int) (op : Op) (term : Int) :
    (kv.applyCommand index op term).1.history =
      if kv.needs op ∧ kv.incrMapLogIdx.lookup op.incrId = some term then
        kv.history.insert op.clerkId (answer kv.db op)
      else kv.history := by
  unfold applyCommand
  dsimp only
  have hneeds : needs { kv with lastApplied := index } op = kv.needs op := rfl
  rw [hneeds]
  cases kv.needs op with
  | true => simp [executeNew_history]
  | false => simp

/-- A recorded result is an old one, or that of the command that was just executed. -/
theorem applyCommand_recorded {kv : KVServer} {index : Int} {op : Op} {term : Int} {c : Int32}
    {resp : ServerResponse}
    (h : (kv.applyCommand index op term).1.history.lookup c = some resp) :
    kv.history.lookup c = some resp ∨ (op.clerkId = c ∧ op.incrId = resp.incrId) := by
  rw [applyCommand_history] at h
  split at h
  · by_cases hc : c = op.clerkId
    · subst hc
      rw [Finmap.lookup_insert] at h
      cases h
      exact .inr ⟨rfl, (answer_incrId _ _).symm⟩
    · rw [Finmap.lookup_insert_of_ne _ hc] at h
      exact .inl h
  · exact .inl h

@[simp] theorem answer_clerkId (db : DB) (op : Op) : (answer db op).clerkId = op.clerkId := by
  unfold answer
  split
  · split <;> rfl
  · rfl

/-- What `ApplyHandler` does with a message. -/
inductive Applies (codec : Labgob) (kv : KVServer) (msg : ApplyMsg) :
    KVServer × Option ServerResponse → Prop where
  | passed : Applies codec kv msg (kv, none)
  | command {op : Op} (valid : msg.commandValid = true) (isNew : kv.lastApplied < msg.commandIndex)
      (command : msg.command = some op) :
      Applies codec kv msg
        ((kv.applyCommand msg.commandIndex op msg.snapshotTerm).1,
          some (kv.applyCommand msg.commandIndex op msg.snapshotTerm).2)
  | snapshot (valid : msg.snapshotValid = true) (isNew : kv.lastApplied ≤ msg.snapshotIndex) :
      Applies codec kv msg
        ({ kv.loadSnapshot codec msg.snapshot with lastApplied := msg.snapshotIndex }, none)

theorem applies_of_applyHandler {codec : Labgob} {kv : KVServer} {msg : ApplyMsg}
    {result : KVServer × Option ServerResponse} (h : kv.applyHandler codec msg = some result) :
    Applies codec kv msg result := by
  unfold applyHandler at h
  split at h
  · split at h
    · cases h
      exact .passed
    · obtain ⟨op, command, rfl⟩ := Option.map_eq_some_iff.mp h
      exact .command ‹_› (Int.not_le.mp ‹_›) command
  · split at h
    · split at h
      · cases h
        exact .snapshot ‹_› ‹_›
      · cases h
        exact .passed
    · cases h
      exact .passed

end KVServer

end RaftKv.Server
