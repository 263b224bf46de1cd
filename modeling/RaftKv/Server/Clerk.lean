import RaftKv.Library.Channel
import RaftKv.Library.Run
import RaftKv.Proxy.Receive

/-!
# The calls of a clerk

Any number of goroutines call `Get`, `Put` and `Append` of one clerk. Each call makes a
channel for its answer and files it in `responseCh` under the time of the call, the
`IncrId`. The two goroutines that read from the connections hand every response to
`processResponse`, which looks its `IncrId` up, puts the result into the channel, closes
it and deletes the entry.

`processGetBuffer` copies a response out of its buffer. `processPutBuffer` does not: a result
that has come on the connection of `PUT` is a part of the buffer, and changes when the
goroutine shifts what is left in it or reads again. A call may look at its result later than that.

An action is a section between two points where goroutines can interleave. The map is
guarded by `muM`, except where `retryRequest` reads it and where `Stop` walks through it.
The network is not modelled: any response may come in at any time, the buffer of `PUT` may
get any contents, a write may fail and a call may run out of time. What the goroutines make of
bytes that are no response is in `Proxy.Malformed`.
-/

namespace RaftKv.Server

open Library
open RaftKv.Raft (Bytes Op)
open RaftKv.Proxy (Body Call bufferSize prepareData respHeadLen slice)

/-! ### Results -/

/-- The connection on which a response comes. -/
inductive Side where
  | get
  | put
  deriving DecidableEq

/-- The bytes of a body: a copy, or that many bytes of `responsePutBuffer` behind the head of
the response and the length of the key. -/
inductive KeyValue where
  | copied (bytes : Bytes)
  | shared (length : Nat)

/-- The bytes while `responsePutBuffer` has these contents. -/
def KeyValue.read (buffer : Bytes) : KeyValue → Bytes
  | .copied bytes => bytes
  | .shared length => (buffer.drop (respHeadLen + 4)).take length

/-- `proxy.Result`. -/
structure Result where
  errId : UInt32
  keyLen : UInt32
  keyValue : KeyValue

/-- `cm.ErrIdMap`; a code that is not there gives the empty text. -/
def errIdMap (id : UInt32) : String :=
  if id = 200 then "OK"
  else if id = 100 then "ErrNoKey"
  else if id = 101 then "ErrWrongLeader"
  else if id = 102 then "ErrLeaderChanged"
  else if id = 103 then "ErrHandleTimeout"
  else if id = 104 then "ErrChanClosed"
  else ""

/-- `fmt.Errorf` with a `nil` that the text has no place for. -/
def errorfNil (text : String) : String := text ++ "%!(EXTRA <nil>)"

inductive Panic where
  | sendOnClosed
  | closeOfClosed
  | nilDereference
  | sliceBounds
  deriving DecidableEq

namespace Result

/-- The result that `processResponse` makes. -/
def make (side : Side) (err : UInt32) (body : Body) : Result where
  errId := err
  keyLen := body.keyLen
  keyValue :=
    match side with
    | .get => .copied body.keyValue
    | .put => .shared body.keyValue.length

/-- `GetValue` of the body. -/
def getValue (buffer : Bytes) (res : Result) : Option Bytes :=
  Body.getValue ⟨res.keyLen, res.keyValue.read buffer⟩

/-- What `Get` returns for the result and the error of `retryRequest`. -/
def get (buffer : Bytes) (res : Option Result) (err : Option String) :
    Except Panic (Bytes × Option String) :=
  if err.isSome then .ok ([], err)
  else
    match res with
    | none => .error .nilDereference
    | some res =>
        if res.errId ≠ errOk then .ok ([], some (errIdMap res.errId))
        else
          match res.getValue buffer with
          | none => .error .sliceBounds
          | some value => .ok (value, none)

/-- What `Put` returns. -/
def put (res : Option Result) (err : Option String) : Except Panic (Bytes × Option String) :=
  if err.isSome then .ok ([], err)
  else
    match res with
    | none => .error .nilDereference
    | some res =>
        if res.errId ≠ errOk then .ok ([], some (errorfNil (errIdMap res.errId)))
        else .ok ([], none)

/-- What `Append` returns. It looks at the result before it looks at the error. -/
def append (res : Option Result) (err : Option String) : Except Panic (Bytes × Option String) :=
  match res with
  | none => .error .nilDereference
  | some res =>
      if res.errId ≠ errOk then .ok ([], some (errorfNil (errIdMap res.errId)))
      else .ok ([], err)

/-- The end of the call of an operation. -/
def finish (buffer : Bytes) (optype : UInt32) (res : Option Result) (err : Option String) :
    Except Panic (Bytes × Option String) :=
  if optype = opGet then get buffer res err
  else if optype = opPut then put res err
  else append res err

/-- A call panics without a result, and `Get` also for a body that is too short for its key. -/
theorem of_finish_error {buffer : Bytes} {optype : UInt32} {res : Option Result}
    {err : Option String} {panic : Panic} (h : finish buffer optype res err = .error panic) :
    panic = .nilDereference ∨ panic = .sliceBounds := by
  unfold finish get put append at h
  repeat' split at h
  all_goals cases h
  all_goals first | exact .inl rfl | exact .inr rfl

end Result

/-! ### The clerk -/

/-- A channel, with the `IncrId` it was made for. -/
structure Line where
  incrId : UInt64
  ch : Chan Result := { capacity := 1 }

/-- The position of a call. Before the first attempt the channel has not been read from the
map; `none` is the `nil` of a missing entry. -/
inductive Position where
  | prepared
  | trying (ch : Option Nat) (attempt : Nat) (lastErr : Option String)
  | waiting (ch : Option Nat) (attempt : Nat)
  | returned (res : Option Result) (err : Option String)
  | finished (value : Bytes) (err : Option String)

/-- A call of `Get`, `Put` or `Append`. -/
structure Caller where
  op : Op
  position : Position := .prepared

/-- `lines` are all channels that were ever made, and `responseCh` has their numbers.
`processing` is the receiver between the send and the close, while it holds `muM`.
`visited` are the entries that a running `Stop` has been at. The last two fields are history
variables: what was written to the connections, and the responses that were processed. Of
the buffers only the one that results share is kept. -/
structure Clerk where
  clerkId : Int32
  maxRetryTime : Nat := 1
  responseCh : Finmap (fun _ : UInt64 => Nat) := ∅
  lines : List Line := []
  callers : List Caller := []
  processing : Option (UInt64 × Nat) := none
  visited : Option (List UInt64) := none
  panic : Option Panic := none
  responsePutBuffer : Bytes := List.replicate bufferSize 0
  written : List (UInt32 × Bytes) := []
  responses : List (Side × Call) := []

/-- The sections of a call: `look` is the read of the map in `retryRequest`, `send` with an
error a write that fails, `finish` the rest of `Get`, `Put` or `Append`. -/
inductive CallAction where
  | look
  | send (err : Option String)
  | giveUp
  | receive
  | timeout
  | finish

/-- `prepare` is `packData`, the first section of a call, and `overwrite` what the receiver of
`PUT` does to its buffer with `Read` and `copy`. -/
inductive ClerkAction where
  | prepare (optype : UInt32) (key value : Bytes) (uid : UInt64)
  | call (i : Nat) (a : CallAction)
  | overwrite (buffer : Bytes)
  | processResponse (side : Side) (call : Call)
  | closeResponse
  | stop
  | closeNext (incrId : UInt64)

namespace Clerk

/-- The bytes of a call. -/
def packet (op : Op) : Bytes :=
  prepareData op.clerkId op.incrId (op.key ++ op.value) op.optype (UInt32.ofNat op.key.length)

/-- Call `i` moves on. -/
def move (ck : Clerk) (i : Nat) (position : Position) : Clerk :=
  { ck with callers := ck.callers.modify i fun c => { c with position := position } }

def setLine (ck : Clerk) (k : Nat) (ch : Chan Result) : Clerk :=
  { ck with lines := ck.lines.modify k fun line => { line with ch := ch } }

/-- `packData` and `prepareData`: an entry that is there already is used again. -/
def prepare (ck : Clerk) (optype : UInt32) (key value : Bytes) (uid : UInt64) : Clerk :=
  let op : Op := { optype := optype, clerkId := ck.clerkId, incrId := uid, key := key, value := value }
  let ck := { ck with callers := ck.callers ++ [{ op := op }] }
  if uid ∈ ck.responseCh then ck
  else
    { ck with
      responseCh := ck.responseCh.insert uid ck.lines.length
      lines := ck.lines ++ [{ incrId := uid }] }

/-- The `select` of call `i` takes from its channel. -/
def receive (ck : Clerk) (i : Nat) (k : Nat) (line : Line) : Option Clerk :=
  match line.ch.receive with
  | .done (res, ch) => some ((ck.setLine k ch).move i (.returned res none))
  | _ => none

/-- What the receiver of `PUT` passes is a part of its buffer. -/
def Passes (ck : Clerk) (side : Side) (data : Bytes) : Prop :=
  side = .put → slice ck.responsePutBuffer respHeadLen (respHeadLen + data.length) = some data

instance (ck : Clerk) (side : Side) (data : Bytes) : Decidable (ck.Passes side data) :=
  inferInstanceAs (Decidable (side = .put → _))

/-- `processResponse` up to the send. A body that cannot be unpacked is dropped. -/
def processResponse (ck : Clerk) (side : Side) (call : Call) : Option Clerk :=
  let ck := { ck with responses := (side, call) :: ck.responses }
  match Body.unpack call.data with
  | none => some ck
  | some body =>
      match ck.responseCh.lookup call.incrId with
      | none => some ck
      | some k =>
          (ck.lines[k]?).bind fun line =>
            match line.ch.send (.make side call.err body) with
            | .done ch => some { ck.setLine k ch with processing := some (call.incrId, k) }
            | .panics => some { ck with panic := some .sendOnClosed }
            | .blocks => none

/-- The rest of `processResponse`. -/
def closeResponse (ck : Clerk) : Option Clerk :=
  ck.processing.bind fun (incrId, k) =>
    (ck.lines[k]?).map fun line =>
      match line.ch.close with
      | .done ch =>
          { ck.setLine k ch with
            responseCh := ck.responseCh.erase incrId
            processing := none }
      | _ => { ck with panic := some .closeOfClosed }

/-- One round of the loop of `Stop`, at any entry where it has not been. -/
def closeNext (ck : Clerk) (incrId : UInt64) : Option Clerk :=
  ck.visited.bind fun visited =>
    (ck.responseCh.lookup incrId).bind fun k =>
      if incrId ∈ visited then none
      else
        (ck.lines[k]?).map fun line =>
          match line.ch.close with
          | .done ch => { ck.setLine k ch with visited := some (incrId :: visited) }
          | _ => { ck with panic := some .closeOfClosed }

/-- A section of call `i`. -/
def callStep (ck : Clerk) (i : Nat) (caller : Caller) : CallAction → Option Clerk
  | .look =>
      match caller.position with
      | .prepared => some (ck.move i (.trying (ck.responseCh.lookup caller.op.incrId) 0 none))
      | _ => none
  | .send err =>
      match caller.position with
      | .trying ch attempt _ =>
          if attempt < ck.maxRetryTime then
            match err with
            | some err => some (ck.move i (.trying ch (attempt + 1) (some err)))
            | none =>
                some { ck.move i (.waiting ch attempt) with
                  written := ck.written ++ [(caller.op.optype, packet caller.op)] }
          else none
      | _ => none
  | .giveUp =>
      match caller.position with
      | .trying _ attempt lastErr =>
          if attempt < ck.maxRetryTime then none else some (ck.move i (.returned none lastErr))
      | _ => none
  | .receive =>
      match caller.position with
      | .waiting (some k) _ => (ck.lines[k]?).bind fun line => ck.receive i k line
      | _ => none
  | .timeout =>
      match caller.position with
      | .waiting ch attempt => some (ck.move i (.trying ch (attempt + 1) (some "request time out")))
      | _ => none
  | .finish =>
      match caller.position with
      | .returned res err =>
          match Result.finish ck.responsePutBuffer caller.op.optype res err with
          | .ok (value, err) => some (ck.move i (.finished value err))
          | .error panic => some { ck with panic := some panic }
      | _ => none

/-- One section. Nothing runs after a panic, and what needs `muM` waits for it. -/
def step (ck : Clerk) (a : ClerkAction) : Option Clerk :=
  if ck.panic.isSome then none
  else
    match a with
    | .prepare optype key value uid =>
        if ck.processing.isNone ∧ (optype = opGet ∨ optype = opPut ∨ optype = opAppend) then
          some (ck.prepare optype key value uid)
        else none
    | .call i a => (ck.callers[i]?).bind fun caller => ck.callStep i caller a
    | .overwrite buffer =>
        if buffer.length = ck.responsePutBuffer.length then
          some { ck with responsePutBuffer := buffer }
        else none
    | .processResponse side call =>
        if ck.processing.isNone ∧ ck.Passes side call.data then ck.processResponse side call
        else none
    | .closeResponse => ck.closeResponse
    | .stop => some { ck with visited := some [] }
    | .closeNext incrId => ck.closeNext incrId

/-- `MakeClerk`. -/
def make (clerkId : Int32) : Clerk := { clerkId := clerkId }

/-! ### What a section can do -/

/-- Every section of the clerk, with what it does to the channels. -/
inductive Steps (ck : Clerk) : ClerkAction → Clerk → Prop
  | aside {a : ClerkAction} {t : Clerk} (lines : t.lines = ck.lines)
      (responseCh : t.responseCh = ck.responseCh) (processing : t.processing = ck.processing)
      (visited : t.visited = ck.visited) (panic : t.panic = ck.panic) : Steps ck a t
  | file {optype : UInt32} {key value : Bytes} {uid : UInt64} (new : uid ∉ ck.responseCh) :
      Steps ck (.prepare optype key value uid) { ck with
        callers := ck.callers ++ [{ op :=
          { optype := optype, clerkId := ck.clerkId, incrId := uid, key := key, value := value } }]
        responseCh := ck.responseCh.insert uid ck.lines.length
        lines := ck.lines ++ [{ incrId := uid }] }
  | receive {i k : Nat} {line : Line} {res : Option Result} {ch : Chan Result}
      (found : ck.lines[k]? = some line) (received : line.ch.receive = .done (res, ch)) :
      Steps ck (.call i .receive) ((ck.setLine k ch).move i (.returned res none))
  | crash {i : Nat} {c : Caller} {res : Option Result} {err : Option String} {panic : Panic}
      (result : Result.finish ck.responsePutBuffer c.op.optype res err = .error panic) :
      Steps ck (.call i .finish) { ck with panic := some panic }
  | deliver {side : Side} {call : Call} {k : Nat} {line : Line} {x : Result} {ch : Chan Result}
      (free : ck.processing = none) (filed : ck.responseCh.lookup call.incrId = some k)
      (found : ck.lines[k]? = some line) (sent : line.ch.send x = .done ch) :
      Steps ck (.processResponse side call) { ck.setLine k ch with
        responses := (side, call) :: ck.responses, processing := some (call.incrId, k) }
  | refuse {side : Side} {call : Call} {k : Nat} {line : Line} {x : Result}
      (filed : ck.responseCh.lookup call.incrId = some k) (found : ck.lines[k]? = some line)
      (sent : line.ch.send x = .panics) :
      Steps ck (.processResponse side call) { ck with
        responses := (side, call) :: ck.responses, panic := some .sendOnClosed }
  | close {incrId : UInt64} {k : Nat} {line : Line} {ch : Chan Result}
      (inside : ck.processing = some (incrId, k)) (found : ck.lines[k]? = some line)
      (closed : line.ch.close = .done ch) :
      Steps ck .closeResponse { ck.setLine k ch with
        responseCh := ck.responseCh.erase incrId, processing := none }
  | closeTwice {incrId : UInt64} {k : Nat} {line : Line}
      (inside : ck.processing = some (incrId, k)) (found : ck.lines[k]? = some line)
      (closed : line.ch.closed = true) :
      Steps ck .closeResponse { ck with panic := some .closeOfClosed }
  | stop : Steps ck .stop { ck with visited := some [] }
  | closeNext {visited : List UInt64} {incrId : UInt64} {k : Nat} {line : Line} {ch : Chan Result}
      (stopping : ck.visited = some visited) (filed : ck.responseCh.lookup incrId = some k)
      (found : ck.lines[k]? = some line) (closed : line.ch.close = .done ch) :
      Steps ck (.closeNext incrId) { ck.setLine k ch with visited := some (incrId :: visited) }
  | closeAgain {visited : List UInt64} {incrId : UInt64} (stopping : ck.visited = some visited) :
      Steps ck (.closeNext incrId) { ck with panic := some .closeOfClosed }

theorem steps_of_callStep {ck t : Clerk} {i : Nat} {c : Caller} {a : CallAction}
    (h : ck.callStep i c a = some t) : Steps ck (.call i a) t := by
  unfold callStep at h
  cases a with
  | look | timeout =>
      dsimp only at h
      split at h
      · cases h
        exact .aside rfl rfl rfl rfl rfl
      · cases h
  | send err =>
      dsimp only at h
      split at h
      · split at h
        · cases err <;> cases h <;> exact .aside rfl rfl rfl rfl rfl
        · cases h
      · cases h
  | giveUp =>
      dsimp only at h
      split at h
      · split at h
        · cases h
        · cases h
          exact .aside rfl rfl rfl rfl rfl
      · cases h
  | receive =>
      dsimp only at h
      split at h
      · obtain ⟨line, found, h⟩ := Option.bind_eq_some_iff.mp h
        unfold Clerk.receive at h
        split at h
        · cases h
          exact .receive found ‹_›
        · cases h
      · cases h
  | finish =>
      dsimp only at h
      split at h
      · split at h
        · cases h
          exact .aside rfl rfl rfl rfl rfl
        · cases h
          exact .crash ‹_›
      · cases h

theorem steps_of_step {ck t : Clerk} {a : ClerkAction} (h : ck.step a = some t) :
    ck.panic = none ∧ Steps ck a t := by
  unfold step at h
  split at h
  · cases h
  rename_i running
  refine ⟨by simpa using running, ?_⟩
  cases a with
  | prepare optype key value uid =>
      dsimp only at h
      split at h
      · cases h
        unfold prepare
        dsimp only
        split
        · exact .aside rfl rfl rfl rfl rfl
        · exact .file ‹_›
      · cases h
  | call i a =>
      obtain ⟨c, -, h⟩ := Option.bind_eq_some_iff.mp h
      exact steps_of_callStep h
  | overwrite buffer =>
      dsimp only at h
      split at h
      · cases h
        exact .aside rfl rfl rfl rfl rfl
      · cases h
  | processResponse side call =>
      dsimp only at h
      split at h
      · rename_i guard
        unfold processResponse at h
        dsimp only at h
        split at h
        · cases h
          exact .aside rfl rfl rfl rfl rfl
        · split at h
          · cases h
            exact .aside rfl rfl rfl rfl rfl
          · obtain ⟨line, found, h⟩ := Option.bind_eq_some_iff.mp h
            split at h
            · cases h
              exact .deliver (by simpa using guard.1) ‹_› found ‹_›
            · cases h
              exact .refuse ‹_› found ‹_›
            · cases h
      · cases h
  | closeResponse =>
      obtain ⟨⟨incrId, k⟩, inside, h⟩ := Option.bind_eq_some_iff.mp h
      obtain ⟨line, found, rfl⟩ := Option.map_eq_some_iff.mp h
      cases hclosed : line.ch.closed with
      | false =>
          have closed : line.ch.close = .done { line.ch with closed := true } := by
            simp [Chan.close, hclosed]
          rw [closed]
          exact .close inside found closed
      | true =>
          have closed : line.ch.close = .panics := by simp [Chan.close, hclosed]
          rw [closed]
          exact .closeTwice inside found hclosed
  | stop =>
      cases h
      exact .stop
  | closeNext incrId =>
      obtain ⟨visited, stopping, h⟩ := Option.bind_eq_some_iff.mp h
      obtain ⟨k, filed, h⟩ := Option.bind_eq_some_iff.mp h
      split at h
      · cases h
      · obtain ⟨line, found, rfl⟩ := Option.map_eq_some_iff.mp h
        split
        · exact .closeNext stopping filed found ‹_›
        · exact .closeAgain stopping

/-! ### Moved calls and changed channels -/

section Moved

variable {ck : Clerk} {i k j : Nat} {ch : Chan Result} {line line' : Line} {c : Caller}
  {position : Position}

theorem setLine_same (found : ck.lines[k]? = some line) :
    (ck.setLine k ch).lines[k]? = some { line with ch := ch } := by
  simp [setLine, found]

theorem setLine_ne (h : j ≠ k) : (ck.setLine k ch).lines[j]? = ck.lines[j]? := by
  simp [setLine, Ne.symm h]

/-- A channel is another one that is as before, or the one that has changed. -/
theorem of_setLine (found : ck.lines[k]? = some line)
    (h : (ck.setLine k ch).lines[j]? = some line') :
    (j ≠ k ∧ ck.lines[j]? = some line') ∨ (j = k ∧ line' = { line with ch := ch }) := by
  by_cases hj : j = k
  · subst hj
    rw [setLine_same found] at h
    exact .inr ⟨rfl, (Option.some.inj h).symm⟩
  · rw [setLine_ne hj] at h
    exact .inl ⟨hj, h⟩

theorem of_concat {new : Line} (h : (ck.lines ++ [new])[j]? = some line) :
    ck.lines[j]? = some line ∨ (j = ck.lines.length ∧ line = new) := by
  rw [List.getElem?_append] at h
  split at h
  · exact .inl h
  · obtain ⟨hlt, rfl⟩ := List.getElem?_eq_some_iff.mp h
    have : j = ck.lines.length := by
      simp only [List.length_singleton] at hlt
      omega
    exact .inr ⟨this, by simp⟩

end Moved

/-! ### The channels -/

/-- A filed channel is open, unless `Stop` has been called, and empty, unless a receiver is
just putting its result there. -/
structure Filed (ck : Clerk) : Prop where
  capacity : ∀ (k : Nat) (line : Line), ck.lines[k]? = some line → line.ch.capacity = 1
  entries : ∀ id k, ck.responseCh.lookup id = some k → ∃ line, ck.lines[k]? = some line ∧
    line.incrId = id ∧ (line.ch.closed = true → ck.visited ≠ none) ∧
    (line.ch.buffer = [] ∨ ck.processing = some (id, k))
  processing : ∀ id k, ck.processing = some (id, k) → ck.responseCh.lookup id = some k
  visited : ∀ ids, ck.visited = some ids → ∀ id ∈ ids, ∃ k line,
    ck.responseCh.lookup id = some k ∧ ck.lines[k]? = some line ∧ line.ch.closed = true
  panics : ck.panic = some .sendOnClosed ∨ ck.panic = some .closeOfClosed → ck.visited ≠ none

theorem filed_make (clerkId : Int32) : Filed (make clerkId) where
  capacity k line h := by simp [make] at h
  entries id k h := by simp [make] at h
  processing id k h := by simp [make] at h
  visited ids h := by simp [make] at h
  panics h := by simp [make] at h

namespace Filed

variable {ck t : Clerk} {a : ClerkAction}

/-- Two entries have different channels. -/
theorem line_ne (filed : Filed ck) {id id' : UInt64} {k k' : Nat}
    (h : ck.responseCh.lookup id = some k) (h' : ck.responseCh.lookup id' = some k')
    (hne : id ≠ id') : k ≠ k' := by
  rintro rfl
  obtain ⟨line, hline, rfl, -⟩ := filed.entries id k h
  obtain ⟨line', hline', rfl, -⟩ := filed.entries id' k h'
  rw [hline] at hline'
  cases hline'
  exact hne rfl

/-- Steps that only move a call, or only look. -/
theorem of_same (filed : Filed ck) (lines : t.lines = ck.lines)
    (responseCh : t.responseCh = ck.responseCh) (processing : t.processing = ck.processing)
    (visited : t.visited = ck.visited)
    (panics : t.panic = some .sendOnClosed ∨ t.panic = some .closeOfClosed → ck.visited ≠ none) :
    Filed t where
  capacity := lines ▸ filed.capacity
  entries := by
    rw [lines, responseCh, processing, visited]
    exact filed.entries
  processing := by
    rw [responseCh, processing]
    exact filed.processing
  visited := by
    rw [lines, responseCh, visited]
    exact filed.visited
  panics := visited ▸ panics

theorem file (filed : Filed ck) {uid : UInt64} (new : uid ∉ ck.responseCh)
    (running : ck.panic = none) (callers : List Caller) :
    Filed { ck with
      callers := callers
      responseCh := ck.responseCh.insert uid ck.lines.length
      lines := ck.lines ++ [{ incrId := uid }] } := by
  have kept {k : Nat} {line : Line} (h : ck.lines[k]? = some line) :
      (ck.lines ++ [({ incrId := uid } : Line)])[k]? = some line := by
    rw [List.getElem?_append_left (List.getElem?_eq_some_iff.mp h).1, h]
  have old {id : UInt64} {k : Nat} (h : ck.responseCh.lookup id = some k) :
      (ck.responseCh.insert uid ck.lines.length).lookup id = some k := by
    rw [Finmap.lookup_insert_of_ne _ ?_, h]
    rintro rfl
    exact new (Finmap.mem_of_lookup_eq_some h)
  refine ⟨fun k line h => ?_, fun id k h => ?_, fun id k h => old (filed.processing id k h),
    fun ids h id hid => ?_, fun h => ?_⟩
  · rcases of_concat h with h | ⟨-, rfl⟩
    · exact filed.capacity k line h
    · rfl
  · by_cases hid : id = uid
    · subst hid
      rw [Finmap.lookup_insert] at h
      cases h
      exact ⟨{ incrId := id }, by simp, rfl, fun h => (by cases h), .inl rfl⟩
    · rw [Finmap.lookup_insert_of_ne _ hid] at h
      obtain ⟨line, hline, rest⟩ := filed.entries id k h
      exact ⟨line, kept hline, rest⟩
  · obtain ⟨k, line, hk, hline, hclosed⟩ := filed.visited ids h id hid
    exact ⟨k, line, old hk, kept hline, hclosed⟩
  · rw [show _ = ck.panic from rfl, running] at h
    simp at h

/-- A call takes a result. -/
theorem receive (filed : Filed ck) {k : Nat} {line : Line} {ch : Chan Result} {r : Option Result}
    (found : ck.lines[k]? = some line) (received : line.ch.receive = .done (r, ch)) :
    Filed (ck.setLine k ch) := by
  have kept : ch.capacity = line.ch.capacity ∧ ch.closed = line.ch.closed ∧
      (line.ch.buffer = [] → ch.buffer = []) := by
    cases r with
    | none =>
        obtain ⟨-, -, rfl⟩ := Chan.receive_none received
        exact ⟨rfl, rfl, fun h => h⟩
    | some x =>
        obtain ⟨rest, hbuffer, rfl⟩ := Chan.receive_some received
        exact ⟨rfl, rfl, fun h => by simp [hbuffer] at h⟩
  have same {j : Nat} {l : Line} (h : ck.lines[j]? = some l) :
      ∃ l', (ck.setLine k ch).lines[j]? = some l' ∧ l'.incrId = l.incrId ∧
        l'.ch.closed = l.ch.closed ∧ (l.ch.buffer = [] → l'.ch.buffer = []) := by
    by_cases hj : j = k
    · subst hj
      cases found.symm.trans h
      exact ⟨_, setLine_same found, rfl, kept.2⟩
    · exact ⟨l, (setLine_ne hj).trans h, rfl, rfl, fun h => h⟩
  refine ⟨fun j l h => ?_, fun id j h => ?_, filed.processing, fun ids h id hid => ?_, filed.panics⟩
  · rcases of_setLine found h with ⟨-, h⟩ | ⟨-, rfl⟩
    · exact filed.capacity j l h
    · exact kept.1.trans (filed.capacity k line found)
  · obtain ⟨l, hl, hincr, hclosed, hempty⟩ := filed.entries id j h
    obtain ⟨l', hl', hincr', hclosed', hempty'⟩ := same hl
    exact ⟨l', hl', hincr'.trans hincr, fun h => hclosed (hclosed' ▸ h),
      hempty.imp hempty' fun h => h⟩
  · obtain ⟨j, l, hj, hl, hclosed⟩ := filed.visited ids h id hid
    obtain ⟨l', hl', -, hclosed', -⟩ := same hl
    exact ⟨j, l', hj, hl', hclosed'.trans hclosed⟩

section Entry

variable {id : UInt64} {k : Nat} {line : Line} {ch : Chan Result}
  (entry : ck.responseCh.lookup id = some k) (found : ck.lines[k]? = some line)

include entry found

theorem deliver (filed : Filed ck) {x : Result} (free : ck.processing = none)
    (sent : line.ch.send x = .done ch) (responses : List (Side × Call)) :
    Filed { ck.setLine k ch with responses := responses, processing := some (id, k) } := by
  obtain ⟨hopen, -, rfl⟩ := Chan.send_done sent
  refine ⟨fun j l h => ?_, fun id' j h => ?_, fun id' j h => ?_, fun ids h id' hid => ?_,
    filed.panics⟩
  · rcases of_setLine found h with ⟨-, h⟩ | ⟨-, rfl⟩
    · exact filed.capacity j l h
    · exact filed.capacity k line found
  · by_cases hid : id' = id
    · subst hid
      cases entry.symm.trans h
      obtain ⟨l, hl, hincr, hclosed, -⟩ := filed.entries id' k entry
      cases found.symm.trans hl
      exact ⟨_, setLine_same found, hincr, hclosed, .inr rfl⟩
    · obtain ⟨l, hl, hincr, hclosed, hempty⟩ := filed.entries id' j h
      refine ⟨l, (setLine_ne (filed.line_ne h entry hid)).trans hl, hincr, hclosed, .inl ?_⟩
      exact hempty.resolve_right (by simp [free])
  · cases h
    exact entry
  · obtain ⟨j, l, hj, hl, hclosed⟩ := filed.visited ids h id' hid
    have hjk : j ≠ k := by
      rintro rfl
      cases found.symm.trans hl
      rw [hopen] at hclosed
      cases hclosed
    exact ⟨j, l, hj, (setLine_ne hjk).trans hl, hclosed⟩

theorem close (filed : Filed ck) (inside : ck.processing = some (id, k))
    (closed : line.ch.close = .done ch) :
    Filed { ck.setLine k ch with responseCh := ck.responseCh.erase id, processing := none } := by
  obtain ⟨hopen, rfl⟩ := Chan.close_done closed
  refine ⟨fun j l h => ?_, fun id' j h => ?_, fun id' j h => (by cases h),
    fun ids h id' hid => ?_, filed.panics⟩
  · rcases of_setLine found h with ⟨-, h⟩ | ⟨-, rfl⟩
    · exact filed.capacity j l h
    · exact filed.capacity k line found
  · have hid : id' ≠ id := by
      rintro rfl
      rw [Finmap.lookup_erase] at h
      cases h
    rw [Finmap.lookup_erase_ne hid] at h
    obtain ⟨l, hl, hincr, hclosed, hempty⟩ := filed.entries id' j h
    refine ⟨l, (setLine_ne (filed.line_ne h entry hid)).trans hl, hincr, hclosed, .inl ?_⟩
    refine hempty.resolve_right fun h => hid ?_
    cases inside.symm.trans h
    rfl
  · obtain ⟨j, l, hj, hl, hclosed⟩ := filed.visited ids h id' hid
    -- an entry that `Stop` has been at is closed, and cannot be the one that is deleted
    have hid : id' ≠ id := by
      rintro rfl
      cases entry.symm.trans hj
      cases found.symm.trans hl
      rw [hopen] at hclosed
      cases hclosed
    exact ⟨j, l, by rwa [Finmap.lookup_erase_ne hid],
      (setLine_ne (filed.line_ne hj entry hid)).trans hl, hclosed⟩

theorem closeNext (filed : Filed ck) {ids : List UInt64} (stopping : ck.visited = some ids)
    (closed : line.ch.close = .done ch) :
    Filed { ck.setLine k ch with visited := some (id :: ids) } := by
  obtain ⟨hopen, rfl⟩ := Chan.close_done closed
  refine ⟨fun j l h => ?_, fun id' j h => ?_, filed.processing, fun ids' h id' hid => ?_,
    fun _ => Option.some_ne_none _⟩
  · rcases of_setLine found h with ⟨-, h⟩ | ⟨-, rfl⟩
    · exact filed.capacity j l h
    · exact filed.capacity k line found
  · obtain ⟨l, hl, hincr, -, hempty⟩ := filed.entries id' j h
    by_cases hj : j = k
    · subst hj
      cases found.symm.trans hl
      exact ⟨_, setLine_same found, hincr, fun _ => Option.some_ne_none _, hempty⟩
    · exact ⟨l, (setLine_ne hj).trans hl, hincr, fun _ => Option.some_ne_none _, hempty⟩
  · cases h
    by_cases hsame : id' = id
    · subst hsame
      exact ⟨k, _, entry, setLine_same found, rfl⟩
    · obtain ⟨j, l, hj, hl, hclosed⟩ :=
        filed.visited ids stopping id' ((List.mem_cons.mp hid).resolve_left hsame)
      exact ⟨j, l, hj, (setLine_ne (filed.line_ne hj entry hsame)).trans hl, hclosed⟩

end Entry

theorem step (filed : Filed ck) (h : ck.step a = some t) : Filed t := by
  obtain ⟨running, steps⟩ := steps_of_step h
  cases steps with
  | aside lines responseCh processing visited panic =>
      exact filed.of_same lines responseCh processing visited (panic ▸ filed.panics)
  | file new => exact filed.file new running _
  | receive found received =>
      exact (filed.receive found received).of_same rfl rfl rfl rfl filed.panics
  | crash result =>
      refine filed.of_same rfl rfl rfl rfl fun panics => ?_
      rcases Result.of_finish_error result with rfl | rfl <;> simp at panics
  | deliver free entry found sent => exact filed.deliver entry found free sent _
  | refuse entry found sent =>
      refine filed.of_same rfl rfl rfl rfl fun _ => ?_
      obtain ⟨l, hl, -, hclosed, -⟩ := filed.entries _ _ entry
      cases found.symm.trans hl
      refine hclosed ?_
      unfold Chan.send at sent
      split at sent
      · assumption
      · split at sent <;> cases sent
  | close inside found closed =>
      exact filed.close (filed.processing _ _ inside) found inside closed
  | closeTwice inside found closed =>
      refine filed.of_same rfl rfl rfl rfl fun _ => ?_
      obtain ⟨l, hl, -, hclosed, -⟩ := filed.entries _ _ (filed.processing _ _ inside)
      cases found.symm.trans hl
      exact hclosed closed
  | stop =>
      refine ⟨filed.capacity, fun id k h => ?_, filed.processing, fun ids h id hid => ?_,
        fun _ => Option.some_ne_none _⟩
      · obtain ⟨l, hl, hincr, -, hempty⟩ := filed.entries id k h
        exact ⟨l, hl, hincr, fun _ => Option.some_ne_none _, hempty⟩
      · cases h
        cases hid
  | closeNext stopping entry found closed => exact filed.closeNext entry found stopping closed
  | closeAgain stopping =>
      exact filed.of_same rfl rfl rfl rfl fun _ => by simp [stopping]

end Filed

/-- **The receivers do not block.** In every run, with any responses and any coincidence of
`IncrId`s, a receiver that has `muM` can go on; it neither sends on a closed channel nor
closes one twice before `Stop` is called. After `Stop` has closed the channel of a
request, the response to that request ends the program. -/
theorem receivers_never_block {clerkId : Int32} {ck : Clerk}
    (reached : Reachable step (make clerkId) ck) :
    (ck.panic = some .sendOnClosed ∨ ck.panic = some .closeOfClosed → ck.visited ≠ none) ∧
      (ck.panic = none →
        (ck.processing = none → ∀ side call, ck.Passes side call.data →
          (ck.step (.processResponse side call)).isSome = true) ∧
        (ck.processing ≠ none → (ck.step .closeResponse).isSome = true) ∧
        (ck.processing = none → ∀ ids, ck.visited = some ids → ∀ side call,
          ck.Passes side call.data → call.incrId ∈ ids → Body.unpack call.data ≠ none →
            (ck.step (.processResponse side call)).map Clerk.panic =
              some (some .sendOnClosed))) := by
  have filed : Filed ck :=
    reached.invariant (filed_make clerkId) fun _ _ _ _ filed _ taken => filed.step taken
  refine ⟨filed.panics, fun running => ⟨fun free side call passes => ?_, fun inside => ?_,
    fun free ids stopped side call passes hcall unpacked => ?_⟩⟩
  · simp only [step, running, Option.isSome_none, Bool.false_eq_true, if_false, free,
      Option.isNone_none, passes, and_self, if_true, processResponse]
    split
    · rfl
    · split
      · rfl
      · rename_i k entry
        obtain ⟨line, hline, -, -, hempty⟩ := filed.entries _ _ entry
        have hempty := hempty.resolve_right (by simp [free])
        have hcapacity := filed.capacity k line hline
        cases hclosed : line.ch.closed <;> simp [hline, Chan.send, hempty, hcapacity, hclosed]
  · obtain ⟨⟨id, k⟩, inside⟩ := Option.ne_none_iff_exists'.mp inside
    obtain ⟨line, hline, -⟩ := filed.entries id k (filed.processing id k inside)
    simp [step, running, closeResponse, inside, hline]
  · obtain ⟨k, line, entry, hline, hclosed⟩ := filed.visited ids stopped _ hcall
    obtain ⟨body, hbody⟩ := Option.ne_none_iff_exists'.mp unpacked
    simp [step, running, free, passes, processResponse, hbody, entry, hline, Chan.send, hclosed]

/-- A request of `Get`, up to the point where it waits. -/
def request (key : Bytes) (uid : UInt64) : List ClerkAction :=
  [.prepare opGet key [] uid, .call 0 .look, .call 0 (.send none)]

/-- The response comes after `Stop`. -/
theorem receivers_never_block_late :
    ∃ ck : Clerk, Reachable step (make 101) ck ∧ ck.panic = none ∧
      (ck.step (.processResponse .get ⟨7, errOk, [0, 0, 0, 0]⟩)).map Clerk.panic =
        some (some .sendOnClosed) := by
  have ended : ∃ ck : Clerk, Reachable step (make 101) ck ∧ ck.panic = none ∧
      ck.processing = none ∧ ck.visited = some [7] :=
    exists_reachable
      (fun ck : Clerk => ck.panic = none ∧ ck.processing = none ∧ ck.visited = some [7])
      (request [107] 7 ++ [.stop, .closeNext 7]) (by decide +kernel)
  obtain ⟨ck, reached, running, free, stopped⟩ := ended
  refine ⟨ck, reached, running, ?_⟩
  exact ((receivers_never_block reached).2 running).2.2 free [7] stopped .get _
    (fun put => by cases put) (by decide) (by decide)

end Clerk

end RaftKv.Server
