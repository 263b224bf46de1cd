import RaftKv.Server.ClusterManager

/-!
# The status of a node on its way to the cluster manager

Once in a second a node sends its commit index and whether it leads. Until the cluster
manager has confirmed the first message, the messages also have the address of the node:
its port, and the host as far as `StartKVServer` has found it in the configured address.

`PackAddr` appends the port and the host behind the head, and `handleSync` reads them if
`IpLen`, the length of the host as an `int16`, is positive. The two agree if the host is
not empty and so short that `IpLen+4` is an `int16` as well. In all other cases the first
message is not read as it was sent.

What has been read is recorded by the id of the node. A message without an address leaves
the address alone that came with an earlier one.
-/

namespace RaftKv.StatusSync

open Library RaftKv.Proxy
open RaftKv.Raft (Bytes)
open RaftKv.Server (littleEndian32)

/-! ### Messages -/

/-- `proxy.SyncMsg`. -/
structure SyncMsg where
  commitIndex : Int64
  isLeader : Bool
  ipLen : Int16
  serverId : Int32
  port : Int32 := 0
  ip : Bytes := []
  deriving DecidableEq

/-- `binary.Write` of an `int16`. -/
def littleEndian16 (x : Int16) : Bytes := putLE 2 x.toUInt16.toNat

/-- `binary.Write` of a `bool`. -/
def byteOfBool (b : Bool) : Bytes := [if b then 1 else 0]

def readInt64 (data : Bytes) : Option (Int64 × Bytes) :=
  (readUInt64 data).map fun (x, rest) => (x.toInt64, rest)

def readInt16 (data : Bytes) : Option (Int16 × Bytes) :=
  (readLE 2 data).map fun (n, rest) => ((UInt16.ofNat n).toInt16, rest)

/-- Every byte but zero is `true`. -/
def readBool : Bytes → Option (Bool × Bytes)
  | [] => none
  | b :: rest => some (decide (b ≠ 0), rest)

namespace SyncMsgPack

/-- `GetHeadLen`. -/
def headLen : Nat := 15

/-- `Pack`. -/
def pack (msg : SyncMsg) : Bytes :=
  littleEndian64 msg.commitIndex.toUInt64 ++ byteOfBool msg.isLeader ++
    littleEndian16 msg.ipLen ++ littleEndian32 msg.serverId.toUInt32

/-- `PackAddr`. -/
def packAddr (msg : SyncMsg) : Bytes :=
  pack msg ++ littleEndian32 msg.port.toUInt32 ++ msg.ip

/-- `UnpackHead`. -/
def unpackHead (data : Bytes) : Option SyncMsg :=
  (readInt64 data).bind fun (commitIndex, data) =>
    (readBool data).bind fun (isLeader, data) =>
      (readInt16 data).bind fun (ipLen, data) =>
        (readInt32 data).map fun (serverId, _) =>
          { commitIndex := commitIndex, isLeader := isLeader, ipLen := ipLen, serverId := serverId }

/-- `UnpackBody`. -/
def unpackBody (data : Bytes) (msg : SyncMsg) : Option SyncMsg :=
  (readInt32 (data.take 4)).map fun (port, _) => { msg with port := port, ip := data.drop 4 }

end SyncMsgPack

/-! ### The node -/

/-- The fields of `KVServer` that `sendStatus` uses. -/
structure StatusSender where
  me : Int32
  ip : Bytes
  sendPort : Int32
  initialized : Bool := false
  deriving DecidableEq

/-- The digits of a number in base ten, behind those that have the value `n`. -/
def decimal : Nat → Bytes → Option Nat
  | n, [] => some n
  | n, b :: rest => if 48 ≤ b ∧ b ≤ 57 then decimal (10 * n + (b.toNat - 48)) rest else none

/-- `strconv.Atoi`: a sign or none, at least one digit, and a value of 64 bits. -/
def atoi (s : Bytes) : Option Int64 :=
  let digits := if s.head? = some 43 ∨ s.head? = some 45 then s.drop 1 else s
  if digits = [] then none
  else (decimal 0 digits).bind fun n =>
    let value : Int := if s.head? = some 45 then -n else n
    if -2 ^ 63 ≤ value ∧ value < 2 ^ 63 then some (Int64.ofInt value) else none

/-- `StartKVServer` splits the address at the colons. Without a colon there is no second
part, and the index is out of range. -/
def startKVServer (me : Int32) (addr : Bytes) : Option StatusSender :=
  let ip := addr.takeWhile (· ≠ 58)
  match addr.drop ip.length with
  | [] => none
  | _ :: rest => (atoi (rest.takeWhile (· ≠ 58))).map fun port =>
      { me := me, ip := ip, sendPort := port.toInt32 }

/-- What `GetState` returns to a call of `sendStatus`, and whether the confirmation comes
before the deadline, if the call waits for it. -/
structure Status where
  commitIndex : Int64
  isLeader : Bool
  confirmed : Bool

namespace StatusSender

def message (kv : StatusSender) (status : Status) : SyncMsg :=
  let message : SyncMsg :=
    { commitIndex := status.commitIndex, isLeader := status.isLeader, ipLen := 0
      serverId := kv.me }
  if kv.initialized then message
  else { message with ipLen := Int16.ofInt kv.ip.length, port := kv.sendPort, ip := kv.ip }

/-- `sendStatus`: what is written, and the fields afterwards. -/
def sendStatus (kv : StatusSender) (status : Status) : Bytes × StatusSender :=
  if kv.initialized then (SyncMsgPack.pack (kv.message status), kv)
  else (SyncMsgPack.packAddr (kv.message status), { kv with initialized := status.confirmed })

/-- The messages of a sequence of calls. -/
def messages : StatusSender → List Status → List SyncMsg
  | _, [] => []
  | kv, status :: rest => kv.message status :: messages (kv.sendStatus status).2 rest

/-- What they write to the connection. -/
def stream : StatusSender → List Status → Bytes
  | _, [] => []
  | kv, status :: rest => (kv.sendStatus status).1 ++ stream (kv.sendStatus status).2 rest

end StatusSender

/-! ### The cluster manager -/

/-- The rest of a round of `handleSync`, once the head has been read. The length of the
body is computed in `int16`, and to make a slice of a negative length is a panic. -/
def readBody (msg : SyncMsg) (stream : Bytes) : Option (Option (SyncMsg × Bytes)) :=
  if 0 < msg.ipLen then
    if msg.ipLen + 4 < 0 then none
    else
      match readFull (msg.ipLen + 4).toInt.toNat stream with
      | none => some none
      | some (body, stream) =>
          some ((SyncMsgPack.unpackBody body msg).map fun msg => (msg, stream))
  else some (some (msg, stream))

/-- The next message of `handleSync`, and what follows it: `none` for a panic, and
`some none` if there are not enough bytes. -/
def nextSync (stream : Bytes) : Option (Option (SyncMsg × Bytes)) :=
  match readFull SyncMsgPack.headLen stream with
  | none => some none
  | some (head, stream) =>
      match SyncMsgPack.unpackHead head with
      | none => some none
      | some msg => readBody msg stream

/-- The loop of `handleSync`: the messages, and the bytes that are left. -/
def handleSync : Nat → Bytes → Option (List SyncMsg × Bytes)
  | 0, stream => some ([], stream)
  | fuel + 1, stream =>
      match nextSync stream with
      | none => none
      | some none => some ([], stream)
      | some (some (msg, stream)) =>
          (handleSync fuel stream).map fun (msgs, left) => (msg :: msgs, left)

/-- `Node`. -/
structure Node where
  commitIndex : Int64
  isLeader : Bool
  port : Int32 := 0
  ip : Bytes := []

/-! ### Heads and bodies -/

@[simp] theorem readInt64_littleEndian64 (x : Int64) (rest : Bytes) :
    readInt64 (littleEndian64 x.toUInt64 ++ rest) = some (x, rest) := by
  rw [readInt64, readUInt64_littleEndian64, Option.map_some]
  rfl

@[simp] theorem readInt16_littleEndian16 (x : Int16) (rest : Bytes) :
    readInt16 (littleEndian16 x ++ rest) = some (x, rest) := by
  rw [littleEndian16, readInt16, readLE_putLE x.toUInt16.toNat_lt, Option.map_some]
  dsimp only
  rw [UInt16.ofNat_toNat]
  rfl

@[simp] theorem readBool_byteOfBool (b : Bool) (rest : Bytes) :
    readBool (byteOfBool b ++ rest) = some (b, rest) := by
  cases b <;> rfl

@[simp] theorem length_littleEndian32 (x : UInt32) : (littleEndian32 x).length = 4 := rfl

namespace SyncMsgPack

variable {msg : SyncMsg} {rest : Bytes}

theorem length_pack : (pack msg).length = headLen := by
  simp [pack, littleEndian64, byteOfBool, littleEndian16, Server.littleEndian32, headLen]

/-- The head says nothing of the address. -/
theorem unpackHead_pack : unpackHead (pack msg) = some { msg with port := 0, ip := [] } := by
  have last := readInt32_littleEndian32 msg.serverId []
  rw [List.append_nil] at last
  rw [unpackHead, pack, List.append_assoc, List.append_assoc, readInt64_littleEndian64,
    Option.bind_some]
  dsimp only
  rw [readBool_byteOfBool, Option.bind_some]
  dsimp only
  rw [readInt16_littleEndian16, Option.bind_some]
  dsimp only
  rw [last, Option.map_some]

theorem unpackBody_append (port : Int32) (ip : Bytes) :
    unpackBody (littleEndian32 port.toUInt32 ++ ip) msg =
      some { msg with port := port, ip := ip } := by
  have length := length_littleEndian32 port.toUInt32
  have first := readInt32_littleEndian32 port []
  rw [List.append_nil] at first
  rw [unpackBody, List.take_left' length, List.drop_left' length, first, Option.map_some]

end SyncMsgPack

/-- The length of a body as an `int16`. -/
theorem bodyLen {x : Int16} (hx : 0 < x) :
    (x + 4 < 0 ↔ 32763 < x.toInt) ∧ (x.toInt ≤ 32763 → (x + 4).toInt = x.toInt + 4) := by
  have positive : (0 : Int) < x.toInt := Int16.lt_iff_toInt_lt.mp hx
  have bound := x.toInt_lt
  have sum : (x + 4).toInt = (x.toInt + 4).bmod (2 ^ 16) := Int16.toInt_add x 4
  rw [Int16.lt_iff_toInt_lt, sum, Int.bmod_def]
  change (_ < (0 : Int) ↔ _) ∧ _
  constructor
  · omega
  · omega

section Next

variable {msg : SyncMsg} {rest : Bytes}

theorem nextSync_pack :
    nextSync (SyncMsgPack.pack msg ++ rest) = readBody { msg with port := 0, ip := [] } rest := by
  rw [nextSync, readFull_append SyncMsgPack.length_pack]
  dsimp only
  rw [SyncMsgPack.unpackHead_pack]

/-- Of the host as many bytes are read as `IpLen` says. -/
theorem nextSync_packAddr (hlen : 0 < msg.ipLen) (hshort : msg.ipLen.toInt ≤ 32763)
    {host behind : Bytes} (hhost : (host.length : Int) = msg.ipLen.toInt)
    (hip : msg.ip ++ rest = host ++ behind) :
    nextSync (SyncMsgPack.packAddr msg ++ rest) =
      some (some ({ msg with ip := host }, behind)) := by
  have split : SyncMsgPack.packAddr msg ++ rest =
      SyncMsgPack.pack msg ++ (littleEndian32 msg.port.toUInt32 ++ host ++ behind) := by
    rw [SyncMsgPack.packAddr, List.append_assoc, List.append_assoc, hip, List.append_assoc]
  have size : (littleEndian32 msg.port.toUInt32 ++ host).length =
      (msg.ipLen + 4).toInt.toNat := by
    rw [List.length_append, length_littleEndian32, (bodyLen hlen).2 hshort]
    omega
  have fits : ¬ msg.ipLen + 4 < 0 := by
    rw [(bodyLen hlen).1]
    omega
  rw [split, nextSync_pack, readBody, if_pos hlen, if_neg fits]
  dsimp only
  rw [readFull_append size]
  dsimp only
  rw [SyncMsgPack.unpackBody_append, Option.map_some]

end Next

/-! ### Streams of messages -/

/-- The host is not empty, and the length of the body is an `int16`. -/
def StatusSender.Addressable (kv : StatusSender) : Prop :=
  1 ≤ kv.ip.length ∧ kv.ip.length ≤ 32763

/-- The messages are read as they were sent, and nothing is left. -/
def Faithful (kv : StatusSender) (calls : List Status) : Prop :=
  handleSync (kv.stream calls).length (kv.stream calls) = some (kv.messages calls, [])

theorem ipLen_of_host (host : Bytes) :
    (Int16.ofInt host.length).toInt = (host.length : Int).bmod (2 ^ 16) :=
  Int16.toInt_ofInt

theorem positive_iff (x : Int16) : 0 < x ↔ 0 < x.toInt := Int16.lt_iff_toInt_lt

section Stream

variable {kv : StatusSender} {status : Status}

theorem sendStatus_snd :
    (kv.sendStatus status).2 = { kv with initialized := kv.initialized || status.confirmed } := by
  rw [StatusSender.sendStatus]
  cases hinit : kv.initialized with
  | false => rfl
  | true => rw [if_pos rfl, Bool.true_or, ← hinit]

theorem length_sendStatus : 0 < (kv.sendStatus status).1.length := by
  have head {msg : SyncMsg} : (SyncMsgPack.pack msg).length = 15 := SyncMsgPack.length_pack
  rw [StatusSender.sendStatus]
  split
  · rw [head]
    decide
  · dsimp only
    rw [SyncMsgPack.packAddr, List.length_append, List.length_append, head]
    omega

/-- One call is read back, whatever follows it. -/
theorem nextSync_sendStatus (h : kv.Addressable) (rest : Bytes) :
    nextSync ((kv.sendStatus status).1 ++ rest) = some (some (kv.message status, rest)) := by
  obtain ⟨nonempty, short⟩ := h
  rw [StatusSender.sendStatus]
  split
  · rename_i hinit
    rw [StatusSender.message, if_pos hinit, nextSync_pack]
    exact if_neg (show ¬ (0 : Int16) < 0 by decide)
  · rename_i hinit
    have length : (Int16.ofInt kv.ip.length).toInt = kv.ip.length := by
      rw [ipLen_of_host, Int.bmod_def]
      omega
    rw [StatusSender.message, if_neg hinit]
    refine nextSync_packAddr ?_ ?_ length.symm rfl
    · rw [positive_iff, length]
      omega
    · rw [length]
      omega

theorem handleSync_stream (h : kv.Addressable) {calls : List Status} {fuel : Nat}
    (enough : (kv.stream calls).length ≤ fuel) :
    handleSync fuel (kv.stream calls) = some (kv.messages calls, []) := by
  induction calls generalizing kv fuel with
  | nil =>
      cases fuel <;> rfl
  | cons status calls ih =>
      have next : (kv.sendStatus status).2.Addressable := by
        rw [sendStatus_snd]
        exact h
      have positive := @length_sendStatus kv status
      rw [StatusSender.stream, List.length_append] at enough
      obtain ⟨fuel, rfl⟩ : ∃ k, fuel = k + 1 := ⟨fuel - 1, by omega⟩
      rw [StatusSender.stream, handleSync, nextSync_sendStatus h]
      dsimp only
      rw [ih next (by omega), Option.map_some, StatusSender.messages]

theorem of_handleSync {fuel : Nat} {stream rest left : Bytes} {msg first : SyncMsg}
    {msgs : List SyncMsg} (next : nextSync stream = some (some (msg, rest)))
    (h : handleSync (fuel + 1) stream = some (first :: msgs, left)) :
    msg = first ∧ handleSync fuel rest = some (msgs, left) := by
  rw [handleSync, next] at h
  obtain ⟨result, hrest, hresult⟩ := Option.map_eq_some_iff.mp h
  cases hresult
  exact ⟨rfl, hrest⟩

/-- Less than a head is left alone. -/
theorem handleSync_short {fuel : Nat} {stream : Bytes} (short : stream.length < 15) :
    handleSync fuel stream = some ([], stream) := by
  cases fuel with
  | zero => rfl
  | succ fuel =>
      have none : readFull SyncMsgPack.headLen stream = none := if_pos short
      rw [handleSync, nextSync, none]

/-- A message with an address is read as it was sent only if the host has a proper length. -/
theorem length_of_packAddr {fuel : Nat} {msg : SyncMsg}
    (hipLen : msg.ipLen.toInt = (msg.ip.length : Int).bmod (2 ^ 16))
    (h : handleSync (fuel + 1) (SyncMsgPack.packAddr msg) = some ([msg], [])) :
    1 ≤ msg.ip.length ∧ msg.ip.length ≤ 32763 := by
  rw [Int.bmod_def] at hipLen
  by_cases hlen : 0 < msg.ipLen
  · have positive := (positive_iff msg.ipLen).mp hlen
    by_cases hshort : msg.ipLen.toInt ≤ 32763
    · -- a host that is too long is cut off
      have host : ((msg.ip.take msg.ipLen.toInt.toNat).length : Int) = msg.ipLen.toInt := by
        rw [List.length_take]
        omega
      have next := @nextSync_packAddr msg [] hlen hshort _ (msg.ip.drop msg.ipLen.toInt.toNat) host
        (by rw [List.take_append_drop, List.append_nil])
      rw [List.append_nil] at next
      have whole := congrArg SyncMsg.ip (of_handleSync next h).1
      dsimp only at whole
      rw [whole] at host
      constructor <;> omega
    · have panics : nextSync (SyncMsgPack.packAddr msg) = none := by
        rw [SyncMsgPack.packAddr, List.append_assoc, nextSync_pack, readBody, if_pos hlen,
          if_pos ((bodyLen hlen).1.mpr (by omega))]
      rw [handleSync, panics] at h
      cases h
  · -- the address is taken for the beginning of the next message
    have next : nextSync (SyncMsgPack.packAddr msg) = some (some ({ msg with port := 0, ip := [] },
        littleEndian32 msg.port.toUInt32 ++ msg.ip)) := by
      rw [SyncMsgPack.packAddr, List.append_assoc, nextSync_pack, readBody, if_neg hlen]
    obtain ⟨first, rest⟩ := of_handleSync next h
    have empty : [] = msg.ip := congrArg SyncMsg.ip first
    have short : (littleEndian32 msg.port.toUInt32).length < 15 := by
      rw [length_littleEndian32]
      decide
    rw [← empty, List.append_nil, handleSync_short short] at rest
    cases rest

theorem addressable_of_first (hinit : kv.initialized = false) (h : Faithful kv [status]) :
    kv.Addressable := by
  have positive := @length_sendStatus kv status
  have first : ¬ kv.initialized = true := by
    rw [hinit]
    exact Bool.false_ne_true
  obtain ⟨fuel, hfuel⟩ : ∃ k, (kv.sendStatus status).1.length = k + 1 :=
    ⟨(kv.sendStatus status).1.length - 1, by omega⟩
  rw [Faithful, StatusSender.stream, StatusSender.stream, List.append_nil, hfuel,
    StatusSender.sendStatus, if_neg first, StatusSender.messages, StatusSender.messages,
    StatusSender.message, if_neg first] at h
  refine length_of_packAddr ?_ h
  exact ipLen_of_host kv.ip

end Stream

/-! ### A node that is started -/

theorem initialized_of_started {me : Int32} {addr : Bytes} {kv : StatusSender}
    (started : startKVServer me addr = some kv) : kv.initialized = false := by
  rw [startKVServer] at started
  split at started
  · cases started
  · obtain ⟨port, -, rfl⟩ := Option.map_eq_some_iff.mp started
    rfl

/-- **Status messages.** For a node that has been started with an address, every sequence of
calls is read as it was sent, with nothing left, if and only if the host in the address has
at least one and at most 32763 bytes. -/
theorem status_read_as_sent {me : Int32} {addr : Bytes} {kv : StatusSender}
    (started : startKVServer me addr = some kv) :
    (∀ calls, Faithful kv calls) ↔ kv.Addressable := by
  constructor
  · intro h
    exact addressable_of_first (initialized_of_started started) (h [⟨0, false, false⟩])
  · intro h calls
    exact handleSync_stream h (Nat.le_refl _)

/-- An address as it is written in a configuration. -/
def ascii (addr : String) : Bytes := addr.toList.map fun c => UInt8.ofNat c.toNat

theorem status_read_as_sent_local :
    ∃ kv, startKVServer 1 (ascii "127.0.0.1:8080") = some kv ∧
      Faithful kv [⟨5, false, true⟩, ⟨6, true, true⟩] := by
  obtain ⟨kv, started, hip⟩ : ∃ kv, startKVServer 1 (ascii "127.0.0.1:8080") = some kv ∧
      kv.ip = ascii "127.0.0.1" := ⟨_, rfl, rfl⟩
  refine ⟨kv, started, (status_read_as_sent started).mpr ?_ _⟩
  rw [StatusSender.Addressable, hip]
  decide

/-- With an empty host the port of the first message is taken for the beginning of the
second one. -/
theorem status_out_of_step :
    ∃ kv, startKVServer 1 (ascii ":8080") = some kv ∧
      kv.messages [⟨5, false, false⟩, ⟨6, true, false⟩] =
        [{ commitIndex := 5, isLeader := false, ipLen := 0, serverId := 1, port := 8080 },
          { commitIndex := 6, isLeader := true, ipLen := 0, serverId := 1, port := 8080 }] ∧
      (handleSync (kv.stream [⟨5, false, false⟩, ⟨6, true, false⟩]).length
        (kv.stream [⟨5, false, false⟩, ⟨6, true, false⟩])).map Prod.fst =
        some [{ commitIndex := 5, isLeader := false, ipLen := 0, serverId := 1 },
          { commitIndex := 25769811856, isLeader := false, ipLen := 0, serverId := 256 }] :=
  ⟨_, rfl, by decide, by decide⟩

end RaftKv.StatusSync
