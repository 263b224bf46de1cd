import RaftKv.Library.Wire
import RaftKv.Server.KVServer

/-!
# Messages between clerks, the cluster manager and servers

A request has a head of 20 bytes and a response one of 28, each with the length of what
follows. What follows is a body: the length of the key, and key and value in a row. The
clerk, the server and the cluster manager each write and read them on their own account.

`MaxPackageSize` is a parameter: it is defined in a package that is not there. A value
that Go leaves out of bounds (a key that is longer than its body) ends with `none`, as
does an error.
-/

namespace RaftKv.Proxy

open Library
open RaftKv.Raft (Bytes Op)
open RaftKv.Server (ServerResponse littleEndian32 packBody opToResp)

/-! ### Fields -/

/-- `binary.Write` of a `uint64` in little-endian order. -/
def littleEndian64 (x : UInt64) : Bytes := putLE 8 x.toNat

/-- `binary.Read` of a `uint32`. -/
def readUInt32 (data : Bytes) : Option (UInt32 × Bytes) :=
  (readLE 4 data).map fun (n, rest) => (UInt32.ofNat n, rest)

def readUInt64 (data : Bytes) : Option (UInt64 × Bytes) :=
  (readLE 8 data).map fun (n, rest) => (UInt64.ofNat n, rest)

def readInt32 (data : Bytes) : Option (Int32 × Bytes) :=
  (readUInt32 data).map fun (x, rest) => (x.toInt32, rest)

/-- `io.ReadFull` of so many bytes. -/
def readFull (n : Nat) (stream : Bytes) : Option (Bytes × Bytes) :=
  if stream.length < n then none else some (stream.take n, stream.drop n)

theorem toUInt8_shiftRight (x : UInt32) {k : Nat} (hk : k < 32) :
    (x >>> UInt32.ofNat k).toUInt8 = UInt8.ofNat (x.toNat / 2 ^ k) := by
  apply UInt8.toNat_inj.mp
  have small : k % 2 ^ 32 % 32 = k := by omega
  rw [UInt32.toNat_toUInt8, UInt32.toNat_shiftRight, UInt8.toNat_ofNat', UInt32.toNat_ofNat', small,
    Nat.shiftRight_eq_div_pow]

/-- The four shifts of the server are the four bytes of the number. -/
theorem littleEndian32_eq (x : UInt32) : littleEndian32 x = putLE 4 x.toNat := by
  have lowest : x.toUInt8 = UInt8.ofNat x.toNat := by
    apply UInt8.toNat_inj.mp
    rw [UInt32.toNat_toUInt8, UInt8.toNat_ofNat']
  have second : (x >>> 8).toUInt8 = UInt8.ofNat (x.toNat / 256) :=
    toUInt8_shiftRight x (k := 8) (by decide)
  have third : (x >>> 16).toUInt8 = UInt8.ofNat (x.toNat / 256 / 256) := by
    rw [Nat.div_div_eq_div_mul]
    exact toUInt8_shiftRight x (k := 16) (by decide)
  have highest : (x >>> 24).toUInt8 = UInt8.ofNat (x.toNat / 256 / 256 / 256) := by
    rw [Nat.div_div_eq_div_mul, Nat.div_div_eq_div_mul]
    exact toUInt8_shiftRight x (k := 24) (by decide)
  rw [littleEndian32, lowest, second, third, highest]
  rfl

@[simp] theorem readUInt32_littleEndian32 (x : UInt32) (rest : Bytes) :
    readUInt32 (littleEndian32 x ++ rest) = some (x, rest) := by
  rw [littleEndian32_eq, readUInt32, readLE_putLE x.toNat_lt, Option.map_some]
  dsimp only
  rw [UInt32.ofNat_toNat]

@[simp] theorem readUInt64_littleEndian64 (x : UInt64) (rest : Bytes) :
    readUInt64 (littleEndian64 x ++ rest) = some (x, rest) := by
  rw [littleEndian64, readUInt64, readLE_putLE x.toNat_lt, Option.map_some]
  dsimp only
  rw [UInt64.ofNat_toNat]

@[simp] theorem readInt32_littleEndian32 (x : Int32) (rest : Bytes) :
    readInt32 (littleEndian32 x.toUInt32 ++ rest) = some (x, rest) := by
  rw [readInt32, readUInt32_littleEndian32, Option.map_some]
  rfl

@[simp] theorem readFull_append {n : Nat} {bytes : Bytes} (h : bytes.length = n) (rest : Bytes) :
    readFull n (bytes ++ rest) = some (bytes, rest) := by
  have long : ¬(bytes ++ rest).length < n := by
    rw [List.length_append]
    omega
  rw [readFull, if_neg long, List.take_left' h, List.drop_left' h]

/-! ### Bodies -/

/-- `proxy.Body`. -/
structure Body where
  keyLen : UInt32
  keyValue : Bytes

namespace Body

/-- `BodyPack.Pack`. -/
def pack (body : Body) : Bytes := littleEndian32 body.keyLen ++ body.keyValue

/-- `BodyPack.Unpack`. -/
def unpack (data : Bytes) : Option Body :=
  (readUInt32 data).map fun (keyLen, _) => { keyLen := keyLen, keyValue := data.drop 4 }

def getKey (body : Body) : Option Bytes :=
  if body.keyValue.length < body.keyLen.toNat then none
  else some (body.keyValue.take body.keyLen.toNat)

def getValue (body : Body) : Option Bytes :=
  if body.keyValue.length < body.keyLen.toNat then none
  else some (body.keyValue.drop body.keyLen.toNat)

end Body

/-! ### Requests -/

/-- `proxy.ClientMessage`. -/
structure ClientMessage where
  opId : UInt32
  dataLen : UInt32
  incrId : UInt64
  clerkId : Int32
  data : Bytes := []
  deriving DecidableEq

/-- `GetHeadLen` of `ClientDataPack`. -/
def requestLen : Nat := 20

/-- The test for `MaxPackageSize`, which is off if that is zero. -/
def tooLarge (max dataLen : UInt32) : Bool := 0 < max && max < dataLen

namespace ClientDataPack

def head (msg : ClientMessage) : Bytes :=
  littleEndian32 msg.opId ++ littleEndian32 msg.dataLen ++ littleEndian64 msg.incrId ++
    littleEndian32 msg.clerkId.toUInt32

def pack (msg : ClientMessage) : Bytes := head msg ++ msg.data

/-- The head of a message, without its data. -/
def unpack (max : UInt32) (data : Bytes) : Option ClientMessage :=
  (readUInt32 data).bind fun (opId, data) =>
    (readUInt32 data).bind fun (dataLen, data) =>
      (readUInt64 data).bind fun (incrId, data) =>
        (readInt32 data).bind fun (clerkId, _) =>
          if tooLarge max dataLen then none
          else some { opId := opId, dataLen := dataLen, incrId := incrId, clerkId := clerkId }

end ClientDataPack

/-- `MsgProcess.OpToBinary`. -/
def opToBinary (op : Op) : Bytes :=
  let body : Body := { keyLen := UInt32.ofNat op.key.length, keyValue := op.key ++ op.value }
  ClientDataPack.pack
    { dataLen := UInt32.ofNat body.pack.length, opId := op.optype, incrId := op.incrId
      clerkId := op.clerkId, data := body.pack }

/-- `Clerk.prepareData` of the clerk `clerkId` at the time `uid`, without the channel for
the answer. -/
def prepareData (clerkId : Int32) (uid : UInt64) (keyValue : Bytes) (op keyLen : UInt32) : Bytes :=
  let body : Body := { keyValue := keyValue, keyLen := keyLen }
  ClientDataPack.pack
    { dataLen := UInt32.ofNat body.pack.length, opId := op, incrId := uid, clerkId := clerkId
      data := body.pack }

/-- `MsgProcess.ClientMsgToOp`. -/
def clientMsgToOp (msg : ClientMessage) : Option Op :=
  (Body.unpack msg.data).bind fun body =>
    body.getKey.bind fun key =>
      body.getValue.map fun value =>
        { optype := msg.opId, clerkId := msg.clerkId, incrId := msg.incrId, key := key
          value := value }

/-- One round of `Cluster.serve`: a head and as much data as it says. -/
def readRequest (max : UInt32) (stream : Bytes) : Option (ClientMessage × Bytes) :=
  (readFull requestLen stream).bind fun (headBuffer, stream) =>
    (ClientDataPack.unpack max headBuffer).bind fun msg =>
      (readFull msg.dataLen.toNat stream).map fun (body, stream) => ({ msg with data := body }, stream)

/-- One round of `handleClientConnection`. -/
def readOp (max : UInt32) (stream : Bytes) : Option (Op × Bytes) :=
  (readRequest max stream).bind fun (msg, stream) =>
    (clientMsgToOp msg).map fun op => (op, stream)

/-- The requests that `Cluster.serve` queues, and what is left of the stream. -/
def serve (max : UInt32) (stream : Bytes) : List ClientMessage × Bytes :=
  readAll (readRequest max) stream.length stream

/-- The operations that a server queues. -/
def handleClientConnection (max : UInt32) (stream : Bytes) : List Op × Bytes :=
  readAll (readOp max) stream.length stream

/-! ### Responses -/

/-- `GetHeadLen` of `SerRespPack`. -/
def respHeadLen : Nat := 28

namespace SerRespPack

def head (resp : ServerResponse) : Bytes :=
  littleEndian32 resp.opId ++ littleEndian32 resp.dataLen ++ littleEndian64 resp.incrId ++
    littleEndian32 resp.clerkId.toUInt32 ++ littleEndian32 resp.serverId.toUInt32 ++
    littleEndian32 resp.err

def pack (resp : ServerResponse) : Bytes := head resp ++ resp.data

def unpack (max : UInt32) (data : Bytes) : Option ServerResponse :=
  (readUInt32 data).bind fun (opId, data) =>
    (readUInt32 data).bind fun (dataLen, data) =>
      (readUInt64 data).bind fun (incrId, data) =>
        (readInt32 data).bind fun (clerkId, data) =>
          (readInt32 data).bind fun (serverId, data) =>
            (readUInt32 data).bind fun (err, _) =>
              if tooLarge max dataLen then none
              else some
                { opId := opId, dataLen := dataLen, incrId := incrId, clerkId := clerkId
                  serverId := serverId, err := err }

end SerRespPack

/-- One round of `serveServ`. -/
def readResponse (max : UInt32) (stream : Bytes) : Option (ServerResponse × Bytes) :=
  (readFull respHeadLen stream).bind fun (headBuffer, stream) =>
    (SerRespPack.unpack max headBuffer).bind fun resp =>
      (readFull resp.dataLen.toNat stream).map fun (body, stream) =>
        ({ resp with data := body }, stream)

/-- The responses of a server, as the cluster manager reads them. -/
def serveServ (max : UInt32) (stream : Bytes) : List ServerResponse × Bytes :=
  readAll (readResponse max) stream.length stream

/-- `MsgProcess.RespToReq`. -/
def respToReq (resp : ServerResponse) : ClientMessage where
  opId := resp.opId
  dataLen := resp.dataLen
  incrId := resp.incrId
  clerkId := resp.clerkId
  data := resp.data

/-! ### Reading back what was written -/

namespace Body

variable {key value : Bytes}

@[simp] theorem length_littleEndian32 (x : UInt32) : (littleEndian32 x).length = 4 := rfl

theorem unpack_pack (body : Body) : unpack body.pack = some body := by
  rw [unpack, pack, readUInt32_littleEndian32, Option.map_some,
    List.drop_left' (length_littleEndian32 body.keyLen)]

/-- The length of the key tells it from the value. -/
theorem getKey_append (h : key.length < 2 ^ 32) :
    getKey ⟨UInt32.ofNat key.length, key ++ value⟩ = some key ∧
      getValue ⟨UInt32.ofNat key.length, key ++ value⟩ = some value := by
  have length : (UInt32.ofNat key.length).toNat = key.length := UInt32.toNat_ofNat_of_lt h
  have inside : ¬(key ++ value).length < key.length := by
    rw [List.length_append]
    omega
  rw [getKey, getValue]
  dsimp only
  rw [length, if_neg inside, if_neg inside, List.take_left, List.drop_left]
  exact ⟨rfl, rfl⟩

end Body

/-- The body of an operation. -/
theorem packBody_eq (key value : Bytes) :
    packBody key value = (Body.mk (UInt32.ofNat key.length) (key ++ value)).pack := rfl

theorem clientMsgToOp_packBody (msg : ClientMessage) {key value : Bytes}
    (data : msg.data = packBody key value) (h : key.length < 2 ^ 32) :
    clientMsgToOp msg = some
      { optype := msg.opId, clerkId := msg.clerkId, incrId := msg.incrId, key := key
        value := value } := by
  obtain ⟨hkey, hvalue⟩ : Body.getKey ⟨UInt32.ofNat key.length, key ++ value⟩ = some key ∧ _ :=
    Body.getKey_append h
  rw [clientMsgToOp, data, packBody_eq, Body.unpack_pack, Option.bind_some, hkey, Option.bind_some,
    hvalue, Option.map_some]

theorem length_head (msg : ClientMessage) : (ClientDataPack.head msg).length = requestLen := by
  simp [ClientDataPack.head, littleEndian64, requestLen]

theorem length_respHead (resp : ServerResponse) : (SerRespPack.head resp).length = respHeadLen := by
  simp [SerRespPack.head, littleEndian64, respHeadLen]

theorem unpack_head {max : UInt32} {msg : ClientMessage} (small : tooLarge max msg.dataLen = false) :
    ClientDataPack.unpack max (ClientDataPack.head msg) = some { msg with data := [] } := by
  have fields : ClientDataPack.head msg = littleEndian32 msg.opId ++ (littleEndian32 msg.dataLen ++
      (littleEndian64 msg.incrId ++ (littleEndian32 msg.clerkId.toUInt32 ++ []))) := by
    simp [ClientDataPack.head]
  simp only [ClientDataPack.unpack, fields, readUInt32_littleEndian32, readUInt64_littleEndian64,
    readInt32_littleEndian32, Option.bind_some, small]
  rfl

theorem unpack_respHead {max : UInt32} {resp : ServerResponse}
    (small : tooLarge max resp.dataLen = false) :
    SerRespPack.unpack max (SerRespPack.head resp) = some { resp with data := [] } := by
  have fields : SerRespPack.head resp = littleEndian32 resp.opId ++ (littleEndian32 resp.dataLen ++
      (littleEndian64 resp.incrId ++ (littleEndian32 resp.clerkId.toUInt32 ++
        (littleEndian32 resp.serverId.toUInt32 ++ (littleEndian32 resp.err ++ []))))) := by
    simp [SerRespPack.head]
  simp only [SerRespPack.unpack, fields, readUInt32_littleEndian32, readUInt64_littleEndian64,
    readInt32_littleEndian32, Option.bind_some, small]
  rfl

/-- So many bytes of data have a length that can be written and that is not refused. -/
def Fits (max : UInt32) (length : Nat) : Prop :=
  length < 2 ^ 32 ∧ (max = 0 ∨ length ≤ max.toNat)

instance (max : UInt32) (length : Nat) : Decidable (Fits max length) :=
  inferInstanceAs (Decidable (_ ∧ _))

namespace Fits

variable {max : UInt32} {length : Nat} (h : Fits max length)

include h

theorem toNat_ofNat : (UInt32.ofNat length).toNat = length := UInt32.toNat_ofNat_of_lt h.1

theorem tooLarge_eq : tooLarge max (UInt32.ofNat length) = false := by
  rw [tooLarge, Bool.and_eq_false_iff, decide_eq_false_iff_not, decide_eq_false_iff_not,
    UInt32.lt_iff_toNat_lt, UInt32.lt_iff_toNat_lt, h.toNat_ofNat]
  rcases h.2 with rfl | small
  · exact .inl (Nat.lt_irrefl _)
  · exact .inr (Nat.not_lt.mpr small)

/-- The length in the head is not refused, and it is the one that is then read. -/
theorem announced {dataLen : UInt32} (same : dataLen = UInt32.ofNat length) :
    tooLarge max dataLen = false ∧ length = dataLen.toNat := by
  rw [same]
  exact ⟨h.tooLarge_eq, h.toNat_ofNat.symm⟩

end Fits

/-- A message is read back, whatever follows it. -/
theorem readRequest_pack {max : UInt32} {msg : ClientMessage} (fits : Fits max msg.data.length)
    (length : msg.dataLen = UInt32.ofNat msg.data.length) (rest : Bytes) :
    readRequest max (ClientDataPack.pack msg ++ rest) = some (msg, rest) := by
  obtain ⟨small, size⟩ := fits.announced length
  rw [readRequest, ClientDataPack.pack, List.append_assoc, readFull_append (length_head msg),
    Option.bind_some]
  dsimp only
  rw [unpack_head small, Option.bind_some]
  dsimp only
  rw [readFull_append size, Option.map_some]

/-- A response is read back, whatever follows it. -/
theorem readResponse_pack {max : UInt32} {resp : ServerResponse} (fits : Fits max resp.data.length)
    (length : resp.dataLen = UInt32.ofNat resp.data.length) (rest : Bytes) :
    readResponse max (SerRespPack.pack resp ++ rest) = some (resp, rest) := by
  obtain ⟨small, size⟩ := fits.announced length
  rw [readResponse, SerRespPack.pack, List.append_assoc, readFull_append (length_respHead resp),
    Option.bind_some]
  dsimp only
  rw [unpack_respHead small, Option.bind_some]
  dsimp only
  rw [readFull_append size, Option.map_some]

/-! ### Operations -/

/-- The message of an operation. -/
def message (op : Op) : ClientMessage where
  opId := op.optype
  dataLen := UInt32.ofNat (packBody op.key op.value).length
  incrId := op.incrId
  clerkId := op.clerkId
  data := packBody op.key op.value

/-- The two ways in which an operation is written. -/
inductive Encodes (op : Op) : Bytes → Prop
  | server : Encodes op (opToBinary op)
  | clerk : Encodes op (prepareData op.clerkId op.incrId (op.key ++ op.value) op.optype
      (UInt32.ofNat op.key.length))

theorem Encodes.eq_pack {op : Op} {packet : Bytes} (h : Encodes op packet) :
    packet = ClientDataPack.pack (message op) := by
  cases h <;> rfl

theorem length_packBody (key value : Bytes) :
    (packBody key value).length = 4 + (key.length + value.length) := by
  rw [packBody, List.length_append, List.length_append]
  rfl

/-- The message of an operation is turned back into it. -/
theorem clientMsgToOp_message {op : Op} (h : op.key.length < 2 ^ 32) :
    clientMsgToOp (message op) = some op :=
  clientMsgToOp_packBody (message op) rfl h

theorem readOp_message {max : UInt32} {op : Op}
    (fits : Fits max (packBody op.key op.value).length) (rest : Bytes) :
    readOp max (ClientDataPack.pack (message op) ++ rest) = some (op, rest) := by
  have short : op.key.length < 2 ^ 32 := by
    have bound := fits.1
    rw [length_packBody] at bound
    omega
  rw [readOp, readRequest_pack fits rfl, Option.bind_some]
  dsimp only
  rw [clientMsgToOp_message short, Option.map_some]

/-- A retried operation is the operation. -/
theorem clientMsgToOp_respToReq (op : Op) (err : UInt32) (h : op.key.length < 2 ^ 32) :
    clientMsgToOp (respToReq (opToResp op err)) = some op :=
  clientMsgToOp_packBody (respToReq (opToResp op err)) rfl h

theorem append_ne_nil_of_length {head : Bytes} {n : Nat} (length : head.length = n) (pos : 0 < n)
    (data : Bytes) : head ++ data ≠ [] :=
  List.append_ne_nil_of_left_ne_nil (List.ne_nil_of_length_pos (length.symm ▸ pos)) data

theorem pack_ne_nil (msg : ClientMessage) : ClientDataPack.pack msg ≠ [] :=
  append_ne_nil_of_length (length_head msg) (by decide) _

theorem respPack_ne_nil (resp : ServerResponse) : SerRespPack.pack resp ≠ [] :=
  append_ne_nil_of_length (length_respHead resp) (by decide) _

/-! ### Streams -/

/-- The packets of some operations. -/
theorem packets_eq {ops : List Op} {packets : List Bytes} (h : List.Forall₂ Encodes ops packets) :
    packets = ops.map fun op => ClientDataPack.pack (message op) := by
  induction h with
  | nil => rfl
  | cons first _ ih => rw [first.eq_pack, ih, List.map_cons]

section Stream

variable {max : UInt32}

theorem handleClientConnection_flatten {ops : List Op}
    (fits : ∀ op ∈ ops, Fits max (packBody op.key op.value).length) :
    handleClientConnection max (ops.map fun op => ClientDataPack.pack (message op)).flatten =
      (ops, []) := by
  refine readAll_flatten ?_ (Nat.le_refl _) rfl
  rw [List.forall₂_map_right_iff]
  exact List.forall₂_same.mpr fun op hop => ⟨pack_ne_nil _, readOp_message (fits op hop)⟩

theorem serve_flatten {msgs : List ClientMessage}
    (fits : ∀ msg ∈ msgs, Fits max msg.data.length ∧ msg.dataLen = UInt32.ofNat msg.data.length) :
    serve max (msgs.map ClientDataPack.pack).flatten = (msgs, []) := by
  refine readAll_flatten ?_ (Nat.le_refl _) rfl
  rw [List.forall₂_map_right_iff]
  exact List.forall₂_same.mpr fun msg hmsg =>
    ⟨pack_ne_nil _, readRequest_pack (fits msg hmsg).1 (fits msg hmsg).2⟩

theorem serveServ_flatten {resps : List ServerResponse}
    (fits : ∀ r ∈ resps, Fits max r.data.length ∧ r.dataLen = UInt32.ofNat r.data.length) :
    serveServ max (resps.map SerRespPack.pack).flatten = (resps, []) := by
  refine readAll_flatten ?_ (Nat.le_refl _) rfl
  rw [List.forall₂_map_right_iff]
  exact List.forall₂_same.mpr fun resp hresp =>
    ⟨respPack_ne_nil _, readResponse_pack (fits resp hresp).1 (fits resp hresp).2⟩

end Stream

/-- Requests and responses are read back as they were written, one after another and to
the last byte, and a retried request is the original one. -/
theorem framing_lossless (max : UInt32) :
    (∀ ops packets, List.Forall₂ Encodes ops packets →
      (∀ op ∈ ops, Fits max (packBody op.key op.value).length) →
        handleClientConnection max packets.flatten = (ops, []) ∧
        ∃ msgs, serve max packets.flatten = (msgs, []) ∧
          msgs.map clientMsgToOp = ops.map some ∧ msgs.map ClientDataPack.pack = packets) ∧
    (∀ resps : List ServerResponse,
      (∀ r ∈ resps, Fits max r.data.length ∧ r.dataLen = UInt32.ofNat r.data.length) →
        serveServ max (resps.map SerRespPack.pack).flatten = (resps, [])) ∧
    ∀ (op : Op) (err : UInt32), op.key.length < 2 ^ 32 →
      clientMsgToOp (respToReq (opToResp op err)) = some op := by
  refine ⟨?_, fun resps fits => serveServ_flatten fits, clientMsgToOp_respToReq⟩
  intro ops packets encodes fits
  cases packets_eq encodes
  refine ⟨handleClientConnection_flatten fits, ops.map message, ?_, ?_, ?_⟩
  · have served : serve max ((ops.map message).map ClientDataPack.pack).flatten = _ :=
      serve_flatten (by
        intro msg hmsg
        obtain ⟨op, hop, rfl⟩ := List.mem_map.mp hmsg
        exact ⟨fits op hop, rfl⟩)
    rw [List.map_map] at served
    exact served
  · rw [List.map_map]
    refine List.map_congr_left ?_
    intro op hop
    rw [Function.comp_apply]
    refine clientMsgToOp_message ?_
    have bound := (fits op hop).1
    rw [length_packBody] at bound
    omega
  · rw [List.map_map]
    rfl

/-- An operation without key and value that a clerk writes, and one that a server writes. -/
theorem framing_lossless_two :
    ∃ a b : Op, a.key = [] ∧ a.value = [] ∧ b.key = [1] ∧ b.value = [2, 3] ∧
      handleClientConnection 64
        [prepareData a.clerkId a.incrId (a.key ++ a.value) a.optype (UInt32.ofNat a.key.length),
          opToBinary b].flatten = ([a, b], []) ∧
      serveServ 64 ([opToResp a 200, opToResp b 101].map SerRespPack.pack).flatten =
        ([opToResp a 200, opToResp b 101], []) ∧
      clientMsgToOp (respToReq (opToResp b 101)) = some b := by
  obtain ⟨requests, responses, retried⟩ := framing_lossless 64
  refine ⟨{}, { optype := 1, incrId := 5, clerkId := -3, key := [1], value := [2, 3] },
    rfl, rfl, rfl, rfl, ?_, ?_, retried _ _ (by decide)⟩
  · exact (requests _ _ (.cons .clerk (.cons .server .nil)) (by decide)).1
  · exact responses _ (by decide)

end RaftKv.Proxy
