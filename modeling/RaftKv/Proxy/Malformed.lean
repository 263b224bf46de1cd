import RaftKv.Library.Rounds
import RaftKv.Proxy.Receive

/-!
# Bytes that are not a message

Three loops read what comes from elsewhere: `handleClientConnection` on a server, `serve` on
the cluster manager and `processGetBuffer` in a clerk. Most of what can be wrong with the
bytes is an error that the loop sees, and then the loop returns. Three things are not.

* A server takes the key out of a body without comparing its length to that of the body.
* The manager and the clerk use the message that `Unpack` returns before they look at the
  error, and there is none if the message is larger than `MaxPackageSize`.
* The clerk adds the length of the head to that of the data as `uint32` numbers, and uses
  the sum as the end of a slice.

Each of them is a panic, and there is no other. Nothing recovers, so it ends the process.
-/

namespace RaftKv.Proxy

open Library
open RaftKv.Raft (Bytes Op)
open RaftKv.Server (ServerResponse littleEndian32)

/-! ### The rounds of the loops -/

/-- One round of `Cluster.serve`. The type assertion on the result of `Unpack` stands before
the test of the error. -/
def serveRound (max : UInt32) (stream : Bytes) : Attempt (ClientMessage × Bytes) :=
  (Attempt.checked (readFull requestLen stream)).bind fun (headBuffer, stream) =>
    (Attempt.forced (ClientDataPack.unpack max headBuffer)).bind fun cmsg =>
      (Attempt.checked (readFull cmsg.dataLen.toNat stream)).map fun (body, stream) =>
        ({ cmsg with data := body }, stream)

/-- `ClientMsgToOp`, with the two slices of `GetKey` and `GetValue`. -/
def convert (msg : ClientMessage) : Attempt Op :=
  (Attempt.checked (Body.unpack msg.data)).bind fun body =>
    (Attempt.forced body.getKey).bind fun key =>
      (Attempt.forced body.getValue).map fun value =>
        { optype := msg.opId, clerkId := msg.clerkId, incrId := msg.incrId, key := key
          value := value }

/-- One round of `handleClientConnection`. -/
def connectionRound (max : UInt32) (stream : Bytes) : Attempt (Op × Bytes) :=
  (Attempt.checked (readFull requestLen stream)).bind fun (headBuffer, stream) =>
    (Attempt.checked (ClientDataPack.unpack max headBuffer)).bind fun msg =>
      (Attempt.checked (readFull msg.dataLen.toNat stream)).bind fun (buffer, stream) =>
        (convert { msg with data := buffer }).map fun op => (op, stream)

/-- The length field of a request or a response. -/
def dataLenOf (bytes : Bytes) : UInt32 := uint32 ((bytes.take 8).drop 4)

/-- One round of `processGetBuffer`, on the bytes before the offset. If they are not a whole
response the loop returns, and waits for more. -/
def responseRound (max : UInt32) (live : Bytes) : Attempt (Call × Bytes) :=
  if live.length < respHeadLen then .error
  else
    let dataLen := dataLenOf live
    if live.length < (dataLen + 28).toNat then .error
    else
      (Attempt.forced (SerRespPack.unpack max (live.take respHeadLen))).bind fun msg =>
        (Attempt.forced (getData live dataLen)).map fun data =>
          (⟨msg.incrId, msg.err, data⟩, live.drop (dataLen + 28).toNat)

/-! A round that ends well is the round of before. -/

theorem toOption_serveRound (max : UInt32) (stream : Bytes) :
    (serveRound max stream).toOption = readRequest max stream := by
  simp only [serveRound, readRequest, Attempt.toOption_bind, Attempt.toOption_map,
    Attempt.toOption_checked, Attempt.toOption_forced]

theorem toOption_convert (msg : ClientMessage) : (convert msg).toOption = clientMsgToOp msg := by
  simp only [convert, clientMsgToOp, Attempt.toOption_bind, Attempt.toOption_map,
    Attempt.toOption_checked, Attempt.toOption_forced]

theorem toOption_connectionRound (max : UInt32) (stream : Bytes) :
    (connectionRound max stream).toOption = readOp max stream := by
  simp only [connectionRound, readOp, readRequest, Attempt.toOption_bind, Attempt.toOption_map,
    Attempt.toOption_checked, toOption_convert, Option.bind_assoc, Option.bind_map]
  rfl

/-! ### The bytes that make a round panic -/

/-- The head of a message that `Unpack` refuses. -/
structure Oversized (max : UInt32) (stream : Bytes) : Prop where
  head : requestLen ≤ stream.length
  refused : tooLarge max (dataLenOf stream) = true

/-- A request whose body says that the key is longer than all of the rest. -/
structure OverlongKey (max : UInt32) (stream : Bytes) : Prop where
  head : requestLen ≤ stream.length
  accepted : tooLarge max (dataLenOf stream) = false
  body : requestLen + (dataLenOf stream).toNat ≤ stream.length
  keyLen : 4 ≤ (dataLenOf stream).toNat
  overlong : (dataLenOf stream).toNat - 4 < (uint32 ((stream.drop requestLen).take 4)).toNat

/-- A response with a length that wraps around, or a complete one that `Unpack` refuses. -/
structure BadResponse (max : UInt32) (live : Bytes) : Prop where
  head : respHeadLen ≤ live.length
  bad : 2 ^ 32 ≤ (dataLenOf live).toNat + 28 ∨
    (dataLenOf live).toNat + 28 ≤ live.length ∧ tooLarge max (dataLenOf live) = true

theorem readUInt32_of_le {data : Bytes} (h : 4 ≤ data.length) :
    readUInt32 data = some (uint32 (data.take 4), data.drop 4) := by
  rw [readUInt32, readLE, if_neg (by omega)]
  rfl

theorem readUInt64_of_le {data : Bytes} (h : 8 ≤ data.length) :
    ∃ x, readUInt64 data = some (x, data.drop 8) := by
  rw [readUInt64, readLE, if_neg (by omega)]
  exact ⟨_, rfl⟩

theorem readInt32_of_le {data : Bytes} (h : 4 ≤ data.length) :
    ∃ x, readInt32 data = some (x, data.drop 4) := by
  rw [readInt32, readUInt32_of_le h]
  exact ⟨_, rfl⟩

/-- A head has all its fields, so that only its length can be refused. -/
theorem unpack_of_length (max : UInt32) {head : Bytes} (h : head.length = requestLen) :
    ∃ msg : ClientMessage, msg.dataLen = dataLenOf head ∧
      ClientDataPack.unpack max head =
        if tooLarge max (dataLenOf head) = true then none else some msg := by
  have length : head.length = 20 := h
  have first : 4 ≤ head.length := by omega
  have second : 4 ≤ (head.drop 4).length := by rw [List.length_drop]; omega
  have third : 8 ≤ ((head.drop 4).drop 4).length := by simp only [List.length_drop]; omega
  have fourth : 4 ≤ (((head.drop 4).drop 4).drop 8).length := by
    simp only [List.length_drop]
    omega
  obtain ⟨incrId, hincr⟩ := readUInt64_of_le third
  obtain ⟨clerkId, hclerk⟩ := readInt32_of_le fourth
  have field : uint32 ((head.drop 4).take 4) = dataLenOf head := by
    rw [dataLenOf, List.drop_take]
  refine ⟨{ opId := uint32 (head.take 4), dataLen := dataLenOf head, incrId := incrId
            clerkId := clerkId }, rfl, ?_⟩
  simp only [ClientDataPack.unpack, readUInt32_of_le first, readUInt32_of_le second, hincr, hclerk,
    Option.bind_some, field]

theorem unpack_resp_of_length (max : UInt32) {head : Bytes} (h : head.length = respHeadLen) :
    SerRespPack.unpack max head = none ↔ tooLarge max (dataLenOf head) = true := by
  have length : head.length = 28 := h
  have first : 4 ≤ head.length := by omega
  have second : 4 ≤ (head.drop 4).length := by rw [List.length_drop]; omega
  have third : 8 ≤ ((head.drop 4).drop 4).length := by simp only [List.length_drop]; omega
  have fourth : 4 ≤ (((head.drop 4).drop 4).drop 8).length := by
    simp only [List.length_drop]
    omega
  have fifth : 4 ≤ ((((head.drop 4).drop 4).drop 8).drop 4).length := by
    simp only [List.length_drop]
    omega
  have sixth : 4 ≤ (((((head.drop 4).drop 4).drop 8).drop 4).drop 4).length := by
    simp only [List.length_drop]
    omega
  obtain ⟨incrId, hincr⟩ := readUInt64_of_le third
  obtain ⟨clerkId, hclerk⟩ := readInt32_of_le fourth
  obtain ⟨serverId, hserver⟩ := readInt32_of_le fifth
  have field : uint32 ((head.drop 4).take 4) = dataLenOf head := by
    rw [dataLenOf, List.drop_take]
  simp only [SerRespPack.unpack, readUInt32_of_le first, readUInt32_of_le second, hincr, hclerk,
    hserver, readUInt32_of_le sixth, Option.bind_some, field]
  split
  next refused => exact ⟨fun _ => refused, fun _ => rfl⟩
  next accepted => exact ⟨by rintro ⟨⟩, fun refused => absurd refused accepted⟩

/-- The length stands in the first eight bytes. -/
theorem dataLenOf_take {n : Nat} (bytes : Bytes) (h : 8 ≤ n) :
    dataLenOf (bytes.take n) = dataLenOf bytes := by
  rw [dataLenOf, List.take_take, Nat.min_eq_left h, dataLenOf]

theorem readFull_eq_some {n : Nat} {stream : Bytes} {p : Bytes × Bytes} :
    readFull n stream = some p ↔ n ≤ stream.length ∧ p = (stream.take n, stream.drop n) := by
  rw [readFull]
  split
  next short => exact ⟨by rintro ⟨⟩, fun h => absurd h.1 (Nat.not_le.mpr short)⟩
  next long =>
    rw [Option.some.injEq]
    exact ⟨fun h => ⟨Nat.not_lt.mp long, h.symm⟩, fun h => h.2.symm⟩

theorem length_take_of_le {n : Nat} {stream : Bytes} (h : n ≤ stream.length) :
    (stream.take n).length = n := by
  rw [List.length_take, Nat.min_eq_left h]

theorem serveRound_eq_panic (max : UInt32) (stream : Bytes) :
    serveRound max stream = .panic ↔ Oversized max stream := by
  rw [serveRound, Attempt.bind_checked_eq_panic]
  constructor
  · rintro ⟨p, read, panics⟩
    obtain ⟨long, rfl⟩ := readFull_eq_some.mp read
    obtain ⟨msg, -, unpacked⟩ := unpack_of_length max (length_take_of_le long)
    rw [dataLenOf_take stream (by decide)] at unpacked
    refine ⟨long, ?_⟩
    by_contra accepted
    dsimp only at panics
    rw [unpacked, if_neg accepted] at panics
    exact absurd panics (Attempt.map_checked_ne_panic _ _)
  · rintro ⟨long, refused⟩
    obtain ⟨msg, -, unpacked⟩ := unpack_of_length max (length_take_of_le long)
    rw [dataLenOf_take stream (by decide), if_pos refused] at unpacked
    refine ⟨_, readFull_eq_some.mpr ⟨long, rfl⟩, ?_⟩
    dsimp only
    rw [unpacked]
    rfl

theorem convert_eq_panic (msg : ClientMessage) :
    convert msg = .panic ↔
      4 ≤ msg.data.length ∧ msg.data.length - 4 < (uint32 (msg.data.take 4)).toNat := by
  rw [convert, Attempt.bind_checked_eq_panic]
  constructor
  · rintro ⟨body, unpacked, panics⟩
    have long : 4 ≤ msg.data.length := by
      by_contra short
      rw [Body.unpack, readUInt32, readLE, if_pos (Nat.not_le.mp short)] at unpacked
      cases unpacked
    rw [Body.unpack, readUInt32_of_le long] at unpacked
    cases unpacked
    refine ⟨long, ?_⟩
    by_contra inside
    rw [← List.length_drop, Nat.not_lt] at inside
    rw [Body.getKey, if_neg (Nat.not_lt.mpr inside), Body.getValue,
      if_neg (Nat.not_lt.mpr inside)] at panics
    cases panics
  · rintro ⟨long, overlong⟩
    refine ⟨⟨uint32 (msg.data.take 4), msg.data.drop 4⟩, ?_, ?_⟩
    · rw [Body.unpack, readUInt32_of_le long]
      rfl
    · rw [← List.length_drop] at overlong
      rw [Body.getKey, if_pos overlong]
      rfl

theorem connectionRound_eq_panic (max : UInt32) (stream : Bytes) :
    connectionRound max stream = .panic ↔ OverlongKey max stream := by
  -- The data of a request is what follows the head, and the length of the key its beginning.
  have data {msg : ClientMessage} (body : (dataLenOf stream).toNat ≤ (stream.drop requestLen).length) :
      convert { msg with data := (stream.drop requestLen).take (dataLenOf stream).toNat } = .panic ↔
        4 ≤ (dataLenOf stream).toNat ∧
          (dataLenOf stream).toNat - 4 < (uint32 ((stream.drop requestLen).take 4)).toNat := by
    rw [convert_eq_panic]
    dsimp only
    rw [length_take_of_le body, List.take_take]
    refine and_congr_right fun long => ?_
    rw [Nat.min_eq_left long]
  have rest : (stream.drop requestLen).length = stream.length - requestLen := List.length_drop ..
  rw [connectionRound, Attempt.bind_checked_eq_panic]
  constructor
  · rintro ⟨p, read, panics⟩
    obtain ⟨long, rfl⟩ := readFull_eq_some.mp read
    obtain ⟨msg, names, unpacked⟩ := unpack_of_length max (length_take_of_le long)
    rw [dataLenOf_take stream (by decide)] at unpacked names
    obtain ⟨msg', accepted, panics⟩ := Attempt.bind_checked_eq_panic.mp panics
    rw [unpacked] at accepted
    obtain ⟨small, same⟩ := Option.ite_none_left_eq_some.mp accepted
    cases same
    obtain ⟨q, taken, panics⟩ := Attempt.bind_checked_eq_panic.mp panics
    rw [names] at taken
    obtain ⟨body, rfl⟩ := readFull_eq_some.mp taken
    obtain ⟨keyLen, overlong⟩ := (data body).mp (Attempt.map_eq_panic.mp panics)
    exact ⟨long, Bool.eq_false_of_not_eq_true small, by omega, keyLen, overlong⟩
  · rintro ⟨long, accepted, body, keyLen, overlong⟩
    have body : (dataLenOf stream).toNat ≤ (stream.drop requestLen).length := by omega
    obtain ⟨msg, names, unpacked⟩ := unpack_of_length max (length_take_of_le long)
    rw [dataLenOf_take stream (by decide), accepted, if_neg Bool.false_ne_true] at unpacked
    rw [dataLenOf_take stream (by decide)] at names
    refine ⟨_, readFull_eq_some.mpr ⟨long, rfl⟩, ?_⟩
    refine Attempt.bind_checked_eq_panic.mpr ⟨msg, unpacked, ?_⟩
    refine Attempt.bind_checked_eq_panic.mpr ⟨_, readFull_eq_some.mpr ⟨names ▸ body, rfl⟩, ?_⟩
    rw [names]
    exact Attempt.map_eq_panic.mpr ((data body).mpr ⟨keyLen, overlong⟩)

/-- A request is at least as long as its head. -/
theorem length_lt_of_readRequest {max : UInt32} {stream rest : Bytes} {msg : ClientMessage}
    (h : readRequest max stream = some (msg, rest)) : rest.length < stream.length := by
  obtain ⟨p, read, h⟩ := Option.bind_eq_some_iff.mp h
  obtain ⟨long, rfl⟩ := readFull_eq_some.mp read
  obtain ⟨msg', -, h⟩ := Option.bind_eq_some_iff.mp h
  obtain ⟨q, taken, same⟩ := Option.map_eq_some_iff.mp h
  obtain ⟨-, rfl⟩ := readFull_eq_some.mp taken
  cases same
  rw [requestLen] at long ⊢
  rw [List.length_drop, List.length_drop]
  omega

theorem consumes_serveRound (max : UInt32) : Consumes (serveRound max) := by
  intro stream msg rest value
  rw [Attempt.eq_value_iff, toOption_serveRound] at value
  exact length_lt_of_readRequest value

theorem consumes_connectionRound (max : UInt32) : Consumes (connectionRound max) := by
  intro stream op rest value
  rw [Attempt.eq_value_iff, toOption_connectionRound] at value
  obtain ⟨⟨msg, left⟩, read, h⟩ := Option.bind_eq_some_iff.mp value
  obtain ⟨op', -, same⟩ := Option.map_eq_some_iff.mp h
  cases same
  exact length_lt_of_readRequest read

/-! ### The clerk -/

theorem toNat_dataLen_add (dataLen : UInt32) :
    (dataLen + 28).toNat = dataLen.toNat + 28 ∨
      2 ^ 32 ≤ dataLen.toNat + 28 ∧ (dataLen + 28).toNat < 28 := by
  have bound := dataLen.toNat_lt
  have sum : (dataLen + 28).toNat = (dataLen.toNat + 28) % 2 ^ 32 := UInt32.toNat_add dataLen 28
  omega

/-- A slice of the wrapped length ends before it begins. -/
theorem getData_eq_none {buffer : Bytes} {dataLen : UInt32}
    (inside : (dataLen + 28).toNat ≤ buffer.length) :
    getData buffer dataLen = none ↔ 2 ^ 32 ≤ dataLen.toNat + 28 := by
  have bound := dataLen.toNat_lt
  rw [getData, Option.map_eq_none_iff, slice, respHeadLen]
  rcases toNat_dataLen_add dataLen with sum | ⟨wraps, small⟩
  · rw [if_pos ⟨by omega, inside⟩]
    exact ⟨by rintro ⟨⟩, fun wraps => absurd (dataLen + 28).toNat_lt (by omega)⟩
  · rw [if_neg (by omega)]
    exact ⟨fun _ => wraps, fun _ => rfl⟩

theorem responseRound_eq_panic (max : UInt32) (live : Bytes) :
    responseRound max live = .panic ↔ BadResponse max live := by
  have refuses (head : respHeadLen ≤ live.length) :
      SerRespPack.unpack max (live.take respHeadLen) = none ↔
        tooLarge max (dataLenOf live) = true := by
    rw [unpack_resp_of_length max (length_take_of_le head), dataLenOf_take live (by decide)]
  rw [responseRound]
  split
  next short => exact ⟨nofun, fun h => absurd h.head (Nat.not_le.mpr short)⟩
  next head =>
    have head := Nat.not_lt.mp head
    have long : 28 ≤ live.length := head
    dsimp only
    split
    next short =>
      refine ⟨nofun, fun h => ?_⟩
      rcases toNat_dataLen_add (dataLenOf live) with sum | ⟨wraps, small⟩
      · have bound := (dataLenOf live + 28).toNat_lt
        rcases h.bad with wraps | ⟨whole, -⟩ <;> omega
      · omega
    next whole =>
      have inside := Nat.not_lt.mp whole
      rw [Attempt.bind_forced_eq_panic, refuses head]
      constructor
      · rintro (refused | ⟨msg, -, panics⟩)
        · refine ⟨head, ?_⟩
          rcases toNat_dataLen_add (dataLenOf live) with sum | ⟨wraps, -⟩
          · exact .inr ⟨sum ▸ inside, refused⟩
          · exact .inl wraps
        · rw [Attempt.map_eq_panic, Attempt.forced_eq_panic, getData_eq_none inside] at panics
          exact ⟨head, .inl panics⟩
      · intro h
        cases unpacked : SerRespPack.unpack max (live.take respHeadLen) with
        | none => exact .inl ((refuses head).mp unpacked)
        | some msg =>
            refine .inr ⟨msg, rfl, ?_⟩
            rw [Attempt.map_eq_panic, Attempt.forced_eq_panic, getData_eq_none inside]
            refine h.bad.resolve_right fun refused => ?_
            rw [(refuses head).mpr refused.2] at unpacked
            cases unpacked

/-- A round that takes a response out. -/
theorem responseRound_whole (max : UInt32) {live : Bytes} (head : respHeadLen ≤ live.length)
    (whole : (dataLenOf live + 28).toNat ≤ live.length) :
    responseRound max live =
      (Attempt.forced (SerRespPack.unpack max (live.take respHeadLen))).bind fun msg =>
        (Attempt.forced (getData live (dataLenOf live))).map fun data =>
          (⟨msg.incrId, msg.err, data⟩, live.drop (dataLenOf live + 28).toNat) := by
  rw [responseRound, if_neg (Nat.not_lt.mpr head)]
  dsimp only
  rw [if_neg (Nat.not_lt.mpr whole)]

theorem consumes_responseRound (max : UInt32) : Consumes (responseRound max) := by
  intro live call rest value
  by_cases head : respHeadLen ≤ live.length
  · by_cases whole : (dataLenOf live + 28).toNat ≤ live.length
    · rw [responseRound_whole max head whole, Attempt.eq_value_iff] at value
      simp only [Attempt.toOption_bind, Attempt.toOption_map, Attempt.toOption_forced] at value
      obtain ⟨msg, -, value⟩ := Option.bind_eq_some_iff.mp value
      obtain ⟨data, sliced, same⟩ := Option.map_eq_some_iff.mp value
      cases same
      have wraps : ¬ 2 ^ 32 ≤ (dataLenOf live).toNat + 28 := by
        rw [← getData_eq_none whole, sliced]
        exact nofun
      have long : 28 ≤ live.length := head
      have sum := (toNat_dataLen_add (dataLenOf live)).resolve_right fun h => wraps h.1
      rw [List.length_drop]
      omega
    · rw [responseRound, if_neg (Nat.not_lt.mpr head)] at value
      dsimp only at value
      rw [if_pos (Nat.not_le.mp whole)] at value
      cases value
  · rw [responseRound, if_pos (Nat.not_le.mp head)] at value
    cases value

/-- What a round of `processGetBuffer` looks at lies before the offset. -/
theorem getData_take {buffer : Bytes} {dataLen : UInt32} {n : Nat} (h : n ≤ buffer.length)
    (inside : (dataLen + 28).toNat ≤ n) : getData (buffer.take n) dataLen = getData buffer dataLen := by
  have parts : slice (buffer.take n) respHeadLen (dataLen + 28).toNat =
      slice buffer respHeadLen (dataLen + 28).toNat := by
    rw [slice, slice, length_take_of_le h, List.take_take, Nat.min_eq_left inside]
    simp only [inside, Nat.le_trans inside h]
  rw [getData, getData, parts]

/-- The loop of the clerk on its buffer is the loop over the bytes before the offset. -/
theorem processBuffer_eq_none {max : UInt32} {fuel : Nat} {b : Inbox} (enough : b.offset < fuel) :
    processBuffer getData max fuel b = none ↔ Crashes (responseRound max) b.live := by
  induction fuel generalizing b with
  | zero => exact absurd enough (Nat.not_lt_zero _)
  | succ fuel ih =>
      have length := b.length_live
      rw [processBuffer]
      split
      next short =>
        refine ⟨by rintro ⟨⟩, fun crash => absurd crash (not_crashes_of_error ?_)⟩
        rw [responseRound, if_pos (length.symm ▸ short)]
      next head =>
        have head := Nat.not_lt.mp head
        have buffer {n : Nat} (hn : n ≤ b.offset) : b.buffer.take n = b.live.take n := by
          rw [Inbox.live, List.take_take, Nat.min_eq_left hn]
        have field : uint32 ((b.buffer.take 8).drop 4) = dataLenOf b.live := by
          rw [buffer (Nat.le_trans (by decide) head), dataLenOf]
        have bound : b.offset < 2 ^ 32 := Nat.lt_of_le_of_lt b.offset_le (by decide)
        have test : UInt32.ofNat b.offset < dataLenOf b.live + 28 ↔
            b.live.length < (dataLenOf b.live + 28).toNat := by
          have offset : (UInt32.ofNat b.offset).toNat = b.offset := UInt32.toNat_ofNat_of_lt bound
          rw [UInt32.lt_iff_toNat_lt, offset, length]
        dsimp only
        rw [field]
        split
        next short =>
          refine ⟨by rintro ⟨⟩, fun crash => absurd crash (not_crashes_of_error ?_)⟩
          rw [responseRound, if_neg (Nat.not_lt.mpr (length.symm ▸ head))]
          exact if_pos (test.mp short)
        next whole =>
          have whole := Nat.not_lt.mp (mt test.mpr whole)
          have round := responseRound_whole max (length.symm ▸ head) whole
          have inside : (dataLenOf b.live + 28).toNat ≤ b.offset := length ▸ whole
          rw [buffer head, ← getData_take (b.length_buffer.symm ▸ b.offset_le) inside]
          change ((SerRespPack.unpack max (b.live.take respHeadLen)).bind fun msg =>
            (getData b.live (dataLenOf b.live)).bind fun data => _) = none ↔ _
          cases unpacked : SerRespPack.unpack max (b.live.take respHeadLen) with
          | none =>
              rw [unpacked] at round
              exact ⟨fun _ => crashes_of_panic round, fun _ => rfl⟩
          | some msg =>
              rw [unpacked] at round
              cases sliced : getData b.live (dataLenOf b.live) with
              | none =>
                  rw [sliced] at round
                  exact ⟨fun _ => crashes_of_panic round, fun _ => rfl⟩
              | some data =>
                  rw [sliced] at round
                  rw [Option.bind_some, Option.bind_some, dif_pos inside, Option.map_eq_none_iff,
                    crashes_iff_of_value (consumes_responseRound max) round, ← b.live_shift inside]
                  have shorter := consumes_responseRound max round
                  refine ih ?_
                  rw [List.length_drop, length] at shorter
                  change b.offset - _ < fuel
                  omega

/-- Exactly these bytes crash a process: to a server a request with a key that is longer than
its body, to the cluster manager a head with a length above `MaxPackageSize`, to a clerk such
a response or one with a length that wraps around. Before it a loop has read messages only. -/
theorem malformed_input_crashes_iff (max : UInt32) :
    (∀ stream, Crashes (connectionRound max) stream ↔
      ∃ rest, Reachable (advance (connectionRound max)) stream rest ∧ OverlongKey max rest) ∧
    (∀ stream, Crashes (serveRound max) stream ↔
      ∃ rest, Reachable (advance (serveRound max)) stream rest ∧ Oversized max rest) ∧
    ∀ b : Inbox, processGetBuffer max b = none ↔
      ∃ rest, Reachable (advance (responseRound max)) b.live rest ∧ BadResponse max rest := by
  refine ⟨?_, ?_, ?_⟩
  · intro stream
    simp only [crashes_iff (consumes_connectionRound max), connectionRound_eq_panic]
  · intro stream
    simp only [crashes_iff (consumes_serveRound max), serveRound_eq_panic]
  · intro b
    rw [processGetBuffer, processBuffer_eq_none (Nat.lt_succ_self _)]
    simp only [crashes_iff (consumes_responseRound max), responseRound_eq_panic]

/-- The head of a message with so many bytes of data. -/
def headOf (dataLen : UInt32) (length : Nat) : Bytes :=
  List.replicate 4 0 ++ littleEndian32 dataLen ++ List.replicate (length - 8) 0

/-- A body of four bytes that announces a key of one, a head that announces two bytes where
one is allowed, and a head that announces so many that the sum is zero. -/
theorem malformed_input_crashes :
    Crashes (connectionRound 0) (headOf 4 requestLen ++ littleEndian32 1) ∧
    Crashes (serveRound 1) (headOf 2 requestLen) ∧
    ∃ b : Inbox, b.live = headOf 4294967268 respHeadLen ∧ processGetBuffer 0 b = none := by
  refine ⟨by decide +kernel, by decide +kernel, ?_⟩
  refine ⟨emptyInbox.fill (headOf 4294967268 respHeadLen) (by decide), ?_, ?_⟩
  · exact Inbox.live_fill _
  · exact Option.isNone_iff_eq_none.mp (by decide +kernel)

end RaftKv.Proxy
