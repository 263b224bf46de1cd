import RaftKv.Library.Run
import RaftKv.Proxy.Messages

/-!
# How a clerk receives responses

A clerk reads from its connection into the free part of a buffer of 2048 bytes. After each
read it takes the responses out that are complete, and shifts what is left to the front.
What the buffer holds behind `offset` is left over from earlier responses.

Nothing ever makes the buffer larger. A response that does not fit fills it, and then
every read is one into no space at all.
-/

namespace RaftKv.Proxy

open Library
open RaftKv.Raft (Bytes Op)
open RaftKv.Server (ServerResponse littleEndian32 packBody opToResp)

/-! ### The buffer -/

/-- The size that `MakeClerk` gives to both buffers. -/
def bufferSize : Nat := 2048

/-- A response buffer and its offset. -/
structure Inbox where
  buffer : Bytes
  offset : Nat
  length_buffer : buffer.length = bufferSize
  offset_le : offset ≤ bufferSize

namespace Inbox

/-- The bytes that have been received and not been used. -/
def live (b : Inbox) : Bytes := b.buffer.take b.offset

/-- `Read` into the part of the buffer behind the offset. -/
def fill (b : Inbox) (chunk : Bytes) (h : b.offset + chunk.length ≤ bufferSize) : Inbox where
  buffer := b.buffer.take b.offset ++ chunk ++ b.buffer.drop (b.offset + chunk.length)
  offset := b.offset + chunk.length
  length_buffer := by
    have length := b.length_buffer
    have offset := b.offset_le
    simp only [List.length_append, List.length_take, List.length_drop]
    omega
  offset_le := h

/-- The `copy` at the end of a round, and the new offset. -/
def shift (b : Inbox) (size : Nat) (h : size ≤ b.offset) : Inbox where
  buffer := (b.buffer.take b.offset).drop size ++ b.buffer.drop (b.offset - size)
  offset := b.offset - size
  length_buffer := by
    have length := b.length_buffer
    have offset := b.offset_le
    simp only [List.length_append, List.length_take, List.length_drop]
    omega
  offset_le := Nat.le_trans (Nat.sub_le _ _) b.offset_le

end Inbox

/-- What `processResponse` is called with. -/
structure Call where
  incrId : UInt64
  err : UInt32
  data : Bytes
  deriving DecidableEq

/-- `binary.LittleEndian.Uint32`. -/
def uint32 (bytes : Bytes) : UInt32 := UInt32.ofNat (getLE bytes)

/-- `bytes[lo:hi]`, which panics if it is out of bounds. -/
def slice (bytes : Bytes) (lo hi : Nat) : Option Bytes :=
  if lo ≤ hi ∧ hi ≤ bytes.length then some ((bytes.take hi).drop lo) else none

/-- The loop of `processGetBuffer` and `processPutBuffer`, which differ in how they pass the
data on. The sum of the lengths is one of `uint32` numbers. If `Unpack` fails, the type
assertion on its result panics. -/
def processBuffer (extract : Bytes → UInt32 → Option Bytes) (max : UInt32) :
    Nat → Inbox → Option (Inbox × List Call)
  | 0, _ => none
  | fuel + 1, b =>
      if b.offset < respHeadLen then some (b, [])
      else
        let dataLen := uint32 ((b.buffer.take 8).drop 4)
        if UInt32.ofNat b.offset < dataLen + 28 then some (b, [])
        else
          (SerRespPack.unpack max (b.buffer.take respHeadLen)).bind fun msg =>
            (extract b.buffer dataLen).bind fun data =>
              if h : (dataLen + 28).toNat ≤ b.offset then
                (processBuffer extract max fuel (b.shift (dataLen + 28).toNat h)).map
                  fun (b, calls) => (b, ⟨msg.incrId, msg.err, data⟩ :: calls)
              else none

/-- `processPutBuffer` passes a part of the buffer itself. -/
def putData (buffer : Bytes) (dataLen : UInt32) : Option Bytes :=
  slice buffer respHeadLen (dataLen + 28).toNat

/-- `processGetBuffer` makes a copy. -/
def getData (buffer : Bytes) (dataLen : UInt32) : Option Bytes :=
  (slice buffer respHeadLen (dataLen + 28).toNat).map fun part =>
    part.take dataLen.toNat ++ List.replicate (dataLen.toNat - part.length) 0

/-- Every round but the last takes bytes away, so that there are not more than these. -/
def processGetBuffer (max : UInt32) (b : Inbox) : Option (Inbox × List Call) :=
  processBuffer getData max (b.offset + 1) b

def processPutBuffer (max : UInt32) (b : Inbox) : Option (Inbox × List Call) :=
  processBuffer putData max (b.offset + 1) b

/-! ### Reading -/

/-- What the connection still has to deliver, the buffer, and the calls so far. -/
structure Reception where
  stream : Bytes
  inbox : Inbox
  calls : List Call := []

/-- One round of `receiveGetResponse` or `receivePutAppendResponse`, in which `Read` returns
`n` bytes: at least one, and not more than there are or than there is space for. -/
def receive (process : Inbox → Option (Inbox × List Call)) (s : Reception) (n : Nat) :
    Option Reception :=
  if h : 0 < n ∧ n ≤ s.stream.length ∧ s.inbox.offset + n ≤ bufferSize then
    have space : s.inbox.offset + (s.stream.take n).length ≤ bufferSize := by
      rw [List.length_take]
      omega
    (process (s.inbox.fill (s.stream.take n) space)).map fun (inbox, calls) =>
      { stream := s.stream.drop n, inbox := inbox, calls := s.calls ++ calls }
  else none

/-- The buffer that `MakeClerk` makes. -/
def emptyInbox : Inbox where
  buffer := List.replicate bufferSize 0
  offset := 0
  length_buffer := List.length_replicate
  offset_le := Nat.zero_le _

/-- A connection that delivers some responses in a row. -/
def delivering (resps : List ServerResponse) : Reception where
  stream := (resps.map SerRespPack.pack).flatten
  inbox := emptyInbox

/-- What should be done with a response. -/
def call (resp : ServerResponse) : Call := ⟨resp.incrId, resp.err, resp.data⟩

/-! ### The contents of the buffer -/

namespace Inbox

variable {b : Inbox} {chunk : Bytes} {size n : Nat}

@[simp] theorem length_live (b : Inbox) : b.live.length = b.offset := by
  have length := b.length_buffer
  have offset := b.offset_le
  rw [live, List.length_take]
  omega

theorem live_fill (h : b.offset + chunk.length ≤ bufferSize) :
    (b.fill chunk h).live = b.live ++ chunk := by
  have length : (b.live ++ chunk).length = b.offset + chunk.length := by
    rw [List.length_append, length_live]
  exact List.take_left' length

theorem live_shift (h : size ≤ b.offset) : (b.shift size h).live = b.live.drop size := by
  have length : (b.live.drop size).length = b.offset - size := by
    rw [List.length_drop, length_live]
  exact List.take_left' length

/-- The first bytes of the buffer are those of the stream. -/
theorem take_buffer {stream bytes : Bytes} (whole : b.live ++ stream = bytes) (hn : n ≤ b.offset) :
    b.buffer.take n = bytes.take n := by
  have length : n ≤ b.live.length := by
    rw [length_live]
    exact hn
  rw [← whole, List.take_append_of_le_length length, live, List.take_take, Nat.min_eq_left hn]

end Inbox

/-! ### Taking a response out -/

/-- A response whose lengths can be written, and that `Unpack` does not refuse. -/
structure Sendable (max : UInt32) (resp : ServerResponse) : Prop where
  dataLen : resp.dataLen = UInt32.ofNat resp.data.length
  size : resp.data.length + 28 < 2 ^ 32
  small : tooLarge max resp.dataLen = false

theorem length_pack (resp : ServerResponse) :
    (SerRespPack.pack resp).length = resp.data.length + 28 := by
  rw [SerRespPack.pack, List.length_append, length_respHead, respHeadLen, Nat.add_comm]

namespace Sendable

variable {max : UInt32} {resp : ServerResponse} (h : Sendable max resp)

include h

theorem toNat_dataLen : resp.dataLen.toNat = resp.data.length := by
  have size := h.size
  rw [h.dataLen]
  exact UInt32.toNat_ofNat_of_lt (Nat.lt_of_le_of_lt (Nat.le_add_right _ 28) size)

/-- The length of the whole response does not wrap around. -/
theorem toNat_size : (resp.dataLen + 28).toNat = (SerRespPack.pack resp).length := by
  have size := h.size
  rw [UInt32.toNat_add, h.toNat_dataLen, length_pack]
  exact Nat.mod_eq_of_lt size

end Sendable

/-- Both ways to pass the data on pass the bytes behind the head. -/
def Extracts (extract : Bytes → UInt32 → Option Bytes) : Prop :=
  ∀ (buffer : Bytes) (dataLen : UInt32), (dataLen + 28).toNat = dataLen.toNat + 28 →
    (dataLen + 28).toNat ≤ buffer.length →
      extract buffer dataLen = some ((buffer.take (dataLen + 28).toNat).drop respHeadLen)

theorem extracts_putData : Extracts putData := by
  intro buffer dataLen sum inside
  rw [putData, slice, if_pos]
  refine ⟨?_, inside⟩
  rw [sum, respHeadLen]
  omega

theorem extracts_getData : Extracts getData := by
  intro buffer dataLen sum inside
  have part := extracts_putData buffer dataLen sum inside
  rw [putData] at part
  have length : ((buffer.take (dataLen + 28).toNat).drop respHeadLen).length = dataLen.toNat := by
    rw [List.length_drop, List.length_take, Nat.min_eq_left inside, sum, respHeadLen]
    omega
  rw [getData, part, Option.map_some, length, Nat.sub_self, List.replicate_zero, List.append_nil,
    List.take_of_length_le (Nat.le_of_eq length)]

section Round

variable {extract : Bytes → UInt32 → Option Bytes} {max : UInt32} {resp : ServerResponse}
variable {b : Inbox} {stream rest : Bytes} {fuel : Nat}

/-- The second field of the head is the length of the data. -/
theorem uint32_head (more : Bytes) :
    uint32 (((SerRespPack.head resp ++ more).take 8).drop 4) = resp.dataLen := by
  have fields : SerRespPack.head resp ++ more =
      (littleEndian32 resp.opId ++ littleEndian32 resp.dataLen) ++ ((littleEndian64 resp.incrId ++
        (littleEndian32 resp.clerkId.toUInt32 ++ (littleEndian32 resp.serverId.toUInt32 ++
          littleEndian32 resp.err))) ++ more) := by
    simp [SerRespPack.head]
  have taken : (SerRespPack.head resp ++ more).take 8 =
      littleEndian32 resp.opId ++ littleEndian32 resp.dataLen := by
    rw [fields]
    exact List.take_left' rfl
  have dropped : (littleEndian32 resp.opId ++ littleEndian32 resp.dataLen).drop 4 =
      littleEndian32 resp.dataLen := List.drop_left' rfl
  rw [taken, dropped, uint32, littleEndian32_eq, getLE_putLE resp.dataLen.toNat_lt,
    UInt32.ofNat_toNat]

/-- The test for a complete response. -/
theorem offset_lt_iff (h : Sendable max resp) :
    UInt32.ofNat b.offset < resp.dataLen + 28 ↔ b.offset < (SerRespPack.pack resp).length := by
  have bound : b.offset < 2 ^ 32 := Nat.lt_of_le_of_lt b.offset_le (by decide)
  have offset : (UInt32.ofNat b.offset).toNat = b.offset := UInt32.toNat_ofNat_of_lt bound
  rw [UInt32.lt_iff_toNat_lt, offset, h.toNat_size]

theorem dataLen_buffer (whole : b.live ++ stream = SerRespPack.pack resp ++ rest)
    (head : respHeadLen ≤ b.offset) : uint32 ((b.buffer.take 8).drop 4) = resp.dataLen := by
  rw [SerRespPack.pack, List.append_assoc] at whole
  rw [Inbox.take_buffer whole (Nat.le_trans (by decide) head), uint32_head]

/-- A response that is not complete stays where it is. -/
theorem processBuffer_incomplete (h : Sendable max resp)
    (whole : b.live ++ stream = SerRespPack.pack resp ++ rest)
    (short : b.offset < (SerRespPack.pack resp).length) :
    processBuffer extract max (fuel + 1) b = some (b, []) := by
  rw [processBuffer]
  split
  · rfl
  · rename_i head
    dsimp only
    rw [dataLen_buffer whole (Nat.le_of_not_lt head), if_pos ((offset_lt_iff h).mpr short)]

/-- A complete one is passed on and taken out. -/
theorem processBuffer_complete (he : Extracts extract) (h : Sendable max resp)
    (whole : b.live ++ stream = SerRespPack.pack resp ++ rest)
    (long : (SerRespPack.pack resp).length ≤ b.offset) :
    processBuffer extract max (fuel + 1) b =
      (processBuffer extract max fuel (b.shift (SerRespPack.pack resp).length long)).map
        fun (b, calls) => (b, call resp :: calls) := by
  have length := length_pack resp
  have head : respHeadLen ≤ b.offset := by
    rw [respHeadLen]
    omega
  have dataLen := dataLen_buffer whole head
  have unpacked : SerRespPack.unpack max (b.buffer.take respHeadLen) =
      some { resp with data := [] } := by
    have first := Inbox.take_buffer whole head
    rw [SerRespPack.pack, List.append_assoc, List.take_left' (length_respHead resp)] at first
    rw [first]
    exact unpack_respHead h.small
  have extracted : extract b.buffer resp.dataLen = some resp.data := by
    have inside : (resp.dataLen + 28).toNat ≤ b.buffer.length := by
      rw [h.toNat_size, b.length_buffer]
      exact Nat.le_trans long b.offset_le
    have taken := Inbox.take_buffer whole long
    rw [List.take_left] at taken
    rw [he _ _ (by rw [h.toNat_size, h.toNat_dataLen, length]) inside, h.toNat_size, taken,
      SerRespPack.pack, List.drop_left' (length_respHead resp)]
  rw [processBuffer, if_neg (Nat.not_lt.mpr head)]
  dsimp only
  rw [dataLen, if_neg (mt (offset_lt_iff h).mp (Nat.not_lt.mpr long)), unpacked, Option.bind_some,
    extracted, Option.bind_some]
  simp only [h.toNat_size]
  rw [dif_pos long]
  rfl

/-- All that is complete is taken out, in order. -/
theorem processBuffer_spec (he : Extracts extract) {resps : List ServerResponse}
    (sendable : ∀ resp ∈ resps, Sendable max resp)
    (whole : b.live ++ stream = (resps.map SerRespPack.pack).flatten) (enough : b.offset < fuel) :
    ∃ b' done left, processBuffer extract max fuel b = some (b', done.map call) ∧
      resps = done ++ left ∧ b'.live ++ stream = (left.map SerRespPack.pack).flatten ∧
      ∀ resp ∈ left.head?, b'.offset < (SerRespPack.pack resp).length := by
  induction resps generalizing b fuel with
  | nil =>
      obtain ⟨fuel, rfl⟩ : ∃ k, fuel = k + 1 := ⟨fuel - 1, by omega⟩
      have empty : b.offset = 0 := by
        rw [← Inbox.length_live, (List.append_eq_nil_iff.mp whole).1, List.length_nil]
      refine ⟨b, [], [], ?_, rfl, whole, nofun⟩
      rw [processBuffer, if_pos (by rw [empty]; decide)]
      rfl
  | cons resp resps ih =>
      obtain ⟨fuel, rfl⟩ : ∃ k, fuel = k + 1 := ⟨fuel - 1, by omega⟩
      have here := sendable resp List.mem_cons_self
      rw [List.map_cons, List.flatten_cons] at whole
      rcases Nat.lt_or_ge b.offset (SerRespPack.pack resp).length with short | long
      · refine ⟨b, [], resp :: resps, processBuffer_incomplete here whole short, rfl, ?_, ?_⟩
        · rw [List.map_cons, List.flatten_cons, whole]
        · intro first hfirst
          cases hfirst
          exact short
      · have shifted : (b.shift _ long).live ++ stream = (resps.map SerRespPack.pack).flatten := by
          have dropped := congrArg (List.drop (SerRespPack.pack resp).length) whole
          rw [List.drop_left, List.drop_append_of_le_length (by rw [Inbox.length_live]; exact long)]
            at dropped
          rw [Inbox.live_shift]
          exact dropped
        have positive := length_pack resp
        have less : (b.shift _ long).offset < fuel := by
          change b.offset - (SerRespPack.pack resp).length < fuel
          omega
        obtain ⟨b', done, left, processed, parts, whole', waiting⟩ :=
          ih (fun r hr => sendable r (List.mem_cons_of_mem resp hr)) shifted less
        refine ⟨b', resp :: done, left, ?_, ?_, whole', waiting⟩
        · rw [processBuffer_complete he here whole long, processed]
          rfl
        · rw [parts, List.cons_append]

end Round

/-! ### The whole stream -/

/-- The two loops of a clerk. -/
def Processes (max : UInt32) (process : Inbox → Option (Inbox × List Call)) : Prop :=
  process = processGetBuffer max ∨ process = processPutBuffer max

/-- Some responses have been passed on, and the rest is in the buffer and the stream. The
first of them is not complete yet. -/
def Received (resps : List ServerResponse) (s : Reception) : Prop :=
  ∃ done left, resps = done ++ left ∧ s.calls = done.map call ∧
    s.inbox.live ++ s.stream = (left.map SerRespPack.pack).flatten ∧
    ∀ resp ∈ left.head?, s.inbox.offset < (SerRespPack.pack resp).length

section Stream

variable {max : UInt32} {process : Inbox → Option (Inbox × List Call)} {resps : List ServerResponse}
variable {s t : Reception} {n : Nat}

theorem received_delivering (resps : List ServerResponse) : Received resps (delivering resps) := by
  refine ⟨[], resps, rfl, rfl, rfl, ?_⟩
  intro resp _
  rw [length_pack]
  exact Nat.succ_pos _

theorem process_spec (hp : Processes max process) {b : Inbox} {stream : Bytes}
    (sendable : ∀ resp ∈ resps, Sendable max resp)
    (whole : b.live ++ stream = (resps.map SerRespPack.pack).flatten) :
    ∃ b' done left, process b = some (b', done.map call) ∧
      resps = done ++ left ∧ b'.live ++ stream = (left.map SerRespPack.pack).flatten ∧
      ∀ resp ∈ left.head?, b'.offset < (SerRespPack.pack resp).length := by
  rcases hp with rfl | rfl
  · exact processBuffer_spec extracts_getData sendable whole (Nat.lt_succ_self _)
  · exact processBuffer_spec extracts_putData sendable whole (Nat.lt_succ_self _)

/-- Every read that is possible goes through. -/
theorem Received.receive (h : Received resps s) (hp : Processes max process)
    (sendable : ∀ resp ∈ resps, Sendable max resp) (pos : 0 < n) (available : n ≤ s.stream.length)
    (space : s.inbox.offset + n ≤ bufferSize) :
    ∃ t, receive process s n = some t ∧ Received resps t ∧ t.stream = s.stream.drop n := by
  obtain ⟨done, left, rfl, calls, whole, -⟩ := h
  have length : (s.stream.take n).length = n := by
    rw [List.length_take, Nat.min_eq_left available]
  have filled : (s.inbox.fill (s.stream.take n) (by rw [length]; exact space)).live ++
      s.stream.drop n = (left.map SerRespPack.pack).flatten := by
    rw [Inbox.live_fill, List.append_assoc, List.take_append_drop, whole]
  obtain ⟨b, done', left', processed, parts, whole', waiting⟩ :=
    process_spec hp (fun r hr => sendable r (List.mem_append_right _ hr)) filled
  rw [Proxy.receive, dif_pos ⟨pos, available, space⟩]
  dsimp only
  rw [processed, Option.map_some]
  refine ⟨_, rfl, ?_, rfl⟩
  refine ⟨done ++ done', left', ?_, ?_, whole', waiting⟩
  · rw [parts, List.append_assoc]
  · change s.calls ++ done'.map call = _
    rw [calls, List.map_append]

theorem received_of_reachable (hp : Processes max process)
    (sendable : ∀ resp ∈ resps, Sendable max resp)
    (h : Reachable (receive process) (delivering resps) t) : Received resps t := by
  refine h.invariant (received_delivering resps) ?_
  intro s n t _ received _ step
  by_cases possible : 0 < n ∧ n ≤ s.stream.length ∧ s.inbox.offset + n ≤ bufferSize
  · obtain ⟨pos, available, space⟩ := possible
    obtain ⟨t', step', received', -⟩ := received.receive hp sendable pos available space
    rw [step] at step'
    cases step'
    exact received'
  · rw [receive, dif_neg possible] at step
    cases step

/-- If every response fits into the buffer, there is space for more of it. -/
theorem Received.offset_lt (h : Received resps s)
    (fits : ∀ resp ∈ resps, (SerRespPack.pack resp).length ≤ bufferSize) (more : s.stream ≠ []) :
    s.inbox.offset < bufferSize := by
  obtain ⟨done, left, rfl, -, whole, waiting⟩ := h
  cases left with
  | nil => exact absurd (List.append_eq_nil_iff.mp whole).2 more
  | cons resp left =>
      have here := fits resp (List.mem_append_right _ List.mem_cons_self)
      exact Nat.lt_of_lt_of_le (waiting resp rfl) here

/-- At the end of the stream every response has been passed on. -/
theorem Received.calls_eq (h : Received resps s) (finished : s.stream = []) :
    s.calls = resps.map call ∧ s.inbox.offset = 0 := by
  obtain ⟨done, left, rfl, calls, whole, waiting⟩ := h
  rw [finished, List.append_nil] at whole
  cases left with
  | nil =>
      refine ⟨by rw [calls, List.append_nil], ?_⟩
      rw [← Inbox.length_live, whole]
      rfl
  | cons resp left =>
      have short := waiting resp rfl
      have length := congrArg List.length whole
      rw [Inbox.length_live, List.map_cons, List.flatten_cons, List.length_append] at length
      omega

/-- The stream can be read up to any place if there is always space for one byte more. -/
theorem exists_received (hp : Processes max process)
    (sendable : ∀ resp ∈ resps, Sendable max resp)
    (space : ∀ s, Reachable (receive process) (delivering resps) s → s.stream ≠ [] →
      s.inbox.offset < bufferSize) {k : Nat} (hk : k ≤ (delivering resps).stream.length) :
    ∃ s, Reachable (receive process) (delivering resps) s ∧
      s.stream = (delivering resps).stream.drop k := by
  induction k with
  | zero => exact ⟨_, .refl, rfl⟩
  | succ k ih =>
      obtain ⟨s, reached, rest⟩ := ih (Nat.le_of_succ_le hk)
      have length : s.stream.length = (delivering resps).stream.length - k := by
        rw [rest, List.length_drop]
      have more : s.stream ≠ [] := List.ne_nil_of_length_pos (by omega)
      obtain ⟨t, step, -, rest'⟩ := (received_of_reachable hp sendable reached).receive hp sendable
        Nat.one_pos (by omega) (space s reached more)
      refine ⟨t, .tail reached trivial step, ?_⟩
      rw [rest', rest, List.drop_drop]

/-- Behind `bufferSize` bytes of a response that is longer it cannot have been taken out, and
they do not leave any space. -/
theorem fits_of_space (hp : Processes max process) (sendable : ∀ resp ∈ resps, Sendable max resp)
    (space : ∀ s, Reachable (receive process) (delivering resps) s → s.stream ≠ [] →
      s.inbox.offset < bufferSize) :
    ∀ resp ∈ resps, (SerRespPack.pack resp).length ≤ bufferSize := by
  intro resp hresp
  by_contra long
  obtain ⟨before, behind, rfl⟩ := List.append_of_mem hresp
  have stream : (delivering (before ++ resp :: behind)).stream =
      (before.map SerRespPack.pack).flatten ++
        (SerRespPack.pack resp ++ (behind.map SerRespPack.pack).flatten) := by
    simp [delivering]
  have total := congrArg List.length stream
  rw [List.length_append, List.length_append] at total
  obtain ⟨s, reached, rest⟩ := exists_received hp sendable space
    (k := (before.map SerRespPack.pack).flatten.length + bufferSize) (by omega)
  have length := congrArg List.length rest
  rw [List.length_drop] at length
  have short := space s reached (List.ne_nil_of_length_pos (by omega))
  obtain ⟨done, left, parts, -, whole, -⟩ := received_of_reachable hp sendable reached
  have all : (delivering (before ++ resp :: behind)).stream =
      (done.map SerRespPack.pack).flatten ++ (s.inbox.live ++ s.stream) := by
    rw [whole, ← List.flatten_append, ← List.map_append, ← parts]
    rfl
  have lengths := congrArg List.length all
  rw [List.length_append, List.length_append, Inbox.length_live] at lengths
  rcases List.append_eq_append_iff.mp parts with ⟨more, rfl, rest⟩ | ⟨more, rfl, -⟩
  · rw [List.map_append, List.flatten_append, List.length_append] at lengths
    rcases List.cons_eq_append_iff.mp rest with ⟨rfl, -⟩ | ⟨more, rfl, -⟩
    · rw [List.map_nil, List.flatten_nil, List.length_nil] at lengths
      omega
    · rw [List.map_cons, List.flatten_cons, List.length_append] at lengths
      omega
  · rw [List.map_append, List.flatten_append, List.length_append] at total length
    omega

end Stream

/-- Every response fits into the buffer exactly if, however the bytes are split into reads, the
clerk has space for the next read until the last byte, no read fails, and it passes on each
response once, in order. -/
theorem response_stream {max : UInt32} {process : Inbox → Option (Inbox × List Call)}
    (hp : Processes max process) {resps : List ServerResponse}
    (sendable : ∀ resp ∈ resps, Sendable max resp) :
    (∀ resp ∈ resps, (SerRespPack.pack resp).length ≤ bufferSize) ↔
      ∀ s, Reachable (receive process) (delivering resps) s →
        s.calls <+: resps.map call ∧
        (s.stream ≠ [] → s.inbox.offset < bufferSize ∧
          ∀ n, 0 < n → n ≤ s.stream.length → s.inbox.offset + n ≤ bufferSize →
            (receive process s n).isSome) ∧
        (s.stream = [] → s.calls = resps.map call ∧ s.inbox.offset = 0) := by
  constructor
  · intro fits s reached
    have received := received_of_reachable hp sendable reached
    refine ⟨?_, fun more => ⟨received.offset_lt fits more, fun n pos available space => ?_⟩,
      received.calls_eq⟩
    · obtain ⟨done, left, rfl, calls, -, -⟩ := received
      rw [calls, List.map_append]
      exact List.prefix_append _ _
    · obtain ⟨t, step, -⟩ := received.receive hp sendable pos available space
      rw [step]
      rfl
  · intro all
    exact fits_of_space hp sendable fun s reached more => ((all s reached).2.1 more).1

/-- Two responses, read in one piece by both loops. -/
theorem response_stream_once :
    let resps : List ServerResponse := [{ err := 100 }, opToResp { key := [1], value := [2] } 200]
    (∃ s, Reachable (receive (processGetBuffer 0)) (delivering resps) s ∧
      s.stream = [] ∧ s.calls = resps.map call) ∧
    ∃ s, Reachable (receive (processPutBuffer 0)) (delivering resps) s ∧
      s.stream = [] ∧ s.calls = resps.map call := by
  intro resps
  have sendable : ∀ resp ∈ resps, Sendable 0 resp :=
    List.forall_mem_cons.mpr ⟨⟨by decide, by decide, by decide⟩,
      List.forall_mem_singleton.mpr ⟨by decide, by decide, by decide⟩⟩
  have fits : ∀ resp ∈ resps, (SerRespPack.pack resp).length ≤ bufferSize := by decide
  have both : ∀ process, Processes 0 process → ∃ s, Reachable (receive process) (delivering resps) s ∧
      s.stream = [] ∧ s.calls = resps.map call := by
    intro process hp
    obtain ⟨s, step, -, rest⟩ : ∃ s, receive process (delivering resps) _ = some s ∧ _ :=
      (received_delivering resps).receive hp sendable (by decide) (Nat.le_refl _) (by decide)
    have finished : s.stream = [] := by
      rw [rest, List.drop_length]
    have reached : Reachable (receive process) (delivering resps) s := .tail .refl trivial step
    have passed := (response_stream hp sendable).mp fits s reached
    exact ⟨s, reached, finished, (passed.2.2 finished).1⟩
  exact ⟨both _ (.inl rfl), both _ (.inr rfl)⟩

/-! ### Responses that are too long -/

/-- Once a response that is too long has filled the buffer, there is no read any more. -/
theorem stuck_of_long {max : UInt32} {process : Inbox → Option (Inbox × List Call)}
    (hp : Processes max process) {resp : ServerResponse} (sendable : Sendable max resp)
    (long : bufferSize < (SerRespPack.pack resp).length) :
    ∃ s, Reachable (receive process) (delivering [resp]) s ∧ s.stream ≠ [] ∧ s.calls = [] ∧
      s.inbox.offset = bufferSize ∧ ∀ n, receive process s n = none := by
  have stream : (delivering [resp]).stream = SerRespPack.pack resp := List.append_nil _
  have sendables : ∀ r ∈ [resp], Sendable max r := by
    intro r hr
    rw [List.mem_singleton.mp hr]
    exact sendable
  obtain ⟨s, step, received, rest⟩ : ∃ s, receive process (delivering [resp]) bufferSize = some s ∧ _ :=
    (received_delivering [resp]).receive hp sendables (by decide)
      (by rw [stream]; exact Nat.le_of_lt long) (Nat.le_of_eq (Nat.zero_add _))
  have reached : Reachable (receive process) (delivering [resp]) s := .tail .refl trivial step
  have size : s.stream.length = (SerRespPack.pack resp).length - bufferSize := by
    rw [rest, stream, List.length_drop]
  have more : s.stream ≠ [] := by
    intro empty
    rw [empty, List.length_nil] at size
    omega
  obtain ⟨done, left, parts, calls, whole, -⟩ := received
  -- the only response is still to come
  have pending : done = [] ∧ left = [resp] := by
    rcases List.cons_eq_append_iff.mp parts with ⟨rfl, rfl⟩ | ⟨done', rfl, none⟩
    · exact ⟨rfl, rfl⟩
    · rw [(List.append_eq_nil_iff.mp none.symm).2] at whole
      exact absurd (List.append_eq_nil_iff.mp whole).2 more
  obtain ⟨rfl, rfl⟩ := pending
  have full : s.inbox.offset = bufferSize := by
    have length := congrArg List.length whole
    rw [List.length_append, Inbox.length_live, List.map_singleton, List.flatten_singleton] at length
    omega
  refine ⟨s, reached, more, calls, full, fun n => ?_⟩
  rw [receive, dif_neg]
  rintro ⟨pos, -, space⟩
  omega

/-- The answer to a `Put` of 2016 bytes under a key of one byte never arrives. -/
theorem response_never_complete :
    ∃ op : Op, op.key.length = 1 ∧ op.value.length = 2016 ∧
      ∀ process, Processes 0 process → ∃ s, Reachable (receive process)
        (delivering [opToResp op 200]) s ∧ s.stream ≠ [] ∧ s.calls = [] ∧
        s.inbox.offset = bufferSize ∧ ∀ n, receive process s n = none := by
  refine ⟨{ optype := 1, key := [107], value := List.replicate 2016 0 }, rfl,
    List.length_replicate, fun process hp => ?_⟩
  have length : (opToResp { optype := 1, key := [107], value := List.replicate 2016 0 } 200).data.length
      = 2021 := by
    change (packBody [107] (List.replicate 2016 0)).length = 2021
    rw [length_packBody, List.length_replicate]
    rfl
  refine stuck_of_long hp ⟨rfl, ?_, ?_⟩ ?_
  · rw [length]
    decide
  · rfl
  · rw [length_pack, length]
    decide

end RaftKv.Proxy
