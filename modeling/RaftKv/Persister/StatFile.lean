import RaftKv.Library.Protobuf
import RaftKv.Persister.Basic

/-!
# The bytes of the stat file

`saveState` marshals the vote, the term and the index range and hands the bytes to
`WriteAndSyncFile`, which opens the stat file with `O_TRUNC` and writes them. The other
modules of the persister take this for one change of the disk. Here the file is a string of
bytes, and a crash can leave any part of the new ones in it, none of them at first.

Between the opening and the last byte the old state is gone and the new one is not there.
A file with some of the bytes is not taken for a state: either it cannot be unmarshalled,
or the vote and the term are missing, and `ReadRaftState` follows a nil pointer. An empty
file is taken for a new node.

The messages are those of `snapshot.proto`: fields of value zero are not written, and the
others follow one another by their numbers. A state that is saved has its `RaftSate`, from
`MakePersister` on.
-/

namespace RaftKv.StatFile

open Library.Protobuf
open Raft (Bytes)

/-! ### Messages -/

/-- `State`. -/
structure State where
  votedFor : Int32 := 0
  currentTerm : Int64 := 0
  deriving DecidableEq

/-- `IndexState`. The pointer `RaftSate` is `nil` if the message has no such field. -/
@[ext]
structure IndexState where
  firstIndex : Int64 := 0
  lastIndex : Int64 := 0
  lastCommitIndex : Int64 := 0
  raftSate : Option State := none
  deriving DecidableEq

/-- A number as a field of that number. -/
def scalar (number : Nat) (x : Int64) : List Field :=
  if x = 0 then [] else [{ number := number, value := .varint x.toUInt64 }]

/-- An `int32` goes on the wire with its sign extended. -/
def State.fields (s : State) : List Field :=
  scalar 1 s.votedFor.toInt64 ++ scalar 2 s.currentTerm

def IndexState.scalars (m : IndexState) : List Field :=
  scalar 1 m.firstIndex ++ scalar 2 m.lastIndex ++ scalar 3 m.lastCommitIndex

def IndexState.fields (m : IndexState) : List Field :=
  m.scalars ++ (m.raftSate.map fun s => { number := 4, value := .bytes (encode s.fields) }).toList

/-- Set a field of the message. One that it does not have is skipped. -/
def State.set (s : State) (f : Field) : Option State :=
  match f.number, f.value with
  | 1, .varint x => some { s with votedFor := x.toInt64.toInt32 }
  | 2, .varint x => some { s with currentTerm := x.toInt64 }
  | _, _ => some s

def State.merge (s : State) (data : Bytes) : Option State :=
  (parse data).bind fun fs => fs.foldlM State.set s

def IndexState.set (m : IndexState) (f : Field) : Option IndexState :=
  match f.number, f.value with
  | 1, .varint x => some { m with firstIndex := x.toInt64 }
  | 2, .varint x => some { m with lastIndex := x.toInt64 }
  | 3, .varint x => some { m with lastCommitIndex := x.toInt64 }
  | 4, .bytes data => ((m.raftSate.getD {}).merge data).map fun s => { m with raftSate := some s }
  | _, _ => some m

/-- `proto.Marshal`. -/
def marshal (m : IndexState) : Bytes := encode m.fields

/-- `proto.Unmarshal`, which resets the message first. -/
def unmarshal (data : Bytes) : Option IndexState :=
  (parse data).bind fun fs => fs.foldlM IndexState.set {}

/-! ### The file -/

/-- The state that `MakePersister` starts from. -/
def fresh : IndexState :=
  { lastIndex := -1, raftSate := some { votedFor := -1, currentTerm := 0 } }

/-- `loadState`: the state, and the file that is there afterwards. -/
def loadState : Option Bytes → Option (IndexState × Bytes)
  | none => some ({ fresh with firstIndex := 1 }, [])
  | some [] => some (fresh, [])
  | some (b :: data) => (unmarshal (b :: data)).map fun m => (m, b :: data)

def loaded (file : Option Bytes) : Option IndexState := (loadState file).map Prod.fst

/-- How far `WriteAndSyncFile` has come. -/
inductive Progress where
  | closed
  | written (k : Nat)
  deriving DecidableEq

/-- What `WriteAndSyncFile` leaves in the file. To open it is to empty it. -/
def writeAndSyncFile (file : Option Bytes) (data : Bytes) : Progress → Option Bytes
  | .closed => file
  | .written k => some (data.take k)

/-! ### Marshalling -/

theorem scalar_encodable {number : Nat} (hnumber : 1 ≤ number ∧ number < 2 ^ 29) {x : Int64} :
    ∀ f ∈ scalar number x, f.Encodable := by
  intro f hf
  rw [scalar] at hf
  split at hf
  · cases hf
  · cases List.mem_singleton.mp hf
    exact ⟨hnumber, trivial⟩

theorem length_encode_scalar (number : Nat) (x : Int64) :
    (encode (scalar number x)).length ≤ 20 := by
  rw [scalar]
  split
  · exact Nat.zero_le 20
  · have tag := Library.length_putUvarint_le 9 (8 * number + 0)
    have value := Library.length_putUvarint_le 9 x.toUInt64.toNat
    simp only [encode, List.map_cons, List.map_nil, List.flatten_cons, List.flatten_nil,
      List.append_nil, Field.encode, Value.encode, Value.wireType, List.length_append]
    omega

theorem State.encodable (s : State) : ∀ f ∈ s.fields, f.Encodable := by
  intro f hf
  rcases List.mem_append.mp hf with hf | hf
  · exact scalar_encodable (by decide) f hf
  · exact scalar_encodable (by decide) f hf

theorem State.length_encode (s : State) : (encode s.fields).length ≤ 40 := by
  have vote := length_encode_scalar 1 s.votedFor.toInt64
  have term := length_encode_scalar 2 s.currentTerm
  rw [encode] at vote term
  rw [encode, State.fields, List.map_append, List.flatten_append, List.length_append]
  omega

theorem IndexState.encodable (m : IndexState) : ∀ f ∈ m.fields, f.Encodable := by
  intro f hf
  rcases List.mem_append.mp hf with hf | hf
  · rcases List.mem_append.mp hf with hf | hf
    · rcases List.mem_append.mp hf with hf | hf
      · exact scalar_encodable (by decide) f hf
      · exact scalar_encodable (by decide) f hf
    · exact scalar_encodable (by decide) f hf
  · obtain ⟨s, -, rfl⟩ := Option.map_eq_some_iff.mp (Option.mem_toList.mp hf)
    have small : (encode s.fields).length < 2 ^ 64 := Nat.lt_of_le_of_lt s.length_encode (by decide)
    exact ⟨(by decide : 1 ≤ 4 ∧ 4 < 2 ^ 29), small⟩

/-- A number that is not written is zero already. -/
theorem foldlM_scalar {σ : Type} {set : σ → Field → Option σ} {number : Nat} {x : Int64} {s t : σ}
    (hset : set s { number := number, value := .varint x.toUInt64 } = some t)
    (hzero : x = 0 → t = s) : (scalar number x).foldlM set s = some t := by
  rw [scalar]
  split
  · rename_i hx
    rw [hzero hx]
    rfl
  · rw [List.foldlM_cons, hset]
    rfl

theorem State.merge_encode (s : State) : State.merge {} (encode s.fields) = some s := by
  have vote : (scalar 1 s.votedFor.toInt64).foldlM State.set {} =
      some { votedFor := s.votedFor } := by
    refine foldlM_scalar ?_ fun hzero => ?_
    · change some ({ votedFor := s.votedFor.toInt64.toInt32 } : State) = _
      rw [Int32.toInt32_toInt64]
    · rw [← Int32.toInt32_toInt64 s.votedFor, hzero]
      rfl
  have term : (scalar 2 s.currentTerm).foldlM State.set { votedFor := s.votedFor } = some s :=
    foldlM_scalar rfl fun hzero => by rw [← hzero]
  rw [State.merge, parse_encode s.encodable, Option.bind_some, State.fields, List.foldlM_append,
    vote]
  exact term

theorem IndexState.foldlM_scalars (m : IndexState) :
    m.scalars.foldlM IndexState.set {} = some { m with raftSate := none } := by
  have first : (scalar 1 m.firstIndex).foldlM IndexState.set {} =
      some { firstIndex := m.firstIndex } :=
    foldlM_scalar rfl fun hzero => by rw [hzero]
  have last : (scalar 2 m.lastIndex).foldlM IndexState.set { firstIndex := m.firstIndex } =
      some { firstIndex := m.firstIndex, lastIndex := m.lastIndex } :=
    foldlM_scalar rfl fun hzero => by rw [hzero]
  have commit : (scalar 3 m.lastCommitIndex).foldlM IndexState.set
      { firstIndex := m.firstIndex, lastIndex := m.lastIndex } =
      some { m with raftSate := none } :=
    foldlM_scalar rfl fun hzero => by rw [hzero]
  rw [IndexState.scalars, List.foldlM_append, List.foldlM_append, first]
  dsimp only [Option.bind_eq_bind, Option.bind_some]
  rw [last]
  exact commit

theorem IndexState.set_bytes (m : IndexState) (data : Bytes) :
    m.set { number := 4, value := .bytes data } =
      ((m.raftSate.getD {}).merge data).map fun s => { m with raftSate := some s } :=
  rfl

theorem unmarshal_marshal (m : IndexState) : unmarshal (marshal m) = some m := by
  rw [unmarshal, marshal, parse_encode m.encodable, Option.bind_some, IndexState.fields,
    List.foldlM_append, m.foldlM_scalars]
  dsimp only [Option.bind_eq_bind, Option.bind_some]
  cases hstate : m.raftSate with
  | none => exact congrArg some (IndexState.ext rfl rfl rfl hstate.symm)
  | some s =>
      have set : IndexState.set { m with raftSate := none }
          { number := 4, value := .bytes (encode s.fields) } = some m := by
        rw [IndexState.set_bytes, Option.getD_none, s.merge_encode, Option.map_some]
        exact congrArg some (IndexState.ext rfl rfl rfl hstate.symm)
      rw [Option.map_some, Option.toList_some, List.foldlM_cons, set]
      rfl

variable {m previous new : IndexState}

theorem marshal_ne_nil (hm : m.raftSate.isSome) : marshal m ≠ [] := by
  obtain ⟨s, hs⟩ := Option.isSome_iff_exists.mp hm
  rw [marshal, encode, IndexState.fields, hs, List.map_append, List.flatten_append]
  exact List.append_ne_nil_of_right_ne_nil _ (List.append_ne_nil_of_left_ne_nil
    (Field.encode_ne_nil _) _)

/-! ### The stat file of the persister -/

/-- The state in the terms of the persister, whose vote is `none` for `-1`. -/
def IndexState.view (m : IndexState) (s : State) : RaftKv.IndexState :=
  { firstIndex := m.firstIndex.toInt, lastIndex := m.lastIndex.toInt
    lastCommitIndex := m.lastCommitIndex.toInt
    votedFor := if s.votedFor = -1 then none else some s.votedFor.toInt.toNat
    currentTerm := s.currentTerm.toInt }

/-- The bytes of a stat file that is missing, empty or complete. -/
inductive Represents : Option Bytes → Option (Option RaftKv.IndexState) → Prop
  | missing : Represents none none
  | empty : Represents (some []) (some none)
  | saved {m : IndexState} {s : State} (hs : m.raftSate = some s) :
      Represents (some (marshal m)) (some (some (m.view s)))

section Persister

variable {β : Type} {file : Option Bytes}

theorem Represents.loadState {disk : Disk β} (file_of : Represents file disk.stat) :
    ∃ m s after, loadState file = some (m, after) ∧ m.raftSate = some s ∧
      m.view s = disk.loadState.2 ∧ Represents (some after) disk.loadState.1.stat := by
  obtain ⟨stat, log, snap⟩ := disk
  cases file_of with
  | missing => exact ⟨_, _, _, rfl, rfl, rfl, .empty⟩
  | empty => exact ⟨_, _, _, rfl, rfl, rfl, .empty⟩
  | @saved m s hs =>
      refine ⟨m, s, marshal m, ?_, hs, rfl, .saved hs⟩
      have hm : m.raftSate.isSome := by rw [hs]; rfl
      obtain ⟨b, data, hdata⟩ := List.exists_cons_of_ne_nil (marshal_ne_nil hm)
      rw [hdata, StatFile.loadState, ← hdata, unmarshal_marshal, Option.map_some]

theorem Represents.saveState {ps : Persister β} {s : State} (hs : m.raftSate = some s)
    (view : m.view s = ps.state) {k : Nat} (hk : (marshal m).length ≤ k) :
    Represents (writeAndSyncFile file (marshal m) (.written k)) ps.saveState.disk.stat := by
  change Represents (some ((marshal m).take k)) (some (some ps.state))
  rw [List.take_of_length_le hk, ← view]
  exact .saved hs

end Persister

/-! ### Files that are cut off -/

theorem IndexState.number_of_scalars {f : Field} (hf : f ∈ m.scalars) : f.number ≠ 4 := by
  have number {k : Nat} {x : Int64} (h : f ∈ scalar k x) : f.number = k := by
    rw [scalar] at h
    split at h
    · cases h
    · cases List.mem_singleton.mp h
      rfl
  rcases List.mem_append.mp hf with hf | hf
  · rcases List.mem_append.mp hf with hf | hf
    · rw [number hf]
      decide
    · rw [number hf]
      decide
  · rw [number hf]
    decide

theorem IndexState.set_raftSate {f : Field} (hf : f.number ≠ 4) {m' : IndexState}
    (hset : m.set f = some m') : m'.raftSate = m.raftSate := by
  rw [IndexState.set] at hset
  split at hset
  all_goals first | contradiction | (cases hset; rfl)

theorem IndexState.foldlM_raftSate {fs : List Field} (hfs : ∀ f ∈ fs, f.number ≠ 4)
    {m' : IndexState} (hset : fs.foldlM IndexState.set m = some m') :
    m'.raftSate = m.raftSate := by
  induction fs generalizing m with
  | nil =>
      cases hset
      rfl
  | cons f fs ih =>
      obtain ⟨hf, hfs⟩ := List.forall_mem_cons.mp hfs
      obtain ⟨between, hfirst, hrest⟩ := Option.bind_eq_some_iff.mp hset
      rw [ih hfs hrest, IndexState.set_raftSate hf hfirst]

/-- The vote and the term come last: what can be unmarshalled without the last byte does
not have them. -/
theorem unmarshal_take {k : Nat} (hk : k < (marshal m).length) {part : IndexState}
    (hpart : unmarshal ((marshal m).take k) = some part) (hm : m.raftSate.isSome) :
    part.raftSate = none := by
  obtain ⟨s, hs⟩ := Option.isSome_iff_exists.mp hm
  obtain ⟨fs, hparse, hset⟩ := Option.bind_eq_some_iff.mp hpart
  obtain ⟨j, hj, rfl, -⟩ := parse_take m.encodable hk hparse
  rw [IndexState.fields, hs, Option.map_some, Option.toList_some] at hj hset
  rw [List.length_append, List.length_singleton] at hj
  rw [List.take_append_of_le_length (by omega)] at hset
  exact IndexState.foldlM_raftSate
    (fun f hf => IndexState.number_of_scalars (List.mem_of_mem_take hf)) hset

theorem loaded_of_ne_nil {data : Bytes} (hdata : data ≠ []) :
    loaded (some data) = unmarshal data := by
  obtain ⟨b, data, rfl⟩ := List.exists_cons_of_ne_nil hdata
  rw [loaded, loadState, Option.map_map]
  exact Option.map_id'

section Written

variable (hnew : new.raftSate.isSome) {k : Nat}

include hnew

theorem loaded_complete (hk : (marshal new).length ≤ k) :
    loaded (some ((marshal new).take k)) = some new := by
  rw [List.take_of_length_le hk, loaded_of_ne_nil (marshal_ne_nil hnew), unmarshal_marshal]

theorem loaded_cut (hpos : 0 < k) (hk : k < (marshal new).length) :
    (loaded (some ((marshal new).take k))).bind (·.raftSate) = none := by
  have hbytes : (marshal new).take k ≠ [] := by
    rw [Ne, List.take_eq_nil_iff]
    rintro (rfl | h)
    · exact Nat.lt_irrefl 0 hpos
    · exact marshal_ne_nil hnew h
  rw [loaded_of_ne_nil hbytes]
  cases hpart : unmarshal ((marshal new).take k) with
  | none => rfl
  | some part => exact unmarshal_take hk hpart hnew

end Written

/-- **A crash in `saveState`.** Before the file is opened the previous state is loaded, and
with all bytes written the new one. With no byte written the state of a new node is loaded,
and with some of them no vote and no term can be read at all. So one of the two states is
found exactly if the crash is not between the opening and the last byte, an empty file that
stands for a new node apart. -/
theorem loadState_after_crash (hprevious : previous.raftSate.isSome) (hnew : new.raftSate.isSome)
    (progress : Progress) :
    let found := loaded (writeAndSyncFile (some (marshal previous)) (marshal new) progress)
    (progress = .closed → found = some previous) ∧
      (∀ k, progress = .written k →
        ((marshal new).length ≤ k → found = some new) ∧ (k = 0 → found = some fresh) ∧
        (0 < k → k < (marshal new).length → found.bind (·.raftSate) = none)) ∧
      ((found = some previous ∨ found = some new) ↔
        progress = .closed ∨ (∃ k, progress = .written k ∧ (marshal new).length ≤ k) ∨
        (progress = .written 0 ∧ (fresh = previous ∨ fresh = new))) := by
  have positive := List.length_pos_iff.mpr (marshal_ne_nil hnew)
  cases progress with
  | closed =>
      have found : loaded (some (marshal previous)) = some previous := by
        rw [loaded_of_ne_nil (marshal_ne_nil hprevious), unmarshal_marshal]
      exact ⟨fun _ => found, nofun, iff_of_true (.inl found) (.inl rfl)⟩
  | written k =>
      have complete := @loaded_complete new hnew k
      have cut := @loaded_cut new hnew k
      have empty (hk : k = 0) : loaded (some ((marshal new).take k)) = some fresh := by
        rw [hk]
        rfl
      refine ⟨nofun, ?_, ?_⟩
      · intro j hj
        cases hj
        exact ⟨complete, empty, cut⟩
      · dsimp only [writeAndSyncFile]
        constructor
        · intro found
          by_cases hcomplete : (marshal new).length ≤ k
          · exact .inr (.inl ⟨k, rfl, hcomplete⟩)
          by_cases hempty : k = 0
          · rw [empty hempty, Option.some_inj, Option.some_inj] at found
            exact .inr (.inr ⟨by rw [hempty], found⟩)
          -- a part of the message has no vote, and both states have one
          have missing := cut (by omega) (by omega)
          rcases found with found | found
          · rw [found, Option.bind_some] at missing
            rw [missing] at hprevious
            cases hprevious
          · rw [found, Option.bind_some] at missing
            rw [missing] at hnew
            cases hnew
        · rintro (hclosed | ⟨j, hj, hlength⟩ | ⟨hempty, hfresh⟩)
          · cases hclosed
          · cases hj
            exact .inr (complete hlength)
          · cases hempty
            rw [empty rfl, Option.some_inj, Option.some_inj]
            exact hfresh

/-- The state of a node with three entries. -/
def voted (votedFor : Int32) (currentTerm : Int64) : IndexState :=
  { firstIndex := 1, lastIndex := 3, lastCommitIndex := 3
    raftSate := some { votedFor := votedFor, currentTerm := currentTerm } }

/-- Half of the bytes are the index range, with neither a vote nor a term. -/
theorem loadState_after_crash_cut :
    (marshal (voted 1 6)).length = 12 ∧
      (loaded (writeAndSyncFile (some (marshal (voted 2 5))) (marshal (voted 1 6))
        (.written 6))).bind (·.raftSate) = none := by
  have length : (marshal (voted 1 6)).length = 12 := by decide
  refine ⟨length, ?_⟩
  have crash := @loadState_after_crash (voted 2 5) (voted 1 6) rfl rfl (.written 6)
  exact (crash.2.1 6 rfl).2.2 (by decide) (by rw [length]; decide)

/-- The file has just been opened. The node has voted for node two in term five, and will
find that it has never voted. -/
theorem vote_forgotten :
    let found := loaded (writeAndSyncFile (some (marshal (voted 2 5))) (marshal (voted 1 6))
      (.written 0))
    found ≠ some (voted 2 5) ∧ found ≠ some (voted 1 6) ∧
      found.bind (·.raftSate) = some { votedFor := -1, currentTerm := 0 } := by
  decide

end RaftKv.StatFile
