import RaftKv.Server.ReadIndex

/-!
# What the sections of the system touch

Most sections of the servers move a goroutine or write to `incrMapLogIdx`. What a server
has stored and answered changes in `ApplyHandler` only, and what it hands to Raft there and
in the call of `Snapshot` that follows. All other sections are at most a section of Raft,
seen from the servers.
-/

namespace RaftKv.Server

open Library (enabled_map enabled_some)
open RaftKv.Raft (Bytes Op ApplyMsg Cluster Guarded)

/-! ## The operations that a server works on -/

def OpHandler.op : OpHandler → Option Op
  | .idle => none
  | .checked op | .started op _ => some op

def Reader.read {n : Nat} : Reader n → Option Read
  | .idle => none
  | .looking read | .asking read | .confirming read _ _ | .beating read _ _ _ _
  | .following read | .asked read _ | .recording read _ | .serving read _ => some read

/-- The reads that have not been executed yet. -/
def Service.reads {n : Nat} (service : Service n) : List Read :=
  service.readQue ++ service.reader.read.toList

/-- The read goes on as `next`. -/
def Read.Continues (read next : Read) : Prop := next.op = read.op ∧ next.before = read.before

theorem Read.Continues.refl (read : Read) : read.Continues read := ⟨rfl, rfl⟩

namespace System

variable {n : Nat} {codec : Labgob} {s t : System n} {a : Action n}

/-- Node `i` gets no operation but from its queue, and no read but from `handleOpQue`, which
dispatches it after all the answers so far. -/
structure Passes (s : System n) (a : Action n) (i : Fin n) (service : Service n) : Prop where
  handler : ∀ op, service.opHandler.op = some op →
    (s.services i).opHandler.op = some op ∨ a = .handleOpQue i op
  reads : ∀ next ∈ service.reads, (∃ read ∈ (s.services i).reads, read.Continues next) ∨
    ((s.services i).opHandler.op = some next.op ∧ next.before = s.answers)

namespace Passes

theorem of_eq {i : Fin n} {service : Service n}
    (handler : service.opHandler = (s.services i).opHandler)
    (reads : service.reads = (s.services i).reads) : Passes s a i service where
  handler _ hop := .inl (handler ▸ hop)
  reads next hnext := .inl ⟨next, reads ▸ hnext, .refl next⟩

/-- `handleReadQue` moves on with the read it has, or drops it. -/
theorem of_reader {i : Fin n} {service : Service n}
    (handler : service.opHandler = (s.services i).opHandler)
    (queue : service.readQue = (s.services i).readQue)
    (reader : ∀ next ∈ service.reader.read, ∃ read, (s.services i).reader.read = some read ∧
      read.Continues next) : Passes s a i service where
  handler _ hop := .inl (handler ▸ hop)
  reads next hnext := by
    rcases List.mem_append.mp hnext with hnext | hnext
    · exact .inl ⟨next, List.mem_append_left _ (queue ▸ hnext), .refl next⟩
    · obtain ⟨read, hread, continues⟩ := reader next (Option.mem_toList.mp hnext)
      exact .inl ⟨read, List.mem_append_right _ (Option.mem_toList.mpr hread), continues⟩

/-- `handleOpQue` moves on, and the reads stay. -/
theorem of_handler {i : Fin n} {service : Service n}
    (handler : ∀ op, service.opHandler.op = some op →
      (s.services i).opHandler.op = some op ∨ a = .handleOpQue i op)
    (reads : service.reads = (s.services i).reads) : Passes s a i service where
  handler := handler
  reads next hnext := .inl ⟨next, reads ▸ hnext, .refl next⟩

end Passes

/-- The servers keep what they have stored, answered and are about to hand over. -/
structure Keeps (s : System n) (a : Action n) (t : System n) : Prop where
  services : ∀ i, (s.services i).Same (t.services i)
  answers : t.answers = s.answers
  passes : ∀ i, Passes s a i (t.services i)

namespace Keeps

theorem setService (i : Fin n) (service : Service n) (same : (s.services i).Same service)
    (passes : Passes s a i service) : Keeps s a (s.setService i service) where
  services j := setService_cases j same fun _ => ⟨rfl, rfl, rfl, rfl⟩
  answers := rfl
  passes j := setService_cases j passes fun _ => .of_eq rfl rfl

theorem setReader (i : Fin n) {reader : Reader n}
    (reads : ∀ next ∈ reader.read, ∃ read, (s.services i).reader.read = some read ∧
      read.Continues next) : Keeps s a (s.setReader i reader) :=
  setService i _ ⟨rfl, rfl, rfl, rfl⟩ (.of_reader rfl rfl reads)

end Keeps

/-- What a section does to the cluster and to the data of the servers. -/
inductive Effect (codec : Labgob) (s : System n) : Action n → System n → Prop
  /-- A section of the servers alone. -/
  | server {a : Action n} {t : System n} (raft : t.raft = s.raft) (keeps : Keeps s a t) :
      Effect codec s a t
  /-- A section of Raft alone, which may be called by a server. -/
  | raft {a : Action n} {t : System n} {b : Raft.Action n} (moved : s.raft.step b = some t.raft)
      (guards : Guards s a → Guarded s.raft b) (other : ∀ i index data, b ≠ .snapshot i index data)
      (started : ∀ i op, b = .start i op → (s.services i).opHandler.op = some op)
      (keeps : Keeps s a t) :
      Effect codec s a t
  | applyHandler {i : Fin n} {takesSnapshot : Bool} {t : System n} {msg : ApplyMsg}
      {result : KVServer × Option ServerResponse} {handing : Option (Int × Bytes)}
      (first : (s.raft.nodes i).applyCh.head? = some msg)
      (moved : s.raft.step (.applyHandler i) = some t.raft)
      (applied : (s.services i).kv.applyHandler codec msg = some result)
      (handed : ∀ taken ∈ handing, result.2.isSome = true ∧
        taken = (msg.commandIndex, result.1.snapshot codec))
      (services : t.services = (s.setService i
        { s.services i with kv := result.1, handing := handing }).services)
      (answers : t.answers =
        (result.2.map fun resp => (msg.commandIndex, resp)).toList ++ s.answers) :
      Effect codec s (.applyHandler i takesSnapshot) t
  | snapshot {i : Fin n} {taken : Int × Bytes} {t : System n}
      (handing : taken ∈ (s.services i).handing)
      (moved : s.raft.step (.snapshot i taken.1 taken.2) = some t.raft)
      (services : t.services = (s.setService i { s.services i with handing := none }).services)
      (answers : t.answers = s.answers) : Effect codec s (.snapshot i) t

namespace Effect

/-- Operations and reads are passed on as in `Passes` by every section. -/
theorem passes (effect : Effect codec s a t) (i : Fin n) : Passes s a i (t.services i) := by
  have only {j : Fin n} {service : Service n} (services : t.services =
      (s.setService j service).services) (handler : service.opHandler = (s.services j).opHandler)
      (reads : service.reads = (s.services j).reads) : Passes s a i (t.services i) := by
    rw [services]
    exact setService_cases i (.of_eq handler reads) fun _ => .of_eq rfl rfl
  cases effect with
  | server raft keeps => exact keeps.passes i
  | raft moved guards other started keeps => exact keeps.passes i
  | applyHandler first moved applied handed services answers => exact only services rfl rfl
  | snapshot handing moved services answers => exact only services rfl rfl

theorem answers_suffix (effect : Effect codec s a t) : s.answers <:+ t.answers := by
  cases effect with
  | server raft keeps => exact keeps.answers ▸ List.suffix_rfl
  | raft moved guards other started keeps => exact keeps.answers ▸ List.suffix_rfl
  | applyHandler first moved applied handed services answers =>
      rw [answers]
      exact List.suffix_append _ _
  | snapshot handing moved services answers => exact answers ▸ List.suffix_rfl

end Effect

theorem dispatch_effect {i : Fin n} (h : s.dispatch i = some t) :
    Effect codec s (.dispatch i) t := by
  unfold System.dispatch at h
  split at h
  · rename_i op hchecked
    have here : (s.services i).opHandler.op = some op := by rw [hchecked]; rfl
    split at h
    · cases h
      refine .server rfl (.setService i _ ⟨rfl, rfl, rfl, rfl⟩ ⟨fun _ hop => (by cases hop), ?_⟩)
      intro next hnext
      rcases List.mem_append.mp hnext with hnext | hnext
      · rcases List.mem_append.mp hnext with hnext | hnext
        · exact .inl ⟨next, List.mem_append_left _ hnext, .refl next⟩
        · rw [List.mem_singleton.mp hnext]
          exact .inr ⟨here, rfl⟩
      · exact .inl ⟨next, List.mem_append_right _ hnext, .refl next⟩
    · obtain ⟨result, -, h⟩ := Option.bind_eq_some_iff.mp h
      obtain ⟨raft, hraft, rfl⟩ := Option.map_eq_some_iff.mp h
      have keeps : Keeps s (.dispatch i) (s.setService i { s.services i with
          opHandler := (result.2.map fun started => .started op started.2).getD .idle }) := by
        refine .setService i _ ⟨rfl, rfl, rfl, rfl⟩
          (.of_handler (fun other hother => .inl ?_) rfl)
        cases hresult : result.2 with
        | none =>
            simp only [hresult, Option.map_none, Option.getD_none] at hother
            cases hother
        | some started =>
            simp only [hresult, Option.map_some, Option.getD_some] at hother
            cases hother
            exact here
      refine .raft hraft (fun _ => trivial) (by simp) (fun j other hother => ?_)
        ⟨keeps.services, keeps.answers, keeps.passes⟩
      cases hother
      exact here
  · cases h

theorem serveRead_effect {i : Fin n} (h : s.serveRead i = some t) :
    Effect codec s (.serveRead i) t := by
  unfold System.serveRead at h
  split at h
  · rename_i read found hreader
    cases h
    dsimp only
    generalize found.getD (((s.services i).kv.incrMapLogIdx.lookup read.op.incrId).getD 0) = startIdx
    have keeps : Keeps s (.serveRead i) (s.setService i
        { s.services i with
          kv := ((s.services i).kv.serveRead read.op startIdx).1
          count := 0
          reader := if ((s.services i).kv.serveRead read.op startIdx).2.isSome then .idle
            else .looking read }) := by
      refine .setService i _ ?_ (.of_reader rfl rfl fun next hnext => ?_)
      · unfold KVServer.serveRead KVServer.dbExecute
        split
        · exact ⟨KVServer.execute_get read.isGet, rfl, rfl, rfl⟩
        · exact ⟨rfl, rfl, rfl, rfl⟩
      · dsimp only at hnext
        split at hnext
        · cases hnext
        · cases hnext
          exact ⟨read, by rw [hreader]; rfl, .refl read⟩
    exact .server rfl ⟨keeps.services, keeps.answers, keeps.passes⟩
  · cases h

/-- Every section has one of the four effects. -/
theorem step_effect (h : s.step codec a = some t) : Effect codec s a t := by
  -- `handleReadQue` goes on with its read
  have goesOn {i : Fin n} {reader : Reader n} {read : Read}
      (hread : (s.services i).reader.read = some read)
      (hnext : reader.read = some read ∨ reader.read = none) :
      ∀ next ∈ reader.read, ∃ read, (s.services i).reader.read = some read ∧
        read.Continues next := by
    intro next hother
    rcases hnext with hnext | hnext
    · cases hother.symm.trans hnext
      exact ⟨read, hread, .refl read⟩
    · cases hother.symm.trans hnext
  have called {b : Raft.Action n} {i : Fin n} {reader : Reader n} {raft : Cluster n}
      (hraft : s.raft.step b = some raft) (guards : Guards s a → Guarded s.raft b)
      (other : ∀ i index data, b ≠ .snapshot i index data)
      (started : ∀ i op, b ≠ .start i op) (keeps : Keeps s a (s.setReader i reader)) :
      Effect codec s a { s.setReader i reader with raft := raft } :=
    .raft hraft guards other (fun i op h => absurd h (started i op))
      ⟨keeps.services, keeps.answers, keeps.passes⟩
  cases a with
  | raft b =>
      obtain ⟨autonomous, raft, hraft, rfl⟩ := enabled_map.mp h
      refine .raft hraft id ?_ ?_ ⟨fun _ => ⟨rfl, rfl, rfl, rfl⟩, rfl, fun _ => .of_eq rfl rfl⟩
      · rintro i index data rfl
        cases autonomous
      · rintro i op rfl
        cases autonomous
  | applyHandler i takesSnapshot =>
      obtain ⟨-, h⟩ := Option.ite_none_right_eq_some.mp h
      obtain ⟨msg, hmsg, h⟩ := Option.bind_eq_some_iff.mp h
      obtain ⟨raft, hraft, h⟩ := Option.bind_eq_some_iff.mp h
      obtain ⟨result, hresult, rfl⟩ := Option.map_eq_some_iff.mp h
      refine .applyHandler hmsg hraft hresult (fun taken htaken => ?_) rfl rfl
      obtain ⟨⟨-, hanswered⟩, rfl⟩ := enabled_some.mp htaken
      exact ⟨hanswered, rfl⟩
  | snapshot i =>
      obtain ⟨taken, htaken, h⟩ := Option.bind_eq_some_iff.mp h
      obtain ⟨raft, hraft, rfl⟩ := Option.map_eq_some_iff.mp h
      exact .snapshot htaken hraft rfl rfl
  | handleOpQue i op =>
      rcases handleOpQue_eq h with rfl | rfl
      · exact .server rfl ⟨fun _ => ⟨rfl, rfl, rfl, rfl⟩, rfl, fun _ => .of_eq rfl rfl⟩
      · refine .server rfl (.setService i _ ⟨rfl, rfl, rfl, rfl⟩
          (.of_handler (fun other hother => .inr ?_) rfl))
        cases hother
        rfl
  | dispatch i => exact dispatch_effect h
  | recordTerm i =>
      obtain ⟨op, term, rfl⟩ := recordTerm_eq h
      exact .server rfl (.setService i _ ⟨rfl, rfl, rfl, rfl⟩
        (.of_handler (fun _ hop => by cases hop) rfl))
  | takeRead i =>
      obtain ⟨read, rest, hidle, hqueue, rfl⟩ := takeRead_eq h
      refine .server rfl (.setService i _ ⟨rfl, rfl, rfl, rfl⟩
        ⟨fun _ hop => .inl hop, fun next hnext => .inl ⟨next, ?_, .refl next⟩⟩)
      refine List.mem_append_left _ ?_
      rw [hqueue]
      rcases List.mem_append.mp hnext with hnext | hnext
      · exact List.mem_cons_of_mem _ hnext
      · cases Option.mem_toList.mp hnext
        exact List.mem_cons_self
  | lookUp i =>
      obtain ⟨read, hreader, rfl⟩ := lookUp_eq h
      refine .server rfl (.setReader i (goesOn (by rw [hreader]; rfl) (.inl ?_)))
      split <;> rfl
  | getState i =>
      obtain ⟨read, hreader, rfl⟩ := getState_eq h
      refine .server rfl (.setReader i (goesOn (by rw [hreader]; rfl) (.inl ?_)))
      split <;> rfl
  | singleHeartBeat i =>
      obtain ⟨read, idx, term, hreader, rfl | ⟨raft, -, hraft, rfl⟩⟩ := singleHeartBeat_eq h
      · exact .server rfl (.setReader i (goesOn (by rw [hreader]; rfl) (.inr rfl)))
      · exact called hraft (fun _ => trivial) (by simp) (by simp)
          (.setReader i (goesOn (by rw [hreader]; rfl) (.inl rfl)))
  | confirmLeader i oks =>
      obtain ⟨read, idx, term, beats, seen, hreader, -, -, rfl⟩ := confirmLeader_eq h
      refine .server rfl (.setReader i (goesOn (by rw [hreader]; rfl) ?_))
      split
      · exact .inl rfl
      · exact .inr rfl
  | sendCommitIndex i =>
      obtain ⟨read, raft, answer, hreader, hraft, -, rfl⟩ := sendCommitIndex_eq h
      exact called hraft (fun _ => trivial) (by simp) (by simp)
        (.setReader i (goesOn (by rw [hreader]; rfl) (.inl rfl)))
  | commitIndexError i =>
      obtain ⟨read, reader, count, hreader, hnext, rfl⟩ := commitIndexError_eq h
      refine .server rfl (.setService i _ ⟨rfl, rfl, rfl, rfl⟩
        (.of_reader rfl rfl (goesOn (by rw [hreader]; rfl) ?_)))
      rcases hnext with rfl | rfl
      · exact .inl rfl
      · exact .inr rfl
  | commitIndexReply i =>
      obtain ⟨read, r, raft, hreader, hraft, rfl⟩ := commitIndexReply_eq h
      refine called hraft (fun guards => ?_) (by simp) (by simp)
        (.setReader i (goesOn (by rw [hreader]; rfl) ?_))
      · unfold Guards at guards
        dsimp only at guards
        rwa [hreader] at guards
      · cases ((s.raft.nodes i).rf.sendCommitIndex r).2 with
        | none => exact .inr rfl
        | some idx => exact .inl rfl
  | recordIndex i =>
      obtain ⟨read, idx, hreader, rfl⟩ := recordIndex_eq h
      refine .server rfl (.setService i _ ⟨rfl, rfl, rfl, rfl⟩
        (.of_reader rfl rfl fun next hnext => ?_))
      cases hnext
      exact ⟨read, by rw [hreader]; rfl, rfl, rfl⟩
  | serveRead i => exact serveRead_effect h

end System

end RaftKv.Server
