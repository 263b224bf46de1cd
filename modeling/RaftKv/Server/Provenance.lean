import RaftKv.Raft.Entries
import RaftKv.Server.Replicas

/-!
# Nothing is invented

The protocol can go wrong in many ways: nodes may disagree, a retry may be executed twice,
a snapshot may be overtaken. But in none of them does data come from nowhere. Whatever
is in a log, a message or a snapshot was once taken from the queue of a server. Every
value in a database is made of values that were written to its key, and every
response is about an operation that was submitted, or is blank.

This needs no assumption about the run. It needs that a snapshot decodes to what was
encoded, because a server takes its data from the snapshots of the others.
-/

namespace RaftKv.Server

open RaftKv.Raft (Bytes Op ApplyMsg Cluster Mentions)
open Library

variable {P : Op → Prop}

/-- The value was put at the key and then appended to, by operations that satisfy `P`. -/
inductive Built (P : Op → Prop) (key : Bytes) : Bytes → Prop
  | put {op : Op} (submitted : P op) (put : op.optype = opPut) (here : op.key = key) :
      Built P key op.value
  | first {op : Op} (submitted : P op) (append : op.optype = opAppend) (here : op.key = key) :
      Built P key op.value
  | append {value : Bytes} (built : Built P key value) {op : Op} (submitted : P op)
      (append : op.optype = opAppend) (here : op.key = key) : Built P key (value ++ op.value)

/-- Every stored value is built from submitted ones. -/
def Stored (P : Op → Prop) (db : DB) : Prop :=
  ∀ key value, db.lookup key = some value → Built P key value

/-- The response is about an operation that satisfies `P`. It carries the key, and with it
for a `GET` a value that was stored or none, and else the value of the operation. -/
def Given (P : Op → Prop) (resp : ServerResponse) : Prop :=
  ∃ op, P op ∧ resp.opId = op.optype ∧ resp.clerkId = op.clerkId ∧ resp.incrId = op.incrId ∧
    ∃ value, resp.data = packBody op.key value ∧
      if op.optype = opGet then value = [] ∨ Built P op.key value else value = op.value

/-- The zero value of `var resp`, up to its error. -/
def Blank (resp : ServerResponse) : Prop := resp = { err := resp.err }

theorem Stored.execute {db : DB} (stored : Stored P db) {op : Op} (submitted : P op) :
    Stored P (execute db op) := by
  intro key value hvalue
  unfold Server.execute at hvalue
  split at hvalue
  · rename_i put
    by_cases hkey : key = op.key
    · subst hkey
      rw [Finmap.lookup_insert] at hvalue
      cases hvalue
      exact .put submitted put rfl
    · rw [Finmap.lookup_insert_of_ne _ hkey] at hvalue
      exact stored key value hvalue
  split at hvalue
  · rename_i append
    by_cases hkey : key = op.key
    · subst hkey
      rw [Finmap.lookup_insert] at hvalue
      cases hvalue
      cases hold : db.lookup op.key with
      | none => exact .first submitted append rfl
      | some old => exact .append (stored _ _ hold) submitted append rfl
    · rw [Finmap.lookup_insert_of_ne _ hkey] at hvalue
      exact stored key value hvalue
  · exact stored key value hvalue

theorem Given.err {resp : ServerResponse} (given : Given P resp) (err : UInt32) :
    Given P { resp with err := err } := given

theorem Stored.answer {db : DB} (stored : Stored P db) {op : Op} (submitted : P op) :
    Given P (KVServer.answer db op) := by
  unfold KVServer.answer
  split
  · rename_i get
    split
    · rename_i val hval
      refine ⟨op, submitted, rfl, rfl, rfl, val, rfl, ?_⟩
      rw [if_pos get]
      exact .inr (stored _ _ hval)
    · refine ⟨op, submitted, rfl, rfl, rfl, [], rfl, ?_⟩
      rw [if_pos get]
      exact .inl rfl
  · rename_i other
    exact ⟨op, submitted, rfl, rfl, rfl, op.value, rfl, by rw [if_neg other]⟩

/-! ## The server -/

/-- The database and the recorded results. -/
structure Honest (P : Op → Prop) (db : DB) (history : History) : Prop where
  stored : Stored P db
  given : ∀ c resp, history.lookup c = some resp → Given P resp

/-- The snapshot is empty, or was encoded from honest data. -/
def Faithful (codec : Labgob) (P : Op → Prop) (data : Bytes) : Prop :=
  data = [] ∨ ∃ db history, data = codec.encode db history ∧ Honest P db history

namespace Honest

variable {codec : Labgob} {kv : KVServer}

theorem applyCommand (honest : Honest P kv.db kv.history) {op : Op} (submitted : P op)
    (index term : Int) :
    Honest P (kv.applyCommand index op term).1.db (kv.applyCommand index op term).1.history where
  stored := by
    rw [KVServer.applyCommand_db]
    split
    · exact honest.stored.execute submitted
    · exact honest.stored
  given c resp hresp := by
    rw [KVServer.applyCommand_history] at hresp
    split at hresp
    · by_cases hc : c = op.clerkId
      · subst hc
        rw [Finmap.lookup_insert] at hresp
        cases hresp
        exact honest.stored.answer submitted
      · rw [Finmap.lookup_insert_of_ne _ hc] at hresp
        exact honest.given c resp hresp
    · exact honest.given c resp hresp

theorem finishCommand_resp {resp : ServerResponse} (h : Blank resp ∨ Given P resp) (term : Int) :
    Blank (kv.finishCommand resp term).2 ∨ Given P (kv.finishCommand resp term).2 := by
  unfold KVServer.finishCommand
  split
  · exact h
  · dsimp only
    split
    · refine h.imp (fun blank => ?_) (·.err _)
      rw [blank]
      rfl
    · exact h

/-- A command that is not executed is answered from `history`, or with a blank response. -/
theorem recorded (honest : Honest P kv.db kv.history) (op : Op) :
    Blank (kv.recorded op) ∨ Given P (kv.recorded op) := by
  unfold KVServer.recorded
  split
  · rename_i old hold
    split
    · exact .inr (honest.given _ _ hold)
    · exact .inl rfl
  · exact .inl rfl

theorem applyCommand_resp (honest : Honest P kv.db kv.history) {op : Op} (submitted : P op)
    (index term : Int) :
    Blank (kv.applyCommand index op term).2 ∨ Given P (kv.applyCommand index op term).2 := by
  cases needs : kv.needs op with
  | true =>
      have given := honest.stored.answer submitted
      have outcome : (kv.applyCommand index op term).2 = _ ∨ _ := KVServer.applyCommand_resp needs
      rcases outcome with hresp | hresp
      · exact .inr (hresp ▸ given)
      · exact .inr (hresp ▸ given.err _)
  | false =>
      have hneeds : KVServer.needs { kv with lastApplied := index } op = false := needs
      unfold KVServer.applyCommand
      dsimp only
      rw [hneeds]
      exact finishCommand_resp (honest.recorded op) term

/-- `ApplyHandler` on any message with a submitted command or a faithful snapshot. -/
theorem applyHandler (lawful : codec.Lawful) (honest : Honest P kv.db kv.history)
    {msg : ApplyMsg} (submitted : ∀ op, msg.command = some op → P op)
    (faithful : Faithful codec P msg.snapshot) {result : KVServer × Option ServerResponse}
    (h : kv.applyHandler codec msg = some result) :
    Honest P result.1.db result.1.history ∧
      ∀ resp, result.2 = some resp → Blank resp ∨ Given P resp := by
  cases KVServer.applies_of_applyHandler h with
  | passed => exact ⟨honest, nofun⟩
  | @command op _ _ hop =>
      refine ⟨honest.applyCommand (submitted op hop) _ _, fun resp hresp => ?_⟩
      cases hresp
      exact honest.applyCommand_resp (submitted op hop) _ _
  | snapshot =>
      refine ⟨?_, nofun⟩
      change Honest P (kv.loadSnapshot codec msg.snapshot).db
        (kv.loadSnapshot codec msg.snapshot).history
      unfold KVServer.loadSnapshot
      rcases faithful with hnil | ⟨db, history, hdata, honest'⟩
      · rw [if_pos hnil]
        exact honest
      · rw [hdata, if_neg (lawful.encode_ne_nil _ _), lawful.decode_encode]
        exact honest'

end Honest

/-! ## The system -/

namespace System

variable {n : Nat} {codec : Labgob} {s t : System n} {a : Action n}

/-- Everything in the system comes from operations that satisfy `P`. -/
structure Sourced (codec : Labgob) (P : Op → Prop) (s : System n) : Prop where
  mentions : ∀ op, Mentions s.raft op → P op
  handler : ∀ i op, (s.services i).opHandler.op = some op → P op
  reads : ∀ i, ∀ read ∈ (s.services i).reads, P read.op
  honest : ∀ i, Honest P (s.services i).kv.db (s.services i).kv.history
  answers : ∀ a ∈ s.answers, Blank a.2 ∨ Given P a.2
  snapShot : ∀ i, Faithful codec P (s.raft.nodes i).rf.snapShot
  requests : ∀ r ∈ s.raft.installReqs, Faithful codec P r.args.data
  traffic : ∀ i, ∀ msg ∈ (s.raft.nodes i).traffic, Faithful codec P msg.snapshot
  handing : ∀ i, ∀ taken ∈ (s.services i).handing, Faithful codec P taken.2

theorem sourced_init (codec : Labgob) (P : Op → Prop) : Sourced codec P (init n) where
  mentions op mentions := by
    cases mentions with
    | log held here =>
        simp only [init, Cluster.init, Cluster.initServer, List.mem_singleton,
          Option.some.injEq] at held
        subst held
        cases here
    | append sent => simp [init, Cluster.init, Cluster.Sends] at sent
    | install sent => simp [init, Cluster.init] at sent
    | message sent =>
        simp [init, Cluster.init, Raft.Node.traffic, Raft.Node.messages,
          Raft.Checker.messages] at sent
  handler i op hop := by cases hop
  reads i read hread := by cases hread
  honest i := ⟨fun _ _ h => by simp [init] at h, fun _ _ h => by simp [init] at h⟩
  answers a ha := by cases ha
  snapShot i := .inl rfl
  requests r hr := by simp [init, Cluster.init] at hr
  traffic i msg hmsg := by
    simp [init, Cluster.init, Raft.Node.traffic, Raft.Node.messages,
      Raft.Checker.messages] at hmsg
  handing i taken htaken := by cases htaken

/-- The part of the invariant that is about the cluster, after a section of Raft. -/
structure RaftSourced (codec : Labgob) (P : Op → Prop) (c : Cluster n) : Prop where
  mentions : ∀ op, Mentions c op → P op
  snapShot : ∀ i, Faithful codec P (c.nodes i).rf.snapShot
  requests : ∀ r ∈ c.installReqs, Faithful codec P r.args.data
  traffic : ∀ i, ∀ msg ∈ (c.nodes i).traffic, Faithful codec P msg.snapshot

theorem Sourced.raft (sourced : Sourced codec P s) {b : Raft.Action n} {raft : Cluster n}
    (moved : s.raft.step b = some raft) (started : ∀ i op, b = .start i op → P op)
    (new : ∀ i index data, b = .snapshot i index data → Faithful codec P data) :
    RaftSourced codec P raft := by
  have traces := Cluster.step_traces moved
  refine ⟨fun op mentions => ?_, fun i => ?_, fun r hr => ?_, fun i msg hmsg => ?_⟩
  · rcases traces.mentions mentions with old | ⟨i, h⟩
    · exact sourced.mentions op old
    · exact started i op h
  · rcases (traces.nodes i).snapshot with ⟨-, same⟩ | handed
    · exact same ▸ sourced.snapShot i
    · generalize (raft.nodes i).rf.lastIncludedIndex = index, (raft.nodes i).rf.snapShot = data
        at handed
      cases handed with
      | snapshot => exact new i index data rfl
      | install sent _ => exact sourced.requests _ sent
  · rcases traces.install r hr with old | ⟨i, e, -, -, -, hdata⟩
    · exact sourced.requests r old
    · exact hdata ▸ sourced.snapShot i
  · rcases traces.messages i msg hmsg with old | delivered
    · exact sourced.traffic i msg old
    · cases delivered with
      | command _ _ _ hdata => exact .inl hdata
      | snapshot sent _ _ hdata => exact hdata ▸ sourced.requests _ sent

theorem Sourced.step (lawful : codec.Lawful) (sourced : Sourced codec P s)
    (submits : Submits P a) (effect : Effect codec s a t) : Sourced codec P t := by
  have handler : ∀ i op, (t.services i).opHandler.op = some op → P op := by
    intro i op hop
    rcases (effect.passes i).handler op hop with old | rfl
    · exact sourced.handler i op old
    · exact submits
  have reads : ∀ i, ∀ read ∈ (t.services i).reads, P read.op := by
    intro i next hnext
    rcases (effect.passes i).reads next hnext with ⟨read, hread, hop, -⟩ | ⟨here, -⟩
    · exact hop ▸ sourced.reads i read hread
    · exact sourced.handler i _ here
  have kept (keeps : Keeps s a t) (raft : RaftSourced codec P t.raft) : Sourced codec P t :=
    { raft with
      handler := handler
      reads := reads
      honest := fun i => by
        rw [(keeps.services i).db, (keeps.services i).history]
        exact sourced.honest i
      answers := keeps.answers ▸ sourced.answers
      handing := fun i taken htaken =>
        sourced.handing i taken ((keeps.services i).handing ▸ htaken) }
  cases effect with
  | server raft keeps =>
      exact kept keeps ⟨raft ▸ sourced.mentions, raft ▸ sourced.snapShot, raft ▸ sourced.requests,
        raft ▸ sourced.traffic⟩
  | raft moved guards other started keeps =>
      exact kept keeps (sourced.raft moved (fun i op h => sourced.handler i op (started i op h))
        fun i index data h => absurd h (other i index data))
  | @applyHandler i takesSnapshot _ msg result handing first moved applied handed services answers =>
      have here : msg ∈ (s.raft.nodes i).traffic :=
        List.mem_append_right _ (List.mem_of_head? first)
      obtain ⟨honest, responses⟩ := (sourced.honest i).applyHandler lawful
        (fun op hop => sourced.mentions op (.message here hop)) (sourced.traffic i msg here) applied
      refine { sourced.raft moved (by simp) (by simp) with
        handler := handler
        reads := reads
        honest := fun j => ?_
        answers := fun a ha => ?_
        handing := fun j => ?_ }
      · rw [services]
        exact setService_cases j honest fun _ => sourced.honest j
      · rw [answers] at ha
        rcases List.mem_append.mp ha with ha | ha
        · obtain ⟨resp, hresp, rfl⟩ := Option.map_eq_some_iff.mp (Option.mem_toList.mp ha)
          exact responses resp hresp
        · exact sourced.answers a ha
      · rw [services]
        refine setService_cases j (fun taken htaken => ?_) fun _ => sourced.handing j
        obtain ⟨-, rfl⟩ := handed taken htaken
        exact .inr ⟨_, _, rfl, honest⟩
  | @snapshot i taken _ handing moved services answers =>
      refine { sourced.raft moved (by simp) (fun j index data h => ?_) with
        handler := handler
        reads := reads
        honest := fun j => ?_
        answers := answers ▸ sourced.answers
        handing := fun j => ?_ }
      · cases h
        exact sourced.handing i taken handing
      · rw [services]
        exact setService_cases j (sourced.honest i) fun _ => sourced.honest j
      · rw [services]
        refine setService_cases j (fun other hother => ?_) fun _ => sourced.handing j
        cases hother

/-- **Nothing is invented.** In every run, whatever goes wrong in it, the commands in logs,
messages and channels were submitted to some server; the values in a database are built from
values submitted for their key; and a response is blank or about a submitted operation. -/
theorem nothing_invented (codec : Labgob) (lawful : codec.Lawful) (P : Op → Prop)
    (reached : Reaches (step codec) (fun _ a => Submits P a) (init n) s) :
    (∀ op, Mentions s.raft op → P op) ∧
      (∀ i key value, (s.services i).kv.db.lookup key = some value → Built P key value) ∧
      (∀ a ∈ s.answers, Blank a.2 ∨ Given P a.2) ∧
      ∀ i, ∀ read ∈ (s.services i).reads,
        Given P (KVServer.answer (s.services i).kv.db read.op) := by
  have sourced : Sourced codec P s :=
    reached.invariant (sourced_init codec P) fun _ _ _ _ sourced submits taken =>
      sourced.step lawful submits (step_effect taken)
  exact ⟨sourced.mentions, fun i => (sourced.honest i).stored, sourced.answers,
    fun i read hread => (sourced.honest i).stored.answer (sourced.reads i read hread)⟩

/-- The database of the leader after the first write. -/
theorem nothing_invented_first_write :
    ∃ s : System 3, Reaches (step someCodec) (fun _ a => Submits (· = firstWrite) a) (init 3) s ∧
      s.answers ≠ [] ∧ ∃ value, (s.services 0).kv.db.lookup [107] = some value ∧
        Built (· = firstWrite) [107] value := by
  have ended : ∃ s : System 3,
      Reaches (step someCodec) (fun _ a => Submits (· = firstWrite) a) (init 3) s ∧
      s.answers ≠ [] ∧ ((s.services 0).kv.db.lookup [107]).isSome = true :=
    exists_reaches (fun s : System 3 => s.answers ≠ [] ∧
      ((s.services 0).kv.db.lookup [107]).isSome = true)
      (leadFirst ++ applyFirst) (by decide +kernel) (by decide +kernel)
  obtain ⟨s, reached, hanswers, hsome⟩ := ended
  obtain ⟨value, hvalue⟩ := Option.isSome_iff_exists.mp hsome
  exact ⟨s, reached, hanswers, value, hvalue,
    (nothing_invented someCodec exists_lawful.choose_spec _ reached).2.1 0 _ value hvalue⟩

end System

end RaftKv.Server
