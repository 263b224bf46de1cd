import RaftKv.Raft.Commit
import RaftKv.Raft.Indices

/-!
# Where entries and snapshots come from

Entries move between logs, messages and the channel to the service. A section either
leaves them where they are, passes them on, or, in `Start`, makes a new one. The same holds
for snapshots, which come into being in `Snapshot`. Both are read off one list of
everything a step of the cluster can do, and neither needs a guard: no interleaving, and
none of the known defects, lets a node hold a command that was not started.

In a guarded run there is one thing more to say. The only entry without a command is the
placeholder of index zero, so behind the first position of a log every entry has one.
-/

namespace RaftKv.Raft

open Library

variable {n : Nat} {h : History n} {s t : Cluster n}

theorem mem_tail_append {α : Type*} {l l' : List α} {p : α} (hp : p ∈ (l ++ l').tail) :
    p ∈ l.tail ∨ p ∈ l' := by
  cases l with
  | nil => exact .inr (List.mem_of_mem_tail hp)
  | cons first rest => exact List.mem_append.mp hp

theorem mem_tail_of_mem_drop {α : Type*} {l : List α} {m : Nat} (hm : 1 ≤ m) {p : α}
    (hp : p ∈ l.drop m) : p ∈ l.tail := by
  rw [← List.drop_one]
  exact List.drop_subset_drop_left l hm hp

namespace Raftserver

variable {rf rf' : Raftserver} {E : Entry → Prop} {D : Int → Bytes → Prop}

/-- What a section puts into the log, at the first position or behind it, is one of the
entries `E`, and a new snapshot is one of `D`. -/
structure Draws (rf rf' : Raftserver) (E : Entry → Prop) (D : Int → Bytes → Prop) : Prop where
  log : ∀ e, some e ∈ rf'.log → some e ∈ rf.log ∨ E e
  tail : ∀ e, some e ∈ rf'.log.tail → some e ∈ rf.log.tail ∨ E e
  snapshot : (rf'.lastIncludedIndex = rf.lastIncludedIndex ∧ rf'.snapShot = rf.snapShot) ∨
    D rf'.lastIncludedIndex rf'.snapShot

namespace Draws

/-- The log and the snapshot are as before. -/
theorem of_eq (log : rf'.log = rf.log) (included : rf'.lastIncludedIndex = rf.lastIncludedIndex)
    (snapShot : rf'.snapShot = rf.snapShot) : Draws rf rf' E D where
  log _ he := .inl (log ▸ he)
  tail _ he := .inl (log ▸ he)
  snapshot := .inl ⟨included, snapShot⟩

theorem refl (rf : Raftserver) : Draws rf rf E D := .of_eq rfl rfl rfl

/-- Only the log changes, and it gets entries at its end. -/
theorem of_append {m : Nat} {entries : List Entry}
    (log : rf'.log = rf.log.take m ++ entries.map some) (new : ∀ e ∈ entries, E e)
    (included : rf'.lastIncludedIndex = rf.lastIncludedIndex)
    (snapShot : rf'.snapShot = rf.snapShot) : Draws rf rf' E D where
  log e he := by
    rw [log, List.mem_append] at he
    rcases he with old | added
    · exact .inl (List.mem_of_mem_take old)
    · obtain ⟨e', he', heq⟩ := List.mem_map.mp added
      cases heq
      exact .inr (new e he')
  tail e he := by
    rw [log] at he
    rcases mem_tail_append he with old | added
    · rw [← List.drop_one, List.drop_take] at old
      rw [← List.drop_one]
      exact .inl (List.mem_of_mem_take old)
    · obtain ⟨e', he', heq⟩ := List.mem_map.mp added
      cases heq
      exact .inr (new e he')
  snapshot := .inl ⟨included, snapShot⟩

/-- The beginning of the log goes into a snapshot. -/
theorem of_drop {m : Nat} (log : rf'.log = rf.log.drop m)
    (snapshot : D rf'.lastIncludedIndex rf'.snapShot) : Draws rf rf' E D where
  log e he := .inl (List.mem_of_mem_drop (log ▸ he))
  tail e he := by
    rw [log, List.tail_drop] at he
    exact .inl (mem_tail_of_mem_drop (Nat.le_add_left 1 m) he)
  snapshot := .inr snapshot

theorem trans {middle : Raftserver} (first : Draws rf middle E D) (second : Draws middle rf' E D) :
    Draws rf rf' E D where
  log e he := (second.log e he).elim (first.log e) .inr
  tail e he := (second.tail e he).elim (first.tail e) .inr
  snapshot := by
    rcases second.snapshot with ⟨included, snapShot⟩ | new
    · rw [included, snapShot]
      exact first.snapshot
    · exact .inr new

end Draws

/-! ## The sections -/

theorem persist_draws (saved : rf.persist = some rf') : Draws rf rf' E D := by
  obtain ⟨calls, rfl⟩ := persist_eq saved
  exact .of_eq rfl rfl rfl

theorem Observes.draws {term : Int} (observes : Observes rf term rf') : Draws rf rf' E D := by
  cases observes with
  | kept => exact .refl rf
  | later newer calls => exact .of_eq rfl rfl rfl

theorem requestVote_draws {args : RequestVoteArgs} {result : Raftserver × RequestVoteReply}
    (hresult : rf.requestVote args = some result) : Draws rf result.1 E D := by
  obtain ⟨observed, observes, rfl | ⟨-, -, last, calls, -, -, rfl⟩⟩ := requestVote_outcome hresult
  · exact observes.draws
  · exact observes.draws.trans (.of_eq rfl rfl rfl)

theorem startElection_draws {result : Raftserver × RequestVoteArgs}
    (hresult : rf.startElection = some result) : Draws rf result.1 E D := by
  obtain ⟨last, calls, -, rfl⟩ := startElection_outcome hresult
  exact .of_eq rfl rfl rfl

theorem collectVote_draws (rf : Raftserver) (outTime : Bool) :
    Draws rf (rf.collectVote outTime) E D := by
  obtain ⟨count, role, leaderIdx, nextIndex, matchIndex, heq⟩ := collectVote_outcome rf outTime
  rw [heq]
  exact .of_eq rfl rfl rfl

/-- The loop over the received entries keeps a part of the log and adds some of them. -/
theorem mergeEntries_parts {log log' : List (Option Entry)} {m : Nat} {entries : List Entry}
    (merged : mergeEntries log m entries = some log') :
    ∃ (k : Nat) (added : List Entry),
      log' = log.take k ++ added.map some ∧ ∀ e ∈ added, e ∈ entries := by
  induction entries generalizing m with
  | nil =>
      cases merged
      exact ⟨log.length, [], by simp, by simp⟩
  | cons e es ih =>
      rw [mergeEntries] at merged
      split at merged
      · obtain ⟨old, -, merged⟩ := Option.bind_eq_some_iff.mp merged
        split at merged
        · cases merged
          exact ⟨m, e :: es, rfl, fun _ => id⟩
        · obtain ⟨k, added, rfl, hadded⟩ := ih merged
          exact ⟨k, added, rfl, fun a ha => List.mem_cons_of_mem e (hadded a ha)⟩
      split at merged
      · cases merged
        exact ⟨log.length, e :: es, by simp, fun _ => id⟩
      · obtain ⟨k, added, rfl, hadded⟩ := ih merged
        exact ⟨k, added, rfl, fun a ha => List.mem_cons_of_mem e (hadded a ha)⟩

theorem appendEntries_draws {args : AppendEntriesArgs} {result : Raftserver × AppendEntriesReply}
    (new : ∀ e ∈ args.entries, E e) (hresult : rf.appendEntries args = some result) :
    Draws rf result.1 E D := by
  obtain ⟨-, rfl⟩ | ⟨-, observed, hobserved, ⟨reply, -, rfl⟩ | ⟨-, haccept⟩⟩ :=
    appendEntries_outcome hresult
  · exact .refl rf
  · exact (observeLeader_observes hobserved).draws
  refine (observeLeader_observes hobserved).draws.trans ?_
  obtain ⟨log, calls, hmerged, rfl⟩ := acceptEntries_outcome haccept
  rw [mergedLog] at hmerged
  split at hmerged
  · obtain ⟨k, added, rfl, hadded⟩ := mergeEntries_parts hmerged
    exact .of_append rfl (fun e he => new e (hadded e he)) rfl rfl
  · cases hmerged
    exact .of_eq rfl rfl rfl

theorem sendAppendEntriesToServer_draws {server : Nat} {args : AppendEntriesArgs}
    {reply : AppendEntriesReply} {result : Raftserver × Bool}
    (hresult : rf.sendAppendEntriesToServer server args reply = some result) :
    Draws rf result.1 E D := by
  obtain ⟨-, -, c, -, hrf⟩ | ⟨-, -, -, -, next, -, hrf⟩ | observes :=
    sendAppendEntriesToServer_outcome hresult
  · rw [hrf]
    exact .of_eq rfl rfl rfl
  · rw [hrf]
    exact .of_eq rfl rfl rfl
  · exact observes.draws

theorem sendInstallSnapshotToServer_draws {server : Nat} {reply : InstallSnapshotReply}
    (hresult : rf.sendInstallSnapshotToServer server reply = some rf') : Draws rf rf' E D := by
  obtain ⟨-, observes⟩ | rfl := sendInstallSnapshotToServer_outcome hresult
  · exact observes.draws
  · exact .of_eq rfl rfl rfl

theorem sendCommitIndex_draws (rf : Raftserver) (r : GetCommitIndexReply) :
    Draws rf (rf.sendCommitIndex r).1 E D := by
  obtain heq | ⟨-, heq⟩ := sendCommitIndex_outcome rf r <;> rw [heq] <;> exact .of_eq rfl rfl rfl

theorem start_draws {command : Op} {result : Raftserver × Option (Int × Int)}
    (new : ∀ term, E { term := term, command := some command })
    (hresult : rf.start command = some result) : Draws rf result.1 E D := by
  obtain ⟨-, rfl⟩ | ⟨-, calls, hrf, -⟩ := start_outcome hresult
  · exact .refl rf
  · rw [hrf]
    have added : ∀ e ∈ [Entry.mk rf.currentTerm (some command)], E e := by
      intro e he
      cases List.mem_singleton.mp he
      exact new _
    refine .of_append (m := rf.log.length) ?_ added rfl rfl
    rw [List.take_length]
    rfl

theorem snapshot_draws {index : Int} {data : Bytes} (new : D index data)
    (hresult : rf.snapshot index data = some rf') : Draws rf rf' E D := by
  obtain ⟨-, rfl⟩ | ⟨-, -, e, calls, -, rfl⟩ := snapshot_outcome hresult
  · exact .refl rf'
  · exact .of_drop rfl new

/-- The log is cut, or it is cleared by a node that does not have the last included entry. -/
theorem retainedLog_parts {args : InstallSnapshotArgs} {log : List (Option Entry)}
    (retained : rf.retainedLog args = some log) :
    (∃ m, log = rf.log.drop m) ∨
      (log = [none, some { term := args.lastIncludedTerm, command := args.lastIncludedCommand }] ∧
        (rf.entryAt args.lastIncludedIndex).map Entry.term ≠ some args.lastIncludedTerm) := by
  rw [retainedLog] at retained
  split at retained
  · obtain ⟨e, he, rfl⟩ := Option.map_eq_some_iff.mp retained
    split
    · exact .inl ⟨_, rfl⟩
    · rename_i hterm
      refine .inr ⟨rfl, fun held => hterm ?_⟩
      rw [entryAt, he] at held
      exact Option.some.inj held
  · rename_i hlen
    cases retained
    refine .inr ⟨rfl, fun held => hlen ?_⟩
    obtain ⟨e, he, -⟩ := Option.map_eq_some_iff.mp held
    rw [entryAt, deref] at he
    obtain ⟨hnonneg, he⟩ := Option.ite_none_right_eq_some.mp he
    have := (List.getElem?_eq_some_iff.mp (Option.join_eq_some_iff.mp he)).1
    omega

theorem installSnapshot_draws {args : InstallSnapshotArgs}
    {result : Raftserver × InstallSnapshotReply × Option ApplyMsg}
    (cleared : ¬ HoldsSnapshot rf args →
      E { term := args.lastIncludedTerm, command := args.lastIncludedCommand })
    (new : D args.lastIncludedIndex args.data)
    (hresult : rf.installSnapshot args = some result) :
    Draws rf result.1 E D ∧ ∀ msg ∈ result.2.2, msg.command = none ∧
      msg.snapshotIndex = args.lastIncludedIndex ∧ msg.snapshot = args.data := by
  obtain ⟨-, rfl⟩ | ⟨current, taken⟩ := installSnapshot_outcome hresult
  · exact ⟨.refl rf, by simp⟩
  obtain ⟨term, voted, -, observed⟩ := rf.observeSnapshot_outcome args.term
  rw [observed] at taken
  obtain ⟨-, rfl⟩ | ⟨hincluded, hcommit, log, retained, rfl⟩ := takeSnapshot_outcome taken
  · exact ⟨.of_eq rfl rfl rfl, by simp⟩
  refine ⟨?_, fun msg hmsg => by cases hmsg; exact ⟨rfl, rfl, rfl⟩⟩
  rcases retainedLog_parts retained with ⟨m, rfl⟩ | ⟨rfl, other⟩
  · exact .of_drop rfl new
  · have hnew := cleared fun holds => other (holds current hincluded hcommit)
    have put : ∀ e, some e ∈ [none, some (Entry.mk args.lastIncludedTerm
        args.lastIncludedCommand)] → E e := by
      intro e he
      have heq : e = Entry.mk args.lastIncludedTerm args.lastIncludedCommand := by simpa using he
      exact heq ▸ hnew
    exact ⟨fun e he => .inr (put e he), fun e he => .inr (put e (List.mem_of_mem_tail he)),
      .inr new⟩

/-- A message carries what is behind the first position of the log. A nil pointer is sent
as an empty entry. -/
theorem startSendAppendEntries_entries {i : Nat} {args : AppendEntriesArgs}
    (sent : rf.startSendAppendEntries i = some (some args)) {e : Entry} (he : e ∈ args.entries) :
    some e ∈ rf.log.tail ∨ (e = {} ∧ none ∈ rf.log.tail) := by
  rw [startSendAppendEntries] at sent
  split at sent
  · cases sent
  rename_i hnext
  obtain ⟨prev, -, sent⟩ := Option.map_eq_some_iff.mp sent
  cases sent
  dsimp only at he
  split at he
  · obtain ⟨p, hp, rfl⟩ := List.mem_map.mp he
    have hbehind : p ∈ rf.log.tail :=
      mem_tail_of_mem_drop (by rw [globalToLocal]; omega) hp
    cases p with
    | some e => exact .inl hbehind
    | none => exact .inr ⟨rfl, hbehind⟩
  · cases he

/-- `CommitCheck` leaves the fields for a snapshot at their zero values. -/
theorem commitBuffer_plain {fuel : Nat} {applied : Int} {buffer : List ApplyMsg}
    (collected : rf.commitBuffer fuel applied = some buffer) {msg : ApplyMsg} (hmsg : msg ∈ buffer) :
    msg.snapshotIndex = 0 ∧ msg.snapshot = [] := by
  induction fuel generalizing applied buffer with
  | zero =>
      cases collected
      cases hmsg
  | succ fuel ih =>
      rw [commitBuffer] at collected
      split at collected
      · obtain ⟨e, -, collected⟩ := Option.bind_eq_some_iff.mp collected
        obtain ⟨rest, hrest, rfl⟩ := Option.map_eq_some_iff.mp collected
        rcases List.mem_cons.mp hmsg with rfl | hmsg
        · exact ⟨rfl, rfl⟩
        · exact ih hrest hmsg
      · cases collected
        cases hmsg

/-- A command in the buffer of `CommitCheck` is in the log. -/
theorem commitBuffer_log {fuel : Nat} {applied : Int} {buffer : List ApplyMsg}
    (collected : rf.commitBuffer fuel applied = some buffer) {msg : ApplyMsg} (hmsg : msg ∈ buffer) :
    ∃ e, some e ∈ rf.log ∧ msg.command = e.command := by
  obtain ⟨-, -, -, e, he, hcommand⟩ := commitBuffer_mem collected hmsg
  rw [entryAt, deref] at he
  obtain ⟨-, he⟩ := Option.ite_none_right_eq_some.mp he
  exact ⟨e, List.mem_of_getElem? (Option.join_eq_some_iff.mp he), hcommand.symm⟩

end Raftserver

/-! ## The cluster -/

/-- Where an entry that node `i` gets in a step is taken from. -/
inductive Supplied (s : Cluster n) (i : Fin n) : Action n → Entry → Prop
  | start (command : Op) (term : Int) :
      Supplied s i (.start i command) { term := term, command := some command }
  | append {r : Rpc n AppendEntriesArgs} (sent : r ∈ s.appendReqs) (here : r.server = i)
      {e : Entry} (he : e ∈ r.args.entries) : Supplied s i (.appendEntries r) e
  | beat {r : Rpc n AppendEntriesArgs} (sent : r ∈ s.beatReqs) (here : r.server = i)
      {e : Entry} (he : e ∈ r.args.entries) : Supplied s i (.heartBeat r) e
  | install {r : Rpc n InstallSnapshotArgs} (sent : r ∈ s.installReqs) (here : r.server = i)
      (cleared : ¬ HoldsSnapshot (s.nodes i).rf r.args) :
      Supplied s i (.installSnapshot r)
        { term := r.args.lastIncludedTerm, command := r.args.lastIncludedCommand }

/-- Where a snapshot that node `i` gets in a step is taken from. -/
inductive Handed (s : Cluster n) (i : Fin n) : Action n → Int → Bytes → Prop
  | snapshot (index : Int) (data : Bytes) : Handed s i (.snapshot i index data) index data
  | install {r : Rpc n InstallSnapshotArgs} (sent : r ∈ s.installReqs) (here : r.server = i) :
      Handed s i (.installSnapshot r) r.args.lastIncludedIndex r.args.data

/-- Where a message that node `i` prepares for the service is taken from. -/
inductive Delivered (s : Cluster n) (i : Fin n) (msg : ApplyMsg) : Prop
  | command {e : Entry} (held : some e ∈ (s.nodes i).rf.log) (command : msg.command = e.command)
      (index : msg.snapshotIndex = 0) (data : msg.snapshot = [])
  | snapshot {r : Rpc n InstallSnapshotArgs} (sent : r ∈ s.installReqs)
      (command : msg.command = none) (index : msg.snapshotIndex = r.args.lastIncludedIndex)
      (data : msg.snapshot = r.args.data)

/-- Everything that has been sent, or is about to be sent, on `applyCh`. -/
def Node.traffic (node : Node) : List ApplyMsg := node.messages ++ node.applyCh

/-- An `AppendEntries` message of any kind. -/
def Cluster.Sends (s : Cluster n) (r : Rpc n AppendEntriesArgs) : Prop :=
  r ∈ s.appendCalls ∨ r ∈ s.appendReqs ∨ r ∈ s.beatReqs

/-- What a step can do to the entries and the snapshots of the cluster. -/
structure Traces (s : Cluster n) (a : Action n) (t : Cluster n) : Prop where
  nodes : ∀ i, (s.nodes i).rf.Draws (t.nodes i).rf (Supplied s i a) (Handed s i a)
  append : ∀ r, t.Sends r → s.Sends r ∨ ∀ e ∈ r.args.entries,
    ∃ i, some e ∈ (s.nodes i).rf.log.tail ∨ (e = {} ∧ none ∈ (s.nodes i).rf.log.tail)
  install : ∀ r ∈ t.installReqs, r ∈ s.installReqs ∨
    ∃ i e, some e ∈ (s.nodes i).rf.log ∧ r.args.lastIncludedCommand = e.command ∧
      r.args.lastIncludedIndex = (s.nodes i).rf.lastIncludedIndex ∧
      r.args.data = (s.nodes i).rf.snapShot
  messages : ∀ i, ∀ msg ∈ (t.nodes i).traffic, msg ∈ (s.nodes i).traffic ∨ Delivered s i msg

namespace Traces

variable {a : Action n}

theorem refl (s : Cluster n) (a : Action n) : Traces s a s where
  nodes _ := .refl _
  append _ hr := .inl hr
  install _ hr := .inl hr
  messages _ _ hmsg := .inl hmsg

/-- One node moves, and the network is as before. -/
theorem node (i : Fin n) (node : Node)
    (draws : (s.nodes i).rf.Draws node.rf (Supplied s i a) (Handed s i a))
    (messages : ∀ msg ∈ node.traffic, msg ∈ (s.nodes i).traffic ∨ Delivered s i msg) :
    Traces s a (s.setNode i node) where
  nodes j := Cluster.setNode_cases j draws fun _ => .refl _
  append _ hr := .inl hr
  install _ hr := .inl hr
  messages j := Cluster.setNode_cases j messages fun _ _ hmsg => .inl hmsg

/-- The peer of one node moves. -/
theorem rf (i : Fin n) (rf : Raftserver)
    (draws : (s.nodes i).rf.Draws rf (Supplied s i a) (Handed s i a)) :
    Traces s a (s.setRf i rf) :=
  .node i { s.nodes i with rf := rf } draws fun _ hmsg => .inl hmsg

end Traces

theorem Node.Forwards.traffic {node node' : Node} (forwards : node.Forwards node')
    {msg : ApplyMsg} (hmsg : msg ∈ node'.traffic) :
    msg ∈ node.traffic ∨ node.Collects msg := by
  rw [Node.traffic, List.mem_append] at hmsg ⊢
  rcases hmsg with hmsg | sent
  · exact (forwards.messages hmsg).imp .inl id
  · refine .inl ((forwards.applyCh msg sent).imp (fun here => ?_) id)
    exact List.mem_append_left _ (List.mem_append_left _ here)

/-- Every step of the cluster only passes on what is there, except for `Start` and
`Snapshot`. -/
theorem Cluster.step_traces {a : Action n} (hstep : s.step a = some t) : Traces s a t := by
  cases a with
  | ticker i =>
      obtain ⟨-, rfl⟩ := enabled_some.mp hstep
      exact .node i _ (.refl _) fun _ hmsg => .inl hmsg
  | startElection i =>
      obtain ⟨-, result, hresult, rfl⟩ := enabled_map.mp hstep
      have moved : Traces s (.startElection i) (s.setNode i { s.nodes i with
          rf := result.1, elections := (s.nodes i).elections - 1 }) :=
        .node i _ (Raftserver.startElection_draws hresult) fun _ hmsg => .inl hmsg
      exact { moved with }
  | requestVote r =>
      obtain ⟨-, result, hresult, rfl⟩ := enabled_map.mp hstep
      exact { Traces.rf r.server result.1 (Raftserver.requestVote_draws hresult) with }
  | procVoteAnswer i r reply =>
      obtain ⟨-, result, hresult, rfl⟩ := enabled_map.mp hstep
      exact { Traces.rf i result.1 (Raftserver.procVoteAnswer_observes hresult).draws with }
  | collectVote i r outTime =>
      obtain ⟨-, rfl⟩ := enabled_some.mp hstep
      exact { Traces.rf i _ (Raftserver.collectVote_draws (s.nodes i).rf outTime) with }
  | startSendAppendEntries i =>
      obtain ⟨-, sends, hsends, rfl⟩ := enabled_map.mp hstep
      refine { Traces.refl s _ with append := fun r hr => ?_ }
      rcases hr with hr | hr | hr
      · rcases List.mem_append.mp hr with hr | hr
        · obtain ⟨⟨j, args⟩, hp, hargs⟩ := List.mem_filterMap.mp hr
          obtain ⟨args, rfl, rfl⟩ := Option.map_eq_some_iff.mp hargs
          obtain ⟨j', -, args', hbuilt, heq⟩ := collect_mem hsends hp
          cases heq
          exact .inr fun e he => ⟨i, Raftserver.startSendAppendEntries_entries hbuilt he⟩
        · exact .inl (.inl hr)
      · exact .inl (.inr (.inl hr))
      · exact .inl (.inr (.inr hr))
  | sendAppendEntries i r =>
      obtain ⟨⟨hr, -⟩, rfl⟩ := enabled_some.mp hstep
      refine { Traces.refl s _ with append := fun r' hr' => .inl ?_ }
      rcases hr' with hr' | hr' | hr'
      · exact .inl (List.mem_of_mem_erase hr')
      · rcases List.mem_cons.mp hr' with rfl | hr'
        · exact .inl hr
        · exact .inr (.inl hr')
      · exact .inr (.inr hr')
  | appendEntries r =>
      obtain ⟨hr, result, hresult, rfl⟩ := enabled_map.mp hstep
      exact { Traces.rf r.server result.1
        (Raftserver.appendEntries_draws (fun e he => .append hr rfl he) hresult) with }
  | appendEntriesReply i r reply =>
      obtain ⟨-, result, hresult, rfl⟩ := enabled_map.mp hstep
      exact { Traces.rf i result.1 (Raftserver.sendAppendEntriesToServer_draws hresult) with }
  | sendInstallSnapshot i j =>
      obtain ⟨-, args, hargs, rfl⟩ := enabled_map.mp hstep
      refine { Traces.refl s _ with install := fun r hr => ?_ }
      rcases List.mem_cons.mp hr with rfl | hr
      · obtain ⟨e, he, rfl⟩ := Option.map_eq_some_iff.mp hargs
        rw [deref, if_pos le_rfl] at he
        exact .inr ⟨i, e, List.mem_of_getElem? (Option.join_eq_some_iff.mp he), rfl, rfl, rfl⟩
      · exact .inl hr
  | installSnapshot r =>
      obtain ⟨hr, ⟨rf, reply, msg⟩, hresult, rfl⟩ := enabled_map.mp hstep
      obtain ⟨draws, hmsg⟩ := Raftserver.installSnapshot_draws
        (E := Supplied s r.server (.installSnapshot r)) (D := Handed s r.server (.installSnapshot r))
        (.install hr rfl) (.install hr rfl) hresult
      cases msg with
      | none => exact { Traces.rf r.server rf draws with }
      | some msg =>
          refine .node r.server _ draws fun m hm => ?_
          simp only [Node.traffic, Node.messages, List.map_cons, List.mem_append,
            List.mem_cons] at hm ⊢
          rcases hm with ((hm | rfl | hm) | hm) | hm
          · exact .inl (.inl (.inl (.inl hm)))
          · obtain ⟨hcommand, hindex, hdata⟩ := hmsg _ rfl
            exact .inr (.snapshot hr hcommand hindex hdata)
          · exact .inl (.inl (.inl (.inr hm)))
          · exact .inl (.inl (.inr hm))
          · exact .inl (.inr hm)
  | installSnapshotSend j task =>
      obtain ⟨htask, node, hsent, rfl⟩ := enabled_map.mp hstep
      obtain ⟨-, rfl⟩ := enabled_some.mp hsent
      have waiting : task.2.2 ∈ (s.nodes j).traffic :=
        List.mem_append_left _ (List.mem_append_left _ (List.mem_append_right _
          (List.mem_map.mpr ⟨task, htask, rfl⟩)))
      refine .node j _ (.refl _) fun m hm => .inl ?_
      simp only [Node.traffic, Node.messages, List.mem_append, List.mem_cons, List.not_mem_nil,
        or_false] at hm
      rcases hm with ((hm | hm) | rfl | hm) | rfl
      · exact List.mem_append_left _ (List.mem_append_left _ (List.mem_append_left _ hm))
      · obtain ⟨other, hother, rfl⟩ := List.mem_map.mp hm
        exact List.mem_append_left _ (List.mem_append_left _ (List.mem_append_right _
          (List.mem_map.mpr ⟨other, List.mem_of_mem_erase hother, rfl⟩)))
      · exact waiting
      · exact List.mem_append_left _ (List.mem_append_right _ hm)
      · exact waiting
  | installSnapshotDone j task =>
      obtain ⟨-, rf, hsaved, rfl⟩ := enabled_map.mp hstep
      have moved : Traces s (.installSnapshotDone j task) (s.setNode j { s.nodes j with
          rf := rf, installed := (s.nodes j).installed.erase task }) :=
        .node j _ (Raftserver.persist_draws hsaved) fun _ hmsg => .inl hmsg
      exact { moved with }
  | installSnapshotReply i r reply =>
      obtain ⟨-, rf, hresult, rfl⟩ := enabled_map.mp hstep
      exact .rf i rf (Raftserver.sendInstallSnapshotToServer_draws hresult)
  | singleHeartBeat i =>
      obtain ⟨-, beats, hbeats, rfl⟩ := enabled_map.mp hstep
      refine { Traces.refl s _ with append := fun r hr => ?_ }
      rcases hr with hr | hr | hr
      · exact .inl (.inl hr)
      · exact .inl (.inr (.inl hr))
      · rcases List.mem_append.mp hr with hr | hr
        · obtain ⟨j, -, args, hargs, rfl⟩ := collect_mem hbeats hr
          obtain ⟨prev, -, rfl⟩ := Option.map_eq_some_iff.mp hargs
          exact .inr fun e he => by cases he
        · exact .inl (.inr (.inr hr))
  | heartBeat r =>
      obtain ⟨hr, result, hresult, rfl⟩ := enabled_map.mp hstep
      exact { Traces.rf r.server result.1
        (Raftserver.appendEntries_draws (fun e he => .beat hr rfl he) hresult) with }
  | sendCommitIndex i =>
      obtain ⟨r, rfl⟩ := Cluster.step_sendCommitIndex hstep
      exact { Traces.refl s _ with }
  | commitIndexReply i r =>
      obtain ⟨-, rfl⟩ := enabled_some.mp hstep
      exact .rf i _ (Raftserver.sendCommitIndex_draws _ r)
  | start i command =>
      obtain ⟨result, hresult, rfl⟩ := Option.map_eq_some_iff.mp hstep
      exact .rf i result.1 (Raftserver.start_draws (.start command) hresult)
  | snapshot i index data =>
      obtain ⟨rf, hresult, rfl⟩ := Option.map_eq_some_iff.mp hstep
      exact .rf i rf (Raftserver.snapshot_draws (.snapshot index data) hresult)
  | commitCheck i =>
      obtain ⟨node, hnode, rfl⟩ := Option.map_eq_some_iff.mp hstep
      have checks := Node.checks_of_commitCheck hnode
      obtain ⟨applied, hrf⟩ := checks.rf_eq
      refine .node i node (by rw [hrf]; exact .of_eq rfl rfl rfl) fun m hm => ?_
      refine (checks.forwards.traffic hm).imp id ?_
      rintro ⟨fuel, buffer, collected, here⟩
      obtain ⟨e, held, hcommand⟩ := Raftserver.commitBuffer_log collected here
      obtain ⟨hindex, hdata⟩ := Raftserver.commitBuffer_plain collected here
      exact .command held hcommand hindex hdata
  | applyHandler i =>
      obtain ⟨msg, rest, hch, rfl⟩ := Cluster.step_applyHandler hstep
      refine .node i _ (.refl _) fun m hm => .inl ?_
      rw [Node.traffic, hch]
      rcases List.mem_append.mp hm with hm | hm
      · exact List.mem_append_left _ hm
      · exact List.mem_append_right _ (List.mem_cons_of_mem _ hm)

/-! ## Commands -/

/-- The command is somewhere in the cluster. -/
inductive Mentions (s : Cluster n) (command : Op) : Prop
  | log {i : Fin n} {e : Entry} (held : some e ∈ (s.nodes i).rf.log)
      (here : e.command = some command)
  | append {r : Rpc n AppendEntriesArgs} (sent : s.Sends r) {e : Entry} (he : e ∈ r.args.entries)
      (here : e.command = some command)
  | install {r : Rpc n InstallSnapshotArgs} (sent : r ∈ s.installReqs)
      (here : r.args.lastIncludedCommand = some command)
  | message {i : Fin n} {msg : ApplyMsg} (sent : msg ∈ (s.nodes i).traffic)
      (here : msg.command = some command)

/-- A command that a step leaves somewhere was there before, or is started in this step. -/
theorem Traces.mentions {a : Action n} (traces : Traces s a t) {command : Op}
    (mentions : Mentions t command) : Mentions s command ∨ ∃ i, a = .start i command := by
  cases mentions with
  | @log i e held here =>
      rcases (traces.nodes i).log e held with old | new
      · exact .inl (.log old here)
      · cases new with
        | start started term => exact .inr ⟨i, by cases here; rfl⟩
        | append sent _ he => exact .inl (.append (.inr (.inl sent)) he here)
        | beat sent _ he => exact .inl (.append (.inr (.inr sent)) he here)
        | install sent _ cleared => exact .inl (.install sent here)
  | append sent he here =>
      rcases traces.append _ sent with old | new
      · exact .inl (.append old he here)
      · obtain ⟨i, held | ⟨rfl, -⟩⟩ := new _ he
        · exact .inl (.log (List.mem_of_mem_tail held) here)
        · cases here
  | install sent here =>
      rcases traces.install _ sent with old | ⟨i, e, held, hcommand, -⟩
      · exact .inl (.install old here)
      · exact .inl (.log held (hcommand.symm.trans here))
  | message sent here =>
      rcases traces.messages _ _ sent with old | new
      · exact .inl (.message old here)
      · cases new with
        | command held hcommand => exact .inl (.log held (hcommand.symm.trans here))
        | snapshot _ hcommand =>
            rw [hcommand] at here
            cases here

/-! ## Guarded runs -/

/-- Every entry behind the first position of a log, or in a message, has a command, and one
that satisfies `P`. -/
structure Commands (P : Op → Prop) (s : Cluster n) : Prop where
  logs : ∀ i e, some e ∈ (s.nodes i).rf.log.tail → ∃ command, e.command = some command ∧ P command
  messages : ∀ r, s.Sends r → ∀ e ∈ r.args.entries, ∃ command, e.command = some command ∧ P command

theorem commands_init (P : Op → Prop) : Commands P (Cluster.init n) where
  logs i e he := by simp [Cluster.init, Cluster.initServer] at he
  messages r hr := by simp [Cluster.Sends, Cluster.init] at hr

theorem Commands.step {P : Op → Prop} (commands : Commands P s) (sim : Sim h s) {a : Action n}
    (guarded : Guarded s a) (submitted : ∀ i command, a = .start i command → P command)
    (hstep : s.step a = some t) : Commands P t := by
  have traces := Cluster.step_traces hstep
  constructor
  · intro i e he
    rcases (traces.nodes i).tail e he with old | new
    · exact commands.logs i e old
    · cases new with
      | start command term => exact ⟨command, rfl, submitted i command rfl⟩
      | append sent _ he => exact commands.messages _ (.inr (.inl sent)) e he
      | beat sent _ he => exact commands.messages _ (.inr (.inr sent)) e he
      | install sent here cleared =>
          subst here
          exact absurd guarded cleared
  · intro r hr e he
    rcases traces.append r hr with old | new
    · exact commands.messages r old e he
    · obtain ⟨i, held | ⟨-, hnil⟩⟩ := new e he
      · exact commands.logs i e held
      · -- no log of a guarded run has a nil pointer
        have hlog := List.mem_of_mem_tail hnil
        rw [(sim.nodes i).window.log] at hlog
        obtain ⟨held, -, heq⟩ := List.mem_map.mp hlog
        cases heq

end RaftKv.Raft
