import RaftKv.Raft.Commit
import RaftKv.Server.ApplyStream

/-!
# Reads

A `GET` is not put into the log. `handleReadQue` asks for the commit index of the leader,
waits until the server has applied it, and executes the read. The read is up to date if
that index covers every command that had been answered when the `GET` came in.

The code asks too early and trusts too much in four places. A new leader does not know
what its predecessors have committed before it has committed an entry of its own. Its
leadership is confirmed in the term of the confirmation, which need not be the one in
which the index was read. A follower believes whoever it has last heard of as a leader.
And the index is kept in `incrMapLogIdx`, where another operation with the same `IncrId`
may replace it. `Careful` excludes these four, and then reads are up to date.
-/

namespace RaftKv.Server

open RaftKv.Raft
open RaftKv.Server.Replica (noCodec)
open Library Library.Ledger

namespace System

variable {n : Nat} {codec : Labgob} {h h' : Raft.History n} {s t : System n}

/-- The guards of the Raft sections, also where they are run by a call of the server. -/
def Guards (s : System n) : Action n → Prop
  | .raft a => Guarded s.raft a
  | .commitIndexReply i =>
      match (s.services i).reader with
      | .asked _ r => Guarded s.raft (.commitIndexReply i r)
      | _ => True
  | _ => True

/-- The node leads, has committed an entry of its own term, and a majority of the cluster
has not left that term. -/
def Leads (s : Cluster n) (i : Fin n) : Prop :=
  (s.nodes i).rf.role = .leader ∧ CommittedOwn (s.nodes i).rf ∧
    n < 2 * (Finset.univ.filter fun v =>
      (s.nodes v).rf.currentTerm ≤ (s.nodes i).rf.currentTerm).card

/-- What a read has to respect beyond the checks in the code. -/
def Careful (s : System n) : Action n → Prop
  | .lookUp i =>
      match (s.services i).reader with
      | .looking read => ∀ idx ∈ (s.services i).kv.incrMapLogIdx.lookup read.op.incrId,
          read.recorded = some idx
      | _ => True
  | .getState i => (s.raft.nodes i).rf.role = .leader → CommittedOwn (s.raft.nodes i).rf
  | .singleHeartBeat i =>
      match (s.services i).reader with
      | .confirming _ _ term => (s.raft.nodes i).rf.currentTerm = term
      | _ => True
  | .sendCommitIndex i => ∀ leader : Fin n, leader = (s.raft.nodes i).rf.leaderIdx →
      Leads s.raft leader
  | .serveRead i =>
      match (s.services i).reader with
      | .serving read none =>
          (s.services i).kv.incrMapLogIdx.lookup read.op.incrId = read.recorded
      | _ => True
  | _ => True

/-- The index covers everything that was answered before the read. -/
def Covers (read : Read) (idx : Int) : Prop := ∀ a ∈ read.before, a.1 ≤ idx

/-- A read that has not been executed yet. -/
structure Pending (h : Raft.History n) (s : Cluster n) (read : Read) : Prop where
  before : ∀ a ∈ read.before, Claimed h s a.1
  recorded : ∀ idx ∈ read.recorded, Covers read idx

/-- A round of heartbeats: if the index does not cover the read, then a majority has left
the term, and none of it has confirmed a heartbeat. -/
structure Round (h : Raft.History n) (s : Cluster n) (i : Fin n) (read : Read) (idx term : Int)
    (beats : List (Rpc n AppendEntriesArgs)) (seen : Nat) : Prop where
  sent : ∀ r ∈ beats, r.args.term = term ∧ r.server ≠ i
  begun : seen ≤ s.beatReplies.length
  covers : Covers read idx ∨ ∃ Q : Set (Fin n), Majority n Q ∧ (∀ v ∈ Q, term < h.term v) ∧
    i ∉ Q ∧ ∀ p ∈ s.beatReplies.take (s.beatReplies.length - seen),
      p.1 ∈ beats → p.2.success = true → p.1.server ∉ Q

/-- What is known at each position of `handleReadQue`. -/
def ReaderInv (h : Raft.History n) (s : Cluster n) (i : Fin n) : Reader n → Prop
  | .idle => True
  | .looking read | .asking read | .following read => Pending h s read
  | .confirming read idx term =>
      Pending h s read ∧ (Covers read idx ∨ Majority n {v | term < h.term v})
  | .beating read idx term beats seen => Pending h s read ∧ Round h s i read idx term beats seen
  | .asked read r => Pending h s read ∧ Covers read r.commitIndex
  | .recording read idx => Pending h s read ∧ Covers read idx
  | .serving read found => Pending h s read ∧
      ∃ idx, found.or read.recorded = some idx ∧ Covers read idx

structure ReadInv (h : Raft.History n) (s : System n) : Prop where
  claims : Claims h s.raft
  answers : ∀ a ∈ s.answers, Claimed h s.raft a.1
  queued : ∀ i, ∀ read ∈ (s.services i).readQue, Pending h s.raft read
  readers : ∀ i, ReaderInv h s.raft i (s.services i).reader
  reads : ∀ p ∈ s.reads, Covers p.1 p.2

/-! ## Steps of the cluster -/

section Growth

variable {c d : Cluster n} (sim : Sim h c) (inv : c.VoteInv) (sim' : Sim h' d)
  (grows : Extends h h') (spreads : Spreads h c d)

include sim inv sim' grows spreads

theorem Pending.grow {read : Read} (pending : Pending h c read) : Pending h' d read :=
  ⟨fun a ha => (pending.before a ha).grow sim inv sim' grows spreads, pending.recorded⟩

omit sim inv in
theorem Round.grow {i : Fin n} {read : Read} {idx term : Int}
    {beats : List (Rpc n AppendEntriesArgs)} {seen : Nat}
    (round : Round h c i read idx term beats seen) : Round h' d i read idx term beats seen := by
  have hbegun := round.begun
  rcases spreads.beats with same | ⟨r, reply, new, hterm⟩
  · refine ⟨round.sent, same ▸ round.begun, round.covers.imp id ?_⟩
    rintro ⟨Q, majority, later, hi, confirmed⟩
    exact ⟨Q, majority, fun v hv => (later v hv).trans_le (grows.term v), hi, same ▸ confirmed⟩
  · refine ⟨round.sent, by rw [new, List.length_cons]; omega, round.covers.imp id ?_⟩
    rintro ⟨Q, majority, later, hi, confirmed⟩
    refine ⟨Q, majority, fun v hv => (later v hv).trans_le (grows.term v), hi, fun p hp hsent hok => ?_⟩
    rw [new, List.length_cons, show c.beatReplies.length + 1 - seen =
      c.beatReplies.length - seen + 1 by omega, List.take_succ_cons] at hp
    rcases List.mem_cons.mp hp with rfl | hp
    · -- a node that confirms is in the term of the heartbeat
      intro hQ
      have hle := (later _ hQ).trans_le (grows.term r.server)
      rw [(sim'.nodes r.server).term, hterm hok, (round.sent r hsent).1] at hle
      exact hle.false
    · exact confirmed p hp hsent hok

theorem ReaderInv.grow {i : Fin n} {reader : Reader n} (readerInv : ReaderInv h c i reader) :
    ReaderInv h' d i reader := by
  cases reader with
  | idle => trivial
  | looking read => exact Pending.grow sim inv sim' grows spreads readerInv
  | asking read => exact Pending.grow sim inv sim' grows spreads readerInv
  | following read => exact Pending.grow sim inv sim' grows spreads readerInv
  | confirming read idx term =>
      refine ⟨readerInv.1.grow sim inv sim' grows spreads, readerInv.2.imp id ?_⟩
      rintro ⟨Q, later, hcard⟩
      exact ⟨Q, fun v hv => (later v hv).trans_le (grows.term v), hcard⟩
  | beating read idx term beats seen =>
      exact ⟨readerInv.1.grow sim inv sim' grows spreads,
        readerInv.2.grow sim' grows spreads⟩
  | asked read r => exact ⟨readerInv.1.grow sim inv sim' grows spreads, readerInv.2⟩
  | recording read idx => exact ⟨readerInv.1.grow sim inv sim' grows spreads, readerInv.2⟩
  | serving read found => exact ⟨readerInv.1.grow sim inv sim' grows spreads, readerInv.2⟩

end Growth

namespace ReadInv

/-- A section of Raft, seen from the servers. -/
theorem setRaft (readInv : ReadInv h s) (sim : Sim h s.raft) (inv : s.raft.VoteInv)
    {raft : Cluster n} (sim' : Sim h' raft) (grows : Extends h h')
    (spreads : Spreads h s.raft raft) : ReadInv h' { s with raft := raft } where
  claims := readInv.claims.step sim inv sim' grows spreads
  answers a ha := (readInv.answers a ha).grow sim inv sim' grows spreads
  queued i read hread := (readInv.queued i read hread).grow sim inv sim' grows spreads
  readers i := (readInv.readers i).grow sim inv sim' grows spreads
  reads := readInv.reads

/-- A section of a server that leaves Raft alone. -/
theorem setService (readInv : ReadInv h s) (i : Fin n) (service : Service n)
    (queued : ∀ read ∈ service.readQue, Pending h s.raft read)
    (reader : ReaderInv h s.raft i service.reader) : ReadInv h (s.setService i service) where
  claims := readInv.claims
  answers := readInv.answers
  queued j := setService_cases j queued fun _ => readInv.queued j
  readers j := setService_cases j reader fun _ => readInv.readers j
  reads := readInv.reads

theorem setReader (readInv : ReadInv h s) (i : Fin n) (reader : Reader n)
    (readerInv : ReaderInv h s.raft i reader) : ReadInv h (s.setReader i reader) :=
  readInv.setService i _ (readInv.queued i) readerInv

end ReadInv

/-! ## The sections of `handleReadQue` -/

/-- The nodes that have confirmed a heartbeat, with the leader itself. -/
theorem majority_of_oks (hn : Odd n) {i : Fin n} {oks : List (Fin n)} (nodup : oks.Nodup)
    (hi : i ∉ oks) (enough : (n - 1) / 2 < 1 + oks.length) : Majority n {v | v = i ∨ v ∈ oks} := by
  refine ⟨insert i oks.toFinset, fun v hv => ?_, ?_⟩
  · rcases Finset.mem_insert.mp hv with rfl | hv
    · exact .inl rfl
    · exact .inr (List.mem_toFinset.mp hv)
  · rw [Finset.card_insert_of_notMem (by simpa using hi), List.toFinset_card_of_nodup nodup]
    obtain ⟨k, hk⟩ := hn
    omega

/-- A confirmed round of heartbeats: nobody had left the term. -/
theorem Round.confirmed (hn : Odd n) {i : Fin n} {read : Read} {idx term : Int}
    {beats : List (Rpc n AppendEntriesArgs)} {seen : Nat}
    (round : Round h s.raft i read idx term beats seen) {oks : List (Fin n)} (nodup : oks.Nodup)
    (confirmed : ∀ j ∈ oks, s.Confirmed beats seen j) (enough : (n - 1) / 2 < 1 + oks.length) :
    Covers read idx := by
  have hi : i ∉ oks := by
    intro hi
    obtain ⟨p, -, hbeat, hserver, -⟩ := confirmed i hi
    exact (round.sent p.1 hbeat).2 hserver
  rcases round.covers with covers | ⟨Q, majority, -, hQ, refused⟩
  · exact covers
  obtain ⟨v, hv, rfl | hok⟩ :=
    Majority.intersect _ _ majority (majority_of_oks hn nodup hi enough)
  · exact absurd hv hQ
  · obtain ⟨p, hp, hbeat, rfl, success⟩ := confirmed v hok
    exact absurd hv (refused p hp hbeat success)

/-- What a leader's commit index covers when `GetState` reads it. -/
theorem Pending.getState {c : Cluster n} (sim : Sim h c) {i : Fin n} {read : Read}
    (pending : Pending h c read) (role : (c.nodes i).rf.role = .leader)
    (own : CommittedOwn (c.nodes i).rf) :
    Covers read (c.nodes i).rf.commitIndex ∨
      Majority n {v | (c.nodes i).rf.currentTerm < h.term v} := by
  by_cases left : Majority n {v | (c.nodes i).rf.currentTerm < h.term v}
  · exact .inr left
  · exact .inl fun a ha => ((pending.before a ha).le_commit sim role own).resolve_right left

/-- A node that leads, with the majority in its term, knows what is committed. -/
theorem Pending.leads {c : Cluster n} (sim : Sim h c) {i : Fin n} {read : Read}
    (pending : Pending h c read) (leads : Leads c i) :
    Covers read (c.nodes i).rf.commitIndex := by
  obtain ⟨role, own, still⟩ := leads
  refine (pending.getState sim role own).resolve_right fun left => ?_
  have stays : Majority n {v | h.term v ≤ (c.nodes i).rf.currentTerm} := by
    refine ⟨_, fun v hv => ?_, still⟩
    change h.term v ≤ _
    rw [(sim.nodes v).term]
    exact (Finset.mem_filter.mp hv).2
  obtain ⟨v, hleft, hstays⟩ := Majority.intersect _ _ left stays
  have hlt : (c.nodes i).rf.currentTerm < h.term v := hleft
  exact (hlt.trans_le hstays).false

namespace ReadInv

theorem lookUp (readInv : ReadInv h s) {i : Fin n} (careful : Careful s (.lookUp i))
    (hstep : s.lookUp i = some t) : ReadInv h t := by
  obtain ⟨read, hreader, rfl⟩ := lookUp_eq hstep
  have pending : Pending h s.raft read := by
    have := readInv.readers i
    rwa [hreader] at this
  refine readInv.setReader i _ ?_
  unfold Careful at careful
  dsimp only at careful
  rw [hreader] at careful
  cases hlookup : (s.services i).kv.incrMapLogIdx.lookup read.op.incrId with
  | none => exact pending
  | some idx =>
      exact ⟨pending, idx, rfl, pending.recorded idx (careful idx hlookup)⟩

theorem getState (readInv : ReadInv h s) (sim : Sim h s.raft) {i : Fin n}
    (careful : Careful s (.getState i)) (hstep : s.getState i = some t) : ReadInv h t := by
  obtain ⟨read, hreader, rfl⟩ := getState_eq hstep
  have pending : Pending h s.raft read := by
    have := readInv.readers i
    rwa [hreader] at this
  refine readInv.setReader i _ ?_
  split
  · exact ⟨pending, pending.getState sim ‹_› (careful ‹_›)⟩
  · exact pending

theorem confirmLeader (hn : Odd n) (readInv : ReadInv h s) (inv : s.raft.VoteInv) {i : Fin n}
    {oks : List (Fin n)} (hstep : s.confirmLeader i oks = some t) : ReadInv h t := by
  obtain ⟨read, idx, term, beats, seen, hreader, nodup, confirmed, rfl⟩ := confirmLeader_eq hstep
  have readerInv := readInv.readers i
  rw [hreader] at readerInv
  obtain ⟨pending, round⟩ := readerInv
  have hlen := Cluster.peers_length inv i
  refine readInv.setReader i _ ?_
  split
  · exact ⟨pending, round.confirmed hn nodup confirmed (by omega)⟩
  · trivial

theorem recordIndex (readInv : ReadInv h s) {i : Fin n} (hstep : s.recordIndex i = some t) :
    ReadInv h t := by
  obtain ⟨read, idx, hreader, rfl⟩ := recordIndex_eq hstep
  have readerInv := readInv.readers i
  rw [hreader] at readerInv
  obtain ⟨pending, covers⟩ := readerInv
  refine readInv.setService i _ (readInv.queued i) ⟨⟨pending.before, ?_⟩, idx, rfl, covers⟩
  intro idx' hidx
  cases hidx
  exact covers

theorem serveRead (readInv : ReadInv h s) {i : Fin n} (careful : Careful s (.serveRead i))
    (hstep : s.serveRead i = some t) : ReadInv h t := by
  unfold System.serveRead at hstep
  split at hstep
  · rename_i read found hreader
    cases hstep
    have readerInv := readInv.readers i
    rw [hreader] at readerInv
    obtain ⟨pending, idx, hidx, covers⟩ := readerInv
    -- the index that is compared is the one the read has recorded
    have hstart : found.getD
        (((s.services i).kv.incrMapLogIdx.lookup read.op.incrId).getD 0) = idx := by
      cases found with
      | some startIdx => exact Option.some.inj hidx
      | none =>
          unfold Careful at careful
          dsimp only at careful
          rw [hreader] at careful
          have hrecorded : read.recorded = some idx := hidx
          rw [Option.getD_none, careful, hrecorded]
          rfl
    dsimp only
    rw [hstart]
    unfold KVServer.serveRead
    split
    · rename_i hle
      have served := readInv.setService i
        { s.services i with
          kv := { ((s.services i).kv.dbExecute read.op).1 with
            incrMapLogIdx :=
              ((s.services i).kv.dbExecute read.op).1.incrMapLogIdx.erase read.op.incrId }
          count := 0
          reader := .idle } (readInv.queued i) trivial
      refine { served with reads := fun p hp => ?_ }
      rcases List.mem_cons.mp hp with rfl | hp
      · exact fun a ha => (covers a ha).trans hle
      · exact readInv.reads p hp
    · exact { readInv.setService i { s.services i with count := 0, reader := .looking read }
        (readInv.queued i) pending with }
  · cases hstep

end ReadInv

/-! ## Runs -/

/-- The cluster implements a ledger, and the reads are in order. -/
def Sound (s : System n) : Prop := s.raft.VoteInv ∧ ∃ h, Sim h s.raft ∧ ReadInv h s

theorem sound_init (n : Nat) : Sound (init n) := by
  refine ⟨Cluster.voteInv_init n, _, sim_init n, claims_init _, ?_, ?_, ?_, ?_⟩ <;>
    simp [init, ReaderInv]

/-- A section of Raft, and then a change of the server that ran it. -/
theorem Sound.raft (hn : Odd n) (sound : Sound s) {a : Raft.Action n}
    (guarded : Guarded s.raft a) {raft : Cluster n} (hraft : s.raft.step a = some raft)
    (update : ∀ h h', Sim h s.raft → ReadInv h s → Sim h' raft → Extends h h' →
      Spreads h s.raft raft → ReadInv h' { s with raft := raft } → t.raft = raft ∧ ReadInv h' t) :
    Sound t := by
  obtain ⟨inv, h, sim, readInv⟩ := sound
  obtain ⟨h', grows, sim'⟩ := sim.step hn inv guarded hraft
  have spreads := sim.spreads hn inv guarded hraft
  obtain ⟨hraft', after⟩ := update h h' sim readInv sim' grows spreads
    (readInv.setRaft sim inv sim' grows spreads)
  refine ⟨?_, h', ?_, after⟩
  · rw [hraft']
    exact inv.step hn guarded.countsOwnTerm hraft
  · rwa [hraft']

/-- A section that only runs in the server. -/
theorem Sound.service (sound : Sound s) (same : t.raft = s.raft)
    (update : ∀ h, Sim h s.raft → ReadInv h s → ReadInv h t) : Sound t := by
  obtain ⟨inv, h, sim, readInv⟩ := sound
  exact ⟨same ▸ inv, h, same ▸ sim, update h sim readInv⟩

/-- The command that `ApplyHandler` answers was committed. -/
theorem Sound.applyHandler (hn : Odd n) (sound : Sound s) {i : Fin n}
    {takesSnapshot : Bool} (hstep : s.applyHandler codec i takesSnapshot = some t) : Sound t := by
  obtain ⟨-, hstep⟩ := Option.ite_none_right_eq_some.mp hstep
  obtain ⟨msg, hmsg, hstep⟩ := Option.bind_eq_some_iff.mp hstep
  obtain ⟨raft, hraft, hstep⟩ := Option.bind_eq_some_iff.mp hstep
  obtain ⟨result, hresult, rfl⟩ := Option.map_eq_some_iff.mp hstep
  have inv := sound.1
  refine sound.raft hn (a := .applyHandler i) trivial hraft
    fun h h' sim readInv sim' grows spreads after => ⟨rfl, ?_⟩
  have served := after.setService i
    { s.services i with
      kv := result.1
      handing := if takesSnapshot ∧ result.2.isSome then
          some (msg.commandIndex, result.1.snapshot codec)
        else none } (after.queued i) (after.readers i)
  refine { served with answers := fun a ha => ?_ }
  rcases List.mem_append.mp ha with ha | ha
  · obtain ⟨resp, hresp, rfl⟩ := Option.map_eq_some_iff.mp (Option.mem_toList.mp ha)
    have valid : msg.commandValid = true := by
      unfold KVServer.applyHandler at hresult
      by_contra hcommand
      rw [if_neg hcommand] at hresult
      split at hresult
      · split at hresult <;> cases hresult <;> cases hresp
      · cases hresult
        cases hresp
    have hpending : msg ∈ (s.raft.nodes i).pending :=
      List.mem_append_right _ (List.mem_of_head? hmsg)
    exact (readInv.claims _ (.delivery hpending valid)).grow sim inv sim' grows spreads
  · exact served.answers a ha

theorem Sound.singleHeartBeat (hn : Odd n) (sound : Sound s) {i : Fin n}
    (careful : Careful s (.singleHeartBeat i)) (hstep : s.singleHeartBeat i = some t) :
    Sound t := by
  obtain ⟨read, idx, term, hreader, rfl | ⟨raft, role, hraft, rfl⟩⟩ := singleHeartBeat_eq hstep
  · exact sound.service rfl fun h sim readInv => readInv.setReader i _ trivial
  have inv := sound.1
  refine sound.raft hn (a := .singleHeartBeat i) trivial hraft
    fun h h' sim readInv sim' grows spreads after => ⟨rfl, ?_⟩
  have readerInv := readInv.readers i
  unfold Careful at careful
  dsimp only at careful
  rw [hreader] at readerInv careful
  obtain ⟨pending, covers⟩ := readerInv
  refine after.setReader i _ ⟨pending.grow sim inv sim' grows spreads, ?_⟩
  obtain ⟨-, beats, hbeats, rfl⟩ := enabled_map.mp hraft
  dsimp only
  rw [List.length_append, Nat.add_sub_cancel, List.take_left]
  refine ⟨fun r hr => ?_, le_rfl, covers.imp id fun left => ?_⟩
  · obtain ⟨j, hj, args, hargs, rfl⟩ := collect_mem hbeats hr
    obtain ⟨prev, -, rfl⟩ := Option.map_eq_some_iff.mp hargs
    exact ⟨careful, Cluster.mem_peersOf inv hj⟩
  · refine ⟨_, left, fun v hv => lt_of_lt_of_le hv (grows.term v), ?_, by simp⟩
    intro hi
    have hlt : term < h.term i := hi
    rw [(sim.nodes i).term, careful] at hlt
    exact hlt.false

theorem Sound.sendCommitIndex (hn : Odd n) (sound : Sound s) {i : Fin n}
    (careful : Careful s (.sendCommitIndex i)) (hstep : s.sendCommitIndex i = some t) :
    Sound t := by
  obtain ⟨read, raft, answer, hreader, hraft, hanswer, rfl⟩ := sendCommitIndex_eq hstep
  have inv := sound.1
  refine sound.raft hn (a := .sendCommitIndex i) trivial hraft
    fun h h' sim readInv sim' grows spreads after => ⟨rfl, ?_⟩
  have pending : Pending h s.raft read := by
    have := readInv.readers i
    rwa [hreader] at this
  refine after.setReader i _ ⟨pending.grow sim inv sim' grows spreads, ?_⟩
  unfold Cluster.step at hraft
  dsimp only at hraft
  split at hraft
  · obtain ⟨-, hraft⟩ := Option.ite_none_right_eq_some.mp hraft
    cases hraft
    cases hanswer
    exact pending.leads sim (careful _ rfl)
  · cases hraft

theorem Sound.commitIndexReply (hn : Odd n) (sound : Sound s) {i : Fin n}
    (guards : Guards s (.commitIndexReply i)) (hstep : s.commitIndexReply i = some t) :
    Sound t := by
  obtain ⟨read, r, raft, hreader, hraft, rfl⟩ := commitIndexReply_eq hstep
  unfold Guards at guards
  dsimp only at guards
  rw [hreader] at guards
  have inv := sound.1
  refine sound.raft hn guards hraft
    fun h h' sim readInv sim' grows spreads after => ⟨rfl, ?_⟩
  have readerInv := readInv.readers i
  rw [hreader] at readerInv
  obtain ⟨pending, covers⟩ := readerInv
  refine after.setReader i _ ?_
  unfold Raftserver.sendCommitIndex
  split
  · trivial
  · split <;> exact ⟨pending.grow sim inv sim' grows spreads, covers⟩

theorem Sound.step (hn : Odd n) (sound : Sound s) {a : Action n}
    (guards : Guards s a) (careful : Careful s a) (hstep : s.step codec a = some t) :
    Sound t := by
  cases a with
  | raft a =>
      obtain ⟨-, raft, hraft, rfl⟩ := enabled_map.mp hstep
      exact sound.raft hn guards hraft fun _ _ _ _ _ _ _ after => ⟨rfl, after⟩
  | applyHandler i takesSnapshot => exact sound.applyHandler hn hstep
  | snapshot i =>
      obtain ⟨taken, -, hstep⟩ := Option.bind_eq_some_iff.mp hstep
      obtain ⟨raft, hraft, rfl⟩ := Option.map_eq_some_iff.mp hstep
      exact sound.raft hn (a := .snapshot i taken.1 taken.2) trivial hraft
        fun _ _ _ _ _ _ _ after =>
          ⟨rfl, after.setService i _ (after.queued i) (after.readers i)⟩
  | handleOpQue i op =>
      rcases handleOpQue_eq hstep with rfl | rfl
      · exact sound
      · exact sound.service rfl fun h sim readInv =>
          readInv.setService i _ (readInv.queued i) (readInv.readers i)
  | dispatch i =>
      rcases dispatch_eq hstep with ⟨op, isGet, rfl⟩ | ⟨op, raft, handler, hraft, rfl⟩
      · refine sound.service rfl fun h sim readInv =>
          readInv.setService i _ (fun read hread => ?_) (readInv.readers i)
        rcases List.mem_append.mp hread with hread | hread
        · exact readInv.queued i read hread
        · rw [List.mem_singleton.mp hread]
          exact ⟨readInv.answers, fun _ hidx => (by cases hidx)⟩
      · exact sound.raft hn (a := .start i op) trivial hraft fun _ _ _ _ _ _ _ after =>
          ⟨rfl, after.setService i { s.services i with opHandler := handler } (after.queued i)
            (after.readers i)⟩
  | recordTerm i =>
      obtain ⟨op, term, rfl⟩ := recordTerm_eq hstep
      exact sound.service rfl fun h sim readInv =>
        readInv.setService i _ (readInv.queued i) (readInv.readers i)
  | takeRead i =>
      obtain ⟨read, rest, -, hqueue, rfl⟩ := takeRead_eq hstep
      refine sound.service rfl fun h sim readInv => ?_
      have queued := readInv.queued i
      rw [hqueue] at queued
      exact readInv.setService i _ (fun other hother => queued other (List.mem_cons_of_mem _ hother))
        (queued read List.mem_cons_self)
  | lookUp i =>
      have same : t.raft = s.raft := by
        obtain ⟨-, -, rfl⟩ := lookUp_eq hstep
        rfl
      exact sound.service same fun h sim readInv => readInv.lookUp careful hstep
  | getState i =>
      have same : t.raft = s.raft := by
        obtain ⟨-, -, rfl⟩ := getState_eq hstep
        rfl
      exact sound.service same fun h sim readInv => readInv.getState sim careful hstep
  | singleHeartBeat i => exact sound.singleHeartBeat hn careful hstep
  | confirmLeader i oks =>
      have same : t.raft = s.raft := by
        obtain ⟨-, -, -, -, -, -, -, -, rfl⟩ := confirmLeader_eq hstep
        rfl
      exact sound.service same fun h sim readInv => readInv.confirmLeader hn sound.1 hstep
  | sendCommitIndex i => exact sound.sendCommitIndex hn careful hstep
  | commitIndexError i =>
      obtain ⟨read, reader, count, hreader, hnext, rfl⟩ := commitIndexError_eq hstep
      refine sound.service rfl fun h sim readInv =>
        readInv.setService i _ (readInv.queued i) ?_
      have pending : Pending h s.raft read := by
        have := readInv.readers i
        rwa [hreader] at this
      rcases hnext with rfl | rfl
      · exact pending
      · trivial
  | commitIndexReply i => exact sound.commitIndexReply hn guards hstep
  | recordIndex i =>
      have same : t.raft = s.raft := by
        obtain ⟨-, -, -, rfl⟩ := recordIndex_eq hstep
        rfl
      exact sound.service same fun h sim readInv => readInv.recordIndex hstep
  | serveRead i =>
      refine sound.service ?_ fun h sim readInv => readInv.serveRead careful hstep
      change s.serveRead i = some t at hstep
      unfold System.serveRead at hstep
      split at hstep
      · cases hstep
        rfl
      · cases hstep

/-- **Linearizable reads.** In every guarded run of an odd cluster whose reads are careful,
a read is executed at an applied index that covers every command that any server had
answered when the read came in. -/
theorem linearizable_reads (codec : Labgob) (hn : Odd n)
    (reached : Reaches (step codec) (fun s a => Guards s a ∧ Careful s a) (init n) s) :
    ∀ p ∈ s.reads, ∀ a ∈ p.1.before, a.1 ≤ p.2 := by
  obtain ⟨-, h, -, readInv⟩ : Sound s :=
    reached.invariant (sound_init n) fun _ _ _ _ sound ⟨guards, careful⟩ taken =>
      sound.step hn guards careful taken
  exact readInv.reads

/-! ## Reads of three nodes -/

instance (s : System n) : ∀ a, Decidable (Guards s a)
  | .raft a => inferInstanceAs (Decidable (Guarded s.raft a))
  | .commitIndexReply i =>
      match h : (s.services i).reader with
      | .asked _ r =>
          decidable_of_iff (Guarded s.raft (.commitIndexReply i r)) (by simp only [Guards, h])
      | .idle | .looking _ | .asking _ | .confirming _ _ _ | .beating _ _ _ _ _ | .following _
      | .recording _ _ | .serving _ _ => isTrue (by simp only [Guards, h])
  | .applyHandler _ _ | .snapshot _ | .handleOpQue _ _ | .dispatch _ | .recordTerm _
  | .takeRead _ | .lookUp _ | .getState _ | .singleHeartBeat _ | .confirmLeader _ _
  | .sendCommitIndex _ | .commitIndexError _ | .recordIndex _ | .serveRead _ => isTrue trivial

instance (s : Cluster n) (i : Fin n) : Decidable (Leads s i) :=
  inferInstanceAs (Decidable (_ ∧ _ ∧ _))

instance (s : System n) : ∀ a, Decidable (Careful s a)
  | .lookUp i =>
      match h : (s.services i).reader with
      | .looking read =>
          decidable_of_iff (∀ idx ∈ (s.services i).kv.incrMapLogIdx.lookup read.op.incrId,
            read.recorded = some idx) (by simp only [Careful, h])
      | .idle | .asking _ | .confirming _ _ _ | .beating _ _ _ _ _ | .following _ | .asked _ _
      | .recording _ _ | .serving _ _ => isTrue (by simp only [Careful, h])
  | .getState _ => inferInstanceAs (Decidable (_ → _))
  | .singleHeartBeat i =>
      match h : (s.services i).reader with
      | .confirming _ _ term =>
          decidable_of_iff ((s.raft.nodes i).rf.currentTerm = term) (by simp only [Careful, h])
      | .idle | .looking _ | .asking _ | .beating _ _ _ _ _ | .following _ | .asked _ _
      | .recording _ _ | .serving _ _ => isTrue (by simp only [Careful, h])
  | .sendCommitIndex i =>
      inferInstanceAs (Decidable (∀ leader : Fin n, leader = (s.raft.nodes i).rf.leaderIdx →
        Leads s.raft leader))
  | .serveRead i =>
      match h : (s.services i).reader with
      | .serving read none =>
          decidable_of_iff ((s.services i).kv.incrMapLogIdx.lookup read.op.incrId = read.recorded)
            (by simp only [Careful, h])
      | .serving _ (some _) | .idle | .looking _ | .asking _ | .confirming _ _ _
      | .beating _ _ _ _ _ | .following _ | .asked _ _ | .recording _ _ =>
          isTrue (by simp only [Careful, h])
  | .raft _ | .applyHandler _ _ | .snapshot _ | .handleOpQue _ _ | .dispatch _ | .recordTerm _
  | .takeRead _ | .confirmLeader _ _ | .commitIndexError _ | .commitIndexReply _
  | .recordIndex _ => isTrue trivial

def readKey : Op := { optype := opGet, key := [107], clerkId := 2, incrId := 7 }

/-- Node `i` takes a read, finds itself the leader and sends its heartbeats. -/
def beginRead (i : Fin 3) : List (Action 3) :=
  [.handleOpQue i readKey, .dispatch i, .takeRead i, .lookUp i, .getState i, .singleHeartBeat i]

/-- Node `v` has confirmed the leadership of node `i`, which executes the read. -/
def finishRead (i v : Fin 3) : List (Action 3) :=
  [.confirmLeader i [v], .recordIndex i, .serveRead i]

/-- The first leader serves a read after its first write. -/
theorem linearizable_reads_first_leader :
    ∃ s : System 3, Reaches (step noCodec) (fun s a => Guards s a ∧ Careful s a) (init 3) s ∧
      ∃ p ∈ s.reads, p.1.before ≠ [] ∧ ∀ a ∈ p.1.before, a.1 ≤ p.2 := by
  have ended : ∃ s : System 3,
      Reaches (step noCodec) (fun s a => Guards s a ∧ Careful s a) (init 3) s ∧
      ∃ p ∈ s.reads, p.1.before ≠ [] :=
    exists_reaches (fun s : System 3 => ∃ p ∈ s.reads, p.1.before ≠ [])
      (leadFirst ++ applyFirst ++ beginRead 0 ++ inRaft [.heartBeat ⟨2, upToDateBeat⟩] ++
        finishRead 0 2) (by decide +kernel) (by decide +kernel)
  obtain ⟨s, reached, p, hp, hbefore⟩ := ended
  exact ⟨s, reached, p, hp, hbefore,
    linearizable_reads noCodec (by decide) reached p hp⟩

/-- Node two succeeds node zero. It holds the first write, but does not know that it was
committed. -/
def leadSecond : List (Action 3) :=
  inRaft (win 2 1 { term := 2, candidateId := some 2, lastLogIndex := 1, lastLogTerm := 1 } ++
    [.startSendAppendEntries 2] ++ introduce 2 1 2 ++
    [.sendInstallSnapshot 2 0, .installSnapshot ⟨0, emptySnapshot 2 2⟩,
      .installSnapshotReply 2 ⟨0, emptySnapshot 2 2⟩ ⟨2⟩])

/-- A write was answered by the first leader, and the next leader then serves a read from
the empty database. -/
theorem read_misses_answered_write :
    ∃ s : System 3, Reaches (step noCodec) Guards (init 3) s ∧
      ∃ p ∈ s.reads, ∃ a ∈ p.1.before, a.2.opId = opPut ∧ a.2.err = errOk ∧ p.2 < a.1 :=
  exists_reaches (fun s : System 3 =>
    ∃ p ∈ s.reads, ∃ a ∈ p.1.before, a.2.opId = opPut ∧ a.2.err = errOk ∧ p.2 < a.1)
    (leadFirst ++ applyFirst ++ leadSecond ++ beginRead 2 ++
      inRaft [.heartBeat ⟨1, { term := 2, leaderId := 2, prevLogIndex := 0, prevLogTerm := 0
                               leaderCommit := 0, entries := [] }⟩] ++
      finishRead 2 1) (by decide +kernel) (by decide +kernel)

end System

end RaftKv.Server
