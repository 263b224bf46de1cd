import RaftKv.Persister.Terms
import RaftKv.Persister.Recovery

/-!
# The terms that a node reveals over its life

A node starts on whatever its disk holds, works, crashes, and starts again. `Make` runs
`serve` before `startWork` has read the disk, so that the handlers of remote procedures
meet a node that still has term zero and no log. The history of a life is the list of
the terms in its replies, and a reply is covered if the stat file has its term.

`saveState` opens the stat file with `O_TRUNC` and writes it then. A crash in between leaves an
empty file, and the node comes back in term zero.
-/

namespace RaftKv

open Library (Reaches enabled_map enabled_some)
open Raft
open Raft.Raftserver (Call)

/-- How far `startWork` has got: `serve` runs alone, the state has been read, and then
taken over; the snapshot has been taken over; and `ticker` and `CommitCheck` run too. -/
inductive Phase where
  | serving
  | reading (saved : List Entry × Option Nat × Int × Int)
  | loaded
  | restored
  | working

/-- `readPersist` has run. -/
def Phase.Loaded : Phase → Prop
  | .serving | .reading _ => False
  | .loaded | .restored | .working => True

instance : ∀ phase : Phase, Decidable phase.Loaded
  | .serving | .reading _ => isFalse id
  | .loaded | .restored | .working => isTrue trivial

/-- Which sections can run besides the handlers. The key-value server is there from the
start; everything else comes from `ticker` and `CommitCheck`. -/
def Phase.runs (phase : Phase) : Call → Bool
  | .requestVote _ | .installSnapshot _ | .installSnapshotDone => false
  | .sendCommitIndex _ | .start _ | .snapshot _ _ => true
  | .startElection | .procVoteAnswer _ _ | .collectVote _ | .sendAppendEntriesToServer _ _ _
  | .sendInstallSnapshotToServer _ _ | .commitCheck _ =>
      match phase with
      | .working => true
      | .serving | .reading _ | .loaded | .restored => false

/-- What comes after the calls of `Save` of the section that holds `rf.mu`. -/
inductive Busy where
  | idle
  | replying (term : Int)
  | panicked
  deriving DecidableEq

/-- A process. `todo` are the calls of `Save` that the running section still has to make
and `installing` the replies of the `InstallSnapshot` handlers that have released the lock
to send on `applyCh`. -/
structure Process (β : Type) where
  rf : Raftserver
  ps : Persister β
  phase : Phase := .serving
  todo : List SaveArgs := []
  busy : Busy := .idle
  installing : List Int := []

inductive Work where
  | readRaftState
  | readPersist
  | readSnapshot
  | quickApply
  | handle (request : Raftserver.Request)
  | panics (request : Raftserver.Request)
  | installSnapshotDone (term : Int)
  | serve (call : Call)
  | save
  | saveLogToDisk
  | saveSnapClock

namespace Process

variable {β : Type} (codec : Codec β)

/-- No section holds `rf.mu`. -/
def Free (p : Process β) : Prop := p.todo = [] ∧ p.busy = .idle

instance (p : Process β) : Decidable p.Free := inferInstanceAs (Decidable (_ ∧ _))

/-- A section has run; its calls of `Save` follow. -/
def enter (p : Process β) (rf : Raftserver) : Process β :=
  { p with rf := rf, todo := rf.persister.drop p.rf.persister.length }

/-- One section, one call of `Save`, or one part of `startWork`. The latter do not wait for
`rf.mu`. After a panic the process does nothing more. -/
def step (p : Process β) : Work → Option (Process β)
  | .readRaftState =>
      match p.phase with
      | .serving => (p.ps.readRaftState codec).map fun saved => { p with phase := .reading saved }
      | .reading _ | .loaded | .restored | .working => none
  | .readPersist =>
      match p.phase with
      | .reading saved => some { p with
          rf := p.rf.readPersist saved.1 saved.2.1 saved.2.2.1 saved.2.2.2, phase := .loaded }
      | .serving | .loaded | .restored | .working => none
  | .readSnapshot =>
      match p.phase with
      | .loaded => some { p with
          rf := p.rf.readSnapshot p.ps.readSnapshot.1 p.ps.readSnapshot.2.1 p.ps.readSnapshot.2.2
          phase := .restored }
      | .serving | .reading _ | .restored | .working => none
  | .quickApply =>
      match p.phase with
      | .restored => p.rf.quickApply.map fun result => { p with rf := result.1, phase := .working }
      | .serving | .reading _ | .loaded | .working => none
  | .handle request =>
      if p.Free then
        (p.rf.handle request).map fun result =>
          if result.2.2 then { p.enter result.1 with installing := result.2.1 :: p.installing }
          else { p.enter result.1 with busy := .replying result.2.1 }
      else none
  | .panics request =>
      if p.Free then
        (p.rf.panicking request).map fun rf => { p.enter rf with busy := .panicked }
      else none
  | .installSnapshotDone term =>
      if p.Free ∧ term ∈ p.installing then
        p.rf.persist.map fun rf =>
          { p.enter rf with busy := .replying term, installing := p.installing.erase term }
      else none
  | .serve call => if p.Free ∧ p.phase.runs call then (p.rf.serve call).map p.enter else none
  | .save =>
      match p.todo with
      | [] => none
      | call :: rest => (p.ps.save codec call).map fun ps => { p with ps := ps, todo := rest }
  | .saveLogToDisk => (p.ps.saveLogToDisk codec).map fun ps => { p with ps := ps }
  | .saveSnapClock => p.ps.saveSnapToDisk.map fun ps => { p with ps := ps }

/-- The invariant of a process with the terms that were revealed so far. Before the state
is loaded nothing but the term in memory has changed. -/
structure Inv (p : Process β) (revealed : List Int) : Prop where
  mirrors : p.ps.Mirrors
  covered : ∀ term ∈ revealed, term ≤ p.ps.state.currentTerm
  untouched : ¬ p.phase.Loaded →
    p.Free ∧ p.installing = [] ∧ p.rf.log = [] ∧ p.rf.role = .follower
  reading : ∀ saved, p.phase = .reading saved → saved.2.2.1 = p.ps.state.currentTerm
  ascends : p.phase.Loaded → Ascends p.ps.state.currentTerm p.todo p.rf.currentTerm
  replying : ∀ term, p.busy = .replying term → term = p.rf.currentTerm

/-- The handlers wait for `startWork`, a taken snapshot is answered in the term in which it
came, and an election can count the term up. -/
def Patient (p : Process β) : Work → Prop
  | .handle _ | .panics _ => p.phase.Loaded
  | .installSnapshotDone term => p.rf.currentTerm = term
  | .serve .startElection => p.rf.CanCount
  | .readRaftState | .readPersist | .readSnapshot | .quickApply | .serve _ | .save
  | .saveLogToDisk | .saveSnapClock => True

variable {codec} {p p' : Process β} {revealed : List Int}

theorem Free.not_replying (free : p.Free) (term : Int) : p.busy ≠ .replying term := by
  rw [free.2]
  exact nofun

/-- A section of a loaded process, whatever follows it. -/
theorem Inv.enter {rf : Raftserver} (h : p.Inv revealed) (loaded : p.phase.Loaded) (free : p.Free)
    (climbs : p.rf.Climbs rf) {busy : Busy} {installing : List Int}
    (replying : ∀ term, busy = .replying term → term = rf.currentTerm) :
    Inv { p.enter rf with busy := busy, installing := installing } revealed where
  mirrors := h.mirrors
  covered := h.covered
  untouched := fun absent => absurd loaded absent
  reading := h.reading
  ascends := fun _ => by
    have before := h.ascends loaded
    rw [free.1] at before
    exact Ascends.append before climbs.drop
  replying := replying

/-- Without a log and a leader's role the key-value server cannot make the node save. -/
theorem Inv.serve_unloaded {call : Call} {rf : Raftserver} (h : p.Inv revealed)
    (unloaded : ¬ p.phase.Loaded) (runs : p.phase.runs call = true)
    (hserve : p.rf.serve call = some rf) : (p.enter rf).Inv revealed := by
  obtain ⟨free, installing, log, role⟩ := h.untouched unloaded
  have kept : rf.log = [] ∧ rf.role = .follower ∧ rf.persister = p.rf.persister := by
    cases call with
    | sendCommitIndex reply =>
        cases hserve
        rw [Raftserver.sendCommitIndex]
        split
        · exact ⟨log, role, rfl⟩
        split <;> exact ⟨log, role, rfl⟩
    | start command =>
        rw [Raftserver.serve, Raftserver.start, if_pos (by rw [role]; decide)] at hserve
        cases hserve
        exact ⟨log, role, rfl⟩
    | snapshot index data =>
        rw [Raftserver.serve, Raftserver.snapshot] at hserve
        split at hserve
        · cases hserve
          exact ⟨log, role, rfl⟩
        · obtain ⟨e, present, -⟩ := Option.bind_eq_some_iff.mp hserve
          simp [Raftserver.entryAt, deref, log] at present
    | requestVote | installSnapshot | installSnapshotDone => cases runs
    | startElection | procVoteAnswer | collectVote | sendAppendEntriesToServer
    | sendInstallSnapshotToServer | commitCheck =>
        cases hphase : p.phase <;> simp_all [Phase.runs, Phase.Loaded]
  obtain ⟨log', role', same⟩ := kept
  have todo : (p.enter rf).todo = [] := by
    rw [Process.enter, same]
    exact List.drop_length
  exact { h with
    untouched := fun _ => ⟨⟨todo, free.2⟩, installing, log', role'⟩
    ascends := fun loaded => absurd loaded unloaded
    replying := fun term busy => absurd busy (free.not_replying term) }

/-- A part of `startWork` that leaves the loaded term alone. -/
theorem Inv.advance {rf : Raftserver} {phase : Phase} (h : p.Inv revealed) (before : p.phase.Loaded)
    (loaded : phase.Loaded) (term : rf.currentTerm = p.rf.currentTerm) :
    Inv { p with rf := rf, phase := phase } revealed where
  mirrors := h.mirrors
  covered := h.covered
  untouched := fun absent => absurd loaded absent
  reading := by
    rintro saved ⟨⟩
    exact loaded.elim
  ascends := fun _ => by
    have ascends := h.ascends before
    rw [← term] at ascends
    exact ascends
  replying := fun t busy => (h.replying t busy).trans term.symm

theorem quickApplyFrom_currentTerm {fuel : Nat} {rf : Raftserver}
    {result : Raftserver × List ApplyMsg} (h : rf.quickApplyFrom fuel = some result) :
    result.1.currentTerm = rf.currentTerm := by
  induction fuel generalizing rf result with
  | zero =>
      cases h
      rfl
  | succ fuel ih =>
      rw [Raftserver.quickApplyFrom] at h
      split at h
      · obtain ⟨e, -, h⟩ := Option.bind_eq_some_iff.mp h
        obtain ⟨rest, hrest, rfl⟩ := Option.map_eq_some_iff.mp h
        exact (ih hrest).trans rfl
      · cases h
        rfl

/-- The background sections of the persister. -/
theorem Inv.background {ps : Persister β} (h : p.Inv revealed)
    (mirrors : ps.Mirrors ∧ ps.state.currentTerm = p.ps.state.currentTerm) :
    Inv { p with ps := ps } revealed where
  mirrors := mirrors.1
  covered := fun term hterm => by
    rw [mirrors.2]
    exact h.covered term hterm
  untouched := h.untouched
  reading := fun saved hphase => (h.reading saved hphase).trans mirrors.2.symm
  ascends := fun loaded => by
    rw [mirrors.2]
    exact h.ascends loaded
  replying := h.replying

theorem Inv.save {call : SaveArgs} {rest : List SaveArgs} {ps : Persister β} (h : p.Inv revealed)
    (todo : p.todo = call :: rest) (hsave : p.ps.save codec call = some ps) :
    Inv { p with ps := ps, todo := rest } revealed := by
  have loaded : p.phase.Loaded := by
    by_contra absent
    have free := (h.untouched absent).1.1
    rw [todo] at free
    cases free
  have ascends := h.ascends loaded
  rw [todo] at ascends
  obtain ⟨mirrors, term⟩ := Persister.mirrors_save hsave
  refine ⟨mirrors, ?_, fun absent => absurd loaded absent, ?_, ?_, h.replying⟩
  · intro t ht
    rw [term]
    exact Int.le_trans (h.covered t ht) ascends.1
  · intro saved hphase
    have loaded' := loaded
    rw [show p.phase = .reading saved from hphase] at loaded'
    exact loaded'.elim
  · intro _
    rw [term]
    exact ascends.2

theorem Inv.step {w : Work} (h : p.Inv revealed) (patient : p.Patient w)
    (hstep : p.step codec w = some p') : p'.Inv revealed := by
  cases w with
  | readRaftState =>
      rw [Process.step] at hstep
      split at hstep <;> try cases hstep
      rename_i hphase
      obtain ⟨saved, hsaved, rfl⟩ := Option.map_eq_some_iff.mp hstep
      have unloaded : ¬ p.phase.Loaded := by
        rw [hphase]
        exact id
      exact { h with
        untouched := fun _ => h.untouched unloaded
        reading := by
          rintro saved ⟨⟩
          exact Persister.readRaftState_term hsaved
        ascends := False.elim }
  | readPersist =>
      rw [Process.step] at hstep
      split at hstep <;> try cases hstep
      rename_i saved hphase
      have unloaded : ¬ p.phase.Loaded := by
        rw [hphase]
        exact id
      obtain ⟨free, -⟩ := h.untouched unloaded
      have term := h.reading saved hphase
      exact { h with
        untouched := fun absent => absurd trivial absent
        reading := by rintro saved ⟨⟩
        ascends := fun _ => by
          rw [free.1]
          exact Int.le_of_eq term.symm
        replying := fun t busy => absurd busy (free.not_replying t) }
  | readSnapshot =>
      rw [Process.step] at hstep
      split at hstep <;> try cases hstep
      rename_i hphase
      have loaded : p.phase.Loaded := by rw [hphase]; trivial
      exact h.advance loaded trivial (Raftserver.readSnapshot_currentTerm _ _ _ _)
  | quickApply =>
      rw [Process.step] at hstep
      split at hstep <;> try cases hstep
      rename_i hphase
      obtain ⟨result, hresult, rfl⟩ := Option.map_eq_some_iff.mp hstep
      have loaded : p.phase.Loaded := by rw [hphase]; trivial
      exact h.advance loaded trivial (quickApplyFrom_currentTerm hresult)
  | handle request =>
      obtain ⟨free, ⟨rf, term, later⟩, hresult, rfl⟩ := enabled_map.mp hstep
      obtain ⟨climbs, hterm⟩ := Raftserver.handle_climbs hresult
      cases later with
      | true =>
          exact h.enter patient free climbs fun t busy => absurd busy (free.not_replying t)
      | false =>
          refine h.enter patient free climbs ?_
          rintro t ⟨⟩
          exact hterm
  | panics request =>
      obtain ⟨free, rf, hresult, rfl⟩ := enabled_map.mp hstep
      exact h.enter patient free (Raftserver.panicking_climbs hresult) (by rintro t ⟨⟩)
  | installSnapshotDone term =>
      obtain ⟨⟨free, waiting⟩, rf, hresult, rfl⟩ := enabled_map.mp hstep
      have loaded : p.phase.Loaded := by
        by_contra absent
        rw [(h.untouched absent).2.1] at waiting
        cases waiting
      refine h.enter loaded free (.persist hresult) ?_
      rintro t ⟨⟩
      exact patient.symm.trans (Raftserver.persist_currentTerm hresult).symm
  | serve call =>
      obtain ⟨⟨free, runs⟩, rf, hresult, rfl⟩ := enabled_map.mp hstep
      by_cases loaded : p.phase.Loaded
      · refine h.enter loaded free (Raftserver.serve_climbs hresult ?_)
          fun t busy => absurd busy (free.not_replying t)
        rintro rfl
        exact patient
      · exact h.serve_unloaded loaded runs hresult
  | save =>
      rw [Process.step] at hstep
      split at hstep
      · cases hstep
      · rename_i call rest todo
        obtain ⟨ps, hsave, rfl⟩ := Option.map_eq_some_iff.mp hstep
        exact h.save todo hsave
  | saveLogToDisk =>
      obtain ⟨ps, hround, rfl⟩ := Option.map_eq_some_iff.mp hstep
      exact h.background (h.mirrors.saveLogToDisk hround)
  | saveSnapClock =>
      obtain ⟨ps, hsave, rfl⟩ := Option.map_eq_some_iff.mp hstep
      exact h.background (h.mirrors.saveSnapToDisk hsave)

end Process

/-! ### The life of a node -/

inductive Host (β : Type) where
  | down (disk : Disk β)
  | up (p : Process β)

/-- A node, with the terms of its replies so far, the latest one first. -/
structure Life (β : Type) where
  host : Host β
  revealed : List Int := []

/-- The sections that call `saveState`. -/
inductive StatWriter where
  | save
  | saveLogToDisk
  | saveSnapToDisk

/-- The disk when `saveState` has opened the stat file and not written it yet. -/
def Process.truncatedStat {β : Type} (codec : Codec β) (p : Process β) :
    StatWriter → Option (Disk β)
  | .save => p.todo.head?.map fun _ => { p.ps.disk with stat := some none }
  | .saveLogToDisk => (p.ps.diskAfter codec .written).map fun disk => { disk with stat := some none }
  | .saveSnapToDisk =>
      (p.ps.diskAfter codec .truncatedFront).map fun disk => { disk with stat := some none }

theorem Process.truncatedStat_term {β : Type} {codec : Codec β} {p : Process β} {w : StatWriter}
    {disk : Disk β} (h : p.truncatedStat codec w = some disk) : disk.term = 0 := by
  cases w <;> obtain ⟨_, -, rfl⟩ := Option.map_eq_some_iff.mp h <;> rfl

/-- A crash comes between two sections, inside a section of the writer, in `Save` when
the stat file has been written, or in `saveState` before it is. -/
inductive Life.Event where
  | boot
  | work (w : Work)
  | reply
  | crash (w : Persister.Window)
  | crashSaving
  | crashTruncated (w : StatWriter)

namespace Life

variable {β : Type} (codec : Codec β) (me : Nat) (peers : List Nat)

def step (s : Life β) : Event → Option (Life β)
  | .boot =>
      match s.host with
      | .down disk => (Persister.initFromDisk codec disk).map fun ps =>
          { s with host := .up { rf := Raftserver.make me peers, ps := ps } }
      | .up _ => none
  | .work w =>
      match s.host with
      | .down _ => none
      | .up p => (p.step codec w).map fun p => { s with host := .up p }
  | .reply =>
      match s.host with
      | .down _ => none
      | .up p =>
          match p.todo, p.busy with
          | [], .replying term =>
              some { host := .up { p with busy := .idle }, revealed := term :: s.revealed }
          | _, _ => none
  | .crash w =>
      match s.host with
      | .down _ => none
      | .up p => (p.ps.diskAfter codec w).map fun disk => { s with host := .down disk }
  | .crashSaving =>
      match s.host with
      | .down _ => none
      | .up p => p.todo.head?.map fun call => { s with host := .down (p.ps.remember call).disk }
  | .crashTruncated w =>
      match s.host with
      | .down _ => none
      | .up p => (p.truncatedStat codec w).map fun disk => { s with host := .down disk }

/-- `rf.currentTerm` of a process that has loaded its state. -/
def currentTerm (s : Life β) : Option Int :=
  match s.host with
  | .down _ => none
  | .up p => if p.phase.Loaded then some p.rf.currentTerm else none

/-- The terms of the replies do not go back, and none is larger than the node's own. -/
def Backed (s : Life β) : Prop :=
  s.revealed.Pairwise (fun later earlier => earlier ≤ later) ∧
    ∀ own ∈ s.currentTerm, ∀ term ∈ s.revealed, term ≤ own

/-- The handlers are patient, a reply is not given before the stat file has its term, and
`saveState` is not interrupted once a term other than zero has been revealed. -/
def WriteAhead (s : Life β) : Event → Prop
  | .work w =>
      match s.host with
      | .down _ => True
      | .up p => p.Patient w
  | .reply =>
      match s.host with
      | .down _ => True
      | .up p =>
          match p.busy with
          | .replying term => term ≤ p.ps.state.currentTerm
          | .idle | .panicked => True
  | .crashTruncated _ => ∀ term ∈ s.revealed, term ≤ 0
  | .boot | .crash _ | .crashSaving => True

/-- Whatever has been revealed is on disk. -/
def Inv (s : Life β) : Prop :=
  s.revealed.Pairwise (fun later earlier => earlier ≤ later) ∧
    match s.host with
    | .down disk => ∀ term ∈ s.revealed, term ≤ disk.term
    | .up p => p.Inv s.revealed

variable {codec me peers} {s t : Life β}

theorem Inv.backed (h : s.Inv) : s.Backed := by
  obtain ⟨host, revealed⟩ := s
  obtain ⟨sorted, h⟩ := h
  refine ⟨sorted, ?_⟩
  intro own hown term hterm
  cases host with
  | down disk => cases hown
  | up p =>
      obtain ⟨loaded, rfl⟩ := enabled_some.mp hown
      exact Int.le_trans (h.covered term hterm) (h.ascends loaded).le

/-- Replies are given by a loaded process in its own term, so no larger one was revealed. -/
theorem Inv.reply {p : Process β} {revealed : List Int} {term : Int}
    (h : Inv { host := .up p, revealed := revealed }) (busy : p.busy = .replying term)
    (saved : term ≤ p.ps.state.currentTerm) :
    Inv { host := .up { p with busy := .idle }, revealed := term :: revealed } := by
  obtain ⟨sorted, h⟩ := h
  have loaded : p.phase.Loaded := by
    by_contra absent
    exact (h.untouched absent).1.not_replying term busy
  have current := h.replying term busy
  have bound := (h.ascends loaded).le
  refine ⟨List.pairwise_cons.mpr ⟨?_, sorted⟩, ?_⟩
  · intro earlier hearlier
    have covered := h.covered earlier hearlier
    omega
  · exact { h with
      covered := fun t ht => (List.mem_cons.mp ht).elim (fun same => same ▸ saved) (h.covered t)
      untouched := fun absent => absurd loaded absent
      replying := nofun }

theorem Inv.step {e : Event} (h : s.Inv) (ahead : s.WriteAhead e)
    (hstep : s.step codec me peers e = some t) : t.Inv := by
  obtain ⟨host, revealed⟩ := s
  cases host with
  | down disk =>
      cases e with
      | boot =>
          obtain ⟨ps, hps, rfl⟩ := Option.map_eq_some_iff.mp hstep
          obtain ⟨mirrors, term⟩ := Persister.mirrors_initFromDisk hps
          refine ⟨h.1, mirrors, ?_, ?_, nofun, False.elim, nofun⟩
          · rw [term]
            exact h.2
          · exact fun _ => ⟨⟨rfl, rfl⟩, rfl, rfl, rfl⟩
      | work | reply | crash | crashSaving | crashTruncated => cases hstep
  | up p =>
      cases e with
      | boot => cases hstep
      | work w =>
          obtain ⟨p', hp, rfl⟩ := Option.map_eq_some_iff.mp hstep
          exact ⟨h.1, h.2.step ahead hp⟩
      | reply =>
          dsimp only [Life.step] at hstep
          split at hstep
          · rename_i term _ busy
            cases hstep
            have saved : term ≤ p.ps.state.currentTerm := by
              simpa only [WriteAhead, busy] using ahead
            exact h.reply busy saved
          · cases hstep
      | crash w =>
          obtain ⟨disk, hdisk, rfl⟩ := Option.map_eq_some_iff.mp hstep
          refine ⟨h.1, ?_⟩
          intro term hterm
          rw [h.2.mirrors.diskAfter hdisk]
          exact h.2.covered term hterm
      | crashSaving =>
          obtain ⟨call, hcall, rfl⟩ := Option.map_eq_some_iff.mp hstep
          obtain ⟨rest, todo⟩ := List.head?_eq_some_iff.mp hcall
          have loaded : p.phase.Loaded := by
            by_contra absent
            rw [(h.2.untouched absent).1.1] at todo
            cases todo
          have ascends := h.2.ascends loaded
          rw [todo] at ascends
          refine ⟨h.1, ?_⟩
          intro term hterm
          exact Int.le_trans (h.2.covered term hterm) ascends.1
      | crashTruncated w =>
          obtain ⟨disk, hdisk, rfl⟩ := Option.map_eq_some_iff.mp hstep
          refine ⟨h.1, ?_⟩
          change ∀ term ∈ revealed, term ≤ disk.term
          rw [Process.truncatedStat_term hdisk]
          exact ahead

/-- A new process until it has loaded the state. -/
def comeback : List Event := [.boot, .work .readRaftState, .work .readPersist]

/-- The new process has the term that was on disk when the old one went down. -/
theorem comeback_term {disk : Disk β} {revealed : List Int}
    (hrun : Library.run (step codec me peers) { host := .down disk, revealed := revealed } comeback =
      some t) :
    t.revealed = revealed ∧ t.currentTerm = some disk.term := by
  simp only [comeback, Library.run, step] at hrun
  obtain ⟨s₁, booted, hrun⟩ := Option.bind_eq_some_iff.mp hrun
  obtain ⟨ps, hps, rfl⟩ := Option.map_eq_some_iff.mp booted
  obtain ⟨s₂, worked, hrun⟩ := Option.bind_eq_some_iff.mp hrun
  obtain ⟨p₂, read, rfl⟩ := Option.map_eq_some_iff.mp worked
  obtain ⟨saved, hsaved, rfl⟩ := Option.map_eq_some_iff.mp read
  cases hrun
  exact ⟨rfl, congrArg some ((Persister.readRaftState_term hsaved).trans
    (Persister.mirrors_initFromDisk hps).2)⟩

/-- A process that comes back below a revealed term is not backed. -/
theorem not_backed_of_comeback (disk : Disk β) {revealed : List Int} {term : Int}
    (hrun : Library.run (step codec me peers) { host := .down disk, revealed := revealed } comeback =
      some t) (mem : term ∈ revealed) (below : disk.term < term) : ¬ t.Backed := by
  obtain ⟨history, own⟩ := comeback_term hrun
  intro backed
  have bound := backed.2 _ own term (by rw [history]; exact mem)
  omega

/-- In every run in which the handlers wait for the loaded state, every term is saved
before it is revealed and no crash empties the stat file, the revealed terms do not go back and
never exceed the node's own. A reply that is given too early is not covered if the node crashes
and comes back, and neither is any revealed term behind an emptied file. -/
theorem revealed_terms {disk : Disk β}
    (reached : Reaches (step codec me peers) WriteAhead { host := .down disk } s) :
    s.Backed ∧
    (∀ t u, s.step codec me peers .reply = some t → ¬ s.WriteAhead .reply →
      Library.run (step codec me peers) t (.crash .idle :: comeback) = some u → ¬ u.Backed) ∧
    ∀ w t u, s.step codec me peers (.crashTruncated w) = some t →
      ¬ s.WriteAhead (.crashTruncated w) →
      Library.run (step codec me peers) t comeback = some u → ¬ u.Backed := by
  have inv : s.Inv :=
    reached.invariant ⟨List.Pairwise.nil, nofun⟩ fun _ _ _ _ h => h.step
  obtain ⟨host, revealed⟩ := s
  refine ⟨inv.backed, ?_, ?_⟩
  · intro t u hreply early hrun
    cases host with
    | down disk => cases hreply
    | up p =>
        dsimp only [step] at hreply
        split at hreply
        · rename_i term _ busy
          cases hreply
          simp only [WriteAhead, busy] at early
          refine not_backed_of_comeback p.ps.disk hrun List.mem_cons_self ?_
          rw [show p.ps.disk.term = _ from inv.2.mirrors]
          exact Int.not_le.mp early
        · cases hreply
  · intro w t u hcrash revealing hrun
    cases host with
    | down disk => cases hcrash
    | up p =>
        obtain ⟨disk, hdisk, rfl⟩ := Option.map_eq_some_iff.mp hcrash
        obtain ⟨term, mem, positive⟩ : ∃ term ∈ revealed, 0 < term := by
          simpa [WriteAhead] using revealing
        refine not_backed_of_comeback disk hrun mem ?_
        rw [Process.truncatedStat_term hdisk]
        exact positive

instance (p : Process β) : ∀ w, Decidable (p.Patient w)
  | .handle _ | .panics _ => inferInstanceAs (Decidable p.phase.Loaded)
  | .installSnapshotDone _ => inferInstanceAs (Decidable (_ = _))
  | .serve .startElection => inferInstanceAs (Decidable p.rf.CanCount)
  | .readRaftState | .readPersist | .readSnapshot | .quickApply | .save
  | .saveLogToDisk | .saveSnapClock => isTrue trivial
  | .serve (.requestVote _) | .serve (.installSnapshot _) | .serve .installSnapshotDone
  | .serve (.procVoteAnswer _ _) | .serve (.collectVote _)
  | .serve (.sendAppendEntriesToServer _ _ _) | .serve (.sendInstallSnapshotToServer _ _)
  | .serve (.sendCommitIndex _) | .serve (.start _) | .serve (.snapshot _ _)
  | .serve (.commitCheck _) => isTrue trivial

instance : ∀ (s : Life β) e, Decidable (s.WriteAhead e)
  | ⟨.down _, _⟩, .work _ | ⟨.down _, _⟩, .reply => isTrue trivial
  | ⟨.up p, _⟩, .work w => inferInstanceAs (Decidable (p.Patient w))
  | ⟨.up p, _⟩, .reply =>
      match h : p.busy with
      | .replying term => decidable_of_iff (term ≤ p.ps.state.currentTerm)
          (by simp only [WriteAhead, h])
      | .idle | .panicked => isTrue (by simp only [WriteAhead, h])
  | s, .crashTruncated _ => inferInstanceAs (Decidable (∀ term ∈ s.revealed, term ≤ 0))
  | _, .boot | _, .crash _ | _, .crashSaving => isTrue trivial

/-- A start on what the disk holds, up to the point where everything runs. -/
def startUp : List Event :=
  [.boot, .work .readRaftState, .work .readPersist, .work .readSnapshot, .work .quickApply]

/-- A message of leader 1 to a log without entries. -/
def message (term commit : Int) (entries : List Entry) : Event :=
  .work (.handle (.appendEntries
    { term := term, leaderId := 1, prevLogIndex := 0, prevLogTerm := 0, leaderCommit := commit
      entries := entries }))

/-- The first snapshot message of a new leader of term two. -/
def newLeader : Event :=
  .work (.handle (.installSnapshot
    { term := 2, lastIncludedIndex := 0, lastIncludedTerm := 0, leaderId := 2
      lastIncludedCommand := none, data := [] }))

/-- A candidate of an older term is told the same term before and after a crash. -/
theorem revealed_terms_same :
    ∃ s, Reaches (step entryCodec 0 [1, 2]) WriteAhead { host := .down {} } s ∧
      s.revealed = [2, 2] ∧ s.currentTerm = some 2 ∧ s.Backed := by
  obtain ⟨s, reached, revealed, term⟩ : ∃ s,
      Reaches (step entryCodec 0 [1, 2]) WriteAhead { host := .down {} } s ∧
        s.revealed = [2, 2] ∧ s.currentTerm = some 2 :=
    Library.exists_reaches _
      (startUp ++ [message 2 0 [], .work .save, .work .save, .reply, .crash .idle] ++ startUp ++
        [.work (.handle (.requestVote
          { term := 1, candidateId := some 1, lastLogIndex := 0, lastLogTerm := 0 })), .reply])
      (by decide +kernel) (by decide +kernel)
  exact ⟨s, reached, revealed, term, (revealed_terms reached).1⟩

theorem not_backed_of_above {own : Int} (term : Int) (current : s.currentTerm = some own)
    (mem : term ∈ s.revealed) (above : own < term) : ¬ s.Backed := by
  rintro ⟨-, bound⟩
  have here := bound own current term mem
  omega

/-- A node that has answered in term two restarts, and before `startWork` it answers a leader
of term one in term one. A node in term one answers the snapshot message of a new leader
in term two, which it does not save, so that it comes back in term one. And a node that has
answered in term two crashes while it writes the stat file, and comes back in term zero. -/
theorem revealed_terms_go_back :
    (∃ s, Library.Reachable (step entryCodec 0 [1, 2]) { host := .down {} } s ∧
      s.revealed = [1, 2] ∧ ¬ s.Backed) ∧
    (∃ s, Library.Reachable (step entryCodec 0 [1, 2]) { host := .down {} } s ∧
      s.revealed = [2, 1] ∧ s.currentTerm = some 1 ∧ ¬ s.Backed) ∧
    ∃ s, Library.Reachable (step entryCodec 0 [1, 2]) { host := .down {} } s ∧
      s.revealed = [2] ∧ s.currentTerm = some 0 ∧ ¬ s.Backed := by
  refine ⟨?_, ?_, ?_⟩
  · obtain ⟨s, reached, revealed⟩ : ∃ s,
        Library.Reachable (step entryCodec 0 [1, 2]) { host := .down {} } s ∧
          s.revealed = [1, 2] :=
      Library.exists_reachable _
        (startUp ++ [message 2 0 [], .work .save, .work .save, .reply, .crash .idle, .boot,
          message 1 0 [], .reply])
        (by decide +kernel)
    refine ⟨s, reached, revealed, ?_⟩
    rintro ⟨sorted, -⟩
    rw [revealed] at sorted
    exact absurd sorted (by decide)
  · obtain ⟨s, reached, revealed, term⟩ : ∃ s,
        Library.Reachable (step entryCodec 0 [1, 2]) { host := .down {} } s ∧
          s.revealed = [2, 1] ∧ s.currentTerm = some 1 :=
      Library.exists_reachable _
        (startUp ++ [message 1 1 [Saving.entryOf 1 1], .work .save, .work .save, .reply,
          .work .saveLogToDisk, newLeader, .reply, .crash .idle] ++ startUp)
        (by decide +kernel)
    exact ⟨s, reached, revealed, term, not_backed_of_above 2 term
      (by rw [revealed]; exact List.mem_cons_self) (by decide)⟩
  · obtain ⟨s, reached, revealed, term⟩ : ∃ s,
        Library.Reachable (step entryCodec 0 [1, 2]) { host := .down {} } s ∧
          s.revealed = [2] ∧ s.currentTerm = some 0 :=
      Library.exists_reachable _
        (startUp ++ [message 2 0 [], .work .save, .work .save, .reply, message 2 0 [],
          .crashTruncated .save] ++ startUp)
        (by decide +kernel)
    exact ⟨s, reached, revealed, term, not_backed_of_above 2 term
      (by rw [revealed]; exact List.mem_cons_self) (by decide)⟩

end Life

end RaftKv
