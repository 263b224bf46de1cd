import RaftKv.Library.Run
import RaftKv.Server.KVServer

/-!
# Repeated commands

A clerk that gets no answer sends its operation again, possibly through another
leader, and then the committed log has it more than once. A replica that consumes
such a log should execute the first occurrence and skip the others.

Skipping works through `history`, which `ApplyHandler` writes only for operations
that are in `incrMapLogIdx` with the term of their entry: those that this very
replica has started, if `handleOpQue` was quick enough to say so. `Registered` asks
this of every operation that will come again. Otherwise the second occurrence is
executed as well, and replicas that have consumed the same log differ.
-/

namespace RaftKv.Server

open RaftKv.Raft (Bytes Op ApplyMsg)
open Library

/-- What identifies an operation across retries. -/
def key (op : Op) : Int32 × UInt64 := (op.clerkId, op.incrId)

/-- The first occurrences, in order. -/
def withoutRepeats (ops : List Op) : List Op :=
  ops.foldl (fun firsts op => if key op ∈ firsts.map key then firsts else firsts ++ [op]) []

/-- The database after executing the operations in order. -/
def executeAll (ops : List Op) : DB := ops.foldl execute ∅

/-- The distinct `IncrId`s of each clerk appear in increasing order. -/
def FirstsIncrease (ops : List Op) : Prop :=
  (withoutRepeats ops).Pairwise fun a b => a.clerkId = b.clerkId → a.incrId < b.incrId

instance (ops : List Op) : Decidable (FirstsIncrease ops) := by
  unfold FirstsIncrease
  infer_instance

theorem withoutRepeats_concat (ops : List Op) (op : Op) :
    withoutRepeats (ops ++ [op]) =
      if key op ∈ (withoutRepeats ops).map key then withoutRepeats ops
      else withoutRepeats ops ++ [op] := by
  simp [withoutRepeats, List.foldl_append]

theorem prefix_withoutRepeats (ops rest : List Op) :
    withoutRepeats ops <+: withoutRepeats (ops ++ rest) := by
  induction rest using List.reverseRecOn with
  | nil => rw [List.append_nil]
  | append_singleton rest op ih =>
      rw [← List.append_assoc, withoutRepeats_concat]
      split
      · exact ih
      · exact ih.trans (List.prefix_append _ _)

/-- Nothing but repetitions is dropped. -/
theorem mem_withoutRepeats_key {ops : List Op} {k : Int32 × UInt64} :
    k ∈ (withoutRepeats ops).map key ↔ k ∈ ops.map key := by
  induction ops using List.reverseRecOn with
  | nil => rfl
  | append_singleton ops op ih =>
      rw [withoutRepeats_concat]
      split
      · rename_i hold
        rw [ih, List.map_append, List.mem_append, List.map_singleton, List.mem_singleton]
        constructor
        · exact .inl
        · rintro (hk | rfl)
          · exact hk
          · exact ih.mp hold
      · rw [List.map_append, List.map_append, List.mem_append, List.mem_append, ih]

/-! ## A replica that consumes a committed log -/

/-- A server, and how many committed commands it has consumed. -/
structure Replica where
  kv : KVServer
  consumed : Nat := 0

/-- The message for the command at position `i` of the committed log. -/
def commandMsg (i : Nat) (entry : Int × Op) : ApplyMsg :=
  { commandValid := true, command := some entry.2, commandIndex := i + 1, snapshotTerm := entry.1 }

/-- The sections of the three goroutines that touch the shared state. -/
inductive Task where
  | record (incrId : UInt64) (idx : Int)
  | serveRead (readOp : Op) (startIdx : Int)
  | applyHandler

namespace Replica

def step (codec : Labgob) (committed : List (Int × Op)) (r : Replica) : Task → Option Replica
  | .record incrId idx => some { r with kv := r.kv.record incrId idx }
  | .serveRead readOp startIdx =>
      if readOp.optype = opGet then some { r with kv := (r.kv.serveRead readOp startIdx).1 }
      else none
  | .applyHandler =>
      (committed[r.consumed]?).bind fun entry =>
        (r.kv.applyHandler codec (commandMsg r.consumed entry)).map fun result =>
          { kv := result.1, consumed := r.consumed + 1 }

/-- The operations that have been consumed. -/
def done (committed : List (Int × Op)) (r : Replica) : List Op :=
  (committed.take r.consumed).map Prod.snd

/-- The operations that are still to come. -/
def ahead (committed : List (Int × Op)) (r : Replica) : List Op :=
  (committed.drop r.consumed).map Prod.snd

/-- An operation that comes again is, when it is first consumed, on record as started
in the term of its entry. -/
def Registered (committed : List (Int × Op)) (r : Replica) : Task → Prop
  | .applyHandler => ∀ entry ∈ committed[r.consumed]?,
      key entry.2 ∉ (r.done committed).map key →
      key entry.2 ∈ ((committed.drop (r.consumed + 1)).map Prod.snd).map key →
        r.kv.incrMapLogIdx.lookup entry.2.incrId = some entry.1
  | _ => True

/-- A fresh server with any contents of `incrMapLogIdx`. -/
def start (incrMapLogIdx : IncrMap) : Replica := { kv := { incrMapLogIdx := incrMapLogIdx } }

/-- Of every operation that comes again, `history` knows it or a later one. -/
structure Inv (committed : List (Int × Op)) (r : Replica) : Prop where
  applied : r.kv.lastApplied = r.consumed
  db : r.kv.db = executeAll (withoutRepeats (r.done committed))
  known : ∀ c resp, r.kv.history.lookup c = some resp →
    ∃ op ∈ withoutRepeats (r.done committed), op.clerkId = c ∧ op.incrId = resp.incrId
  skips : ∀ op, key op ∈ (r.done committed).map key → key op ∈ (r.ahead committed).map key →
    ∃ resp, r.kv.history.lookup op.clerkId = some resp ∧ op.incrId ≤ resp.incrId

variable {codec : Labgob} {committed : List (Int × Op)} {r r' : Replica}

theorem inv_start (incrMapLogIdx : IncrMap) : Inv committed (start incrMapLogIdx) where
  applied := rfl
  db := rfl
  known c resp h := by simp [start] at h
  skips op h := by simp [start, done] at h

/-- Consuming one command, as a change of the three parts that matter. -/
theorem step_applyHandler (hstep : r.step codec committed .applyHandler = some r')
    (applied : r.kv.lastApplied = r.consumed) :
    ∃ term op, committed[r.consumed]? = some (term, op) ∧
      r'.consumed = r.consumed + 1 ∧
      r'.kv = (r.kv.applyCommand (r.consumed + 1) op term).1 := by
  obtain ⟨⟨term, op⟩, hentry, hstep⟩ := Option.bind_eq_some_iff.mp hstep
  obtain ⟨result, hresult, rfl⟩ := Option.map_eq_some_iff.mp hstep
  refine ⟨term, op, hentry, rfl, ?_⟩
  unfold KVServer.applyHandler commandMsg at hresult
  rw [if_pos rfl, if_neg (by dsimp only; omega)] at hresult
  cases hresult
  rfl

theorem done_succ {term : Int} {op : Op} (hentry : committed[r.consumed]? = some (term, op))
    (hr : r'.consumed = r.consumed + 1) : r'.done committed = r.done committed ++ [op] := by
  unfold done
  rw [hr, List.take_add_one, hentry]
  simp

theorem ahead_eq {term : Int} {op : Op} (hentry : committed[r.consumed]? = some (term, op))
    (hr : r'.consumed = r.consumed + 1) : r.ahead committed = op :: r'.ahead committed := by
  unfold ahead
  obtain ⟨hlt, hget⟩ := List.getElem?_eq_some_iff.mp hentry
  rw [hr, List.drop_eq_getElem_cons hlt, hget]
  rfl

/-- The first occurrence of an operation is always executed. -/
theorem needs_of_first (inv : Inv committed r) {op : Op} {rest : List Op}
    (increase : FirstsIncrease (r.done committed ++ op :: rest))
    (first : key op ∉ (r.done committed).map key) : r.kv.needs op = true := by
  unfold KVServer.needs
  cases hhistory : r.kv.history.lookup op.clerkId with
  | none => rfl
  | some resp =>
      obtain ⟨op', hop', hclerk, hincr⟩ := inv.known _ _ hhistory
      have hfirsts : withoutRepeats (r.done committed) ++ [op] <+:
          withoutRepeats (r.done committed ++ op :: rest) := by
        have hprefix := prefix_withoutRepeats (r.done committed ++ [op]) rest
        rwa [withoutRepeats_concat, if_neg (fun h => first (mem_withoutRepeats_key.mp h)),
          List.append_assoc] at hprefix
      have hpairs := List.Pairwise.sublist hfirsts.sublist increase
      have hlt := (List.pairwise_append.mp hpairs).2.2 op' hop' op (by simp) hclerk
      rw [hincr] at hlt
      exact decide_eq_true hlt

/-- One consumed command. -/
theorem Inv.applyHandler (increase : FirstsIncrease (committed.map Prod.snd))
    (inv : Inv committed r) (registered : Registered committed r .applyHandler)
    (hstep : r.step codec committed .applyHandler = some r') : Inv committed r' := by
  obtain ⟨term, op, hentry, hconsumed, hkv⟩ := step_applyHandler hstep inv.applied
  have hdone := done_succ hentry hconsumed
  have hahead := ahead_eq hentry hconsumed
  have hlast : r'.kv.lastApplied = r'.consumed := by
    rw [hkv, KVServer.applyCommand_lastApplied, hconsumed]
    norm_cast
  have hdb := KVServer.applyCommand_db r.kv (r.consumed + 1) op term
  have hhistory := KVServer.applyCommand_history r.kv (r.consumed + 1) op term
  rw [← hkv] at hdb hhistory
  by_cases hold : key op ∈ (r.done committed).map key
  · -- a repetition: the history already knows it
    obtain ⟨resp, hlookup, hle⟩ := inv.skips op hold (by simp [hahead])
    have hskip : r.kv.needs op = false := by
      unfold KVServer.needs
      rw [hlookup]
      exact decide_eq_false (UInt64.not_lt.mpr hle)
    rw [hskip] at hdb hhistory
    simp only [Bool.false_eq_true, if_false, false_and] at hdb hhistory
    have hsame : withoutRepeats (r'.done committed) = withoutRepeats (r.done committed) := by
      rw [hdone, withoutRepeats_concat, if_pos (mem_withoutRepeats_key.mpr hold)]
    refine ⟨hlast, by rw [hdb, inv.db, hsame], ?_, ?_⟩
    · rw [hhistory, hsame]
      exact inv.known
    · intro op' hin hlater
      rw [hhistory]
      refine inv.skips op' ?_ (by rw [hahead]; exact List.mem_cons_of_mem _ hlater)
      rw [hdone, List.map_append, List.mem_append, List.map_singleton, List.mem_singleton] at hin
      rcases hin with hin | hin
      · exact hin
      · exact hin ▸ hold
  · have hall : r.done committed ++ op :: r'.ahead committed = committed.map Prod.snd := by
      rw [← hahead, done, ahead, ← List.map_append, List.take_append_drop]
    have hneeds : r.kv.needs op = true := needs_of_first inv (hall ▸ increase) hold
    rw [hneeds] at hdb hhistory
    simp only [if_true, true_and] at hdb hhistory
    have hnew : withoutRepeats (r'.done committed) = withoutRepeats (r.done committed) ++ [op] := by
      rw [hdone, withoutRepeats_concat, if_neg (fun h => hold (mem_withoutRepeats_key.mp h))]
    have hincr : (KVServer.answer r.kv.db op).incrId = op.incrId := KVServer.answer_incrId _ _
    refine ⟨hlast, ?_, ?_, ?_⟩
    · rw [hdb, inv.db, hnew, executeAll, executeAll, List.foldl_append]
      rfl
    · intro c resp hlookup
      rw [hnew]
      rw [hkv] at hlookup
      rcases KVServer.applyCommand_recorded hlookup with hold | hthis
      · obtain ⟨op', hop', hrest⟩ := inv.known c resp hold
        exact ⟨op', List.mem_append_left _ hop', hrest⟩
      · exact ⟨op, by simp, hthis⟩
    · intro op' hin hlater
      rw [hhistory]
      rw [hdone, List.map_append, List.mem_append, List.map_singleton, List.mem_singleton] at hin
      rcases hin with hin | hin
      · -- an older operation: a newer record of the same clerk covers it as well
        obtain ⟨resp, hlookup, hle⟩ :=
          inv.skips op' hin (by rw [hahead]; exact List.mem_cons_of_mem _ hlater)
        split
        · by_cases hc : op'.clerkId = op.clerkId
          · rw [hc, Finmap.lookup_insert]
            refine ⟨_, rfl, ?_⟩
            have hlt : resp.incrId < op.incrId := by
              unfold KVServer.needs at hneeds
              rw [← hc, hlookup] at hneeds
              exact of_decide_eq_true hneeds
            rw [hincr]
            exact UInt64.le_trans hle (UInt64.le_of_lt hlt)
          · rw [Finmap.lookup_insert_of_ne _ hc]
            exact ⟨resp, hlookup, hle⟩
        · exact ⟨resp, hlookup, hle⟩
      · have hstarted : r.kv.incrMapLogIdx.lookup op.incrId = some term := by
          refine registered (term, op) hentry hold ?_
          rw [← hconsumed]
          exact hin ▸ hlater
        have hids : op'.clerkId = op.clerkId ∧ op'.incrId = op.incrId := Prod.mk.inj hin
        rw [if_pos hstarted, hids.1, Finmap.lookup_insert]
        exact ⟨_, rfl, by rw [hincr, hids.2]; exact UInt64.le_refl _⟩

theorem Inv.step (increase : FirstsIncrease (committed.map Prod.snd)) {task : Task}
    (inv : Inv committed r) (registered : Registered committed r task)
    (hstep : r.step codec committed task = some r') : Inv committed r' := by
  cases task with
  | record incrId idx =>
      cases hstep
      exact ⟨inv.applied, inv.db, inv.known, inv.skips⟩
  | serveRead readOp startIdx =>
      obtain ⟨hget, rfl⟩ := enabled_some.mp hstep
      have hkv : (r.kv.serveRead readOp startIdx).1.db = r.kv.db ∧
          (r.kv.serveRead readOp startIdx).1.history = r.kv.history ∧
          (r.kv.serveRead readOp startIdx).1.lastApplied = r.kv.lastApplied := by
        unfold KVServer.serveRead KVServer.dbExecute
        split
        · exact ⟨KVServer.execute_get hget, rfl, rfl⟩
        · exact ⟨rfl, rfl, rfl⟩
      obtain ⟨hdb, hhistory, hlast⟩ := hkv
      exact ⟨hlast.trans inv.applied, hdb.trans inv.db, by rw [hhistory]; exact inv.known,
        by rw [hhistory]; exact inv.skips⟩
  | applyHandler => exact inv.applyHandler increase registered hstep

/-- **Exactly-once execution.** A replica whose runs register what comes again has, after
any part of the committed log, the database of its first occurrences; and so have any
two replicas that have consumed the same part. -/
theorem exactly_once (codec : Labgob) {committed : List (Int × Op)}
    (increase : FirstsIncrease (committed.map Prod.snd)) {table : IncrMap} {r : Replica}
    (reached : Reaches (step codec committed) (Registered committed) (start table) r) :
    r.kv.db = executeAll (withoutRepeats ((committed.take r.consumed).map Prod.snd)) ∧
      ∀ (table' : IncrMap) (r' : Replica),
        Reaches (step codec committed) (Registered committed) (start table') r' →
          r'.consumed = r.consumed → r'.kv.db = r.kv.db := by
  have run {table : IncrMap} {r : Replica}
      (reached : Reaches (step codec committed) (Registered committed) (start table) r) :
      Inv committed r :=
    reached.invariant (inv_start table) fun _ _ _ _ inv registered taken =>
      inv.step increase registered taken
  refine ⟨(run reached).db, fun table' r' reached' same => ?_⟩
  rw [(run reached').db, (run reached).db, done, done, same]

instance (committed : List (Int × Op)) (r : Replica) : ∀ task, Decidable (Registered committed r task)
  | .applyHandler => by unfold Registered; infer_instance
  | .record _ _ => .isTrue trivial
  | .serveRead _ _ => .isTrue trivial

/-- An append that is committed in term 1 and, after a retry, again in term 2. -/
def retriedAppend : List (Int × Op) :=
  let op : Op := { optype := opAppend, key := [107], value := [97], clerkId := 1, incrId := 1 }
  [(1, op), (2, op)]

def noCodec : Labgob := { encode := fun _ _ => [], decode := fun _ => none }

theorem exactly_once_started_here :
    ∃ r, Reaches (step noCodec retriedAppend) (Registered retriedAppend) (start ∅) r ∧
      r.consumed = 2 ∧
      r.kv.db = executeAll (withoutRepeats ((retriedAppend.take r.consumed).map Prod.snd)) := by
  obtain ⟨r, reached, hconsumed⟩ :
      ∃ r, Reaches (step noCodec retriedAppend) (Registered retriedAppend) (start ∅) r ∧
        r.consumed = 2 :=
    exists_reaches (fun r : Replica => r.consumed = 2)
      [.record 1 1, .applyHandler, .applyHandler] (by decide +kernel) (by decide +kernel)
  exact ⟨r, reached, hconsumed, (exactly_once noCodec (by decide +kernel) reached).1⟩

/-- A replica that was not the leader executes the retried append twice. The one that
was executes it once. Both have consumed the same two commands. -/
theorem append_executed_twice :
    FirstsIncrease (retriedAppend.map Prod.snd) ∧
      (executeAll (withoutRepeats (retriedAppend.map Prod.snd))).lookup [107] = some [97] ∧
      (∃ r, Reachable (step noCodec retriedAppend) (start ∅) r ∧
        r.consumed = 2 ∧ r.kv.db.lookup [107] = some [97, 97]) ∧
      ∃ r, Reachable (step noCodec retriedAppend) (start ∅) r ∧
        r.consumed = 2 ∧ r.kv.db.lookup [107] = some [97] := by
  refine ⟨by decide +kernel, by decide +kernel, ?_, ?_⟩
  · exact exists_reachable (fun r : Replica => r.consumed = 2 ∧ r.kv.db.lookup [107] = some [97, 97])
      [.applyHandler, .applyHandler] (by decide +kernel)
  · exact exists_reachable (fun r : Replica => r.consumed = 2 ∧ r.kv.db.lookup [107] = some [97])
      [.record 1 1, .applyHandler, .applyHandler] (by decide +kernel)

end Replica

end RaftKv.Server
