import RaftKv.Persister.Crash

/-!
# The lock and the channel of the persister

`Save` fills `entryCh` while it holds `ps.mu`, and the goroutine that empties the
channel needs the lock for every entry it has taken out. Here both are explicit: one
move is one send, one receive, or one section between `Lock` and `Unlock`.

Counting the entry that the writer holds, the channel takes `capacity + 1` entries. A
`Save` that selects more than what is left of this blocks for ever. Without such a call
the moves of the threads are the sections of the persister, of which `Save` is one.
-/

namespace RaftKv

open Library (Reaches enabled_some)
open Raft (Entry SaveArgs)

/-- The thread that holds `ps.mu`; `Save` still has to send some entries. -/
inductive Holder (β : Type) where
  | save (sending : List (Int × β))
  | saveLogToDisk
  deriving DecidableEq

/-- A persister with the lock and the entry that the writer has received. -/
structure Threads (β : Type) where
  ps : Persister β
  mu : Option (Holder β) := none
  received : Option (Int × β) := none
  deriving DecidableEq

/-- A `Save` up to its first send, one send, and its return; a receive of the writer, its
`Lock`, and the section up to `Unlock`; and a section of `saveSnapClock`. -/
inductive Move where
  | save (args : SaveArgs)
  | send
  | saved
  | receive
  | lock
  | write
  | saveSnapClock

namespace Persister

variable {β : Type} {codec : Codec β} {ps ps' : Persister β} {i : Int} {b : β}

/-- The sections of the writer and of the clock leave the channel alone, and so does
`filter`, whatever is in the channel. -/
theorem saveSnapToDisk_entryCh (ps : Persister β) (queue : List (Int × β)) :
    saveSnapToDisk { ps with entryCh := queue } =
      ps.saveSnapToDisk.map ({ · with entryCh := queue }) := by
  rw [saveSnapToDisk, saveSnapToDisk]
  split
  · rfl
  · simp only [truncateFront, saveSnap]
    cases ps.disk.log.truncateFront (min ps.snapshot.lastIndex.toNat ps.disk.log.lastIndex) with
    | none => rfl
    | some log =>
        simp only [Option.map_some, Option.bind_some]
        cases sliceFrom ps.checkSum (ps.snapshot.lastIndex - ps.state.firstIndex + 1) <;> rfl

theorem capacity_of_saveSnapToDisk (h : ps.saveSnapToDisk = some ps') :
    ps'.capacity = ps.capacity ∧ ps'.entryCh = ps.entryCh := by
  obtain ⟨-, rfl⟩ | ⟨-, log, sums, -, -, rfl⟩ := saveSnapToDisk_outcome h
  · exact ⟨rfl, rfl⟩
  · exact ⟨rfl, rfl⟩

theorem capacity_of_makeRoom (h : ps.makeRoom i = some ps') :
    ps'.capacity = ps.capacity ∧ ps'.entryCh = ps.entryCh := by
  obtain ⟨-, saved⟩ | ⟨-, ⟨-, cut⟩ | ⟨-, rfl⟩⟩ := makeRoom_outcome h
  · exact capacity_of_saveSnapToDisk saved
  · obtain ⟨log, -, cut⟩ := Option.bind_eq_some_iff.mp cut
    obtain ⟨sums, -, rfl⟩ := Option.map_eq_some_iff.mp cut
    exact ⟨rfl, rfl⟩
  · exact ⟨rfl, rfl⟩

theorem capacity_writeOrDrop (codec : Codec β) (i : Int) (b : β) (ps : Persister β) :
    (writeOrDrop codec i b ps).capacity = ps.capacity ∧
      (writeOrDrop codec i b ps).entryCh = ps.entryCh := by
  rw [writeOrDrop]
  split
  · exact ⟨rfl, rfl⟩
  · rename_i written
    obtain ⟨log, -, rfl⟩ := Option.map_eq_some_iff.mp written
    exact ⟨rfl, rfl⟩

/-- No section overfills the channel. -/
theorem turn_room {a : Section} (h : ps.turn codec (.run a) = some ps')
    (room : ps.entryCh.length ≤ ps.capacity + 1) :
    ps'.capacity = ps.capacity ∧ ps'.entryCh.length ≤ ps'.capacity + 1 := by
  cases a with
  | save args =>
      obtain ⟨entries, -, h⟩ := Option.bind_eq_some_iff.mp h
      obtain ⟨fits, ⟨⟩⟩ := Option.ite_none_right_eq_some.mp h
      refine ⟨rfl, ?_⟩
      rw [List.length_append]
      exact fits
  | saveLogToDisk =>
      rw [turn, saveLogToDisk] at h
      split at h
      · cases h
      · rename_i index b rest queue
        obtain ⟨mid, hroom, rfl⟩ := Option.map_eq_some_iff.mp h
        obtain ⟨hcap, hch⟩ := capacity_of_makeRoom hroom
        obtain ⟨hcap', hch'⟩ := capacity_writeOrDrop codec index b mid
        rw [queue, List.length_cons] at room
        rw [hcap', hch', hcap, hch]
        exact ⟨rfl, Nat.le_of_succ_le room⟩
  | saveSnapClock =>
      obtain ⟨hcap, hch⟩ := capacity_of_saveSnapToDisk h
      rw [hcap, hch]
      exact ⟨rfl, room⟩

end Persister

namespace Threads

variable {β : Type} (codec : Codec β)

/-- A move is `none` while it has to wait. -/
def step (s : Threads β) : Move → Option (Threads β)
  | .save args =>
      match s.mu with
      | none =>
          (Persister.filter codec (s.ps.remember args) args.lastIncludeIndex args.logs).map
            fun entries => { s with ps := s.ps.remember args, mu := some (.save entries) }
      | some _ => none
  | .send =>
      match s.mu with
      | some (.save (p :: rest)) =>
          if s.ps.entryCh.length < s.ps.capacity then
            some { s with
              ps := { s.ps with entryCh := s.ps.entryCh ++ [p] }, mu := some (.save rest) }
          else none
      | _ => none
  | .saved =>
      match s.mu with
      | some (.save []) => some { s with mu := none }
      | _ => none
  | .receive =>
      match s.received, s.ps.entryCh with
      | none, p :: rest => some { s with ps := { s.ps with entryCh := rest }, received := some p }
      | _, _ => none
  | .lock =>
      match s.mu, s.received with
      | none, some _ => some { s with mu := some .saveLogToDisk }
      | _, _ => none
  | .write =>
      match s.mu, s.received with
      | some .saveLogToDisk, some (index, b) =>
          (s.ps.makeRoom index).map fun ps => { ps := Persister.writeOrDrop codec index b ps }
      | _, _ => none
  | .saveSnapClock =>
      match s.mu with
      | none => s.ps.saveSnapToDisk.map fun ps => { s with ps := ps }
      | some _ => none

/-- `Save` waits for room in the channel and holds the lock that the writer waits for. -/
def Deadlocked (s : Threads β) : Prop :=
  ∃ p rest, s.mu = some (.save (p :: rest)) ∧ s.ps.capacity ≤ s.ps.entryCh.length ∧
    s.received.isSome

/-- What a `Save` that holds the lock still has to send. -/
def sending (s : Threads β) : List (Int × β) :=
  match s.mu with
  | some (.save rest) => rest
  | _ => []

/-- Everything on its way to the log, in order. -/
def queue (s : Threads β) : List (Int × β) := s.received.toList ++ s.ps.entryCh ++ s.sending

/-- A `Save` selects no more entries than the channel and the writer can take. -/
def Roomy (s : Threads β) : Move → Prop
  | .save args =>
      ∀ entries ∈ Persister.filter codec (s.ps.remember args) args.lastIncludeIndex args.logs,
        s.queue.length + entries.length ≤ s.ps.capacity + 1
  | .send | .saved | .receive | .lock | .write | .saveSnapClock => True

variable {codec} {s t u : Threads β}

/-- No thread can move in a deadlock. -/
theorem Deadlocked.stuck (h : s.Deadlocked) (m : Move) : s.step codec m = none := by
  obtain ⟨p, rest, hmu, full, holds⟩ := h
  obtain ⟨q, hq⟩ := Option.isSome_iff_exists.mp holds
  cases m with
  | save | saved | lock | saveSnapClock => simp [step, hmu]
  | send =>
      rw [step, hmu]
      exact if_neg (Nat.not_lt.mpr full)
  | receive => simp [step, hq]
  | write => simp [step, hmu]

/-! ### The sections behind the moves -/

/-- The persister as the other threads will find it. -/
def merged (s : Threads β) : Persister β := { s.ps with entryCh := s.queue }

/-- A move does not change what is on its way, or it is a section of the persister. -/
theorem step_merged {m : Move} (roomy : s.Roomy codec m) (hstep : s.step codec m = some t) :
    t.merged = s.merged ∨ ∃ a, s.merged.turn codec (.run a) = some t.merged := by
  cases m with
  | save args =>
      rw [step] at hstep
      split at hstep
      · rename_i hmu
        obtain ⟨entries, hentries, rfl⟩ := Option.map_eq_some_iff.mp hstep
        have roomy := roomy entries hentries
        have selected : Persister.filter codec (s.merged.remember args) args.lastIncludeIndex
            args.logs = some entries := by
          rw [← hentries]
          refine Persister.filter_congr ?_ ?_ _ _ <;> rfl
        refine .inr ⟨.save args, ?_⟩
        rw [Persister.turn, Persister.save, selected]
        refine (if_pos roomy).trans ?_
        simp [merged, queue, sending, hmu, Persister.remember, Persister.saveState]
      · cases hstep
  | send =>
      rw [step] at hstep
      split at hstep
      · rename_i p rest hmu
        obtain ⟨-, rfl⟩ := enabled_some.mp hstep
        exact .inl (by simp [merged, queue, sending, hmu])
      · cases hstep
  | saved =>
      rw [step] at hstep
      split at hstep
      · rename_i hmu
        cases hstep
        exact .inl (by simp [merged, queue, sending, hmu])
      · cases hstep
  | receive =>
      rw [step] at hstep
      split at hstep
      · rename_i p rest hreceived hq
        cases hstep
        exact .inl (by simp [merged, queue, sending, hreceived, hq])
      · cases hstep
  | lock =>
      rw [step] at hstep
      split at hstep
      · rename_i hmu hreceived
        cases hstep
        exact .inl (by simp [merged, queue, sending, hmu])
      · cases hstep
  | write =>
      rw [step] at hstep
      split at hstep
      · rename_i index b hmu hreceived
        obtain ⟨ps, hroom, rfl⟩ := Option.map_eq_some_iff.mp hstep
        have waiting : s.merged.entryCh = (index, b) :: s.ps.entryCh := by
          simp [merged, queue, sending, hmu, hreceived]
        refine .inr ⟨.saveLogToDisk, ?_⟩
        rw [Persister.turn, Persister.saveLogToDisk, waiting]
        change (s.ps.makeRoom index).map _ = _
        rw [hroom, Option.map_some]
        simp [merged, queue, sending]
      · cases hstep
  | saveSnapClock =>
      rw [step] at hstep
      split at hstep
      · rename_i hmu
        obtain ⟨ps, hsave, rfl⟩ := Option.map_eq_some_iff.mp hstep
        refine .inr ⟨.saveSnapClock, ?_⟩
        rw [Persister.turn, merged, Persister.saveSnapToDisk_entryCh, hsave, Option.map_some]
        obtain ⟨-, hch⟩ := Persister.capacity_of_saveSnapToDisk hsave
        simp [merged, queue, sending, hmu, hch]
      · cases hstep

/-! ### The channel -/

/-- The channel is not overfull, and what is on its way fits in with the writer's help. -/
structure Inv (s : Threads β) : Prop where
  capacity : 0 < s.ps.capacity
  bounded : s.ps.entryCh.length ≤ s.ps.capacity
  room : s.queue.length ≤ s.ps.capacity + 1

theorem inv_start {disk : Disk β} {ps : Persister β}
    (loaded : Persister.initFromDisk codec disk = some ps) : Inv ({ ps := ps } : Threads β) := by
  obtain ⟨capacity, empty⟩ : 0 < ps.capacity ∧ ps.entryCh = [] := by
    rw [Persister.initFromDisk] at loaded
    split at loaded
    · cases loaded
      exact ⟨by dsimp only; omega, rfl⟩
    · obtain ⟨bs, -, rfl⟩ := Option.map_eq_some_iff.mp loaded
      exact ⟨by dsimp only; omega, rfl⟩
  exact ⟨capacity, by simp [empty], by simp [queue, sending, empty]⟩

theorem queue_length (s : Threads β) :
    s.queue.length = s.received.toList.length + s.ps.entryCh.length + s.sending.length := by
  simp [queue, Nat.add_assoc]

theorem Inv.not_deadlocked (h : s.Inv) : ¬ s.Deadlocked := by
  rintro ⟨p, rest, hmu, full, holds⟩
  obtain ⟨q, hq⟩ := Option.isSome_iff_exists.mp holds
  have room := h.room
  rw [queue_length, sending, hmu, hq] at room
  simp at room
  omega

/-- Only `send` adds to the channel, and it waits for room. -/
theorem step_bounded {m : Move} (bounded : s.ps.entryCh.length ≤ s.ps.capacity)
    (hstep : s.step codec m = some t) : t.ps.entryCh.length ≤ t.ps.capacity := by
  cases m with
  | save args =>
      rw [step] at hstep
      split at hstep
      · obtain ⟨_, -, rfl⟩ := Option.map_eq_some_iff.mp hstep
        exact bounded
      · cases hstep
  | send =>
      rw [step] at hstep
      split at hstep
      · obtain ⟨free, ⟨⟩⟩ := Option.ite_none_right_eq_some.mp hstep
        rw [List.length_append]
        exact free
      · cases hstep
  | saved | lock =>
      rw [step] at hstep
      split at hstep
      · cases hstep
        exact bounded
      · cases hstep
  | receive =>
      rw [step] at hstep
      split at hstep
      · rename_i p rest _ hq
        cases hstep
        rw [hq] at bounded
        exact Nat.le_of_succ_le bounded
      · cases hstep
  | write =>
      rw [step] at hstep
      split at hstep
      · rename_i index b _ _
        obtain ⟨ps, hroom, rfl⟩ := Option.map_eq_some_iff.mp hstep
        obtain ⟨hcap, hch⟩ := Persister.capacity_of_makeRoom hroom
        obtain ⟨hcap', hch'⟩ := Persister.capacity_writeOrDrop codec index b ps
        rw [hcap', hcap, hch', hch]
        exact bounded
      · cases hstep
  | saveSnapClock =>
      rw [step] at hstep
      split at hstep
      · obtain ⟨ps, hsave, rfl⟩ := Option.map_eq_some_iff.mp hstep
        obtain ⟨hcap, hch⟩ := Persister.capacity_of_saveSnapToDisk hsave
        rw [hcap, hch]
        exact bounded
      · cases hstep

/-- A `Save` that finds room leaves room for what others have sent. -/
theorem Inv.step {m : Move} (h : s.Inv) (roomy : s.Roomy codec m)
    (hstep : s.step codec m = some t) : t.Inv := by
  have bounded := step_bounded h.bounded hstep
  rcases step_merged roomy hstep with same | ⟨a, turn⟩
  · have capacity : t.merged.capacity = s.merged.capacity := by rw [same]
    have room : t.merged.entryCh.length ≤ t.merged.capacity + 1 := by
      rw [same]
      exact h.room
    exact ⟨Nat.lt_of_lt_of_eq h.capacity capacity.symm, bounded, room⟩
  · obtain ⟨capacity, room⟩ := Persister.turn_room turn h.room
    exact ⟨Nat.lt_of_lt_of_eq h.capacity capacity.symm, bounded, room⟩

/-! ### Which calls of `Save` block -/

/-- As long as the lock is held; a `Save` that holds it has not returned. -/
def Held (s : Threads β) (_ : Move) : Prop := s.mu ≠ none

theorem Inv.of_held {m : Move} (h : s.Inv) (held : s.Held m)
    (hstep : s.step codec m = some t) : t.Inv := by
  refine h.step ?_ hstep
  cases m with
  | save args =>
      obtain ⟨holder, hmu⟩ := Option.ne_none_iff_exists'.mp held
      simp [Threads.step, hmu] at hstep
  | send | saved | receive | lock | write | saveSnapClock => trivial

theorem step_send {ps : Persister β} {p : Int × β} {rest : List (Int × β)}
    {received : Option (Int × β)} (free : ps.entryCh.length < ps.capacity) :
    step codec ⟨ps, some (.save (p :: rest)), received⟩ .send =
      some ⟨{ ps with entryCh := ps.entryCh ++ [p] }, some (.save rest), received⟩ :=
  if_pos free

/-- If too much is on its way, sending goes on until the channel is full and the writer
holds an entry. -/
theorem exists_deadlock {ps : Persister β} {received : Option (Int × β)} {rest : List (Int × β)}
    (capacity : 0 < ps.capacity) (bounded : ps.entryCh.length ≤ ps.capacity)
    (excess : ps.capacity + 1 < received.toList.length + ps.entryCh.length + rest.length) :
    ∃ v, Reaches (step codec) Held ⟨ps, some (.save rest), received⟩ v ∧ v.Deadlocked := by
  induction rest generalizing ps received with
  | nil =>
      have one : received.toList.length ≤ 1 := by cases received <;> simp
      rw [List.length_nil] at excess
      omega
  | cons p rest ih =>
      rw [List.length_cons] at excess
      by_cases free : ps.entryCh.length < ps.capacity
      · -- there is room for the next entry
        obtain ⟨v, reached, deadlocked⟩ :=
          @ih { ps with entryCh := ps.entryCh ++ [p] } received capacity
            (by simpa using Nat.succ_le_of_lt free) (by simp; omega)
        exact ⟨v, (Reaches.tail .refl nofun (step_send free)).trans reached, deadlocked⟩
      · cases received with
        | some q => exact ⟨_, .refl, p, rest, rfl, Nat.not_lt.mp free, rfl⟩
        | none =>
            -- the writer takes the oldest entry, which makes room for one more
            obtain ⟨q, more, hq⟩ := List.exists_cons_of_length_pos (Nat.lt_of_lt_of_le capacity
              (Nat.not_lt.mp free))
            rw [hq, List.length_cons] at bounded excess
            have receive : step codec ⟨ps, some (.save (p :: rest)), none⟩ .receive =
                some ⟨{ ps with entryCh := more }, some (.save (p :: rest)), some q⟩ := by
              rw [step, hq]
            obtain ⟨v, reached, deadlocked⟩ :=
              @ih { ps with entryCh := more ++ [p] } (some q) capacity (by simpa using bounded)
                (by simp at excess ⊢; omega)
            have free : ({ ps with entryCh := more } : Persister β).entryCh.length <
                ps.capacity := bounded
            exact ⟨v, ((Reaches.tail .refl nofun receive).tail nofun (step_send free)).trans reached,
              deadlocked⟩

/-- In every run from a recovered disk in which every `Save` finds room for what it
selects, `Save` and the writer never wait for each other. A `Save` that does not find
room can be led into the deadlock. -/
theorem save_never_deadlocks {disk : Disk β} {ps : Persister β}
    (loaded : Persister.initFromDisk codec disk = some ps)
    (reached : Reaches (step codec) (Roomy codec) { ps := ps } t) :
    ¬ t.Deadlocked ∧ ∀ args u, t.step codec (.save args) = some u →
      ((∀ v, Reaches (step codec) Held u v → ¬ v.Deadlocked) ↔ t.Roomy codec (.save args)) := by
  have inv : t.Inv := reached.invariant (inv_start loaded) fun _ _ _ _ h => h.step
  refine ⟨inv.not_deadlocked, fun args u hsave => ⟨?_, ?_⟩⟩
  · intro free entries hentries
    by_contra excess
    rw [step] at hsave
    split at hsave
    · rename_i hmu
      rw [hentries] at hsave
      cases hsave
      rw [queue_length, sending, hmu] at excess
      obtain ⟨v, reached, deadlocked⟩ : ∃ v, Reaches (step codec) Held
          ⟨t.ps.remember args, some (.save entries), t.received⟩ v ∧ v.Deadlocked :=
        exists_deadlock inv.capacity inv.bounded (Nat.not_le.mp excess)
      exact free v reached deadlocked
    · cases hsave
  · intro roomy v reached
    refine Inv.not_deadlocked (reached.invariant (inv.step roomy hsave) ?_)
    intro _ _ _ _ h held hstep
    exact h.of_held held hstep

instance [DecidableEq β] (s : Threads β) : ∀ m, Decidable (s.Roomy codec m)
  | .save _ => inferInstanceAs (Decidable (∀ entries ∈ _, _))
  | .send | .saved | .receive | .lock | .write | .saveSnapClock => isTrue trivial

/-- A call with entries that all have the same command, on a log without a snapshot. -/
def saveMany (count : Nat) : SaveArgs :=
  { snapshot := [], votedFor := none, currentTerm := 1
    logs := List.replicate count (Saving.entryOf 1 1)
    lastIncludeIndex := 0, lastTerm := 0, commitIndex := 0 }

/-- An entry is sent while the writer already waits for the lock with another one. -/
theorem save_never_deadlocks_two :
    ∃ t, Reaches (step entryCodec) (Roomy entryCodec) { ps := (Saving.start entryCodec).ps } t ∧
      (t.received.isSome ∧ t.mu = some (.save []) ∧ t.ps.entryCh.length = 1) ∧
      ¬ t.Deadlocked := by
  obtain ⟨t, reached, holds⟩ : ∃ t,
      Reaches (step entryCodec) (Roomy entryCodec) { ps := (Saving.start entryCodec).ps } t ∧
        (t.received.isSome ∧ t.mu = some (.save []) ∧ t.ps.entryCh.length = 1) :=
    Library.exists_reaches _ [.save (saveMany 2), .send, .receive, .send]
      (by decide +kernel) (by decide +kernel)
  exact ⟨t, reached, holds,
    (save_never_deadlocks (Saving.initFromDisk_start entryCodec) reached).1⟩

/-- On an empty disk the channel has room for 100 entries. A `Save` of 102 blocks when
the writer has taken the first one, and no thread can move any more. -/
theorem save_blocks_for_ever :
    ∃ t, Library.Reachable (step entryCodec) { ps := (Saving.start entryCodec).ps } t ∧
      t.Deadlocked ∧ ∀ m, t.step entryCodec m = none := by
  obtain ⟨u, hsave, entries, hu, count⟩ : ∃ u,
      step entryCodec { ps := (Saving.start entryCodec).ps } (.save (saveMany 102)) = some u ∧
        ∃ entries, u = ⟨(Saving.start entryCodec).ps.remember (saveMany 102),
          some (.save entries), none⟩ ∧ entries.length = 102 :=
    ⟨_, rfl, _, rfl, by decide +kernel⟩
  subst hu
  obtain ⟨t, reached, deadlocked⟩ : ∃ t, Reaches (step entryCodec) Held
      ⟨(Saving.start entryCodec).ps.remember (saveMany 102), some (.save entries), none⟩ t ∧
        t.Deadlocked := by
    refine exists_deadlock (by decide) (by decide) ?_
    rw [count]
    decide
  refine ⟨t, ?_, deadlocked, deadlocked.stuck⟩
  exact (Reaches.tail .refl trivial hsave).trans (reached.mono fun _ _ _ => trivial)

end Threads

end RaftKv
