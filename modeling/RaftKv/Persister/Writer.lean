import RaftKv.Library.Run
import RaftKv.Persister.Restart

/-!
# The disk writer

`Save` selects entries and queues them; `saveLogToDisk` takes them one by one. Each
side decides against its own view of the log on disk, `filter` when the entries are
queued and the writer when it gets to them.

Without a snapshot the writer is a function on the list of what is on disk: `accept`
says what becomes of the list when one entry is taken from the queue. A run keeps the
promise of `Save` as long as processing the whole queue turns the list on disk into
the log that was saved last, and `Fits` is the condition on a call of `Save` under
which this stays so.
-/

namespace RaftKv

open Library (IndexedLog Reaches enabled_some)
open Raft (Bytes Entry SaveArgs)
open Persister (numbered)

variable {β : Type}

/-! ### The list on disk -/

/-- What the writer makes of the list on disk when it takes the entry of index `i`,
counted from one. It cuts the list before an index that is not the last one, which
is fatal for the first; it appends the next index, and drops everything else. -/
def accept (ys : List β) (i : Int) (b : β) : Option (List β) :=
  if i < ys.length then
    if 1 < i then some (ys.take (i - 1).toNat ++ [b]) else none
  else if i = ys.length + 1 then some (ys ++ [b])
  else some ys

/-- The list on disk after the whole queue. -/
def acceptAll (ys : List β) : List (Int × β) → Option (List β)
  | [] => some ys
  | (i, b) :: rest => (accept ys i b).bind (acceptAll · rest)

theorem acceptAll_append (ys : List β) (queue more : List (Int × β)) :
    acceptAll ys (queue ++ more) = (acceptAll ys queue).bind (acceptAll · more) := by
  induction queue generalizing ys with
  | nil => rfl
  | cons entry queue ih =>
      rw [List.cons_append, acceptAll, acceptAll, Option.bind_assoc]
      exact congrArg _ (funext fun ys => ih ys)

theorem accept_next (ys : List β) (b : β) : accept ys (ys.length + 1) b = some (ys ++ [b]) := by
  rw [accept, if_neg (by omega), if_pos rfl]

theorem accept_last {ys : List β} {i : Int} (h : i = ys.length) (b : β) :
    accept ys i b = some ys := by
  rw [accept, if_neg (by omega), if_neg (by omega)]

theorem accept_inside {ys : List β} {i : Int} (hpos : 1 < i) (h : i < ys.length) (b : β) :
    accept ys i b = some (ys.take (i - 1).toNat ++ [b]) := by
  rw [accept, if_pos h, if_pos hpos]

/-- The writer does not look at what it writes. -/
theorem accept_map {α : Type} (f : α → β) (zs : List α) (i : Int) (e : α) :
    accept (zs.map f) i (f e) = (accept zs i e).map (List.map f) := by
  rw [accept, accept, List.length_map]
  split
  · split <;> simp
  · split <;> simp

theorem mem_of_accept {ys ys' : List β} {i : Int} {b x : β} (h : accept ys i b = some ys')
    (hx : x ∈ ys') : x ∈ ys ∨ x = b := by
  rw [accept] at h
  split at h
  · obtain ⟨-, h⟩ := Option.ite_none_right_eq_some.mp h
    cases h
    exact (List.mem_append.mp hx).imp List.mem_of_mem_take List.mem_singleton.mp
  · split at h
    · cases h
      exact (List.mem_append.mp hx).imp id List.mem_singleton.mp
    · cases h
      exact .inl hx

/-- Entries that carry on where the list ends are all appended. -/
theorem acceptAll_numbered (ys zs : List β) :
    acceptAll ys (numbered (ys.length + 1) zs) = some (ys ++ zs) := by
  induction zs generalizing ys with
  | nil => simp [numbered, acceptAll]
  | cons z zs ih =>
      have step := ih (ys ++ [z])
      rw [List.length_append, List.length_singleton] at step
      rw [numbered, acceptAll, accept_next, Option.bind_some]
      simpa using step

/-- A suffix of `logs`, from position `j` on, fits the log `old` on disk: everything
before it is unchanged, and its first entry carries on behind the old log, or replaces
an entry that is neither the first nor the last, or repeats the last one. -/
structure ExtendsFrom {α : Type} (old logs : List α) (j : Nat) : Prop where
  le : j ≤ logs.length
  kept : logs.take j = old.take j
  fits : j = old.length ∨ (0 < j ∧ j + 1 < old.length ∧ j < logs.length) ∨
    (j + 1 = old.length ∧ logs[j]? = old[j]?)

instance {α : Type} [DecidableEq α] (old logs : List α) (j : Nat) :
    Decidable (ExtendsFrom old logs j) :=
  decidable_of_iff (_ ∧ _ ∧ _)
    ⟨fun ⟨le, kept, fits⟩ => ⟨le, kept, fits⟩, fun ⟨le, kept, fits⟩ => ⟨le, kept, fits⟩⟩

/-- Queueing a fitting suffix leads from the old log to the new one. -/
theorem ExtendsFrom.acceptAll {old logs : List β} {j : Nat} (h : ExtendsFrom old logs j) :
    acceptAll old (numbered (j + 1) (logs.drop j)) = some logs := by
  rcases h.fits with hend | ⟨hpos, hinside, hlt⟩ | ⟨hlast, hsame⟩
  · have appended := acceptAll_numbered old (logs.drop old.length)
    have kept := h.kept
    rw [hend, List.take_length] at kept
    rw [hend, appended]
    conv_rhs => rw [← List.take_append_drop old.length logs, kept]
  · have appended := acceptAll_numbered (logs.take (j + 1)) (logs.drop (j + 1))
    rw [List.length_take, Nat.min_eq_left hlt, List.take_append_drop] at appended
    have position : ((j : Int) + 1 - 1).toNat = j := by omega
    rw [List.drop_eq_getElem_cons hlt, numbered, RaftKv.acceptAll,
      accept_inside (by omega) (by omega), Option.bind_some, position, ← h.kept,
      List.take_append_getElem hlt]
    exact_mod_cast appended
  · have hlt : j < logs.length := by
      have hold : j < old.length := by omega
      rw [List.getElem?_eq_getElem hold] at hsame
      exact (List.getElem?_eq_some_iff.mp hsame).1
    have same : logs.take (j + 1) = old := by
      rw [List.take_add_one, h.kept, hsame, ← List.take_add_one, hlast, List.take_length]
    have appended := acceptAll_numbered old (logs.drop (j + 1))
    rw [List.drop_eq_getElem_cons hlt, numbered, RaftKv.acceptAll,
      accept_last (by omega), Option.bind_some]
    have index : (j : Int) + 1 + 1 = old.length + 1 := by omega
    rw [index, appended]
    conv_rhs => rw [← List.take_append_drop (j + 1) logs, same]

/-- A selection from `logs`: entries with their own indices, counted from one, in
increasing order. -/
structure Selected (logs : List β) (entries : List (Int × β)) : Prop where
  increasing : entries.Pairwise (·.1 < ·.1)
  own : ∀ p ∈ entries, 0 < p.1 ∧ logs[(p.1 - 1).toNat]? = some p.2

namespace Selected

variable {old ys logs : List β} {p : Int × β} {entries rest : List (Int × β)}

theorem le_length (h : Selected logs entries) (hp : p ∈ entries) : p.1 ≤ logs.length := by
  obtain ⟨hpos, here⟩ := h.own p hp
  have := (List.getElem?_eq_some_iff.mp here).1
  omega

theorem tail (h : Selected logs (p :: rest)) :
    Selected logs rest ∧ ∀ q ∈ rest, p.1 < q.1 := by
  obtain ⟨first, others⟩ := List.pairwise_cons.mp h.increasing
  exact ⟨⟨others, fun q hq => h.own q (List.mem_cons_of_mem _ hq)⟩, first⟩

end Selected

/-- Entries that leave a gap behind the list are all dropped. -/
theorem acceptAll_of_gap {ys : List β} {entries : List (Int × β)}
    (gap : ∀ p ∈ entries, (ys.length : Int) + 1 < p.1) : acceptAll ys entries = some ys := by
  induction entries with
  | nil => rfl
  | cons p rest ih =>
      have here := gap p List.mem_cons_self
      rw [acceptAll, accept, if_neg (by omega), if_neg (by omega), Option.bind_some]
      exact ih fun q hq => gap q (List.mem_cons_of_mem _ hq)

/-- A selection from behind the list gives all of `logs` only if it is everything
that `logs` has there. -/
theorem Selected.numbered_of_acceptAll {ys logs : List β} {entries : List (Int × β)}
    (h : Selected logs entries) (behind : ∀ p ∈ entries, (ys.length : Int) < p.1)
    (done : acceptAll ys entries = some logs) :
    entries = numbered (ys.length + 1) (logs.drop ys.length) ∧ logs.take ys.length = ys := by
  suffices complete : entries = numbered (ys.length + 1) (logs.drop ys.length) by
    refine ⟨complete, ?_⟩
    rw [complete, acceptAll_numbered, Option.some.injEq] at done
    rw [← done, List.take_left]
  induction entries generalizing ys with
  | nil =>
      cases done
      simp [numbered]
  | cons p rest ih =>
      obtain ⟨others, increasing⟩ := h.tail
      have here := behind p List.mem_cons_self
      have bound := h.le_length List.mem_cons_self
      rcases Int.lt_or_eq_of_le (Int.add_one_le_of_lt here) with hgap | hnext
      · -- with a gap nothing is written, and the list is too short
        have none_written : acceptAll ys (p :: rest) = some ys := by
          apply acceptAll_of_gap
          intro q hq
          rcases List.mem_cons.mp hq with rfl | hq
          · exact hgap
          · have := increasing q hq
            omega
        rw [none_written, Option.some.injEq] at done
        rw [done] at here
        omega
      · obtain ⟨i, b⟩ := p
        dsimp only at hnext here bound increasing
        subst hnext
        rw [acceptAll, accept_next, Option.bind_some] at done
        have later : ∀ q ∈ rest, ((ys ++ [b]).length : Int) < q.1 := by
          intro q hq
          rw [List.length_append, List.length_singleton]
          exact_mod_cast increasing q hq
        have tail := ih others later done
        obtain ⟨-, value⟩ := h.own _ List.mem_cons_self
        have position : ((ys.length : Int) + 1 - 1).toNat = ys.length := by omega
        rw [position] at value
        obtain ⟨hlt, rfl⟩ := List.getElem?_eq_some_iff.mp value
        rw [List.drop_eq_getElem_cons hlt, numbered, tail, List.length_append,
          List.length_singleton]
        push_cast
        rfl

/-- The converse of `ExtendsFrom.acceptAll`: a selection that leads from the old log to
the new one is a suffix that fits. -/
theorem Selected.extends {old logs : List β} {entries : List (Int × β)}
    (h : Selected logs entries) (done : acceptAll old entries = some logs) :
    ∃ j : Nat, entries = numbered (j + 1) (logs.drop j) ∧ ExtendsFrom old logs j := by
  -- a selection from behind the old log carries on there
  have behind : (∀ p ∈ entries, (old.length : Int) < p.1) →
      ∃ j : Nat, entries = numbered (j + 1) (logs.drop j) ∧ ExtendsFrom old logs j := by
    intro hall
    obtain ⟨complete, kept⟩ := h.numbered_of_acceptAll hall done
    refine ⟨old.length, complete, ?_, by rw [kept, List.take_length], .inl rfl⟩
    rw [← kept, List.length_take]
    omega
  cases entries with
  | nil => exact behind fun p hp => absurd hp List.not_mem_nil
  | cons p rest =>
      obtain ⟨others, increasing⟩ := h.tail
      obtain ⟨i, b⟩ := p
      obtain ⟨hpos, value⟩ := h.own _ List.mem_cons_self
      dsimp only at hpos value increasing
      obtain ⟨j, rfl⟩ : ∃ j : Nat, i = j + 1 := ⟨(i - 1).toNat, by omega⟩
      have position : ((j : Int) + 1 - 1).toNat = j := by omega
      rw [position] at value
      obtain ⟨hlt, rfl⟩ := List.getElem?_eq_some_iff.mp value
      -- the other entries go behind what the first one leaves
      have shape : ∀ ys : List β, ys.length = j + 1 → acceptAll ys rest = some logs →
          ((j : Int) + 1, logs[j]) :: rest = numbered (j + 1) (logs.drop j) ∧
            logs.take (j + 1) = ys := by
        intro ys hys hdone
        have later : ∀ q ∈ rest, (ys.length : Int) < q.1 := by
          intro q hq
          rw [hys]
          exact_mod_cast increasing q hq
        obtain ⟨complete, kept⟩ := others.numbered_of_acceptAll later hdone
        rw [hys] at complete kept
        refine ⟨?_, kept⟩
        rw [List.drop_eq_getElem_cons hlt, numbered, complete]
        push_cast
        rfl
      rw [acceptAll] at done
      rcases Int.lt_trichotomy (j + 1) old.length with hinside | hlast | houtside
      · by_cases hfirst : 1 < (j : Int) + 1
        · rw [accept_inside hfirst hinside, position, Option.bind_some] at done
          obtain ⟨complete, kept⟩ := shape _ (by simp; omega) done
          refine ⟨j, complete, by omega, ?_, .inr (.inl ⟨by omega, by omega, hlt⟩)⟩
          have cut := congrArg (List.take j) kept
          rw [List.take_take, List.take_append_of_le_length (by simp; omega), List.take_take] at cut
          simpa using cut
        · rw [accept, if_pos hinside, if_neg hfirst] at done
          cases done
      · rw [accept_last hlast, Option.bind_some] at done
        obtain ⟨complete, kept⟩ := shape old (by omega) done
        refine ⟨j, complete, by omega, ?_, .inr (.inr ⟨by omega, ?_⟩)⟩
        · rw [← kept, List.take_take, Nat.min_eq_left (Nat.le_succ j)]
        · rw [← kept, List.getElem?_take_of_lt (Nat.lt_succ_self j)]
      · rw [← acceptAll] at done
        apply behind
        intro q hq
        rcases List.mem_cons.mp hq with rfl | hq
        · exact houtside
        · exact Int.lt_trans houtside (increasing q hq)

/-! ### What `Save` selects -/

namespace Persister

variable {codec : Codec β} {ps ps' : Persister β}

/-- What `filter` selects are entries of the saved log under their own indices. -/
theorem mem_numbered {i : Int} {zs : List β} {p : Int × β} (hp : p ∈ numbered i zs) :
    ∃ k : Nat, p.1 = i + k ∧ zs[k]? = some p.2 := by
  induction zs generalizing i with
  | nil => cases hp
  | cons z zs ih =>
      rcases List.mem_cons.mp hp with rfl | hp
      · exact ⟨0, by simp, rfl⟩
      · obtain ⟨k, hk, value⟩ := ih hp
        exact ⟨k + 1, by rw [hk]; push_cast; omega, value⟩

theorem numbered_increasing (i : Int) (zs : List β) :
    (numbered i zs).Pairwise (·.1 < ·.1) := by
  induction zs generalizing i with
  | nil => exact List.Pairwise.nil
  | cons z zs ih =>
      refine List.pairwise_cons.mpr ⟨?_, ih (i + 1)⟩
      intro q hq
      obtain ⟨k, hk, -⟩ := mem_numbered hq
      dsimp only
      omega

/-- Of the persister `filter` reads the state and the checksums. -/
theorem filterFrom_congr (state : ps.state = ps'.state) (sums : ps.checkSum = ps'.checkSum)
    (lastIndex i : Int) (es : List Entry) :
    filterFrom codec ps lastIndex i es = filterFrom codec ps' lastIndex i es := by
  induction es generalizing i with
  | nil => rfl
  | cons e es ih => rw [filterFrom, filterFrom, isNew, isNew, state, sums, ih]

theorem filter_congr (state : ps.state = ps'.state) (sums : ps.checkSum = ps'.checkSum)
    (lastIndex : Int) (logs : List Entry) :
    filter codec ps lastIndex logs = filter codec ps' lastIndex logs := by
  rw [filter, filter, filterFrom_congr state sums, state]

/-- One round of the loop. -/
theorem filterFrom_cons {lastIndex i : Int} {e : Entry} {es : List Entry}
    {target : List (Int × β)} :
    filterFrom codec ps lastIndex i (e :: es) = some target ↔ codec.encodable e = true ∧
      ∃ new more, ps.isNew codec (i + lastIndex + 1) (codec.marshal e) = some new ∧
        filterFrom codec ps lastIndex (i + 1) es = some more ∧
        target = if new then (i + lastIndex + 1, codec.marshal e) :: more else more := by
  simp [filterFrom, Option.bind_eq_some_iff, Option.map_eq_some_iff, @eq_comm _ target]

theorem filterFrom_sublist {lastIndex i : Int} {es : List Entry} {entries : List (Int × β)}
    (h : filterFrom codec ps lastIndex i es = some entries) :
    entries.Sublist (numbered (i + lastIndex + 1) (es.map codec.marshal)) := by
  induction es generalizing i entries with
  | nil =>
      cases h
      exact List.Sublist.slnil
  | cons e es ih =>
      obtain ⟨-, new, more, -, hmore, rfl⟩ := filterFrom_cons.mp h
      have rest := ih hmore
      have index : i + 1 + lastIndex + 1 = i + lastIndex + 1 + 1 := by omega
      rw [index] at rest
      rw [List.map_cons, numbered]
      split
      · exact rest.cons_cons _
      · exact rest.cons _

/-- `filter` selects from a suffix of the saved log. -/
theorem filter_sublist {lastIndex : Int} {logs : List Entry} {entries : List (Int × β)}
    (h : filter codec ps lastIndex logs = some entries) :
    ∃ start : Nat, entries.Sublist
      (numbered (start + lastIndex + 1) ((logs.map codec.marshal).drop start)) := by
  rw [filter] at h
  split at h
  · obtain ⟨-, h⟩ := Option.ite_none_right_eq_some.mp h
    cases h
    exact ⟨0, by simp⟩
  · refine ⟨(max 0 (ps.state.lastCommitIndex - lastIndex)).toNat, ?_⟩
    have := filterFrom_sublist h
    rwa [List.map_drop, ← Int.toNat_of_nonneg (Int.le_max_left 0 _)] at this

theorem filter_selected {logs : List Entry} {entries : List (Int × β)}
    (h : filter codec ps 0 logs = some entries) :
    Selected (logs.map codec.marshal) entries := by
  obtain ⟨start, sublist⟩ := filter_sublist h
  refine ⟨(numbered_increasing _ _).sublist sublist, ?_⟩
  intro p hp
  obtain ⟨k, hk, value⟩ := mem_numbered (sublist.subset hp)
  rw [List.getElem?_drop] at value
  have position : (p.1 - 1).toNat = start + k := by omega
  rw [position]
  exact ⟨by omega, value⟩

/-- The log on disk reaches beyond position `k` of the logs, and the slot of its index has the
checksum of the entry. -/
def Known (codec : Codec β) (ps : Persister β) (k : Nat) (e : Entry) : Prop :=
  (k : Int) < ps.state.lastIndex ∧ indexSlice ps.checkSum (k + 1 - ps.state.firstIndex) =
    some (codec.checksumIEEE (codec.marshal e))

/-- It does not, or there is another checksum. -/
def Unknown (codec : Codec β) (ps : Persister β) (k : Nat) (e : Entry) : Prop :=
  ps.state.lastIndex ≤ k ∨ ∃ sum ∈ indexSlice ps.checkSum (k + 1 - ps.state.firstIndex),
    sum ≠ codec.checksumIEEE (codec.marshal e)

/-- A log without a snapshot is to be written from position `j` on: nothing is on disk, or the
entries from there on are uncommitted and not known, and those before are committed or
known. -/
def WritesFrom (codec : Codec β) (ps : Persister β) (commitIndex : Int) (logs : List Entry)
    (j : Nat) : Prop :=
  if ps.state.lastIndex ≤ 0 then j = 0
  else ∀ k (hk : k < logs.length), (k < j → commitIndex ≤ k → ps.Known codec k logs[k]) ∧
    (j ≤ k → commitIndex ≤ k ∧ ps.Unknown codec k logs[k])

instance (ps : Persister β) (k : Nat) (e : Entry) : Decidable (ps.Known codec k e) :=
  inferInstanceAs (Decidable (_ ∧ _))

instance (ps : Persister β) (k : Nat) (e : Entry) : Decidable (ps.Unknown codec k e) :=
  inferInstanceAs (Decidable (_ ∨ ∃ sum ∈ _, _))

instance (ps : Persister β) (commitIndex : Int) (logs : List Entry) (j : Nat) :
    Decidable (ps.WritesFrom codec commitIndex logs j) := by
  unfold WritesFrom
  infer_instance

theorem isNew_eq_true_iff {k : Nat} {e : Entry} :
    ps.isNew codec (k + 0 + 1) (codec.marshal e) = some true ↔ ps.Unknown codec k e := by
  rw [isNew, Unknown, Int.add_zero]
  by_cases behind : ps.state.lastIndex ≤ k
  · rw [if_pos (by omega)]
    exact ⟨fun _ => .inl behind, fun _ => rfl⟩
  · rw [if_neg (by omega)]
    cases indexSlice ps.checkSum (k + 1 - ps.state.firstIndex) with
    | none => simp [behind]
    | some sum => simp [behind, @eq_comm _ sum]

theorem isNew_eq_false_iff {k : Nat} {e : Entry} :
    ps.isNew codec (k + 0 + 1) (codec.marshal e) = some false ↔ ps.Known codec k e := by
  rw [isNew, Known, Int.add_zero]
  by_cases behind : ps.state.lastIndex ≤ k
  · rw [if_pos (by omega)]
    exact ⟨fun h => absurd h (by decide), fun known => absurd known.1 (by omega)⟩
  · rw [if_neg (by omega)]
    cases indexSlice ps.checkSum (k + 1 - ps.state.firstIndex) with
    | none => simp
    | some sum => simp [Int.not_le.mp behind, @eq_comm _ sum]

theorem filterFrom_encodable {lastIndex i : Int} {es : List Entry} {entries : List (Int × β)}
    (h : filterFrom codec ps lastIndex i es = some entries) : ∀ e ∈ es, codec.encodable e = true := by
  induction es generalizing i entries with
  | nil => exact fun e he => absurd he List.not_mem_nil
  | cons e es ih =>
      obtain ⟨here, new, more, -, hmore, -⟩ := filterFrom_cons.mp h
      exact List.forall_mem_cons.mpr ⟨here, ih hmore⟩

theorem forall_getElem_cons {α : Type} {P : Nat → α → Prop} {x : α} {xs : List α} :
    (∀ k (hk : k < (x :: xs).length), P k (x :: xs)[k]) ↔
      P 0 x ∧ ∀ k (hk : k < xs.length), P (k + 1) xs[k] :=
  Nat.forall_lt_succ_left'

section Loop

variable {lastIndex i : Int} {e : Entry} {es : List Entry} {target : List (Int × β)}

/-- What the loop selects from the rest has larger indices. -/
theorem not_mem_filterFrom (h : filterFrom codec ps lastIndex (i + 1) es = some target) (b : β) :
    (i + lastIndex + 1, b) ∉ target := by
  intro hb
  obtain ⟨k, hk, -⟩ := mem_numbered ((filterFrom_sublist h).subset hb)
  dsimp only at hk
  omega

theorem filterFrom_cons_new (here : codec.encodable e = true) :
    filterFrom codec ps lastIndex i (e :: es) =
        some ((i + lastIndex + 1, codec.marshal e) :: target) ↔
      ps.isNew codec (i + lastIndex + 1) (codec.marshal e) = some true ∧
        filterFrom codec ps lastIndex (i + 1) es = some target := by
  rw [filterFrom_cons]
  constructor
  · rintro ⟨-, new, more, hnew, hmore, same⟩
    cases new with
    | true =>
        cases same
        exact ⟨hnew, hmore⟩
    | false =>
        cases same
        exact absurd List.mem_cons_self (not_mem_filterFrom hmore (codec.marshal e))
  · rintro ⟨hnew, hmore⟩
    exact ⟨here, true, target, hnew, hmore, rfl⟩

theorem filterFrom_cons_known (here : codec.encodable e = true)
    (later : ∀ b, (i + lastIndex + 1, b) ∉ target) :
    filterFrom codec ps lastIndex i (e :: es) = some target ↔
      ps.isNew codec (i + lastIndex + 1) (codec.marshal e) = some false ∧
        filterFrom codec ps lastIndex (i + 1) es = some target := by
  rw [filterFrom_cons]
  constructor
  · rintro ⟨-, new, more, hnew, hmore, rfl⟩
    cases new with
    | true => exact absurd List.mem_cons_self (later (codec.marshal e))
    | false => exact ⟨hnew, hmore⟩
  · rintro ⟨hnew, hmore⟩
    exact ⟨here, false, target, hnew, hmore, rfl⟩

end Loop

/-- The loop selects a suffix exactly if it finds the checksums of the entries before it and
misses those of the others. -/
theorem filterFrom_suffix_iff (ps : Persister β) {es : List Entry}
    (coded : ∀ e ∈ es, codec.encodable e = true) (i : Nat) {j : Nat} (hj : j ≤ es.length) :
    filterFrom codec ps 0 i es = some (numbered (i + j + 1) ((es.map codec.marshal).drop j)) ↔
      ∀ k (hk : k < es.length), (k < j → ps.Known codec (i + k) es[k]) ∧
        (j ≤ k → ps.Unknown codec (i + k) es[k]) := by
  induction es generalizing i j with
  | nil => simp [filterFrom, numbered]
  | cons e es ih =>
      obtain ⟨here, rest⟩ := List.forall_mem_cons.mp coded
      have shift (k : Nat) : i + 1 + k = i + (k + 1) := by omega
      cases j with
      | zero =>
          have tail := ih rest (i + 1) (Nat.zero_le es.length)
          simp only [shift] at tail
          have target : numbered ((i : Int) + (0 : Nat) + 1) (((e :: es).map codec.marshal).drop 0) =
              ((i : Int) + 0 + 1, codec.marshal e) ::
                numbered (((i + 1 : Nat) : Int) + (0 : Nat) + 1) ((es.map codec.marshal).drop 0) := by
            simp [numbered]
          rw [target, filterFrom_cons_new here, isNew_eq_true_iff, ← Int.natCast_succ, tail,
            forall_getElem_cons (P := fun k e => (k < 0 → ps.Known codec (i + k) e) ∧
              (0 ≤ k → ps.Unknown codec (i + k) e))]
          simp
      | succ j =>
          have tail := ih rest (i + 1) (Nat.le_of_succ_le_succ hj)
          simp only [shift] at tail
          have later : ∀ b, ((i : Int) + 0 + 1, b) ∉
              numbered (((i + 1 : Nat) : Int) + j + 1) ((es.map codec.marshal).drop j) := by
            intro b hb
            obtain ⟨k, hk, -⟩ := mem_numbered hb
            dsimp only at hk
            omega
          have target : numbered ((i : Int) + (j + 1 : Nat) + 1)
              (((e :: es).map codec.marshal).drop (j + 1)) =
                numbered (((i + 1 : Nat) : Int) + j + 1) ((es.map codec.marshal).drop j) := by
            rw [List.map_cons, List.drop_succ_cons]
            exact congrArg (numbered · _) (by omega)
          rw [target, filterFrom_cons_known here later, isNew_eq_false_iff, ← Int.natCast_succ, tail,
            forall_getElem_cons (P := fun k e => (k < j + 1 → ps.Known codec (i + k) e) ∧
              (j + 1 ≤ k → ps.Unknown codec (i + k) e))]
          simp

theorem length_numbered (i : Int) (zs : List β) : (numbered i zs).length = zs.length := by
  induction zs generalizing i with
  | nil => rfl
  | cons z zs ih => rw [numbered, List.length_cons, List.length_cons, ih]

/-- `filter` selects the suffix that is to be written. -/
theorem filter_suffix_iff (ps : Persister β) {logs : List Entry}
    (coded : ∀ e ∈ logs, codec.encodable e = true) {j : Nat} (hj : j ≤ logs.length) :
    filter codec ps 0 logs = some (numbered (j + 1) ((logs.map codec.marshal).drop j)) ↔
      ps.WritesFrom codec ps.state.lastCommitIndex logs j := by
  rw [filter, WritesFrom]
  by_cases nothing : ps.state.lastIndex ≤ 0
  · rw [if_pos nothing, if_pos nothing, if_pos (List.all_eq_true.mpr coded), Option.some.injEq]
    constructor
    · intro same
      have := congrArg List.length same
      rw [length_numbered, length_numbered, List.length_drop, List.length_map] at this
      omega
    · rintro rfl
      rfl
  rw [if_neg nothing, if_neg nothing, Int.sub_zero]
  obtain ⟨start, hstart⟩ : ∃ start : Nat, max 0 ps.state.lastCommitIndex = start :=
    ⟨_, (Int.toNat_of_nonneg (Int.le_max_left 0 _)).symm⟩
  dsimp only
  rw [hstart, Int.toNat_natCast]
  by_cases reached : start ≤ j
  · -- the loop decides about everything from `start` on
    obtain ⟨m, rfl⟩ := Nat.exists_eq_add_of_le reached
    have rest : ∀ e ∈ logs.drop start, codec.encodable e = true :=
      fun e he => coded e (List.mem_of_mem_drop he)
    have loop := filterFrom_suffix_iff ps rest start (j := m) (by rw [List.length_drop]; omega)
    rw [List.map_drop, List.drop_drop] at loop
    push_cast
    rw [loop]
    constructor
    · intro all k hk
      by_cases looked : start ≤ k
      · have here := all (k - start) (by rw [List.length_drop]; omega)
        simp only [List.getElem_drop, Nat.add_sub_cancel' looked] at here
        exact ⟨fun _ _ => here.1 (by omega), fun _ => ⟨by omega, here.2 (by omega)⟩⟩
      · exact ⟨fun _ _ => by omega, fun _ => by omega⟩
    · intro all k hk
      rw [List.length_drop] at hk
      have here := all (start + k) (by omega)
      rw [List.getElem_drop]
      exact ⟨fun before => here.1 (by omega) (by omega), fun behind => (here.2 (by omega)).2⟩
  · by_cases inside : j < logs.length
    · -- a committed entry is not selected
      refine ⟨fun same => ?_, fun all => ?_⟩
      · have mem : ((j : Int) + 1, codec.marshal logs[j]) ∈
            numbered (j + 1) ((logs.map codec.marshal).drop j) := by
          rw [List.drop_eq_getElem_cons (by simpa using inside), numbered, List.getElem_map]
          exact List.mem_cons_self
        obtain ⟨k, hk, -⟩ := mem_numbered ((filterFrom_sublist same).subset mem)
        dsimp only at hk
        omega
      · have := ((all j inside).2 le_rfl).1
        omega
    · rw [List.drop_eq_nil_of_le (show logs.length ≤ start by omega),
        List.drop_eq_nil_of_le (by rw [List.length_map]; omega)]
      refine ⟨fun _ k hk => ⟨fun _ _ => by omega, fun _ => by omega⟩, fun _ => rfl⟩

/-- What `filter` selects are marshalled entries. -/
theorem filter_coded {lastIndex : Int} {logs : List Entry} {entries : List (Int × β)}
    (h : filter codec ps lastIndex logs = some entries) {p : Int × β} (hp : p ∈ entries) :
    ∃ e, codec.encodable e = true ∧ p.2 = codec.marshal e := by
  have coded {i : Int} {es : List Entry} (all : ∀ e ∈ es, codec.encodable e = true)
      (mem : p ∈ numbered i (es.map codec.marshal)) :
      ∃ e, codec.encodable e = true ∧ p.2 = codec.marshal e := by
    obtain ⟨k, -, value⟩ := mem_numbered mem
    obtain ⟨e, he, same⟩ := List.mem_map.mp (List.mem_of_getElem? value)
    exact ⟨e, all e he, same.symm⟩
  rw [filter] at h
  split at h
  · obtain ⟨all, h⟩ := Option.ite_none_right_eq_some.mp h
    cases h
    exact coded (List.all_eq_true.mp all) hp
  · exact coded (filterFrom_encodable h) ((filterFrom_sublist h).subset hp)

/-! ### The writer on that list -/

/-- Between two sections of a persister without a snapshot, `ys` is the list on disk
and the fields agree with it. The table of checksums may be too long: it starts with
sixteen places before the first entry is appended to it. -/
structure Tracks (ps : Persister β) (ys : List β) : Prop where
  first : ps.disk.log.firstIndex = 1
  entries : ps.disk.log.entries = ys
  firstIndex : ps.state.firstIndex = 1
  lastIndex : ps.state.lastIndex = ys.length
  snapshot : ps.snapshot.lastIndex = 0
  lastIdx : ps.lastIdx = 0
  checkSum : ys.length ≤ ps.checkSum.length

/-- What the writer leaves alone: the snapshot files, and all of the state but the last
index. A stat file that is up to date stays so. -/
structure Advances (ps ps' : Persister β) : Prop where
  snap : ps'.disk.snap = ps.disk.snap
  state : ps'.state = { ps.state with lastIndex := ps'.state.lastIndex }
  stat : ps.disk.stat = some (some ps.state) → ps'.disk.stat = some (some ps'.state)

namespace Tracks

variable {ys : List β} {i : Int} {b : β}

theorem log_lastIndex (h : Tracks ps ys) : ps.disk.log.lastIndex = ys.length := by
  rw [IndexedLog.lastIndex, h.first, h.entries]
  omega

theorem read (h : Tracks ps ys) (k : Nat) : ps.disk.log.read (1 + k) = ys[k]? := by
  rw [IndexedLog.read, h.first, h.entries, if_pos (by omega), Nat.add_sub_cancel_left]

/-- The next index is written, and the stat file follows. -/
theorem write (h : Tracks ps ys) (codec : Codec β) (b : β) :
    ∃ ps', ps.write codec (ys.length + 1) b = some ps' ∧ ps'.entryCh = ps.entryCh ∧
      Tracks ps'.saveState (ys ++ [b]) ∧ Advances ps ps'.saveState := by
  have index : ((ys.length : Int) + 1).toNat = ps.disk.log.lastIndex + 1 := by
    rw [h.log_lastIndex]
    omega
  obtain ⟨log, hlog⟩ := (IndexedLog.write_eq_some_iff (x := b)).mpr index
  have written : ps.write codec (ys.length + 1) b = some
      { ps with
        disk := { ps.disk with log := log }
        checkSum := ps.checkSum ++ [codec.checksumIEEE b]
        state := { ps.state with lastIndex := log.lastIndex } } := by
    rw [Persister.write, hlog, Option.map_some]
  refine ⟨_, written, rfl, ?_, ?_⟩
  · refine ⟨?_, ?_, h.firstIndex, ?_, h.snapshot, h.lastIdx, ?_⟩
    · exact (IndexedLog.firstIndex_of_write hlog).trans h.first
    · exact (IndexedLog.entries_of_write hlog).trans (by rw [h.entries])
    · change (log.lastIndex : Int) = _
      rw [IndexedLog.lastIndex_of_write hlog, List.length_append, List.length_singleton]
      omega
    · have := h.checkSum
      simp [saveState]
      omega
  · exact ⟨rfl, rfl, fun _ => rfl⟩

theorem write_eq_none (h : Tracks ps ys) (codec : Codec β) (hpos : 0 < i)
    (hi : i ≠ ys.length + 1) : ps.write codec i b = none := by
  rw [Persister.write, IndexedLog.write_eq_none_iff.mpr, Option.map_none]
  rw [h.log_lastIndex]
  omega

/-- A cut behind the first entry shortens the list and the table alike. -/
theorem truncateBack (h : Tracks ps ys) (hfirst : 1 < i) (hi : i < ys.length) :
    ∃ ps', ps.truncateBack i = some ps' ∧ ps'.entryCh = ps.entryCh ∧
      Tracks ps' (ys.take (i - 1).toNat) ∧ ps'.disk.snap = ps.disk.snap ∧
      ps'.state = { ps.state with lastIndex := ps'.state.lastIndex } := by
  have range : ps.disk.log.firstIndex ≤ (i - 1).toNat ∧
      (i - 1).toNat ≤ ps.disk.log.lastIndex := by
    rw [h.first, h.log_lastIndex]
    omega
  obtain ⟨log, hlog⟩ := IndexedLog.truncateBack_eq_some_iff.mpr range
  have sums := h.checkSum
  have slice : sliceTo ps.checkSum (i - ps.state.firstIndex) =
      some (ps.checkSum.take (i - 1).toNat) := by
    rw [sliceTo, h.firstIndex, if_pos (by omega)]
  have cut : ps.truncateBack i = some
      { ps with
        disk := { ps.disk with log := log }, checkSum := ps.checkSum.take (i - 1).toNat
        state := { ps.state with lastIndex := log.lastIndex } } := by
    rw [Persister.truncateBack, hlog, Option.bind_some, slice, Option.map_some]
  refine ⟨_, cut, rfl, ?_, rfl, rfl⟩
  refine ⟨?_, ?_, h.firstIndex, ?_, h.snapshot, h.lastIdx, ?_⟩
  · exact (IndexedLog.firstIndex_of_truncateBack hlog).trans h.first
  · rw [IndexedLog.entries_of_truncateBack hlog, h.entries, h.first, Nat.add_sub_cancel]
  · change (log.lastIndex : Int) = _
    rw [IndexedLog.lastIndex_of_truncateBack hlog, List.length_take]
    omega
  · simp
    omega

theorem truncateBack_first (h : Tracks ps ys) (hi : i ≤ 1) : ps.truncateBack i = none := by
  have out : ps.disk.log.truncateBack (i - 1).toNat = none := by
    rw [IndexedLog.truncateBack, if_neg]
    rw [h.first]
    omega
  rw [Persister.truncateBack, out, Option.bind_none]

theorem makeRoom_eq (h : Tracks ps ys) :
    ps.makeRoom i = if i < ys.length then ps.truncateBack i else some ps := by
  rw [makeRoom, h.lastIndex, h.snapshot, if_neg (by omega)]

theorem pop (h : Tracks ps ys) (rest : List (Int × β)) :
    Tracks { ps with entryCh := rest } ys :=
  ⟨h.first, h.entries, h.firstIndex, h.lastIndex, h.snapshot, h.lastIdx, h.checkSum⟩

/-- One round of the writer is `accept` on the list on disk. -/
theorem saveLogToDisk (h : Tracks ps ys) (codec : Codec β) {rest : List (Int × β)}
    (hq : ps.entryCh = (i, b) :: rest) (hpos : 0 < i) {ys' : List β}
    (accepted : accept ys i b = some ys') :
    ∃ ps', ps.saveLogToDisk codec = some ps' ∧ ps'.entryCh = rest ∧ Tracks ps' ys' ∧
      Advances ps ps' := by
  have popped := h.pop rest
  have round : ps.saveLogToDisk codec =
      ({ ps with entryCh := rest }.makeRoom i).map (writeOrDrop codec i b) := by
    rw [Persister.saveLogToDisk, hq]
  rw [popped.makeRoom_eq] at round
  rw [accept] at accepted
  by_cases hinside : i < ys.length
  · rw [if_pos hinside] at accepted round
    obtain ⟨hfirst, rfl⟩ := enabled_some.mp accepted
    obtain ⟨cut, hcut, hch, tracks, hsnap, hstate⟩ := popped.truncateBack hfirst hinside
    obtain ⟨new, hnew, hch', tracks', advances⟩ := tracks.write codec b
    have index : ((ys.take (i - 1).toNat).length : Int) + 1 = i := by
      rw [List.length_take]
      omega
    rw [index] at hnew
    rw [hcut, Option.map_some, writeOrDrop, hnew] at round
    refine ⟨_, round, hch'.trans hch, tracks', ?_⟩
    refine ⟨advances.snap.trans hsnap, ?_, fun _ => rfl⟩
    rw [advances.state, hstate]
  · rw [if_neg hinside] at accepted round
    rw [Option.map_some, writeOrDrop] at round
    by_cases hnext : i = ys.length + 1
    · rw [if_pos hnext] at accepted
      cases accepted
      obtain ⟨new, hnew, hch, tracks, advances⟩ := popped.write codec b
      rw [hnext, hnew] at round
      exact ⟨_, round, hch, tracks, advances.snap, advances.state, advances.stat⟩
    · rw [if_neg hnext] at accepted
      cases accepted
      rw [popped.write_eq_none codec hpos hnext] at round
      exact ⟨_, round, rfl, popped, rfl, rfl, id⟩

/-- The writer aborts where `accept` is undefined. -/
theorem saveLogToDisk_eq_none (h : Tracks ps ys) (codec : Codec β) {rest : List (Int × β)}
    (hq : ps.entryCh = (i, b) :: rest) (refused : accept ys i b = none) :
    ps.saveLogToDisk codec = none := by
  have popped := h.pop rest
  rw [accept] at refused
  by_cases hinside : i < ys.length
  · rw [if_pos hinside] at refused
    have hfirst : ¬ 1 < i := by
      intro hfirst
      rw [if_pos hfirst] at refused
      cases refused
    rw [Persister.saveLogToDisk, hq]
    dsimp only
    rw [popped.makeRoom_eq, if_pos hinside, popped.truncateBack_first (by omega), Option.map_none]
  · rw [if_neg hinside] at refused
    split at refused <;> cases refused

end Tracks

end Persister

/-! ### Runs of `Save` and the writer -/

/-- A persister and, as a history variable, the last call of `Save`. -/
structure Saving (β : Type) where
  ps : Persister β
  last : SaveArgs

/-- The sections that take turns on `ps.mu`. -/
inductive Section where
  | save (args : SaveArgs)
  | saveLogToDisk
  | saveSnapClock

namespace ExtendsFrom

variable {α : Type} {old logs : List α} {j : Nat}

theorem map (h : ExtendsFrom old logs j) (f : α → β) : ExtendsFrom (old.map f) (logs.map f) j := by
  refine ⟨by simpa using h.le, by rw [← List.map_take, ← List.map_take, h.kept], ?_⟩
  simp only [List.length_map, List.getElem?_map]
  exact h.fits.imp_right (Or.imp_right (And.imp_right (congrArg _)))

end ExtendsFrom

/-- Entries that can be marshalled are told apart by it. -/
theorem Codec.marshal_inj {codec : Codec β} {es es' : List Entry}
    (coded : ∀ e ∈ es, codec.encodable e = true) (coded' : ∀ e ∈ es', codec.encodable e = true)
    (same : es.map codec.marshal = es'.map codec.marshal) : es = es' := by
  have back := Persister.mapM_unmarshal coded
  rw [same, Persister.mapM_unmarshal coded', Option.some.injEq] at back
  exact back.symm

theorem ExtendsFrom.of_marshal {codec : Codec β} {old logs : List Entry} {j : Nat}
    (coded : ∀ e ∈ old, codec.encodable e = true) (coded' : ∀ e ∈ logs, codec.encodable e = true)
    (h : ExtendsFrom (old.map codec.marshal) (logs.map codec.marshal) j) :
    ExtendsFrom old logs j := by
  have kept := h.kept
  have fits := h.fits
  rw [← List.map_take, ← List.map_take] at kept
  simp only [List.length_map] at fits
  refine ⟨by simpa using h.le, ?_, ?_⟩
  · exact Codec.marshal_inj (fun e he => coded' e (List.mem_of_mem_take he))
      (fun e he => coded e (List.mem_of_mem_take he)) kept
  · refine fits.imp_right (Or.imp_right fun ⟨last, same⟩ => ⟨last, ?_⟩)
    have hold : j < old.length := by omega
    have hlogs : j < logs.length := by
      have there := (List.getElem?_eq_some_iff.mp
        (same.trans (List.getElem?_eq_getElem (by simpa using hold)))).1
      simpa using there
    simp only [List.getElem?_map, List.getElem?_eq_getElem hold, List.getElem?_eq_getElem hlogs,
      Option.map_some, Option.some.injEq] at same ⊢
    have one : [logs[j]] = [old[j]] := Codec.marshal_inj
      (by simpa using coded' _ (List.getElem_mem hlogs)) (by simpa using coded _ (List.getElem_mem hold))
      (by simpa using same)
    exact (List.cons.inj one).1

namespace Saving

variable (codec : Codec β)

def step (s : Saving β) : Section → Option (Saving β)
  | .save args => (s.ps.save codec args).map fun ps => ⟨ps, args⟩
  | .saveLogToDisk => (s.ps.saveLogToDisk codec).map fun ps => ⟨ps, s.last⟩
  | .saveSnapClock => s.ps.saveSnapToDisk.map fun ps => ⟨ps, s.last⟩

/-- A persister on an empty disk, to which nothing has been saved. -/
def start : Saving β :=
  { ps :=
      { disk := { stat := some none }, state := { firstIndex := 1, lastIndex := 0 }
        snapshot := {}, capacity := 100
        checkSum := (List.replicate 16 0).set 0
          (codec.checksumIEEE (codec.marshal { term := 0 })) }
    last :=
      { snapshot := [], votedFor := none, currentTerm := 0, logs := [], lastIncludeIndex := 0
        lastTerm := 0, commitIndex := 0 } }

theorem initFromDisk_start : Persister.initFromDisk codec {} = some (start codec).ps := rfl

/-- The promise of `Save`: the writer can go on, and when it has nothing left to do
the log on disk is the log saved last, at its own indices. -/
def Follows (s : Saving β) : Prop :=
  (s.ps.entryCh ≠ [] → (s.ps.saveLogToDisk codec).isSome) ∧
  (s.ps.entryCh = [] →
    (s.ps.disk.log.lastIndex : Int) = s.last.lastIncludeIndex + s.last.logs.length ∧
    ∀ i (_ : i < s.last.logs.length), codec.encodable s.last.logs[i] = true ∧
      s.ps.disk.log.read (s.last.lastIncludeIndex + 1 + i).toNat =
        some (codec.marshal s.last.logs[i]))

instance [DecidableEq β] (s : Saving β) : Decidable (s.Follows codec) :=
  inferInstanceAs (Decidable ((_ → _) ∧ (_ → _)))

/-- There is no snapshot, the entries can be marshalled, and what is to be written by the
fields of the persister is a suffix of the new log that fits the log saved before. -/
def Fits (s : Saving β) (args : SaveArgs) : Prop :=
  args.lastIncludeIndex = 0 ∧ (∀ e ∈ args.logs, codec.encodable e = true) ∧
    ∃ j < args.logs.length + 1, s.ps.WritesFrom codec args.commitIndex args.logs j ∧
      ExtendsFrom s.last.logs args.logs j

/-- Every call of `Save` fits; the writer and the clock run whenever they like. -/
def Fitting (s : Saving β) : Section → Prop
  | .save args => s.Fits codec args
  | .saveLogToDisk | .saveSnapClock => True

instance (s : Saving β) (args : SaveArgs) : Decidable (s.Fits codec args) :=
  inferInstanceAs (Decidable (_ ∧ _ ∧ ∃ j < args.logs.length + 1, _))

instance (s : Saving β) : ∀ a, Decidable (s.Fitting codec a)
  | .save args => inferInstanceAs (Decidable (s.Fits codec args))
  | .saveLogToDisk | .saveSnapClock => isTrue trivial

/-- Disk and queue hold marshalled entries, and processing the queue turns the list on
disk into the log saved last. -/
structure Inv (s : Saving β) : Prop where
  index : s.last.lastIncludeIndex = 0
  logs : ∀ e ∈ s.last.logs, codec.encodable e = true
  queued : ∀ p ∈ s.ps.entryCh, 0 < p.1 ∧ ∃ e, codec.encodable e = true ∧ p.2 = codec.marshal e
  disk : ∃ zs : List Entry, (∀ e ∈ zs, codec.encodable e = true) ∧
    s.ps.Tracks (zs.map codec.marshal) ∧
    acceptAll (zs.map codec.marshal) s.ps.entryCh = some (s.last.logs.map codec.marshal)

variable {codec} {s t u : Saving β} {args : SaveArgs}

theorem inv_start : (start codec).Inv codec :=
  ⟨rfl, fun _ he => absurd he List.not_mem_nil, fun _ hp => absurd hp List.not_mem_nil, [],
    fun _ he => absurd he List.not_mem_nil, ⟨rfl, rfl, rfl, rfl, rfl, rfl, Nat.zero_le _⟩, rfl⟩

/-- A list on disk that reads as the saved log is the saved log. -/
theorem eq_of_follows {ys : List β} (tracks : s.ps.Tracks ys) (h : s.Follows codec)
    (index : s.last.lastIncludeIndex = 0) (idle : s.ps.entryCh = []) :
    ys = s.last.logs.map codec.marshal ∧ ∀ e ∈ s.last.logs, codec.encodable e = true := by
  obtain ⟨length, reads⟩ := h.2 idle
  rw [tracks.log_lastIndex, index] at length
  refine ⟨?_, fun e he => ?_⟩
  swap
  · obtain ⟨k, hk, rfl⟩ := List.getElem_of_mem he
    exact (reads k hk).1
  apply List.ext_getElem?
  intro k
  by_cases hk : k < s.last.logs.length
  · have here := (reads k hk).2
    have position : (s.last.lastIncludeIndex + 1 + k).toNat = 1 + k := by omega
    rw [position, tracks.read] at here
    rw [here, List.getElem?_map, List.getElem?_eq_getElem hk, Option.map_some]
  · rw [List.getElem?_eq_none (by omega), List.getElem?_eq_none (by simpa using hk)]

theorem Inv.follows (h : s.Inv codec) : s.Follows codec := by
  obtain ⟨index, logs, queued, zs, -, tracks, done⟩ := h
  constructor
  · intro busy
    obtain ⟨⟨i, b⟩, rest, hq⟩ := List.exists_cons_of_ne_nil busy
    rw [hq, acceptAll] at done
    obtain ⟨ys', accepted, -⟩ := Option.bind_eq_some_iff.mp done
    have hpos := (queued (i, b) (by rw [hq]; exact List.mem_cons_self)).1
    obtain ⟨ps', written, -⟩ := tracks.saveLogToDisk codec hq hpos accepted
    rw [written]
    rfl
  · intro idle
    rw [idle, acceptAll, Option.some.injEq] at done
    rw [done] at tracks
    refine ⟨by rw [tracks.log_lastIndex, index, List.length_map, Int.zero_add], ?_⟩
    intro k hk
    refine ⟨logs _ (List.getElem_mem hk), ?_⟩
    have position : (s.last.lastIncludeIndex + 1 + k).toNat = 1 + k := by omega
    rw [position, tracks.read, List.getElem?_map, List.getElem?_eq_getElem hk, Option.map_some]

/-- `Save` leaves the log on disk and adds its selection to the queue. -/
theorem save_eq (h : s.step codec (.save args) = some u) (index : args.lastIncludeIndex = 0) :
    ∃ entries, Persister.filter codec (s.ps.remember args) 0 args.logs = some entries ∧
      u.last = args ∧ u.ps.entryCh = s.ps.entryCh ++ entries ∧
      ∀ ys, s.ps.Tracks ys → u.ps.Tracks ys := by
  obtain ⟨ps', hsave, rfl⟩ := Option.map_eq_some_iff.mp h
  obtain ⟨entries, hfilter, hsave⟩ := Option.bind_eq_some_iff.mp hsave
  rw [index] at hfilter
  obtain ⟨-, rfl⟩ := enabled_some.mp hsave
  refine ⟨entries, hfilter, rfl, rfl, ?_⟩
  intro ys tracks
  exact ⟨tracks.first, tracks.entries, tracks.firstIndex, tracks.lastIndex, index,
    tracks.lastIdx, tracks.checkSum⟩

theorem Inv.save (h : s.Inv codec) (fits : s.Fits codec args)
    (hstep : s.step codec (.save args) = some u) : u.Inv codec := by
  obtain ⟨-, -, queued, zs, coded, tracks, done⟩ := h
  obtain ⟨index, logs, j, hj, writes, fitting⟩ := fits
  obtain ⟨entries, hfilter, hlast, hch, kept⟩ := save_eq hstep index
  have selected := Persister.filter_selected hfilter
  have selection := (Persister.filter_suffix_iff (s.ps.remember args) logs
    (Nat.le_of_lt_succ hj)).mpr writes
  rw [hfilter, Option.some.injEq] at selection
  refine ⟨by rw [hlast, index], hlast ▸ logs, ?_, zs, coded, kept _ tracks, ?_⟩
  · intro p hp
    rw [hch] at hp
    rcases List.mem_append.mp hp with hp | hp
    · exact queued p hp
    · exact ⟨(selected.own p hp).1, Persister.filter_coded hfilter hp⟩
  · rw [hch, acceptAll_append, done, Option.bind_some, selection, hlast]
    exact (fitting.map codec.marshal).acceptAll

/-- A round of the writer takes the first entry of the queue. -/
theorem Inv.round (h : s.Inv codec) (hstep : s.step codec .saveLogToDisk = some t) :
    t.Inv codec ∧ t.last = s.last ∧ t.ps.entryCh = s.ps.entryCh.tail ∧
      Persister.Advances s.ps t.ps := by
  obtain ⟨index, logs, queued, zs, zcoded, tracks, done⟩ := h
  obtain ⟨ps', hwrite, rfl⟩ := Option.map_eq_some_iff.mp hstep
  cases hq : s.ps.entryCh with
  | nil =>
      rw [Persister.saveLogToDisk, hq] at hwrite
      cases hwrite
  | cons p rest =>
      obtain ⟨i, b⟩ := p
      rw [hq] at queued done
      rw [acceptAll] at done
      obtain ⟨ys, accepted, done⟩ := Option.bind_eq_some_iff.mp done
      obtain ⟨hpos, e, ecoded, coded⟩ := queued _ List.mem_cons_self
      obtain ⟨ps₁, hwrite₁, hch, tracks', advances⟩ :=
        tracks.saveLogToDisk codec hq hpos accepted
      rw [hwrite, Option.some.injEq] at hwrite₁
      subst hwrite₁
      dsimp only at coded
      rw [coded, accept_map] at accepted
      obtain ⟨zs', hzs, rfl⟩ := Option.map_eq_some_iff.mp accepted
      refine ⟨⟨index, logs, ?_, zs', fun a ha => ?_, tracks', by rw [hch]; exact done⟩, rfl,
        hch, advances⟩
      swap
      · rcases mem_of_accept hzs ha with old | rfl
        · exact zcoded a old
        · exact ecoded
      intro p hp
      rw [hch] at hp
      exact queued p (List.mem_cons_of_mem _ hp)

/-- Without a snapshot the clock has nothing to do. -/
theorem Inv.saveSnapClock (h : s.Inv codec) (hstep : s.step codec .saveSnapClock = some t) :
    t = s := by
  obtain ⟨zs, -, tracks, -⟩ := h.disk
  rw [Saving.step, Persister.saveSnapToDisk, tracks.snapshot, tracks.lastIdx, if_pos rfl] at hstep
  cases hstep
  rfl

theorem Inv.step {a : Section} (h : s.Inv codec) (fitting : s.Fitting codec a)
    (hstep : s.step codec a = some t) : t.Inv codec := by
  cases a with
  | save args => exact h.save fitting hstep
  | saveLogToDisk => exact (h.round hstep).1
  | saveSnapClock =>
      rw [h.saveSnapClock hstep]
      exact h

/-- Steps of the writer alone. -/
def Writes (_ : Saving β) (a : Section) : Prop := a = .saveLogToDisk

/-- If the writer, left to itself, keeps the promise, then processing the queue gives
the log saved last. -/
theorem acceptAll_of_follows {ys : List β} {queue : List (Int × β)} (hq : s.ps.entryCh = queue)
    (tracks : s.ps.Tracks ys) (index : s.last.lastIncludeIndex = 0)
    (positive : ∀ p ∈ queue, 0 < p.1)
    (follows : ∀ v, Reaches (step codec) Writes s v → v.Follows codec) :
    acceptAll ys queue = some (s.last.logs.map codec.marshal) ∧
      ∀ e ∈ s.last.logs, codec.encodable e = true := by
  induction queue generalizing s ys with
  | nil =>
      obtain ⟨same, coded⟩ := eq_of_follows tracks (follows s .refl) index hq
      exact ⟨congrArg some same, coded⟩
  | cons p rest ih =>
      obtain ⟨i, b⟩ := p
      have goes := (follows s .refl).1 (by rw [hq]; exact List.cons_ne_nil _ _)
      rw [acceptAll]
      cases accepted : accept ys i b with
      | none =>
          rw [tracks.saveLogToDisk_eq_none codec hq accepted] at goes
          cases goes
      | some ys' =>
          obtain ⟨ps', written, hch, tracks', -⟩ :=
            tracks.saveLogToDisk codec hq (positive _ List.mem_cons_self) accepted
          have taken : s.step codec .saveLogToDisk = some ⟨ps', s.last⟩ := by
            rw [Saving.step, written, Option.map_some]
          have one : Reaches (step codec) Writes s ⟨ps', s.last⟩ := .tail .refl rfl taken
          apply ih (s := ⟨ps', s.last⟩) hch tracks' index
          · exact fun p hp => positive p (List.mem_cons_of_mem _ hp)
          · exact fun v hv => follows v (one.trans hv)

/-- In every run in which each call of `Save` fits, the log on disk follows the saved
log. A call that does not fit always breaks the promise: after it the writer, left to
itself, aborts or ends with another log. -/
theorem wal_follows_log (reached : Reaches (step codec) (Fitting codec) (start codec) t) :
    t.Follows codec ∧ ∀ args u, args.lastIncludeIndex = 0 →
      t.step codec (.save args) = some u →
      ((∀ v, Reaches (step codec) Writes u v → v.Follows codec) ↔ t.Fits codec args) := by
  have inv : t.Inv codec := reached.invariant inv_start fun _ _ _ _ h => h.step
  refine ⟨inv.follows, ?_⟩
  intro args u index hsave
  constructor
  · intro follows
    obtain ⟨-, old, queued, zs, -, tracks, done⟩ := inv
    obtain ⟨entries, hfilter, hlast, hch, kept⟩ := save_eq hsave index
    have selected := Persister.filter_selected hfilter
    have drained := acceptAll_of_follows hch (kept _ tracks) (by rw [hlast, index]) ?_ follows
    · obtain ⟨drained, logs⟩ := drained
      rw [acceptAll_append, done, Option.bind_some, hlast] at drained
      rw [hlast] at logs
      obtain ⟨j, hj, fitting⟩ := selected.extends drained
      have fitting := fitting.of_marshal old logs
      refine ⟨index, logs, j, Nat.lt_succ_of_le fitting.le, ?_, fitting⟩
      exact (Persister.filter_suffix_iff (t.ps.remember args) logs fitting.le).mp
        (by rw [hfilter, hj])
    · intro p hp
      rcases List.mem_append.mp hp with hp | hp
      · exact (queued p hp).1
      · exact (selected.own p hp).1
  · intro fits v hv
    refine Inv.follows (hv.invariant (inv.save fits hsave) ?_)
    rintro s a t - h rfl hstep
    exact (h.round hstep).1

/-- The calls that Raft makes: the snapshot's index is fixed, and an entry at or below
the commit index saved last does not change. -/
def Lawful (s : Saving β) : Section → Prop
  | .save args =>
      args.lastIncludeIndex = s.last.lastIncludeIndex ∧
      ∀ k < (s.last.commitIndex - s.last.lastIncludeIndex).toNat,
        args.logs[k]? = s.last.logs[k]?
  | .saveLogToDisk | .saveSnapClock => True

instance (s : Saving β) : ∀ a, Decidable (s.Lawful a)
  | .save _ => inferInstanceAs (Decidable (_ ∧ _))
  | .saveLogToDisk | .saveSnapClock => isTrue trivial

/-- An entry of a term, with a numbered command. -/
def entryOf (term : Int) (incrId : UInt64) : Entry :=
  { term := term, command := some { incrId := incrId } }

/-- Save a log without a snapshot. -/
def saveLogs (logs : List Entry) (commitIndex : Int) : Section :=
  .save { snapshot := [], votedFor := none, currentTerm := 1, logs := logs
          lastIncludeIndex := 0, lastTerm := 0, commitIndex := commitIndex }

/-- Three entries are saved and written, and two that are not committed replaced. -/
theorem wal_follows_log_replaced :
    ∃ t, Reaches (step entryCodec) (Fitting entryCodec) (start entryCodec) t ∧
      (t.ps.entryCh = [] ∧ t.last.logs = [entryOf 1 1, entryOf 2 4]) ∧ t.Follows entryCodec := by
  obtain ⟨t, reached, idle⟩ : ∃ t,
      Reaches (step entryCodec) (Fitting entryCodec) (start entryCodec) t ∧
        (t.ps.entryCh = [] ∧ t.last.logs = [entryOf 1 1, entryOf 2 4]) := Library.exists_reaches _
    [saveLogs [entryOf 1 1] 0, .saveLogToDisk,
      saveLogs [entryOf 1 1, entryOf 1 2, entryOf 1 3] 1, .saveLogToDisk, .saveLogToDisk,
      saveLogs [entryOf 1 1, entryOf 2 4] 1, .saveLogToDisk]
    (by decide +kernel) (by decide +kernel)
  exact ⟨t, reached, idle, (wal_follows_log reached).1⟩

/-- A replacement of the last entry is dropped, and an uncommitted log that is saved
once more makes the writer abort. -/
theorem writer_drops_and_aborts :
    (∃ t, Reaches (step entryCodec) Lawful (start entryCodec) t ∧ t.ps.entryCh = [] ∧
      t.last.logs = [entryOf 2 2] ∧ t.ps.disk.log.read 1 = some (entryOf 1 1) ∧
      ¬ t.Follows entryCodec) ∧
    ∃ t, Reaches (step entryCodec) Lawful (start entryCodec) t ∧ t.ps.entryCh ≠ [] ∧
      t.ps.saveLogToDisk entryCodec = none ∧ ¬ t.Follows entryCodec := by
  constructor
  · exact Library.exists_reaches
      (fun t : Saving Entry => t.ps.entryCh = [] ∧ t.last.logs = [entryOf 2 2] ∧
        t.ps.disk.log.read 1 = some (entryOf 1 1) ∧ ¬ t.Follows entryCodec)
      [saveLogs [entryOf 1 1] 0, .saveLogToDisk, saveLogs [entryOf 2 2] 0, .saveLogToDisk]
      (by decide +kernel) (by decide +kernel)
  · exact Library.exists_reaches
      (fun t : Saving Entry => t.ps.entryCh ≠ [] ∧ t.ps.saveLogToDisk entryCodec = none ∧
        ¬ t.Follows entryCodec)
      [saveLogs [entryOf 1 1, entryOf 1 2] 0, .saveLogToDisk, .saveLogToDisk,
        saveLogs [entryOf 1 1, entryOf 1 2] 0]
      (by decide +kernel) (by decide +kernel)

end Saving

end RaftKv
