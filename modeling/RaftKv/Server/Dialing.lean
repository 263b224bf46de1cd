import RaftKv.Library.Iterate
import RaftKv.Library.Selection
import RaftKv.Server.KVServer
import Mathlib.Data.List.AList
import Mathlib.Logic.Function.Basic

/-!
# How a clerk connects to the proxies

`connectToProxy` dials every address once, and keeps those that it did not reach in the
map `failed`. Then it dials the addresses of that map again, in passes over the whole map,
until the map is empty or ten of these dials have failed. But nothing is ever taken out of
the map. An address that has been reached is dialed again in each pass, and if all of them
have been reached and stay so, there is no end. If there is one, an error is returned even
if every address has been reached by then.

What the program does not determine is the outcome of each dial, and the order in which a
`range` loop goes over a map. The address map is an association list, in the order of the
first loop.
-/

namespace RaftKv.Server

open Library
open RaftKv.Raft (Bytes)

/-- `map[uint32]string`. -/
abbrev AddrMap := AList (fun _ : UInt32 => Bytes)

/-- The outcome of each dial, and the order of each pass over `failed`. -/
structure World extends Orders (Σ _ : UInt32, Bytes) where
  dial : Nat → Bool

/-- The state of `connectToProxy`. A connection is the number of the dial that made it. -/
structure Dialing where
  dials : Nat := 0
  /-- `c.connections`, which `MakeClerk` has just made. -/
  connections : UInt32 → Option Nat := fun _ => none
  failed : AddrMap := ∅
  count : Nat := 0
  /-- How many passes over `failed` there have been. -/
  passes : Nat := 0

namespace World

variable (w : World)

/-- The body of both loops, with what is done after a failure. -/
def dialOne (onFailure : Dialing → (Σ _ : UInt32, Bytes) → Dialing) (st : Dialing)
    (e : Σ _ : UInt32, Bytes) : Dialing :=
  if w.dial st.dials then
    { st with
      dials := st.dials + 1
      connections := Function.update st.connections e.1 (some st.dials) }
  else onFailure { st with dials := st.dials + 1 } e

def dialFirst : Dialing → (Σ _ : UInt32, Bytes) → Dialing :=
  w.dialOne fun st e => { st with failed := st.failed.insert e.1 e.2 }

def dialAgain : Dialing → (Σ _ : UInt32, Bytes) → Dialing :=
  w.dialOne fun st _ => { st with count := st.count + 1 }

/-- The first loop. -/
def firstPass (addrMap : AddrMap) : Dialing := addrMap.entries.foldl w.dialFirst {}

/-- One pass over `failed`. -/
def retryPass (st : Dialing) : Dialing :=
  { (w.order st.passes st.failed.entries).foldl w.dialAgain st with passes := st.passes + 1 }

/-- The condition of the second loop. -/
def GoesOn (st : Dialing) : Prop := 0 < st.failed.entries.length ∧ st.count < 10

instance : DecidablePred GoesOn := fun _ => inferInstanceAs (Decidable (_ ∧ _))

/-- The end of `connectToProxy`: the error, or nothing. -/
def finish (clerkId : Int32) (st : Dialing) : Dialing × Option String :=
  if 0 < st.failed.entries.length then (st, some (toString clerkId ++ " connect to proxy failed"))
  else if (st.connections opAppend).isNone then
    ({ st with
        connections := Function.update st.connections opAppend (st.connections opPut) }, none)
  else (st, none)

/-- `none` if `connectToProxy` has not returned after so many passes. -/
def connectToProxy (clerkId : Int32) (addrMap : AddrMap) (fuel : Nat) :
    Option (Dialing × Option String) :=
  (whileLoop GoesOn w.retryPass fuel (w.firstPass addrMap)).map (finish clerkId)

/-! ### What a pass does -/

/-- How many of the `n` dials from number `i` on are refused. -/
def refusals (i : Nat) : Nat → Nat
  | 0 => 0
  | n + 1 => refusals i n + if w.dial (i + n) then 0 else 1

theorem refusals_add (i m n : Nat) :
    w.refusals i (m + n) = w.refusals i m + w.refusals (i + m) n := by
  induction n with
  | zero => rfl
  | succ n ih => rw [← Nat.add_assoc, refusals, ih, refusals, Nat.add_assoc, Nat.add_assoc i]

theorem refusals_mono (i : Nat) {m n : Nat} (h : m ≤ n) : w.refusals i m ≤ w.refusals i n := by
  obtain ⟨k, rfl⟩ := Nat.exists_eq_add_of_le h
  rw [refusals_add]
  exact Nat.le_add_right _ _

theorem refusals_cons (i n : Nat) :
    w.refusals i (n + 1) = (if w.dial i then 0 else 1) + w.refusals (i + 1) n := by
  rw [Nat.add_comm n, refusals_add]
  rw [refusals, refusals, Nat.zero_add, Nat.add_zero]

theorem refusals_eq_zero_iff (i n : Nat) :
    w.refusals i n = 0 ↔ ∀ j < n, w.dial (i + j) = true := by
  induction n with
  | zero => exact iff_of_true rfl fun j none => absurd none (Nat.not_lt_zero j)
  | succ n ih =>
      rw [refusals, Nat.add_eq_zero_iff, ih, Nat.forall_lt_succ_right]
      refine and_congr_right fun _ => ?_
      split
      · exact iff_of_true rfl (by assumption)
      · exact iff_of_false (Nat.one_ne_zero) (by assumption)

section Loops

variable {onFailure : Dialing → (Σ _ : UInt32, Bytes) → Dialing} {st : Dialing}

/-- Nothing but a dial counts dials and makes connections. -/
def Passive (onFailure : Dialing → (Σ _ : UInt32, Bytes) → Dialing) : Prop :=
  ∀ st e, (onFailure st e).dials = st.dials ∧ (onFailure st e).connections = st.connections

theorem dials_dialOne (passive : Passive onFailure) (e : Σ _ : UInt32, Bytes) :
    (w.dialOne onFailure st e).dials = st.dials + 1 := by
  unfold dialOne
  split
  · rfl
  · exact (passive _ e).1

theorem dials_foldl (passive : Passive onFailure) (l : List (Σ _ : UInt32, Bytes))
    (st : Dialing) :
    (l.foldl (w.dialOne onFailure) st).dials = st.dials + l.length := by
  induction l generalizing st with
  | nil => rfl
  | cons e l ih =>
      rw [List.foldl_cons, ih, w.dials_dialOne passive, List.length_cons]
      omega

theorem connected_dialOne (passive : Passive onFailure) (e : Σ _ : UInt32, Bytes) (op : UInt32) :
    ((w.dialOne onFailure st e).connections op).isSome ↔
      e.1 = op ∧ w.dial st.dials = true ∨ (st.connections op).isSome := by
  unfold dialOne
  split
  next reached =>
    dsimp only
    by_cases same : op = e.1
    · rw [same, Function.update_self]
      exact iff_of_true rfl (.inl ⟨rfl, reached⟩)
    · rw [Function.update_of_ne same, or_iff_right fun h => same h.1.symm]
  next refused =>
    rw [(passive _ e).2, or_iff_right fun h => refused h.2]

/-- A loop connects the addresses that it reaches. -/
theorem connected_foldl (passive : Passive onFailure) (l : List (Σ _ : UInt32, Bytes))
    (st : Dialing) (op : UInt32) :
    ((l.foldl (w.dialOne onFailure) st).connections op).isSome ↔
      (st.connections op).isSome ∨
        ∃ i e, l[i]? = some e ∧ e.1 = op ∧ w.dial (st.dials + i) = true := by
  induction l generalizing st with
  | nil =>
      rw [List.foldl_nil, or_iff_left]
      rintro ⟨i, e, ⟨⟩, -⟩
  | cons e l ih =>
      rw [List.foldl_cons, ih, w.connected_dialOne passive, w.dials_dialOne passive, or_right_comm,
        or_comm]
      refine or_congr_right ⟨?_, ?_⟩
      · rintro (⟨same, reached⟩ | ⟨i, e', here, same, reached⟩)
        · exact ⟨0, e, rfl, same, reached⟩
        · refine ⟨i + 1, e', here, same, ?_⟩
          rwa [← Nat.add_assoc, Nat.add_right_comm]
      · rintro ⟨i, e', here, same, reached⟩
        cases i with
        | zero =>
            cases here
            exact .inl ⟨same, reached⟩
        | succ i =>
            refine .inr ⟨i, e', here, same, ?_⟩
            rwa [← Nat.add_assoc, Nat.add_right_comm] at reached

end Loops

theorem passive_first : Passive fun st e => { st with failed := st.failed.insert e.1 e.2 } :=
  fun _ _ => ⟨rfl, rfl⟩

theorem passive_again : Passive fun st _ => { st with count := st.count + 1 } :=
  fun _ _ => ⟨rfl, rfl⟩

/-- The second loop counts the refusals and changes nothing else. -/
theorem foldl_dialAgain (l : List (Σ _ : UInt32, Bytes)) (st : Dialing) :
    (l.foldl w.dialAgain st).failed = st.failed ∧
      (l.foldl w.dialAgain st).passes = st.passes ∧
      (l.foldl w.dialAgain st).count = st.count + w.refusals st.dials l.length := by
  induction l generalizing st with
  | nil => exact ⟨rfl, rfl, rfl⟩
  | cons e l ih =>
      obtain ⟨failed, passes, count⟩ := ih (w.dialAgain st e)
      rw [List.foldl_cons, failed, passes, count, List.length_cons, refusals_cons, dialAgain,
        w.dials_dialOne passive_again, dialOne]
      split
      · exact ⟨rfl, rfl, by rw [Nat.zero_add]⟩
      · exact ⟨rfl, rfl, Nat.add_assoc _ _ _⟩

/-- The entries that are refused, when those of a list are dialed from number `i` on. -/
def refused (i : Nat) : List (Σ _ : UInt32, Bytes) → List (Σ _ : UInt32, Bytes)
  | [] => []
  | e :: l => if w.dial i then refused (i + 1) l else e :: refused (i + 1) l

theorem length_refused (i : Nat) (l : List (Σ _ : UInt32, Bytes)) :
    (w.refused i l).length = w.refusals i l.length := by
  induction l generalizing i with
  | nil => rfl
  | cons e l ih =>
      rw [refused, List.length_cons, refusals_cons]
      split
      · rw [ih, Nat.zero_add]
      · rw [List.length_cons, ih, Nat.add_comm]

theorem mem_refused (i : Nat) (l : List (Σ _ : UInt32, Bytes)) (e : Σ _ : UInt32, Bytes) :
    e ∈ w.refused i l ↔ ∃ j, l[j]? = some e ∧ w.dial (i + j) = false := by
  induction l generalizing i with
  | nil => exact iff_of_false List.not_mem_nil fun ⟨j, here, _⟩ => by cases here
  | cons e' l ih =>
      have later : (∃ j, (e' :: l)[j + 1]? = some e ∧ w.dial (i + (j + 1)) = false) ↔
          e ∈ w.refused (i + 1) l := by
        simp only [ih, List.getElem?_cons_succ, Nat.add_assoc, Nat.add_comm 1]
      have split : (∃ j, (e' :: l)[j]? = some e ∧ w.dial (i + j) = false) ↔
          e = e' ∧ w.dial i = false ∨ e ∈ w.refused (i + 1) l := by
        rw [← later]
        constructor
        · rintro ⟨j, here, refusal⟩
          cases j with
          | zero =>
              cases here
              exact .inl ⟨rfl, refusal⟩
          | succ j => exact .inr ⟨j, here, refusal⟩
        · rintro (⟨rfl, refusal⟩ | ⟨j, here, refusal⟩)
          · exact ⟨0, rfl, refusal⟩
          · exact ⟨j + 1, here, refusal⟩
      rw [split, refused]
      cases outcome : w.dial i with
      | true => rw [if_pos rfl, or_iff_right fun h => Bool.noConfusion h.2]
      | false => rw [if_neg Bool.false_ne_true, List.mem_cons, and_iff_left rfl]

/-- The first loop keeps what it does not reach. -/
theorem foldl_dialFirst {l : List (Σ _ : UInt32, Bytes)} (distinct : (l.map Sigma.fst).Nodup)
    (st : Dialing) (new : ∀ e ∈ l, e.1 ∉ st.failed) :
    (l.foldl w.dialFirst st).failed.entries =
        (w.refused st.dials l).reverse ++ st.failed.entries ∧
      (l.foldl w.dialFirst st).passes = st.passes ∧
      (l.foldl w.dialFirst st).count = st.count := by
  induction l generalizing st with
  | nil => exact ⟨rfl, rfl, rfl⟩
  | cons e l ih =>
      obtain ⟨first, distinct⟩ := List.nodup_cons.mp distinct
      obtain ⟨here, new⟩ := List.forall_mem_cons.mp new
      rw [List.foldl_cons, refused, dialFirst, dialOne]
      split
      next reached => exact ih distinct _ new
      next refusal =>
        have entries : (st.failed.insert e.1 e.2).entries = e :: st.failed.entries :=
          AList.entries_insert_of_notMem here
        obtain ⟨failed, passes, count⟩ := ih distinct
          { st with dials := st.dials + 1, failed := st.failed.insert e.1 e.2 }
          (fun e' later => by
            rw [AList.mem_insert]
            rintro (same | old)
            · exact first (same ▸ List.mem_map_of_mem later)
            · exact new e' later old)
        refine ⟨?_, passes, count⟩
        dsimp only at failed ⊢
        rw [entries] at failed
        rw [List.reverse_cons, List.append_assoc]
        exact failed

/-! ### The whole call -/

variable (addrMap : AddrMap)

/-- What the first loop has failed to reach. -/
def failed : AddrMap := (w.firstPass addrMap).failed

/-- The number of the first dial in pass `k` of the second loop. -/
def start (k : Nat) : Nat :=
  addrMap.entries.length + k * (w.failed addrMap).entries.length

/-- Pass `k` of the second loop, if there is one, dials this address and reaches it. -/
def ReachesIn (k : Nat) (op : UInt32) : Prop :=
  ∃ i e, (w.order k (w.failed addrMap).entries)[i]? = some e ∧ e.1 = op ∧
    w.dial (w.start addrMap k + i) = true

/-- How many dials of the second loop fail in the passes before `k`. -/
def failures (k : Nat) : Nat :=
  w.refusals addrMap.entries.length (k * (w.failed addrMap).entries.length)

theorem failed_entries :
    (w.failed addrMap).entries = (w.refused 0 addrMap.entries).reverse := by
  have first := w.foldl_dialFirst addrMap.nodupKeys {} (fun e _ => AList.notMem_empty e.1)
  exact first.1.trans (List.append_nil _)

theorem mem_failed (e : Σ _ : UInt32, Bytes) :
    e ∈ (w.failed addrMap).entries ↔
      ∃ i, addrMap.entries[i]? = some e ∧ w.dial i = false := by
  rw [failed_entries, List.mem_reverse, mem_refused]
  simp only [Nat.zero_add]

theorem length_failed :
    (w.failed addrMap).entries.length = w.refusals 0 addrMap.entries.length := by
  rw [failed_entries, List.length_reverse, length_refused]

/-- The state after so many passes of the second loop. -/
structure After (k : Nat) (st : Dialing) : Prop where
  dials : st.dials = w.start addrMap k
  failed : st.failed = w.failed addrMap
  count : st.count = w.failures addrMap k
  passes : st.passes = k
  connected : ∀ op, (st.connections op).isSome ↔
    ((w.firstPass addrMap).connections op).isSome ∨ ∃ j < k, w.ReachesIn addrMap j op

theorem after_firstPass : w.After addrMap 0 (w.firstPass addrMap) := by
  have first := w.foldl_dialFirst addrMap.nodupKeys {} (fun e _ => AList.notMem_empty e.1)
  have dials := w.dials_foldl passive_first addrMap.entries {}
  refine ⟨?_, rfl, ?_, first.2.1, fun op => ?_⟩
  · rw [start, Nat.zero_mul, Nat.add_zero]
    exact dials.trans (Nat.zero_add _)
  · rw [failures, Nat.zero_mul]
    exact first.2.2
  · rw [or_iff_left]
    rintro ⟨j, none_yet, -⟩
    exact Nat.not_lt_zero j none_yet

theorem start_succ (k : Nat) :
    w.start addrMap (k + 1) = w.start addrMap k + (w.failed addrMap).entries.length := by
  rw [start, start, Nat.succ_mul, Nat.add_assoc]

theorem failures_succ (k : Nat) :
    w.failures addrMap (k + 1) = w.failures addrMap k +
      w.refusals (w.start addrMap k) (w.failed addrMap).entries.length := by
  rw [failures, Nat.succ_mul, refusals_add]
  rfl

theorem failures_mono {j k : Nat} (h : j ≤ k) : w.failures addrMap j ≤ w.failures addrMap k :=
  w.refusals_mono _ (Nat.mul_le_mul_right _ h)

theorem After.retryPass {w : World} {addrMap : AddrMap} {k : Nat} {st : Dialing}
    (h : w.After addrMap k st) : w.After addrMap (k + 1) (w.retryPass st) := by
  have length : (w.order k (w.failed addrMap).entries).length =
      (w.failed addrMap).entries.length := (w.perm k _).length_eq
  obtain ⟨failed, passes, count⟩ :=
    w.foldl_dialAgain (w.order st.passes st.failed.entries) st
  have dials := w.dials_foldl passive_again (w.order st.passes st.failed.entries) st
  have connected := w.connected_foldl passive_again (w.order st.passes st.failed.entries) st
  refine ⟨?_, failed.trans h.failed, ?_, congrArg (· + 1) h.passes, fun op => ?_⟩
  · rw [start_succ, ← length, ← h.dials, ← h.failed, ← h.passes]
    exact dials
  · rw [failures_succ, ← length, ← h.dials, ← h.failed, ← h.count, ← h.passes]
    exact count
  · rw [Nat.exists_lt_succ_right, ← or_assoc, ← h.connected op, ReachesIn, ← h.dials, ← h.failed,
      ← h.passes]
    exact connected op

theorem after_iterate (k : Nat) :
    w.After addrMap k (w.retryPass^[k] (w.firstPass addrMap)) := by
  induction k with
  | zero => exact w.after_firstPass addrMap
  | succ k ih =>
      rw [Function.iterate_succ_apply']
      exact ih.retryPass

/-- The first loop connects the addresses that it reaches. -/
theorem connected_firstPass (op : UInt32) :
    ((w.firstPass addrMap).connections op).isSome ↔
      ∃ i e, addrMap.entries[i]? = some e ∧ e.1 = op ∧ w.dial i = true := by
  have connected := w.connected_foldl passive_first addrMap.entries {} op
  simp only [Nat.zero_add] at connected
  exact connected.trans (or_iff_right Bool.false_ne_true)

/-- An address has one place in the map. -/
theorem place_unique {i j : Nat} {e e' : Σ _ : UInt32, Bytes}
    (at_i : addrMap.entries[i]? = some e) (at_j : addrMap.entries[j]? = some e')
    (same : e.1 = e'.1) : i = j := by
  have key_i : (addrMap.entries.map Sigma.fst)[i]? = some e.1 := by
    rw [List.getElem?_map, at_i, Option.map_some]
  have key_j : (addrMap.entries.map Sigma.fst)[j]? = some e.1 := by
    rw [List.getElem?_map, at_j, Option.map_some, same]
  have bound := (List.getElem?_eq_some_iff.mp key_i).1
  exact (List.getElem?_inj bound addrMap.nodupKeys).mp (key_i.trans key_j.symm)

/-- The address is one of `failed` if and only if it is not connected. -/
theorem mem_failed_iff {op : UInt32} :
    op ∈ w.failed addrMap ↔
      op ∈ addrMap ∧ ¬ ((w.firstPass addrMap).connections op).isSome := by
  rw [connected_firstPass]
  constructor
  · intro here
    obtain ⟨addr, here⟩ := List.exists_of_mem_keys here
    obtain ⟨i, at_i, refusal⟩ := (w.mem_failed addrMap _).mp here
    refine ⟨List.mem_keys_of_mem (List.mem_of_getElem? at_i), ?_⟩
    rintro ⟨j, e, at_j, same, reached⟩
    rw [place_unique addrMap at_i at_j same.symm, reached] at refusal
    cases refusal
  · rintro ⟨here, unconnected⟩
    obtain ⟨addr, here⟩ := List.exists_of_mem_keys here
    obtain ⟨i, at_i⟩ := List.getElem?_of_mem here
    refine List.mem_keys_of_mem ((w.mem_failed addrMap ⟨op, addr⟩).mpr ⟨i, at_i, ?_⟩)
    rw [← Bool.not_eq_true]
    exact fun reached => unconnected ⟨i, _, at_i, rfl, reached⟩

theorem goesOn_iff (k : Nat) :
    GoesOn (w.retryPass^[k] (w.firstPass addrMap)) ↔
      0 < (w.failed addrMap).entries.length ∧ w.failures addrMap k < 10 := by
  have after := w.after_iterate addrMap k
  rw [GoesOn, after.failed, after.count]

variable (clerkId : Int32)

theorem connectToProxy_iff {result : Dialing × Option String} :
    (∃ fuel, w.connectToProxy clerkId addrMap fuel = some result) ↔
      ∃ k, finish clerkId (w.retryPass^[k] (w.firstPass addrMap)) = result ∧
        ¬ GoesOn (w.retryPass^[k] (w.firstPass addrMap)) ∧
        ∀ j < k, GoesOn (w.retryPass^[j] (w.firstPass addrMap)) := by
  constructor
  · rintro ⟨fuel, returned⟩
    obtain ⟨st, looped, finished⟩ := Option.map_eq_some_iff.mp returned
    obtain ⟨k, rfl, stop, before⟩ := (whileLoop_iff GoesOn w.retryPass).mp ⟨fuel, looped⟩
    exact ⟨k, finished, stop, before⟩
  · rintro ⟨k, finished, stop, before⟩
    obtain ⟨fuel, looped⟩ := (whileLoop_iff GoesOn w.retryPass).mpr ⟨k, rfl, stop, before⟩
    exact ⟨fuel, by rw [connectToProxy, looped, Option.map_some, finished]⟩

/-- `connectToProxy` returns. -/
def Returns : Prop := ∃ fuel result, w.connectToProxy clerkId addrMap fuel = some result

/-- It returns, without an error if and only if every address has been connected. -/
def Correct : Prop :=
  ∃ fuel st err, w.connectToProxy clerkId addrMap fuel = some (st, err) ∧
    (err = none ↔ ∀ op ∈ addrMap, (st.connections op).isSome)

/-- Every address is reached by the first loop. -/
def AllReached : Prop := ∀ i < addrMap.entries.length, w.dial i = true

theorem allReached_iff :
    w.AllReached addrMap ↔ (w.failed addrMap).entries.length = 0 := by
  rw [length_failed, refusals_eq_zero_iff, AllReached]
  simp only [Nat.zero_add]

/-- The first pass that begins with ten failures. -/
theorem exists_last_pass (some_failed : 0 < (w.failed addrMap).entries.length)
    (enough : ∃ k, 10 ≤ w.failures addrMap k) :
    ∃ k, 10 ≤ w.failures addrMap k ∧ ¬ GoesOn (w.retryPass^[k] (w.firstPass addrMap)) ∧
      ∀ j < k, GoesOn (w.retryPass^[j] (w.firstPass addrMap)) := by
  refine ⟨Nat.find enough, Nat.find_spec enough, ?_, ?_⟩
  · rw [goesOn_iff]
    exact fun h => Nat.not_le.mpr h.2 (Nat.find_spec enough)
  · intro j before
    rw [goesOn_iff]
    exact ⟨some_failed, Nat.not_le.mp (Nat.find_min enough before)⟩

/-- If an address is refused in every pass, ten passes are enough. -/
theorem failures_ge {op : UInt32} (here : op ∈ w.failed addrMap)
    (refused : ∀ k, w.failures addrMap k < 10 → ¬ w.ReachesIn addrMap k op) (k : Nat) :
    min k 10 ≤ w.failures addrMap k := by
  induction k with
  | zero => exact Nat.zero_le _
  | succ k ih =>
      by_cases few : w.failures addrMap k < 10
      · obtain ⟨addr, entry⟩ := List.exists_of_mem_keys here
        obtain ⟨i, at_i⟩ := List.getElem?_of_mem ((w.perm k _).mem_iff.mpr entry)
        have bound : i < (w.failed addrMap).entries.length := by
          rw [← (w.perm k _).length_eq]
          exact (List.getElem?_eq_some_iff.mp at_i).1
        have some_refusal :
            w.refusals (w.start addrMap k) (w.failed addrMap).entries.length ≠ 0 := by
          rw [Ne, refusals_eq_zero_iff]
          exact fun all => refused k few ⟨i, _, at_i, rfl, all i bound⟩
        rw [failures_succ]
        omega
      · have more := w.failures_mono addrMap (Nat.le_add_right k 1)
        omega

/-- A connection is not lost at the end. -/
theorem connected_finish {st : Dialing} {op : UInt32} (h : (st.connections op).isSome) :
    ((finish clerkId st).1.connections op).isSome := by
  unfold finish
  split
  · exact h
  · split
    next missing =>
      dsimp only
      rw [Function.update_of_ne]
      · exact h
      · rintro rfl
        rw [Option.isNone_iff_eq_none.mp missing] at h
        cases h
    · exact h

theorem finish_failed {st : Dialing} (some_failed : 0 < st.failed.entries.length) :
    finish clerkId st = (st, some (toString clerkId ++ " connect to proxy failed")) :=
  if_pos some_failed

/-- If every address is reached, there is no second loop. -/
theorem correct_of_allReached (all : w.AllReached addrMap) : w.Correct addrMap clerkId := by
  have empty := (w.allReached_iff addrMap).mp all
  have none_failed : ¬ 0 < (w.firstPass addrMap).failed.entries.length := Nat.not_lt.mpr empty.le
  obtain ⟨fuel, returned⟩ := (w.connectToProxy_iff addrMap clerkId).mpr
    ⟨0, rfl, fun goes => none_failed goes.1, fun j none => absurd none (Nat.not_lt_zero j)⟩
  refine ⟨fuel, _, _, returned, iff_of_true ?_ fun op here => ?_⟩
  · change (finish clerkId (w.firstPass addrMap)).2 = none
    rw [finish, if_neg none_failed]
    split <;> rfl
  · apply connected_finish
    by_contra unconnected
    have failed := (w.mem_failed_iff addrMap).mpr ⟨here, unconnected⟩
    obtain ⟨addr, entry⟩ := List.exists_of_mem_keys failed
    exact absurd (List.length_pos_of_mem entry) none_failed

/-- If some address is not reached at first, there is an error when the second loop ends,
which is right if an address is unconnected. -/
theorem correct_iff_of_failed (some_failed : 0 < (w.failed addrMap).entries.length) :
    w.Correct addrMap clerkId ↔
      ∃ op ∈ w.failed addrMap, ∀ k, w.failures addrMap k < 10 → ¬ w.ReachesIn addrMap k op := by
  have connected_iff (k : Nat) (op : UInt32) :=
    (w.after_iterate addrMap k).connected op
  have finished (k : Nat) : finish clerkId (w.retryPass^[k] (w.firstPass addrMap)) =
      (w.retryPass^[k] (w.firstPass addrMap),
        some (toString clerkId ++ " connect to proxy failed")) :=
    finish_failed clerkId (by rw [(w.after_iterate addrMap k).failed]; exact some_failed)
  constructor
  · rintro ⟨fuel, st, err, returned, right⟩
    obtain ⟨k, same, stop, -⟩ := (w.connectToProxy_iff addrMap clerkId).mp ⟨fuel, returned⟩
    rw [finished] at same
    cases same
    rw [goesOn_iff, not_and, Nat.not_lt] at stop
    have unconnected := mt right.mpr (Option.some_ne_none _)
    obtain ⟨op, here, unconnected⟩ : ∃ op ∈ addrMap,
        ¬ ((w.retryPass^[k] (w.firstPass addrMap)).connections op).isSome := by
      simpa only [not_forall, exists_prop] using unconnected
    rw [connected_iff, not_or] at unconnected
    refine ⟨op, (w.mem_failed_iff addrMap).mpr ⟨here, unconnected.1⟩, fun j few reaches => ?_⟩
    refine unconnected.2 ⟨j, ?_, reaches⟩
    -- The passes that begin with fewer failures are those before the end.
    by_contra late
    have more := w.failures_mono addrMap (Nat.not_lt.mp late)
    exact Nat.not_le.mpr few (Nat.le_trans (stop some_failed) more)
  · rintro ⟨op, here, refused⟩
    obtain ⟨k, -, stop, before⟩ := w.exists_last_pass addrMap some_failed
      ⟨10, w.failures_ge addrMap here refused 10⟩
    obtain ⟨fuel, returned⟩ := (w.connectToProxy_iff addrMap clerkId).mpr ⟨k, rfl, stop, before⟩
    rw [finished] at returned
    obtain ⟨known, unconnected⟩ := (w.mem_failed_iff addrMap).mp here
    refine ⟨fuel, _, _, returned, iff_of_false (Option.some_ne_none _) fun all => ?_⟩
    rcases (connected_iff k op).mp (all op known) with first | ⟨j, earlier, reaches⟩
    · exact unconnected first
    · exact refused j ((w.goesOn_iff addrMap j).mp (before j earlier)).2 reaches

theorem returns_iff_of_failed (some_failed : 0 < (w.failed addrMap).entries.length) :
    w.Returns addrMap clerkId ↔ ∃ k, 10 ≤ w.failures addrMap k := by
  constructor
  · rintro ⟨fuel, result, returned⟩
    obtain ⟨k, -, stop, -⟩ := (w.connectToProxy_iff addrMap clerkId).mp ⟨fuel, returned⟩
    rw [goesOn_iff, not_and, Nat.not_lt] at stop
    exact ⟨k, stop some_failed⟩
  · intro enough
    obtain ⟨k, -, stop, before⟩ := w.exists_last_pass addrMap some_failed enough
    obtain ⟨fuel, returned⟩ := (w.connectToProxy_iff addrMap clerkId).mpr ⟨k, rfl, stop, before⟩
    exact ⟨fuel, _, returned⟩

end World

/-- `connectToProxy` returns if the first loop reaches every address, or if ten dials of the
second loop fail. What it returns is right in the first case, and if there is an address
that is refused in each pass up to the tenth failure, but not in any other case. -/
theorem connectToProxy_correct_iff (w : World) (clerkId : Int32) (addrMap : AddrMap) :
    (w.Returns addrMap clerkId ↔
      w.AllReached addrMap ∨ ∃ k, 10 ≤ w.failures addrMap k) ∧
    (w.Correct addrMap clerkId ↔
      w.AllReached addrMap ∨
        ∃ op ∈ w.failed addrMap, ∀ k, w.failures addrMap k < 10 →
          ¬ w.ReachesIn addrMap k op) := by
  by_cases all : w.AllReached addrMap
  · have correct := w.correct_of_allReached addrMap clerkId all
    have returns : w.Returns addrMap clerkId := by
      obtain ⟨fuel, st, err, returned, -⟩ := correct
      exact ⟨fuel, (st, err), returned⟩
    exact ⟨iff_of_true returns (.inl all), iff_of_true correct (.inl all)⟩
  · have some_failed := Nat.pos_of_ne_zero (mt (w.allReached_iff addrMap).mpr all)
    rw [or_iff_right all, or_iff_right all]
    exact ⟨w.returns_iff_of_failed addrMap clerkId some_failed,
      w.correct_iff_of_failed addrMap clerkId some_failed⟩

/-- Every pass goes over `failed` in the order that it has in the list. -/
def World.inOrder (dial : Nat → Bool) : World := { Orders.listed with dial := dial }

/-- One address. If it is refused once and reached ever after, `connectToProxy` does not
return. If it is reached the second time, but not after that, there is an error although
it has been connected. -/
theorem connectToProxy_reached_address :
    (∀ fuel, (World.inOrder fun n => n ≠ 0).connectToProxy 1 (AList.singleton 0 [97]) fuel = none) ∧
      ∃ st, (World.inOrder fun n => n = 1).connectToProxy 1 (AList.singleton 0 [97]) 12 =
          some (st, some "1 connect to proxy failed") ∧
        (st.connections 0).isSome := by
  constructor
  · intro fuel
    by_contra returned
    obtain ⟨result, returned⟩ := Option.ne_none_iff_exists'.mp returned
    obtain ⟨k, enough⟩ := ((World.inOrder fun n => n ≠ 0).returns_iff_of_failed
      (AList.singleton 0 [97]) 1 (by decide)).mp ⟨fuel, result, returned⟩
    have none_refused : (World.inOrder fun n => n ≠ 0).failures (AList.singleton 0 [97]) k = 0 := by
      refine (World.refusals_eq_zero_iff _ _ _).mpr fun j _ => decide_eq_true ?_
      change 1 + j ≠ 0
      omega
    rw [none_refused] at enough
    exact absurd enough (by decide)
  · exact ⟨_, rfl, rfl⟩

end RaftKv.Server
