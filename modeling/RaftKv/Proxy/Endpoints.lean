import Mathlib.Algebra.Group.Int.Defs
import Mathlib.Algebra.Ring.Nat
import RaftKv.Library.Selection

/-!
# The endpoints of the proxy

`TCPProxy` connects a client to one of its endpoints. An endpoint has a priority, of which
lower ones are better, and a weight within its priority, and it is inactive after a failed
dial. `pick` goes over the endpoints once to find the best priority and the endpoints that
have it, those with a weight apart from those without. Then it chooses by weight, with a
small chance for an endpoint without weight, and if there are no weights it takes the
endpoints in turn.

The endpoints that it takes in turn are all of them, and not those that it has found. The
first active one is returned, of whatever priority it is.

The sum of the weights is a number here: the weights have 16 bits, so no list that fits
into memory makes it overflow an `int`. `pickCount` is not bounded by anything, and it is
an `int` of 64 bits that wraps around.
-/

namespace RaftKv.Proxy

open Library

/-- `remote`, with the fields of its `srv`. A pointer to it is returned and not followed, so
that the address is left out. -/
structure Remote where
  priority : UInt16
  weight : UInt16
  inactive : Bool := false
  deriving DecidableEq, Repr

def Remote.isActive (r : Remote) : Bool := !r.inactive

/-- The fields of `TCPProxy` that `pick` uses. -/
structure TCPProxy where
  remotes : List Remote
  pickCount : Int64

/-! ### `pick` -/

/-- The local variables of the first loop. -/
structure Best where
  weighted : List Remote := []
  unweighted : List Remote := []
  bestPr : UInt16 := 65535
  w : Nat := 0

namespace Best

/-- The last case of the `switch`. -/
def add (b : Best) (r : Remote) : Best :=
  if 0 < r.weight then { b with weighted := b.weighted ++ [r], w := b.w + r.weight.toNat }
  else { b with unweighted := b.unweighted ++ [r] }

/-- The `switch`. A better priority throws away what was found, and falls through. -/
def visit (b : Best) (r : Remote) : Best :=
  if !r.isActive then b
  else if r.priority < b.bestPr then add { bestPr := r.priority } r
  else if r.priority = b.bestPr then b.add r
  else b

end Best

def findBest (remotes : List Remote) : Best := remotes.foldl Best.visit {}

/-- Indexing a slice. -/
def index {α : Type} (l : List α) (i : Int) : Option α := if 0 ≤ i then l[i.toNat]? else none

/-- The loop over all remotes, with so many rounds left. -/
def roundRobin (remotes : List Remote) : Nat → Int64 → Option (Option Remote × Int64)
  | 0, pickCount => some (none, pickCount)
  | rounds + 1, pickCount =>
      (index remotes (pickCount.toInt.tmod remotes.length)).bind fun picked =>
        if picked.isActive then some (some picked, pickCount + 1)
        else roundRobin remotes rounds (pickCount + 1)

namespace TCPProxy

/-- The end of `pick`. -/
def pickUnweighted (tp : TCPProxy) (unweighted : List Remote) : Option (Option Remote × TCPProxy) :=
  if unweighted ≠ [] then
    (roundRobin tp.remotes tp.remotes.length tp.pickCount).map fun p =>
      (p.1, { tp with pickCount := p.2 })
  else some (none, tp)

/-- `pick`, with what the two calls of `rand.Intn` return: `none` is a panic. -/
def pick (tp : TCPProxy) (percent choose : Draw) : Option (Option Remote × TCPProxy) :=
  let b := findBest tp.remotes
  if b.weighted ≠ [] then
    if 0 < b.unweighted.length ∧ percent.below 100 = some 1 then
      (index b.unweighted (tp.pickCount.toInt.tmod b.unweighted.length)).map fun r =>
        (some r, { tp with pickCount := tp.pickCount + 1 })
    else
      (choose.below b.w).bind fun choose =>
        match walk (fun r : Remote => (r.weight.toNat : Int)) choose b.weighted with
        | some r => some (some r, tp)
        | none => tp.pickUnweighted b.unweighted
  else tp.pickUnweighted b.unweighted

end TCPProxy

/-! ### The best priority -/

/-- No active remote has a better priority. -/
def Minimal (remotes : List Remote) (r : Remote) : Prop :=
  r ∈ remotes ∧ r.isActive ∧ ∀ r' ∈ remotes, r'.isActive → r.priority ≤ r'.priority

/-- What the first loop has found among the remotes seen so far. -/
structure Best.Of (b : Best) (seen : List Remote) : Prop where
  le : ∀ r ∈ seen, r.isActive → b.bestPr ≤ r.priority
  weighted : ∀ r, r ∈ b.weighted ↔
    r ∈ seen ∧ r.isActive ∧ r.priority = b.bestPr ∧ 0 < r.weight
  unweighted : ∀ r, r ∈ b.unweighted ↔
    r ∈ seen ∧ r.isActive ∧ r.priority = b.bestPr ∧ ¬ 0 < r.weight
  w : b.w = (b.weighted.map fun r => r.weight.toNat).sum

namespace Best.Of

variable {b : Best} {seen : List Remote} {r : Remote}

theorem start : Best.Of {} [] :=
  ⟨nofun, fun _ => iff_of_false List.not_mem_nil fun h => List.not_mem_nil h.1,
    fun _ => iff_of_false List.not_mem_nil fun h => List.not_mem_nil h.1, rfl⟩

/-- A remote that is not of the best priority changes nothing. -/
theorem skip (h : b.Of seen) (other : r.isActive → b.bestPr < r.priority) :
    b.Of (seen ++ [r]) := by
  have old (r' : Remote) (active : r'.isActive) (same : r'.priority = b.bestPr) :
      r' ∈ seen ++ [r] ↔ r' ∈ seen := by
    rw [List.mem_append, List.mem_singleton, or_iff_left]
    rintro rfl
    exact UInt16.lt_irrefl _ (same ▸ other active)
  refine ⟨?_, ?_, ?_, h.w⟩
  · intro r' hr' active
    rcases List.mem_append.mp hr' with before | here
    · exact h.le r' before active
    · rw [List.mem_singleton.mp here] at active ⊢
      exact UInt16.le_of_lt (other active)
  · intro r'
    rw [h.weighted]
    exact and_congr_left fun ⟨active, same, _⟩ => (old r' active same).symm
  · intro r'
    rw [h.unweighted]
    exact and_congr_left fun ⟨active, same, _⟩ => (old r' active same).symm

/-- No remote has been seen with a priority that is better than the best one. -/
theorem reset (h : b.Of seen) (better : r.priority < b.bestPr) :
    Best.Of { bestPr := r.priority } seen := by
  have none_seen (r' : Remote) (before : r' ∈ seen) (active : r'.isActive)
      (same : r'.priority = r.priority) : False :=
    UInt16.not_le.mpr better (same ▸ h.le r' before active)
  refine ⟨?_, ?_, ?_, rfl⟩
  · intro r' before active
    exact UInt16.le_trans (UInt16.le_of_lt better) (h.le r' before active)
  · intro r'
    exact iff_of_false List.not_mem_nil fun ⟨before, active, same, _⟩ =>
      none_seen r' before active same
  · intro r'
    exact iff_of_false List.not_mem_nil fun ⟨before, active, same, _⟩ =>
      none_seen r' before active same

/-- One more remote of the priority `p`. -/
theorem mem_add_iff {p : UInt16} (active : r.isActive) (same : r.priority = p)
    (Q : Remote → Prop) (seen : List Remote) (r' : Remote) :
    (r' ∈ seen ++ [r] ∧ r'.isActive ∧ r'.priority = p ∧ Q r') ↔
      (r' ∈ seen ∧ r'.isActive ∧ r'.priority = p ∧ Q r') ∨ r' = r ∧ Q r := by
  rw [List.mem_append, List.mem_singleton, or_and_right]
  refine or_congr_right (and_congr_right ?_)
  rintro rfl
  rw [and_iff_right active, and_iff_right same]

theorem add (h : b.Of seen) (active : r.isActive) (same : r.priority = b.bestPr) :
    (b.add r).Of (seen ++ [r]) := by
  have le : ∀ r' ∈ seen ++ [r], r'.isActive → b.bestPr ≤ r'.priority := by
    intro r' hr' active'
    rcases List.mem_append.mp hr' with before | here
    · exact h.le r' before active'
    · rw [List.mem_singleton.mp here, same]
      exact UInt16.le_refl _
  have weighted := mem_add_iff active same (fun r => 0 < r.weight) seen
  have unweighted := mem_add_iff active same (fun r => ¬ 0 < r.weight) seen
  unfold Best.add
  split
  next heavy =>
    refine ⟨le, fun r' => ?_, fun r' => ?_, ?_⟩
    · rw [weighted, and_iff_left heavy, ← h.weighted, List.mem_append, List.mem_singleton]
    · rw [unweighted, or_iff_left fun light => light.2 heavy, ← h.unweighted]
    · dsimp only
      rw [h.w, List.map_append, List.sum_append_nat]
      rfl
  next light =>
    refine ⟨le, fun r' => ?_, fun r' => ?_, h.w⟩
    · rw [weighted, or_iff_left fun heavy => light heavy.2, ← h.weighted]
    · rw [unweighted, and_iff_left light, ← h.unweighted, List.mem_append, List.mem_singleton]

theorem visit (h : b.Of seen) (r : Remote) : (b.visit r).Of (seen ++ [r]) := by
  unfold Best.visit
  split
  next inactive =>
    refine h.skip fun active => ?_
    rw [active] at inactive
    cases inactive
  next active =>
    rw [Bool.not_eq_true', Bool.not_eq_false] at active
    split
    next better => exact (h.reset better).add active rfl
    next not_better =>
      split
      next same => exact h.add active same
      next different =>
        exact h.skip fun _ =>
          UInt16.lt_of_le_of_ne (UInt16.not_lt.mp not_better) (Ne.symm different)

theorem visits (h : b.Of seen) (remotes : List Remote) :
    (remotes.foldl Best.visit b).Of (seen ++ remotes) := by
  induction remotes generalizing b seen with
  | nil => rwa [List.append_nil]
  | cons r remotes ih =>
      have next := ih (h.visit r)
      rwa [List.append_assoc] at next

/-- The two lists together. -/
theorem found_iff (h : b.Of seen) :
    r ∈ b.weighted ∨ r ∈ b.unweighted ↔ r ∈ seen ∧ r.isActive ∧ r.priority = b.bestPr := by
  rw [h.weighted, h.unweighted, ← and_or_left, ← and_or_left, ← and_or_left,
    and_iff_left (Decidable.em (0 < r.weight))]

end Best.Of

/-- Something has been found, unless the best priority is still the worst one there is. -/
def Best.Attained (b : Best) : Prop :=
  b.bestPr = 65535 ∨ ∃ r, r ∈ b.weighted ∨ r ∈ b.unweighted

namespace Best.Attained

variable {b : Best}

theorem add (b : Best) (r : Remote) : (b.add r).Attained := by
  refine .inr ⟨r, ?_⟩
  unfold Best.add
  split
  · exact .inl (List.mem_append_right _ List.mem_cons_self)
  · exact .inr (List.mem_append_right _ List.mem_cons_self)

theorem visit (h : b.Attained) (r : Remote) : (b.visit r).Attained := by
  unfold Best.visit
  split
  · exact h
  · split
    · exact add _ r
    · split
      · exact add _ r
      · exact h

theorem visits (h : b.Attained) (remotes : List Remote) :
    (remotes.foldl Best.visit b).Attained := by
  induction remotes generalizing b with
  | nil => exact h
  | cons r remotes ih => exact ih (h.visit r)

end Best.Attained

section FindBest

variable (remotes : List Remote)

theorem findBest_of : (findBest remotes).Of remotes := Best.Of.start.visits remotes

theorem findBest_attained : (findBest remotes).Attained :=
  Best.Attained.visits (.inl rfl) remotes

/-- Every remote is of the best priority at least. -/
theorem bestPr_le_iff {p : UInt16} :
    p ≤ (findBest remotes).bestPr ↔ ∀ r ∈ remotes, r.isActive → p ≤ r.priority := by
  have found := findBest_of remotes
  constructor
  · intro le r here active
    exact UInt16.le_trans le (found.le r here active)
  · intro least
    rcases findBest_attained remotes with worst | ⟨r, hr⟩
    · rw [worst]
      exact UInt16.le_iff_toNat_le.mpr (Nat.le_of_lt_succ p.toNat_lt)
    · obtain ⟨here, active, same⟩ := found.found_iff.mp hr
      exact same ▸ least r here active

/-- The first loop finds the active remotes of the best priority. -/
theorem minimal_iff (r : Remote) :
    Minimal remotes r ↔ r ∈ (findBest remotes).weighted ∨ r ∈ (findBest remotes).unweighted := by
  have found := findBest_of remotes
  rw [found.found_iff, Minimal, ← bestPr_le_iff]
  refine and_congr_right fun here => and_congr_right fun active => ?_
  exact ⟨fun le => UInt16.le_antisymm le (found.le r here active), UInt16.le_of_eq⟩

/-- There is a remote of the best priority if there is an active one. -/
theorem exists_minimal (h : ∃ r ∈ remotes, r.isActive) : ∃ r, Minimal remotes r := by
  obtain ⟨r, here, active⟩ := h
  rcases findBest_attained remotes with worst | ⟨r', found⟩
  · refine ⟨r, here, active, (bestPr_le_iff remotes).mp ?_⟩
    rw [worst]
    exact UInt16.le_iff_toNat_le.mpr (Nat.le_of_lt_succ r.priority.toNat_lt)
  · exact ⟨r', (minimal_iff remotes r').mpr found⟩

end FindBest

/-! ### The choice -/

/-- A position in turn is one of the list. -/
theorem exists_index {α : Type} {l : List α} (some_element : l ≠ []) {count : Int}
    (nonneg : 0 ≤ count) : ∃ a ∈ l, index l (count.tmod l.length) = some a := by
  obtain ⟨n, rfl⟩ := Int.eq_ofNat_of_zero_le nonneg
  have bound : n % l.length < l.length := Nat.mod_lt n (List.length_pos_iff.mpr some_element)
  refine ⟨l[n % l.length], List.getElem_mem bound, ?_⟩
  rw [index, ← Int.ofNat_tmod, if_pos (Int.natCast_nonneg _), Int.toNat_natCast,
    List.getElem?_eq_getElem bound]

theorem foldl_sub_weight (l : List Remote) (x : Int) :
    l.foldl (fun x r => x - (r.weight.toNat : Int)) x =
      x - ((l.map fun r => r.weight.toNat).sum : Nat) := by
  induction l generalizing x with
  | nil => exact (Int.sub_zero x).symm
  | cons r l ih =>
      rw [List.foldl_cons, ih, List.map_cons, List.sum_cons]
      omega

theorem sum_weight_pos {l : List Remote} {r : Remote} (here : r ∈ l) (heavy : 0 < r.weight) :
    0 < (l.map fun r => r.weight.toNat).sum :=
  List.sum_pos_iff_exists_pos_nat.mpr
    ⟨r.weight.toNat, List.mem_map_of_mem here, UInt16.lt_iff_toNat_lt.mp heavy⟩

namespace TCPProxy

variable (tp : TCPProxy)

/-- The remote that the loop over all remotes looks at in round `k`. -/
def candidate (k : Nat) : Option Remote :=
  index tp.remotes ((tp.pickCount + Int64.ofNat k).toInt.tmod tp.remotes.length)

theorem candidate_zero :
    tp.candidate 0 = index tp.remotes (tp.pickCount.toInt.tmod tp.remotes.length) := by
  rw [candidate, show Int64.ofNat 0 = 0 from rfl, Int64.add_zero]

theorem candidate_succ (k : Nat) :
    tp.candidate (k + 1) = { tp with pickCount := tp.pickCount + 1 }.candidate k := by
  rw [candidate, candidate, Nat.add_comm, Int64.ofNat_add, ← Int64.add_assoc]
  rfl

/-- The loop over all remotes returns the first active one. -/
theorem roundRobin_iff {tp : TCPProxy} {rounds : Nat} {r : Remote} :
    (∃ count, roundRobin tp.remotes rounds tp.pickCount = some (some r, count)) ↔
      ∃ k < rounds, (∀ j < k, ∃ r', tp.candidate j = some r' ∧ ¬ r'.isActive) ∧
        tp.candidate k = some r ∧ r.isActive := by
  induction rounds generalizing tp with
  | zero =>
      refine iff_of_false ?_ ?_
      · rintro ⟨count, ⟨⟩⟩
      · rintro ⟨k, none_left, -⟩
        exact Nat.not_lt_zero k none_left
  | succ rounds ih =>
      rw [roundRobin, ← candidate_zero, exists_first_succ]
      cases tp.candidate 0 with
      | none =>
          refine iff_of_false ?_ ?_
          · rintro ⟨count, ⟨⟩⟩
          · rintro (⟨⟨⟩, -⟩ | ⟨⟨r', ⟨⟩, -⟩, -⟩)
      | some picked =>
          rw [Option.bind_some]
          by_cases active : picked.isActive
          · rw [if_pos active, or_iff_left]
            · constructor
              · rintro ⟨count, ⟨⟩⟩
                exact ⟨rfl, active⟩
              · rintro ⟨⟨⟩, -⟩
                exact ⟨_, rfl⟩
            · rintro ⟨⟨r', ⟨⟩, inactive⟩, -⟩
              exact inactive active
          · have later := @ih { tp with pickCount := tp.pickCount + 1 }
            simp only [← candidate_succ] at later
            rw [if_neg active, or_iff_right, and_iff_right ⟨picked, rfl, active⟩]
            · exact later
            · rintro ⟨⟨⟩, active'⟩
              exact active active'

/-- With weights in the best class, one of that class is chosen, whatever is drawn. -/
theorem pick_weighted (start : 0 ≤ tp.pickCount) {r : Remote} (best : Minimal tp.remotes r)
    (heavy : 0 < r.weight) (percent choose : Draw) :
    ∃ picked tp', tp.pick percent choose = some (some picked, tp') ∧ Minimal tp.remotes picked := by
  have found := findBest_of tp.remotes
  have weighted : r ∈ (findBest tp.remotes).weighted := by
    rcases (minimal_iff _ r).mp best with weighted | unweighted
    · exact weighted
    · exact absurd heavy ((found.unweighted r).mp unweighted).2.2.2
  have some_weighted : (findBest tp.remotes).weighted ≠ [] := List.ne_nil_of_mem weighted
  rw [pick, if_pos some_weighted]
  split
  next lucky =>
    have nonneg : 0 ≤ tp.pickCount.toInt := Int64.le_iff_toInt_le.mp start
    obtain ⟨picked, here, at_index⟩ :=
      exists_index (List.ne_nil_of_length_pos lucky.1) nonneg
    exact ⟨picked, _, by rw [at_index]; rfl, (minimal_iff _ picked).mpr (.inr here)⟩
  next =>
    have positive : 0 < (findBest tp.remotes).w := by
      rw [found.w]
      exact sum_weight_pos weighted heavy
    have drawn := choose.value_lt positive
    obtain ⟨picked, here, walked⟩ := exists_walk (fun r : Remote => (r.weight.toNat : Int))
      (x := (choose.value (findBest tp.remotes).w : Int)) some_weighted (by
        rw [foldl_sub_weight, ← found.w]
        omega)
    rw [choose.below_pos positive, Option.bind_some, walked]
    exact ⟨picked, tp, rfl, (minimal_iff _ picked).mpr (.inl here)⟩

/-- What `pick` should return. -/
def Correct (result : Option (Option Remote × TCPProxy)) : Prop :=
  ∃ picked tp', result = some (picked, tp') ∧
    (picked = none ↔ ∀ r ∈ tp.remotes, ¬ r.isActive) ∧ ∀ r ∈ picked, Minimal tp.remotes r

/-- The first active remote in turn is of the best priority. -/
def InTurn : Prop :=
  ∃ k < tp.remotes.length, (∀ j < k, ∃ r, tp.candidate j = some r ∧ ¬ r.isActive) ∧
    ∃ r, tp.candidate k = some r ∧ Minimal tp.remotes r

theorem correct_of_minimal {tp tp' : TCPProxy} {r : Remote} (best : Minimal tp.remotes r) :
    tp.Correct (some (some r, tp')) := by
  refine ⟨some r, tp', rfl, iff_of_false (Option.some_ne_none r) ?_, ?_⟩
  · intro inactive
    exact inactive r best.1 best.2.1
  · intro r' same
    cases same
    exact best

/-- Without a weight in the best class, `pick` goes to its end. -/
theorem pick_light (light : ∀ r, Minimal tp.remotes r → ¬ 0 < r.weight) (percent choose : Draw) :
    tp.pick percent choose = tp.pickUnweighted (findBest tp.remotes).unweighted := by
  have none_weighted : (findBest tp.remotes).weighted = [] := by
    refine List.eq_nil_iff_forall_not_mem.mpr fun r weighted => ?_
    exact light r ((minimal_iff _ r).mpr (.inl weighted))
      (((findBest_of tp.remotes).weighted r).mp weighted).2.2.2
  rw [pick, if_neg (not_not.mpr none_weighted)]

/-- Without an active remote there is nothing to choose from. -/
theorem pick_inactive (inactive : ∀ r ∈ tp.remotes, ¬ r.isActive) (percent choose : Draw) :
    tp.Correct (tp.pick percent choose) := by
  have none_minimal (r : Remote) : ¬ Minimal tp.remotes r := fun best => inactive r best.1 best.2.1
  have none_unweighted : (findBest tp.remotes).unweighted = [] :=
    List.eq_nil_iff_forall_not_mem.mpr fun r unweighted =>
      none_minimal r ((minimal_iff _ r).mpr (.inr unweighted))
  rw [tp.pick_light (fun r best => absurd best (none_minimal r)), pickUnweighted,
    if_neg (not_not.mpr none_unweighted)]
  exact ⟨none, tp, rfl, iff_of_true rfl inactive, nofun⟩

/-- Without a weight in the best class, the choice is that of the loop over all remotes. -/
theorem pick_unweighted (active : ∃ r ∈ tp.remotes, r.isActive)
    (light : ∀ r, Minimal tp.remotes r → ¬ 0 < r.weight) (percent choose : Draw) :
    tp.pick percent choose =
      (roundRobin tp.remotes tp.remotes.length tp.pickCount).map fun p =>
        (p.1, { tp with pickCount := p.2 }) := by
  obtain ⟨r, best⟩ := exists_minimal tp.remotes active
  have some_unweighted : (findBest tp.remotes).unweighted ≠ [] := by
    rcases (minimal_iff _ r).mp best with weighted | unweighted
    · exact absurd (((findBest_of tp.remotes).weighted r).mp weighted).2.2.2 (light r best)
    · exact List.ne_nil_of_mem unweighted
  rw [tp.pick_light light, pickUnweighted, if_pos some_unweighted]

end TCPProxy

/-- `pick` is right if no remote is active, if the best class has a weight, or if the first
active remote in turn happens to be of the best class. In all other cases it is wrong. -/
theorem pick_correct_iff (tp : TCPProxy) (start : 0 ≤ tp.pickCount) (percent choose : Draw) :
    tp.Correct (tp.pick percent choose) ↔
      (∀ r ∈ tp.remotes, ¬ r.isActive) ∨ (∃ r, Minimal tp.remotes r ∧ 0 < r.weight) ∨
        tp.InTurn := by
  by_cases inactive : ∀ r ∈ tp.remotes, ¬ r.isActive
  · exact iff_of_true (tp.pick_inactive inactive percent choose) (.inl inactive)
  by_cases heavy : ∃ r, Minimal tp.remotes r ∧ 0 < r.weight
  · obtain ⟨r, best, weight⟩ := heavy
    obtain ⟨picked, tp', returned, best'⟩ := tp.pick_weighted start best weight percent choose
    rw [returned]
    exact iff_of_true (TCPProxy.correct_of_minimal best') (.inr (.inl ⟨r, best, weight⟩))
  -- What is left is the loop over all remotes, which returns the first active one in turn.
  have active : ∃ r ∈ tp.remotes, r.isActive := by
    simpa only [not_forall, not_not, exists_prop] using inactive
  rw [or_iff_right inactive, or_iff_right heavy,
    tp.pick_unweighted active (fun r best weight => heavy ⟨r, best, weight⟩)]
  constructor
  · rintro ⟨picked, tp', returned, nil_iff, minimal⟩
    obtain ⟨⟨found, count⟩, looped, same⟩ := Option.map_eq_some_iff.mp returned
    cases same
    cases found with
    | none => exact absurd (nil_iff.mp rfl) inactive
    | some r =>
        obtain ⟨k, bound, before, here, -⟩ := TCPProxy.roundRobin_iff.mp ⟨count, looped⟩
        exact ⟨k, bound, before, r, here, minimal r rfl⟩
  · rintro ⟨k, bound, before, r, here, best⟩
    obtain ⟨count, looped⟩ := TCPProxy.roundRobin_iff.mpr ⟨k, bound, before, here, best.2.1⟩
    rw [looped]
    exact TCPProxy.correct_of_minimal best

/-- Two endpoints of the same priority, one with a weight, the other one without. -/
theorem pick_correct_weighted :
    TCPProxy.Correct ⟨[⟨1, 0, false⟩, ⟨1, 5, false⟩, ⟨2, 9, false⟩], 7⟩
      (TCPProxy.pick ⟨[⟨1, 0, false⟩, ⟨1, 5, false⟩, ⟨2, 9, false⟩], 7⟩
        (.always 1) (.always 0)) := by
  refine (pick_correct_iff _ (by decide) _ _).mpr (.inr (.inl ⟨⟨1, 5, false⟩, ⟨?_, ?_, ?_⟩, ?_⟩))
  · decide
  · decide
  · decide
  · decide

/-- Two endpoints without weights are taken in turn, although the second one has a worse
priority. With three of them and a counter at its largest value, the next one is an index
out of range. -/
theorem pick_worse_priority :
    (TCPProxy.pick ⟨[⟨1, 0, false⟩, ⟨2, 0, false⟩], 1⟩ (.always 0) (.always 0)).map Prod.fst =
        some (some ⟨2, 0, false⟩) ∧
      ¬ TCPProxy.Correct ⟨[⟨1, 0, false⟩, ⟨2, 0, false⟩], 1⟩
        (TCPProxy.pick ⟨[⟨1, 0, false⟩, ⟨2, 0, false⟩], 1⟩ (.always 0) (.always 0)) ∧
      (TCPProxy.pick ⟨[⟨1, 0, false⟩, ⟨1, 0, true⟩, ⟨1, 0, false⟩], Int64.maxValue⟩
        (.always 0) (.always 0)).isNone := by
  have picked : (TCPProxy.pick ⟨[⟨1, 0, false⟩, ⟨2, 0, false⟩], 1⟩ (.always 0) (.always 0)).map
      Prod.fst = some (some ⟨2, 0, false⟩) := by
    decide +kernel
  refine ⟨picked, ?_, by decide +kernel⟩
  rintro ⟨found, tp', same, -, minimal⟩
  rw [same] at picked
  cases picked
  exact absurd ((minimal _ rfl).2.2 ⟨1, 0, false⟩ List.mem_cons_self rfl) (by decide)

end RaftKv.Proxy
