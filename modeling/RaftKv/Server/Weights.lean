import RaftKv.Server.ClusterManager
import Mathlib.Data.List.AList
import Mathlib.Algebra.Order.BigOperators.Group.List
import Mathlib.Algebra.Order.Ring.Int

/-!
# The weights of the nodes

The cluster manager keeps a weight for each node, and after many adjustments it calls
`balanceWeight`. That function moves the weights so that their average is the mean weight,
and then changes the distance of each weight from the mean by one half of it. The half is
added, where it should be taken away, so the weights move apart.

A Go map is an association list, in the order in which one `range` loop goes over it.
-/

namespace RaftKv.ClusterManager

/-! ### Arithmetic of `int32` -/

/-- The values of an `int32`. -/
def InInt32 (x : Int) : Prop := -2 ^ 31 ≤ x ∧ x < 2 ^ 31

instance (x : Int) : Decidable (InInt32 x) := inferInstanceAs (Decidable (_ ∧ _))

theorem InInt32.bmod_eq {x : Int} (h : InInt32 x) : x.bmod (2 ^ 32) = x := by
  obtain ⟨lower, upper⟩ := h
  exact Int.bmod_eq_of_le (by omega) (by omega)

theorem toInt_add_of_inInt32 {a b : Int32} (h : InInt32 (a.toInt + b.toInt)) :
    (a + b).toInt = a.toInt + b.toInt := by
  rw [Int32.toInt_add, h.bmod_eq]

theorem inInt32_toInt (a : Int32) : InInt32 a.toInt := ⟨Int32.le_toInt a, Int32.toInt_lt a⟩

/-! ### `balanceWeight` -/

def maxAdjustTime : Int32 := 100000
def meanWeight : Int32 := 10000000

theorem toInt_meanWeight : meanWeight.toInt = 10000000 := rfl

abbrev Weights := AList (fun _ : Int32 => Int32)

namespace Weights

/-- `totalWeight`. -/
def total (w : Weights) : Int32 := w.entries.foldl (fun totalWeight e => totalWeight + e.2) 0

/-- A loop that assigns to the keys it goes over. -/
def map (f : Int32 → Int32) (w : Weights) : Weights where
  entries := w.entries.map fun e => ⟨e.1, f e.2⟩
  nodupKeys := by
    have same : (w.entries.map fun e => (⟨e.1, f e.2⟩ : Σ _ : Int32, Int32)).keys = w.keys := by
      rw [List.keys, List.map_map]
      rfl
    rw [List.NodupKeys, same]
    exact w.nodupKeys

/-- `avgWeight`; a division by zero is a panic. -/
def avgWeight (w : Weights) : Option Int32 :=
  let len := Int32.ofNat w.entries.length
  if len = 0 then none else some (w.total / len)

/-- The body of the second loop of `balanceWeight`. -/
def rebalance (avgWeight v : Int32) : Int32 :=
  let v := v + (meanWeight - avgWeight)
  v + (v - meanWeight) / 2

def balanceWeight (w : Weights) : Option Weights :=
  w.avgWeight.map fun avgWeight => w.map (rebalance avgWeight)

/-! What the two loops compute, as integers. -/

/-- The sum of the weights. -/
def sum (w : Weights) : Int := (w.entries.map fun e => e.2.toInt).sum

theorem toInt_foldl_add (l : List (Σ _ : Int32, Int32)) (a : Int32) :
    (l.foldl (fun totalWeight e => totalWeight + e.2) a).toInt =
      (a.toInt + (l.map fun e => e.2.toInt).sum).bmod (2 ^ 32) := by
  induction l generalizing a with
  | nil => rw [List.foldl_nil, List.map_nil, List.sum_nil, Int.add_zero, (inInt32_toInt a).bmod_eq]
  | cons e l ih =>
      rw [List.foldl_cons, ih, Int32.toInt_add, Int.bmod_add_bmod, List.map_cons, List.sum_cons,
        Int.add_assoc]

/-- The additions may overflow on the way. -/
theorem toInt_total {w : Weights} (h : InInt32 w.sum) : w.total.toInt = w.sum := by
  rw [total, toInt_foldl_add, show (0 : Int32).toInt = 0 from rfl, Int.zero_add]
  exact h.bmod_eq

theorem lookup_map (f : Int32 → Int32) (w : Weights) (i : Int32) :
    (w.map f).lookup i = (w.lookup i).map f := by
  have entry (l : List (Σ _ : Int32, Int32)) :
      List.dlookup i (l.map fun e => (⟨e.1, f e.2⟩ : Σ _ : Int32, Int32)) =
        (List.dlookup i l).map f := by
    induction l with
    | nil => rfl
    | cons e l ih =>
        obtain ⟨k, v⟩ := e
        by_cases h : i = k
        · subst h
          rw [List.map_cons, List.dlookup_cons_eq, List.dlookup_cons_eq]
          rfl
        · rw [List.map_cons, List.dlookup_cons_ne _ _ h, ih, List.dlookup_cons_ne _ _ h]
  exact entry w.entries

/-- How far a weight is from the average. -/
def deviation (avgWeight v : Int32) : Int := v.toInt - avgWeight.toInt

/-- The weight after `balanceWeight`, if there is no overflow. -/
def target (d : Int) : Int := 10000000 + d + d.tdiv 2

theorem tdiv_two (d : Int) :
    (0 ≤ d → d - 1 ≤ 2 * d.tdiv 2 ∧ 2 * d.tdiv 2 ≤ d) ∧
      (d ≤ 0 → d ≤ 2 * d.tdiv 2 ∧ 2 * d.tdiv 2 ≤ d + 1) := by
  constructor
  · intro nonneg
    rw [Int.tdiv_eq_ediv_of_nonneg nonneg]
    omega
  · intro nonpos
    rw [← Int.neg_neg d, Int.neg_tdiv, Int.tdiv_eq_ediv_of_nonneg (Int.neg_nonneg_of_nonpos nonpos)]
    omega

theorem toInt_rebalance {avgWeight v : Int32} (h : InInt32 (target (deviation avgWeight v))) :
    (rebalance avgWeight v).toInt = target (deviation avgWeight v) := by
  generalize dev : deviation avgWeight v = d at h ⊢
  obtain ⟨lower, upper⟩ := h
  obtain ⟨pos, neg⟩ := tdiv_two d
  have value : v.toInt = avgWeight.toInt + d := by rw [← dev, deviation]; omega
  unfold target at lower upper ⊢
  -- The first assignment moves the weight to the mean, the second goes on in the same direction.
  have moved : (v + (meanWeight - avgWeight)).toInt = 10000000 + d := by
    rw [Int32.toInt_add, Int32.toInt_sub, Int.add_bmod_bmod, toInt_meanWeight, value,
      InInt32.bmod_eq ⟨by omega, by omega⟩]
    omega
  have distance : (v + (meanWeight - avgWeight) - meanWeight).toInt = d := by
    rw [Int32.toInt_sub, moved, toInt_meanWeight, InInt32.bmod_eq ⟨by omega, by omega⟩]
    omega
  have half : ((v + (meanWeight - avgWeight) - meanWeight) / 2).toInt = d.tdiv 2 := by
    rw [Int32.toInt_div, distance, show (2 : Int32).toInt = 2 from rfl,
      InInt32.bmod_eq ⟨by omega, by omega⟩]
  rw [rebalance, Int32.toInt_add, half, moved, InInt32.bmod_eq ⟨lower, upper⟩]

theorem toInt_avgWeight {w : Weights} {avgWeight : Int32} (small : w.entries.length < 2 ^ 31)
    (fits : InInt32 w.sum) (h : w.avgWeight = some avgWeight) :
    avgWeight.toInt = w.sum.tdiv w.entries.length := by
  unfold Weights.avgWeight at h
  dsimp only at h
  split at h
  · cases h
  · cases h
    rw [Int32.toInt_div, toInt_total fits, Int32.toInt_ofNat_of_lt small]
    apply InInt32.bmod_eq
    have bound := Int.natAbs_tdiv_le_natAbs w.sum w.entries.length
    obtain ⟨lower, upper⟩ := fits
    rcases Int.le_total 0 w.sum with pos | neg
    · have := Int.tdiv_nonneg pos (Int.natCast_nonneg w.entries.length)
      exact ⟨by omega, by omega⟩
    · have := Int.tdiv_nonneg (Int.neg_nonneg_of_nonpos neg) (Int.natCast_nonneg w.entries.length)
      rw [Int.neg_tdiv] at this
      exact ⟨by omega, by omega⟩

/-- Not all the weights are above the average, and not all are below. -/
theorem exists_around {w : Weights} {avgWeight : Int32} (small : w.entries.length < 2 ^ 31)
    (fits : InInt32 w.sum) (h : w.avgWeight = some avgWeight) :
    (∃ i v, w.lookup i = some v ∧ deviation avgWeight v ≤ 0) ∧
      ∃ i v, w.lookup i = some v ∧ 0 ≤ deviation avgWeight v := by
  have avg := toInt_avgWeight small fits h
  have pos : (0 : Int) < w.entries.length := by
    rcases Nat.eq_zero_or_pos w.entries.length with zero | pos
    · rw [Weights.avgWeight, zero] at h
      cases h
    · exact Int.natCast_pos.mpr pos
  have split := Int.mul_tdiv_add_tmod w.sum w.entries.length
  have upper := Int.tmod_lt_of_pos w.sum pos
  have lower := Int.lt_tmod_of_pos w.sum pos
  rw [← avg] at split
  constructor
  · by_contra above
    push Not at above
    have least := List.card_nsmul_le_sum (w.entries.map fun e => e.2.toInt) (avgWeight.toInt + 1)
      (fun x hx => by
        obtain ⟨e, he, rfl⟩ := List.mem_map.mp hx
        have := above e.1 e.2 (AList.mem_lookup_iff.mpr he)
        unfold deviation at this
        omega)
    rw [List.length_map, nsmul_eq_mul, Int.mul_add, Int.mul_one] at least
    change _ ≤ w.sum at least
    omega
  · by_contra below
    push Not at below
    have most := List.sum_le_card_nsmul (w.entries.map fun e => e.2.toInt) (avgWeight.toInt - 1)
      (fun x hx => by
        obtain ⟨e, he, rfl⟩ := List.mem_map.mp hx
        have := below e.1 e.2 (AList.mem_lookup_iff.mpr he)
        unfold deviation at this
        omega)
    rw [List.length_map, nsmul_eq_mul, Int.mul_sub, Int.mul_one] at most
    change w.sum ≤ _ at most
    omega

/-- Every difference between two weights is at most what it was, and smaller if it was four
or more. The order of the weights is the same. -/
def Narrowed (w w' : Weights) : Prop :=
  ∀ i a j b, w.lookup i = some a → w.lookup j = some b →
    ∃ a' b', w'.lookup i = some a' ∧ w'.lookup j = some b' ∧
      (a'.toInt - b'.toInt).natAbs ≤ (a.toInt - b.toInt).natAbs ∧
      (4 ≤ (a.toInt - b.toInt).natAbs →
        (a'.toInt - b'.toInt).natAbs < (a.toInt - b.toInt).natAbs) ∧
      (a ≤ b → a' ≤ b')

/-- `balanceWeight` returns, and narrows the spread. -/
def Narrows (w : Weights) : Prop := ∃ w', w.balanceWeight = some w' ∧ Narrowed w w'

/-- No weight is more than one away from the average. -/
def Level (w : Weights) : Prop :=
  ∃ avgWeight, w.avgWeight = some avgWeight ∧
    ∀ i v, w.lookup i = some v → (deviation avgWeight v).natAbs ≤ 1

/-- Neither the number of weights nor one of the new weights overflows. -/
def Exact (w : Weights) : Prop :=
  w.entries.length < 2 ^ 31 ∧ ∀ avgWeight, w.avgWeight = some avgWeight →
    ∀ i v, w.lookup i = some v → InInt32 (target (deviation avgWeight v))

/-- The new weight of a node. -/
theorem lookup_balanceWeight {w : Weights} {avgWeight i v : Int32} (h : w.lookup i = some v) :
    (w.map (rebalance avgWeight)).lookup i = some (rebalance avgWeight v) := by
  rw [lookup_map, h]
  rfl

theorem Level.narrows {w : Weights} (h : w.Level) : w.Narrows := by
  obtain ⟨avgWeight, avg, near⟩ := h
  -- The half of a distance of at most one is zero.
  have moved {i v : Int32} (hv : w.lookup i = some v) :
      (rebalance avgWeight v).toInt = 10000000 + deviation avgWeight v := by
    have small := near i v hv
    have half := tdiv_two (deviation avgWeight v)
    have same : target (deviation avgWeight v) = 10000000 + deviation avgWeight v := by
      unfold target
      omega
    rw [toInt_rebalance, same]
    rw [same]
    exact ⟨by omega, by omega⟩
  refine ⟨_, congrArg (Option.map _) avg, ?_⟩
  intro i a j b ha hb
  refine ⟨_, _, lookup_balanceWeight ha, lookup_balanceWeight hb, ?_⟩
  have small := near i a ha
  have small' := near j b hb
  rw [Int32.le_iff_toInt_le, Int32.le_iff_toInt_le, moved ha, moved hb]
  unfold deviation at small small' ⊢
  omega

/-- Two weights on different sides of the average, one of them two away from it, are
further apart afterwards. -/
theorem target_widens {d e : Int} (apart : 2 ≤ d ∧ e ≤ 0 ∨ d ≤ -2 ∧ 0 ≤ e) :
    (d - e).natAbs < (target d - target e).natAbs := by
  have hd := tdiv_two d
  have he := tdiv_two e
  unfold target
  omega

theorem Narrows.level {w : Weights} (h : w.Narrows) (fits : InInt32 w.sum) (exact : w.Exact) :
    w.Level := by
  obtain ⟨w', balanced, narrowed⟩ := h
  obtain ⟨avgWeight, avg, rfl⟩ := Option.map_eq_some_iff.mp balanced
  refine ⟨avgWeight, avg, ?_⟩
  intro i v hv
  by_contra far
  -- There is a weight on the other side, and the distance to it grows.
  obtain ⟨⟨j, u, hu, below⟩, k, x, hx, above⟩ := exists_around exact.1 fits avg
  have widens {l y : Int32} (hy : w.lookup l = some y)
      (apart : 2 ≤ deviation avgWeight v ∧ deviation avgWeight y ≤ 0 ∨
        deviation avgWeight v ≤ -2 ∧ 0 ≤ deviation avgWeight y) : False := by
    obtain ⟨a', b', ha, hb, le, -⟩ := narrowed i v l y hv hy
    rw [lookup_balanceWeight hv, Option.some.injEq] at ha
    rw [lookup_balanceWeight hy, Option.some.injEq] at hb
    have grows := target_widens apart
    rw [← ha, ← hb, toInt_rebalance (exact.2 _ avg i v hv),
      toInt_rebalance (exact.2 _ avg l y hy)] at le
    unfold deviation at grows le
    omega
  by_cases side : 0 ≤ deviation avgWeight v
  · exact widens hu (.inl ⟨by omega, below⟩)
  · exact widens hx (.inr ⟨by omega, above⟩)

end Weights

/-- `balanceWeight` keeps the spread if no weight is more than one away from the average. If
nothing overflows these are the only tables whose spread it does not widen. -/
theorem balanceWeight_narrows (w : Weights) (fits : InInt32 w.sum) :
    (w.Level → w.Narrows) ∧ (w.Exact → (w.Narrows ↔ w.Level)) :=
  ⟨Weights.Level.narrows, fun exact =>
    ⟨fun narrows => narrows.level fits exact, Weights.Level.narrows⟩⟩

/-- The weights of two nodes. -/
def Weights.two (a b : Int32) : Weights := (AList.singleton 2 b).insert 1 a

theorem balanceWeight_narrows_two :
    InInt32 (Weights.two 10000001 10000000).sum ∧ (Weights.two 10000001 10000000).Narrows := by
  have fits : InInt32 (Weights.two 10000001 10000000).sum := by decide
  refine ⟨fits, (balanceWeight_narrows _ fits).1 ⟨10000000, by decide, ?_⟩⟩
  have entries : (Weights.two 10000001 10000000).entries = [⟨1, 10000001⟩, ⟨2, 10000000⟩] := rfl
  intro i v h
  have here := AList.mem_lookup_iff.mp h
  rw [entries] at here
  rcases List.mem_cons.mp here with same | here
  · cases same
    decide
  · cases List.mem_singleton.mp here
    decide

/-- A difference of twenty becomes thirty. -/
theorem balanceWeight_widens :
    InInt32 (Weights.two 10000010 9999990).sum ∧
      (Weights.two 10000010 9999990).balanceWeight = some (Weights.two 10000015 9999985) ∧
      ¬ (Weights.two 10000010 9999990).Narrows := by
  have balanced : (Weights.two 10000010 9999990).balanceWeight =
      some (Weights.two 10000015 9999985) := rfl
  refine ⟨by decide, balanced, ?_⟩
  rintro ⟨w', balanced', narrowed⟩
  cases balanced.symm.trans balanced'
  obtain ⟨a', b', ha, hb, le, -⟩ := narrowed 1 10000010 2 9999990 (by decide) (by decide)
  cases ha
  cases hb
  exact absurd le (by decide)

end RaftKv.ClusterManager
