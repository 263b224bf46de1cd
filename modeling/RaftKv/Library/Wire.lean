import Mathlib.Algebra.Group.Nat.Defs
import Mathlib.Data.List.Forall2
import Mathlib.Data.Nat.Init

/-!
# Numbers and records on a byte stream

`putLE` writes a number with a fixed number of bytes, the low ones first, and `readLE`
reads it from the beginning of a stream and gives back the rest.

`readAll` reads records as long as it can. If every record of a list is read back from
its code, whatever follows it, then the whole list is read back from the codes in a row,
and nothing is left. If the codes are cut off somewhere, the records before the cut are read
back, as long as a record is never read before its end.
-/

namespace Library

/-! ### Numbers -/

/-- The low `k` bytes of a number. -/
def putLE : Nat → Nat → List UInt8
  | 0, _ => []
  | k + 1, n => UInt8.ofNat n :: putLE k (n / 256)

def getLE : List UInt8 → Nat
  | [] => 0
  | b :: bytes => b.toNat + 256 * getLE bytes

/-- The number in the first `k` bytes, and the bytes behind it. -/
def readLE (k : Nat) (bytes : List UInt8) : Option (Nat × List UInt8) :=
  if bytes.length < k then none else some (getLE (bytes.take k), bytes.drop k)

@[simp] theorem length_putLE (k n : Nat) : (putLE k n).length = k := by
  induction k generalizing n with
  | zero => rfl
  | succ k ih => rw [putLE, List.length_cons, ih]

theorem getLE_putLE {k n : Nat} (h : n < 256 ^ k) : getLE (putLE k n) = n := by
  induction k generalizing n with
  | zero =>
      rw [Nat.pow_zero, Nat.lt_one_iff] at h
      exact h.symm
  | succ k ih =>
      have small : n / 256 < 256 ^ k := by
        rw [Nat.div_lt_iff_lt_mul (by decide)]
        exact h
      rw [putLE, getLE, ih small, UInt8.toNat_ofNat']
      exact Nat.mod_add_div n 256

theorem readLE_putLE {k n : Nat} (h : n < 256 ^ k) (rest : List UInt8) :
    readLE k (putLE k n ++ rest) = some (n, rest) := by
  have long : ¬(putLE k n ++ rest).length < k := by
    rw [List.length_append, length_putLE]
    omega
  rw [readLE, if_neg long, List.take_left' (length_putLE k n), List.drop_left' (length_putLE k n),
    getLE_putLE h]

/-! ### Records -/

section Records

variable {α β γ : Type*}

/-- Read records until there is none, and what is left then. -/
def readAll (next : List β → Option (α × List β)) : Nat → List β → List α × List β
  | 0, stream => ([], stream)
  | fuel + 1, stream =>
      match next stream with
      | none => ([], stream)
      | some (a, rest) => (a :: (readAll next fuel rest).1, (readAll next fuel rest).2)

variable {next : List β → Option (α × List β)}

/-- If each code is read back, so are the codes in a row. -/
theorem readAll_flatten {as : List α} {codes : List (List β)}
    (codes_of : List.Forall₂ (fun a code => code ≠ [] ∧
      ∀ rest, next (code ++ rest) = some (a, rest)) as codes)
    {fuel : Nat} (enough : codes.flatten.length ≤ fuel) (stop : next [] = none) :
    readAll next fuel codes.flatten = (as, []) := by
  induction codes_of generalizing fuel with
  | nil =>
      cases fuel with
      | zero => rfl
      | succ fuel => rw [List.flatten_nil, readAll, stop]
  | cons first _ ih =>
      rename_i a code as codes _
      have positive := List.length_pos_iff.mpr first.1
      rw [List.flatten_cons, List.length_append] at enough
      obtain ⟨fuel, rfl⟩ : ∃ k, fuel = k + 1 := ⟨fuel - 1, by omega⟩
      rw [List.flatten_cons, readAll, first.2]
      dsimp only
      rw [ih (by omega)]

/-- Input behind what was read does not change it. -/
def Streaming (next : List β → Option (α × List β)) : Prop :=
  ∀ ⦃stream : List β⦄ ⦃a : α⦄ ⦃rest : List β⦄, next stream = some (a, rest) →
    ∀ more, next (stream ++ more) = some (a, rest ++ more)

/-- No record is read before its end. -/
theorem Streaming.eq_none_of_cut (streaming : Streaming next) {a : α} {part cut : List β}
    (whole : next (part ++ cut) = some (a, [])) (hcut : cut ≠ []) : next part = none := by
  cases early : next part with
  | none => rfl
  | some result =>
      have again := streaming early cut
      rw [whole] at again
      obtain ⟨-, hrest⟩ := Prod.mk.inj (Option.some.inj again)
      exact absurd (List.append_eq_nil_iff.mp hrest.symm).2 hcut

/-- Of codes in a row that are cut off somewhere, those before the cut are read back. -/
theorem readAll_take (streaming : Streaming next) {as : List α} {codes : List (List β)}
    (codes_of : List.Forall₂ (fun a code => code ≠ [] ∧
      ∀ rest, next (code ++ rest) = some (a, rest)) as codes)
    {fuel k : Nat} (enough : k ≤ fuel) (stop : next [] = none) :
    ∃ j rest, readAll next fuel (codes.flatten.take k) = (as.take j, rest) ∧
      codes.flatten.take k = (codes.take j).flatten ++ rest := by
  induction codes_of generalizing fuel k with
  | nil =>
      refine ⟨0, [], ?_, List.take_nil⟩
      rw [List.flatten_nil, List.take_nil]
      cases fuel with
      | zero => rfl
      | succ fuel =>
          rw [readAll, stop]
          rfl
  | cons first _ ih =>
      rename_i a code as codes _
      have positive := List.length_pos_iff.mpr first.1
      by_cases hk : code.length ≤ k
      · obtain ⟨fuel, rfl⟩ : ∃ m, fuel = m + 1 := ⟨fuel - 1, by omega⟩
        obtain ⟨j, rest, hread, hsplit⟩ := @ih fuel (k - code.length) (by omega)
        have cut : (code :: codes).flatten.take k =
            code ++ codes.flatten.take (k - code.length) := by
          rw [List.flatten_cons, List.take_append, List.take_of_length_le hk]
        refine ⟨j + 1, rest, ?_, ?_⟩
        · rw [cut, readAll, first.2]
          dsimp only
          rw [hread, List.take_succ_cons]
        · rw [cut, hsplit, List.take_succ_cons, List.flatten_cons, List.append_assoc]
      · have cut : (code :: codes).flatten.take k = code.take k := by
          rw [List.flatten_cons, List.take_append_of_le_length (by omega)]
        have early : next (code.take k) = none := by
          refine @Streaming.eq_none_of_cut _ _ _ streaming a _ (code.drop k) ?_ ?_
          · rw [List.take_append_drop]
            simpa using first.2 []
          · rw [Ne, List.drop_eq_nil_iff]
            omega
        refine ⟨0, code.take k, ?_, cut⟩
        rw [cut]
        cases fuel with
        | zero => rfl
        | succ fuel =>
            rw [readAll, early]
            rfl

end Records

end Library
