import RaftKv.Library.Framing

/-!
# Numbers of variable length in words of 64 bits

`uvarint` and `putUvarint` are functions of numbers. The loops that programs run have a
word for the bits read so far, shift each byte to its place, and tell failure by the
number of bytes they return. Both loops compute the same as the functions: the shifts
never lose a bit of a number that is accepted.
-/

namespace Library

/-- The decoder at byte `i`, with the bits `x` so far and the place `s` of the next ones.
The second result is the number of bytes. It is zero if they end too early, and negative
if the number has more than 64 bits. -/
def uvarint64 : Nat → UInt64 → UInt64 → List UInt8 → UInt64 × Int64
  | _, _, _, [] => (0, 0)
  | i, x, s, b :: rest =>
      if i = 10 then (0, -(Int64.ofNat i + 1))
      else if b < 0x80 then
        if i = 9 ∧ 1 < b then (0, -(Int64.ofNat i + 1))
        else (x ||| b.toUInt64 <<< s, Int64.ofNat i + 1)
      else uvarint64 (i + 1) (x ||| (b &&& 0x7f).toUInt64 <<< s) (s + 7) rest

/-- The encoder with room for so many bytes; `none` if it runs out of them. -/
def putUvarint64 : Nat → UInt64 → Option (List UInt8)
  | 0, _ => none
  | room + 1, x =>
      if 0x80 ≤ x then (putUvarint64 room (x >>> 7)).map ((x.toUInt8 ||| 0x80) :: ·)
      else some [x.toUInt8]

/-! ### Decoding -/

/-- The bits of `b` go above those of `x`. -/
theorem toNat_or_shiftLeft {x b s : UInt64} {k : Nat} (place : s.toNat = k) (hk : k < 64)
    (below : x.toNat < 2 ^ k) (fits : b.toNat * 2 ^ k < 2 ^ 64) :
    (x ||| b <<< s).toNat = x.toNat + b.toNat * 2 ^ k := by
  rw [UInt64.toNat_or, UInt64.toNat_shiftLeft, place, Nat.mod_eq_of_lt hk, Nat.shiftLeft_eq,
    Nat.mod_eq_of_lt fits, Nat.or_comm, Nat.mul_comm, ← Nat.two_pow_add_eq_or_of_lt below,
    Nat.add_comm]

theorem toNat_low_bits (b : UInt8) : (b &&& 0x7f).toUInt64.toNat = b.toNat % 128 := by
  rw [UInt8.toNat_toUInt64, UInt8.toNat_and]
  exact Nat.and_two_pow_sub_one_eq_mod b.toNat 7

theorem toNat_place {s : UInt64} {i : Nat} (place : s.toNat = 7 * i) (hi : i < 9) :
    (s + 7).toNat = 7 * (i + 1) := by
  rw [UInt64.toNat_add, place]
  change (7 * i + 7) % 2 ^ 64 = _
  omega

/-- There is no eleventh byte. -/
theorem uvarint64_ten (x s : UInt64) (data : List UInt8) : (uvarint64 10 x s data).2 ≤ 0 := by
  cases data with
  | nil => exact Int64.le_refl 0
  | cons b data =>
      rw [uvarint64, if_pos rfl]
      decide

theorem uvarint_ten (x : Nat) (data : List UInt8) : uvarint 10 x data = none := by
  cases data with
  | nil => rfl
  | cons b data => rw [uvarint, if_pos rfl]

/-- All the bits of the first nine bytes have a place in the word. -/
theorem byte_fits {b i : Nat} (hb : b < 128) (hi : i < 9) :
    b * 2 ^ (7 * i) < 2 ^ 63 ∧ b * 2 ^ (7 * i) + 2 ^ (7 * i) ≤ 2 ^ (7 * (i + 1)) := by
  have power : 2 ^ (7 * (i + 1)) = 128 * 2 ^ (7 * i) := by
    rw [show 7 * (i + 1) = 7 + 7 * i by omega, Nat.pow_add]
  have next : (b + 1) * 2 ^ (7 * i) ≤ 128 * 2 ^ (7 * i) := Nat.mul_le_mul_right _ hb
  have word : 2 ^ (7 * (i + 1)) ≤ 2 ^ 63 := Nat.pow_le_pow_right (by decide) (by omega)
  have positive : 0 < 2 ^ (7 * i) := Nat.two_pow_pos _
  rw [Nat.add_mul, Nat.one_mul] at next
  omega

/-- Of the tenth byte only one bit is left. -/
theorem last_byte_fits {b i : Nat} (hb : b < 128) (hi : i ≤ 9) (narrow : ¬ (i = 9 ∧ 1 < b)) :
    b * 2 ^ (7 * i) < 2 ^ 64 := by
  rcases Nat.lt_or_eq_of_le hi with small | rfl
  · exact Nat.lt_trans (byte_fits hb small).1 (by decide)
  · omega

/-- The decoder has a number if and only if `uvarint` has, and it is the same one. -/
theorem uvarint64_eq {i : Nat} {x s : UInt64} (hi : i ≤ 9) (place : s.toNat = 7 * i)
    (below : x.toNat < 2 ^ (7 * i)) (data : List UInt8) :
    match uvarint i x.toNat data with
    | none => (uvarint64 i x s data).2 ≤ 0
    | some (value, n) =>
        uvarint64 i x s data = (UInt64.ofNat value, Int64.ofNat n) ∧ value < 2 ^ 64 := by
  induction data generalizing i x s with
  | nil => exact Int64.le_refl 0
  | cons b data ih =>
      have ten : i ≠ 10 := by omega
      rw [uvarint, uvarint64, if_neg ten, if_neg ten]
      by_cases last : b.toNat < 128
      · rw [if_pos last, if_pos (UInt8.lt_iff_toNat_lt.mpr last)]
        by_cases wide : i = 9 ∧ 1 < b.toNat
        · rw [if_pos wide, if_pos ⟨wide.1, UInt8.lt_iff_toNat_lt.mpr wide.2⟩, wide.1]
          decide
        · rw [if_neg wide, if_neg (wide ∘ And.imp_right UInt8.lt_iff_toNat_lt.mp)]
          have value := toNat_or_shiftLeft (b := b.toUInt64) place (by omega) below
            (last_byte_fits last hi wide)
          rw [UInt8.toNat_toUInt64] at value
          rw [← value]
          dsimp only
          rw [UInt64.ofNat_toNat, Int64.ofNat_add]
          exact ⟨rfl, UInt64.toNat_lt _⟩
      · rw [if_neg last, if_neg (last ∘ UInt8.lt_iff_toNat_lt.mp)]
        rcases Nat.lt_or_eq_of_le hi with small | rfl
        · have low := toNat_low_bits b
          have bits := byte_fits (Nat.mod_lt b.toNat (by decide : 0 < 128)) small
          have value := toNat_or_shiftLeft (b := (b &&& 0x7f).toUInt64) place (by omega) below
            (by rw [low]; omega)
          rw [low] at value
          rw [← value]
          exact ih small (toNat_place place small) (by omega)
        · rw [uvarint_ten]
          exact uvarint64_ten _ _ _

theorem uvarint64_of_none {data : List UInt8} (h : uvarint 0 0 data = none) :
    (uvarint64 0 0 0 data).2 ≤ 0 := by
  have same := uvarint64_eq (i := 0) (x := 0) (s := 0) (by decide) rfl (by decide) data
  rwa [UInt64.toNat_zero, h] at same

theorem uvarint64_of_some {data : List UInt8} {value n : Nat}
    (h : uvarint 0 0 data = some (value, n)) :
    uvarint64 0 0 0 data = (UInt64.ofNat value, Int64.ofNat n) ∧ value < 2 ^ 64 := by
  have same := uvarint64_eq (i := 0) (x := 0) (s := 0) (by decide) rfl (by decide) data
  rwa [UInt64.toNat_zero, h] at same

/-! ### Encoding -/

theorem toNat_shiftRight_seven (x : UInt64) : (x >>> 7).toNat = x.toNat / 128 := by
  rw [UInt64.toNat_shiftRight]
  exact Nat.shiftRight_eq_div_pow _ _

/-- The byte of a number that goes on. -/
theorem high_byte (b : UInt8) : b ||| 0x80 = UInt8.ofNat (b.toNat % 128 + 128) := by
  have all : ∀ n : Fin 256, UInt8.ofNat n ||| 0x80 = UInt8.ofNat (n % 128 + 128) := by
    decide +kernel
  have here := all ⟨b.toNat, b.toNat_lt⟩
  rwa [UInt8.ofNat_toNat] at here

/-- A word has room in ten bytes. -/
theorem putUvarint64_eq {n : Nat} {x : UInt64} (small : x.toNat < 2 ^ (7 * n + 1)) :
    putUvarint64 (n + 1) x = some (putUvarint n x.toNat) := by
  have byte : x.toUInt8 = UInt8.ofNat x.toNat := rfl
  induction n generalizing x with
  | zero =>
      rw [putUvarint64, if_neg, byte]
      · rfl
      · rw [UInt64.le_iff_toNat_le]
        change ¬ 128 ≤ x.toNat
        omega
  | succ n ih =>
      rw [putUvarint64, putUvarint]
      by_cases last : x.toNat < 128
      · rw [if_pos last, if_neg, byte]
        rw [UInt64.le_iff_toNat_le]
        exact Nat.not_le.mpr last
      · have power : 2 ^ (7 * (n + 1) + 1) = 128 * 2 ^ (7 * n + 1) := by
          rw [show 7 * (n + 1) + 1 = 7 + (7 * n + 1) by omega, Nat.pow_add]
        have rest := toNat_shiftRight_seven x
        rw [if_neg last, if_pos (UInt64.le_iff_toNat_le.mpr (Nat.not_lt.mp last)),
          ih (by omega) rfl, rest, high_byte, UInt64.toNat_toUInt8, Option.map_some,
          Nat.mod_mod_of_dvd _ (by decide)]

end Library
