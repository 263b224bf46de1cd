import Mathlib.Algebra.Group.Nat.Defs
import Mathlib.Data.List.Basic
import Mathlib.Data.Nat.Init

/-!
# Streams of self-delimiting records

A framing writes records one after another into a stream from which the length of the
first record can be told, whatever follows it. A stream is scanned from its start: the
positions found are those at which the records were written, and the piece of the stream
between two positions is the code of one record.

`putUvarint` is the usual variable-length code of a number, seven bits to a byte with the
low ones first, as a length in front of a record.
-/

namespace Library

/-- Pieces that are not empty, one after another from `pos` to `stop`. -/
def Tiles {ι : Type*} [LT ι] : ι → List (ι × ι) → ι → Prop
  | pos, [], stop => pos = stop
  | pos, p :: ps, stop => p.1 = pos ∧ p.1 < p.2 ∧ Tiles p.2 ps stop

theorem Tiles.map {ι κ : Type*} [LT ι] [LT κ] {f : ι → κ} {pos stop : ι} {ps : List (ι × ι)}
    (h : Tiles pos ps stop) (mono : ∀ p ∈ ps, p.1 < p.2 → f p.1 < f p.2) :
    Tiles (f pos) (ps.map (Prod.map f f)) (f stop) := by
  induction ps generalizing pos with
  | nil => exact congrArg f h
  | cons p ps ih =>
      obtain ⟨first, nonempty, rest⟩ := h
      obtain ⟨here, others⟩ := List.forall_mem_cons.mp mono
      exact ⟨congrArg f first, here nonempty, ih rest others⟩

theorem Tiles.lt_of_mem {ι : Type*} [LT ι] {pos stop : ι} {ps : List (ι × ι)} {p : ι × ι}
    (h : Tiles pos ps stop) (hp : p ∈ ps) : p.1 < p.2 := by
  induction ps generalizing pos with
  | nil => cases hp
  | cons q ps ih =>
      obtain ⟨-, nonempty, rest⟩ := h
      rcases List.mem_cons.mp hp with rfl | hp
      · exact nonempty
      · exact ih rest hp

/-- A code for records whose length can be told from the beginning of a stream. -/
structure Framing (α β : Type*) where
  encode : α → List β
  next : List β → Option Nat
  encode_ne_nil : ∀ a, encode a ≠ []
  next_encode : ∀ a rest, next (encode a ++ rest) = some (encode a).length

namespace Framing

variable {α β : Type*} (F : Framing α β)

def encodeAll (as : List α) : List β := as.flatMap F.encode

/-- Where the records start and end in the stream, from position `pos` on. -/
def positions : Nat → List α → List (Nat × Nat)
  | _, [] => []
  | pos, a :: as =>
      (pos, pos + (F.encode a).length) :: positions (pos + (F.encode a).length) as

/-- Read lengths until the stream is used up. No record is empty, so that the length of
the stream is enough fuel. -/
def scan : Nat → Nat → List β → Option (List (Nat × Nat))
  | _, _, [] => some []
  | 0, _, _ :: _ => none
  | fuel + 1, pos, b :: data =>
      (F.next (b :: data)).bind fun n =>
        (scan fuel (pos + n) ((b :: data).drop n)).map ((pos, pos + n) :: ·)

@[simp] theorem encodeAll_nil : F.encodeAll [] = [] := rfl

@[simp] theorem encodeAll_cons (a : α) (as : List α) :
    F.encodeAll (a :: as) = F.encode a ++ F.encodeAll as := rfl

@[simp] theorem encodeAll_append (as bs : List α) :
    F.encodeAll (as ++ bs) = F.encodeAll as ++ F.encodeAll bs :=
  List.flatMap_append

theorem encodeAll_eq_nil_iff {as : List α} : F.encodeAll as = [] ↔ as = [] := by
  cases as with
  | nil => exact iff_of_true rfl rfl
  | cons a as => simp [F.encode_ne_nil a]

@[simp] theorem length_positions (pos : Nat) (as : List α) :
    (F.positions pos as).length = as.length := by
  induction as generalizing pos with
  | nil => rfl
  | cons a as ih => rw [positions, List.length_cons, List.length_cons, ih]

theorem positions_append (pos : Nat) (as bs : List α) :
    F.positions pos (as ++ bs) =
      F.positions pos as ++ F.positions (pos + (F.encodeAll as).length) bs := by
  induction as generalizing pos with
  | nil => rfl
  | cons a as ih =>
      rw [List.cons_append, positions, positions, ih, encodeAll_cons, List.length_append,
        Nat.add_assoc, List.cons_append]

/-- The record in the middle stands right behind those before it. -/
theorem getElem?_positions (as : List α) (a : α) (bs : List α) :
    (F.positions 0 (as ++ a :: bs))[as.length]? =
      some ((F.encodeAll as).length, (F.encodeAll as).length + (F.encode a).length) := by
  have behind := Nat.le_of_eq (F.length_positions 0 as)
  rw [positions_append, List.getElem?_append_right behind, length_positions, Nat.sub_self,
    Nat.zero_add]
  rfl

/-- Scanning a written stream gives the positions at which it was written. -/
theorem scan_encodeAll {fuel pos : Nat} {as : List α} (h : (F.encodeAll as).length ≤ fuel) :
    F.scan fuel pos (F.encodeAll as) = some (F.positions pos as) := by
  induction as generalizing fuel pos with
  | nil => cases fuel <;> rfl
  | cons a as ih =>
      obtain ⟨b, data, hcons⟩ := List.exists_cons_of_ne_nil (F.encode_ne_nil a)
      have next := F.next_encode a (F.encodeAll as)
      have dropped : (F.encode a ++ F.encodeAll as).drop (F.encode a).length = F.encodeAll as :=
        List.drop_left
      rw [encodeAll_cons, List.length_append] at h
      have positive : 0 < (F.encode a).length := by
        rw [hcons]
        exact Nat.succ_pos _
      obtain ⟨fuel, rfl⟩ : ∃ k, fuel = k + 1 := ⟨fuel - 1, by omega⟩
      have rest : F.scan fuel (pos + (F.encode a).length) (F.encodeAll as) = _ := ih (by omega)
      rw [encodeAll_cons, positions]
      generalize (F.encode a).length = n at *
      rw [hcons, List.cons_append] at next dropped ⊢
      rw [scan, next, Option.bind_some, dropped, rest, Option.map_some]

/-- The piece of the stream at each position is the code of one record. -/
theorem forall₂_positions (before : List β) (as : List α) :
    List.Forall₂
      (fun p a => ((before ++ F.encodeAll as).take p.2).drop p.1 = F.encode a ∧
        p.2 ≤ (before ++ F.encodeAll as).length)
      (F.positions before.length as) as := by
  induction as generalizing before with
  | nil => exact .nil
  | cons a as ih =>
      have split : before ++ F.encodeAll (a :: as) = before ++ F.encode a ++ F.encodeAll as := by
        rw [encodeAll_cons, List.append_assoc]
      have rest := ih (before ++ F.encode a)
      rw [split, positions, ← List.length_append]
      refine .cons ⟨?_, ?_⟩ rest
      · rw [List.take_left, List.drop_left]
      · exact (List.prefix_append _ _).length_le

/-! Streams of unknown origin. -/

/-- A record that is found is not empty and inside the stream, and it is found as well if
nothing follows it. -/
def Definite : Prop :=
  ∀ ⦃data : List β⦄ ⦃n : Nat⦄, F.next data = some n →
    0 < n ∧ n ≤ data.length ∧ F.next (data.take n) = some n

/-- A stream that can be scanned is split up into pieces with one record each. -/
theorem scan_tiles (definite : F.Definite) {fuel : Nat} (before : List β) {data : List β}
    {ps : List (Nat × Nat)} (h : F.scan fuel before.length data = some ps) :
    Tiles before.length ps (before ++ data).length ∧
      ∀ p ∈ ps, p.2 ≤ (before ++ data).length ∧
        F.next (((before ++ data).take p.2).drop p.1) =
          some (((before ++ data).take p.2).drop p.1).length := by
  induction fuel generalizing before data ps with
  | zero =>
      cases data with
      | nil =>
          cases h
          exact ⟨by rw [Tiles, List.append_nil], nofun⟩
      | cons b data => cases h
  | succ fuel ih =>
      cases data with
      | nil =>
          cases h
          exact ⟨by rw [Tiles, List.append_nil], nofun⟩
      | cons b data =>
          rw [scan] at h
          generalize b :: data = data at h ⊢
          obtain ⟨n, found, h⟩ := Option.bind_eq_some_iff.mp h
          obtain ⟨rest, scanned, rfl⟩ := Option.map_eq_some_iff.mp h
          obtain ⟨positive, inside, alone⟩ := definite found
          have length : (before ++ data.take n).length = before.length + n := by
            rw [List.length_append, List.length_take_of_le inside]
          have split : before ++ data = before ++ data.take n ++ data.drop n := by
            rw [List.append_assoc, List.take_append_drop]
          have piece : ((before ++ data).take (before.length + n)).drop before.length =
              data.take n := by
            rw [split, ← length, List.take_left, List.drop_left]
          rw [← length] at scanned
          obtain ⟨tiles, pieces⟩ := ih _ scanned
          rw [← split, length] at tiles
          rw [← split] at pieces
          refine ⟨⟨rfl, Nat.lt_add_of_pos_right positive, tiles⟩, ?_⟩
          intro p hp
          rcases List.mem_cons.mp hp with rfl | hp
          · refine ⟨?_, ?_⟩
            · rw [List.length_append]
              exact Nat.add_le_add_left inside _
            · rw [piece, List.length_take_of_le inside]
              exact alone
          · exact pieces p hp

/-! Streams that are cut off. -/

/-- A proper part of a code is not taken for a record. -/
def RefusesCut : Prop :=
  ∀ ⦃a : α⦄ ⦃part : List β⦄, part <+: F.encode a → part ≠ F.encode a → F.next part = none

/-- What is left of a code that is cut off somewhere, or nothing. -/
def Cut (part : List β) : Prop := ∃ a, part <+: F.encode a ∧ part ≠ F.encode a

/-- Wherever a stream is cut, there are some records and then a part of the next one. -/
theorem prefix_encodeAll {as : List α} {bytes : List β} (h : bytes <+: F.encodeAll as) :
    ∃ k part, bytes = F.encodeAll (as.take k) ++ part ∧ (part = [] ∨ F.Cut part) := by
  induction as generalizing bytes with
  | nil => exact ⟨0, [], List.prefix_nil.mp h, .inl rfl⟩
  | cons a as ih =>
      rw [encodeAll_cons] at h
      by_cases inside : bytes.length < (F.encode a).length
      · have part : bytes <+: F.encode a :=
          List.prefix_of_prefix_length_le h (List.prefix_append _ _) (Nat.le_of_lt inside)
        refine ⟨0, bytes, rfl, .inr ⟨a, part, ?_⟩⟩
        rintro rfl
        exact Nat.lt_irrefl _ inside
      · have first : F.encode a <+: bytes :=
          List.prefix_of_prefix_length_le (List.prefix_append _ _) h (Nat.not_lt.mp inside)
        obtain ⟨rest, rfl⟩ := first
        obtain ⟨k, part, rfl, cut⟩ := ih ((List.prefix_append_right_inj _).mp h)
        exact ⟨k + 1, part, by rw [List.take_succ_cons, encodeAll_cons, List.append_assoc], cut⟩

/-- A stream that does not end with a record cannot be scanned. -/
theorem scan_cut (refuses : F.RefusesCut) {as : List α} {part : List β} (cut : F.Cut part)
    (some_byte : part ≠ []) (fuel pos : Nat) :
    F.scan fuel pos (F.encodeAll as ++ part) = none := by
  induction as generalizing fuel pos with
  | nil =>
      obtain ⟨b, data, rfl⟩ := List.exists_cons_of_ne_nil some_byte
      obtain ⟨a, inside, proper⟩ := cut
      cases fuel with
      | zero => rfl
      | succ fuel =>
          rw [encodeAll_nil, List.nil_append, scan, refuses inside proper]
          rfl
  | cons a as ih =>
      obtain ⟨b, data, hcons⟩ := List.exists_cons_of_ne_nil (F.encode_ne_nil a)
      have next := F.next_encode a (F.encodeAll as ++ part)
      have dropped : (F.encode a ++ (F.encodeAll as ++ part)).drop (F.encode a).length =
          F.encodeAll as ++ part := List.drop_left
      have rest (fuel pos : Nat) := ih fuel pos
      rw [encodeAll_cons, List.append_assoc]
      generalize (F.encode a).length = n at *
      rw [hcons, List.cons_append] at next dropped ⊢
      cases fuel with
      | zero => rfl
      | succ fuel => rw [scan, next, Option.bind_some, dropped, rest, Option.map_none]

end Framing

/-! ### Numbers of variable length -/

/-- `fuel` is the number of bytes that may follow the first one. -/
def putUvarint : Nat → Nat → List UInt8
  | 0, x => [UInt8.ofNat x]
  | fuel + 1, x =>
      if x < 128 then [UInt8.ofNat x]
      else UInt8.ofNat (x % 128 + 128) :: putUvarint fuel (x / 128)

/-- The value and the number of bytes read, at byte `i` with the value `x` so far. A number
of 64 bits has at most ten bytes, and of the last one only the lowest bit counts. -/
def uvarint : Nat → Nat → List UInt8 → Option (Nat × Nat)
  | _, _, [] => none
  | i, x, b :: rest =>
      if i = 10 then none
      else if b.toNat < 128 then
        if i = 9 ∧ 1 < b.toNat then none else some (x + b.toNat * 2 ^ (7 * i), i + 1)
      else uvarint (i + 1) (x + b.toNat % 128 * 2 ^ (7 * i)) rest

theorem putUvarint_ne_nil (fuel x : Nat) : putUvarint fuel x ≠ [] := by
  cases fuel with
  | zero => exact List.cons_ne_nil _ _
  | succ fuel =>
      rw [putUvarint]
      split <;> exact List.cons_ne_nil _ _

theorem length_putUvarint_le (fuel x : Nat) : (putUvarint fuel x).length ≤ fuel + 1 := by
  induction fuel generalizing x with
  | zero => exact Nat.le_refl 1
  | succ fuel ih =>
      rw [putUvarint]
      split
      · exact Nat.le_add_left 1 (fuel + 1)
      · exact Nat.succ_le_succ (ih (x / 128))

/-- The number `y` is what is left of a number after `i` bytes. -/
theorem uvarint_putUvarint {fuel i x y : Nat} (hi : i + fuel = 9) (hy : y < 2 ^ (7 * fuel + 1))
    (rest : List UInt8) :
    uvarint i x (putUvarint fuel y ++ rest) =
      some (x + y * 2 ^ (7 * i), i + (putUvarint fuel y).length) := by
  induction fuel generalizing i x y with
  | zero =>
      have byte : (UInt8.ofNat y).toNat = y := by
        rw [UInt8.toNat_ofNat']
        omega
      rw [putUvarint, List.singleton_append, uvarint, byte, if_neg (by omega), if_pos (by omega),
        if_neg (by omega)]
      rfl
  | succ fuel ih =>
      rw [putUvarint]
      split
      · rename_i hlt
        have byte : (UInt8.ofNat y).toNat = y := by
          rw [UInt8.toNat_ofNat']
          omega
        rw [List.singleton_append, uvarint, byte, if_neg (by omega), if_pos hlt,
          if_neg (by omega)]
        rfl
      · rename_i hge
        have byte : (UInt8.ofNat (y % 128 + 128)).toNat = y % 128 + 128 := by
          rw [UInt8.toNat_ofNat']
          omega
        have bound : y / 128 < 2 ^ (7 * fuel + 1) := by
          rw [Nat.div_lt_iff_lt_mul (by decide)]
          have power : 2 ^ (7 * (fuel + 1) + 1) = 2 ^ (7 * fuel + 1) * 128 := by
            rw [show 7 * (fuel + 1) + 1 = 7 * fuel + 1 + 7 by omega, Nat.pow_add]
          omega
        have power : 2 ^ (7 * (i + 1)) = 128 * 2 ^ (7 * i) := by
          rw [show 7 * (i + 1) = 7 + 7 * i by omega, Nat.pow_add]
        have value : (y % 128 + 128) % 128 * 2 ^ (7 * i) + y / 128 * 2 ^ (7 * (i + 1)) =
            y * 2 ^ (7 * i) := by
          rw [power, ← Nat.mul_assoc, ← Nat.add_mul, Nat.add_mod_right, Nat.mod_mod,
            Nat.mul_comm (y / 128), Nat.mod_add_div]
        rw [List.cons_append, uvarint, byte, if_neg (by omega), if_neg (by omega),
          ih (by omega) bound, List.length_cons, Nat.add_assoc x, value]
        congr 2
        omega

/-- A number ends at its last byte, whatever follows it. -/
theorem uvarint_append {i x : Nat} {data : List UInt8} {value n : Nat}
    (h : uvarint i x data = some (value, n)) (more : List UInt8) :
    i < n ∧ n ≤ i + data.length ∧ uvarint i x (data ++ more) = some (value, n) := by
  induction data generalizing i x with
  | nil => cases h
  | cons b data ih =>
      rw [uvarint] at h
      rw [List.cons_append, uvarint, List.length_cons]
      split at h
      · cases h
      rename_i hi
      rw [if_neg hi]
      split at h
      · rename_i hlast
        rw [if_pos hlast]
        split at h
        · cases h
        · rename_i hbits
          rw [if_neg hbits]
          cases h
          exact ⟨by omega, by omega, rfl⟩
      · rename_i hlast
        rw [if_neg hlast]
        obtain ⟨hlt, hle, hmore⟩ := ih h
        exact ⟨by omega, by omega, hmore⟩

/-- The bytes of a number are enough to read it. -/
theorem uvarint_take {i x : Nat} {data : List UInt8} {value n m : Nat}
    (h : uvarint i x data = some (value, n)) (enough : n ≤ i + m) :
    uvarint i x (data.take m) = some (value, n) := by
  induction data generalizing i x m with
  | nil => cases h
  | cons b data ih =>
      have positive := (uvarint_append h []).1
      obtain ⟨m, rfl⟩ : ∃ k, m = k + 1 := ⟨m - 1, by omega⟩
      rw [uvarint] at h
      rw [List.take_succ_cons, uvarint]
      split at h
      · cases h
      next hi =>
        rw [if_neg hi]
        split at h
        next last =>
          rw [if_pos last]
          exact h
        next more =>
          rw [if_neg more]
          exact ih h (by omega)

end Library
