import RaftKv.Library.Framing
import RaftKv.Library.Wire

/-!
# Messages as fields on the wire

A message is a row of fields. Each has a tag, that is its number with the type of its
value, and the value behind it. What a message means is decided by who reads its fields; here it
is the row that counts. Groups, which only older messages have, are refused.

A row of fields is read back from its code. A code that is cut off somewhere is either
refused or read as a shorter row, never as anything else.
-/

namespace Library.Protobuf

/-- The value of a field, one constructor for each type that a tag can name. -/
inductive Value where
  | varint (x : UInt64)
  | fixed64 (data : List UInt8)
  | bytes (data : List UInt8)
  | fixed32 (data : List UInt8)
  deriving DecidableEq, Repr

structure Field where
  number : Nat
  value : Value
  deriving DecidableEq, Repr

def Value.wireType : Value → Nat
  | .varint _ => 0
  | .fixed64 _ => 1
  | .bytes _ => 2
  | .fixed32 _ => 5

def Value.encode : Value → List UInt8
  | .varint x => putUvarint 9 x.toNat
  | .bytes data => putUvarint 9 data.length ++ data
  | .fixed64 data | .fixed32 data => data

def Field.encode (f : Field) : List UInt8 :=
  putUvarint 9 (8 * f.number + f.value.wireType) ++ f.value.encode

/-- The code of a row of fields. -/
def encode (fs : List Field) : List UInt8 := (fs.map Field.encode).flatten

/-! ### Reading -/

/-- `ConsumeVarint`. -/
def consumeVarint (data : List UInt8) : Option (UInt64 × List UInt8) :=
  (uvarint 0 0 data).map fun (x, n) => (UInt64.ofNat x, data.drop n)

/-- The next `n` bytes. -/
def consume (n : Nat) (data : List UInt8) : Option (List UInt8 × List UInt8) :=
  if data.length < n then none else some (data.take n, data.drop n)

/-- `ConsumeFieldValue`. -/
def consumeFieldValue (wireType : Nat) (data : List UInt8) : Option (Value × List UInt8) :=
  match wireType with
  | 0 => (consumeVarint data).map fun (x, rest) => (.varint x, rest)
  | 1 => (consume 8 data).map fun (bytes, rest) => (.fixed64 bytes, rest)
  | 2 => (consumeVarint data).bind fun (n, rest) =>
      (consume n.toNat rest).map fun (bytes, rest) => (.bytes bytes, rest)
  | 5 => (consume 4 data).map fun (bytes, rest) => (.fixed32 bytes, rest)
  | _ => none

/-- A tag with a valid number, and the value behind it. -/
def consumeField (data : List UInt8) : Option (Field × List UInt8) :=
  (consumeVarint data).bind fun (tag, rest) =>
    if 1 ≤ tag.toNat / 8 ∧ tag.toNat / 8 < 2 ^ 29 then
      (consumeFieldValue (tag.toNat % 8) rest).map fun (value, rest) =>
        ({ number := tag.toNat / 8, value := value }, rest)
    else none

/-- All fields, if nothing else is left. -/
def parse (data : List UInt8) : Option (List Field) :=
  match readAll consumeField data.length data with
  | (fs, []) => some fs
  | (_, _ :: _) => none

/-! ### Fields that can be written -/

def Value.Encodable : Value → Prop
  | .varint _ => True
  | .fixed64 data => data.length = 8
  | .bytes data => data.length < 2 ^ 64
  | .fixed32 data => data.length = 4

def Field.Encodable (f : Field) : Prop :=
  (1 ≤ f.number ∧ f.number < 2 ^ 29) ∧ f.value.Encodable

theorem Value.wireType_lt (v : Value) : v.wireType < 8 := by
  cases v <;> simp [wireType]

theorem consumeVarint_putUvarint {n : Nat} (hn : n < 2 ^ 64) (rest : List UInt8) :
    consumeVarint (putUvarint 9 n ++ rest) = some (UInt64.ofNat n, rest) := by
  rw [consumeVarint, uvarint_putUvarint (by decide) hn, Option.map_some]
  dsimp only
  rw [Nat.zero_add, Nat.zero_add, Nat.mul_zero, Nat.pow_zero, Nat.mul_one, List.drop_left]

theorem consume_append {n : Nat} {data : List UInt8} (hn : data.length = n) (rest : List UInt8) :
    consume n (data ++ rest) = some (data, rest) := by
  have long : ¬(data ++ rest).length < n := by
    rw [List.length_append]
    omega
  rw [consume, if_neg long, List.take_left' hn, List.drop_left' hn]

theorem consumeFieldValue_encode {v : Value} (hv : v.Encodable) (rest : List UInt8) :
    consumeFieldValue v.wireType (v.encode ++ rest) = some (v, rest) := by
  cases v with
  | varint x =>
      rw [Value.wireType, consumeFieldValue, Value.encode, consumeVarint_putUvarint x.toNat_lt,
        Option.map_some, UInt64.ofNat_toNat]
  | fixed64 data =>
      rw [Value.wireType, consumeFieldValue, Value.encode, consume_append hv, Option.map_some]
  | bytes data =>
      rw [Value.wireType, consumeFieldValue, Value.encode, List.append_assoc,
        consumeVarint_putUvarint hv, Option.bind_some]
      dsimp only
      rw [UInt64.toNat_ofNat_of_lt' hv, consume_append rfl, Option.map_some]
  | fixed32 data =>
      rw [Value.wireType, consumeFieldValue, Value.encode, consume_append hv, Option.map_some]

theorem consumeField_encode {f : Field} (hf : f.Encodable) (rest : List UInt8) :
    consumeField (f.encode ++ rest) = some (f, rest) := by
  obtain ⟨hnumber, hvalue⟩ := hf
  have htype := f.value.wireType_lt
  have htag : 8 * f.number + f.value.wireType < 2 ^ 64 := by omega
  have number : (8 * f.number + f.value.wireType) / 8 = f.number := by omega
  have wireType : (8 * f.number + f.value.wireType) % 8 = f.value.wireType := by omega
  rw [consumeField, Field.encode, List.append_assoc, consumeVarint_putUvarint htag,
    Option.bind_some]
  dsimp only
  rw [UInt64.toNat_ofNat_of_lt' htag, number, wireType, if_pos hnumber,
    consumeFieldValue_encode hvalue, Option.map_some]

theorem Field.encode_ne_nil (f : Field) : f.encode ≠ [] :=
  List.append_ne_nil_of_left_ne_nil (putUvarint_ne_nil _ _) _

theorem codes_of {fs : List Field} (hfs : ∀ f ∈ fs, f.Encodable) :
    List.Forall₂ (fun f code => code ≠ [] ∧ ∀ rest, consumeField (code ++ rest) = some (f, rest))
      fs (fs.map Field.encode) := by
  induction fs with
  | nil => exact .nil
  | cons f fs ih =>
      obtain ⟨hf, hfs⟩ := List.forall_mem_cons.mp hfs
      exact .cons ⟨f.encode_ne_nil, consumeField_encode hf⟩ (ih hfs)

/-- What is written is read back. -/
theorem parse_encode {fs : List Field} (hfs : ∀ f ∈ fs, f.Encodable) :
    parse (encode fs) = some fs := by
  rw [parse, encode, readAll_flatten (codes_of hfs) (Nat.le_refl _) rfl]

/-! ### Codes that are cut off -/

theorem consumeVarint_streaming : Streaming consumeVarint := by
  intro data x rest h more
  obtain ⟨⟨value, n⟩, hread, hresult⟩ := Option.map_eq_some_iff.mp h
  cases hresult
  obtain ⟨-, hn, hmore⟩ := uvarint_append hread more
  rw [consumeVarint, hmore, Option.map_some]
  dsimp only
  rw [List.drop_append_of_le_length (by omega)]

theorem consume_streaming (n : Nat) : Streaming (consume n) := by
  intro data bytes rest h more
  obtain ⟨hlong, hresult⟩ := Option.ite_none_left_eq_some.mp h
  cases hresult
  have longer : ¬(data ++ more).length < n := by
    rw [List.length_append]
    omega
  rw [consume, if_neg longer, List.take_append_of_le_length (by omega),
    List.drop_append_of_le_length (by omega)]

theorem consumeFieldValue_streaming (wireType : Nat) : Streaming (consumeFieldValue wireType) := by
  intro data value rest h more
  rw [consumeFieldValue.eq_def] at h ⊢
  split at h
  · obtain ⟨⟨x, rest⟩, hread, ⟨⟩⟩ := Option.map_eq_some_iff.mp h
    dsimp only
    rw [consumeVarint_streaming hread more, Option.map_some]
  · obtain ⟨⟨bytes, rest⟩, hread, ⟨⟩⟩ := Option.map_eq_some_iff.mp h
    dsimp only
    rw [consume_streaming 8 hread more, Option.map_some]
  · obtain ⟨⟨n, behind⟩, hlength, hread⟩ := Option.bind_eq_some_iff.mp h
    obtain ⟨⟨bytes, rest⟩, hread, ⟨⟩⟩ := Option.map_eq_some_iff.mp hread
    dsimp only
    rw [consumeVarint_streaming hlength more, Option.bind_some]
    dsimp only
    rw [consume_streaming n.toNat hread more, Option.map_some]
  · obtain ⟨⟨bytes, rest⟩, hread, ⟨⟩⟩ := Option.map_eq_some_iff.mp h
    dsimp only
    rw [consume_streaming 4 hread more, Option.map_some]
  · cases h

theorem consumeField_streaming : Streaming consumeField := by
  intro data f rest h more
  obtain ⟨⟨tag, behind⟩, htag, h⟩ := Option.bind_eq_some_iff.mp h
  obtain ⟨hnumber, h⟩ := Option.ite_none_right_eq_some.mp h
  obtain ⟨⟨value, rest⟩, hvalue, ⟨⟩⟩ := Option.map_eq_some_iff.mp h
  rw [consumeField, consumeVarint_streaming htag more, Option.bind_some]
  dsimp only
  rw [if_pos hnumber, consumeFieldValue_streaming _ hvalue more, Option.map_some]

/-- If a code is cut off and can still be read, then the cut is between two fields. -/
theorem parse_take {fs gs : List Field} (hfs : ∀ f ∈ fs, f.Encodable) {k : Nat}
    (hk : k < (encode fs).length) (hparse : parse ((encode fs).take k) = some gs) :
    ∃ j < fs.length, gs = fs.take j ∧ (encode fs).take k = encode (fs.take j) := by
  obtain ⟨j, rest, hread, hsplit⟩ :=
    readAll_take consumeField_streaming (codes_of hfs) (Nat.le_refl k) rfl
  have length : ((encode fs).take k).length = k := List.length_take_of_le (Nat.le_of_lt hk)
  rw [parse, length, encode, hread] at hparse
  cases rest with
  | cons b rest => cases hparse
  | nil =>
      cases hparse
      rw [List.append_nil] at hsplit
      have cut : (encode fs).take k = encode (fs.take j) := by
        rw [encode, encode, List.map_take]
        exact hsplit
      refine ⟨j, ?_, rfl, cut⟩
      by_contra hj
      have all : (fs.map Field.encode).length ≤ j := by
        rw [List.length_map]
        omega
      rw [List.take_of_length_le all] at hsplit
      have whole : ((encode fs).take k).length = (encode fs).length := by rw [encode, hsplit]
      omega

end Library.Protobuf
