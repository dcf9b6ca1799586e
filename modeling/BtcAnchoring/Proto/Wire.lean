import BtcAnchoring.Exonum

/-!
# BtcAnchoring — protobuf wire format

`BinaryMap` is stored through rust-protobuf 2.x: `write_to_bytes` writes each
field as a tag (field number and wire type, as a varint) and a value, and
`merge_from_bytes` reads fields until the input ends. This module models the
part of the wire format the anchoring messages use:

* base-128 varints, seven bits a byte, low first, the high bit marking that
  more bytes follow. `read_raw_varint64` reads at most ten bytes
  (`IncorrectVarint` before an eleventh) and keeps the low 64 bits;
  `read_raw_varint32`, which reads tags, keeps the low 32, so the field
  number of a tag is below 2^29;
* tags, which must carry a known wire type and a non-zero field number;
* the length of a length-delimited value, read here as a varint of any size.
  The runtime reads it with `read_raw_varint32` (`read_raw_varint64` for an
  embedded message), but it computes the sizes it writes in `u32` and cannot
  write a value of 4 GiB or more (`to_bytes` panics there); on every length
  below 2^32 the two reads agree (`readRawVarint32_writeRawVarint`), and
  reading any length keeps the codec's round trip true at every size;
* a `bytes` value or an unknown length-delimited one, a length past the end
  of the input being `UnexpectedEof`;
* an embedded message (`merge_message`), read in place: its length sets a
  limit that `push_limit` checks against no end of input, and the nested
  `merge_from` reads fields until the limit or the end of the input, with no
  check that it reached the limit. The nested message is therefore read from
  the bytes up to the limit or to the end of the input, whichever comes
  first, and reading goes on after the limit;
* a message's known fields, whose wire type is checked before the value is
  read, and its unknown fields, whose values are read and set aside, a group
  being skipped up to its end (`read_unknown_or_skip_group`).

The recursion limit and the `LimitOverflow` of `push_limit` are not
modelled: `BinaryMap` nests one message, and lengths are unbounded here.

Main results:

* `readRawVarint64_writeRawVarint`, `readTagUnpack_writeTag` — a `u64` varint
  reads back, and so does the tag of a field number below 2^29.
* `readField_write` — every field a writer produces reads back, whatever its
  wire type and whether or not the message knows its number.
* `mergeFields_flatMap_write` — reading any sequence of written fields folds
  the message's merge over them, in order.
* `mergeFields_take_flatMap_write` — a truncated encoding is accepted only at
  a field boundary, as the fields before the cut, or inside the payload of an
  embedded message, which is then read up to the cut.
* `mergeFields_skip_group` — an unknown group of written fields is skipped
  whole.
-/

namespace BtcAnchoring.Proto

/-- Wire types (`WireType`). -/
inductive WireType
  | varint
  | fixed64
  | lengthDelimited
  | startGroup
  | endGroup
  | fixed32
  deriving DecidableEq, Repr

/-- The number of a wire type, the low three bits of a tag. -/
def WireType.toNat : WireType → Nat
  | .varint => 0
  | .fixed64 => 1
  | .lengthDelimited => 2
  | .startGroup => 3
  | .endGroup => 4
  | .fixed32 => 5

/-- `WireType::new`. -/
def WireType.ofNat? : Nat → Option WireType
  | 0 => some .varint
  | 1 => some .fixed64
  | 2 => some .lengthDelimited
  | 3 => some .startGroup
  | 4 => some .endGroup
  | 5 => some .fixed32
  | _ => none

/-- `write_raw_varint64` (and `write_raw_varint32`, on a `u32`). -/
def writeRawVarint (n : Nat) : List UInt8 :=
  if n < 128 then [n.toUInt8] else (n % 128 + 128).toUInt8 :: writeRawVarint (n / 128)
termination_by n
decreasing_by omega

/-- The loop of `read_raw_varint64`, `maxBytes` bytes left to read: a byte
below `0x80` ends the varint, and `IncorrectVarint` is raised before a byte
past the budget is read. -/
def readRawVarintBounded : Nat → List UInt8 → Except WireError (Nat × List UInt8)
  | 0, _ => .error .incorrectVarint
  | _ + 1, [] => .error .unexpectedEof
  | maxBytes + 1, b :: rest =>
    if b.toNat < 128 then .ok (b.toNat, rest)
    else
      match readRawVarintBounded maxBytes rest with
      | .ok (m, rest') => .ok (b.toNat - 128 + 128 * m, rest')
      | .error e => .error e

/-- `read_raw_varint64`: at most ten bytes, the bits past the 64th dropped. -/
def readRawVarint64 (bytes : List UInt8) : Except WireError (Nat × List UInt8) :=
  (readRawVarintBounded 10 bytes).map fun (v, rest) => (v % 2 ^ 64, rest)

/-- `read_raw_varint32`: `read_raw_varint64` cast to `u32`. -/
def readRawVarint32 (bytes : List UInt8) : Except WireError (Nat × List UInt8) :=
  (readRawVarint64 bytes).map fun (v, rest) => (v % 2 ^ 32, rest)

/-- The length of a length-delimited value, read as a varint of any size: the
budget is never spent before the input is. See the module docstring. -/
def readLength (bytes : List UInt8) : Except WireError (Nat × List UInt8) :=
  readRawVarintBounded (bytes.length + 1) bytes

/-- `write_tag`. -/
def writeTag (fieldNumber : Nat) (wireType : WireType) : List UInt8 :=
  writeRawVarint (fieldNumber * 8 + wireType.toNat)

/-- `read_tag_unpack`: `Tag::new` takes the wire type of a `read_raw_varint32`
value `v` from `v & 7` and the field number from `v >> 3`, and refuses an
unknown wire type and the field number 0 with `IncorrectTag(v)`. -/
def readTagUnpack (bytes : List UInt8) : Except WireError ((Nat × WireType) × List UInt8) :=
  match readRawVarint32 bytes with
  | .error e => .error e
  | .ok (tag, rest) =>
    match WireType.ofNat? (tag % 8) with
    | some wireType => if tag / 8 = 0 then .error (.incorrectTag tag) else .ok ((tag / 8, wireType), rest)
    | none => .error (.incorrectTag tag)

/-- `read_raw_bytes`: exactly `n` bytes. -/
def readRawBytes (n : Nat) (bytes : List UInt8) : Except WireError (List UInt8 × List UInt8) :=
  if n ≤ bytes.length then .ok (bytes.take n, bytes.drop n) else .error .unexpectedEof

/-- `write_bytes`: a length-delimited field. -/
def writeBytes (fieldNumber : Nat) (payload : List UInt8) : List UInt8 :=
  writeTag fieldNumber .lengthDelimited ++ writeRawVarint payload.length ++ payload

/-- A field as read from the wire, with its number. -/
inductive Field
  | varint (number : Nat) (value : Nat)
  | fixed64 (number : Nat) (bytes : List UInt8)
  | lengthDelimited (number : Nat) (payload : List UInt8)
  | fixed32 (number : Nat) (bytes : List UInt8)
  deriving DecidableEq, Repr

/-- `read_unknown`, and the typed readers of a value: a varint by
`read_raw_varint64`, a fixed-width value as its bytes, a length-delimited one
as the bytes its length announces. A group tag has no value here. -/
def readValue (number : Nat) (wireType : WireType) (bytes : List UInt8) :
    Except WireError (Field × List UInt8) :=
  match wireType with
  | .varint => (readRawVarint64 bytes).map fun (v, rest) => (.varint number v, rest)
  | .fixed64 => (readRawBytes 8 bytes).map fun (v, rest) => (.fixed64 number v, rest)
  | .lengthDelimited =>
    match readLength bytes with
    | .ok (len, rest) => (readRawBytes len rest).map fun (v, rest') => (.lengthDelimited number v, rest')
    | .error e => .error e
  | .fixed32 => (readRawBytes 4 bytes).map fun (v, rest) => (.fixed32 number v, rest)
  | .startGroup | .endGroup => .error (.unexpectedWireType wireType.toNat)

-- ---------------------------------------------------------------------------
-- Reading consumes input
-- ---------------------------------------------------------------------------

theorem exceptMap_eq_ok {ε α β : Type} {f : α → β} {x : Except ε α} {b : β} :
    x.map f = .ok b ↔ ∃ a, x = .ok a ∧ f a = b := by
  cases x <;> simp [Except.map]

theorem readRawVarintBounded_length : ∀ {maxBytes : Nat} {bytes rest : List UInt8} {n : Nat},
    readRawVarintBounded maxBytes bytes = .ok (n, rest) → rest.length < bytes.length
  | 0, _, _, _, h => nomatch h
  | _ + 1, [], _, _, h => nomatch h
  | maxBytes + 1, b :: bs, rest, n, h => by
    unfold readRawVarintBounded at h
    split_ifs at h
    · cases h; exact Nat.lt_succ_self _
    · split at h
      · rename_i hrest
        cases h
        have := readRawVarintBounded_length hrest
        simp only [List.length_cons]; omega
      · cases h

theorem readRawVarint64_length {bytes rest : List UInt8} {n : Nat}
    (h : readRawVarint64 bytes = .ok (n, rest)) : rest.length < bytes.length := by
  obtain ⟨⟨v, rest'⟩, hv, he⟩ := exceptMap_eq_ok.mp h
  obtain ⟨-, rfl⟩ := Prod.mk.inj he
  exact readRawVarintBounded_length hv

theorem readRawVarint32_length {bytes rest : List UInt8} {n : Nat}
    (h : readRawVarint32 bytes = .ok (n, rest)) : rest.length < bytes.length := by
  obtain ⟨⟨v, rest'⟩, hv, he⟩ := exceptMap_eq_ok.mp h
  obtain ⟨-, rfl⟩ := Prod.mk.inj he
  exact readRawVarint64_length hv

theorem readRawBytes_length {k : Nat} {bytes v rest : List UInt8}
    (h : readRawBytes k bytes = .ok (v, rest)) : rest.length ≤ bytes.length := by
  unfold readRawBytes at h
  split_ifs at h
  cases h
  exact (List.length_drop k bytes).trans_le (Nat.sub_le _ _)

theorem readTagUnpack_length {bytes rest : List UInt8} {tag : Nat × WireType}
    (h : readTagUnpack bytes = .ok (tag, rest)) : rest.length < bytes.length := by
  unfold readTagUnpack at h
  split at h
  · cases h
  · rename_i hv
    split at h
    · split_ifs at h
      cases h
      exact readRawVarint32_length hv
    · cases h

theorem readValue_length {number : Nat} {wireType : WireType} {bytes rest : List UInt8}
    {f : Field} (h : readValue number wireType bytes = .ok (f, rest)) :
    rest.length ≤ bytes.length := by
  cases wireType with
  | varint =>
    obtain ⟨⟨v, rest'⟩, hv, he⟩ := exceptMap_eq_ok.mp h
    obtain ⟨-, rfl⟩ := Prod.mk.inj he
    exact (readRawVarint64_length hv).le
  | fixed64 | fixed32 =>
    obtain ⟨⟨v, rest'⟩, hv, he⟩ := exceptMap_eq_ok.mp h
    obtain ⟨-, rfl⟩ := Prod.mk.inj he
    exact readRawBytes_length hv
  | lengthDelimited =>
    simp only [readValue] at h
    split at h
    · rename_i hlen
      obtain ⟨⟨v, rest'⟩, hv, he⟩ := exceptMap_eq_ok.mp h
      obtain ⟨-, rfl⟩ := Prod.mk.inj he
      exact (readRawBytes_length hv).trans (readRawVarintBounded_length hlen).le
    · cases h
  | startGroup | endGroup => cases h

/-- `skip_group`: the fields of a group are read and dropped up to an
`EndGroup` tag, whatever its number, or to the end of the input; a group
inside it is skipped the same way (`read_unknown` of a `StartGroup`). -/
def skipGroup (bytes : List UInt8) : Except WireError {rest : List UInt8 // rest.length ≤ bytes.length} :=
  match bytes with
  | [] => .ok ⟨[], le_rfl⟩
  | b :: bs =>
    match h : readTagUnpack (b :: bs) with
    | .error e => .error e
    | .ok ((number, wireType), rest) =>
      have hrest : rest.length < (b :: bs).length := readTagUnpack_length h
      if wireType = .endGroup then .ok ⟨rest, hrest.le⟩
      else if wireType = .startGroup then
        match skipGroup rest with
        | .error e => .error e
        | .ok ⟨rest', hrest'⟩ =>
          have : rest'.length < (b :: bs).length := lt_of_le_of_lt hrest' hrest
          (skipGroup rest').map fun r => ⟨r.1, r.2.trans this.le⟩
      else
        match hv : readValue number wireType rest with
        | .error e => .error e
        | .ok (_, rest') =>
          have : rest'.length < (b :: bs).length := lt_of_le_of_lt (readValue_length hv) hrest
          (skipGroup rest').map fun r => ⟨r.1, r.2.trans this.le⟩
termination_by bytes.length

/-- How a message reads one of its fields: a value of a wire type (`bytes`
and the scalar types), or an embedded message, read in place. -/
inductive FieldType
  | scalar (wireType : WireType)
  | message
  deriving DecidableEq, Repr

/-- The wire type a field of the type is sent with. -/
def FieldType.wireType : FieldType → WireType
  | scalar wireType => wireType
  | message => .lengthDelimited

/-- `merge_message` up to the nested `merge_from`: the length read sets a
limit that is not checked against the end of the input; the nested message
reads the bytes up to the limit or to the end of the input, and reading goes
on after the limit. -/
def readMessage (number : Nat) (bytes : List UInt8) : Except WireError (Field × List UInt8) :=
  match readLength bytes with
  | .ok (len, rest) => .ok (.lengthDelimited number (rest.take len), rest.drop len)
  | .error e => .error e

/-- The reader of a known field's value: the typed reader of a scalar
(`read_singular_proto3_bytes_into` for `bytes`), `merge_message` for an
embedded message. -/
def FieldType.read (number : Nat) : FieldType → List UInt8 → Except WireError (Field × List UInt8)
  | scalar wireType => readValue number wireType
  | message => readMessage number

/-- The field dispatch of `merge_from` once a tag is read: a known field of
another wire type is refused before its value is read, and an unknown field
goes to `read_unknown_or_skip_group`, which skips a group, giving no field. -/
def readFieldValue (known : Nat → Option FieldType) (number : Nat) (wireType : WireType)
    (bytes : List UInt8) : Except WireError (Option Field × List UInt8) :=
  match known number with
  | some fieldType =>
    if wireType = fieldType.wireType then
      (fieldType.read number bytes).map fun (f, rest) => (some f, rest)
    else .error (.unexpectedWireType wireType.toNat)
  | none =>
    if wireType = .startGroup then (skipGroup bytes).map fun rest => (none, rest.1)
    else (readValue number wireType bytes).map fun (f, rest) => (some f, rest)

/-- One field of a message whose known fields have the types `known` gives. -/
def readField (known : Nat → Option FieldType) (bytes : List UInt8) :
    Except WireError (Option Field × List UInt8) :=
  match readTagUnpack bytes with
  | .error e => .error e
  | .ok ((number, wireType), rest) => readFieldValue known number wireType rest

theorem readLength_length {bytes rest : List UInt8} {n : Nat}
    (h : readLength bytes = .ok (n, rest)) : rest.length < bytes.length :=
  readRawVarintBounded_length h

theorem FieldType.read_length {t : FieldType} {number : Nat} {bytes rest : List UInt8} {f : Field}
    (h : t.read number bytes = .ok (f, rest)) : rest.length ≤ bytes.length := by
  cases t with
  | scalar wireType => exact readValue_length h
  | message =>
    simp only [FieldType.read, readMessage] at h
    split at h
    · rename_i hlen
      cases h
      exact (List.length_drop _ _).trans_le (Nat.sub_le _ _) |>.trans (readLength_length hlen).le
    · cases h

theorem readFieldValue_length {known : Nat → Option FieldType} {number : Nat} {wireType : WireType}
    {bytes rest : List UInt8} {o : Option Field}
    (h : readFieldValue known number wireType bytes = .ok (o, rest)) : rest.length ≤ bytes.length := by
  unfold readFieldValue at h
  split at h
  · split_ifs at h
    obtain ⟨⟨f, rest'⟩, hr, he⟩ := exceptMap_eq_ok.mp h
    obtain ⟨-, rfl⟩ := Prod.mk.inj he
    exact FieldType.read_length hr
  · split_ifs at h
    · obtain ⟨⟨rest', hle⟩, -, he⟩ := exceptMap_eq_ok.mp h
      obtain ⟨-, rfl⟩ := Prod.mk.inj he
      exact hle
    · obtain ⟨⟨f, rest'⟩, hr, he⟩ := exceptMap_eq_ok.mp h
      obtain ⟨-, rfl⟩ := Prod.mk.inj he
      exact readValue_length hr

/-- Every field read consumes at least one byte. -/
theorem readField_length {known : Nat → Option FieldType} {bytes rest : List UInt8} {o : Option Field}
    (h : readField known bytes = .ok (o, rest)) : rest.length < bytes.length := by
  unfold readField at h
  split at h
  · cases h
  · rename_i htag
    exact lt_of_le_of_lt (readFieldValue_length h) (readTagUnpack_length htag)

/-- `Message::merge_from` over a whole input: fields are read until the input
ends, and each is merged into the message; a skipped group gives none. -/
def mergeFields {α : Type} (known : Nat → Option FieldType) (merge : α → Field → Except WireError α)
    (msg : α) (bytes : List UInt8) : Except WireError α :=
  match bytes with
  | [] => .ok msg
  | b :: bs =>
    match h : readField known (b :: bs) with
    | .error e => .error e
    | .ok (none, rest) =>
      have : rest.length < (b :: bs).length := readField_length h
      mergeFields known merge msg rest
    | .ok (some f, rest) =>
      have : rest.length < (b :: bs).length := readField_length h
      match merge msg f with
      | .error e => .error e
      | .ok msg' => mergeFields known merge msg' rest
termination_by bytes.length

-- ---------------------------------------------------------------------------
-- Varints and tags
-- ---------------------------------------------------------------------------

@[simp] theorem toNat_toUInt8 (n : Nat) : n.toUInt8.toNat = n % 256 :=
  rfl

@[simp] theorem WireType.ofNat?_toNat (w : WireType) : WireType.ofNat? w.toNat = some w := by
  cases w <;> rfl

theorem WireType.toNat_lt (w : WireType) : w.toNat < 8 := by
  cases w <;> decide

theorem writeRawVarint_of_lt {n : Nat} (h : n < 128) : writeRawVarint n = [n.toUInt8] := by
  rw [writeRawVarint, if_pos h]

theorem writeRawVarint_ne_nil (n : Nat) : writeRawVarint n ≠ [] := by
  rw [writeRawVarint]
  split_ifs <;> exact List.cons_ne_nil _ _

/-- A number below `128 ^ (k + 1)` takes at most `k + 1` bytes. -/
theorem length_writeRawVarint_le {n k : Nat} (h : n < 128 ^ (k + 1)) :
    (writeRawVarint n).length ≤ k + 1 := by
  induction k generalizing n with
  | zero => rw [writeRawVarint_of_lt (by simpa using h)]; rfl
  | succ k ih =>
    rw [writeRawVarint]
    split_ifs
    · simp
    · rw [List.length_cons, Nat.add_le_add_iff_right]
      exact ih (by rw [Nat.pow_succ] at h; omega)

/-- A varint of at most `maxBytes` bytes reads back, whatever follows it. -/
theorem readRawVarintBounded_writeRawVarint {n maxBytes : Nat}
    (h : (writeRawVarint n).length ≤ maxBytes) (rest : List UInt8) :
    readRawVarintBounded maxBytes (writeRawVarint n ++ rest) = .ok (n, rest) := by
  induction n using Nat.strongRecOn generalizing maxBytes with
  | _ n ih =>
    cases maxBytes with
    | zero => exact absurd (List.length_eq_zero.mp (Nat.le_zero.mp h)) (writeRawVarint_ne_nil n)
    | succ m =>
      rw [writeRawVarint] at h ⊢
      split_ifs at h ⊢ with hn
      · simp only [readRawVarintBounded, List.append_eq, List.cons_append, List.nil_append,
          toNat_toUInt8, Nat.mod_eq_of_lt (by omega : n < 256), hn, ↓reduceIte]
      · have hcont : ¬ n % 128 + 128 < 128 := by omega
        rw [List.length_cons] at h
        simp only [readRawVarintBounded, List.append_eq, List.cons_append, toNat_toUInt8,
          Nat.mod_eq_of_lt (by omega : n % 128 + 128 < 256), hcont, ↓reduceIte,
          ih _ (by omega) (Nat.le_of_succ_le_succ h), Nat.add_sub_cancel, Nat.mod_add_div]

theorem length_writeRawVarint_le_ten {n : Nat} (hn : n < 2 ^ 64) : (writeRawVarint n).length ≤ 10 :=
  length_writeRawVarint_le (lt_of_lt_of_le hn (by decide))

/-- **A `u64` varint reads back**, whatever follows it. -/
theorem readRawVarint64_writeRawVarint {n : Nat} (hn : n < 2 ^ 64) (rest : List UInt8) :
    readRawVarint64 (writeRawVarint n ++ rest) = .ok (n, rest) := by
  simp only [readRawVarint64, readRawVarintBounded_writeRawVarint (length_writeRawVarint_le_ten hn),
    Except.map, Nat.mod_eq_of_lt hn]

theorem readRawVarint32_writeRawVarint {n : Nat} (hn : n < 2 ^ 32) (rest : List UInt8) :
    readRawVarint32 (writeRawVarint n ++ rest) = .ok (n, rest) := by
  simp only [readRawVarint32, readRawVarint64_writeRawVarint (lt_of_lt_of_le hn (by decide)),
    Except.map, Nat.mod_eq_of_lt hn]

theorem readLength_writeRawVarint (n : Nat) (rest : List UInt8) :
    readLength (writeRawVarint n ++ rest) = .ok (n, rest) :=
  readRawVarintBounded_writeRawVarint (by rw [List.length_append]; omega) rest

theorem length_writeTag_le {fieldNumber : Nat} (hlt : fieldNumber < 2 ^ 29) (w : WireType) :
    (writeTag fieldNumber w).length ≤ 5 :=
  length_writeRawVarint_le (by have := w.toNat_lt; omega)

/-- **The tag of a field number below 2^29 reads back.** -/
theorem readTagUnpack_writeTag {fieldNumber : Nat} (hf : 0 < fieldNumber) (hlt : fieldNumber < 2 ^ 29)
    (w : WireType) (rest : List UInt8) :
    readTagUnpack (writeTag fieldNumber w ++ rest) = .ok ((fieldNumber, w), rest) := by
  have hw := w.toNat_lt
  have hmod : (fieldNumber * 8 + w.toNat) % 8 = w.toNat := by omega
  have hdiv : (fieldNumber * 8 + w.toNat) / 8 = fieldNumber := by omega
  rw [readTagUnpack, writeTag, readRawVarint32_writeRawVarint (by omega) rest]
  simp only [hmod, hdiv, WireType.ofNat?_toNat, hf.ne', ↓reduceIte]

theorem readField_writeTag {known : Nat → Option FieldType} {number : Nat} (hf : 0 < number)
    (hlt : number < 2 ^ 29) (w : WireType) (bytes : List UInt8) :
    readField known (writeTag number w ++ bytes) = readFieldValue known number w bytes := by
  rw [readField, readTagUnpack_writeTag hf hlt]

theorem readRawBytes_append (payload rest : List UInt8) :
    readRawBytes payload.length (payload ++ rest) = .ok (payload, rest) := by
  simp only [readRawBytes, List.length_append, Nat.le_add_right, ↓reduceIte, List.take_left,
    List.drop_left]

-- ---------------------------------------------------------------------------
-- Fields a writer produces
-- ---------------------------------------------------------------------------

/-- The number of a field. -/
def Field.number : Field → Nat
  | .varint n _ | .fixed64 n _ | .lengthDelimited n _ | .fixed32 n _ => n

/-- The wire type a field is written with. -/
def Field.wireType : Field → WireType
  | .varint .. => .varint
  | .fixed64 .. => .fixed64
  | .lengthDelimited .. => .lengthDelimited
  | .fixed32 .. => .fixed32

/-- The value of a field as its wire type lays it out. -/
def Field.writeValue : Field → List UInt8
  | .varint _ v => writeRawVarint v
  | .fixed64 _ b | .fixed32 _ b => b
  | .lengthDelimited _ p => writeRawVarint p.length ++ p

/-- `write_unknown` and the typed writers (`write_uint64`, `write_fixed64`,
`write_bytes`, `write_fixed32`, and `write_raw_varint32` of the size then
`write_to_with_cached_sizes` for an embedded message): the tag, then the
value. -/
def Field.write (f : Field) : List UInt8 :=
  writeTag f.number f.wireType ++ f.writeValue

/-- A value the runtime's types hold: a varint is a `u64`, a fixed-width value
has its width. -/
def Field.Fits : Field → Prop
  | .varint _ v => v < 2 ^ 64
  | .fixed64 _ b => b.length = 8
  | .fixed32 _ b => b.length = 4
  | .lengthDelimited .. => True

/-- A field that a message whose known fields have the types `known` reads
back: a field number from 1 to `2^29 - 1`, a known number only with the wire
type of its type, and a value that fits. Writers produce only such fields. -/
structure Field.Readable (known : Nat → Option FieldType) (f : Field) : Prop where
  number_pos : 0 < f.number
  number_lt : f.number < 2 ^ 29
  wireType_known : ∀ t, known f.number = some t → t.wireType = f.wireType
  fits : f.Fits

instance Field.decidableFits : (f : Field) → Decidable f.Fits
  | .varint _ v => inferInstanceAs (Decidable (v < 2 ^ 64))
  | .fixed64 _ b => inferInstanceAs (Decidable (b.length = 8))
  | .fixed32 _ b => inferInstanceAs (Decidable (b.length = 4))
  | .lengthDelimited .. => isTrue trivial

theorem Field.readable_iff {known : Nat → Option FieldType} {f : Field} :
    f.Readable known ↔ 0 < f.number ∧ f.number < 2 ^ 29 ∧
      (known f.number).all (fun t => t.wireType == f.wireType) ∧ f.Fits := by
  constructor
  · rintro ⟨hpos, hlt, hknown, hfits⟩
    refine ⟨hpos, hlt, ?_, hfits⟩
    cases hk : known f.number with
    | none => rfl
    | some t => simpa [Option.all] using hknown t hk
  · rintro ⟨hpos, hlt, hknown, hfits⟩
    refine ⟨hpos, hlt, fun t ht => ?_, hfits⟩
    rw [ht] at hknown
    simpa [Option.all] using hknown

instance Field.decidableReadable (known : Nat → Option FieldType) (f : Field) :
    Decidable (f.Readable known) :=
  decidable_of_iff _ Field.readable_iff.symm

theorem Field.readable_lengthDelimited {known : Nat → Option FieldType} {n : Nat} (hpos : 0 < n)
    (hlt : n < 2 ^ 29) (hk : ∀ t, known n = some t → t.wireType = .lengthDelimited)
    (payload : List UInt8) : (Field.lengthDelimited n payload).Readable known :=
  ⟨hpos, hlt, hk, trivial⟩

/-- The payload of a length-delimited occurrence of field `n`. -/
def Field.payloadOf (n : Nat) : Field → Option (List UInt8)
  | .lengthDelimited m p => if m = n then some p else none
  | _ => none

theorem Field.write_lengthDelimited (n : Nat) (payload : List UInt8) :
    (Field.lengthDelimited n payload).write = writeBytes n payload := by
  simp only [Field.write, Field.number, Field.wireType, Field.writeValue, writeBytes,
    List.append_assoc]

theorem Field.wireType_ne_startGroup (f : Field) : f.wireType ≠ .startGroup := by
  cases f <;> nofun

theorem Field.wireType_ne_endGroup (f : Field) : f.wireType ≠ .endGroup := by
  cases f <;> nofun

theorem Field.exists_of_wireType_eq {f : Field} (h : f.wireType = .lengthDelimited) :
    ∃ n p, f = .lengthDelimited n p := by
  cases f <;> first | exact ⟨_, _, rfl⟩ | cases h

theorem readValue_writeValue {f : Field} (hw : f.Fits) (rest : List UInt8) :
    readValue f.number f.wireType (f.writeValue ++ rest) = .ok (f, rest) := by
  cases f with
  | varint n v =>
    simp only [readValue, Field.number, Field.wireType, Field.writeValue,
      readRawVarint64_writeRawVarint (show v < 2 ^ 64 from hw), Except.map]
  | fixed64 n b | fixed32 n b =>
    simp only [readValue, Field.number, Field.wireType, Field.writeValue,
      ← (show b.length = _ from hw), readRawBytes_append, Except.map]
  | lengthDelimited n p =>
    simp only [readValue, Field.number, Field.wireType, Field.writeValue, List.append_assoc,
      readLength_writeRawVarint, readRawBytes_append, Except.map]

theorem readMessage_writeValue (n : Nat) (p rest : List UInt8) :
    readMessage n (writeRawVarint p.length ++ p ++ rest) = .ok (.lengthDelimited n p, rest) := by
  simp only [readMessage, List.append_assoc, readLength_writeRawVarint, List.take_left, List.drop_left]

theorem readFieldValue_writeValue {known : Nat → Option FieldType} {f : Field} (hf : f.Readable known)
    (rest : List UInt8) :
    readFieldValue known f.number f.wireType (f.writeValue ++ rest) = .ok (some f, rest) := by
  unfold readFieldValue
  cases hk : known f.number with
  | none =>
    rw [if_neg f.wireType_ne_startGroup, readValue_writeValue hf.fits]
    rfl
  | some t =>
    have ht := hf.wireType_known t hk
    dsimp only
    rw [if_pos ht.symm]
    cases t with
    | scalar w =>
      obtain rfl : w = f.wireType := ht
      rw [FieldType.read, readValue_writeValue hf.fits]
      rfl
    | message =>
      obtain ⟨n, p, rfl⟩ := Field.exists_of_wireType_eq ht.symm
      rw [FieldType.read, Field.writeValue, readMessage_writeValue]
      rfl

/-- **Every readable field reads back**, whatever follows it. -/
theorem readField_write {known : Nat → Option FieldType} {f : Field} (hf : f.Readable known)
    (rest : List UInt8) : readField known (f.write ++ rest) = .ok (some f, rest) := by
  rw [Field.write, List.append_assoc, readField_writeTag hf.number_pos hf.number_lt,
    readFieldValue_writeValue hf]

section Merge

variable {α : Type} {known : Nat → Option FieldType} {merge : α → Field → Except WireError α}

@[simp] theorem mergeFields_nil (msg : α) : mergeFields known merge msg [] = .ok msg := by
  rw [mergeFields]

theorem readField_nil : readField known [] = .error .unexpectedEof :=
  rfl

/-- One step of the loop: a field read is merged, and reading goes on after it. -/
theorem mergeFields_of_readField {msg : α} {bytes rest : List UInt8} {f : Field}
    (h : readField known bytes = .ok (some f, rest)) :
    mergeFields known merge msg bytes = merge msg f >>= fun msg' => mergeFields known merge msg' rest := by
  cases bytes with
  | nil => rw [readField_nil] at h; cases h
  | cons b bs =>
    rw [mergeFields]
    split
    next he => rw [h] at he; cases he
    next he => rw [h] at he; cases he
    next f' rest' he =>
      rw [h] at he
      cases he
      cases merge msg f <;> rfl

/-- A skipped group is not merged, and reading goes on after it. -/
theorem mergeFields_of_readField_none {msg : α} {bytes rest : List UInt8}
    (h : readField known bytes = .ok (none, rest)) :
    mergeFields known merge msg bytes = mergeFields known merge msg rest := by
  cases bytes with
  | nil => rw [readField_nil] at h; cases h
  | cons b bs =>
    rw [mergeFields]
    split
    next he => rw [h] at he; cases he
    next rest' he => rw [h] at he; cases he; rfl
    next he => rw [h] at he; cases he

theorem mergeFields_of_readField_error {msg : α} {bytes : List UInt8} {e : WireError}
    (hne : bytes ≠ []) (h : readField known bytes = .error e) :
    mergeFields known merge msg bytes = .error e := by
  cases bytes with
  | nil => contradiction
  | cons b bs =>
    rw [mergeFields]
    split
    next he => rw [h] at he; cases he; rfl
    next he => rw [h] at he; cases he
    next he => rw [h] at he; cases he

/-- Reading a written field merges it and goes on with the rest. -/
theorem mergeFields_write {f : Field} (hf : f.Readable known) (msg : α) (rest : List UInt8) :
    mergeFields known merge msg (f.write ++ rest) =
      merge msg f >>= fun msg' => mergeFields known merge msg' rest :=
  mergeFields_of_readField (readField_write hf rest)

theorem mergeFields_writeBytes {fieldNumber : Nat} {payload : List UInt8}
    (hf : (Field.lengthDelimited fieldNumber payload).Readable known) (msg : α) (rest : List UInt8) :
    mergeFields known merge msg (writeBytes fieldNumber payload ++ rest) =
      merge msg (.lengthDelimited fieldNumber payload) >>= fun msg' => mergeFields known merge msg' rest := by
  rw [← Field.write_lengthDelimited]
  exact mergeFields_write hf msg rest

/-- Reading written fields, then any input: the merge is folded over the
fields, and reading goes on after them. -/
theorem mergeFields_flatMap_write_append {fs : List Field} (hfs : ∀ f ∈ fs, f.Readable known)
    (msg : α) (rest : List UInt8) :
    mergeFields known merge msg (fs.flatMap Field.write ++ rest) =
      fs.foldlM merge msg >>= fun msg' => mergeFields known merge msg' rest := by
  induction fs generalizing msg with
  | nil => rfl
  | cons f fs ih =>
    rw [List.flatMap_cons, List.append_assoc, mergeFields_write (hfs f (.head _)), List.foldlM_cons]
    cases merge msg f with
    | error e => rfl
    | ok msg' => exact ih (fun g hg => hfs g (.tail _ hg)) msg'

theorem bind_mergeFields_nil (x : Except WireError α) :
    (x >>= fun msg' => mergeFields known merge msg' []) = x := by
  cases x <;> simp only [bind, Except.bind, mergeFields_nil]

end Merge

section Decode

variable {α : Type} {known : Nat → Option FieldType} {merge : α → Field → Except WireError α}

/-- **Reading written fields folds the merge over them.** For every sequence of
readable fields, known or not, `merge_from_bytes` over their encoding merges
them one by one, in order, and fails with the first failing merge. -/
theorem mergeFields_flatMap_write {fs : List Field} (hfs : ∀ f ∈ fs, f.Readable known)
    (msg : α) : mergeFields known merge msg (fs.flatMap Field.write) = fs.foldlM merge msg := by
  rw [← List.append_nil (fs.flatMap Field.write), mergeFields_flatMap_write_append hfs,
    bind_mergeFields_nil]

/-- Counting the fields of a message that knows none: a varint and a
fixed-width field, read as two. -/
theorem mergeFields_flatMap_write_count :
    mergeFields (fun _ => none) (fun n _ => .ok (n + 1)) 0
        ([.varint 1 300, .fixed32 2 [1, 2, 3, 4]].flatMap Field.write) = .ok 2 :=
  (mergeFields_flatMap_write (by decide) 0).trans rfl

end Decode

-- ---------------------------------------------------------------------------
-- Truncated input
-- ---------------------------------------------------------------------------

section Truncate

variable {α : Type} {known : Nat → Option FieldType} {merge : α → Field → Except WireError α}

theorem readRawBytes_of_length_lt {n : Nat} {bytes : List UInt8} (h : bytes.length < n) :
    readRawBytes n bytes = .error .unexpectedEof :=
  if_neg (by omega)

/-- A varint cut short is `UnexpectedEof`, whatever the budget left. -/
theorem readRawVarintBounded_take_writeRawVarint (v : Nat) {k maxBytes : Nat}
    (hk : k < (writeRawVarint v).length) (hmax : k < maxBytes) :
    readRawVarintBounded maxBytes ((writeRawVarint v).take k) = .error .unexpectedEof := by
  induction v using Nat.strongRecOn generalizing k maxBytes with
  | _ v ih =>
    obtain ⟨m, rfl⟩ : ∃ m, maxBytes = m + 1 := ⟨maxBytes - 1, by omega⟩
    rw [writeRawVarint] at hk ⊢
    split_ifs at hk ⊢ with h
    · obtain rfl : k = 0 := by simpa using hk
      rfl
    · cases k with
      | zero => rfl
      | succ k =>
        have hcont : ¬ v % 128 + 128 < 128 := by omega
        rw [List.length_cons] at hk
        simp only [List.take_succ_cons, readRawVarintBounded, toNat_toUInt8,
          Nat.mod_eq_of_lt (by omega : v % 128 + 128 < 256), hcont, ↓reduceIte,
          ih _ (by omega) (Nat.lt_of_succ_lt_succ hk) (by omega : k < m)]

theorem readLength_take_writeRawVarint (v : Nat) {k : Nat} (hk : k < (writeRawVarint v).length) :
    readLength ((writeRawVarint v).take k) = .error .unexpectedEof :=
  readRawVarintBounded_take_writeRawVarint v hk (by rw [List.length_take]; omega)

/-- A tag cut short is `UnexpectedEof`. -/
theorem readField_take_writeTag {number : Nat} (hlt : number < 2 ^ 29) {w : WireType} {k : Nat}
    (hk : k < (writeTag number w).length) :
    readField known ((writeTag number w).take k) = .error .unexpectedEof := by
  have hmax : k < 10 := by have := length_writeTag_le hlt w; omega
  rw [readField, readTagUnpack, readRawVarint32, readRawVarint64, writeTag,
    readRawVarintBounded_take_writeRawVarint _ hk hmax]
  rfl

/-- A value cut short is `UnexpectedEof`. -/
theorem readValue_take_writeValue {f : Field} (hw : f.Fits) {k : Nat}
    (hk : k < f.writeValue.length) :
    readValue f.number f.wireType (f.writeValue.take k) = .error .unexpectedEof := by
  cases f with
  | varint n v =>
    simp only [Field.writeValue] at hk
    have hmax := lt_of_lt_of_le hk (length_writeRawVarint_le_ten (show v < 2 ^ 64 from hw))
    simp only [readValue, Field.number, Field.wireType, Field.writeValue, readRawVarint64,
      readRawVarintBounded_take_writeRawVarint v hk hmax]
    rfl
  | fixed64 n b | fixed32 n b =>
    simp only [Field.writeValue] at hk
    simp only [readValue, Field.number, Field.wireType, Field.writeValue,
      readRawBytes_of_length_lt ((List.length_take_le k b).trans_lt (hk.trans_eq hw))]
    rfl
  | lengthDelimited n p =>
    simp only [readValue, Field.number, Field.wireType, Field.writeValue] at hk ⊢
    by_cases hlen : k < (writeRawVarint p.length).length
    · rw [List.take_append_of_le_length hlen.le, readLength_take_writeRawVarint _ hlen]
    · obtain ⟨j, rfl⟩ := Nat.exists_eq_add_of_le (not_lt.mp hlen)
      rw [List.length_append, Nat.add_lt_add_iff_left] at hk
      rw [List.take_append, readLength_writeRawVarint]
      simp only [readRawBytes_of_length_lt ((List.length_take_le j p).trans_lt hk)]
      rfl

theorem readFieldValue_take_writeValue {f : Field} (hf : f.Readable known)
    (hmsg : known f.number ≠ some .message) {k : Nat} (hk : k < f.writeValue.length) :
    readFieldValue known f.number f.wireType (f.writeValue.take k) = .error .unexpectedEof := by
  unfold readFieldValue
  cases hknown : known f.number with
  | none =>
    dsimp only
    rw [if_neg f.wireType_ne_startGroup, readValue_take_writeValue hf.fits hk]
    rfl
  | some t =>
    dsimp only
    rw [if_pos (hf.wireType_known t hknown).symm]
    cases t with
    | message => exact absurd hknown hmsg
    | scalar w =>
      obtain rfl : w = f.wireType := hf.wireType_known _ hknown
      rw [FieldType.read, readValue_take_writeValue hf.fits hk]
      rfl

theorem readFieldValue_message {number : Nat} (hk : known number = some .message) (bytes : List UInt8) :
    readFieldValue known number .lengthDelimited bytes =
      (readMessage number bytes).map fun (f, rest) => (some f, rest) := by
  simp only [readFieldValue, hk, FieldType.wireType, ↓reduceIte, FieldType.read]

/-- An embedded message cut inside its length is `UnexpectedEof`. -/
theorem readMessage_take_writeValue (n : Nat) {p : List UInt8} {k : Nat}
    (hk : k < (writeRawVarint p.length).length) :
    readMessage n ((writeRawVarint p.length ++ p).take k) = .error .unexpectedEof := by
  rw [readMessage, List.take_append_of_le_length hk.le, readLength_take_writeRawVarint _ hk]

/-- An embedded message cut inside its payload is read up to the cut. -/
theorem readMessage_append_take (n : Nat) (p : List UInt8) (j : Nat) :
    readMessage n (writeRawVarint p.length ++ p.take j) =
      .ok (.lengthDelimited n (p.take j), []) := by
  simp only [readMessage, readLength_writeRawVarint, List.take_of_length_le (List.length_take_le' j p),
    List.drop_eq_nil_of_le (List.length_take_le' j p)]

/-- **A field cut short is refused**, unless it is an embedded message cut
inside its payload: the nested message is then read up to the cut, where the
input ends. -/
theorem readField_take_write {f : Field} (hf : f.Readable known) {k : Nat} (hk : k < f.write.length) :
    readField known (f.write.take k) = .error .unexpectedEof ∨
      ∃ number payload j, f = .lengthDelimited number payload ∧ known number = some .message ∧
        j < payload.length ∧
        f.write.take k = writeTag number .lengthDelimited ++ writeRawVarint payload.length ++ payload.take j ∧
        readField known (f.write.take k) = .ok (some (.lengthDelimited number (payload.take j)), []) := by
  rw [Field.write] at hk ⊢
  by_cases htag : k < (writeTag f.number f.wireType).length
  · left
    rw [List.take_append_of_le_length htag.le]
    exact readField_take_writeTag hf.number_lt htag
  obtain ⟨i, rfl⟩ := Nat.exists_eq_add_of_le (not_lt.mp htag)
  rw [List.length_append, Nat.add_lt_add_iff_left] at hk
  rw [List.take_append, readField_writeTag hf.number_pos hf.number_lt]
  by_cases hmsg : known f.number = some .message
  · obtain ⟨number, payload, rfl⟩ := Field.exists_of_wireType_eq (hf.wireType_known _ hmsg).symm
    simp only [Field.number, Field.wireType, Field.writeValue] at hk hmsg ⊢
    rw [readFieldValue_message hmsg]
    by_cases hlen : i < (writeRawVarint payload.length).length
    · left
      rw [readMessage_take_writeValue _ hlen]
      rfl
    · right
      obtain ⟨j, rfl⟩ := Nat.exists_eq_add_of_le (not_lt.mp hlen)
      rw [List.length_append, Nat.add_lt_add_iff_left] at hk
      refine ⟨number, payload, j, rfl, hmsg, hk, by rw [List.take_append, List.append_assoc], ?_⟩
      rw [List.take_append, readMessage_append_take]
      rfl
  · left
    exact readFieldValue_take_writeValue hf hmsg hk

/-- A cut strictly inside an encoding that falls after the first `i` fields
leaves a field out. -/
theorem lt_length_of_take_flatMap_write {fs : List Field} {i n : Nat}
    (hn : n < (fs.flatMap Field.write).length)
    (h : (fs.flatMap Field.write).take n = (fs.take i).flatMap Field.write) : i < fs.length := by
  by_contra hi
  rw [List.take_of_length_le (show fs.length ≤ i by omega)] at h
  have := congrArg List.length h
  rw [List.length_take] at this
  omega

/-- The bytes of a truncated encoding: the fields before the cut, or those
and an embedded message cut inside its payload. -/
theorem mergeFields_truncated {fs : List Field} (hfs : ∀ f ∈ fs, f.Readable known)
    {msg m : α} {n : Nat} (h : mergeFields known merge msg ((fs.flatMap Field.write).take n) = .ok m) :
    ∃ i, ((fs.flatMap Field.write).take n = (fs.take i).flatMap Field.write ∧
        (fs.take i).foldlM merge msg = .ok m) ∨
      ∃ number payload j, fs[i]? = some (.lengthDelimited number payload) ∧
        known number = some .message ∧ j < payload.length ∧
        (fs.flatMap Field.write).take n = (fs.take i).flatMap Field.write ++
          (writeTag number .lengthDelimited ++ writeRawVarint payload.length ++ payload.take j) ∧
        (fs.take i ++ [Field.lengthDelimited number (payload.take j)]).foldlM merge msg = .ok m := by
  induction fs generalizing msg n with
  | nil =>
    rw [List.flatMap_nil, List.take_nil, mergeFields_nil] at h
    exact ⟨0, .inl ⟨by rw [List.flatMap_nil, List.take_nil]; rfl, h⟩⟩
  | cons f fs ih =>
    have hf := hfs f (.head _)
    rw [List.flatMap_cons] at h ⊢
    rcases Nat.eq_zero_or_pos n with rfl | hn
    · rw [List.take_zero, mergeFields_nil] at h
      exact ⟨0, .inl ⟨rfl, h⟩⟩
    by_cases hlt : n < f.write.length
    · rw [List.take_append_of_le_length hlt.le] at h ⊢
      have hne : f.write.take n ≠ [] := List.ne_nil_of_length_pos (by rw [List.length_take]; omega)
      rcases readField_take_write hf hlt with herr | ⟨number, payload, j, rfl, hmsg, hj, htake, hread⟩
      · rw [mergeFields_of_readField_error hne herr] at h
        cases h
      · rw [mergeFields_of_readField hread, bind_mergeFields_nil] at h
        refine ⟨0, .inr ⟨number, payload, j, List.getElem?_cons_zero, hmsg, hj, htake, ?_⟩⟩
        rw [List.take_zero, List.nil_append, List.foldlM_cons, h]
        rfl
    · rw [List.take_append_eq_append_take, List.take_of_length_le (by omega)] at h ⊢
      rw [mergeFields_write hf] at h
      cases hm : merge msg f with
      | error e => rw [hm] at h; cases h
      | ok msg' =>
        rw [hm] at h
        obtain ⟨i, hi⟩ := ih (fun g hg => hfs g (.tail _ hg)) h
        refine ⟨i + 1, ?_⟩
        rcases hi with ⟨htake, hfold⟩ | ⟨number, payload, j, hget, hmsg, hj, htake, hfold⟩
        · exact .inl ⟨by rw [List.take_succ_cons, List.flatMap_cons, htake],
            by rw [List.take_succ_cons, List.foldlM_cons, hm]; exact hfold⟩
        · exact .inr ⟨number, payload, j, List.getElem?_cons_succ.trans hget, hmsg, hj,
            by rw [htake, List.take_succ_cons, List.flatMap_cons]; simp only [List.append_assoc],
            by rw [List.take_succ_cons, List.cons_append, List.foldlM_cons, hm]; exact hfold⟩

/-- **A truncated encoding is read only up to a field boundary or inside an
embedded message.** If `merge_from_bytes` accepts the first `n` bytes of the
encoding of readable fields, either the cut falls between two fields and the
message is the merge of the fields before it, or it falls inside the payload
of an embedded message, after its length, and the message is the merge of the
fields before it and of that field with its payload cut there. -/
theorem mergeFields_take_flatMap_write {fs : List Field} (hfs : ∀ f ∈ fs, f.Readable known)
    {msg m : α} {n : Nat} (h : mergeFields known merge msg ((fs.flatMap Field.write).take n) = .ok m) :
    ∃ i, ((fs.flatMap Field.write).take n = (fs.take i).flatMap Field.write ∧
        (fs.take i).foldlM merge msg = .ok m) ∨
      ∃ number payload j, fs[i]? = some (.lengthDelimited number payload) ∧
        known number = some .message ∧ j < payload.length ∧
        (fs.flatMap Field.write).take n = (fs.take i).flatMap Field.write ++
          (writeTag number .lengthDelimited ++ writeRawVarint payload.length ++ payload.take j) ∧
        (fs.take i ++ [Field.lengthDelimited number (payload.take j)]).foldlM merge msg = .ok m :=
  mergeFields_truncated hfs h

/-- An embedded message field cut one byte into its payload: the message is
read from that byte. -/
theorem mergeFields_take_flatMap_write_message :
    ∃ i, (([Field.lengthDelimited 1 [8, 1]].flatMap Field.write).take 3 =
          ([Field.lengthDelimited 1 [8, 1]].take i).flatMap Field.write ∧
        ([Field.lengthDelimited 1 [8, 1]].take i).foldlM (fun acc f => .ok (acc ++ [f]))
          ([] : List Field) = (.ok [.lengthDelimited 1 [8]] : Except WireError (List Field))) ∨
      ∃ number payload j, [Field.lengthDelimited 1 [8, 1]][i]? = some (.lengthDelimited number payload) ∧
        (fun n => if n = 1 then some FieldType.message else none) number = some .message ∧
        j < payload.length ∧
        ([Field.lengthDelimited 1 [8, 1]].flatMap Field.write).take 3 =
          ([Field.lengthDelimited 1 [8, 1]].take i).flatMap Field.write ++
            (writeTag number .lengthDelimited ++ writeRawVarint payload.length ++ payload.take j) ∧
        ([Field.lengthDelimited 1 [8, 1]].take i ++ [Field.lengthDelimited number (payload.take j)]).foldlM
          (fun acc f => .ok (acc ++ [f])) ([] : List Field) =
            (.ok [.lengthDelimited 1 [8]] : Except WireError (List Field)) :=
  @mergeFields_take_flatMap_write (List Field) (fun n => if n = 1 then some .message else none)
    (fun acc f => .ok (acc ++ [f])) [.lengthDelimited 1 [8, 1]] (by decide) [] _ 3 (by
      have hbytes : ([Field.lengthDelimited 1 [8, 1]].flatMap Field.write).take 3 = [10, 2, 8] := by
        simp only [List.flatMap_cons, List.flatMap_nil, List.append_nil, Field.write, Field.number,
          Field.wireType, Field.writeValue, writeTag, WireType.toNat, List.length_cons, List.length_nil,
          writeRawVarint_of_lt (by decide : 1 * 8 + 2 < 128), writeRawVarint_of_lt (by decide : 0 + 1 + 1 < 128)]
        rfl
      have hread : readField (fun n => if n = 1 then some .message else none) [10, 2, 8] =
          .ok (some (.lengthDelimited 1 [8]), []) := rfl
      rw [hbytes, mergeFields_of_readField hread, bind_mergeFields_nil]
      rfl)

end Truncate

-- ---------------------------------------------------------------------------
-- Unknown groups
-- ---------------------------------------------------------------------------

/-- `skip_group` at an `EndGroup` tag: the group ends after the tag. -/
theorem skipGroup_endGroup {bytes rest : List UInt8} {number : Nat}
    (h : readTagUnpack bytes = .ok ((number, .endGroup), rest)) :
    (skipGroup bytes).map Subtype.val = .ok rest := by
  cases bytes with
  | nil => cases h
  | cons b bs =>
    rw [skipGroup]
    split
    next he => rw [h] at he; cases he
    next he => rw [h] at he; cases he; rfl

/-- `skip_group` at the tag of a value: the value is read and dropped. -/
theorem skipGroup_value {bytes rest rest' : List UInt8} {number : Nat} {w : WireType} {f : Field}
    (h : readTagUnpack bytes = .ok ((number, w), rest)) (hend : w ≠ .endGroup)
    (hstart : w ≠ .startGroup) (hv : readValue number w rest = .ok (f, rest')) :
    (skipGroup bytes).map Subtype.val = (skipGroup rest').map Subtype.val := by
  cases bytes with
  | nil => cases h
  | cons b bs =>
    rw [skipGroup]
    split
    next he => rw [h] at he; cases he
    next he =>
      rw [h] at he
      cases he
      simp only [hend, hstart, ↓reduceIte]
      split
      next he' => rw [hv] at he'; cases he'
      next he' =>
        rw [hv] at he'
        cases he'
        cases skipGroup rest' <;> rfl

/-- `skip_group` drops a written field, read as unknown, and goes on. -/
theorem skipGroup_write {f : Field} (hf : f.Readable fun _ => none) (rest : List UInt8) :
    (skipGroup (f.write ++ rest)).map Subtype.val = (skipGroup rest).map Subtype.val := by
  rw [Field.write, List.append_assoc]
  exact skipGroup_value (readTagUnpack_writeTag hf.number_pos hf.number_lt _ _)
    f.wireType_ne_endGroup f.wireType_ne_startGroup (readValue_writeValue hf.fits rest)

theorem skipGroup_writeTag_endGroup {number : Nat} (hf : 0 < number) (hlt : number < 2 ^ 29)
    (rest : List UInt8) : (skipGroup (writeTag number .endGroup ++ rest)).map Subtype.val = .ok rest :=
  skipGroup_endGroup (readTagUnpack_writeTag hf hlt .endGroup rest)

theorem skipGroup_flatMap_write {fs : List Field} (hfs : ∀ f ∈ fs, f.Readable fun _ => none)
    (rest : List UInt8) :
    (skipGroup (fs.flatMap Field.write ++ rest)).map Subtype.val = (skipGroup rest).map Subtype.val := by
  induction fs with
  | nil => rfl
  | cons f fs ih =>
    rw [List.flatMap_cons, List.append_assoc, skipGroup_write (hfs f (.head _)),
      ih fun g hg => hfs g (.tail _ hg)]

section Group

variable {α : Type} {known : Nat → Option FieldType} {merge : α → Field → Except WireError α}

/-- **An unknown group is skipped whole.** A group of a number the message does
not know, holding any fields a writer produces and closed by an `EndGroup`
tag of any number, is dropped by `read_unknown_or_skip_group`, and reading
goes on after it. -/
theorem mergeFields_skip_group {group endNumber : Nat} (hg : 0 < group) (hglt : group < 2 ^ 29)
    (hknown : known group = none) (hend : 0 < endNumber) (hendlt : endNumber < 2 ^ 29)
    {fs : List Field} (hfs : ∀ f ∈ fs, f.Readable fun _ => none) (msg : α) (rest : List UInt8) :
    mergeFields known merge msg
        (writeTag group .startGroup ++ fs.flatMap Field.write ++ writeTag endNumber .endGroup ++ rest) =
      mergeFields known merge msg rest := by
  have hskip : (skipGroup (fs.flatMap Field.write ++ (writeTag endNumber .endGroup ++ rest))).map
      Subtype.val = .ok rest := by
    rw [skipGroup_flatMap_write hfs, skipGroup_writeTag_endGroup hend hendlt]
  obtain ⟨r, hr, hrest⟩ := exceptMap_eq_ok.mp hskip
  apply mergeFields_of_readField_none
  rw [List.append_assoc, List.append_assoc, readField_writeTag hg hglt]
  simp only [readFieldValue, hknown, ↓reduceIte, hr, Except.map, hrest]

/-- A group 3 holding a varint, closed by an end tag numbered 7, skipped by a
message that knows only field 1. -/
theorem mergeFields_skip_group_varint :
    mergeFields (fun n => if n = 1 then some (.scalar .varint) else none) (fun n _ => .ok (n + 1)) 0
        (writeTag 3 .startGroup ++ [Field.varint 2 300].flatMap Field.write ++ writeTag 7 .endGroup ++ []) =
      mergeFields (fun n => if n = 1 then some (.scalar .varint) else none) (fun n _ => .ok (n + 1)) 0 [] :=
  mergeFields_skip_group (by decide) (by decide) rfl (by decide) (by decide) (by decide) 0 []

end Group

end BtcAnchoring.Proto
