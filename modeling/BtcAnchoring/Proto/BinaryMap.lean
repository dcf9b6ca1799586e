import BtcAnchoring.Proto.Wire
import Mathlib.Data.List.Lex

/-!
# BtcAnchoring — the `BinaryMap` codec

`proto/binary_map.rs`: `BinaryMap<K, V>` stores a `BTreeMap<K, V>` as the
protobuf message `BinaryMap { repeated KeyValue inner = 1; }`, each entry a
`KeyValue { bytes key = 1; bytes value = 2; }` holding the `BinaryValue`
encodings of the key and the value. The generated message code (`write_to`,
`merge_from`) is modelled over the wire format of `Proto.Wire`: proto3 `bytes`
fields are written only when non-empty, a repeated message field once per
element; on reading, a later occurrence of a `bytes` field replaces an earlier
one, each occurrence of `inner`, an embedded message read in place, appends an
element, and unknown fields are read and dropped (`from_pb` never looks at
them).

A `BTreeMap` is its entry list in increasing key order, which is what `iter`
yields; collecting pairs into one inserts them in turn.

Main results:

* `BTreeMap.ofList_entries` — collecting the entries of a map rebuilds it.
* `KeyValuePb.mergeFromBytes_writeToBytes`,
  `BinaryMapPb.mergeFromBytes_writeToBytes` — the two messages round-trip
  through the wire format.
* `binaryMap_fromBytes_toBytes` — a `BinaryMap` whose key and value codecs
  round-trip round-trips through `from_pb ∘ to_pb` and through
  `from_bytes ∘ to_bytes`, so `to_bytes` is injective.
* `toPb_keys_sorted_iff` — `to_pb` writes the entries in the key type's
  order; their encoded keys are in lexicographic byte order for every map
  exactly when the key codec is strictly increasing, which the little-endian
  `u64` codec is not (`toPb_keys_unsorted_u64`).
* `BTreeMap.lookup_ofList`, `BTreeMap.ofList_eq_ofList_iff` — a collected map
  answers each key with its last value, and two collections give the same map
  exactly when their last values agree.
* `KeyValuePb.mergeFromBytes_flatMap_write_eq_last`,
  `BinaryMapPb.mergeFromBytes_flatMap_write_eq_mapM` — the messages read from any
  well-formed fields: the last `key` and `value` win, each `inner` appends an
  element, unknown fields are dropped.
* `BinaryMapPb.mergeFromBytes_take_writeToBytes`,
  `BinaryMap.fromBytes_take_toBytes` — a truncated encoding reads as the first
  entries, possibly followed by the entry the cut falls in, read from a cut
  payload: with its key or the key of no bytes, and the value of no bytes.
* `BinaryMap.objectHash_ofList_eq_iff` — `object_hash` of a collected map is
  fixed by, and fixes, the last value of each key.
* `BinaryMap.fromBytes_writeToBytes_pairs` — `from_bytes` accepts entries in
  any order and with keys repeated, and reads them as the collected map.
-/

namespace BtcAnchoring

open Proto

-- ---------------------------------------------------------------------------
-- `BTreeMap`
-- ---------------------------------------------------------------------------

/-- `BTreeMap<K, V>`: its entries in strictly increasing key order. -/
structure BTreeMap (K V : Type) [LinearOrder K] where
  entries : List (K × V)
  sorted : entries.Pairwise fun a b => a.1 < b.1

namespace BTreeMap

variable {K V : Type} [LinearOrder K]

theorem ext {m m' : BTreeMap K V} (h : m.entries = m'.entries) : m = m' := by
  cases m; cases m'; cases h; rfl

/-- `BTreeMap::new`. -/
def empty : BTreeMap K V :=
  ⟨[], List.Pairwise.nil⟩

/-- Insertion into a sorted entry list, comparing keys with `Ord::cmp`: an
entry of an equal key keeps its key and takes the new value. -/
def insertEntry (k : K) (v : V) : List (K × V) → List (K × V)
  | [] => [(k, v)]
  | (k', v') :: rest =>
    match compare k k' with
    | .lt => (k, v) :: (k', v') :: rest
    | .eq => (k', v) :: rest
    | .gt => (k', v') :: insertEntry k v rest

/-- A bound below the new key and every old key stays below every key after
an insertion. -/
theorem lt_of_mem_insertEntry {b k : K} {v : V} {l : List (K × V)} (hk : b < k)
    (hl : ∀ q ∈ l, b < q.1) : ∀ p ∈ insertEntry k v l, b < p.1 := by
  induction l with
  | nil => simpa [insertEntry] using hk
  | cons q rest ih =>
    obtain ⟨hq, hrest⟩ := List.forall_mem_cons.mp hl
    unfold insertEntry
    split
    · exact List.forall_mem_cons.mpr ⟨hk, hl⟩
    · exact List.forall_mem_cons.mpr ⟨hq, hrest⟩
    · exact List.forall_mem_cons.mpr ⟨hq, ih hrest⟩

theorem insertEntry_sorted (k : K) (v : V) {l : List (K × V)}
    (hl : l.Pairwise fun a b => a.1 < b.1) :
    (insertEntry k v l).Pairwise fun a b => a.1 < b.1 := by
  induction l with
  | nil => simp [insertEntry]
  | cons q rest ih =>
    obtain ⟨hq, hrest⟩ := List.pairwise_cons.mp hl
    unfold insertEntry
    split
    · rename_i hc
      have hlt : k < q.1 := compare_lt_iff_lt.mp hc
      exact hl.cons (List.forall_mem_cons.mpr ⟨hlt, fun r hr => hlt.trans (hq r hr)⟩)
    · exact hrest.cons hq
    · rename_i hc
      exact (ih hrest).cons (lt_of_mem_insertEntry (compare_gt_iff_gt.mp hc) hq)

/-- `BTreeMap::insert`. -/
def insert (m : BTreeMap K V) (k : K) (v : V) : BTreeMap K V :=
  ⟨insertEntry k v m.entries, insertEntry_sorted k v m.sorted⟩

/-- `FromIterator for BTreeMap`: the pairs are inserted in turn, a later pair
replacing an earlier one of the same key. -/
def ofList (pairs : List (K × V)) : BTreeMap K V :=
  pairs.foldl (fun m p => m.insert p.1 p.2) empty

example : (ofList [(2, 20), (1, 10), (2, 21)] : BTreeMap Nat Nat).entries = [(1, 10), (2, 21)] := by
  decide

/-- A key above every key of the list goes to the end. -/
theorem insertEntry_of_lt {k : K} {v : V} {l : List (K × V)} (h : ∀ q ∈ l, q.1 < k) :
    insertEntry k v l = l ++ [(k, v)] := by
  induction l with
  | nil => rfl
  | cons q rest ih =>
    have hc : compare k q.1 = .gt := compare_gt_iff_gt.mpr (h q (List.mem_cons_self _ _))
    simp only [insertEntry, hc, List.cons_append, ih fun r hr => h r (List.mem_cons_of_mem _ hr)]

/-- Inserting sorted pairs whose keys are above those of the map appends them. -/
theorem foldl_insert_of_sorted :
    ∀ {l : List (K × V)} {m : BTreeMap K V}, (l.Pairwise fun a b => a.1 < b.1) →
      (∀ p ∈ m.entries, ∀ q ∈ l, p.1 < q.1) →
      (l.foldl (fun m p => m.insert p.1 p.2) m).entries = m.entries ++ l
  | [], _, _, _ => by simp
  | q :: rest, m, hl, hm => by
    obtain ⟨hq, hrest⟩ := List.pairwise_cons.mp hl
    have hins : (m.insert q.1 q.2).entries = m.entries ++ [q] :=
      insertEntry_of_lt fun p hp => hm p hp q (List.mem_cons_self _ _)
    rw [List.foldl_cons, foldl_insert_of_sorted hrest, hins, List.append_assoc, List.singleton_append]
    intro p hp r hr
    rw [hins] at hp
    rcases List.mem_append.mp hp with hp | hp
    · exact hm p hp r (List.mem_cons_of_mem _ hr)
    · rw [List.mem_singleton.mp hp]; exact hq r hr

theorem entries_ofList_of_sorted {l : List (K × V)} (h : l.Pairwise fun a b => a.1 < b.1) :
    (ofList l).entries = l :=
  (@foldl_insert_of_sorted K V _ l empty h fun _ h => nomatch h).trans (List.nil_append _)

/-- **Collecting the entries of a map rebuilds it.** -/
theorem ofList_entries (m : BTreeMap K V) : ofList m.entries = m :=
  ext (entries_ofList_of_sorted m.sorted)

/-- For lookups, inserting an entry is putting it in front. -/
theorem lookup_insertEntry (k : K) (v : V) (l : List (K × V)) (k' : K) :
    (insertEntry k v l).lookup k' = ((k, v) :: l).lookup k' := by
  induction l with
  | nil => rfl
  | cons q rest ih =>
    obtain ⟨k₁, v₁⟩ := q
    unfold insertEntry
    split
    · rfl
    · rename_i hc
      obtain rfl := compare_eq_iff_eq.mp hc
      simp only [List.lookup_cons]
      cases k' == k <;> rfl
    · rename_i hc
      simp only [List.lookup_cons, ih]
      cases h₁ : k' == k₁ <;> cases h₂ : k' == k <;> try rfl
      exact absurd ((beq_iff_eq.mp h₂).symm.trans (beq_iff_eq.mp h₁)) (compare_gt_iff_gt.mp hc).ne'

theorem lookup_foldl_insert (l : List (K × V)) (m : BTreeMap K V) (k : K) :
    (l.foldl (fun m p => m.insert p.1 p.2) m).entries.lookup k = (l.reverse ++ m.entries).lookup k := by
  induction l generalizing m with
  | nil => rfl
  | cons p rest ih =>
    rw [List.foldl_cons, ih, List.reverse_cons, List.append_assoc, List.lookup_append,
      List.lookup_append]
    exact congrArg _ (lookup_insertEntry p.1 p.2 m.entries k)

/-- **A collected map answers each key with its last value.** -/
theorem lookup_ofList (pairs : List (K × V)) (k : K) :
    (ofList pairs).entries.lookup k = pairs.reverse.lookup k :=
  (lookup_foldl_insert pairs empty k).trans (congrArg _ (List.append_nil _))

theorem lookup_eq_none_of_lt {k : K} : ∀ {l : List (K × V)}, (∀ q ∈ l, k < q.1) → l.lookup k = none
  | [], _ => rfl
  | (k₁, v₁) :: rest, h => by
    simp only [List.lookup_cons, beq_false_of_ne (h _ (List.mem_cons_self _ _)).ne]
    exact lookup_eq_none_of_lt fun q hq => h q (List.mem_cons_of_mem _ hq)

/-- Sorted entry lists with the same lookups are equal. -/
theorem entries_eq_of_lookup : ∀ {l l' : List (K × V)}, (l.Pairwise fun a b => a.1 < b.1) →
    (l'.Pairwise fun a b => a.1 < b.1) → (∀ k, l.lookup k = l'.lookup k) → l = l'
  | [], [], _, _, _ => rfl
  | [], (k, v) :: _, _, _, h => absurd (h k) (by simp [List.lookup_cons_self])
  | (k, v) :: _, [], _, _, h => absurd (h k) (by simp [List.lookup_cons_self])
  | (k, v) :: l, (k', v') :: l', hl, hl', h => by
    obtain ⟨hk, hrest⟩ := List.pairwise_cons.mp hl
    obtain ⟨hk', hrest'⟩ := List.pairwise_cons.mp hl'
    have hmiss : ∀ {j j' : K} {w : V} {r : List (K × V)}, (∀ q ∈ r, j' < q.1) → j < j' →
        ((j', w) :: r).lookup j = none := fun hr hlt =>
      lookup_eq_none_of_lt (List.forall_mem_cons.mpr ⟨hlt, fun q hq => hlt.trans (hr q hq)⟩)
    obtain rfl : k = k' := by
      rcases lt_trichotomy k k' with hlt | heq | hgt
      · have := h k
        rw [List.lookup_cons_self, hmiss hk' hlt] at this
        cases this
      · exact heq
      · have := h k'
        rw [List.lookup_cons_self, hmiss hk hgt] at this
        cases this
    obtain rfl : v = v' := by simpa only [List.lookup_cons_self, Option.some.injEq] using h k
    refine congrArg _ (entries_eq_of_lookup hrest hrest' fun j => ?_)
    by_cases hj : j = k
    · subst hj
      rw [lookup_eq_none_of_lt hk, lookup_eq_none_of_lt hk']
    · simpa only [List.lookup_cons, beq_false_of_ne hj] using h j

theorem ext_lookup {m m' : BTreeMap K V} (h : ∀ k, m.entries.lookup k = m'.entries.lookup k) :
    m = m' :=
  ext (entries_eq_of_lookup m.sorted m'.sorted h)

/-- A collection is the map that answers each key with the last value given
for it. -/
theorem ofList_eq_iff_lookup (pairs : List (K × V)) (m : BTreeMap K V) :
    ofList pairs = m ↔ ∀ k, pairs.reverse.lookup k = m.entries.lookup k := by
  have hlookup : ∀ k, (ofList pairs).entries.lookup k = pairs.reverse.lookup k := fun k =>
    (lookup_foldl_insert pairs empty k).trans (congrArg _ (List.append_nil _))
  constructor
  · rintro rfl k
    exact (hlookup k).symm
  · intro h
    exact ext_lookup fun k => (hlookup k).trans (h k)

/-- Two collections give the same map exactly when they agree on the last
value of every key. -/
theorem ofList_eq_ofList_iff (pairs pairs' : List (K × V)) :
    ofList pairs = ofList pairs' ↔ ∀ k, pairs.reverse.lookup k = pairs'.reverse.lookup k := by
  rw [ofList_eq_iff_lookup]
  exact forall_congr' fun k => by rw [← (ofList_eq_iff_lookup pairs' _).mp rfl k]

end BTreeMap

-- ---------------------------------------------------------------------------
-- The protobuf messages
-- ---------------------------------------------------------------------------

/-- The message `KeyValue` (`proto::internal::KeyValue`). -/
structure KeyValuePb where
  key : List UInt8
  value : List UInt8
  deriving DecidableEq, Repr

namespace KeyValuePb

/-- `KeyValue::new`. -/
def new : KeyValuePb :=
  ⟨[], []⟩

/-- Its fields: `key = 1` and `value = 2`, both `bytes`. -/
def fieldWireType : Nat → Option FieldType
  | 1 => some (.scalar .lengthDelimited)
  | 2 => some (.scalar .lengthDelimited)
  | _ => none

/-- `write_to_bytes`: a proto3 `bytes` field is written when it is not empty. -/
def writeToBytes (kv : KeyValuePb) : List UInt8 :=
  (if kv.key.isEmpty then [] else writeBytes 1 kv.key) ++
    (if kv.value.isEmpty then [] else writeBytes 2 kv.value)

/-- The field dispatch of `merge_from`: `read_singular_proto3_bytes_into`
replaces the field, an unknown field is dropped. -/
def mergeField (kv : KeyValuePb) : Field → Except WireError KeyValuePb
  | .lengthDelimited 1 payload => .ok { kv with key := payload }
  | .lengthDelimited 2 payload => .ok { kv with value := payload }
  | _ => .ok kv

/-- `merge_from_bytes`. -/
def mergeFromBytes (kv : KeyValuePb) (bytes : List UInt8) : Except WireError KeyValuePb :=
  mergeFields fieldWireType mergeField kv bytes

theorem readable_lengthDelimited {n : Nat} (hn : n = 1 ∨ n = 2) (payload : List UInt8) :
    (Field.lengthDelimited n payload).Readable fieldWireType := by
  rcases hn with rfl | rfl <;>
    exact Field.readable_lengthDelimited (by decide) (by decide) (fun _ h => by cases h; rfl) payload

theorem fieldWireType_ne_message (n : Nat) : fieldWireType n ≠ some .message := by
  unfold fieldWireType
  split <;> nofun

/-- **`KeyValue` round-trips.** An empty field is not written and stays
empty in a fresh message. -/
theorem mergeFromBytes_writeToBytes (kv : KeyValuePb) : new.mergeFromBytes kv.writeToBytes = .ok kv := by
  obtain ⟨key, value⟩ := kv
  have hvalue : ∀ k, mergeFields fieldWireType mergeField ⟨k, []⟩
      (if value.isEmpty then [] else writeBytes 2 value) = .ok ⟨k, value⟩ := by
    intro k
    by_cases hv : value.isEmpty
    · simp [List.isEmpty_iff.mp hv]
    · rw [if_neg hv, ← List.append_nil (writeBytes 2 value),
        mergeFields_writeBytes (readable_lengthDelimited (.inr rfl) value)]
      simp [mergeField, bind, Except.bind]
  unfold mergeFromBytes writeToBytes
  by_cases hk : key.isEmpty
  · rw [if_pos hk, List.nil_append, List.isEmpty_iff.mp hk]
    exact hvalue []
  · rw [if_neg hk, mergeFields_writeBytes (readable_lengthDelimited (.inl rfl) key)]
    exact hvalue key

theorem mergeField_eq (kv : KeyValuePb) (f : Field) :
    mergeField kv f = .ok ⟨(f.payloadOf 1).getD kv.key, (f.payloadOf 2).getD kv.value⟩ := by
  rcases f with ⟨n, v⟩ | ⟨n, b⟩ | ⟨n, p⟩ | ⟨n, b⟩
  · rfl
  · rfl
  · rcases n with _ | _ | _ | n <;> rfl
  · rfl

theorem foldlM_mergeField (kv : KeyValuePb) (fs : List Field) :
    fs.foldlM mergeField kv =
      .ok ⟨((fs.filterMap (Field.payloadOf 1)).getLast?).getD kv.key,
        ((fs.filterMap (Field.payloadOf 2)).getLast?).getD kv.value⟩ := by
  induction fs generalizing kv with
  | nil => rfl
  | cons f fs ih =>
    rw [List.foldlM_cons, mergeField_eq]
    refine (ih _).trans ?_
    rw [List.filterMap_cons, List.filterMap_cons]
    cases f.payloadOf 1 <;> cases f.payloadOf 2 <;>
      simp only [List.getLast?_cons, Option.getD_some, Option.getD_none]

/-- **A `KeyValue` read from any fields** holds the last `key` and the last
`value` given, a field not given being empty; unknown fields are dropped. -/
theorem mergeFromBytes_flatMap_write_eq_last {fs : List Field}
    (hfs : ∀ f ∈ fs, f.Readable fieldWireType) :
    new.mergeFromBytes (fs.flatMap Field.write) =
      .ok ⟨((fs.filterMap (Field.payloadOf 1)).getLast?).getD [],
        ((fs.filterMap (Field.payloadOf 2)).getLast?).getD []⟩ := by
  rw [mergeFromBytes, ← List.append_nil (fs.flatMap Field.write), mergeFields_flatMap_write_append hfs,
    bind_mergeFields_nil, foldlM_mergeField]
  rfl

/-- A `key` given twice, a `value` and an unknown varint field: the second
`key` wins. -/
theorem mergeFromBytes_flatMap_write_repeated_key :
    new.mergeFromBytes ([.lengthDelimited 1 [1], .lengthDelimited 2 [2], .lengthDelimited 1 [3],
        .varint 9 5].flatMap Field.write) = .ok ⟨[3], [2]⟩ :=
  (mergeFromBytes_flatMap_write_eq_last (by decide)).trans rfl

/-- The fields `write_to_bytes` writes: `key`, then `value`, each when it is
not empty. -/
theorem writeToBytes_eq_flatMap (kv : KeyValuePb) :
    kv.writeToBytes = ((if kv.key.isEmpty then [] else [Field.lengthDelimited 1 kv.key]) ++
      (if kv.value.isEmpty then [] else [Field.lengthDelimited 2 kv.value])).flatMap Field.write := by
  rw [writeToBytes, List.flatMap_append]
  split_ifs <;> simp only [List.flatMap_nil, List.flatMap_cons, List.append_nil, Field.write_lengthDelimited]

/-- A `KeyValue` cut inside its encoding reads as the empty message or as its
`key` alone: the cut falls before the `value` field is complete. -/
theorem mergeFromBytes_take_inside (kv : KeyValuePb) {k : Nat} (hk : k < kv.writeToBytes.length)
    {kv' : KeyValuePb} (h : new.mergeFromBytes (kv.writeToBytes.take k) = .ok kv') :
    kv' = new ∨ kv' = ⟨kv.key, []⟩ := by
  rw [writeToBytes_eq_flatMap] at hk h
  generalize hA : (if kv.key.isEmpty then [] else [Field.lengthDelimited 1 kv.key]) = A at hk h
  generalize hB : (if kv.value.isEmpty then [] else [Field.lengthDelimited 2 kv.value]) = B at hk h
  have hA' : A = [] ∨ A = [.lengthDelimited 1 kv.key] := by rw [← hA]; split_ifs <;> simp
  have hB' : B = [] ∨ B = [.lengthDelimited 2 kv.value] := by rw [← hB]; split_ifs <;> simp
  have hpart : ∀ {n payload} {L : List Field}, (n = 1 ∨ n = 2) →
      (L = [] ∨ L = [.lengthDelimited n payload]) → ∀ f ∈ L, f.Readable fieldWireType := by
    rintro n payload L hn (rfl | rfl) f hf
    · cases hf
    · rw [List.mem_singleton.mp hf]
      exact readable_lengthDelimited hn payload
  have hread : ∀ f ∈ A ++ B, f.Readable fieldWireType :=
    List.forall_mem_append.mpr ⟨hpart (.inl rfl) hA', hpart (.inr rfl) hB'⟩
  obtain ⟨i, ⟨htake, hfold⟩ | ⟨number, -, -, -, hmsg, -⟩⟩ := mergeFields_truncated hread h
  · have hi := lt_length_of_take_flatMap_write hk htake
    rw [List.take_append_of_le_length (by rcases hB' with rfl | rfl <;> simp at hi ⊢ <;> omega)] at hfold
    rcases hA' with rfl | rfl
    · rw [List.take_nil] at hfold
      exact .inl (Except.ok.inj hfold).symm
    · rcases i with _ | i
      · exact .inl (Except.ok.inj hfold).symm
      · rw [List.take_succ_cons, List.take_nil] at hfold
        exact .inr (Except.ok.inj hfold).symm
  · exact absurd hmsg (fieldWireType_ne_message number)

end KeyValuePb

/-- The message `BinaryMap` (`proto::internal::BinaryMap`). -/
structure BinaryMapPb where
  inner : List KeyValuePb
  deriving DecidableEq, Repr

namespace BinaryMapPb

/-- `BinaryMap::new`. -/
def new : BinaryMapPb :=
  ⟨[]⟩

/-- Its field: `repeated KeyValue inner = 1`, an embedded message. -/
def fieldWireType : Nat → Option FieldType
  | 1 => some .message
  | _ => none

/-- `write_to_bytes`: each element of `inner` as a length-delimited field. -/
def writeToBytes (pb : BinaryMapPb) : List UInt8 :=
  pb.inner.flatMap fun kv => writeBytes 1 kv.writeToBytes

/-- The field dispatch of `merge_from`: `read_repeated_message_into` merges
the embedded message into a fresh element and appends it; an unknown field is
dropped. -/
def mergeField (pb : BinaryMapPb) : Field → Except WireError BinaryMapPb
  | .lengthDelimited 1 payload => do
    let kv ← KeyValuePb.new.mergeFromBytes payload
    pure ⟨pb.inner ++ [kv]⟩
  | _ => .ok pb

/-- `merge_from_bytes`. -/
def mergeFromBytes (pb : BinaryMapPb) (bytes : List UInt8) : Except WireError BinaryMapPb :=
  mergeFields fieldWireType mergeField pb bytes

theorem readable_inner (kv : KeyValuePb) :
    (Field.lengthDelimited 1 kv.writeToBytes).Readable fieldWireType :=
  Field.readable_lengthDelimited (by decide) (by decide) (fun _ h => by cases h; rfl) _

theorem readable_map (inner : List KeyValuePb) :
    ∀ f ∈ inner.map fun kv => Field.lengthDelimited 1 kv.writeToBytes, f.Readable fieldWireType := by
  simp only [List.mem_map]
  rintro _ ⟨kv, -, rfl⟩
  exact readable_inner kv

/-- The encoding of a message is the encoding of its `inner` fields. -/
theorem writeToBytes_eq_flatMap (pb : BinaryMapPb) :
    pb.writeToBytes =
      (pb.inner.map fun kv => Field.lengthDelimited 1 kv.writeToBytes).flatMap Field.write := by
  simp only [writeToBytes, List.flatMap_map, Field.write_lengthDelimited]

/-- Merging the `inner` fields of elements appends the elements. -/
theorem foldlM_mergeField_inner (pb : BinaryMapPb) (inner : List KeyValuePb) :
    (inner.map fun kv => Field.lengthDelimited 1 kv.writeToBytes).foldlM mergeField pb =
      .ok ⟨pb.inner ++ inner⟩ := by
  induction inner generalizing pb with
  | nil => rw [List.map_nil, List.append_nil]; rfl
  | cons kv rest ih =>
    rw [List.map_cons, List.foldlM_cons]
    show (do let kv ← KeyValuePb.new.mergeFromBytes kv.writeToBytes; pure (⟨pb.inner ++ [kv]⟩ : BinaryMapPb)) >>=
      (fun pb' => (rest.map fun kv => Field.lengthDelimited 1 kv.writeToBytes).foldlM mergeField pb') = _
    rw [KeyValuePb.mergeFromBytes_writeToBytes]
    exact (ih _).trans (by rw [List.append_assoc, List.singleton_append])

/-- Reading the encoding of `inner` appends its elements. -/
theorem mergeFromBytes_writeToBytes_append (pb : BinaryMapPb) (inner : List KeyValuePb) :
    pb.mergeFromBytes (writeToBytes ⟨inner⟩) = .ok ⟨pb.inner ++ inner⟩ := by
  rw [mergeFromBytes, writeToBytes_eq_flatMap, ← List.append_nil (List.flatMap _ _),
    mergeFields_flatMap_write_append (readable_map inner), bind_mergeFields_nil, foldlM_mergeField_inner]

/-- **`BinaryMap` (the message) round-trips.** -/
theorem mergeFromBytes_writeToBytes (pb : BinaryMapPb) : new.mergeFromBytes pb.writeToBytes = .ok pb :=
  mergeFromBytes_writeToBytes_append new pb.inner

theorem mergeField_eq (pb : BinaryMapPb) (f : Field) :
    mergeField pb f = match f.payloadOf 1 with
      | some payload => (KeyValuePb.new.mergeFromBytes payload).map fun kv => ⟨pb.inner ++ [kv]⟩
      | none => .ok pb := by
  rcases f with ⟨n, v⟩ | ⟨n, b⟩ | ⟨n, p⟩ | ⟨n, b⟩
  · rfl
  · rfl
  · rcases n with _ | _ | n
    · rfl
    · show (do let kv ← KeyValuePb.new.mergeFromBytes p; pure _) =
        (KeyValuePb.new.mergeFromBytes p).map _
      cases KeyValuePb.new.mergeFromBytes p <;> rfl
    · rfl
  · rfl

theorem foldlM_mergeField (pb : BinaryMapPb) (fs : List Field) :
    fs.foldlM mergeField pb =
      ((fs.filterMap (Field.payloadOf 1)).mapM KeyValuePb.new.mergeFromBytes).map
        fun kvs => ⟨pb.inner ++ kvs⟩ := by
  induction fs generalizing pb with
  | nil =>
    show Except.ok pb = .ok ⟨pb.inner ++ []⟩
    rw [List.append_nil]
  | cons f fs ih =>
    rw [List.foldlM_cons, mergeField_eq, List.filterMap_cons]
    cases f.payloadOf 1 with
    | none => exact ih pb
    | some payload =>
      dsimp only
      rw [List.mapM_cons]
      cases KeyValuePb.new.mergeFromBytes payload with
      | error e => rfl
      | ok kv =>
        show List.foldlM mergeField ⟨pb.inner ++ [kv]⟩ fs = _
        refine (ih _).trans ?_
        cases (fs.filterMap (Field.payloadOf 1)).mapM KeyValuePb.new.mergeFromBytes <;>
          simp only [Except.map, bind, Except.bind, pure, Except.pure, List.append_assoc,
            List.singleton_append]

/-- **A `BinaryMap` message read from any fields** holds the `KeyValue`s read
from the payloads of its `inner` occurrences, in order; the first payload
that fails to read fails the message, and unknown fields are dropped. -/
theorem mergeFromBytes_flatMap_write_eq_mapM {fs : List Field}
    (hfs : ∀ f ∈ fs, f.Readable fieldWireType) :
    new.mergeFromBytes (fs.flatMap Field.write) =
      ((fs.filterMap (Field.payloadOf 1)).mapM KeyValuePb.new.mergeFromBytes).map BinaryMapPb.mk := by
  rw [mergeFromBytes, ← List.append_nil (fs.flatMap Field.write), mergeFields_flatMap_write_append hfs,
    bind_mergeFields_nil, foldlM_mergeField]
  rfl

/-- An `inner` element and an unknown varint field. -/
theorem mergeFromBytes_flatMap_write_unknown :
    new.mergeFromBytes (([.lengthDelimited 1 [10, 1, 7], .varint 5 1] : List Field).flatMap Field.write) =
      Except.map BinaryMapPb.mk ((([.lengthDelimited 1 [10, 1, 7], .varint 5 1] : List Field).filterMap
        (Field.payloadOf 1)).mapM KeyValuePb.new.mergeFromBytes) :=
  mergeFromBytes_flatMap_write_eq_mapM (by decide)

/-- A truncated message: its first elements, possibly followed by the next
one cut inside, read as the empty `KeyValue` or as its `key` alone. -/
theorem mergeFromBytes_truncated (pb : BinaryMapPb) {n : Nat} {pb' : BinaryMapPb}
    (h : new.mergeFromBytes (pb.writeToBytes.take n) = .ok pb') :
    ∃ i, pb' = ⟨pb.inner.take i⟩ ∨
      ∃ kv, pb.inner[i]? = some kv ∧
        (pb' = ⟨pb.inner.take i ++ [KeyValuePb.new]⟩ ∨ pb' = ⟨pb.inner.take i ++ [⟨kv.key, []⟩]⟩) := by
  rw [mergeFromBytes, writeToBytes_eq_flatMap] at h
  obtain ⟨i, ⟨-, hfold⟩ | ⟨number, payload, j, hget, -, hj, -, hfold⟩⟩ :=
    mergeFields_truncated (readable_map pb.inner) h
  · rw [← List.map_take, foldlM_mergeField_inner] at hfold
    exact ⟨i, .inl (Except.ok.inj hfold).symm⟩
  · rw [List.getElem?_map, Option.map_eq_some'] at hget
    obtain ⟨kv, hkv, hfield⟩ := hget
    cases hfield
    refine ⟨i, .inr ⟨kv, hkv, ?_⟩⟩
    rw [List.foldlM_append, ← List.map_take, foldlM_mergeField_inner] at hfold
    cases hkv' : KeyValuePb.new.mergeFromBytes (kv.writeToBytes.take j) with
    | error e =>
      simp only [List.foldlM_cons, List.foldlM_nil, mergeField, hkv', bind, Except.bind] at hfold
      cases hfold
    | ok kv' =>
      simp only [List.foldlM_cons, List.foldlM_nil, mergeField, hkv', bind, Except.bind, pure,
        Except.pure, Except.ok.injEq, new, List.nil_append] at hfold
      rcases KeyValuePb.mergeFromBytes_take_inside kv hj hkv' with rfl | rfl
      · exact .inl hfold.symm
      · exact .inr hfold.symm

/-- **A truncated `BinaryMap` message reads as its first elements, possibly
followed by the next one cut inside.** `merge_from_bytes` of a prefix of the
encoding either fails or gives the first `i` elements, possibly followed by an
`(i+1)`-th read from a cut payload: the empty `KeyValue`, or the element's
`key` without its `value`. -/
theorem mergeFromBytes_take_writeToBytes (pb : BinaryMapPb) {n : Nat} {pb' : BinaryMapPb}
    (h : new.mergeFromBytes (pb.writeToBytes.take n) = .ok pb') :
    ∃ i, pb' = ⟨pb.inner.take i⟩ ∨
      ∃ kv, pb.inner[i]? = some kv ∧
        (pb' = ⟨pb.inner.take i ++ [KeyValuePb.new]⟩ ∨ pb' = ⟨pb.inner.take i ++ [⟨kv.key, []⟩]⟩) :=
  mergeFromBytes_truncated pb h

/-- A one-entry message cut after five of its eight bytes, inside the entry's
`value` field: the entry reads as its `key` alone. -/
theorem mergeFromBytes_take_writeToBytes_key :
    ∃ i, (⟨[⟨[1], []⟩]⟩ : BinaryMapPb) = ⟨([⟨[1], [2]⟩] : List KeyValuePb).take i⟩ ∨
      ∃ kv, ([⟨[1], [2]⟩] : List KeyValuePb)[i]? = some kv ∧
        ((⟨[⟨[1], []⟩]⟩ : BinaryMapPb) = ⟨([⟨[1], [2]⟩] : List KeyValuePb).take i ++ [KeyValuePb.new]⟩ ∨
          (⟨[⟨[1], []⟩]⟩ : BinaryMapPb) = ⟨([⟨[1], [2]⟩] : List KeyValuePb).take i ++ [⟨kv.key, []⟩]⟩) :=
  @mergeFromBytes_take_writeToBytes ⟨[⟨[1], [2]⟩]⟩ 5 ⟨[⟨[1], []⟩]⟩ (by
    have hbytes : (writeToBytes ⟨[⟨[1], [2]⟩]⟩).take 5 = [10, 6, 10, 1, 1] := by
      simp only [writeToBytes, KeyValuePb.writeToBytes, List.flatMap_cons, List.flatMap_nil, writeBytes,
        writeTag, List.isEmpty_cons, Bool.false_eq_true, ↓reduceIte, WireType.toNat, List.length_cons,
        List.length_nil, List.length_append, List.append_nil, Nat.reduceMul, Nat.reduceAdd,
        writeRawVarint_of_lt (show 1 < 128 by decide), writeRawVarint_of_lt (show 10 < 128 by decide),
        writeRawVarint_of_lt (show 18 < 128 by decide), writeRawVarint_of_lt (show 6 < 128 by decide)]
      rfl
    have hkv : KeyValuePb.new.mergeFromBytes [10, 1, 1] = .ok ⟨[1], []⟩ := by
      have hread : readField KeyValuePb.fieldWireType [10, 1, 1] = .ok (some (.lengthDelimited 1 [1]), []) :=
        rfl
      rw [KeyValuePb.mergeFromBytes, mergeFields_of_readField hread, bind_mergeFields_nil]
      rfl
    have hread : readField fieldWireType [10, 6, 10, 1, 1] = .ok (some (.lengthDelimited 1 [10, 1, 1]), []) :=
      rfl
    rw [hbytes, mergeFromBytes, mergeFields_of_readField hread, bind_mergeFields_nil]
    simp only [mergeField, hkv]
    rfl)

end BinaryMapPb

-- ---------------------------------------------------------------------------
-- `BinaryMap<K, V>`
-- ---------------------------------------------------------------------------

/-- `BinaryMap<K, V>`: a `BTreeMap` stored through protobuf. -/
structure BinaryMap (K V : Type) [LinearOrder K] where
  map : BTreeMap K V

section Codec

variable {K V : Type} [LinearOrder K] [BinaryValue K] [BinaryValue V]

/-- `BinaryMap::default`: the empty map. -/
def BinaryMap.default : BinaryMap K V :=
  ⟨BTreeMap.empty⟩

/-- `pair_to_key_value_pb`. -/
def pairToKeyValuePb (pair : K × V) : KeyValuePb :=
  ⟨BinaryValue.toBytes pair.1, BinaryValue.toBytes pair.2⟩

/-- `key_value_pb_to_pair`. -/
def keyValuePbToPair (pb : KeyValuePb) : Except Error (K × V) := do
  let key ← BinaryValue.fromBytes pb.key
  let value ← BinaryValue.fromBytes pb.value
  pure (key, value)

/-- `ProtobufConvert::to_pb`: the entries in key order. -/
def BinaryMap.toPb (m : BinaryMap K V) : BinaryMapPb :=
  ⟨m.map.entries.map pairToKeyValuePb⟩

/-- `ProtobufConvert::from_pb`: the pairs are decoded in order, the first
error stops it, and the pairs are collected into a map. -/
def BinaryMap.fromPb (pb : BinaryMapPb) : Except Error (BinaryMap K V) := do
  let inner ← pb.inner.mapM keyValuePbToPair
  pure ⟨BTreeMap.ofList inner⟩

/-- `BinaryValue::to_bytes`. -/
def BinaryMap.toBytes (m : BinaryMap K V) : List UInt8 :=
  m.toPb.writeToBytes

/-- `BinaryValue::from_bytes`. -/
def BinaryMap.fromBytes (bytes : List UInt8) : Except Error (BinaryMap K V) := do
  let pb ← (BinaryMapPb.new.mergeFromBytes bytes).mapError .wire
  BinaryMap.fromPb pb

instance : BinaryValue (BinaryMap K V) :=
  ⟨BinaryMap.toBytes, BinaryMap.fromBytes⟩

/-- `ObjectHash::object_hash`. -/
def BinaryMap.objectHash (m : BinaryMap K V) : Hash :=
  hash m.toBytes

/-- The empty map is encoded by no bytes at all. -/
theorem BinaryMap.toBytes_default : (BinaryMap.default : BinaryMap K V).toBytes = [] :=
  rfl

section RoundTrip

variable (hK : ∀ k : K, BinaryValue.fromBytes (BinaryValue.toBytes k) = .ok k)
  (hV : ∀ v : V, BinaryValue.fromBytes (BinaryValue.toBytes v) = .ok v)

include hK hV

omit [LinearOrder K] in
theorem keyValuePbToPair_pairToKeyValuePb (pair : K × V) :
    keyValuePbToPair (pairToKeyValuePb pair) = .ok pair := by
  simp [keyValuePbToPair, pairToKeyValuePb, hK, hV, bind, Except.bind, pure, Except.pure]

omit [LinearOrder K] in
theorem mapM_keyValuePbToPair (pairs : List (K × V)) :
    (pairs.map pairToKeyValuePb).mapM keyValuePbToPair = .ok pairs := by
  induction pairs with
  | nil => rfl
  | cons pair rest ih =>
    rw [List.map_cons, List.mapM_cons, keyValuePbToPair_pairToKeyValuePb hK hV, ih]
    rfl

theorem BinaryMap.fromPb_toPb (m : BinaryMap K V) : BinaryMap.fromPb m.toPb = .ok m := by
  rw [BinaryMap.fromPb, BinaryMap.toPb, mapM_keyValuePbToPair hK hV]
  show Except.ok (BinaryMap.mk (BTreeMap.ofList m.map.entries)) = _
  rw [BTreeMap.ofList_entries]

theorem BinaryMap.fromBytes_toBytes (m : BinaryMap K V) : BinaryMap.fromBytes m.toBytes = .ok m := by
  rw [BinaryMap.fromBytes, BinaryMap.toBytes, BinaryMapPb.mergeFromBytes_writeToBytes]
  exact BinaryMap.fromPb_toPb hK hV m

theorem BinaryMap.toBytes_injective : Function.Injective (BinaryMap.toBytes : BinaryMap K V → List UInt8) :=
  fun m m' h => Except.ok.inj ((BinaryMap.fromBytes_toBytes hK hV m).symm.trans
    (h ▸ BinaryMap.fromBytes_toBytes hK hV m'))

/-- **`from_bytes` normalises.** A `BinaryMap` message whose entries encode any
pairs, in any order and with keys repeated, is accepted and read as the map
collecting them, whose `to_bytes` is sorted and without repeats: the decoder
accepts encodings that `to_bytes` never writes. -/
theorem BinaryMap.fromBytes_writeToBytes_pairs (pairs : List (K × V)) :
    BinaryMap.fromBytes (BinaryMapPb.writeToBytes ⟨pairs.map pairToKeyValuePb⟩) =
      .ok ⟨BTreeMap.ofList pairs⟩ := by
  rw [BinaryMap.fromBytes, BinaryMapPb.mergeFromBytes_writeToBytes]
  show BinaryMap.fromPb ⟨pairs.map pairToKeyValuePb⟩ = _
  rw [BinaryMap.fromPb, mapM_keyValuePbToPair hK hV]
  rfl

/-- **`object_hash` of a collected map is fixed by the last value of each
key.** Two sequences of pairs, collected as `from_pb` collects them, give
maps of the same `object_hash` exactly when they agree on the last value of
every key: neither the order of the pairs nor an earlier value of a key
changes the hash. -/
theorem BinaryMap.objectHash_ofList_eq_iff (pairs pairs' : List (K × V)) :
    BinaryMap.objectHash (⟨BTreeMap.ofList pairs⟩ : BinaryMap K V) =
        BinaryMap.objectHash ⟨BTreeMap.ofList pairs'⟩ ↔
      ∀ k, pairs.reverse.lookup k = pairs'.reverse.lookup k := by
  have hlast : ∀ k, pairs'.reverse.lookup k = (BTreeMap.ofList pairs').entries.lookup k :=
    (BTreeMap.ofList_eq_iff_lookup pairs' _).mp rfl
  constructor
  · intro h k
    have hmap := congrArg BinaryMap.map (BinaryMap.toBytes_injective hK hV (congrArg Hash.preimage h))
    rw [hlast]
    exact (BTreeMap.ofList_eq_iff_lookup pairs _).mp hmap k
  · intro h
    rw [(BTreeMap.ofList_eq_iff_lookup pairs _).mpr fun k => (h k).trans (hlast k)]

end RoundTrip

/-- **The `BinaryMap` codec round-trips.** For key and value codecs that
round-trip, every map comes back from `from_pb ∘ to_pb` and from
`from_bytes ∘ to_bytes`, so `to_bytes`, the input of `object_hash`, is
injective. -/
theorem binaryMap_fromBytes_toBytes
    (hK : ∀ k : K, BinaryValue.fromBytes (BinaryValue.toBytes k) = .ok k)
    (hV : ∀ v : V, BinaryValue.fromBytes (BinaryValue.toBytes v) = .ok v) :
    (∀ m : BinaryMap K V,
      BinaryValue.fromBytes (BinaryValue.toBytes m) = .ok m ∧ BinaryMap.fromPb m.toPb = .ok m) ∧
    Function.Injective (BinaryValue.toBytes : BinaryMap K V → List UInt8) := by
  have hround : ∀ m : BinaryMap K V, BinaryValue.fromBytes (BinaryValue.toBytes m) = .ok m := fun m => by
    show BinaryMap.fromBytes m.toBytes = .ok m
    simp [BinaryMap.fromBytes, BinaryMap.toBytes, BinaryMapPb.mergeFromBytes_writeToBytes,
      Except.mapError, bind, Except.bind, BinaryMap.fromPb_toPb hK hV]
  refine ⟨fun m => ⟨hround m, BinaryMap.fromPb_toPb hK hV m⟩, fun m m' h => ?_⟩
  have := (hround m).symm.trans (h ▸ hround m')
  exact Except.ok.inj this

end Codec

-- ---------------------------------------------------------------------------
-- `u64` keys and values
-- ---------------------------------------------------------------------------

/-- Rust's `Ord` on `u64`: the order of the numbers. -/
instance instLinearOrderUInt64 : LinearOrder UInt64 :=
  LinearOrder.lift' UInt64.toNat fun _ _ => UInt64.toNat.inj

/-- The `count` little-endian bytes of `n`, low byte first. -/
def leBytes : Nat → Nat → List UInt8
  | 0, _ => []
  | count + 1, n => (n % 256).toUInt8 :: leBytes count (n / 256)

/-- The number that little-endian bytes denote. -/
def ofLeBytes (bytes : List UInt8) : Nat :=
  bytes.foldr (fun b acc => b.toNat + 256 * acc) 0

/-- `BinaryValue for u64` of `exonum_merkledb`: the eight bytes of
`to_le_bytes`; `read_u64::<LittleEndian>` reads the first eight bytes back and
fails on a shorter input. -/
instance : BinaryValue UInt64 where
  toBytes n := leBytes 8 n.toNat
  fromBytes bytes :=
    if 8 ≤ bytes.length then .ok (UInt64.ofNat (ofLeBytes (bytes.take 8)))
    else .error (.message "failed to fill whole buffer")

@[simp] theorem length_leBytes (count n : Nat) : (leBytes count n).length = count := by
  induction count generalizing n <;> simp [leBytes, *]

theorem ofLeBytes_leBytes (count n : Nat) : ofLeBytes (leBytes count n) = n % 256 ^ count := by
  induction count generalizing n with
  | zero => simp [leBytes, ofLeBytes, Nat.mod_one]
  | succ count ih =>
    simp only [ofLeBytes, leBytes, List.foldr_cons] at ih ⊢
    rw [ih, toNat_toUInt8, Nat.mod_mod, Nat.pow_succ', Nat.mod_mul]

/-- The `u64` codec round-trips. -/
theorem u64_fromBytes_toBytes (n : UInt64) : BinaryValue.fromBytes (BinaryValue.toBytes n) = .ok n := by
  show (if 8 ≤ (leBytes 8 n.toNat).length
    then Except.ok (UInt64.ofNat (ofLeBytes ((leBytes 8 n.toNat).take 8))) else _) = _
  rw [if_pos (by simp), List.take_of_length_le (by simp), ofLeBytes_leBytes]
  congr
  apply UInt64.toNat.inj
  have := n.toNat_lt_size
  show n.toNat % 256 ^ 8 % 2 ^ 64 = n.toNat
  simp only [UInt64.size] at this
  omega

theorem binaryMap_fromBytes_toBytes_u64 :
    (∀ k : UInt64, BinaryValue.fromBytes (BinaryValue.toBytes k) = .ok k) ∧
    ((∀ m : BinaryMap UInt64 UInt64,
      BinaryValue.fromBytes (BinaryValue.toBytes m) = .ok m ∧ BinaryMap.fromPb m.toPb = .ok m) ∧
    Function.Injective (BinaryValue.toBytes : BinaryMap UInt64 UInt64 → List UInt8)) :=
  ⟨u64_fromBytes_toBytes, binaryMap_fromBytes_toBytes u64_fromBytes_toBytes u64_fromBytes_toBytes⟩

/-- Entries for keys 2, 1 and 2 again read as the map `1 ↦ 10, 2 ↦ 21`. -/
theorem fromBytes_writeToBytes_pairs_u64 :
    (BinaryMap.fromBytes (BinaryMapPb.writeToBytes
        ⟨[((2 : UInt64), (20 : UInt64)), (1, 10), (2, 21)].map pairToKeyValuePb⟩) :
        Except Error (BinaryMap UInt64 UInt64)) =
      .ok ⟨BTreeMap.ofList [(2, 20), (1, 10), (2, 21)]⟩ :=
  BinaryMap.fromBytes_writeToBytes_pairs u64_fromBytes_toBytes u64_fromBytes_toBytes _

/-- Writing `1 ↦ 10` and then `1 ↦ 11` hashes as writing `1 ↦ 11` alone. -/
theorem objectHash_ofList_u64 :
    BinaryMap.objectHash (⟨BTreeMap.ofList [((1 : UInt64), (10 : UInt64)), (1, 11)]⟩ :
        BinaryMap UInt64 UInt64) =
      BinaryMap.objectHash ⟨BTreeMap.ofList [((1 : UInt64), (11 : UInt64))]⟩ :=
  (BinaryMap.objectHash_ofList_eq_iff u64_fromBytes_toBytes u64_fromBytes_toBytes _ _).mpr fun k => by
    simp only [List.reverse_cons, List.reverse_nil, List.nil_append, List.cons_append,
      List.lookup_cons, List.lookup_nil]
    split <;> simp only [*]

/-- `BinaryValue for Vec<u8>` of `exonum_merkledb`: the bytes themselves. -/
instance instBinaryValueBytes : BinaryValue (List UInt8) where
  toBytes bytes := bytes
  fromBytes bytes := .ok bytes

section KeyOrder

variable {K V : Type} [LinearOrder K] [BinaryValue K] [BinaryValue V]

/-- **`to_pb` writes the keys in byte order exactly for a monotone key codec.**
The entries of `to_pb().inner` are those of the map in increasing order of
`K`'s `Ord`; their encoded keys are in strictly increasing lexicographic byte
order for every map exactly when `to_bytes` is strictly increasing from `K`'s
order to the lexicographic one. -/
theorem toPb_keys_sorted_iff [Inhabited V] :
    (∀ m : BinaryMap K V, m.toPb.inner.Pairwise fun a b => List.Lex (· < ·) a.key b.key) ↔
      ∀ k k' : K, k < k' → List.Lex (· < ·) (BinaryValue.toBytes k) (BinaryValue.toBytes k') := by
  constructor
  · intro hsorted k k' hlt
    have := hsorted ⟨⟨[(k, default), (k', default)], List.pairwise_pair.mpr hlt⟩⟩
    simpa [BinaryMap.toPb, pairToKeyValuePb] using this
  · intro hmono m
    exact List.pairwise_map.mpr (m.map.sorted.imp fun hlt => hmono _ _ hlt)

end KeyOrder

/-- With `u64` keys, encoded little-endian, `1 < 256` but the encoding of
`256` is the smaller byte string, so `to_pb` writes the keys out of byte
order. -/
theorem toPb_keys_unsorted_u64 :
    (BinaryMap.toPb (⟨BTreeMap.ofList [(1, 0), (256, 0)]⟩ : BinaryMap UInt64 UInt64)).inner.map
        KeyValuePb.key = [[1, 0, 0, 0, 0, 0, 0, 0], [0, 1, 0, 0, 0, 0, 0, 0]] ∧
      ¬ (BinaryMap.toPb (⟨BTreeMap.ofList [(1, 0), (256, 0)]⟩ : BinaryMap UInt64 UInt64)).inner.Pairwise
        fun a b => List.Lex (· < ·) a.key b.key :=
  ⟨by decide, by decide⟩

end BtcAnchoring
