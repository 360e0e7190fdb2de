import Tikv.Lib.ByteOrder
import Tikv.Lib.BinarySearch
import Tikv.Lib.AssocList
import Mathlib

/-!
Row format v2 of tidb_query_datatype (components/tidb_query_datatype/src/codec/row/v2): the
version byte 128, a flags byte (\x60BIG\x60 = 1, \x60WITH_CHECKSUM\x60 = 2), the numbers of non-null
and of null columns as two little-endian \x60u16\x60s, the non-null ids, the null ids, the end
offset of each non-null value, the values, and the checksum. Ids are one byte, or four when
\x60BIG\x60; offsets two bytes, or four. \x60RowSlice\x60 keeps each part as a slice and reads it in
place: \x60LeBytes\x60 reads the \x60i\x60-th number of a slice, and finds one by a binary search
capped at twenty rounds.

\x60RowSlice::Small\x60 and \x60RowSlice::Big\x60 hold the same fields at different widths; the model
is one structure with the flag. Column ids are \x60i64\x60 in the source and \x60Int\x60 here: every
id is checked to lie in \x60(0, u8::MAX]\x60 or \x60(0, u32::MAX]\x60 before \x60id as u8\x60 or
\x60id as u32\x60 takes its low bits.
-/

namespace Tikv.TidbQuery.RowV2

open Tikv.Lib.ByteOrder

def CODEC_VERSION : Nat := 128

def Flags.BIG : Nat := 1

def Flags.WITH_CHECKSUM : Nat := 2

inductive Error
  | ColumnOffset (idx : Nat)
  | CorruptedData (origin : List UInt8)
  | Other (msg : String)
  | Panic
  deriving DecidableEq, Repr

def Error.codec_eof : Error := .Other "Codec: Io error: Unexpected EOF"

def Error.unexpected_eof : Error :=
  .Other "codec:Io(Custom \x7b kind: UnexpectedEof, error: \"eof\" \x7d)"

def read_le (n : Nat) (data : List UInt8) : Except Error (Nat × List UInt8) :=
  if data.length < n then .error Error.codec_eof else .ok (from_le (data.take n), data.drop n)

def read_u8 (data : List UInt8) : Except Error (Nat × List UInt8) := read_le 1 data

def read_u16_le (data : List UInt8) : Except Error (Nat × List UInt8) := read_le 2 data

def read_u32_le (data : List UInt8) : Except Error (Nat × List UInt8) := read_le 4 data

structure LeBytes (size : Nat) where
  slice : List UInt8

namespace LeBytes

variable {size : Nat}

def get_unchecked (self : LeBytes size) (index : Nat) : Nat :=
  from_le ((self.slice.drop (size * index)).take size)

def get (self : LeBytes size) (index : Nat) : Option Nat :=
  if size * index ≥ self.slice.length then none else some (self.get_unchecked index)

/-- The count of ids is at most \x60u16::MAX\x60, so sixteen rounds suffice; the source allows
twenty. -/
def binary_search (self : LeBytes size) (value : Nat) : Except Nat Nat :=
  Tikv.Lib.BinarySearch.search self.get_unchecked value 20 (self.slice.length / size)

end LeBytes

def read_le_bytes (size : Nat) (buf : List UInt8) (len : Nat) :
    Except Error (LeBytes size × List UInt8) :=
  let bytes_len := size * len
  if buf.length < bytes_len then .error Error.unexpected_eof
  else .ok (⟨buf.take bytes_len⟩, buf.drop bytes_len)

def id_size (is_big : Bool) : Nat := if is_big then 4 else 1

def offset_size (is_big : Bool) : Nat := if is_big then 4 else 2

structure Checksum where
  header : Nat
  val : Nat
  extra_val : Nat
  deriving DecidableEq, Repr

def Checksum.has_extra_checksum (self : Checksum) : Bool := self.header &&& 0b1000 > 0

structure RowSlice where
  is_big : Bool
  origin : List UInt8
  non_null_ids : LeBytes (id_size is_big)
  null_ids : LeBytes (id_size is_big)
  offsets : LeBytes (offset_size is_big)
  values : LeBytes 1
  checksum : Option Checksum

namespace RowSlice

/-- The row without its checksum bytes, and those bytes: what follows the last value. The
\x60unwrap\x60 of a missing last offset and a last offset past the values panic. -/
def cut_checksum_bytes (self : RowSlice) (non_null_col_num : Nat) :
    Except Error (RowSlice × List UInt8) :=
  let last_slice_idx := if non_null_col_num = 0 then some 0
    else self.offsets.get (non_null_col_num - 1)
  match last_slice_idx with
  | none => .error .Panic
  | some last_slice_idx =>
    if self.values.slice.length < last_slice_idx then .error .Panic
    else .ok ({ self with values := ⟨self.values.slice.take last_slice_idx⟩ },
      self.values.slice.drop last_slice_idx)

def from_bytes (data : List UInt8) : Except Error RowSlice := do
  let origin := data
  let (version, data) ← read_u8 data
  -- assert_eq!(data.read_u8()?, super::CODEC_VERSION)
  if version ≠ CODEC_VERSION then throw .Panic
  -- Flags::from_bits_truncate keeps the two known bits
  let (flags, data) ← read_u8 data
  let is_big := flags &&& Flags.BIG ≠ 0
  let with_checksum := flags &&& Flags.WITH_CHECKSUM ≠ 0
  let (non_null_cnt, data) ← read_u16_le data
  let (null_cnt, data) ← read_u16_le data
  let (non_null_ids, data) ← read_le_bytes (id_size is_big) data non_null_cnt
  let (null_ids, data) ← read_le_bytes (id_size is_big) data null_cnt
  let (offsets, data) ← read_le_bytes (offset_size is_big) data non_null_cnt
  let row : RowSlice := ⟨is_big, origin, non_null_ids, null_ids, offsets, ⟨data⟩, none⟩
  if with_checksum then
    let (row, checksum_bytes) ← row.cut_checksum_bytes non_null_cnt
    -- assert!(checksum_bytes.len() == 5 || checksum_bytes.len() == 9)
    if !(checksum_bytes.length = 5 || checksum_bytes.length = 9) then throw .Panic
    let (header, checksum_bytes) ← read_u8 checksum_bytes
    let (val, checksum_bytes) ← read_u32_le checksum_bytes
    let checksum : Checksum := ⟨header, val, 0⟩
    let checksum ← if checksum.has_extra_checksum then do
        let (extra_val, _) ← read_u32_le checksum_bytes
        pure { checksum with extra_val := extra_val }
      else pure checksum
    pure { row with checksum := some checksum }
  else pure row

def id_valid (self : RowSlice) (id : Int) : Bool :=
  0 < id && id ≤ if self.is_big then 4294967295 else 255

def id_key (self : RowSlice) (id : Int) : Nat := (id % 2 ^ (8 * id_size self.is_big)).toNat

def search_in_non_null_ids (self : RowSlice) (id : Int) : Except Error (Option (Nat × Nat)) :=
  if !self.id_valid id then .ok none
  else
    match self.non_null_ids.binary_search (self.id_key id) with
    | .ok idx =>
      match self.offsets.get idx with
      | none => .error (.ColumnOffset idx)
      | some offset =>
        let start := if idx > 0 then self.offsets.get_unchecked (idx - 1) else 0
        .ok (some (start, offset))
    | .error _ => .ok none

def search_in_null_ids (self : RowSlice) (id : Int) : Bool :=
  if !self.id_valid id then false
  else
    match self.null_ids.binary_search (self.id_key id) with
    | .ok _ => true
    | .error _ => false

def get (self : RowSlice) (column_id : Int) : Except Error (Option (List UInt8)) :=
  match self.search_in_non_null_ids column_id with
  | .error e => .error e
  | .ok none => .ok none
  | .ok (some (start, end_)) =>
    if start ≤ end_ ∧ end_ ≤ self.values.slice.length then
      .ok (some ((self.values.slice.take end_).drop start))
    else .error (.CorruptedData self.origin)

end RowSlice

section Writer

/-! The layout that \x60RowEncoder::write_row_impl\x60 (encoder_for_test.rs) writes once it has
split the columns into non-null and null ones and sorted both by id. Whether the row is big is
a field here: that writer sets it for an id above 255 or values longer than \x60u16::MAX\x60, and
the reader accepts either width whenever the numbers fit. -/

def write_flag (is_big has_checksum : Bool) : Nat :=
  match is_big, has_checksum with
  | true, true => Flags.BIG ||| Flags.WITH_CHECKSUM
  | true, false => Flags.BIG
  | false, true => Flags.WITH_CHECKSUM
  | false, false => 0

def write_id (is_big : Bool) (id : Nat) : List UInt8 := to_le_bytes (id_size is_big) id

def write_offset (is_big : Bool) (offset : Nat) : List UInt8 :=
  to_le_bytes (offset_size is_big) offset

def value_ends (acc : Nat) : List (List UInt8) → List Nat
  | [] => []
  | v :: vs => (acc + v.length) :: value_ends (acc + v.length) vs

def write_checksum : Option (Nat × Nat × Option Nat) → List UInt8
  | none => []
  | some (header, val, extra) =>
    UInt8.ofNat header :: (to_le_bytes 4 val ++ match extra with
      | some e => to_le_bytes 4 e
      | none => [])

/-- A row: the non-null columns with the bytes of their values, the ids of the null columns,
and the checksum. -/
structure Row where
  is_big : Bool
  columns : List (Nat × List UInt8)
  null_ids : List Nat
  checksum : Option (Nat × Nat × Option Nat)

def Row.values (r : Row) : List (List UInt8) := r.columns.map Prod.snd

def Row.encode (r : Row) : List UInt8 :=
  UInt8.ofNat CODEC_VERSION :: UInt8.ofNat (write_flag r.is_big r.checksum.isSome) ::
    (to_le_bytes 2 r.columns.length ++ (to_le_bytes 2 r.null_ids.length ++
    ((r.columns.map Prod.fst).flatMap (write_id r.is_big) ++
    (r.null_ids.flatMap (write_id r.is_big) ++
    ((value_ends 0 r.values).flatMap (write_offset r.is_big) ++
    (r.values.flatten ++ write_checksum r.checksum))))))

/-- What the writer guarantees: ids ascending and within their width, counts within \x60u16\x60,
offsets within theirs, and a header whose extra-checksum bit says whether one follows. -/
structure Row.Wf (r : Row) : Prop where
  ids_sorted : (r.columns.map Prod.fst).Pairwise (· < ·)
  null_ids_sorted : r.null_ids.Pairwise (· ≤ ·)
  ids_pos : ∀ id ∈ r.columns.map Prod.fst ++ r.null_ids, 0 < id ∧ id < 256 ^ id_size r.is_big
  counts : r.columns.length < 2 ^ 16 ∧ r.null_ids.length < 2 ^ 16
  values_fit : r.values.flatten.length < 256 ^ offset_size r.is_big
  checksum : ∀ header val extra, r.checksum = some (header, val, extra) →
    header < 256 ∧ (header &&& 0b1000 > 0 ↔ extra.isSome) ∧ val < 2 ^ 32 ∧ ∀ e ∈ extra, e < 2 ^ 32

end Writer

section Reads

theorem read_le_append {n : Nat} {bytes : List UInt8} (h : bytes.length = n) (rest : List UInt8) :
    read_le n (bytes ++ rest) = .ok (from_le bytes, rest) := by
  simp [read_le, h, List.take_left', List.drop_left']

theorem read_le_to_le_bytes {n v : Nat} (h : v < 256 ^ n) (rest : List UInt8) :
    read_le n (to_le_bytes n v ++ rest) = .ok (v, rest) := by
  rw [read_le_append (length_to_le_bytes n v), from_le_to_le_bytes, Nat.mod_eq_of_lt h]

theorem read_le_bytes_append {size len : Nat} {slice : List UInt8}
    (h : slice.length = size * len) (rest : List UInt8) :
    read_le_bytes size (slice ++ rest) len = .ok (⟨slice⟩, rest) := by
  simp [read_le_bytes, h, List.take_left', List.drop_left']

theorem length_flatMap_to_le_bytes (n : Nat) (l : List Nat) :
    (l.flatMap (to_le_bytes n)).length = n * l.length := by
  induction l with
  | nil => rfl
  | cons x l ih =>
    rw [List.flatMap_cons, List.length_append, ih, length_to_le_bytes, List.length_cons,
      Nat.mul_succ]
    omega

theorem drop_flatMap_to_le_bytes (n : Nat) :
    ∀ (l : List Nat) (i : Nat), (l.flatMap (to_le_bytes n)).drop (n * i) =
      (l.drop i).flatMap (to_le_bytes n)
  | [], i => by simp
  | x :: l, 0 => by simp
  | x :: l, i + 1 => by
    rw [List.flatMap_cons, Nat.mul_succ, Nat.add_comm, ← List.drop_drop,
      List.drop_left' (length_to_le_bytes n x), drop_flatMap_to_le_bytes n l i]
    rfl

theorem read_u8_cons (x : UInt8) (rest : List UInt8) : read_u8 (x :: rest) = .ok (x.toNat, rest) := by
  simp [read_u8, read_le, from_le]

theorem decide_write_flag_big (is_big has_checksum : Bool) :
    decide (¬write_flag is_big has_checksum &&& Flags.BIG = 0) = is_big := by
  cases is_big <;> cases has_checksum <;> decide

@[simp]
theorem write_flag_checksum_ne_zero (is_big has_checksum : Bool) :
    ¬write_flag is_big has_checksum &&& Flags.WITH_CHECKSUM = 0 ↔ has_checksum = true := by
  cases is_big <;> cases has_checksum <;> decide

theorem toNat_ofNat_write_flag (is_big has_checksum : Bool) :
    (UInt8.ofNat (write_flag is_big has_checksum)).toNat = write_flag is_big has_checksum := by
  cases is_big <;> cases has_checksum <;> decide

end Reads

section Values

variable {α : Type}

theorem length_value_ends : ∀ (acc : Nat) (vs : List (List UInt8)),
    (value_ends acc vs).length = vs.length
  | _, [] => rfl
  | acc, v :: vs => by rw [value_ends, List.length_cons, length_value_ends, List.length_cons]

theorem getElem?_value_ends : ∀ (acc : Nat) (vs : List (List UInt8)) (k : Nat),
    (value_ends acc vs)[k]? =
      if k < vs.length then some (acc + (vs.take (k + 1)).flatten.length) else none
  | _, [], k => by simp [value_ends]
  | acc, v :: vs, 0 => by simp [value_ends]
  | acc, v :: vs, k + 1 => by
    rw [value_ends, List.getElem?_cons_succ, getElem?_value_ends]
    simp only [List.length_cons, Nat.add_lt_add_iff_right, List.take_succ_cons, List.flatten_cons,
      List.length_append]
    split <;> simp only [Nat.add_assoc]

theorem flatten_take_succ {vs : List (List α)} {k : Nat} (hk : k < vs.length) :
    (vs.take (k + 1)).flatten = (vs.take k).flatten ++ vs[k] := by
  rw [List.take_add_one, List.getElem?_eq_getElem hk, Option.toList_some, List.flatten_append,
    List.flatten_singleton]

theorem flatten_slice {vs : List (List α)} {k : Nat} (hk : k < vs.length) :
    (vs.flatten.take (vs.take (k + 1)).flatten.length).drop (vs.take k).flatten.length = vs[k] := by
  have hsplit : vs.flatten = (vs.take (k + 1)).flatten ++ (vs.drop (k + 1)).flatten := by
    rw [← List.flatten_append, List.take_append_drop]
  rw [hsplit, List.take_left' rfl, flatten_take_succ hk, List.drop_left' rfl]

theorem length_flatten_take_le (vs : List (List α)) (k : Nat) :
    (vs.take k).flatten.length ≤ vs.flatten.length := by
  conv_rhs => rw [← List.take_append_drop k vs, List.flatten_append, List.length_append]
  omega

end Values

namespace LeBytes

variable {size : Nat} {a : List Nat}

theorem get_unchecked_flatMap (ha : ∀ x ∈ a, x < 256 ^ size) {i : Nat} (hi : i < a.length) :
    (⟨a.flatMap (to_le_bytes size)⟩ : LeBytes size).get_unchecked i = a[i] := by
  rw [get_unchecked, drop_flatMap_to_le_bytes, List.drop_eq_getElem_cons hi, List.flatMap_cons,
    List.take_left' (length_to_le_bytes _ _), from_le_to_le_bytes,
    Nat.mod_eq_of_lt (ha _ (List.getElem_mem hi))]

theorem get_flatMap (hsize : 0 < size) (ha : ∀ x ∈ a, x < 256 ^ size) (i : Nat) :
    (⟨a.flatMap (to_le_bytes size)⟩ : LeBytes size).get i = a[i]? := by
  unfold get
  rw [length_flatMap_to_le_bytes]
  split
  · rename_i hge
    rw [List.getElem?_eq_none (Nat.le_of_mul_le_mul_left hge hsize)]
  · rename_i hlt
    have hi : i < a.length := Nat.lt_of_not_le fun h => hlt (Nat.mul_le_mul_left size h)
    rw [get_unchecked_flatMap ha hi, List.getElem?_eq_getElem hi]

theorem binary_search_flatMap (hsize : 0 < size) (ha : ∀ x ∈ a, x < 256 ^ size)
    (hsorted : a.Pairwise (· ≤ ·)) (hlen : a.length ≤ 65535) (v : Nat) :
    (∀ i, (⟨a.flatMap (to_le_bytes size)⟩ : LeBytes size).binary_search v = .ok i →
      a[i]? = some v) ∧
    (v ∈ a → ∃ i, (⟨a.flatMap (to_le_bytes size)⟩ : LeBytes size).binary_search v = .ok i) ∧
    (∀ i, (⟨a.flatMap (to_le_bytes size)⟩ : LeBytes size).binary_search v = .error i →
      i ≤ a.length ∧ ∀ j x, a[j]? = some x → (j < i ↔ x < v)) := by
  have hcount : (a.flatMap (to_le_bytes size)).length / size = a.length := by
    rw [length_flatMap_to_le_bytes, Nat.mul_div_cancel_left _ hsize]
  have hmono : ∀ i j, i ≤ j → j < a.length →
      (⟨a.flatMap (to_le_bytes size)⟩ : LeBytes size).get_unchecked i ≤
        (⟨a.flatMap (to_le_bytes size)⟩ : LeBytes size).get_unchecked j := by
    intro i j hij hj
    rw [get_unchecked_flatMap ha (by omega), get_unchecked_flatMap ha hj]
    rcases Nat.lt_or_eq_of_le hij with hlt | rfl
    · exact List.pairwise_iff_getElem.mp hsorted i j (by omega) hj hlt
    · exact Nat.le_refl _
  have hn : a.length ≤ 2 ^ 20 := by omega
  obtain ⟨hok, herr⟩ := Tikv.Lib.BinarySearch.search_spec (v := v) hmono hn
  unfold binary_search
  rw [hcount]
  refine ⟨fun i h => ?_, fun hv => ?_, fun i h => ?_⟩
  · obtain ⟨hi, heq⟩ := hok i h
    rw [get_unchecked_flatMap ha hi] at heq
    rw [List.getElem?_eq_getElem hi, heq]
  · obtain ⟨i, hi, hv⟩ := List.getElem_of_mem hv
    exact Tikv.Lib.BinarySearch.search_eq_ok_of_mem hmono hn hi
      (by rw [get_unchecked_flatMap ha hi, hv])
  · obtain ⟨hle, hbelow, habove⟩ := herr i h
    refine ⟨hle, fun j x hx => ?_⟩
    obtain ⟨hj, rfl⟩ := List.getElem?_eq_some_iff.mp hx
    have hval := get_unchecked_flatMap ha hj
    constructor
    · intro hji
      rw [← hval]
      exact hbelow j hji
    · intro hxv
      refine Nat.lt_of_not_le fun hij => ?_
      have habove_j := habove j hij hj
      rw [hval] at habove_j
      exact absurd habove_j (Nat.lt_asymm hxv)

end LeBytes

section Decode

def Row.slice (r : Row) : RowSlice where
  is_big := r.is_big
  origin := r.encode
  non_null_ids := ⟨(r.columns.map Prod.fst).flatMap (write_id r.is_big)⟩
  null_ids := ⟨r.null_ids.flatMap (write_id r.is_big)⟩
  offsets := ⟨(value_ends 0 r.values).flatMap (write_offset r.is_big)⟩
  values := ⟨r.values.flatten⟩
  checksum := r.checksum.map fun c => ⟨c.1, c.2.1, c.2.2.getD 0⟩

theorem flatMap_write_id (is_big : Bool) (l : List Nat) :
    l.flatMap (write_id is_big) = l.flatMap (to_le_bytes (id_size is_big)) := rfl

theorem flatMap_write_offset (is_big : Bool) (l : List Nat) :
    l.flatMap (write_offset is_big) = l.flatMap (to_le_bytes (offset_size is_big)) := rfl

theorem le_of_mem_value_ends : ∀ {acc : Nat} {vs : List (List UInt8)} {x : Nat},
    x ∈ value_ends acc vs → x ≤ acc + vs.flatten.length
  | _, [], _, h => nomatch h
  | acc, v :: vs, x, h => by
    rw [value_ends] at h
    rcases List.mem_cons.mp h with rfl | h
    · simp
    · have := le_of_mem_value_ends h
      simp only [List.flatten_cons, List.length_append]
      omega

theorem offset_size_pos (is_big : Bool) : 0 < offset_size is_big := by
  cases is_big <;> decide

theorem id_size_pos (is_big : Bool) : 0 < id_size is_big := by
  cases is_big <;> decide

theorem cut_checksum_bytes_eq {is_big : Bool} {origin : List UInt8}
    {ids nulls : LeBytes (id_size is_big)} {vs : List (List UInt8)} {n : Nat}
    (hn : vs.length = n) (hfit : vs.flatten.length < 256 ^ offset_size is_big)
    (rest : List UInt8) :
    (⟨is_big, origin, ids, nulls, ⟨(value_ends 0 vs).flatMap (write_offset is_big)⟩,
      ⟨vs.flatten ++ rest⟩, none⟩ : RowSlice).cut_checksum_bytes n =
    .ok (⟨is_big, origin, ids, nulls, ⟨(value_ends 0 vs).flatMap (write_offset is_big)⟩,
      ⟨vs.flatten⟩, none⟩, rest) := by
  subst hn
  have hlast : (if vs.length = 0 then some 0 else
      (⟨(value_ends 0 vs).flatMap (write_offset is_big)⟩ : LeBytes (offset_size is_big)).get
        (vs.length - 1)) = some vs.flatten.length := by
    split
    · rename_i h0
      rw [List.length_eq_zero_iff.mp h0]
      rfl
    · rename_i h0
      rw [flatMap_write_offset, LeBytes.get_flatMap (offset_size_pos is_big)
        (fun x hx => Nat.lt_of_le_of_lt (by simpa using le_of_mem_value_ends hx) hfit),
        getElem?_value_ends, if_pos (by omega), Nat.sub_add_cancel (by omega), List.take_length,
        Nat.zero_add]
  unfold RowSlice.cut_checksum_bytes
  simp only [hlast, List.length_append, List.take_left', List.drop_left']
  rw [if_neg (by omega)]

theorem from_bytes_encode {r : Row} (hr : r.Wf) : RowSlice.from_bytes r.encode = .ok r.slice := by
  have hver : (UInt8.ofNat CODEC_VERSION).toNat = CODEC_VERSION := by decide
  have hids : ((r.columns.map Prod.fst).flatMap (write_id r.is_big)).length =
      id_size r.is_big * r.columns.length := by
    rw [flatMap_write_id, length_flatMap_to_le_bytes, List.length_map]
  have hnulls : (r.null_ids.flatMap (write_id r.is_big)).length =
      id_size r.is_big * r.null_ids.length := by
    rw [flatMap_write_id, length_flatMap_to_le_bytes]
  have hoffs : ((value_ends 0 r.values).flatMap (write_offset r.is_big)).length =
      offset_size r.is_big * r.columns.length := by
    rw [flatMap_write_offset, length_flatMap_to_le_bytes, length_value_ends, Row.values,
      List.length_map]
  have hn : r.columns.length < 256 ^ 2 := lt_of_lt_of_eq hr.counts.1 (by decide)
  have hm : r.null_ids.length < 256 ^ 2 := lt_of_lt_of_eq hr.counts.2 (by decide)
  unfold RowSlice.from_bytes
  simp only [Row.encode, read_u8_cons, hver, toNat_ofNat_write_flag, ne_eq, not_true_eq_false,
    if_false, read_u16_le, read_le_to_le_bytes hn, read_le_to_le_bytes hm,
    write_flag_checksum_ne_zero, bind, Except.bind]
  -- the flag is read inside the types of the slices, so it is replaced there at once
  generalize hbig : decide (¬write_flag r.is_big r.checksum.isSome &&& Flags.BIG = 0) = big
  rw [decide_write_flag_big] at hbig
  subst hbig
  simp only [read_le_bytes_append hids, read_le_bytes_append hnulls, read_le_bytes_append hoffs]
  have hcount : r.values.length = r.columns.length := List.length_map _
  have hfit := hr.values_fit
  have hchecksum := hr.checksum
  obtain ⟨is_big, columns, null_ids, checksum⟩ := r
  cases checksum with
  | none =>
    simp [write_checksum, pure, Except.pure, Row.slice, Row.encode]
  | some checksum =>
    obtain ⟨header, val, extra⟩ := checksum
    obtain ⟨hheader, hextra, hval, he⟩ := hchecksum header val extra rfl
    have hval' : val < 256 ^ 4 := lt_of_lt_of_eq hval (by decide)
    have hhas : (⟨header, val, 0⟩ : Checksum).has_extra_checksum = extra.isSome := by
      rw [Checksum.has_extra_checksum]
      exact Bool.eq_iff_iff.mpr (by simpa using hextra)
    simp only [Option.isSome_some, if_true, cut_checksum_bytes_eq hcount hfit, write_checksum,
      read_u8_cons, read_u32_le, read_le_to_le_bytes hval']
    cases extra with
    | none =>
      simp [Nat.mod_eq_of_lt hheader, hhas, pure, Except.pure, Row.slice, Row.encode,
        write_checksum]
    | some x =>
      have hx : x < 256 ^ 4 := lt_of_lt_of_eq (he x rfl) (by decide)
      have := read_le_to_le_bytes hx []
      rw [List.append_nil] at this
      simp [this, Nat.mod_eq_of_lt hheader, hhas, pure, Except.pure, Row.slice, Row.encode,
        write_checksum]

end Decode

section Lookup

variable {r : Row}

theorem id_valid_iff (row : RowSlice) (c : Int) :
    row.id_valid c = true ↔ 0 < c ∧ c.toNat < 256 ^ id_size row.is_big := by
  unfold RowSlice.id_valid id_size
  cases row.is_big <;> simp <;> omega

theorem id_key_of_valid {row : RowSlice} {c : Int} (hc : row.id_valid c = true) :
    row.id_key c = c.toNat := by
  have h := (id_valid_iff row c).mp hc
  unfold RowSlice.id_key
  cases hbig : row.is_big <;> simp only [hbig, id_size] at h ⊢ <;>
    rw [Int.emod_eq_of_lt (by omega) (by simp at h ⊢; omega)]

theorem ids_lt (hr : r.Wf) : ∀ x ∈ r.columns.map Prod.fst, x < 256 ^ id_size r.is_big :=
  fun x hx => (hr.ids_pos x (List.mem_append_left _ hx)).2

theorem null_ids_lt (hr : r.Wf) : ∀ x ∈ r.null_ids, x < 256 ^ id_size r.is_big :=
  fun x hx => (hr.ids_pos x (List.mem_append_right _ hx)).2

theorem value_ends_lt (hr : r.Wf) : ∀ x ∈ value_ends 0 r.values, x < 256 ^ offset_size r.is_big :=
  fun x hx => Nat.lt_of_le_of_lt (by simpa using le_of_mem_value_ends hx) hr.values_fit

theorem binary_search_non_null_ids (hr : r.Wf) {k : Nat} (hk : k < r.columns.length) :
    r.slice.non_null_ids.binary_search r.columns[k].1 = .ok k := by
  have hk' : k < (r.columns.map Prod.fst).length := by rwa [List.length_map]
  have hmem : r.columns[k].1 ∈ r.columns.map Prod.fst := List.mem_map_of_mem (List.getElem_mem hk)
  obtain ⟨hok, hfound, -⟩ := LeBytes.binary_search_flatMap (id_size_pos r.is_big) (ids_lt hr)
    (hr.ids_sorted.imp Nat.le_of_lt) (by have := hr.counts.1; simp only [List.length_map]; omega)
    r.columns[k].1
  obtain ⟨i, hi⟩ := hfound hmem
  obtain ⟨hi', heq⟩ := List.getElem?_eq_some_iff.mp (hok i hi)
  have hik : i = k := by
    have hk1 : (r.columns.map Prod.fst)[k] = r.columns[k].1 := List.getElem_map _
    rw [← hk1] at heq
    exact (hr.ids_sorted.nodup.getElem_inj_iff).mp heq
  subst hik
  exact hi

theorem binary_search_non_null_ids_of_not_mem (hr : r.Wf) {x : Nat}
    (hx : x ∉ r.columns.map Prod.fst) : ∃ i, r.slice.non_null_ids.binary_search x = .error i := by
  obtain ⟨hok, -, -⟩ := LeBytes.binary_search_flatMap (id_size_pos r.is_big) (ids_lt hr)
    (hr.ids_sorted.imp Nat.le_of_lt) (by have := hr.counts.1; simp only [List.length_map]; omega) x
  cases h : r.slice.non_null_ids.binary_search x with
  | ok i => exact absurd (List.mem_of_getElem? (hok i h)) hx
  | error i => exact ⟨i, rfl⟩

theorem binary_search_null_ids_isOk (hr : r.Wf) (x : Nat) :
    (r.slice.null_ids.binary_search x).isOk = decide (x ∈ r.null_ids) := by
  obtain ⟨hok, hfound, -⟩ := LeBytes.binary_search_flatMap (id_size_pos r.is_big) (null_ids_lt hr)
    hr.null_ids_sorted (by have := hr.counts.2; omega) x
  cases h : r.slice.null_ids.binary_search x with
  | ok i => simpa [Except.isOk, Except.toBool] using List.mem_of_getElem? (hok i h)
  | error i =>
    have hx : x ∉ r.null_ids := fun hx => by
      obtain ⟨j, hj⟩ := hfound hx
      exact nomatch h.symm.trans hj
    simpa [Except.isOk, Except.toBool] using hx

theorem offsets_get (hr : r.Wf) (k : Nat) :
    r.slice.offsets.get k = (value_ends 0 r.values)[k]? :=
  LeBytes.get_flatMap (offset_size_pos r.is_big) (value_ends_lt hr) k

theorem offsets_get_unchecked (hr : r.Wf) {k : Nat} (hk : k < r.columns.length) :
    r.slice.offsets.get_unchecked k = (r.values.take (k + 1)).flatten.length := by
  have hk' : k < (value_ends 0 r.values).length := by
    rwa [length_value_ends, Row.values, List.length_map]
  have hval := getElem?_value_ends 0 r.values k
  rw [List.getElem?_eq_getElem hk', if_pos (by rwa [Row.values, List.length_map]),
    Nat.zero_add] at hval
  exact (LeBytes.get_unchecked_flatMap (value_ends_lt hr) hk').trans (Option.some.inj hval)

theorem search_in_non_null_ids_of_getElem (hr : r.Wf) {k : Nat} (hk : k < r.columns.length)
    {c : Int} (hc : c = r.columns[k].1) :
    r.slice.search_in_non_null_ids c =
      .ok (some ((r.values.take k).flatten.length, (r.values.take (k + 1)).flatten.length)) := by
  have hmem : r.columns[k].1 ∈ r.columns.map Prod.fst := List.mem_map_of_mem (List.getElem_mem hk)
  have hpos := (hr.ids_pos _ (List.mem_append_left _ hmem)).1
  have hvalid : r.slice.id_valid c = true := by
    rw [id_valid_iff, hc, Int.toNat_natCast]
    exact ⟨by omega, ids_lt hr _ hmem⟩
  have hkey : r.slice.id_key c = r.columns[k].1 := by
    rw [id_key_of_valid hvalid, hc, Int.toNat_natCast]
  have hend : r.slice.offsets.get k = some (r.values.take (k + 1)).flatten.length := by
    rw [offsets_get hr, getElem?_value_ends, if_pos (by rwa [Row.values, List.length_map]),
      Nat.zero_add]
  unfold RowSlice.search_in_non_null_ids
  rw [hvalid, Bool.not_true, if_neg Bool.false_ne_true, hkey, binary_search_non_null_ids hr hk]
  simp only [hend]
  -- the start is the previous end, or zero for the first column
  rcases Nat.eq_zero_or_pos k with rfl | hk0
  · simp
  · rw [if_pos hk0, offsets_get_unchecked hr (by omega), Nat.sub_add_cancel hk0]

theorem search_in_non_null_ids_of_not_mem (hr : r.Wf) {c : Int}
    (hc : ¬(0 < c ∧ c.toNat ∈ r.columns.map Prod.fst)) :
    r.slice.search_in_non_null_ids c = .ok none := by
  unfold RowSlice.search_in_non_null_ids
  cases hvalid : r.slice.id_valid c with
  | false => rfl
  | true =>
    have hpos := ((id_valid_iff _ c).mp hvalid).1
    obtain ⟨i, hi⟩ := binary_search_non_null_ids_of_not_mem hr (fun h => hc ⟨hpos, h⟩)
    rw [Bool.not_true, if_neg Bool.false_ne_true, id_key_of_valid hvalid, hi]

theorem get_slice (hr : r.Wf) (c : Int) :
    r.slice.get c = .ok (if 0 < c then r.columns.lookup c.toNat else none) := by
  have hnodup : (Tikv.Lib.AssocList.keys r.columns).Nodup := hr.ids_sorted.nodup
  by_cases hc : 0 < c ∧ c.toNat ∈ r.columns.map Prod.fst
  · obtain ⟨k, hk', hkc⟩ := List.getElem_of_mem hc.2
    have hk : k < r.columns.length := by rwa [List.length_map] at hk'
    rw [List.getElem_map] at hkc
    have hck : c = r.columns[k].1 := by omega
    have hkv : k < r.values.length := by rwa [Row.values, List.length_map]
    have hval : r.values[k] = r.columns[k].2 := by
      simp [Row.values]
    have hlookup : r.columns.lookup c.toNat = some r.columns[k].2 := by
      rw [← Tikv.Lib.AssocList.mem_iff_lookup hnodup, ← hkc]
      exact List.getElem_mem hk
    unfold RowSlice.get
    rw [search_in_non_null_ids_of_getElem hr hk hck, if_pos hc.1, hlookup]
    dsimp only
    have hslice := @flatten_slice _ r.values k hkv
    have hsucc := @flatten_take_succ _ r.values k hkv
    have hle := length_flatten_take_le r.values (k + 1)
    rw [if_pos ⟨by rw [hsucc, List.length_append]; omega, hle⟩]
    simp only [Row.slice]
    rw [hslice, hval]
  · unfold RowSlice.get
    rw [search_in_non_null_ids_of_not_mem hr hc]
    dsimp only
    split
    · rename_i hpos
      have hkey : c.toNat ∉ Tikv.Lib.AssocList.keys r.columns := fun h => hc ⟨hpos, h⟩
      rw [Tikv.Lib.AssocList.lookup_eq_none_iff_not_mem_keys.mpr hkey]
    · rfl

theorem search_in_null_ids_slice (hr : r.Wf) (c : Int) :
    r.slice.search_in_null_ids c = decide (0 < c ∧ c.toNat ∈ r.null_ids) := by
  unfold RowSlice.search_in_null_ids
  cases hvalid : r.slice.id_valid c with
  | false =>
    -- an id out of range is not a null id, whose ids are all in range
    have hout : ¬(0 < c ∧ c.toNat ∈ r.null_ids) := fun ⟨hpos, hmem⟩ => by
      have := (id_valid_iff r.slice c).mpr ⟨hpos, null_ids_lt hr _ hmem⟩
      rw [hvalid] at this
      exact Bool.false_ne_true this
    simp [hout]
  | true =>
    have hpos := ((id_valid_iff _ c).mp hvalid).1
    have hisOk := binary_search_null_ids_isOk hr c.toNat
    rw [Bool.not_true, if_neg Bool.false_ne_true, id_key_of_valid hvalid]
    cases h : r.slice.null_ids.binary_search c.toNat <;>
      simp_all [Except.isOk, Except.toBool]

/-- Reading an encoded row: the bytes parse back into the row's slices, \x60get\x60 finds the
value of exactly the non-null columns, \x60search_in_null_ids\x60 exactly the null ones, and the
capped binary search over a sorted array of at most 65535 numbers is a full binary search. -/
theorem row_v2_lookup :
    (∀ r : Row, r.Wf → ∃ row, RowSlice.from_bytes r.encode = .ok row ∧
      (∀ c : Int, row.get c = .ok (if 0 < c then r.columns.lookup c.toNat else none)) ∧
      (∀ c : Int, row.search_in_null_ids c = decide (0 < c ∧ c.toNat ∈ r.null_ids))) ∧
    (∀ (size : Nat) (a : List Nat) (v : Nat), 0 < size → (∀ x ∈ a, x < 256 ^ size) →
      a.Pairwise (· ≤ ·) → a.length ≤ 65535 →
      (∀ i, (⟨a.flatMap (to_le_bytes size)⟩ : LeBytes size).binary_search v = .ok i →
        a[i]? = some v) ∧
      (v ∈ a → ∃ i, (⟨a.flatMap (to_le_bytes size)⟩ : LeBytes size).binary_search v = .ok i) ∧
      (∀ i, (⟨a.flatMap (to_le_bytes size)⟩ : LeBytes size).binary_search v = .error i →
        i ≤ a.length ∧ ∀ j x, a[j]? = some x → (j < i ↔ x < v))) := by
  refine ⟨fun r hr => ⟨r.slice, from_bytes_encode hr, get_slice hr, search_in_null_ids_slice hr⟩,
    fun size a v hsize ha hsorted hlen => ?_⟩
  exact LeBytes.binary_search_flatMap hsize ha hsorted hlen v

example : (RowSlice.from_bytes [128, 0, 2, 0, 1, 0, 1, 3, 33, 2, 0, 3, 0, 232, 3, 3]).bind
    (fun row => row.search_in_non_null_ids 3) = .ok (some (2, 3)) := by decide

end Lookup

end Tikv.TidbQuery.RowV2
