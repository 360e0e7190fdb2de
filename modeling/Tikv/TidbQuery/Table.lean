import Tikv.Codec.Number

/-!
The table key layout of tidb_query_datatype (components/tidb_query_datatype/src/codec/table.rs).
A key of a table is \x60t\x60, the table id as a memory-comparable \x60i64\x60, and a two-byte
separator: \x60_r\x60 before a row handle, \x60_i\x60 before an index id and the index's encoded
values. The \x60i64\x60s are written by the codec crate (components/codec/src/number.rs and
convert.rs) as the big-endian bytes of the \x60u64\x60 with the sign bit flipped, so that byte
order is signed order.

The decoders read the slice from the front with \x60BufferReader::read_bytes\x60 and
\x60NumberDecoder::read_i64\x60, both of which fail on a short slice; a codec error is turned into
the crate's \x60Error::Other\x60 by \x60box_err!\x60. The keys that an \x60InvalidDataType\x60 message
formats with \x60log_wrappers::Value::key\x60 are kept as bytes beside its template.
-/

namespace Tikv.TidbQuery.Table

open Tikv.Lib.ByteOrder Tikv.Lib.Lex Tikv.Codec

inductive Error
  | InvalidDataType (msg : String) (keys : List (List UInt8))
  | Other (msg : String)
  deriving DecidableEq, Repr

def Error.codec_eof : Error :=
  .Other "Codec: Io error: Unexpected EOF"

def ID_LEN : Nat := 8
def SEP_LEN : Nat := 2
def TABLE_PREFIX_LEN : Nat := 1
def PREFIX_LEN : Nat := TABLE_PREFIX_LEN + ID_LEN + SEP_LEN
def RECORD_ROW_KEY_LEN : Nat := PREFIX_LEN + ID_LEN
def TABLE_PREFIX_KEY_LEN : Nat := TABLE_PREFIX_LEN + ID_LEN

def TABLE_PREFIX : List UInt8 := [0x74]
def RECORD_PREFIX_SEP : List UInt8 := [0x5f, 0x72]
def INDEX_PREFIX_SEP : List UInt8 := [0x5f, 0x69]

section Number

def SIGN_MARK : UInt64 := (1 : UInt64) <<< 63

def encode_i64_to_comparable_u64 (v : Int64) : UInt64 :=
  v.toUInt64 ^^^ SIGN_MARK

def decode_comparable_u64_to_i64 (u : UInt64) : Int64 :=
  (u ^^^ SIGN_MARK).toInt64

def write_i64 (v : Int64) : List UInt8 :=
  encode_u64 (encode_i64_to_comparable_u64 v)

def read_bytes (buf : List UInt8) (count : Nat) : Except Error (List UInt8 × List UInt8) :=
  if buf.length < count then .error Error.codec_eof
  else .ok (buf.take count, buf.drop count)

def read_i64 (buf : List UInt8) : Except Error (Int64 × List UInt8) :=
  if buf.length < 8 then .error Error.codec_eof
  else .ok (decode_comparable_u64_to_i64 (read_u64_be buf), buf.drop 8)

@[simp]
theorem length_write_i64 (v : Int64) : (write_i64 v).length = 8 :=
  length_encode_u64 _

theorem toNat_sign_mark : SIGN_MARK.toNat = 2 ^ 63 := by
  decide

theorem toNat_encode_i64_to_comparable_u64 (v : Int64) :
    ((encode_i64_to_comparable_u64 v).toNat : Int) = v.toInt + 2 ^ 63 := by
  have hlt := v.toUInt64.toNat_lt
  rw [encode_i64_to_comparable_u64, UInt64.toNat_xor, toNat_sign_mark,
    xor_two_pow_of_lt (show v.toUInt64.toNat < 2 ^ (63 + 1) from hlt),
    ← Int64.toInt_toBitVec, BitVec.toInt_eq_toNat_cond, Int64.toNat_toBitVec]
  split <;> split <;> omega

theorem encode_i64_to_comparable_u64_lt_iff (a b : Int64) :
    (encode_i64_to_comparable_u64 a).toNat < (encode_i64_to_comparable_u64 b).toNat ↔ a < b := by
  have ha := toNat_encode_i64_to_comparable_u64 a
  have hb := toNat_encode_i64_to_comparable_u64 b
  rw [Int64.lt_iff_toInt_lt]
  omega

theorem decode_comparable_u64_to_i64_encode (v : Int64) :
    decode_comparable_u64_to_i64 (encode_i64_to_comparable_u64 v) = v := by
  rw [decode_comparable_u64_to_i64, encode_i64_to_comparable_u64, UInt64.xor_assoc,
    UInt64.xor_self, UInt64.xor_zero, Int64.toInt64_toUInt64]

theorem write_i64_diffLt {a b : Int64} (h : a < b) :
    DiffLt (· < ·) (write_i64 a) (write_i64 b) := by
  apply to_be_bytes_diffLt ((encode_i64_to_comparable_u64_lt_iff a b).mpr h)
  exact (encode_i64_to_comparable_u64 b).toNat_lt

theorem read_bytes_append (a b : List UInt8) : read_bytes (a ++ b) a.length = .ok (a, b) := by
  rw [read_bytes, if_neg (by simp), List.take_left, List.drop_left]

theorem read_i64_write_i64 (v : Int64) (s : List UInt8) :
    read_i64 (write_i64 v ++ s) = .ok (v, s) := by
  rw [read_i64, if_neg (by simp), write_i64, read_u64_be_encode_u64,
    decode_comparable_u64_to_i64_encode, List.drop_left' (length_encode_u64 _)]

end Number

section Keys

def append_table_record_prefix (buf : List UInt8) (table_id : Int64) : List UInt8 :=
  buf ++ TABLE_PREFIX ++ write_i64 table_id ++ RECORD_PREFIX_SEP

def append_table_index_prefix (buf : List UInt8) (table_id : Int64) : List UInt8 :=
  buf ++ TABLE_PREFIX ++ write_i64 table_id ++ INDEX_PREFIX_SEP

def extract_table_prefix (key : List UInt8) : Except Error (List UInt8) :=
  if !TABLE_PREFIX.isPrefixOf key || key.length < TABLE_PREFIX_KEY_LEN then
    .error (.InvalidDataType "record key or index key expected, but got \x7b:?\x7d" [key])
  else .ok (key.take TABLE_PREFIX_KEY_LEN)

def check_key_type (key wanted_type : List UInt8) : Except Error Unit := do
  let (p, buf) ← read_bytes key TABLE_PREFIX_LEN
  if p != TABLE_PREFIX then
    throw (.InvalidDataType "record or index key expected, but got \x7b\x7d" [key])
  let (_, buf) ← read_bytes buf ID_LEN
  let (sep, _) ← read_bytes buf SEP_LEN
  if sep != wanted_type then
    throw (.InvalidDataType "expected key sep type \x7b\x7d, but got key \x7b\x7d)" [wanted_type, key])
  else pure ()

def check_record_key (key : List UInt8) : Except Error Unit :=
  check_key_type key RECORD_PREFIX_SEP

def check_index_key (key : List UInt8) : Except Error Unit :=
  check_key_type key INDEX_PREFIX_SEP

def decode_table_id (key : List UInt8) : Except Error Int64 := do
  let (p, buf) ← read_bytes key TABLE_PREFIX_LEN
  if p != TABLE_PREFIX then
    throw (.InvalidDataType "record key expected, but got \x7b\x7d" [key])
  let (v, _) ← read_i64 buf
  pure v

def encode_row_key (table_id handle : Int64) : List UInt8 :=
  append_table_record_prefix [] table_id ++ write_i64 handle

def encode_common_handle (table_id : Int64) (handle : List UInt8) : List UInt8 :=
  append_table_record_prefix [] table_id ++ handle

def encode_column_key (table_id handle column_id : Int64) : List UInt8 :=
  append_table_record_prefix [] table_id ++ write_i64 handle ++ write_i64 column_id

def decode_int_handle (key : List UInt8) : Except Error Int64 := do
  check_record_key key
  let (v, _) ← read_i64 (key.drop PREFIX_LEN)
  pure v

def decode_common_handle (key : List UInt8) : Except Error (List UInt8) := do
  check_record_key key
  pure (key.drop PREFIX_LEN)

def encode_index_seek_key (table_id idx_id : Int64) (encoded : List UInt8) : List UInt8 :=
  append_table_index_prefix [] table_id ++ write_i64 idx_id ++ encoded

def IsTableKey (t : Int64) (key : List UInt8) : Prop :=
  TABLE_PREFIX ++ write_i64 t <+: key

instance (t : Int64) (key : List UInt8) : Decidable (IsTableKey t key) :=
  inferInstanceAs (Decidable (_ <+: _))

theorem append_table_record_prefix_nil (t : Int64) :
    append_table_record_prefix [] t = TABLE_PREFIX ++ (write_i64 t ++ RECORD_PREFIX_SEP) := by
  simp [ append_table_record_prefix]

theorem append_table_index_prefix_nil (t : Int64) :
    append_table_index_prefix [] t = TABLE_PREFIX ++ (write_i64 t ++ INDEX_PREFIX_SEP) := by
  simp [ append_table_index_prefix]

@[simp]
theorem length_append_table_record_prefix_nil (t : Int64) :
    ( append_table_record_prefix [] t).length = PREFIX_LEN := by
  simp [append_table_record_prefix_nil, TABLE_PREFIX, RECORD_PREFIX_SEP, PREFIX_LEN,
    TABLE_PREFIX_LEN, ID_LEN, SEP_LEN]

theorem check_key_type_of_sep (t : Int64) (sep rest wanted : List UInt8)
    (hsep : sep.length = SEP_LEN) :
    check_key_type (TABLE_PREFIX ++ (write_i64 t ++ (sep ++ rest))) wanted =
      if sep != wanted then
        .error (.InvalidDataType "expected key sep type \x7b\x7d, but got key \x7b\x7d)"
          [wanted, TABLE_PREFIX ++ (write_i64 t ++ (sep ++ rest))])
      else .ok () := by
  have h1 := read_bytes_append TABLE_PREFIX (write_i64 t ++ (sep ++ rest))
  have h2 := read_bytes_append (write_i64 t) (sep ++ rest)
  have h3 := read_bytes_append sep rest
  rw [show TABLE_PREFIX.length = TABLE_PREFIX_LEN from rfl] at h1
  rw [length_write_i64, show (8 : Nat) = ID_LEN from rfl] at h2
  rw [hsep] at h3
  simp only [check_key_type, h1, h2, h3, bind, Except.bind, bne_self_eq_false, Bool.false_eq_true,
    if_false]
  split <;> rfl

theorem check_key_type_row_key (t : Int64) (rest wanted : List UInt8) :
    check_key_type ( append_table_record_prefix [] t ++ rest) wanted =
      if RECORD_PREFIX_SEP != wanted then
        .error (.InvalidDataType "expected key sep type \x7b\x7d, but got key \x7b\x7d)"
          [wanted, append_table_record_prefix [] t ++ rest])
      else .ok () := by
  rw [append_table_record_prefix_nil, List.append_assoc, List.append_assoc]
  exact check_key_type_of_sep t _ rest wanted rfl

theorem check_key_type_index_key (t : Int64) (rest wanted : List UInt8) :
    check_key_type ( append_table_index_prefix [] t ++ rest) wanted =
      if INDEX_PREFIX_SEP != wanted then
        .error (.InvalidDataType "expected key sep type \x7b\x7d, but got key \x7b\x7d)"
          [wanted, append_table_index_prefix [] t ++ rest])
      else .ok () := by
  rw [append_table_index_prefix_nil, List.append_assoc, List.append_assoc]
  exact check_key_type_of_sep t _ rest wanted rfl

theorem decode_table_id_of_table_key {t : Int64} {key : List UInt8} (hk : IsTableKey t key) :
    decode_table_id key = .ok t := by
  obtain ⟨rest, rfl⟩ := hk
  have h1 := read_bytes_append TABLE_PREFIX (write_i64 t ++ rest)
  rw [show TABLE_PREFIX.length = TABLE_PREFIX_LEN from rfl] at h1
  simp only [decode_table_id, List.append_assoc, h1, bind, Except.bind, bne_self_eq_false,
    Bool.false_eq_true, if_false, read_i64_write_i64]
  rfl

theorem isTableKey_record (t : Int64) (rest : List UInt8) :
    IsTableKey t ( append_table_record_prefix [] t ++ rest) :=
  ⟨RECORD_PREFIX_SEP ++ rest, by simp [ append_table_record_prefix]⟩

theorem isTableKey_index (t : Int64) (rest : List UInt8) :
    IsTableKey t ( append_table_index_prefix [] t ++ rest) :=
  ⟨INDEX_PREFIX_SEP ++ rest, by simp [ append_table_index_prefix]⟩

theorem diffLt_of_table_lt {t t' : Int64} {k k' : List UInt8} (h : t < t')
    (hk : IsTableKey t k) (hk' : IsTableKey t' k') : DiffLt (· < ·) k k' := by
  obtain ⟨r, rfl⟩ := hk
  obtain ⟨r', rfl⟩ := hk'
  exact ((write_i64_diffLt h).append_left TABLE_PREFIX).append r r'

theorem diffLt_sep : DiffLt (· < ·) INDEX_PREFIX_SEP RECORD_PREFIX_SEP :=
  DiffLt.cons _ (DiffLt.head _ _ (by decide))

theorem encode_row_key_diffLt {t h t' h' : Int64} (hlt : t < t' ∨ t = t' ∧ h < h') :
    DiffLt (· < ·) (encode_row_key t h) (encode_row_key t' h') := by
  rcases hlt with ht | ⟨rfl, hh⟩
  · exact diffLt_of_table_lt ht (isTableKey_record t _)
      (isTableKey_record t' _)
  · exact (write_i64_diffLt hh).append_left _

theorem check_record_key_accepts_record (t : Int64) (rest : List UInt8) :
    check_record_key ( append_table_record_prefix [] t ++ rest) = .ok () := by
  rw [check_record_key, check_key_type_row_key, if_neg (by simp)]

theorem check_index_key_rejects_record (t : Int64) (rest : List UInt8) :
    check_index_key ( append_table_record_prefix [] t ++ rest) =
      .error (.InvalidDataType "expected key sep type \x7b\x7d, but got key \x7b\x7d)"
        [INDEX_PREFIX_SEP, append_table_record_prefix [] t ++ rest]) := by
  rw [check_index_key, check_key_type_row_key, if_pos (by decide)]

theorem check_index_key_accepts_index (t : Int64) (rest : List UInt8) :
    check_index_key ( append_table_index_prefix [] t ++ rest) = .ok () := by
  rw [check_index_key, check_key_type_index_key, if_neg (by simp)]

theorem check_record_key_rejects_index (t : Int64) (rest : List UInt8) :
    check_record_key ( append_table_index_prefix [] t ++ rest) =
      .error (.InvalidDataType "expected key sep type \x7b\x7d, but got key \x7b\x7d)"
        [RECORD_PREFIX_SEP, append_table_index_prefix [] t ++ rest]) := by
  rw [check_record_key, check_key_type_index_key, if_pos (by decide)]

theorem decode_common_handle_record (t : Int64) (rest : List UInt8) :
    decode_common_handle ( append_table_record_prefix [] t ++ rest) = .ok rest := by
  simp only [decode_common_handle, check_record_key_accepts_record, bind, Except.bind, pure,
    Except.pure, List.drop_left' (length_append_table_record_prefix_nil t)]

theorem decode_int_handle_record (t h : Int64) (rest : List UInt8) :
    decode_int_handle ( append_table_record_prefix [] t ++ (write_i64 h ++ rest)) = .ok h := by
  simp only [decode_int_handle, check_record_key_accepts_record, bind, Except.bind,
    List.drop_left' (length_append_table_record_prefix_nil t), read_i64_write_i64]
  rfl

theorem index_key_lt_record_key (t : Int64) (x y : List UInt8) :
    append_table_index_prefix [] t ++ x < append_table_record_prefix [] t ++ y := by
  have h := (diffLt_sep.append x y).append_left (TABLE_PREFIX ++ write_i64 t)
  rw [append_table_index_prefix_nil, append_table_record_prefix_nil]
  simp only [List.append_assoc] at h ⊢
  exact h.lt

theorem encode_row_key_lt_iff (t h t' h' : Int64) :
    encode_row_key t h < encode_row_key t' h' ↔ t < t' ∨ t = t' ∧ h < h' := by
  constructor
  · intro hlt
    by_contra hn
    -- otherwise the second key is below the first, or the two are the same key
    rcases Std.lt_trichotomy t t' with ht | rfl | ht
    · exact hn (Or.inl ht)
    · rcases Std.lt_trichotomy h h' with hh | rfl | hh
      · exact hn (Or.inr ⟨rfl, hh⟩)
      · exact List.lt_irrefl _ hlt
      · exact (encode_row_key_diffLt (Or.inr ⟨rfl, hh⟩)).not_lt hlt
    · exact (encode_row_key_diffLt (Or.inl ht)).not_lt hlt
  · intro hlt
    exact (encode_row_key_diffLt hlt).lt

example : encode_row_key (-1) 1 =
    [0x74, 0x7f, 0xff, 0xff, 0xff, 0xff, 0xff, 0xff, 0xff, 0x5f, 0x72,
      0x80, 0, 0, 0, 0, 0, 0, 1] := by
  rfl

end Keys

/-- The table key layout: row keys sort by signed table id and then signed handle and decode
back to both; each key check accepts its own kind of key and rejects the other, naming the
separator it wanted; the keys of a table, whatever follows its prefix, sort between those of
smaller and larger tables, with its index keys before its record keys; and a common handle
comes back as it was written. -/
theorem table_key_layout :
    (∀ t h t' h' : Int64,
      encode_row_key t h < encode_row_key t' h' ↔ t < t' ∨ t = t' ∧ h < h') ∧
    (∀ t h : Int64,
      decode_table_id (encode_row_key t h) = .ok t ∧
      decode_int_handle (encode_row_key t h) = .ok h) ∧
    (∀ (t h : Int64) (hd : List UInt8),
      check_record_key (encode_row_key t h) = .ok () ∧
      check_record_key (encode_common_handle t hd) = .ok () ∧
      check_index_key (encode_row_key t h) =
        .error (.InvalidDataType "expected key sep type \x7b\x7d, but got key \x7b\x7d)"
          [INDEX_PREFIX_SEP, encode_row_key t h])) ∧
    (∀ (t idx : Int64) (encoded : List UInt8),
      check_index_key (encode_index_seek_key t idx encoded) = .ok () ∧
      check_record_key (encode_index_seek_key t idx encoded) =
        .error (.InvalidDataType "expected key sep type \x7b\x7d, but got key \x7b\x7d)"
          [RECORD_PREFIX_SEP, encode_index_seek_key t idx encoded])) ∧
    (∀ (t h idx : Int64) (encoded hd : List UInt8),
      IsTableKey t (encode_row_key t h) ∧ IsTableKey t (encode_common_handle t hd) ∧
      IsTableKey t (encode_index_seek_key t idx encoded)) ∧
    (∀ (t t' : Int64) (k k' : List UInt8), IsTableKey t k → IsTableKey t' k' →
      (t' < t → k' < k) ∧ (t < t' → k < k')) ∧
    (∀ (t h idx : Int64) (encoded hd : List UInt8),
      encode_index_seek_key t idx encoded < encode_row_key t h ∧
      encode_index_seek_key t idx encoded < encode_common_handle t hd) ∧
    (∀ (t : Int64) (hd : List UInt8), decode_common_handle (encode_common_handle t hd) = .ok hd) := by
  refine ⟨encode_row_key_lt_iff, fun t h => ⟨?_, ?_⟩, fun t h hd => ⟨?_, ?_, ?_⟩,
    fun t idx encoded => ⟨?_, ?_⟩, fun t h idx encoded hd => ⟨?_, ?_, ?_⟩,
    fun t t' k k' hk hk' => ⟨?_, ?_⟩, fun t h idx encoded hd => ⟨?_, ?_⟩,
    decode_common_handle_record⟩
  -- the decoders on a row key
  · exact decode_table_id_of_table_key (isTableKey_record t _)
  · rw [encode_row_key, ← List.append_nil (write_i64 h)]
    exact decode_int_handle_record t h []
  -- the key checks on record keys, then on index keys
  · exact check_record_key_accepts_record t _
  · exact check_record_key_accepts_record t hd
  · exact check_index_key_rejects_record t _
  · rw [encode_index_seek_key, List.append_assoc]
    exact check_index_key_accepts_index t _
  · rw [encode_index_seek_key, List.append_assoc]
    exact check_record_key_rejects_index t _
  -- every encoder writes a key of its table
  · exact isTableKey_record t _
  · exact isTableKey_record t hd
  · rw [encode_index_seek_key, List.append_assoc]
    exact isTableKey_index t _
  -- the order between tables, then inside one
  · exact fun ht => (diffLt_of_table_lt ht hk' hk).lt
  · exact fun ht => (diffLt_of_table_lt ht hk hk').lt
  · rw [encode_index_seek_key, List.append_assoc]
    exact index_key_lt_record_key t _ _
  · rw [encode_index_seek_key, List.append_assoc]
    exact index_key_lt_record_key t _ _

end Tikv.TidbQuery.Table
