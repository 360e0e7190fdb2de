import Tikv.Codec.Bytes

/-!
The storage key of components/txn_types/src/types.rs: the memcomparable encoding of the raw
key, and for a versioned key the timestamp after it as the eight big-endian bytes of its
complement, so that versions of one key sort newest first. Keys are compared as their
encoded bytes (the derived `Ord` of `Key(Vec<u8>)`).

A timestamp here is the `u64` of `TimeStamp::into_inner`. `NativeEndian::read_u64` is read
as little-endian, the order of the targets TiKV is built for; `is_user_key_eq` only needs it
to be injective on eight bytes.
-/

namespace Tikv.Codec

open Tikv.Lib.Lex Tikv.Lib.ByteOrder

structure Key where
  encoded : List UInt8
  deriving DecidableEq, Repr

def Key.from_raw (key : List UInt8) : Key :=
  ⟨BytesEncoder.encode_bytes [] key false⟩

def Key.as_encoded (k : Key) : List UInt8 :=
  k.encoded

def Key.append_ts (k : Key) (ts : UInt64) : Key :=
  ⟨k.encoded ++ encode_u64_desc ts⟩

def Key.to_raw (k : Key) : Except Error (List UInt8) :=
  (decode_bytes k.encoded false).map Prod.fst

def Key.is_encoded_from (k : Key) (raw_key : List UInt8) : Bool :=
  Tikv.Codec.is_encoded_from k.encoded raw_key false

def Key.truncate_ts (k : Key) : Except Error Key :=
  let len := k.encoded.length
  if len < U64_SIZE then .error .KeyLength
  else .ok ⟨k.encoded.take (len - U64_SIZE)⟩

def Key.split_on_ts_for (key : List UInt8) : Except Error (List UInt8 × UInt64) :=
  if key.length < U64_SIZE then .error .KeyLength
  else
    let pos := key.length - U64_SIZE
    let k := key.take pos
    let ts := key.drop pos
    do
      let (v, _) ← decode_u64_desc ts
      pure (k, v)

def Key.truncate_ts_for (key : List UInt8) : Except Error (List UInt8) :=
  let len := key.length
  if len < U64_SIZE then .error .KeyLength
  else .ok (key.take (key.length - U64_SIZE))

def Key.decode_ts_from (key : List UInt8) : Except Error UInt64 :=
  let len := key.length
  if len < U64_SIZE then .error .KeyLength
  else do
    let (v, _) ← decode_u64_desc (key.drop (len - U64_SIZE))
    pure v

def read_u64_native (buf : List UInt8) : UInt64 :=
  UInt64.ofNat (from_le (buf.take 8))

def Key.is_user_key_eq (ts_encoded_key user_key : List UInt8) : Bool :=
  let user_key_len := user_key.length
  if ts_encoded_key.length ≠ user_key_len + U64_SIZE then false
  else if user_key_len ≥ U64_SIZE then
    -- the last eight bytes of the user key first, as one u64, then the rest
    let left := read_u64_native (ts_encoded_key.drop (user_key_len - 8))
    let right := read_u64_native (user_key.drop (user_key_len - 8))
    if left ≠ right then false
    else ts_encoded_key.take (user_key_len - 8) == user_key.take (user_key_len - 8)
  else ts_encoded_key.take user_key_len == user_key

theorem Key.from_raw_encoded (key : List UInt8) : (Key.from_raw key).encoded = group_encode key :=
  encode_order_bytes_eq key false

theorem read_u64_native_inj {l l' : List UInt8} (hl : l.length = 8) (hl' : l'.length = 8) :
    read_u64_native l = read_u64_native l' ↔ l = l' := by
  constructor
  · intro h
    have hb := from_le_lt l
    have hb' := from_le_lt l'
    rw [hl] at hb
    rw [hl'] at hb'
    simp only [read_u64_native, List.take_of_length_le (show l.length ≤ 8 by omega),
      List.take_of_length_le (show l'.length ≤ 8 by omega)] at h
    have h' := congrArg UInt64.toNat h
    rw [UInt64.toNat_ofNat', UInt64.toNat_ofNat', Nat.mod_eq_of_lt (show from_le l < 2 ^ 64 from hb),
      Nat.mod_eq_of_lt (show from_le l' < 2 ^ 64 from hb')] at h'
    exact from_le_inj (by rw [hl, hl']) h'
  · rintro rfl
    rfl

theorem truncate_ts_for_eq {key : List UInt8} (h : U64_SIZE ≤ key.length) :
    Key.truncate_ts_for key = .ok (key.take (key.length - U64_SIZE)) := by
  rw [Key.truncate_ts_for, if_neg (by omega)]

theorem take_eq_iff_halves {t u : List UInt8} {n : Nat} (h8 : 8 ≤ n) :
    t.take n = u ↔ (t.drop (n - 8)).take 8 = u.drop (n - 8) ∧ t.take (n - 8) = u.take (n - 8) := by
  have hsplit : ∀ l : List UInt8, l.take n = l.take (n - 8) ++ (l.drop (n - 8)).take 8 := by
    intro l
    rw [← List.take_add, Nat.sub_add_cancel h8]
  have hu' : u = u.take (n - 8) ++ u.drop (n - 8) := (List.take_append_drop _ _).symm
  constructor
  · intro h
    rw [← h, List.take_take, Nat.min_eq_left (by omega), List.drop_take]
    constructor
    · congr 1
      omega
    · rfl
  · rintro ⟨hlast, hfirst⟩
    rw [hsplit, hlast, hfirst, List.take_append_drop]

theorem is_user_key_eq_iff (ts_key user_key : List UInt8) :
    Key.is_user_key_eq ts_key user_key = true ↔
      ts_key.length = user_key.length + 8 ∧ Key.truncate_ts_for ts_key = .ok user_key := by
  by_cases hlen : ts_key.length = user_key.length + U64_SIZE
  · have hlen8 : ts_key.length = user_key.length + 8 := hlen
    rw [truncate_ts_for_eq (by omega), show ts_key.length - U64_SIZE = user_key.length by omega]
    simp only [Key.is_user_key_eq]
    rw [if_neg (not_not_intro hlen)]
    simp only [hlen8, true_and, Except.ok.injEq]
    by_cases h8 : user_key.length ≥ U64_SIZE
    · have hl : ((ts_key.drop (user_key.length - 8)).take 8).length = 8 := by
        simp only [U64_SIZE] at h8
        simp
        omega
      have hl' : (user_key.drop (user_key.length - 8)).length = 8 := by
        simp only [U64_SIZE] at h8
        simp
        omega
      have hread : read_u64_native (ts_key.drop (user_key.length - 8)) =
          read_u64_native ((ts_key.drop (user_key.length - 8)).take 8) := by
        simp [read_u64_native, List.take_take]
      rw [if_pos h8, take_eq_iff_halves h8, hread]
      by_cases hw : read_u64_native ((ts_key.drop (user_key.length - 8)).take 8) =
          read_u64_native (user_key.drop (user_key.length - 8))
      · rw [if_neg (not_not_intro hw), (read_u64_native_inj hl hl').mp hw]
        simp
      · rw [if_pos hw]
        simp [← read_u64_native_inj hl hl', hw]
    · rw [if_neg h8]
      simp
  · have hlen8 : ¬ ts_key.length = user_key.length + 8 := hlen
    simp only [Key.is_user_key_eq]
    rw [if_pos hlen]
    simp only [Bool.false_eq_true, hlen8, false_and]

theorem decode_u64_desc_encode (t : UInt64) : decode_u64_desc (encode_u64_desc t) = .ok (t, []) := by
  simpa using decode_u64_desc_encode_u64_desc t []

theorem length_sub_ts (p : List UInt8) (t : UInt64) :
    (p ++ encode_u64_desc t).length - U64_SIZE = p.length := by
  simp [U64_SIZE]

theorem not_length_lt_ts (p : List UInt8) (t : UInt64) :
    ¬ (p ++ encode_u64_desc t).length < U64_SIZE := by
  simp [U64_SIZE]

theorem split_on_ts_for_append (p : List UInt8) (t : UInt64) :
    Key.split_on_ts_for (p ++ encode_u64_desc t) = .ok (p, t) := by
  rw [Key.split_on_ts_for, if_neg (not_length_lt_ts p t)]
  simp only [length_sub_ts, List.take_left, List.drop_left, decode_u64_desc_encode, bind,
    Except.bind, pure, Except.pure]

theorem decode_ts_from_append (p : List UInt8) (t : UInt64) :
    Key.decode_ts_from (p ++ encode_u64_desc t) = .ok t := by
  rw [Key.decode_ts_from, if_neg (not_length_lt_ts p t)]
  simp only [length_sub_ts, List.drop_left, decode_u64_desc_encode, bind, Except.bind, pure,
    Except.pure]

theorem Key.truncate_ts_append_ts (k : Key) (t : UInt64) : (k.append_ts t).truncate_ts = .ok k := by
  rw [Key.truncate_ts, Key.append_ts, if_neg (not_length_lt_ts k.encoded t)]
  simp only [length_sub_ts, List.take_left]

theorem Key.to_raw_from_raw (k : List UInt8) : (Key.from_raw k).to_raw = .ok k := by
  have h := @decode_bytes_loop_group_encode false k (group_encode k) 0 [] []
    (by rw [List.drop_zero, List.append_nil]; rfl)
  rw [adjust_nil, List.nil_append] at h
  rw [Key.to_raw, Key.from_raw_encoded, decode_bytes, h]
  rfl

theorem ts_key_round_trip :
    (∀ (k : List UInt8) (t : UInt64),
      Key.split_on_ts_for ((Key.from_raw k).append_ts t).as_encoded =
          .ok ((Key.from_raw k).as_encoded, t) ∧
        Key.decode_ts_from ((Key.from_raw k).append_ts t).as_encoded = .ok t ∧
        ((Key.from_raw k).append_ts t).truncate_ts = .ok (Key.from_raw k) ∧
        (((Key.from_raw k).append_ts t).truncate_ts >>= Key.to_raw) = .ok k) ∧
    (∀ ts_key user_key : List UInt8,
      Key.is_user_key_eq ts_key user_key = true ↔
        ts_key.length = user_key.length + 8 ∧ Key.truncate_ts_for ts_key = .ok user_key) := by
  refine ⟨fun k t => ⟨?_, ?_, ?_, ?_⟩, is_user_key_eq_iff⟩
  · exact split_on_ts_for_append (Key.from_raw k).encoded t
  · exact decode_ts_from_append (Key.from_raw k).encoded t
  · exact Key.truncate_ts_append_ts (Key.from_raw k) t
  · rw [Key.truncate_ts_append_ts]
    exact Key.to_raw_from_raw k

theorem append_ts_encoded (k : List UInt8) (t : UInt64) :
    ((Key.from_raw k).append_ts t).as_encoded = group_encode k ++ encode_u64_desc t := by
  rw [Key.as_encoded, Key.append_ts, Key.from_raw_encoded]

theorem mvcc_key_order :
    (∀ (a b : List UInt8) (t₁ t₂ : UInt64),
      ((Key.from_raw a).append_ts t₁).as_encoded < ((Key.from_raw b).append_ts t₂).as_encoded ↔
        a < b ∨ (a = b ∧ t₂ < t₁)) ∧
    (∀ a b s t : List UInt8, a < b → encode_bytes a ++ s < encode_bytes b ++ t) ∧
    (∀ a b s t : List UInt8, a < b → encode_bytes_desc b ++ s < encode_bytes_desc a ++ t) := by
  refine ⟨fun a b t₁ t₂ => ?_, fun a b s t h => ?_, fun a b s t h => ?_⟩
  · rw [append_ts_encoded, append_ts_encoded]
    constructor
    · intro hlt
      rcases lt_trichotomy a b with hab | rfl | hba
      · exact Or.inl hab
      · -- one raw key: the timestamps decide, the larger one first
        refine Or.inr ⟨rfl, ?_⟩
        rcases Nat.lt_trichotomy t₁.toNat t₂.toNat with h | h | h
        · have hd := (encode_u64_desc_diffLt (UInt64.lt_iff_toNat_lt.mpr h)).append_left
            (group_encode a)
          exact absurd hlt hd.not_lt
        · rw [UInt64.toNat_inj.mp h] at hlt
          exact absurd hlt (List.lt_irrefl _)
        · exact UInt64.lt_iff_toNat_lt.mpr h
      · exact absurd hlt ((group_encode_diffLt hba).append _ _).not_lt
    · rintro (hab | ⟨rfl, hts⟩)
      · exact ((group_encode_diffLt hab).append _ _).lt
      · exact ((encode_u64_desc_diffLt hts).append_left _).lt
  · rw [encode_bytes_eq, encode_bytes_eq]
    exact ((group_encode_diffLt h).append _ _).lt
  · rw [encode_bytes_desc_eq, encode_bytes_desc_eq]
    exact ((diffLt_flip (group_encode_diffLt h)).append _ _).lt

end Tikv.Codec
