import Tikv.Lib.Varint
import Tikv.Lib.Decoder
import Tikv.Codec.ByteCodec

/-!
The var u64 of components/tikv_util/src/codec/number.rs and of components/codec/src/number.rs,
and the compact bytes of components/tikv_util/src/codec/bytes.rs (a var i64 length, then the
bytes). tikv_util's `decode_var_u64` takes a first byte below 0x80 at once, reads by index when
the slice has ten bytes or ends inside one number, and scans the rest; the codec crate's
`try_decode_var_u64` has its own path for ten bytes and a pointer scan. All of them read by
index the groups the encoder wrote, which are those of `varint`.
-/

namespace Tikv.Codec

open Tikv.Lib.Varint Tikv.Lib.Decoder

def MAX_VAR_I64_LEN : Nat := 10

def MAX_VARINT64_LENGTH : Nat := 10

def encode_var_u64 (v : UInt64) : List UInt8 :=
  if v ≥ 0x80 then (v.toUInt8 ||| 0x80) :: encode_var_u64 (v >>> 7) else [v.toUInt8]
termination_by v.toNat
decreasing_by
  rw [UInt64.toNat_shiftRight, Nat.shiftRight_eq_div_pow, show (7 : UInt64).toNat % 64 = 7 from rfl]
  simp only [ge_iff_le, UInt64.le_iff_toNat_le, UInt64.reduceToNat] at *
  omega

def var_u64_loop (data : List UInt8) (n i : Nat) (res : UInt64) : UInt64 ⊕ (UInt64 × Nat) :=
  if i < n then
    let b := data.getD i 0
    let res := res ||| (b.toUInt64 &&& 0x7f) <<< (i * 7).toUInt64
    if b < 0x80 then .inr (res, i + 1) else var_u64_loop data n (i + 1) res
  else .inl res
termination_by n - i

def decode_var_u64_slow (data : List UInt8) : Except Error (UInt64 × List UInt8) :=
  match var_u64_loop data data.length 0 0 with
  | .inr (res, n) => .ok (res, data.drop n)
  | .inl _ => .error Error.unexpected_eof

def decode_var_u64 (data : List UInt8) : Except Error (UInt64 × List UInt8) :=
  match data with
  | [] => decode_var_u64_slow data
  | b :: rest =>
    if b < 0x80 then .ok (b.toUInt64 &&& 0x7f, rest)
    -- ten bytes, or a last byte that ends a number: the loop reads no byte past the slice
    else if data.length ≥ 10 ∨ data.getLastD 0 < 0x80 then
      match var_u64_loop data 9 0 0 with
      | .inr (res, n) => .ok (res, data.drop n)
      | .inl res =>
        let b := data.getD 9 0
        if b ≤ 1 then .ok (res ||| (b.toUInt64 &&& 0x7f) <<< (9 * 7 : Nat).toUInt64, data.drop 10)
        else .error (.Io .InvalidData "overflow")
    else decode_var_u64_slow data

def encode_var_i64 (v : Int64) : List UInt8 :=
  let vx := v.toUInt64 <<< 1
  encode_var_u64 (if v < 0 then ~~~vx else vx)

def decode_var_i64 (data : List UInt8) : Except Error (Int64 × List UInt8) := do
  let (v, rest) ← decode_var_u64 data
  let vx := v >>> 1
  if v &&& 1 = 0 then pure (vx.toInt64, rest) else pure ((~~~vx).toInt64, rest)

def encode_compact_bytes (data : List UInt8) : List UInt8 :=
  encode_var_i64 (Int64.ofNat data.length) ++ data

def decode_compact_bytes (data : List UInt8) : Except Error (List UInt8 × List UInt8) := do
  let (vn, data) ← decode_var_i64 data
  -- `vn as usize`
  let vn := vn.toUInt64.toNat
  if data.length ≥ vn then pure (data.take vn, data.drop vn) else .error Error.unexpected_eof

def NumberDecoder.read_u8 (b : List UInt8) : Except ErrorInner (UInt8 × List UInt8) :=
  match b with
  | x :: rest => .ok (x, rest)
  | [] => .error ErrorInner.eof

def try_decode_var_u64_slow (buf : List UInt8) (i : Nat) (val : UInt64) :
    Except ErrorInner (UInt64 × Nat) :=
  if i < buf.length ∧ 0x80 ≤ buf.getD i 0 then
    try_decode_var_u64_slow buf (i + 1) (val ||| ((buf.getD i 0) &&& 0x7f).toUInt64 <<< (i * 7).toUInt64)
  else if i = buf.length then .error ErrorInner.eof
  else .ok (val ||| (buf.getD i 0).toUInt64 <<< (i * 7).toUInt64, i + 1)
termination_by buf.length - i

def try_decode_var_u64 (buf : List UInt8) : Except ErrorInner (UInt64 × Nat) :=
  if buf.length ≥ MAX_VARINT64_LENGTH then
    match var_u64_loop buf 9 0 0 with
    | .inr r => .ok r
    | .inl val => .ok (val ||| ((buf.getD 9 0).toUInt64 &&& 0x01) <<< (63 : UInt64), 10)
  else try_decode_var_u64_slow buf 0 0

def NumberDecoder.read_var_u64 (b : List UInt8) : Except ErrorInner (UInt64 × List UInt8) := do
  let (v, decoded_bytes) ← try_decode_var_u64 b
  pure (v, b.drop decoded_bytes)

def try_decode_var_i64 (buf : List UInt8) : Except ErrorInner (Int64 × Nat) := do
  let (uv, decoded_bytes) ← try_decode_var_u64 buf
  let v := uv >>> 1
  if uv &&& 1 = 0 then pure (v.toInt64, decoded_bytes) else pure ((~~~v).toInt64, decoded_bytes)

/-- The scan of NumberCodec::get_first_encoded_var_int_len over bytes `i` to `n - 1`: the first
byte below 0x80 ends the number, and `none` is a scan that found none. -/
def first_var_int_len_loop (buf : List UInt8) (n i : Nat) : Option Nat :=
  if i < n then
    if buf.getD i 0 < 0x80 then some (i + 1) else first_var_int_len_loop buf n (i + 1)
  else none
termination_by n - i

def get_first_encoded_var_int_len (buf : List UInt8) : Nat :=
  if buf.length ≥ MAX_VARINT64_LENGTH then (first_var_int_len_loop buf 9 0).getD 10
  else (first_var_int_len_loop buf buf.length 0).getD buf.length

def CompactByteEncoder.write_compact_bytes (data : List UInt8) : List UInt8 :=
  encode_var_i64 (Int64.ofNat data.length) ++ data

/-- CompactByteCodec::get_first_encoded_len: the length read, plus the bytes it took, capped by
the buffer; `value as usize + decoded_n` is the wrapping sum of a 64-bit target. -/
def CompactByteCodec.get_first_encoded_len (encoded : List UInt8) : Nat :=
  match try_decode_var_i64 encoded with
  | .error _ => encoded.length
  | .ok (value, decoded_n) =>
    min (value.toUInt64 + UInt64.ofNat decoded_n).toNat encoded.length

section Encode

theorem or_high_bit {a : Nat} (h : a < 256) : a ||| 128 = a % 128 + 128 := by
  have hsplit : a = 128 * (a / 128) + a % 128 := (Nat.div_add_mod a 128).symm
  have hlow := Nat.two_pow_add_eq_or_of_lt (show a % 128 < 2 ^ 7 by omega) 1
  simp only [show (2 : Nat) ^ 7 = 128 from rfl, Nat.mul_one] at hlow
  rcases show a / 128 = 0 ∨ a / 128 = 1 by omega with h0 | h1
  · rw [hsplit, h0, Nat.mul_zero, Nat.zero_add, Nat.or_comm, ← hlow]
    omega
  · rw [hsplit, h1, Nat.mul_one, hlow, Nat.or_comm (128 ||| _) 128, ← Nat.or_assoc, Nat.or_self,
      ← hlow]
    omega

theorem encode_var_u64_eq (v : UInt64) : encode_var_u64 v = varint v.toNat := by
  rw [encode_var_u64]
  by_cases hv : 0x80 ≤ v
  · have hn : 128 ≤ v.toNat := by simpa [UInt64.le_iff_toNat_le] using hv
    have hbyte : v.toUInt8 ||| 0x80 = UInt8.ofNat (v.toNat % 128 + 128) := by
      apply UInt8.toNat_inj.mp
      rw [UInt8.toNat_or, UInt64.toNat_toUInt8, UInt8.toNat_ofNat']
      simp only [show (0x80 : UInt8).toNat = 128 from rfl]
      rw [or_high_bit (Nat.mod_lt _ (by omega))]
      omega
    have hshift : (v >>> 7).toNat = v.toNat / 128 := by
      rw [UInt64.toNat_shiftRight, Nat.shiftRight_eq_div_pow,
        show (7 : UInt64).toNat % 64 = 7 from rfl]
    rw [if_pos hv, varint_of_le hn, hbyte, encode_var_u64_eq (v >>> 7), hshift]
  · have hn : v.toNat < 128 := by simpa [UInt64.le_iff_toNat_le] using hv
    rw [if_neg hv, varint_of_lt hn]
    congr 1
termination_by v.toNat
decreasing_by
  rw [UInt64.toNat_shiftRight, Nat.shiftRight_eq_div_pow, show (7 : UInt64).toNat % 64 = 7 from rfl]
  omega

theorem length_encode_var_u64_le (v : UInt64) : (encode_var_u64 v).length ≤ MAX_VAR_U64_LEN := by
  rw [encode_var_u64_eq]
  exact length_varint_le (show 0 < MAX_VAR_U64_LEN by decide)
    (lt_of_lt_of_le v.toNat_lt (by decide))

end Encode

section Loop

theorem toNat_or_group {res : UInt64} {b : UInt8} {m i : Nat} (hm : m < 2 ^ 64) (hi : i ≤ 9)
    (hres : res.toNat = m % 128 ^ i) (hb : b.toNat % 128 = m / 128 ^ i % 128) :
    (res ||| (b.toUInt64 &&& 0x7f) <<< (i * 7).toUInt64).toNat = m % 128 ^ (i + 1) := by
  have hshift : (i * 7).toUInt64.toNat % 64 = 7 * i := by
    rw [Nat.toUInt64, UInt64.toNat_ofNat']
    omega
  have hgroup : (b.toUInt64 &&& 0x7f).toNat = m / 128 ^ i % 128 := by
    rw [UInt64.toNat_and, UInt8.toNat_toUInt64, show (0x7f : UInt64).toNat = 2 ^ 7 - 1 from rfl,
      Nat.and_two_pow_sub_one_eq_mod, ← hb]
  have hbound : (m / 128 ^ i % 128) <<< (7 * i) < 2 ^ 64 := by
    have hp : 2 ^ (7 * i) = 128 ^ i := by rw [Nat.pow_mul]
    have hsplit := Nat.mod_mul (x := m) (a := 128 ^ i) (b := 128)
    have hle : m % (128 ^ i * 128) ≤ m := Nat.mod_le _ _
    rw [Nat.shiftLeft_eq, hp]
    rw [Nat.mul_comm (m / 128 ^ i % 128)]
    omega
  rw [UInt64.toNat_or, UInt64.toNat_shiftLeft, hgroup, hshift, Nat.mod_eq_of_lt hbound, hres,
    mod_or_group]

theorem var_u64_loop_varint {m : Nat} (hm : m < 2 ^ 64) (s : List UInt8) {n i : Nat}
    {res : UInt64} (hn : n ≤ 10) (hin : i ≤ n) (hi : i < (varint m).length)
    (hres : res.toNat = m % 128 ^ i) :
    var_u64_loop (varint m ++ s) n i res =
      if (varint m).length ≤ n then .inr (UInt64.ofNat m, (varint m).length)
      else .inl (UInt64.ofNat (m % 128 ^ n)) := by
  have hbyte := toNat_getD_varint_append s hi
  rw [var_u64_loop]
  by_cases hlt : i < n
  · rw [if_pos hlt]
    have hstep := toNat_or_group hm (show i ≤ 9 by omega) hres
      (show ((varint m ++ s).getD i 0).toNat % 128 = m / 128 ^ i % 128 by rw [hbyte]; split <;> omega)
    have hnext := lt_length_varint_iff hi
    by_cases hlast : m / 128 ^ i < 128
    · -- byte `i` is the last one of the encoding
      have hb : (varint m ++ s).getD i 0 < 0x80 := by
        rw [UInt8.lt_iff_toNat_lt, hbyte, if_pos hlast]
        simp
        omega
      have hlen : (varint m).length = i + 1 := by omega
      have hval : m % 128 ^ (i + 1) = m := by
        rw [← hlen]
        exact Nat.mod_eq_of_lt (lt_pow_length_varint m)
      simp only
      rw [if_pos hb, if_pos (by omega), hlen]
      congr
      rw [← UInt64.toNat_inj, hstep, hval, UInt64.toNat_ofNat']
      omega
    · have hb : ¬ (varint m ++ s).getD i 0 < 0x80 := by
        rw [UInt8.lt_iff_toNat_lt, hbyte, if_neg hlast]
        simp
      simp only
      rw [if_neg hb]
      exact var_u64_loop_varint hm s hn hlt (by omega) hstep
  · have hi' : i = n := by omega
    subst hi'
    rw [if_neg hlt, if_neg (by omega)]
    congr
    rw [← UInt64.toNat_inj, hres, UInt64.toNat_ofNat']
    have := Nat.mod_le m (128 ^ i)
    omega
termination_by n - i

end Loop

section Decode

variable {m : Nat}

theorem tenth_byte (hm : m < 2 ^ 64) (s : List UInt8) (h10 : (varint m).length = 10) :
    ((varint m ++ s).getD 9 0).toNat = m / 128 ^ 9 ∧ m / 128 ^ 9 ≤ 1 := by
  have hlast := (lt_length_varint_iff (show 9 < (varint m).length by omega)).not
  rw [toNat_getD_varint_append s (by omega), if_pos (by omega)]
  omega

theorem or_tenth_byte (hm : m < 2 ^ 64) {b : UInt8} (hb : b.toNat = m / 128 ^ 9) :
    UInt64.ofNat (m % 128 ^ 9) ||| (b.toUInt64 &&& 0x7f) <<< (9 * 7 : Nat).toUInt64 =
      UInt64.ofNat m := by
  have hres : (UInt64.ofNat (m % 128 ^ 9)).toNat = m % 128 ^ 9 := by
    rw [UInt64.toNat_ofNat']
    omega
  rw [← UInt64.toNat_inj, toNat_or_group hm (by omega) hres (by omega), UInt64.toNat_ofNat']
  omega

theorem loop_result_ok (v : UInt64) (s : List UInt8) :
    (Except.ok (UInt64.ofNat v.toNat, (varint v.toNat ++ s).drop (varint v.toNat).length) :
      Except Error (UInt64 × List UInt8)) = .ok (v, s) := by
  rw [UInt64.ofNat_toNat, List.drop_left]

theorem decode_var_u64_encode_var_u64 (v : UInt64) (s : List UInt8) :
    decode_var_u64 (encode_var_u64 v ++ s) = .ok (v, s) := by
  have hm := v.toNat_lt
  have hlen : (varint v.toNat).length ≤ 10 := encode_var_u64_eq v ▸ length_encode_var_u64_le v
  have hpos := length_varint_pos v.toNat
  have hfirst := toNat_getD_varint_append s hpos
  rw [Nat.pow_zero, Nat.div_one] at hfirst
  rw [encode_var_u64_eq]
  obtain ⟨x, xs, hx⟩ : ∃ x xs, varint v.toNat ++ s = x :: xs :=
    List.exists_cons_of_ne_nil (by simp [List.ne_nil_of_length_pos hpos])
  have hx0 : x.toNat = v.toNat % 128 + if v.toNat < 128 then 0 else 128 := by
    rw [← hfirst, hx]
    rfl
  rw [hx, decode_var_u64]
  simp only
  by_cases hsmall : v.toNat < 128
  · -- one byte, returned before either loop
    have hxs : xs = s := by
      rw [varint_of_lt hsmall] at hx
      exact (List.cons.inj hx).2.symm
    rw [if_pos (by rw [UInt8.lt_iff_toNat_lt, hx0, if_pos hsmall]; simp; omega), hxs]
    congr
    rw [← UInt64.toNat_inj, UInt64.toNat_and, UInt8.toNat_toUInt64, hx0, if_pos hsmall,
      show (0x7f : UInt64).toNat = 2 ^ 7 - 1 from rfl, Nat.and_two_pow_sub_one_eq_mod]
    omega
  · rw [if_neg (by rw [UInt8.lt_iff_toNat_lt, hx0, if_neg hsmall]; simp), ← hx]
    have hres : (0 : UInt64).toNat = v.toNat % 128 ^ 0 := by rw [Nat.pow_zero, Nat.mod_one]; rfl
    by_cases hfast : (varint v.toNat ++ s).length ≥ 10 ∨ (varint v.toNat ++ s).getLastD 0 < 0x80
    · have hloop := var_u64_loop_varint hm s (n := 9) (by omega) (Nat.zero_le _) hpos hres
      rw [if_pos hfast]
      by_cases hl9 : (varint v.toNat).length ≤ 9
      · rw [if_pos hl9] at hloop
        rw [hloop]
        exact loop_result_ok v s
      · -- ten bytes: the tenth is read after the loop
        rw [if_neg hl9] at hloop
        obtain ⟨hb9, hle⟩ := tenth_byte hm s (by omega)
        rw [hloop]
        simp only
        rw [if_pos (by rw [UInt8.le_iff_toNat_le, hb9]; simp; omega), or_tenth_byte hm hb9,
          UInt64.ofNat_toNat, show 10 = (varint v.toNat).length by omega, List.drop_left]
    · have hshort : (varint v.toNat ++ s).length ≤ 10 := by omega
      have hloop := var_u64_loop_varint hm s hshort (Nat.zero_le _) hpos hres
      rw [if_neg hfast, decode_var_u64_slow, hloop, if_pos (by simp)]
      exact loop_result_ok v s

theorem try_decode_var_u64_slow_eq (buf : List UInt8) {i : Nat} (val : UInt64)
    (hi : i ≤ buf.length) :
    try_decode_var_u64_slow buf i val =
      match var_u64_loop buf buf.length i val with
      | .inr r => .ok r
      | .inl _ => .error ErrorInner.eof := by
  rw [try_decode_var_u64_slow, var_u64_loop]
  by_cases hlt : i < buf.length
  · have hcast : ((buf.getD i 0) &&& 0x7f).toUInt64 = (buf.getD i 0).toUInt64 &&& 0x7f :=
      UInt64.eq_of_toBitVec_eq rfl
    rw [if_pos hlt]
    simp only
    by_cases hb : buf.getD i 0 < 0x80
    · -- the byte that ends the number: it is or-ed in without its mask, which is the same
      have hmask : (buf.getD i 0).toUInt64 = (buf.getD i 0).toUInt64 &&& 0x7f := by
        rw [← UInt64.toNat_inj, UInt64.toNat_and, UInt8.toNat_toUInt64,
          show (0x7f : UInt64).toNat = 2 ^ 7 - 1 from rfl, Nat.and_two_pow_sub_one_eq_mod]
        rw [UInt8.lt_iff_toNat_lt, show (0x80 : UInt8).toNat = 128 from rfl] at hb
        omega
      rw [if_neg (fun h => UInt8.not_le.mpr hb h.2), if_neg (by omega), if_pos hb, ← hmask]
    · rw [if_pos ⟨hlt, UInt8.not_lt.mp hb⟩, if_neg hb, hcast, try_decode_var_u64_slow_eq buf _ hlt]
  · rw [if_neg (by omega), if_pos (by omega), if_neg hlt]
termination_by buf.length - i

theorem try_decode_var_u64_encode_var_u64 (v : UInt64) (s : List UInt8) :
    try_decode_var_u64 (encode_var_u64 v ++ s) = .ok (v, (encode_var_u64 v).length) := by
  have hm := v.toNat_lt
  have hlen : (varint v.toNat).length ≤ 10 := encode_var_u64_eq v ▸ length_encode_var_u64_le v
  have hpos := length_varint_pos v.toNat
  have hres : (0 : UInt64).toNat = v.toNat % 128 ^ 0 := by rw [Nat.pow_zero, Nat.mod_one]; rfl
  rw [encode_var_u64_eq, try_decode_var_u64]
  by_cases hbig : (varint v.toNat ++ s).length ≥ MAX_VARINT64_LENGTH
  · have hloop := var_u64_loop_varint hm s (n := 9) (by omega) (Nat.zero_le _) hpos hres
    rw [if_pos hbig]
    by_cases hl9 : (varint v.toNat).length ≤ 9
    · rw [if_pos hl9] at hloop
      rw [hloop, UInt64.ofNat_toNat]
    · -- the tenth byte is masked to its last bit, which is all it holds
      rw [if_neg hl9] at hloop
      obtain ⟨hb9, hle⟩ := tenth_byte hm s (by omega)
      have hmask : ((varint v.toNat ++ s).getD 9 0).toUInt64 &&& 0x01 =
          ((varint v.toNat ++ s).getD 9 0).toUInt64 &&& 0x7f := by
        rw [← UInt64.toNat_inj, UInt64.toNat_and, UInt64.toNat_and, UInt8.toNat_toUInt64,
          show (0x7f : UInt64).toNat = 2 ^ 7 - 1 from rfl, Nat.and_two_pow_sub_one_eq_mod,
          show (0x01 : UInt64).toNat = 2 ^ 1 - 1 from rfl, Nat.and_two_pow_sub_one_eq_mod, hb9]
        omega
      rw [hloop]
      simp only
      rw [hmask, show (63 : UInt64) = (9 * 7 : Nat).toUInt64 from rfl, or_tenth_byte hm hb9,
        UInt64.ofNat_toNat, show 10 = (varint v.toNat).length by omega]
  · have hshort : (varint v.toNat ++ s).length ≤ 10 := by
      simp only [MAX_VARINT64_LENGTH] at hbig
      omega
    have hloop := var_u64_loop_varint hm s hshort (Nat.zero_le _) hpos hres
    rw [if_neg hbig, try_decode_var_u64_slow_eq _ _ (Nat.zero_le _), hloop, if_pos (by simp),
      UInt64.ofNat_toNat]

theorem read_var_u64_encode_var_u64 (v : UInt64) (s : List UInt8) :
    NumberDecoder.read_var_u64 (encode_var_u64 v ++ s) = .ok (v, s) := by
  rw [NumberDecoder.read_var_u64, try_decode_var_u64_encode_var_u64]
  simp only [bind, Except.bind, pure, Except.pure, List.drop_left]

end Decode

section Compact

theorem encode_var_i64_ofNat {n : Nat} (h : n < 2 ^ 63) :
    encode_var_i64 (Int64.ofNat n) = encode_var_u64 (UInt64.ofNat (2 * n)) := by
  have hnonneg : ¬ Int64.ofNat n < 0 := by
    have htoInt : (Int64.ofNat n).toInt = n := by
      rw [Int64.toInt_ofNat', Int.bmod_def,
        Int.emod_eq_of_lt (by omega) (by simp [Int64.size]; omega),
        if_pos (by simp [Int64.size]; omega)]
    rw [Int64.lt_iff_toInt_lt, Int64.toInt_zero, htoInt]
    omega
  rw [encode_var_i64, if_neg hnonneg, Int64.toUInt64_ofNat']
  congr 1
  rw [← UInt64.toNat_inj, UInt64.toNat_shiftLeft, UInt64.toNat_ofNat', UInt64.toNat_ofNat',
    Nat.shiftLeft_eq, show (1 : UInt64).toNat % 64 = 1 from rfl]
  omega

theorem decode_var_i64_encode_var_i64_ofNat {n : Nat} (h : n < 2 ^ 63) (s : List UInt8) :
    decode_var_i64 (encode_var_i64 (Int64.ofNat n) ++ s) = .ok (Int64.ofNat n, s) := by
  have hn : (UInt64.ofNat (2 * n)).toNat = 2 * n := by
    rw [UInt64.toNat_ofNat']
    omega
  have heven : UInt64.ofNat (2 * n) &&& 1 = 0 := by
    rw [← UInt64.toNat_inj, UInt64.toNat_and, hn, show (1 : UInt64).toNat = 1 from rfl,
      Nat.and_one_is_mod, show (0 : UInt64).toNat = 0 from rfl]
    omega
  have hhalf : (UInt64.ofNat (2 * n) >>> 1).toInt64 = Int64.ofNat n := by
    rw [← UInt64.toInt64_ofNat']
    congr 1
    rw [← UInt64.toNat_inj, UInt64.toNat_shiftRight, hn, Nat.shiftRight_eq_div_pow,
      show (1 : UInt64).toNat % 64 = 1 from rfl, UInt64.toNat_ofNat']
    omega
  rw [decode_var_i64, encode_var_i64_ofNat h, decode_var_u64_encode_var_u64]
  simp only [bind, Except.bind, pure, Except.pure]
  rw [if_pos heven, hhalf]

theorem decode_compact_bytes_encode_compact_bytes (data s : List UInt8)
    (h : data.length < 2 ^ 63) :
    decode_compact_bytes (encode_compact_bytes data ++ s) = .ok (data, s) := by
  have hlen : (Int64.ofNat data.length).toUInt64.toNat = data.length := by
    rw [Int64.toUInt64_ofNat', UInt64.toNat_ofNat']
    omega
  rw [decode_compact_bytes, encode_compact_bytes, List.append_assoc,
    decode_var_i64_encode_var_i64_ofNat h]
  simp only [bind, Except.bind, pure, Except.pure]
  rw [hlen, if_pos (by simp), List.take_left, List.drop_left]

theorem length_encode_compact_bytes_le (data : List UInt8) (h : data.length < 2 ^ 63) :
    (encode_compact_bytes data).length ≤ MAX_VAR_I64_LEN + data.length := by
  rw [encode_compact_bytes, encode_var_i64_ofNat h, List.length_append]
  have := length_encode_var_u64_le (UInt64.ofNat (2 * data.length))
  simp only [MAX_VAR_U64_LEN, MAX_VAR_I64_LEN] at *
  omega

end Compact

section Consumes

theorem consumes_drop {data rest : List UInt8} {n : Nat} (h : data.drop n = rest) :
    rest.length ≤ data.length := by
  rw [← h, List.length_drop]
  omega

theorem consumes_decode_u64 : Consumes decode_u64 := by
  intro data rest v h
  rw [decode_u64, read_num_bytes] at h
  split at h
  · simp only [Except.ok.injEq, Prod.mk.injEq] at h
    exact consumes_drop h.2
  · cases h

theorem consumes_decode_var_u64_slow : Consumes decode_var_u64_slow := by
  intro data rest v h
  rw [decode_var_u64_slow] at h
  split at h
  · simp only [Except.ok.injEq, Prod.mk.injEq] at h
    exact consumes_drop h.2
  · cases h

theorem consumes_decode_var_u64 : Consumes decode_var_u64 := by
  intro data rest v h
  rw [decode_var_u64.eq_def] at h
  split at h
  · exact consumes_decode_var_u64_slow h
  · split at h
    · simp only [Except.ok.injEq, Prod.mk.injEq] at h
      rw [← h.2, List.length_cons]
      omega
    · split at h
      · split at h
        · simp only [Except.ok.injEq, Prod.mk.injEq] at h
          exact consumes_drop h.2
        · simp only at h
          split at h
          · simp only [Except.ok.injEq, Prod.mk.injEq] at h
            exact consumes_drop h.2
          · cases h
      · exact consumes_decode_var_u64_slow h

theorem consumes_decode_var_i64 : Consumes decode_var_i64 := by
  intro data rest v h
  rw [decode_var_i64] at h
  match hd : decode_var_u64 data, h with
  | .ok (u, mid), h =>
    simp only [bind, Except.bind, pure, Except.pure] at h
    split at h <;>
    · simp only [Except.ok.injEq, Prod.mk.injEq] at h
      rw [← h.2]
      exact consumes_decode_var_u64 hd

theorem consumes_decode_compact_bytes : Consumes decode_compact_bytes := by
  intro data rest v h
  rw [decode_compact_bytes] at h
  match hd : decode_var_i64 data, h with
  | .ok (n, mid), h =>
    simp only [bind, Except.bind, pure, Except.pure] at h
    split at h
    · simp only [Except.ok.injEq, Prod.mk.injEq] at h
      exact Nat.le_trans (consumes_drop h.2) (consumes_decode_var_i64 hd)
    · cases h

theorem consumes_read_u8 : Consumes NumberDecoder.read_u8 := by
  intro data rest v h
  rw [NumberDecoder.read_u8.eq_def] at h
  split at h
  · simp only [Except.ok.injEq, Prod.mk.injEq] at h
    rw [← h.2, List.length_cons]
    omega
  · cases h

end Consumes

end Tikv.Codec
