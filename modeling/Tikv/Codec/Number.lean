import Tikv.Lib.ByteOrder

/-!
The errors of the tikv_util codec (components/tikv_util/src/codec/mod.rs) and the fixed-width
number codec of components/tikv_util/src/codec/number.rs: a `u64` as eight big-endian bytes,
and its descending form, the bytes of the complement. A decoder takes the bytes it reads off
the front of the slice, so it returns the value with the rest of the slice.
-/

namespace Tikv.Codec

open Tikv.Lib.ByteOrder Tikv.Lib.Lex

inductive ErrorKind
  | UnexpectedEof
  | InvalidData
  deriving DecidableEq, Repr

inductive Error
  | Io (kind : ErrorKind) (msg : String)
  | KeyLength
  | KeyPadding
  | KeyNotFound
  | ValueLength
  | ValueMeta
  deriving DecidableEq, Repr

def Error.unexpected_eof : Error :=
  .Io .UnexpectedEof "eof"

def U64_SIZE : Nat := 8

def MAX_VAR_U64_LEN : Nat := 10

def encode_u64 (v : UInt64) : List UInt8 :=
  to_be_bytes 8 v.toNat

def encode_u64_desc (v : UInt64) : List UInt8 :=
  encode_u64 (~~~v)

def read_u64_be (buf : List UInt8) : UInt64 :=
  UInt64.ofNat (from_be (buf.take 8))

def read_num_bytes {α : Type} (size : Nat) (data : List UInt8) (f : List UInt8 → α) :
    Except Error (α × List UInt8) :=
  if data.length ≥ size then .ok (f (data.take size), data.drop size)
  else .error Error.unexpected_eof

def decode_u64 (data : List UInt8) : Except Error (UInt64 × List UInt8) :=
  read_num_bytes U64_SIZE data read_u64_be

def decode_u64_desc (data : List UInt8) : Except Error (UInt64 × List UInt8) := do
  let (v, rest) ← decode_u64 data
  pure (~~~v, rest)

@[simp]
theorem length_encode_u64 (v : UInt64) : (encode_u64 v).length = 8 :=
  length_to_be_bytes _ _

@[simp]
theorem length_encode_u64_desc (v : UInt64) : (encode_u64_desc v).length = 8 :=
  length_to_be_bytes _ _

theorem read_u64_be_encode_u64 (v : UInt64) (s : List UInt8) :
    read_u64_be (encode_u64 v ++ s) = v := by
  rw [read_u64_be, List.take_left' (length_encode_u64 v), encode_u64, from_be_to_be_bytes,
    Nat.mod_eq_of_lt (show v.toNat < 256 ^ 8 from v.toNat_lt), UInt64.ofNat_toNat]

theorem decode_u64_encode_u64 (v : UInt64) (s : List UInt8) :
    decode_u64 (encode_u64 v ++ s) = .ok (v, s) := by
  have hlen : (encode_u64 v ++ s).length ≥ U64_SIZE := by simp [U64_SIZE]
  rw [decode_u64, read_num_bytes, if_pos hlen]
  simp only [U64_SIZE, List.take_left' (length_encode_u64 v), List.drop_left' (length_encode_u64 v)]
  rw [← List.append_nil (encode_u64 v), read_u64_be_encode_u64]

theorem decode_u64_desc_encode_u64_desc (v : UInt64) (s : List UInt8) :
    decode_u64_desc (encode_u64_desc v ++ s) = .ok (v, s) := by
  rw [decode_u64_desc, encode_u64_desc, decode_u64_encode_u64]
  simp only [bind, Except.bind, pure, Except.pure, UInt64.not_not]

theorem encode_u64_desc_diffLt {t₁ t₂ : UInt64} (h : t₂ < t₁) :
    DiffLt (· < ·) (encode_u64_desc t₁) (encode_u64_desc t₂) := by
  have h1 := t₁.toNat_lt
  rw [UInt64.lt_iff_toNat_lt] at h
  apply to_be_bytes_diffLt
  · simp only [UInt64.toNat_not, UInt64.size] at *
    omega
  · simp only [UInt64.toNat_not, UInt64.size]
    omega

end Tikv.Codec
